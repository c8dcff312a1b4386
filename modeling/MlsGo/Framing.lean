import MlsGo.KeySchedule

/-!
# Message framing and protection

Package `framing`: framed content and its authentication, public messages with
a membership tag, private messages with two layers of AEAD, and the envelope.
Content types stay wire codes, because a private message carries its code
unchecked until the content is decoded.
-/

namespace MlsGo

open DecoderLaws

variable (S : Suite)

inductive WireFormat where
  | publicMessage
  | privateMessage
  deriving DecidableEq, Repr

def WireFormat.code : WireFormat → UInt16
  | .publicMessage => 1
  | .privateMessage => 2

def contentTypeApplication : UInt8 := 1
def contentTypeProposal : UInt8 := 2
def contentTypeCommit : UInt8 := 3

/-! ## Senders -/

inductive Sender where
  | member (leafIndex : UInt32)
  | external (index : UInt32)
  | newMemberProposal
  | newMemberCommit
  deriving DecidableEq, Repr

/-- The field `LeafIndex`, zero for senders that are not members. -/
def Sender.leafIndex : Sender → ℕ
  | .member leafIndex => leafIndex.toNat
  | _ => 0

def Sender.isMember : Sender → Bool
  | .member _ => true
  | _ => false

def Sender.code : Sender → UInt8
  | .member _ => 1
  | .external _ => 2
  | .newMemberProposal => 3
  | .newMemberCommit => 4

def Sender.marshal : Sender → Bytes
  | .member leafIndex => writeUint8 1 ++ writeUint32 leafIndex
  | .external index => writeUint8 2 ++ writeUint32 index
  | .newMemberProposal => writeUint8 3
  | .newMemberCommit => writeUint8 4

def decodeSender : Cursor Sender := do
  let senderType ← readUint8
  if senderType = 1 then
    let leafIndex ← readUint32
    return .member leafIndex
  else if senderType = 2 then
    let index ← readUint32
    return .external index
  else if senderType = 3 then return .newMemberProposal
  else if senderType = 4 then return .newMemberCommit
  else liftM (fail (α := Sender) s!"framing: invalid sender type {senderType}")

/-! ## Inner content -/

def marshalContent (contentType : UInt8) (content : Bytes) : Result Bytes :=
  if contentType = contentTypeApplication then writeOpaqueV content
  else if contentType = contentTypeProposal ∨ contentType = contentTypeCommit
  then .ok content
  else fail s!"framing: invalid content type {contentType}"

/-- Run `f` over an inline structure and return the bytes it consumed. -/
def skim (f : Cursor Unit) : Cursor Bytes := fun buf => do
  let (_, rest) ← f buf
  return (buf.take (buf.length - rest.length), rest)

def skimCommit : Cursor Unit := do
  let _ ← readOpaqueV
  let present ← readUint8
  if present = 0 then return ()
  else if present = 1 then
    let _ ← decodeUpdatePath
    return ()
  else liftM (fail (α := Unit) s!"framing: invalid optional<UpdatePath> presence {present}")

def skimKeyPackage : Cursor Unit := do
  let _ ← readUint16
  let _ ← readUint16
  let _ ← readOpaqueV
  let _ ← decodeLeafNode
  let _ ← readVectorV decodeExtension
  let _ ← readOpaqueV
  return ()

def skimPskSource : Cursor Unit := do
  let pskType ← readUint8
  if pskType = 1 then
    let _ ← readOpaqueV
    return ()
  else if pskType = 2 then
    let _ ← readUint8
    let _ ← readOpaqueV
    let _ ← readUint64
    return ()
  else liftM (fail (α := Unit) s!"framing: unknown PSKType {pskType}")

def skimPreSharedKeyID : Cursor Unit := do
  skimPskSource
  let _ ← readOpaqueV
  return ()

def skimReInit : Cursor Unit := do
  let _ ← readOpaqueV
  let _ ← readUint16
  let _ ← readUint16
  let _ ← readOpaqueV
  return ()

def skimProposal : Cursor Unit := do
  let proposalType ← readUint16
  if proposalType = 1 then skimKeyPackage
  else if proposalType = 2 then
    let _ ← decodeLeafNode
    return ()
  else if proposalType = 3 then
    let _ ← readUint32
    return ()
  else if proposalType = 4 then skimPreSharedKeyID
  else if proposalType = 5 then skimReInit
  else if proposalType = 6 then
    let _ ← readOpaqueV
    return ()
  else if proposalType = 7 then
    let _ ← readOpaqueV
    return ()
  else liftM (fail (α := Unit) s!"framing: unknown proposal type {proposalType}")

def decodeContent (contentType : UInt8) : Cursor Bytes :=
  if contentType = contentTypeApplication then readOpaqueV
  else if contentType = contentTypeProposal then skim skimProposal
  else if contentType = contentTypeCommit then skim skimCommit
  else liftM (fail (α := Bytes) s!"framing: invalid content type {contentType}")

/-! ## Framed content -/

structure FramedContent where
  groupID : Bytes
  epoch : UInt64
  sender : Sender
  authenticatedData : Bytes
  contentType : UInt8
  content : Bytes
  deriving DecidableEq, Repr

def FramedContent.marshal (fc : FramedContent) : Result Bytes := do
  let groupID ← writeOpaqueV fc.groupID
  let authenticatedData ← writeOpaqueV fc.authenticatedData
  let content ← marshalContent fc.contentType fc.content
  return groupID ++ (writeUint64 fc.epoch ++ (fc.sender.marshal ++
    (authenticatedData ++ (writeUint8 fc.contentType ++ content))))

def decodeFramedContent : Cursor FramedContent := do
  let groupID ← readOpaqueV
  let epoch ← readUint64
  let sender ← decodeSender
  let authenticatedData ← readOpaqueV
  let contentType ← readUint8
  let content ← decodeContent contentType
  return ⟨groupID, epoch, sender, authenticatedData, contentType, content⟩

structure FramedContentAuthData where
  signature : Bytes
  confirmationTag : Bytes
  deriving DecidableEq, Repr

def FramedContentAuthData.marshal (a : FramedContentAuthData)
    (contentType : UInt8) : Result Bytes := do
  let signature ← writeOpaqueV a.signature
  if contentType = contentTypeCommit then
    let tag ← writeOpaqueV a.confirmationTag
    return signature ++ tag
  else return signature

def decodeFramedContentAuthData (contentType : UInt8) :
    Cursor FramedContentAuthData := do
  let signature ← readOpaqueV
  if contentType = contentTypeCommit then
    let tag ← readOpaqueV
    return ⟨signature, tag⟩
  else return ⟨signature, []⟩

structure AuthenticatedContent where
  wireFormat : WireFormat
  content : FramedContent
  auth : FramedContentAuthData
  deriving DecidableEq, Repr

def AuthenticatedContent.marshal (ac : AuthenticatedContent) :
    Result Bytes := do
  let content ← ac.content.marshal
  let auth ← ac.auth.marshal ac.content.contentType
  return writeUint16 ac.wireFormat.code ++ (content ++ auth)

/-- Bytes to be signed; the group context is bound for members and external
joiners. -/
def framedContentTBS (wf : WireFormat) (fc : FramedContent)
    (gc : GroupContext) : Result Bytes := do
  let content ← fc.marshal
  let head := writeUint16 1 ++ (writeUint16 wf.code ++ content)
  match fc.sender with
  | .member _ | .newMemberCommit =>
      let context ← gc.marshal
      return head ++ context
  | .external _ | .newMemberProposal => return head

def signContent (wf : WireFormat) (fc : FramedContent)
    (signer : Option Signer) (gc : GroupContext) : Result Bytes := do
  let tbs ← framedContentTBS wf fc gc
  S.signWithLabel signer "FramedContentTBS" tbs

def AuthenticatedContent.verify (ac : AuthenticatedContent)
    (signaturePub : Bytes) (gc : GroupContext) : Bool :=
  match framedContentTBS ac.wireFormat ac.content gc with
  | .ok tbs => S.verifyWithLabel signaturePub "FramedContentTBS" tbs ac.auth.signature
  | .error _ => false

def signCommit (signer : Option Signer) (gc : GroupContext)
    (fc : FramedContent) (wf : WireFormat) : Result (Bytes × Bytes) := do
  let signature ← signContent S wf fc signer gc
  let content ← fc.marshal
  let sig ← writeOpaqueV signature
  return (writeUint16 wf.code ++ (content ++ sig), signature)

/-! ## Public messages -/

structure PublicMessage where
  content : FramedContent
  auth : FramedContentAuthData
  membershipTag : Bytes
  deriving DecidableEq, Repr

def PublicMessage.marshal (m : PublicMessage) : Result Bytes := do
  let content ← m.content.marshal
  let auth ← m.auth.marshal m.content.contentType
  if m.content.sender.isMember then
    let tag ← writeOpaqueV m.membershipTag
    return content ++ (auth ++ tag)
  else return content ++ auth

def decodePublicMessage : Cursor PublicMessage := do
  let content ← decodeFramedContent
  let auth ← decodeFramedContentAuthData content.contentType
  if content.sender.isMember then
    let tag ← readOpaqueV
    return ⟨content, auth, tag⟩
  else return ⟨content, auth, []⟩

def authenticatedContentTBM (wf : WireFormat) (fc : FramedContent)
    (auth : FramedContentAuthData) (gc : GroupContext) : Result Bytes := do
  let tbs ← framedContentTBS wf fc gc
  let body ← auth.marshal fc.contentType
  return tbs ++ body

def tagFor (fc : FramedContent) (tag : Bytes) : Bytes :=
  if fc.contentType = contentTypeCommit then tag else []

def protectPublic (signer : Option Signer) (gc : GroupContext)
    (membershipKey : Bytes) (fc : FramedContent) (tag : Bytes) :
    Result PublicMessage := do
  let signature ← signContent S .publicMessage fc signer gc
  let auth : FramedContentAuthData := ⟨signature, tagFor fc tag⟩
  if fc.sender.isMember then
    let tbm ← authenticatedContentTBM .publicMessage fc auth gc
    return ⟨fc, auth, S.mac membershipKey tbm⟩
  else return ⟨fc, auth, []⟩

def assembleCommitPublic (gc : GroupContext) (membershipKey : Bytes)
    (fc : FramedContent) (signature tag : Bytes) : Result PublicMessage := do
  let tbm ← authenticatedContentTBM .publicMessage fc ⟨signature, tag⟩ gc
  return ⟨fc, ⟨signature, tag⟩, S.mac membershipKey tbm⟩

def checkMembershipTag (gc : GroupContext) (membershipKey : Bytes)
    (m : PublicMessage) : Result Unit :=
  if m.content.sender.isMember then do
    let tbm ← authenticatedContentTBM .publicMessage m.content m.auth gc
    if S.mac membershipKey tbm ≠ m.membershipTag then
      fail "framing: membership_tag verification failed"
    else return ()
  else return ()

def unprotectPublic (signaturePub : Bytes) (gc : GroupContext)
    (membershipKey : Bytes) (m : PublicMessage) :
    Result AuthenticatedContent := do
  checkMembershipTag S gc membershipKey m
  let ac : AuthenticatedContent := ⟨.publicMessage, m.content, m.auth⟩
  if ¬ ac.verify S signaturePub gc then
    fail "framing: signature verification failed"
  else return ac

/-! ## Private messages -/

structure PrivateMessage where
  groupID : Bytes
  epoch : UInt64
  contentType : UInt8
  authenticatedData : Bytes
  encryptedSenderData : Bytes
  ciphertext : Bytes
  deriving DecidableEq, Repr

def PrivateMessage.marshal (m : PrivateMessage) : Result Bytes := do
  let groupID ← writeOpaqueV m.groupID
  let authenticatedData ← writeOpaqueV m.authenticatedData
  let senderData ← writeOpaqueV m.encryptedSenderData
  let ciphertext ← writeOpaqueV m.ciphertext
  return groupID ++ (writeUint64 m.epoch ++ (writeUint8 m.contentType ++
    (authenticatedData ++ (senderData ++ ciphertext))))

def decodePrivateMessage : Cursor PrivateMessage := do
  let groupID ← readOpaqueV
  let epoch ← readUint64
  let contentType ← readUint8
  let authenticatedData ← readOpaqueV
  let senderData ← readOpaqueV
  let ciphertext ← readOpaqueV
  return ⟨groupID, epoch, contentType, authenticatedData, senderData, ciphertext⟩

structure ReuseGuard where
  b0 : UInt8
  b1 : UInt8
  b2 : UInt8
  b3 : UInt8
  deriving DecidableEq, Repr

structure SenderData where
  leafIndex : UInt32
  generation : UInt32
  reuseGuard : ReuseGuard
  deriving DecidableEq, Repr

def SenderData.marshal (sd : SenderData) : Bytes :=
  writeUint32 sd.leafIndex ++ (writeUint32 sd.generation ++
    [sd.reuseGuard.b0, sd.reuseGuard.b1, sd.reuseGuard.b2, sd.reuseGuard.b3])

def decodeSenderData : Cursor SenderData := do
  let leafIndex ← readUint32
  let generation ← readUint32
  let b0 ← readUint8
  let b1 ← readUint8
  let b2 ← readUint8
  let b3 ← readUint8
  return ⟨leafIndex, generation, ⟨b0, b1, b2, b3⟩⟩

def senderDataAAD (groupID : Bytes) (epoch : UInt64) (contentType : UInt8) :
    Result Bytes := do
  let group ← writeOpaqueV groupID
  return group ++ (writeUint64 epoch ++ writeUint8 contentType)

def privateContentAAD (groupID : Bytes) (epoch : UInt64)
    (contentType : UInt8) (authenticatedData : Bytes) : Result Bytes := do
  let group ← writeOpaqueV groupID
  let ad ← writeOpaqueV authenticatedData
  return group ++ (writeUint64 epoch ++ (writeUint8 contentType ++ ad))

def ratchetTypeFor (contentType : UInt8) : RatchetType :=
  if contentType = contentTypeApplication then .application else .handshake

def applyReuseGuard (nonce : Bytes) (guard : ReuseGuard) : Result Bytes :=
  match nonce with
  | n0 :: n1 :: n2 :: n3 :: rest =>
      .ok ((n0 ^^^ guard.b0) :: (n1 ^^^ guard.b1) :: (n2 ^^^ guard.b2) ::
        (n3 ^^^ guard.b3) :: rest)
  | _ => .error .panic

def privateMessageContent (fc : FramedContent) (auth : FramedContentAuthData)
    (paddingSize : ℕ) : Result Bytes := do
  let content ← marshalContent fc.contentType fc.content
  let body ← auth.marshal fc.contentType
  return content ++ (body ++ List.replicate paddingSize 0)

def decodePrivateMessageContent (pt : Bytes) (contentType : UInt8) :
    Result (Bytes × FramedContentAuthData) := do
  let (content, rest) ← decodeContent contentType pt
  let (auth, padding) ← decodeFramedContentAuthData contentType rest
  if padding.any (· ≠ 0) then
    fail "framing: non-zero padding in PrivateMessageContent"
  else return (content, auth)

def sealPrivate (st : SecretTree) (senderDataSecret : Bytes)
    (fc : FramedContent) (auth : FramedContentAuthData) (generation : UInt32)
    (guard : ReuseGuard) (paddingSize : ℕ) : Result PrivateMessage := do
  let (key, nonce) ← st.keyNonce S fc.sender.leafIndex
    (ratchetTypeFor fc.contentType) generation.toNat
  let contentAAD ← privateContentAAD fc.groupID fc.epoch fc.contentType fc.authenticatedData
  let pt ← privateMessageContent fc auth paddingSize
  let guarded ← applyReuseGuard nonce guard
  let ciphertext ← liftErr (S.aeadSeal key guarded contentAAD pt)
  let (sdKey, sdNonce) ← senderDataKeyNonce S senderDataSecret ciphertext
  let sdAAD ← senderDataAAD fc.groupID fc.epoch fc.contentType
  let sd : SenderData := ⟨UInt32.ofNat fc.sender.leafIndex, generation, guard⟩
  let encSD ← liftErr (S.aeadSeal sdKey sdNonce sdAAD sd.marshal)
  return ⟨fc.groupID, fc.epoch, fc.contentType, fc.authenticatedData, encSD, ciphertext⟩

def protectPrivate (signer : Option Signer) (gc : GroupContext)
    (st : SecretTree) (senderDataSecret : Bytes) (fc : FramedContent)
    (generation : UInt32) (guard : ReuseGuard) (paddingSize : ℕ)
    (tag : Bytes) : Result PrivateMessage :=
  if ¬ fc.sender.isMember then
    fail s!"framing: PrivateMessage requires a member sender, got {fc.sender.code}"
  else do
    let signature ← signContent S .privateMessage fc signer gc
    sealPrivate S st senderDataSecret fc ⟨signature, tagFor fc tag⟩ generation guard paddingSize

def assembleCommitPrivate (st : SecretTree) (senderDataSecret : Bytes)
    (fc : FramedContent) (generation : UInt32) (guard : ReuseGuard)
    (paddingSize : ℕ) (signature tag : Bytes) : Result PrivateMessage :=
  if ¬ fc.sender.isMember then
    fail s!"framing: AssembleCommitPrivate requires a member sender, got {fc.sender.code}"
  else
    sealPrivate S st senderDataSecret fc ⟨signature, tag⟩ generation guard paddingSize

def openSenderData (senderDataSecret : Bytes) (m : PrivateMessage) :
    Result SenderData := do
  let (sdKey, sdNonce) ← senderDataKeyNonce S senderDataSecret m.ciphertext
  let sdAAD ← senderDataAAD m.groupID m.epoch m.contentType
  let sdPlain ← within "framing: sender data open"
    (liftErr (S.aeadOpen sdKey sdNonce sdAAD m.encryptedSenderData))
  let (sd, rest) ← decodeSenderData sdPlain
  if ¬ rest.isEmpty then fail "framing: trailing bytes after SenderData"
  else return sd

def unprotectPrivate (signaturePub : ℕ → Result Bytes) (gc : GroupContext)
    (st : SecretTree) (senderDataSecret : Bytes) (m : PrivateMessage) :
    Result AuthenticatedContent := do
  let sd ← openSenderData S senderDataSecret m
  let (key, nonce) ← st.keyNonce S sd.leafIndex.toNat
    (ratchetTypeFor m.contentType) sd.generation.toNat
  let contentAAD ← privateContentAAD m.groupID m.epoch m.contentType m.authenticatedData
  let guarded ← applyReuseGuard nonce sd.reuseGuard
  let pt ← within "framing: content open"
    (liftErr (S.aeadOpen key guarded contentAAD m.ciphertext))
  let (content, auth) ← decodePrivateMessageContent pt m.contentType
  let fc : FramedContent := ⟨m.groupID, m.epoch, .member sd.leafIndex,
    m.authenticatedData, m.contentType, content⟩
  let ac : AuthenticatedContent := ⟨.privateMessage, fc, auth⟩
  let pub ← signaturePub sd.leafIndex.toNat
  if ¬ ac.verify S pub gc then fail "framing: signature verification failed"
  else return ac

/-! ## Envelope -/

inductive MLSBody where
  | publicMessage (m : PublicMessage)
  | privateMessage (m : PrivateMessage)
  deriving DecidableEq, Repr

structure MLSMessage where
  version : UInt16
  body : MLSBody
  deriving DecidableEq, Repr

def MLSMessage.marshal (m : MLSMessage) : Result Bytes :=
  match m.body with
  | .publicMessage pm => do
      let body ← pm.marshal
      return writeUint16 m.version ++ (writeUint16 1 ++ body)
  | .privateMessage pm => do
      let body ← pm.marshal
      return writeUint16 m.version ++ (writeUint16 2 ++ body)

def decodeMLSMessage : Cursor MLSMessage := do
  let version ← readUint16
  let wireFormat ← readUint16
  if wireFormat = 1 then
    let pm ← decodePublicMessage
    return ⟨version, .publicMessage pm⟩
  else if wireFormat = 2 then
    let pm ← decodePrivateMessage
    return ⟨version, .privateMessage pm⟩
  else liftM (fail (α := MLSMessage)
    s!"framing: unsupported wire format {hexNat wireFormat.toNat}")

def unmarshal {α : Type} (dec : Cursor α) (message : String) (data : Bytes) :
    Result α := do
  let (value, rest) ← dec data
  if ¬ rest.isEmpty then fail message else return value

def unmarshalMLSMessage (data : Bytes) : Result MLSMessage :=
  unmarshal decodeMLSMessage "framing: trailing bytes after MLSMessage" data

end MlsGo
