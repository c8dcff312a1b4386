import MlsGo.Framing
import MlsGo.TreeSync

/-!
# Protocol objects of a group

Package `group`: key packages, proposals, commits, group information and
welcomes, with their wire forms and signatures.
-/

namespace MlsGo

open DecoderLaws

variable (S : Suite)

/-! ## Key packages -/

structure KeyPackage where
  version : UInt16
  cipherSuite : UInt16
  initKey : Bytes
  leafNode : LeafNode
  extensions : List Extension
  signature : Bytes
  deriving DecidableEq, Repr

def KeyPackage.marshalTBS (kp : KeyPackage) : Result Bytes := do
  let initKey ← writeOpaqueV kp.initKey
  let leafNode ← kp.leafNode.marshal
  let extensions ← writeExtensions kp.extensions
  return writeUint16 kp.version ++ (writeUint16 kp.cipherSuite ++ (initKey ++
    (leafNode ++ extensions)))

def KeyPackage.marshal (kp : KeyPackage) : Result Bytes := do
  let tbs ← kp.marshalTBS
  let signature ← writeOpaqueV kp.signature
  return tbs ++ signature

def decodeKeyPackage : Cursor KeyPackage := do
  let version ← readUint16
  let cipherSuite ← readUint16
  let initKey ← readOpaqueV
  let leafNode ← decodeLeafNode
  let extensions ← readVectorV decodeExtension
  let signature ← readOpaqueV
  return ⟨version, cipherSuite, initKey, leafNode, extensions, signature⟩

def KeyPackage.ref (kp : KeyPackage) : Result Bytes := do
  let raw ← kp.marshal
  S.refHash "MLS 1.0 KeyPackage Reference" raw

def defaultCapabilities : Capabilities := ⟨[1], [S.id], [], [], [1]⟩

structure KeyPackageSeeds where
  initSeed : Bytes
  leafSeed : Bytes

def newKeyPackage (cred : Credential) (signer : Option Signer)
    (lifetime : Lifetime) (seeds : KeyPackageSeeds) :
    Result (KeyPackage × Bytes × Bytes) := do
  let (initPriv, initPub) ← liftErr (S.generateHPKEKeyPair seeds.initSeed)
  let (leafPriv, leafPub) ← liftErr (S.generateHPKEKeyPair seeds.leafSeed)
  let sigPub ← S.publicKeyOf signer
  let ln ← signLeafNode S signer
    ⟨leafPub, sigPub, cred, defaultCapabilities S, .keyPackage lifetime, [], []⟩ [] 0
  let kp : KeyPackage := ⟨1, S.id, initPub, ln, [], []⟩
  let tbs ← kp.marshalTBS
  let sig ← S.signWithLabel signer "KeyPackageTBS" tbs
  return ({ kp with signature := sig }, initPriv, leafPriv)

/-! ## Proposals and commits -/

inductive Proposal where
  | add (keyPackage : KeyPackage)
  | update (leafNode : LeafNode)
  | remove (removed : UInt32)
  | preSharedKey (psk : PreSharedKeyID)
  | reInit (groupID : Bytes) (version cipherSuite : UInt16) (extensions : List Extension)
  | externalInit (kemOutput : Bytes)
  | groupContextExtensions (extensions : List Extension)
  deriving DecidableEq, Repr

def Proposal.marshal : Proposal → Result Bytes
  | .add kp => do
      let body ← kp.marshal
      return writeUint16 1 ++ body
  | .update ln => do
      let body ← ln.marshal
      return writeUint16 2 ++ body
  | .remove removed => .ok (writeUint16 3 ++ writeUint32 removed)
  | .preSharedKey psk => do
      let body ← psk.marshal
      return writeUint16 4 ++ body
  | .reInit groupID version cipherSuite extensions => do
      let group ← writeOpaqueV groupID
      let body ← writeExtensions extensions
      return writeUint16 5 ++ (group ++ (writeUint16 version ++ (writeUint16 cipherSuite ++ body)))
  | .externalInit kemOutput => do
      let body ← writeOpaqueV kemOutput
      return writeUint16 6 ++ body
  | .groupContextExtensions extensions => do
      let body ← writeExtensions extensions
      return writeUint16 7 ++ body

def decodeReInit : Cursor Proposal := do
  let groupID ← readOpaqueV
  let version ← readUint16
  let cipherSuite ← readUint16
  let extensions ← readVectorV decodeExtension
  return .reInit groupID version cipherSuite extensions

def decodeProposal : Cursor Proposal := do
  let proposalType ← readUint16
  if proposalType = 1 then
    let kp ← decodeKeyPackage
    return .add kp
  else if proposalType = 2 then
    let ln ← decodeLeafNode
    return .update ln
  else if proposalType = 3 then
    let removed ← readUint32
    return .remove removed
  else if proposalType = 4 then
    let psk ← decodePreSharedKeyID
    return .preSharedKey psk
  else if proposalType = 5 then decodeReInit
  else if proposalType = 6 then
    let kemOutput ← readOpaqueV
    return .externalInit kemOutput
  else if proposalType = 7 then
    let extensions ← readVectorV decodeExtension
    return .groupContextExtensions extensions
  else liftM (fail (α := Proposal) s!"group: unknown proposal type {proposalType}")

def unmarshalProposal (data : Bytes) : Result Proposal :=
  unmarshal decodeProposal "group: trailing bytes after Proposal" data

inductive ProposalOrRef where
  | proposal (p : Proposal)
  | reference (ref : Bytes)
  deriving DecidableEq, Repr

def ProposalOrRef.marshal : ProposalOrRef → Result Bytes
  | .proposal p => do
      let body ← p.marshal
      return writeUint8 1 ++ body
  | .reference ref => do
      let body ← writeOpaqueV ref
      return writeUint8 2 ++ body

def decodeProposalOrRef : Cursor ProposalOrRef := do
  let kind ← readUint8
  if kind = 1 then
    let p ← decodeProposal
    return .proposal p
  else if kind = 2 then
    let ref ← readOpaqueV
    return .reference ref
  else liftM (fail (α := ProposalOrRef) s!"group: unknown ProposalOrRefType {kind}")

structure Commit where
  proposals : List ProposalOrRef
  path : Option UpdatePath
  deriving DecidableEq, Repr

def Commit.marshal (cm : Commit) : Result Bytes := do
  let proposals ← writeVectorV cm.proposals ProposalOrRef.marshal
  match cm.path with
  | none => return proposals ++ writeUint8 0
  | some path =>
      let up ← path.marshal
      return proposals ++ (writeUint8 1 ++ up)

def decodeCommit : Cursor Commit := do
  let proposals ← readVectorV decodeProposalOrRef
  let present ← readUint8
  if present = 0 then return ⟨proposals, none⟩
  else if present = 1 then
    let up ← decodeUpdatePath
    return ⟨proposals, some up⟩
  else liftM (fail (α := Commit) s!"group: invalid optional<UpdatePath> presence {present}")

def unmarshalCommit (data : Bytes) : Result Commit :=
  unmarshal decodeCommit "group: trailing bytes after Commit" data

/-! ## Group information -/

def extensionTypeRatchetTree : UInt16 := 0x0002
def extensionTypeExternalPub : UInt16 := 0x0004

structure GroupInfo where
  groupContext : GroupContext
  extensions : List Extension
  confirmationTag : Bytes
  signer : UInt32
  signature : Bytes
  deriving DecidableEq, Repr

def GroupInfo.marshalTBS (gi : GroupInfo) : Result Bytes := do
  let context ← gi.groupContext.marshal
  let extensions ← writeExtensions gi.extensions
  let tag ← writeOpaqueV gi.confirmationTag
  return context ++ (extensions ++ (tag ++ writeUint32 gi.signer))

def GroupInfo.marshal (gi : GroupInfo) : Result Bytes := do
  let tbs ← gi.marshalTBS
  let signature ← writeOpaqueV gi.signature
  return tbs ++ signature

def decodeGroupInfo : Cursor GroupInfo := do
  let context ← decodeGroupContext
  let extensions ← readVectorV decodeExtension
  let tag ← readOpaqueV
  let signer ← readUint32
  let signature ← readOpaqueV
  return ⟨context, extensions, tag, signer, signature⟩

def unmarshalGroupInfo (data : Bytes) : Result GroupInfo :=
  unmarshal decodeGroupInfo "group: trailing bytes after GroupInfo" data

def GroupInfo.sign (gi : GroupInfo) (signer : Option Signer) :
    Result GroupInfo := do
  let tbs ← gi.marshalTBS
  let sig ← S.signWithLabel signer "GroupInfoTBS" tbs
  return { gi with signature := sig }

def GroupInfo.verifySignature (gi : GroupInfo) (signerPub : Bytes) :
    Result Bool := do
  let tbs ← gi.marshalTBS
  return S.verifyWithLabel signerPub "GroupInfoTBS" tbs gi.signature

def GroupInfo.extensionData (gi : GroupInfo) (extensionType : UInt16) :
    Option Bytes :=
  (gi.extensions.find? fun e => e.extensionType = extensionType).map (·.extensionData)

def GroupInfo.ratchetTreeExtension (gi : GroupInfo) : Option Bytes :=
  gi.extensionData extensionTypeRatchetTree

def GroupInfo.externalPubExtension (gi : GroupInfo) : Option Bytes :=
  gi.extensionData extensionTypeExternalPub

/-! ## Welcomes -/

structure GroupSecrets where
  joinerSecret : Bytes
  pathSecret : Option Bytes
  psks : List PreSharedKeyID
  deriving DecidableEq, Repr

def GroupSecrets.marshal (gs : GroupSecrets) : Result Bytes := do
  let joiner ← writeOpaqueV gs.joinerSecret
  let path ← writeOptional gs.pathSecret writeOpaqueV
  let psks ← writeVectorV gs.psks PreSharedKeyID.marshal
  return joiner ++ (path ++ psks)

def decodePathSecret : Cursor (Option Bytes) := do
  let present ← readUint8
  if present = 0 then return none
  else if present = 1 then
    let pathSecret ← readOpaqueV
    return some pathSecret
  else liftM (fail (α := Option Bytes) s!"group: invalid optional<PathSecret> presence {present}")

def decodeGroupSecrets : Cursor GroupSecrets := do
  let joiner ← readOpaqueV
  let path ← decodePathSecret
  let psks ← readVectorV decodePreSharedKeyID
  return ⟨joiner, path, psks⟩

def unmarshalGroupSecrets (data : Bytes) : Result GroupSecrets :=
  unmarshal decodeGroupSecrets "group: trailing bytes after GroupSecrets" data

structure EncryptedGroupSecrets where
  newMember : Bytes
  encryptedGroupSecrets : HPKECiphertext
  deriving DecidableEq, Repr

def EncryptedGroupSecrets.marshal (egs : EncryptedGroupSecrets) :
    Result Bytes := do
  let newMember ← writeOpaqueV egs.newMember
  let secrets ← egs.encryptedGroupSecrets.marshal
  return newMember ++ secrets

def decodeEncryptedGroupSecrets : Cursor EncryptedGroupSecrets := do
  let newMember ← readOpaqueV
  let secrets ← decodeHPKECiphertext
  return ⟨newMember, secrets⟩

structure Welcome where
  cipherSuite : UInt16
  secrets : List EncryptedGroupSecrets
  encryptedGroupInfo : Bytes
  deriving DecidableEq, Repr

def Welcome.marshal (w : Welcome) : Result Bytes := do
  let secrets ← writeVectorV w.secrets EncryptedGroupSecrets.marshal
  let info ← writeOpaqueV w.encryptedGroupInfo
  return writeUint16 w.cipherSuite ++ (secrets ++ info)

def decodeWelcome : Cursor Welcome := do
  let cipherSuite ← readUint16
  let secrets ← readVectorV decodeEncryptedGroupSecrets
  let info ← readOpaqueV
  return ⟨cipherSuite, secrets, info⟩

/-! ## Envelopes of welcomes and key packages -/

def wireFormatWelcome : UInt16 := 3
def wireFormatKeyPackage : UInt16 := 5

def writeEnvelopeHeader (wireFormat : UInt16) : Bytes := writeUint16 1 ++ writeUint16 wireFormat

def decodeEnvelopeHeader (expected : UInt16) : Cursor Unit := do
  let version ← readUint16
  if version ≠ 1 then
    liftM (fail (α := Unit) s!"group: MLSMessage version {hexNat version.toNat}, want 0x1")
  else
    let wireFormat ← readUint16
    if wireFormat ≠ expected then
      liftM (fail (α := Unit)
        s!"group: MLSMessage wire_format {hexNat wireFormat.toNat}, want {hexNat expected.toNat}")
    else return ()

def decodeEnvelope {α : Type} (wireFormat : UInt16) (dec : Cursor α)
    (message : String) (data : Bytes) : Result α :=
  unmarshal (do decodeEnvelopeHeader wireFormat; dec) message data

def decodeWelcomeMessage (data : Bytes) : Result Welcome :=
  decodeEnvelope wireFormatWelcome decodeWelcome
    "group: trailing bytes after Welcome envelope body" data

def encodeWelcomeMessage (w : Welcome) : Result Bytes := do
  let body ← w.marshal
  return writeEnvelopeHeader wireFormatWelcome ++ body

def decodeKeyPackageMessage (data : Bytes) : Result KeyPackage :=
  decodeEnvelope wireFormatKeyPackage decodeKeyPackage
    "group: trailing bytes after KeyPackage envelope body" data

def encodeKeyPackageMessage (kp : KeyPackage) : Result Bytes := do
  let body ← kp.marshal
  return writeEnvelopeHeader wireFormatKeyPackage ++ body

end MlsGo
