import MlsGo.CipherSuite
import MlsGo.TreeMath
import MlsGo.TreeNodes

/-!
# Group context, transcript, key schedule and secret tree

Package `keyschedule`.  A secret that may be nil in Go, and then stands for
the all-zero vector, is an `Option`.
-/

namespace MlsGo

open DecoderLaws

variable (S : Suite)

/-! ## Group context -/

structure GroupContext where
  version : UInt16
  cipherSuite : UInt16
  groupID : Bytes
  epoch : UInt64
  treeHash : Bytes
  confirmedTranscriptHash : Bytes
  extensions : List Extension
  deriving DecidableEq, Repr

def writeExtensions (es : List Extension) : Result Bytes := writeVectorV es Extension.marshal

def GroupContext.marshal (gc : GroupContext) : Result Bytes := do
  let groupID ← writeOpaqueV gc.groupID
  let treeHash ← writeOpaqueV gc.treeHash
  let confirmed ← writeOpaqueV gc.confirmedTranscriptHash
  let extensions ← writeExtensions gc.extensions
  return writeUint16 gc.version ++ (writeUint16 gc.cipherSuite ++ (groupID ++
    (writeUint64 gc.epoch ++ (treeHash ++ (confirmed ++ extensions)))))

def decodeGroupContext : Cursor GroupContext := do
  let version ← readUint16
  let cipherSuite ← readUint16
  let groupID ← readOpaqueV
  let epoch ← readUint64
  let treeHash ← readOpaqueV
  let confirmed ← readOpaqueV
  let extensions ← readVectorV decodeExtension
  return ⟨version, cipherSuite, groupID, epoch, treeHash, confirmed, extensions⟩

/-! ## Transcript hashes -/

def confirmationTag (confirmationKey confirmedTranscriptHash : Bytes) : Bytes :=
  S.mac confirmationKey confirmedTranscriptHash

def confirmedTranscriptHash (interimPrev confirmedInput : Bytes) : Bytes :=
  S.hash (interimPrev ++ confirmedInput)

def interimTranscriptHash (confirmed tag : Bytes) : Result Bytes := do
  let input ← writeOpaqueV tag
  return S.hash (confirmed ++ input)

def splitAuthenticatedContent (ac : Bytes) : Result (Bytes × Bytes) := do
  let field ← writeOpaqueV (List.replicate S.hashLen 0)
  if ac.length < field.length then
    fail s!"keyschedule: authenticated_content too short ({ac.length} < {field.length})"
  else
    return (ac.take (ac.length - field.length), ac.drop (ac.length - S.hashLen))

/-! ## Pre-shared keys -/

inductive PskSource where
  | external (pskID : Bytes)
  | resumption (usage : UInt8) (pskGroupID : Bytes) (pskEpoch : UInt64)
  deriving DecidableEq, Repr

structure PreSharedKeyID where
  source : PskSource
  pskNonce : Bytes
  deriving DecidableEq, Repr

def PskSource.marshal : PskSource → Result Bytes
  | .external pskID => do
      let id ← writeOpaqueV pskID
      return writeUint8 1 ++ id
  | .resumption usage pskGroupID pskEpoch => do
      let group ← writeOpaqueV pskGroupID
      return writeUint8 2 ++ (writeUint8 usage ++ (group ++ writeUint64 pskEpoch))

def decodePskSource : Cursor PskSource := do
  let pskType ← readUint8
  if pskType = 1 then
    let pskID ← readOpaqueV
    return .external pskID
  else if pskType = 2 then
    let usage ← readUint8
    let pskGroupID ← readOpaqueV
    let pskEpoch ← readUint64
    return .resumption usage pskGroupID pskEpoch
  else liftM (fail (α := PskSource) s!"keyschedule: invalid psk_type {pskType}")

def PreSharedKeyID.marshal (p : PreSharedKeyID) : Result Bytes := do
  let source ← p.source.marshal
  let nonce ← writeOpaqueV p.pskNonce
  return source ++ nonce

def decodePreSharedKeyID : Cursor PreSharedKeyID := do
  let source ← decodePskSource
  let nonce ← readOpaqueV
  return ⟨source, nonce⟩

structure PSK where
  id : PreSharedKeyID
  psk : Bytes
  deriving DecidableEq, Repr

def pskLabel (id : PreSharedKeyID) (index count : UInt16) : Result Bytes := do
  let body ← id.marshal
  return body ++ (writeUint16 index ++ writeUint16 count)

/-- The loop of `PSKSecret` from the PSK of the given index on. -/
def pskSecretLoop (count : UInt16) : List PSK → ℕ → Bytes → Result Bytes
  | [], _, pskSecret => .ok pskSecret
  | p :: rest, i, pskSecret => do
      let pskExtracted ← liftErr (S.extract [] p.psk)
      let label ← pskLabel p.id (UInt16.ofNat i) count
      let pskInput ← S.expandWithLabel pskExtracted "derived psk" label S.hashLen
      let next ← liftErr (S.extract pskInput pskSecret)
      pskSecretLoop count rest (i + 1) next

def pskSecret (psks : List PSK) : Result Bytes :=
  pskSecretLoop S (UInt16.ofNat psks.length) psks 0 (List.replicate S.hashLen 0)

/-! ## Epoch secrets -/

structure EpochSecrets where
  joinerSecret : Bytes
  welcomeSecret : Bytes
  epochSecret : Bytes
  senderDataSecret : Bytes
  encryptionSecret : Bytes
  exporterSecret : Bytes
  externalSecret : Bytes
  confirmationKey : Bytes
  membershipKey : Bytes
  resumptionPSK : Bytes
  epochAuthenticator : Bytes
  initSecret : Bytes
  deriving DecidableEq, Repr

def orZeros (secret : Option Bytes) : Bytes := secret.getD (List.replicate S.hashLen 0)

def joinerSecretOf (initSecret : Bytes) (commitSecret : Option Bytes)
    (groupContext : Bytes) : Result Bytes := do
  let extracted ← liftErr (S.extract initSecret (orZeros S commitSecret))
  S.expandWithLabel extracted "joiner" groupContext S.hashLen

def welcomeKeyNonce (welcomeSecret : Bytes) : Result (Bytes × Bytes) := do
  let key ← S.expandWithLabel welcomeSecret "key" [] S.aeadKeySize
  let nonce ← S.expandWithLabel welcomeSecret "nonce" [] S.aeadNonceSize
  return (key, nonce)

def epochSecretsFromJoiner (joinerSecret : Bytes) (psk : Option Bytes)
    (groupContext : Bytes) : Result EpochSecrets := do
  let member ← liftErr (S.extract joinerSecret (orZeros S psk))
  let welcome ← S.deriveSecret member "welcome"
  let epoch ← S.expandWithLabel member "epoch" groupContext S.hashLen
  let senderData ← S.deriveSecret epoch "sender data"
  let encryption ← S.deriveSecret epoch "encryption"
  let exporter ← S.deriveSecret epoch "exporter"
  let external ← S.deriveSecret epoch "external"
  let confirm ← S.deriveSecret epoch "confirm"
  let membership ← S.deriveSecret epoch "membership"
  let resumption ← S.deriveSecret epoch "resumption"
  let authentication ← S.deriveSecret epoch "authentication"
  let init ← S.deriveSecret epoch "init"
  return ⟨joinerSecret, welcome, epoch, senderData, encryption, exporter,
    external, confirm, membership, resumption, authentication, init⟩

def deriveEpochSecrets (initSecret : Bytes) (commitSecret psk : Option Bytes)
    (groupContext : Bytes) : Result EpochSecrets := do
  let joiner ← joinerSecretOf S initSecret commitSecret groupContext
  epochSecretsFromJoiner S joiner psk groupContext

def externalPub (externalSecret : Bytes) : Result (Bytes × Bytes) :=
  liftErr (S.deriveKeyPair externalSecret)

/-! ## Secret tree -/

inductive RatchetType where
  | handshake
  | application
  deriving DecidableEq, Repr

structure SecretTree where
  nLeaves : ℕ
  handshakeBase : GoMap ℕ Bytes
  applicationBase : GoMap ℕ Bytes
  deriving DecidableEq, Repr

def SecretTree.deriveNode (st : SecretTree) : ℕ → ℕ → Bytes → Result SecretTree
  | 0, _, _ => .error .diverge
  | fuel + 1, node, secret =>
      match left node with
      | (_, false) => do
          let hs ← S.expandWithLabel secret "handshake" [] S.hashLen
          let app ← S.expandWithLabel secret "application" [] S.hashLen
          return { st with
            handshakeBase := st.handshakeBase.set (node / 2) hs
            applicationBase := st.applicationBase.set (node / 2) app }
      | (l, true) => do
          let (r, _) ← right node st.nLeaves
          let ls ← S.expandWithLabel secret "tree" (ascii "left") S.hashLen
          let rs ← S.expandWithLabel secret "tree" (ascii "right") S.hashLen
          let st ← st.deriveNode fuel l ls
          st.deriveNode fuel r rs

def newSecretTree (nLeaves : ℕ) (encryptionSecret : Bytes) :
    Result SecretTree :=
  if nLeaves = 0 then
    fail "keyschedule: secret tree requires at least one leaf"
  else
    SecretTree.deriveNode S ⟨nLeaves, [], []⟩ 34 (root nLeaves) encryptionSecret

def ratchetSecret (base : Bytes) : ℕ → Result Bytes
  | 0 => .ok base
  | generation + 1 => do
      let secret ← ratchetSecret base generation
      S.deriveTreeSecret secret "secret" generation S.hashLen

def SecretTree.keyNonce (st : SecretTree) (leaf : ℕ) (rt : RatchetType)
    (generation : ℕ) : Result (Bytes × Bytes) :=
  let base := match rt with
    | .handshake => st.handshakeBase.get leaf
    | .application => st.applicationBase.get leaf
  match base with
  | none => fail s!"keyschedule: no ratchet for leaf {leaf} (nLeaves={st.nLeaves})"
  | some base => do
      let secret ← ratchetSecret S base generation
      let key ← S.deriveTreeSecret secret "key" generation S.aeadKeySize
      let nonce ← S.deriveTreeSecret secret "nonce" generation S.aeadNonceSize
      return (key, nonce)

def senderDataKeyNonce (senderDataSecret ciphertext : Bytes) :
    Result (Bytes × Bytes) := do
  let sample := ciphertext.take S.hashLen
  let key ← S.expandWithLabel senderDataSecret "key" sample S.aeadKeySize
  let nonce ← S.expandWithLabel senderDataSecret "nonce" sample S.aeadNonceSize
  return (key, nonce)

end MlsGo
