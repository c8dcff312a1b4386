import MlsGo.WireSyntax

/-!
# Cipher suites

Package `cipher`.  The primitives come from the Go standard library, so they
are parameters: a `Suite` is any choice of functions of the right types, and
what the library documents about them is stated separately as laws.  The
labelled constructions of `labeled.go` are translated on top of them.
Operations that draw randomness take it as an explicit `seed`.
-/

namespace MlsGo

structure Signer where
  key : Bytes
  deriving DecidableEq, Repr

structure Suite where
  id : UInt16
  hashLen : ℕ
  aeadKeySize : ℕ
  aeadNonceSize : ℕ
  hash : Bytes → Bytes
  /-- `MAC key data`. -/
  mac : Bytes → Bytes → Bytes
  /-- `Extract salt ikm`. -/
  extract : Bytes → Bytes → Except Err Bytes
  /-- `kdfExpand secret info length`. -/
  kdfExpand : Bytes → Bytes → ℕ → Except Err Bytes
  signaturePublicKey : Signer → Except Err Bytes
  signClassical : Signer → Bytes → Except Err Bytes
  /-- `verifyClassical pub message sig`. -/
  verifyClassical : Bytes → Bytes → Bytes → Bool
  /-- Private and public key generated from a seed. -/
  generateHPKEKeyPair : Bytes → Except Err (Bytes × Bytes)
  /-- Private and public key derived from `ikm`. -/
  deriveKeyPair : Bytes → Except Err (Bytes × Bytes)
  /-- `sealBase pub info plaintext seed`: KEM output and ciphertext. -/
  sealBase : Bytes → Bytes → Bytes → Bytes → Except Err (Bytes × Bytes)
  /-- `openBase priv info kemOutput ciphertext`. -/
  openBase : Bytes → Bytes → Bytes → Bytes → Except Err Bytes
  /-- `Seal key nonce aad plaintext`. -/
  aeadSeal : Bytes → Bytes → Bytes → Bytes → Except Err Bytes
  /-- `Open key nonce aad ciphertext`. -/
  aeadOpen : Bytes → Bytes → Bytes → Bytes → Except Err Bytes
  /-- `ExternalInitEncap externalPub seed`: KEM output and init secret. -/
  externalInitEncap : Bytes → Bytes → Except Err (Bytes × Bytes)
  /-- `ExternalInitDecap externalPriv kemOutput`. -/
  externalInitDecap : Bytes → Bytes → Except Err Bytes

variable (S : Suite)

def mlsLabelStart : Bytes := ascii "MLS 1.0 "

def Suite.refHash (label : String) (value : Bytes) : Result Bytes := do
  let lbl ← writeOpaqueV (ascii label)
  let val ← writeOpaqueV value
  return S.hash (lbl ++ val)

def Suite.expandWithLabel (secret : Bytes) (label : String) (context : Bytes)
    (length : ℕ) : Result Bytes :=
  if 0xFFFF < length then
    fail s!"cipher: ExpandWithLabel: length {length} out of range [0, 65535]"
  else do
    let lbl ← writeOpaqueV (mlsLabelStart ++ ascii label)
    let ctx ← writeOpaqueV context
    liftErr (S.kdfExpand secret (beBytes 2 length ++ (lbl ++ ctx)) length)

def Suite.deriveSecret (secret : Bytes) (label : String) : Result Bytes :=
  S.expandWithLabel secret label [] S.hashLen

def Suite.deriveTreeSecret (secret : Bytes) (label : String)
    (generation length : ℕ) : Result Bytes :=
  S.expandWithLabel secret label (beBytes 4 generation) length

def labeledContext (label : String) (data : Bytes) : Result Bytes := do
  let lbl ← writeOpaqueV (mlsLabelStart ++ ascii label)
  let body ← writeOpaqueV data
  return lbl ++ body

/-- `SignaturePublicKey`; calling a method of a nil signer panics. -/
def Suite.publicKeyOf (signer : Option Signer) : Result Bytes :=
  match signer with
  | some key => liftErr (S.signaturePublicKey key)
  | none => .error .panic

def Suite.signWithLabel (priv : Option Signer) (label : String)
    (content : Bytes) : Result Bytes := do
  let tbs ← labeledContext label content
  match priv with
  | some signer => liftErr (S.signClassical signer tbs)
  | none => .error .panic

def Suite.verifyWithLabel (pub : Bytes) (label : String)
    (content sig : Bytes) : Bool :=
  match labeledContext label content with
  | .ok tbs => S.verifyClassical pub tbs sig
  | .error _ => false

def Suite.encryptWithLabel (pub : Bytes) (label : String)
    (context plaintext seed : Bytes) : Result (Bytes × Bytes) := do
  let info ← labeledContext label context
  liftErr (S.sealBase pub info plaintext seed)

def Suite.decryptWithLabel (priv : Bytes) (label : String)
    (context kemOutput ciphertext : Bytes) : Result Bytes := do
  let info ← labeledContext label context
  liftErr (S.openBase priv info kemOutput ciphertext)

end MlsGo
