import MlsGo.CipherSuite

/-!
# What the cryptographic library promises

Correctness of the primitives, as their documentation gives it: a derived or
generated key pair matches, opening undoes sealing under matching keys, honest
signatures verify, and the key derivation does not fail on lengths it supports.
Nothing about secrecy is assumed here.  `plainSuite` satisfies all of it and can
be evaluated.
-/

namespace MlsGo

def Suite.Matching (S : Suite) (priv pub : Bytes) : Prop :=
  (∃ ikm, S.deriveKeyPair ikm = .ok (priv, pub)) ∨
    ∃ seed, S.generateHPKEKeyPair seed = .ok (priv, pub)

structure SuiteLaws (S : Suite) : Prop where
  openBase_sealBase : ∀ {priv pub info plaintext seed kem ct},
    S.Matching priv pub →
    S.sealBase pub info plaintext seed = .ok (kem, ct) →
    S.openBase priv info kem ct = .ok plaintext
  aeadOpen_aeadSeal : ∀ {key nonce aad plaintext ct},
    S.aeadSeal key nonce aad plaintext = .ok ct →
    S.aeadOpen key nonce aad ct = .ok plaintext
  verify_sign : ∀ {signer pub message sig},
    S.signaturePublicKey signer = .ok pub →
    S.signClassical signer message = .ok sig →
    S.verifyClassical pub message sig = true
  decap_encap : ∀ {priv pub seed kem secret},
    S.Matching priv pub →
    S.externalInitEncap pub seed = .ok (kem, secret) →
    S.externalInitDecap priv kem = .ok secret

def Suite.OpensSealed (S : Suite) : Prop :=
  ∀ {priv pub info plaintext seed kem ct}, S.Matching priv pub →
    S.sealBase pub info plaintext seed = .ok (kem, ct) →
    S.openBase priv info kem ct = .ok plaintext

variable {S : Suite}

theorem SuiteLaws.opensSealed (hlaws : SuiteLaws S) : S.OpensSealed := hlaws.openBase_sealBase

def Suite.AeadInverts (S : Suite) : Prop :=
  ∀ {key nonce aad plaintext ct}, S.aeadSeal key nonce aad plaintext = .ok ct →
    S.aeadOpen key nonce aad ct = .ok plaintext

theorem SuiteLaws.aeadInverts (hlaws : SuiteLaws S) : S.AeadInverts := hlaws.aeadOpen_aeadSeal

def Suite.SignaturesVerify (S : Suite) : Prop :=
  ∀ {signer pub message sig}, S.signaturePublicKey signer = .ok pub →
    S.signClassical signer message = .ok sig →
    S.verifyClassical pub message sig = true

theorem SuiteLaws.signaturesVerify (hlaws : SuiteLaws S) : S.SignaturesVerify := hlaws.verify_sign

structure KdfLaws (S : Suite) : Prop where
  kdfExpand_ok : ∀ secret info, ∃ out,
    S.kdfExpand secret info S.hashLen = .ok out ∧ out.length = S.hashLen
  deriveKeyPair_ok : ∀ ikm, ikm.length = S.hashLen → ∃ keys, S.deriveKeyPair ikm = .ok keys
  mac_length : ∀ key data, (S.mac key data).length = S.hashLen
  hashLen_le : S.hashLen ≤ 0xFFFF

theorem SuiteLaws.withHash (hlaws : SuiteLaws S)
    (hash : Bytes → Bytes) : SuiteLaws { S with hash := hash } :=
  ⟨@SuiteLaws.openBase_sealBase S hlaws, @SuiteLaws.aeadOpen_aeadSeal S hlaws,
    @SuiteLaws.verify_sign S hlaws, @SuiteLaws.decap_encap S hlaws⟩

theorem KdfLaws.withHash (hkdf : KdfLaws S)
    (hash : Bytes → Bytes) : KdfLaws { S with hash := hash } :=
  ⟨hkdf.kdfExpand_ok, hkdf.deriveKeyPair_ok, hkdf.mac_length, hkdf.hashLen_le⟩

/-! ## A suite without secrecy -/

def plainDigest (p : Bytes) : Bytes := [p.foldl (fun acc b => acc * 31 + b + 7) 3]

def plainSuite : Suite where
  id := 1
  hashLen := 1
  aeadKeySize := 1
  aeadNonceSize := 4
  hash := plainDigest
  mac key data := plainDigest (key ++ data)
  extract salt ikm := .ok (plainDigest (salt ++ ikm))
  kdfExpand secret info length :=
    .ok (List.replicate length ((plainDigest (secret ++ info)).headD 0))
  signaturePublicKey signer := .ok signer.key
  signClassical signer _ := .ok signer.key
  verifyClassical pub _ sig := pub = sig
  generateHPKEKeyPair seed := .ok (seed, seed)
  deriveKeyPair ikm := .ok (ikm, ikm)
  sealBase pub _ plaintext _ := .ok (pub, plaintext)
  openBase priv _ kem ct := if kem = priv then .ok ct else .error (.text "hpke: open")
  aeadSeal _ _ _ plaintext := .ok plaintext
  aeadOpen _ _ _ ct := .ok ct
  externalInitEncap pub seed := .ok (seed, seed ++ pub)
  externalInitDecap priv kem := .ok (kem ++ priv)

theorem plainSuite_matching {priv pub : Bytes}
    (hmatch : plainSuite.Matching priv pub) : priv = pub := by
  rcases hmatch with ⟨ikm, hkeys⟩ | ⟨seed, hkeys⟩ <;> cases hkeys <;> rfl

theorem plainSuite_laws : SuiteLaws plainSuite where
  openBase_sealBase := by
    intro priv pub info plaintext seed kem ct hmatch hseal
    obtain rfl := plainSuite_matching hmatch
    cases hseal
    simp [plainSuite]
  aeadOpen_aeadSeal := by
    rintro key nonce aad plaintext ct ⟨⟩
    rfl
  verify_sign := by
    rintro signer pub message sig ⟨⟩ ⟨⟩
    simp [plainSuite]
  decap_encap := by
    intro priv pub seed kem secret hmatch hencap
    obtain rfl := plainSuite_matching hmatch
    cases hencap
    rfl

theorem plainSuite_kdfLaws : KdfLaws plainSuite where
  kdfExpand_ok := by
    intro secret info
    exact ⟨_, rfl, by simp⟩
  deriveKeyPair_ok := by
    intro ikm _
    exact ⟨_, rfl⟩
  mac_length := by
    intro key data
    rfl
  hashLen_le := by decide

def taggedSuite : Suite := { plainSuite with hash := fun p => 0 :: p }

theorem taggedSuite_hash_injective : Function.Injective taggedSuite.hash := by
  intro p q heq
  simpa [taggedSuite] using heq

end MlsGo
