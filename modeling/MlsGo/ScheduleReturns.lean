import MlsGo.CommitSending
import MlsGo.ReaderReturns
import MlsGo.TreeSlots
import MlsGo.TruncatedTrees

/-!
# Key schedule and framing always return

The labelled constructions, the key schedule, the secret tree and the message
protection return on every input.  Two of them index without looking: the reuse
guard is laid over the first four bytes of a nonce, and signing calls a method of
the signer, which a member that joined without one does not have.
-/

namespace MlsGo

variable {S : Suite} {st : SecretTree} {nonce : Bytes} {rt : RatchetType}

@[simp] theorem not_returns_panic {α : Type} : ¬ Returns (.error .panic : Result α) :=
  fun hreturns => hreturns.1 rfl

@[simp] theorem not_returns_diverge {α : Type} : ¬ Returns (.error .diverge : Result α) :=
  fun hreturns => hreturns.2 rfl

/-- Nonces are long enough for the reuse guard.  Those of every AEAD in the
library have twelve bytes. -/
def Suite.GuardFits (S : Suite) : Prop :=
  ∀ {secret info nonce}, S.kdfExpand secret info S.aeadNonceSize = .ok nonce → 4 ≤ nonce.length

/-! ## Labelled constructions -/

@[simp] theorem labeledContext_stops (label : String) (data : Bytes) :
    StopsAtLimit (labeledContext label data) := by
  simp [labeledContext]

@[simp] theorem refHash_stops (label : String) (value : Bytes) :
    StopsAtLimit (S.refHash label value) := by
  simp [Suite.refHash]

@[simp] theorem expandWithLabel_returns (secret : Bytes) (label : String)
    (context : Bytes) (length : ℕ) :
    Returns (S.expandWithLabel secret label context length) := by
  simp [Suite.expandWithLabel]

@[simp] theorem deriveSecret_returns (secret : Bytes) (label : String) :
    Returns (S.deriveSecret secret label) := by
  simp [Suite.deriveSecret]

@[simp] theorem deriveTreeSecret_returns (secret : Bytes) (label : String)
    (generation length : ℕ) :
    Returns (S.deriveTreeSecret secret label generation length) := by
  simp [Suite.deriveTreeSecret]

@[simp] theorem encryptWithLabel_returns (pub : Bytes) (label : String)
    (context plaintext seed : Bytes) :
    Returns (S.encryptWithLabel pub label context plaintext seed) := by
  simp [Suite.encryptWithLabel]

@[simp] theorem decryptWithLabel_returns (priv : Bytes) (label : String)
    (context kemOutput ciphertext : Bytes) :
    Returns (S.decryptWithLabel priv label context kemOutput ciphertext) := by
  simp [Suite.decryptWithLabel]

@[simp] theorem signWithLabel_returns (signer : Signer) (label : String)
    (content : Bytes) : Returns (S.signWithLabel (some signer) label content) := by
  simp [Suite.signWithLabel]

/-! ## Key schedule -/

@[simp] theorem interimTranscriptHash_stops (confirmed tag : Bytes) :
    StopsAtLimit (interimTranscriptHash S confirmed tag) := by
  simp [interimTranscriptHash]

@[simp] theorem splitAuthenticatedContent_returns (ac : Bytes) :
    Returns (splitAuthenticatedContent S ac) := by
  simp [splitAuthenticatedContent]

theorem pskSecretLoop_returns (count : UInt16) (psks : List PSK) :
    ∀ i secret, Returns (pskSecretLoop S count psks i secret) := by
  induction psks with
  | nil => simp [pskSecretLoop]
  | cons psk rest ih => simp [pskSecretLoop, pskLabel, ih]

@[simp] theorem pskSecret_returns (psks : List PSK) : Returns (pskSecret S psks) :=
  pskSecretLoop_returns _ psks 0 _

@[simp] theorem deriveEpochSecrets_returns (initSecret : Bytes)
    (commitSecret psk : Option Bytes) (groupContext : Bytes) :
    Returns (deriveEpochSecrets S initSecret commitSecret psk groupContext) := by
  simp [deriveEpochSecrets, joinerSecretOf, epochSecretsFromJoiner]

@[simp] theorem welcomeKeyNonce_returns (welcomeSecret : Bytes) :
    Returns (welcomeKeyNonce S welcomeSecret) := by
  simp [welcomeKeyNonce]

@[simp] theorem nodeKeyPair_returns (pathSecret : Bytes) : Returns (nodeKeyPair S pathSecret) := by
  simp [nodeKeyPair]

@[simp] theorem addPathSecret_returns (priv : TreeKEMPrivate) (node : ℕ)
    (secret : Bytes) : Returns (priv.addPathSecret S node secret) := by
  simp [TreeKEMPrivate.addPathSecret]

/-! ## Secret tree -/

theorem nLeaves_of_deriveNode {fuel node : ℕ} {secret : Bytes}
    {st' : SecretTree} (hrun : st.deriveNode S fuel node secret = .ok st') :
    st'.nLeaves = st.nLeaves := by
  induction fuel generalizing node secret st st' with
  | zero => cases hrun
  | succ fuel ih =>
      simp only [SecretTree.deriveNode] at hrun
      split at hrun
      · simp only [bind_eq_ok, pure_ok_iff] at hrun
        obtain ⟨hs, -, app, -, rfl⟩ := hrun
        rfl
      · simp only [bind_eq_ok] at hrun
        obtain ⟨⟨r, _⟩, -, ls, -, rs, -, st₁, hst₁, hst'⟩ := hrun
        exact (ih hst').trans (ih hst₁)

open InOrderLayout in
theorem deriveNode_returns {n : ℕ} (hpos : 0 < n) (hle : n ≤ 2 ^ 31) :
    ∀ k j, inorder k j < 2 * n - 1 → ∀ fuel secret (st : SecretTree), st.nLeaves = n → k < fuel →
      Returns (st.deriveNode S fuel (inorder k j) secret) := by
  refine truncated_induction hpos hle ?leaf ?node
  case leaf =>
    intro j hj fuel secret st hleaves hfuel
    obtain ⟨fuel, rfl⟩ := Nat.exists_eq_succ_of_ne_zero hfuel.ne'
    have hlt : inorder 0 j < 2 ^ 32 := by
      rw [inorder_zero]
      omega
    simp only [SecretTree.deriveNode, left_inorder_zero hlt]
    simp
  case node =>
    intro k j k' j' hk' hleft hright _ ihleft ihright fuel secret st hleaves hfuel
    obtain ⟨fuel, rfl⟩ := Nat.exists_eq_succ_of_ne_zero (show fuel ≠ 0 by omega)
    simp only [SecretTree.deriveNode, hleft, hleaves, hright, ok_bind, returns_bind,
      expandWithLabel_returns, true_and]
    intro ls _ rs _
    refine ⟨ihleft fuel ls st hleaves (by omega), fun st₁ hst₁ => ?_⟩
    exact ihright fuel rs st₁ ((nLeaves_of_deriveNode hst₁).trans hleaves) (by omega)

theorem newSecretTree_returns {n : ℕ} (hpos : 0 < n) (hle : n ≤ 2 ^ 31)
    (secret : Bytes) : Returns (newSecretTree S n secret) := by
  obtain ⟨height, hroot, hin, -, hheight⟩ := root_eq hpos hle
  rw [newSecretTree, if_neg hpos.ne', hroot]
  exact deriveNode_returns hpos hle height 0 hin 34 secret ⟨n, [], []⟩ rfl (by omega)

theorem ratchetSecret_returns (base : Bytes) (generation : ℕ) :
    Returns (ratchetSecret S base generation) := by
  induction generation with
  | zero => simp [ratchetSecret]
  | succ generation ih => simp [ratchetSecret, ih]

@[simp] theorem keyNonce_returns (st : SecretTree) (leaf : ℕ) (rt : RatchetType)
    (generation : ℕ) : Returns (st.keyNonce S leaf rt generation) := by
  cases rt <;> simp only [SecretTree.keyNonce] <;> split <;> simp [ratchetSecret_returns]

theorem nonce_of_keyNonce {leaf : ℕ} {generation : ℕ} {key : Bytes}
    (hrun : st.keyNonce S leaf rt generation = .ok (key, nonce)) :
    ∃ secret, S.deriveTreeSecret secret "nonce" generation S.aeadNonceSize = .ok nonce := by
  cases rt <;> simp only [SecretTree.keyNonce] at hrun <;> split at hrun
  all_goals simp only [fail_ne_ok, bind_eq_ok, pure_ok_iff, Prod.mk.injEq] at hrun
  all_goals
    obtain ⟨secret, -, key', -, nonce', hnonce, rfl, rfl⟩ := hrun
    exact ⟨secret, hnonce⟩

theorem keyNonce_length (hguard : S.GuardFits) {leaf : ℕ} {generation : ℕ} {key : Bytes}
    (hrun : st.keyNonce S leaf rt generation = .ok (key, nonce)) :
    4 ≤ nonce.length := by
  obtain ⟨secret, hnonce⟩ := nonce_of_keyNonce hrun
  rw [Suite.deriveTreeSecret, Suite.expandWithLabel] at hnonce
  split at hnonce
  · exact absurd hnonce fail_ne_ok
  · simp only [bind_eq_ok, liftErr_eq_ok] at hnonce
    obtain ⟨lbl, -, ctx, -, hexpand⟩ := hnonce
    exact hguard hexpand

@[simp] theorem senderDataKeyNonce_returns (secret ciphertext : Bytes) :
    Returns (senderDataKeyNonce S secret ciphertext) := by
  simp [senderDataKeyNonce]

/-! ## Framing -/

@[simp] theorem framedContentTBS_returns (wf : WireFormat) (fc : FramedContent)
    (gc : GroupContext) : Returns (framedContentTBS wf fc gc) := by
  unfold framedContentTBS
  cases fc.sender <;> simp

@[simp] theorem signContent_returns (wf : WireFormat) (fc : FramedContent)
    (signer : Signer) (gc : GroupContext) :
    Returns (signContent S wf fc (some signer) gc) := by
  simp [signContent]

@[simp] theorem signCommit_returns (signer : Signer) (gc : GroupContext)
    (fc : FramedContent) (wf : WireFormat) :
    Returns (signCommit S (some signer) gc fc wf) := by
  simp [signCommit]

@[simp] theorem authenticatedContentTBM_returns (wf : WireFormat)
    (fc : FramedContent) (auth : FramedContentAuthData) (gc : GroupContext) :
    Returns (authenticatedContentTBM wf fc auth gc) := by
  simp [authenticatedContentTBM]

@[simp] theorem assembleCommitPublic_returns (gc : GroupContext)
    (membershipKey : Bytes) (fc : FramedContent) (signature tag : Bytes) :
    Returns (assembleCommitPublic S gc membershipKey fc signature tag) := by
  simp [assembleCommitPublic]

@[simp] theorem unprotectPublic_returns (signaturePub : Bytes)
    (gc : GroupContext) (membershipKey : Bytes) (m : PublicMessage) :
    Returns (unprotectPublic S signaturePub gc membershipKey m) := by
  simp [unprotectPublic, checkMembershipTag]

theorem applyReuseGuard_returns (hlen : 4 ≤ nonce.length)
    (guard : ReuseGuard) : Returns (applyReuseGuard nonce guard) := by
  match nonce, hlen with
  | n0 :: n1 :: n2 :: n3 :: rest, _ => exact returns_ok _

theorem sealPrivate_returns (hguard : S.GuardFits) (st : SecretTree) (senderDataSecret : Bytes)
    (fc : FramedContent) (auth : FramedContentAuthData) (generation : UInt32) (guard : ReuseGuard)
    (paddingSize : ℕ) :
    Returns (sealPrivate S st senderDataSecret fc auth generation guard paddingSize) := by
  refine (keyNonce_returns st _ _ _).bind ?_
  rintro ⟨key, nonce⟩ hkey
  simp [privateContentAAD, privateMessageContent, marshalContent, senderDataAAD,
    applyReuseGuard_returns (keyNonce_length hguard hkey)]

theorem openSenderData_returns (senderDataSecret : Bytes) (m : PrivateMessage) :
    Returns (openSenderData S senderDataSecret m) := by
  simp [openSenderData, senderDataAAD, reads_senderData.returns]

theorem unprotectPrivate_returns (hguard : S.GuardFits) {signaturePub : ℕ → Result Bytes}
    (hpub : ∀ leaf, Returns (signaturePub leaf)) (gc : GroupContext) (st : SecretTree)
    (senderDataSecret : Bytes) (m : PrivateMessage) :
    Returns (unprotectPrivate S signaturePub gc st senderDataSecret m) := by
  refine (openSenderData_returns senderDataSecret m).bind fun sd _ => ?_
  refine (keyNonce_returns st _ _ _).bind ?_
  rintro ⟨key, nonce⟩ hkey
  simp [privateContentAAD, hpub, applyReuseGuard_returns (keyNonce_length hguard hkey)]

theorem assembleCommit_returns (hguard : S.GuardFits) (g : Group)
    (d : CommitDraft) (guard : ReuseGuard) :
    Returns (g.assembleCommit S d guard) := by
  unfold Group.assembleCommit
  split
  · simp [assembleCommitPrivate, sealPrivate_returns hguard]
  · simp

/-! ## Delivered messages -/

@[simp] theorem leafNodeAt_returns (t : RatchetTree) (leaf : ℕ) : Returns (t.leafNodeAt leaf) := by
  unfold RatchetTree.leafNodeAt
  split <;> simp

@[simp] theorem sigPubByLeaf_returns (g : Group) (leaf : ℕ) : Returns (g.sigPubByLeaf leaf) := by
  simp [Group.sigPubByLeaf]

theorem authenticateProposalMessage_returns (hguard : S.GuardFits) (g : Group)
    (propBytes : Bytes) :
    Returns (g.authenticateProposalMessage S propBytes) := by
  refine (unmarshalMLSMessage_returns propBytes).bind fun m _ => ?_
  cases m.body with
  | publicMessage pm => simp
  | privateMessage pm => simp [unprotectPrivate_returns hguard (sigPubByLeaf_returns g)]

theorem cacheProposals_returns (hguard : S.GuardFits) (g : Group)
    (caller : String) (proposals : List Bytes) :
    ∀ idx cache, Returns (g.cacheProposals S caller proposals idx cache) := by
  induction proposals with
  | nil => simp [Group.cacheProposals]
  | cons propBytes rest ih =>
      simp [Group.cacheProposals, authenticateProposalMessage_returns hguard, ih]

theorem openMemberCommit_returns (hguard : S.GuardFits) (g : Group)
    (m : MLSMessage) : Returns (g.openMemberCommit S m) := by
  have hauth : Returns (g.authenticateCommit S m) := by
    unfold Group.authenticateCommit
    cases m.body with
    | publicMessage pm => simp
    | privateMessage pm => exact unprotectPrivate_returns hguard (sigPubByLeaf_returns g) _ _ _ _
  simp [Group.openMemberCommit, hauth]

end MlsGo
