import MlsGo.MergedPaths
import MlsGo.MessageLaws

/-!
# Validity of a generated path

The leaf that `GenerateUpdatePath` makes is signed for its place and carries the
parent hash of the path, so the tree with the path is valid unless a copath child
happens to carry the parent hash of the path node above it.
-/

namespace MlsGo

theorem verifySignature_of_signLeafNode {S : Suite} (hlaws : SuiteLaws S)
    {signer : Option Signer} {ln signed : LeafNode} {groupID : Bytes}
    {leafIndex : ℕ} (hpub : S.publicKeyOf signer = .ok ln.signatureKey)
    (hsign : signLeafNode S signer ln groupID leafIndex = .ok signed) :
    signed.verifySignature S groupID leafIndex = .ok true := by
  simp only [signLeafNode, bind_eq_ok, pure_ok_iff] at hsign
  obtain ⟨tbs, htbs, sig, hsig, rfl⟩ := hsign
  -- the signed bytes do not contain the signature
  have htbs' : LeafNode.tbs { ln with signature := sig } groupID leafIndex = .ok tbs := htbs
  rw [LeafNode.verifySignature, htbs', ok_bind,
    verifyWithLabel_of_sign hlaws.signaturesVerify hpub hsig]
  rfl

namespace RatchetTree

open InOrderLayout

variable {S : Suite} {t : RatchetTree} {senderLeaf : ℕ} {leafSecret : Bytes}
  {signer : Option Signer} {groupID : Bytes} {newlyAdded : List ℕ}
  {mkGroupContext : Bytes → Result Bytes} {seeds : ℕ → ℕ → Bytes} {gp : GeneratedPath}

/-- No copath child of the sender's path carries the parent hash of the path
node above it. -/
def CopathUnmatched (S : Suite) (t : RatchetTree) (sender : ℕ) : Prop :=
  ∀ path, t.filteredDirectPath sender = .ok path → ∀ p ∈ path, t.copathMatch S sender p = .ok false

namespace PathRun

variable (r : PathRun S t senderLeaf leafSecret signer groupID newlyAdded mkGroupContext seeds gp)

include r

theorem leaf_carries :
    slotParentHash (some (.leaf gp.updatePath.leafNode)) = some r.parentHash := by
  obtain ⟨sig, hleaf⟩ := signLeafNode_ok r.leaf_eq
  rw [hleaf]
  rfl

theorem leaf_signatureKey : gp.updatePath.leafNode.signatureKey = r.orig.signatureKey := by
  obtain ⟨sig, hleaf⟩ := signLeafNode_ok r.leaf_eq
  rw [hleaf]
  rfl

theorem leaf_verifies (hlaws : SuiteLaws S)
    (hpub : S.publicKeyOf signer = .ok r.orig.signatureKey) :
    gp.updatePath.leafNode.verifySignature S groupID senderLeaf = .ok true := by
  have hkey : S.publicKeyOf signer =
      .ok (commitLeaf r.orig r.leafPub r.parentHash).signatureKey := hpub
  exact verifySignature_of_signLeafNode hlaws hkey r.leaf_eq

theorem verifyParentHashes_iff (hinv : t.RepresentationInvariant) (hall : AllMatched S t) :
    gp.tree.verifyParentHashes S = .ok true ↔ CopathUnmatched S gp.tree senderLeaf := by
  obtain ⟨h, hf, -⟩ := hinv.full
  have hL := (r.sender_slot hf).1
  obtain ⟨entries, hinstalled, hi⟩ := r.installed_tree hf
  have hwant := hi.leafParentHash_eq rfl hL
  rw [r.parentHash_below hf hinstalled hi.keys_eq] at hwant
  have hpath := hi.filteredDirectPath_eq rfl hL
  rw [hi.verifyParentHashes_iff rfl hL (hi.invariant hf hinv) hall, CopathUnmatched]
  simp only [hpath, Except.ok.injEq, forall_eq']
  cases hnodes : (entries.map Prod.fst).map (pathNode (senderLeaf % 2 ^ 31)) with
  | nil => simp [PathFits]
  | cons p rest =>
      rw [hnodes] at hwant
      simp only [PathFits, hwant, Except.ok.injEq, exists_eq_left', r.leaf_carries,
        ne_eq, not_true_eq_false, decide_false, List.forall_mem_cons]

end PathRun

end RatchetTree

end MlsGo
