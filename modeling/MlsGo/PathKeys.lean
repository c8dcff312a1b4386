import MlsGo.OwnUpdates
import MlsGo.WelcomeRuns

/-!
# Private keys and the path of a commit

A member needs a private key at every populated node of its path that does not list
it as unmerged.  Proposals take nodes off the path and keep the keys of the rest, so
they cost a member nothing.  The path of a commit does: the sender holds the keys of
all it installs, but a receiver throws away what it holds below the node where the
paths meet, and derives one secret for each level above, also for the levels that
the sender's path leaves out.
-/

namespace MlsGo

open InOrderLayout

variable {S : Suite}

namespace RatchetTree

variable {t t' t'' : RatchetTree} {h L R k : ℕ} {priv priv' : TreeKEMPrivate} {j : ℕ}
    {ln : LeafNode}

/-! ## Through the proposals -/

def PathShrinks (R : ℕ) (t t' : RatchetTree) : Prop :=
  ∀ k n', t'.slot k (R / 2 ^ k) = some n' →
    ∃ n, t.slot k (R / 2 ^ k) = some n ∧ n.encryptionKey = n'.encryptionKey ∧
      (n.Lists R → n'.Lists R) ∧ (k = 0 → n = n')

theorem PathShrinks.refl (R : ℕ) (t : RatchetTree) : PathShrinks R t t :=
  fun _ n hn => ⟨n, hn, rfl, id, fun _ => rfl⟩

theorem PathShrinks.trans (hfirst : PathShrinks R t t')
    (hsecond : PathShrinks R t' t'') : PathShrinks R t t'' := by
  intro k n'' hn''
  obtain ⟨n', hn', hkey', hlists', hleaf'⟩ := hsecond k n'' hn''
  obtain ⟨n, hn, hkey, hlists, hleaf⟩ := hfirst k n' hn'
  exact ⟨n, hn, hkey.trans hkey', fun h => hlists' (hlists h),
    fun hk => (hleaf hk).trans (hleaf' hk)⟩

theorem PathShrinks.leaf (hshrinks : PathShrinks R t t') (hmember : R ∈ t'.members) :
    t'.slot 0 R = t.slot 0 R := by
  obtain ⟨n', hn'⟩ := Option.ne_none_iff_exists'.mp hmember
  obtain ⟨n, hn, -, -, hsame⟩ := hshrinks 0 n' (by simpa using hn')
  rw [hn', ← hsame rfl]
  simpa using hn.symm

theorem Full.slot_of_updateLeaf (hf : t.Full h) {sender : ℕ} {n : Node}
    (hrun : t.updateLeaf sender ln = .ok t') (hn : t'.slot k j = some n) :
    k = 0 ∧ j = sender % 2 ^ 31 ∨ t.slot k j = some n := by
  obtain ⟨-, -, hslots⟩ := hf.updateLeaf_ok hrun
  rw [hslots] at hn
  split at hn
  · next hpath =>
      split at hn
      · next hk =>
          subst hk
          exact .inl ⟨rfl, by simpa using hpath.symm⟩
      · cases hn
  · exact .inr hn

theorem Full.slot_of_removeLeaf (hf : t.Full h) {removed : ℕ} {n : Node}
    (hrun : t.removeLeaf removed = .ok t') (hn : t'.slot k j = some n) :
    removed % 2 ^ 31 / 2 ^ k ≠ j ∧ t.slot k j = some n := by
  obtain ⟨-, -, -, -, hslots, -⟩ := hf.removeLeaf_ok hrun
  rw [hslots] at hn
  split at hn
  · cases hn
  · next hoff => exact ⟨hoff, hn⟩

theorem lists_insertLeaf {p : ParentNode} {u : UInt32} (hlists : (Node.parent p).Lists R) :
    (Node.parent { p with
      unmergedLeaves := insertLeaf u p.unmergedLeaves }).Lists R := by
  obtain ⟨v, hv, rfl⟩ := hlists
  exact ⟨v, WellFormed.mem_insertLeaf.mpr (.inr hv), rfl⟩

theorem Full.slot_of_addLeaf (hf : t.Full h) {M : ℕ} {n' : Node}
    (hrun : t.addLeaf ln = .ok (M, t')) (hn' : t'.slot k j = some n') :
    k = 0 ∧ j = M ∨
      ∃ n, t.slot k j = some n ∧ n.encryptionKey = n'.encryptionKey ∧
        (∀ R, n.Lists R → n'.Lists R) ∧ (k = 0 → n = n') := by
  obtain ⟨-, -, -, hslots⟩ := hf.addLeaf_ok hrun
  rw [hslots] at hn'
  split at hn'
  · next hpath =>
      split at hn'
      · next hk =>
          subst hk
          exact .inl ⟨rfl, by simpa using hpath.symm⟩
      · next hk =>
          rcases hslot : t.slot k j with _ | (l | p)
          · rw [hslot] at hn'
            cases hn'
          · rw [hslot] at hn'
            cases hn'
            exact .inr ⟨_, rfl, rfl, fun _ => id, fun _ => rfl⟩
          · rw [hslot] at hn'
            cases hn'
            exact .inr ⟨_, rfl, rfl, fun _ => lists_insertLeaf, fun hzero => absurd hzero hk⟩
  · exact .inr ⟨n', hn', rfl, fun _ => id, fun _ => rfl⟩

theorem Full.pathShrinks_updateLeaf (hf : t.Full h) {sender : ℕ}
    (hother : sender % 2 ^ 31 ≠ R) (hrun : t.updateLeaf sender ln = .ok t') :
    PathShrinks R t t' := by
  intro k n' hn'
  rcases hf.slot_of_updateLeaf hrun hn' with ⟨rfl, heq⟩ | hn
  · exact absurd (by simpa using heq.symm) hother
  · exact ⟨n', hn, rfl, id, fun _ => rfl⟩

theorem Full.pathShrinks_removeLeaf (hf : t.Full h) {removed : ℕ}
    (hrun : t.removeLeaf removed = .ok t') : PathShrinks R t t' :=
  fun _ n' hn' => ⟨n', (hf.slot_of_removeLeaf hrun hn').2, rfl, id, fun _ => rfl⟩

theorem Full.pathShrinks_addLeaf (hf : t.Full h) {M : ℕ}
    (htaken : t.slot 0 R ≠ none) (hrun : t.addLeaf ln = .ok (M, t')) :
    PathShrinks R t t' := by
  obtain ⟨⟨hblank, -⟩, -⟩ := hf.addLeaf_ok hrun
  intro k n' hn'
  rcases hf.slot_of_addLeaf hrun hn' with ⟨rfl, heq⟩ | ⟨n, hn, hkey, hlists, hleaf⟩
  · rw [pow_zero, Nat.div_one] at heq
    exact absurd (heq ▸ hblank) htaken
  · exact ⟨n, hn, hkey, hlists R, hleaf⟩

theorem HoldsPathKeys.shrink (hkeys : HoldsPathKeys S t R priv)
    (hshrinks : PathShrinks R t t') : HoldsPathKeys S t' R priv := by
  refine ⟨⟨fun d pub key hpub hkey => ?_, fun k n' hn' hlists => ?_⟩, hkeys.own_path⟩
  · obtain ⟨k, rfl⟩ := hkeys.own_path d key hkey
    obtain ⟨n', hn', rfl⟩ := nodePublicKey_eq_ok.mp hpub
    obtain ⟨n, hn, hsame, -⟩ := hshrinks k n' hn'
    exact hkeys.matching _ _ key (nodePublicKey_eq_ok.mpr ⟨n, hn, hsame⟩) hkey
  · obtain ⟨n, hn, -, hkept, -⟩ := hshrinks k n' hn'
    exact hkeys.held k n hn fun hlisted => hlists (hkept hlisted)

/-- The member at `leaf` has the private key of every populated node of its path
that does not list it as unmerged. -/
def KeysComplete (S : Suite) (t : RatchetTree) (leaf : ℕ) (priv : TreeKEMPrivate) :
    Prop :=
  ∀ k n, t.slot k (leaf / 2 ^ k) = some n → ¬ n.Lists leaf →
    ∃ key, priv.privateKey (inorder k (leaf / 2 ^ k)) = some key ∧ S.Matching key n.encryptionKey

theorem HoldsPathKeys.complete (hkeys : HoldsPathKeys S t R priv) : KeysComplete S t R priv := by
  intro k n hn hlists
  obtain ⟨key, hkey⟩ := hkeys.held k n hn hlists
  exact ⟨key, hkey, hkeys.matching _ _ key (nodePublicKey_eq_ok.mpr ⟨n, hn, rfl⟩) hkey⟩

theorem Refreshed.holdsPathKeys {l : LeafNode} (hr : t.Refreshed L l) {key : Bytes}
    (hmatch : S.Matching key l.encryptionKey) :
    HoldsPathKeys S t L (TreeKEMPrivate.new L key) := by
  refine ⟨hr.fits hmatch, fun d key' hkey => ?_⟩
  obtain ⟨h, hf⟩ := hr.full
  have hL : L < 2 ^ h := hf.member_lt (by simp [hr.leaf])
  have hle := hf.two_pow_le
  rw [TreeKEMPrivate.privateKey_new] at hkey
  split at hkey
  · next hd =>
      refine ⟨0, ?_⟩
      rw [hd, u32_double, Nat.mod_eq_of_lt (by omega), pow_zero, Nat.div_one]
  · cases hkey

end RatchetTree

section Applied

open RatchetTree

variable {wt : RatchetTree} {cm : Commit} {cache : ProposalCache} {currentExt : List Extension}
  {externalPSKs : GoMap Bytes Bytes} {resumptionPSKs : GoMap UInt64 Bytes} {groupID : Bytes}
  {committerLeaf R : ℕ} {applied : AppliedProposals} {t t' : RatchetTree}

theorem ApplyRun.pathShrinks (a : ApplyRun wt cm cache currentExt externalPSKs resumptionPSKs
    groupID committerLeaf applied) (hinv : wt.RepresentationInvariant) (hmember : R ∈ wt.members)
    (hspares : ∀ r ∈ a.resolved, r.Spares R) :
    PathShrinks R wt applied.tree :=
  (a.keeps_beside hinv hmember hspares (fun _ _ _ _ _ hf hne hshrinks hrun =>
      hshrinks.trans (hf.pathShrinks_updateLeaf hne hrun))
    (fun _ _ _ _ hf hshrinks hrun => hshrinks.trans (hf.pathShrinks_removeLeaf hrun))
    (fun _ _ _ _ _ hf htaken hshrinks hrun =>
      hshrinks.trans (hf.pathShrinks_addLeaf htaken hrun)) (.refl R wt)).2

def RatchetTree.ListedAbove (t : RatchetTree) (L : ℕ) : Prop :=
  ∀ k n, 0 < k → t.slot k (L / 2 ^ k) = some n → n.Lists L

theorem RatchetTree.ListedAbove.shrink {L : ℕ}
    (hlisted : t.ListedAbove L) (hshrinks : PathShrinks L t t') : t'.ListedAbove L := by
  intro k n' hk hn'
  obtain ⟨n, hn, -, hkept, -⟩ := hshrinks k n' hn'
  exact hkept (hlisted k n hk hn)

theorem RatchetTree.RepresentationInvariant.listedAbove {L : ℕ} {ln : LeafNode}
    (hinv : t.RepresentationInvariant) (hadd : t.addLeaf ln = .ok (L, t')) : t'.ListedAbove L := by
  obtain ⟨h, hf, -⟩ := hinv.full
  obtain ⟨-, hlt, hf', hslots⟩ := hf.addLeaf_ok hadd
  have hL : (UInt32.ofNat L).toNat = L := by
    refine UInt32.toNat_ofNat_of_lt' (hlt.trans_le ?_)
    exact (Nat.pow_le_pow_right (by norm_num) hf'.le_thirty).trans (by norm_num)
  intro k n' hk hn'
  rw [hslots, if_pos rfl, if_neg hk.ne'] at hn'
  rcases hslot : t.slot k (L / 2 ^ k) with _ | n
  · rw [hslot] at hn'
    cases hn'
  · obtain ⟨k, rfl⟩ : ∃ i, k = i + 1 := ⟨k - 1, by omega⟩
    obtain ⟨p, rfl⟩ := hinv.wellFormed.parent_slot _ _ n hslot
    rw [hslot] at hn'
    cases hn'
    exact ⟨_, WellFormed.mem_insertLeaf.mpr (.inl rfl), hL⟩

theorem ApplyRun.listedAbove (a : ApplyRun wt cm cache currentExt externalPSKs resumptionPSKs
    groupID committerLeaf applied) (hinv : wt.RepresentationInvariant) {leaf : ℕ} {kp : KeyPackage}
    (hmem : (leaf, kp) ∈ applied.added) :
    applied.tree.ListedAbove leaf := by
  obtain ⟨hinv, -⟩ := applyUpdates_spec hinv a.updated_eq
  obtain ⟨hinv, -⟩ := applyRemoves_spec hinv a.removed_eq
  refine (applyAdds_each (Q := fun leaf _ t => t.slot 0 leaf ≠ none ∧ t.ListedAbove leaf)
    (fun t t' li kp hinv hadd => ?_)
    (fun t t' li kp M ln hinv hlisted hadd => ?_) hinv a.added_eq leaf kp hmem).2
  · obtain ⟨h, hf, -⟩ := hinv.full
    exact ⟨by simp [(hf.added_of_addLeaf hadd).slot_leaf], hinv.listedAbove hadd⟩
  · obtain ⟨h, hf, -⟩ := hinv.full
    exact ⟨by rw [hf.addLeaf_taken hadd hlisted.1]; exact hlisted.1,
      hlisted.2.shrink (hf.pathShrinks_addLeaf hlisted.1 hadd)⟩

end Applied

namespace RatchetTree

variable {t t' : RatchetTree} {h L R k : ℕ} {priv priv' : TreeKEMPrivate} {nodeText : ℕ → String}
    {gp : GeneratedPath} {mkGroupContext : Bytes → Result Bytes} {seeds : ℕ → ℕ → Bytes}
    {signer : Option Signer}

/-! ## The sender of a path -/

theorem addPathSecrets_ok {secrets : GoMap ℕ Bytes} (hnodup : (secrets.map Prod.fst).Nodup)
    (hrun : addPathSecrets S nodeText priv secrets = .ok priv') :
    (∀ n s, secrets.get n = some s → ∃ key pub, nodeKeyPair S s = .ok (key, pub) ∧
      priv'.privateKey n = some key) ∧
    ∀ n, secrets.get n = none → priv'.privateKey n = priv.privateKey n := by
  induction secrets generalizing priv with
  | nil =>
      cases hrun
      simp
  | cons entry rest ih =>
      obtain ⟨node, secret⟩ := entry
      obtain ⟨priv₁, hadd, hrest⟩ := bind_eq_ok.mp hrun
      obtain ⟨key, pub, hpair, -, hprivs⟩ := addPathSecret_keys (within_eq_ok.mp hadd)
      rw [List.map_cons, List.nodup_cons] at hnodup
      obtain ⟨hlater, helse⟩ := ih hnodup.2 hrest
      have hget : ∀ n, GoMap.get ((node, secret) :: rest) n =
          if n = node then some secret else GoMap.get rest n :=
        fun n => GoMap.get_set rest node n secret
      refine ⟨fun n s hs => ?_, fun n hnone => ?_⟩
      · rw [hget] at hs
        split at hs
        · next heq =>
            cases hs
            subst heq
            refine ⟨key, pub, hpair, ?_⟩
            rw [helse n (GoMap.get_eq_none_iff.mpr hnodup.1), hprivs, if_pos rfl]
        · exact hlater n s hs
      · rw [hget] at hnone
        split at hnone
        · cases hnone
        · next hne => rw [helse n hnone, hprivs, if_neg hne]

/-! ## After the path -/

/-- Nothing that leaf `R` needs is below the node where its path meets that of
leaf `L`. -/
def NoneDropped (t : RatchetTree) (L R : ℕ) : Prop :=
  ∀ k n, 0 < k → L / 2 ^ k ≠ R / 2 ^ k → t.slot k (R / 2 ^ k) = some n → n.Lists R

/-- The node key that is found `steps` ratchet steps too high still belongs to the
node. -/
def SurplusHarmless (S : Suite) (s : Bytes) (steps : ℕ) : Prop :=
  ∀ s' key pub key' pub', ratchet S s steps = .ok s' →
    nodeKeyPair S s = .ok (key, pub) → nodeKeyPair S s' = .ok (key', pub') → S.Matching key' pub

/-- What leaf `R` derives above the meeting point belongs to the nodes of the path
of leaf `L`. -/
def Aligned (S : Suite) (t : RatchetTree) (gp : GeneratedPath) (L R : ℕ) : Prop :=
  ∀ f k s, R / 2 ^ f = siblingRank (L / 2 ^ f) → f ≤ k →
    gp.pathSecretByNode.get (pathNode L k) = some s →
      SurplusHarmless S s (t.skippedBetween L (pathNode L f) (pathNode L k))

theorem ListedAbove.noneDropped (hlisted : t.ListedAbove R) : NoneDropped t L R :=
  fun k n hk _ hn => hlisted k n hk hn

section Generated

variable {senderLeaf : ℕ} {leafSecret : Bytes} {signer : Option Signer}
  {groupID : Bytes} {newlyAdded : List ℕ} {mkGroupContext : Bytes → Result Bytes}
  {seeds : ℕ → ℕ → Bytes} {gp : GeneratedPath}

namespace PathRun

variable (p : PathRun S t senderLeaf leafSecret signer groupID newlyAdded mkGroupContext seeds gp)

include p

theorem slot_off (hf : t.Full h) {k j : ℕ} (hne : senderLeaf % 2 ^ 31 / 2 ^ k ≠ j) :
    gp.tree.slot k j = t.slot k j := by
  obtain ⟨entries, -, hi⟩ := p.installed_tree hf
  exact hi.slot_off hne

theorem slot_sender (hf : t.Full h) :
    gp.tree.slot 0 (senderLeaf % 2 ^ 31) = some (.leaf gp.updatePath.leafNode) := by
  obtain ⟨entries, -, hi⟩ := p.installed_tree hf
  exact hi.slot_leaf

theorem not_lists (hf : t.Full h) {n : Node}
    (hn : gp.tree.slot (k + 1) (senderLeaf % 2 ^ 31 / 2 ^ (k + 1)) = some n) :
    ¬ n.Lists R := by
  obtain ⟨entries, -, hi⟩ := p.installed_tree hf
  rw [hi.slot_on] at hn
  obtain ⟨q, rfl, hmem⟩ := entrySlot_eq_some hn
  have hnil : q.unmergedLeaves = [] := pathEntries_unmerged hi.entries_eq _ hmem
  simp [Node.Lists, hnil]

theorem secret_of_slot (hf : t.Full h) {n : Node}
    (hn : gp.tree.slot (k + 1) (senderLeaf % 2 ^ 31 / 2 ^ (k + 1)) = some n) :
    ∃ s key, gp.pathSecretByNode.get (pathNode (senderLeaf % 2 ^ 31) k) = some s ∧
      nodeKeyPair S s = .ok (key, n.encryptionKey) := by
  obtain ⟨entries, -, hi⟩ := p.installed_tree hf
  have hon : entrySlot entries k ≠ none := by
    rw [← hi.slot_on, hn]
    simp
  obtain ⟨s, hs⟩ := p.exists_secret hf (mem_pathLevels.mpr (hi.entrySlot_ne_none_iff.mp hon))
  obtain ⟨k', -, heq, -, key, pub, hpair, hpub⟩ := p.secret_spec hf hs
  obtain rfl := pathNode_injective _ heq
  rw [pathNode, nodePublicKey_eq_ok, hn] at hpub
  obtain ⟨n', hn', rfl⟩ := hpub
  cases hn'
  exact ⟨s, key, hs, hpair⟩

theorem leaf_encryptionKey : gp.updatePath.leafNode.encryptionKey = p.leafPub := by
  obtain ⟨sig, hleaf⟩ := signLeafNode_ok p.leaf_eq
  rw [hleaf]
  rfl

theorem sender_holdsPathKeys (hf : t.Full h) {secretText keyText : String} (hrun : senderPriv S
    secretText keyText nodeText senderLeaf leafSecret gp.pathSecretByNode = .ok priv) :
    HoldsPathKeys S gp.tree (senderLeaf % 2 ^ 31) priv := by
  simp only [senderPriv, bind_eq_ok, within_eq_ok] at hrun
  obtain ⟨leafNodeSecret, hsecret, ⟨leafPriv, leafPub⟩, hleafKeys, hadd⟩ := hrun
  have hleafPair : nodeKeyPair S leafSecret = .ok (leafPriv, leafPub) := by
    rw [nodeKeyPair, hsecret, ok_bind, hleafKeys]
  rw [p.leafKeys_eq, Except.ok.injEq, Prod.mk.injEq] at hleafPair
  obtain ⟨hheld, helse⟩ := addPathSecrets_ok (p.nodup_pathSecretByNode hf) hadd
  have hoff : ∀ {d}, (∀ k, d ≠ pathNode (senderLeaf % 2 ^ 31) k) →
      gp.pathSecretByNode.get d = none := by
    intro d hd
    refine Option.eq_none_iff_forall_ne_some.mpr fun s hs => ?_
    obtain ⟨k, -, heq, -⟩ := p.secret_spec hf hs
    exact hd k heq
  have hleafNode : gp.pathSecretByNode.get (inorder 0 (senderLeaf % 2 ^ 31)) = none := by
    refine hoff fun k heq => ?_
    have := (inorder_inj.mp heq).1
    omega
  have hown : priv.privateKey (inorder 0 (senderLeaf % 2 ^ 31)) = some leafPriv := by
    rw [helse _ hleafNode, TreeKEMPrivate.privateKey_new, u32_double, if_pos rfl]
  have hpair : S.Matching leafPriv gp.updatePath.leafNode.encryptionKey := by
    rw [p.leaf_encryptionKey, ← hleafPair.1]
    exact nodeKeyPair_matching p.leafKeys_eq
  have hcases : ∀ {d key}, priv.privateKey d = some key →
      d = inorder 0 (senderLeaf % 2 ^ 31) ∨
        ∃ k s, d = pathNode (senderLeaf % 2 ^ 31) k ∧ gp.pathSecretByNode.get d = some s := by
    intro d key hkey
    cases hs : gp.pathSecretByNode.get d with
    | none =>
        rw [helse d hs, TreeKEMPrivate.privateKey_new, u32_double] at hkey
        split at hkey
        · next hd => exact .inl hd
        · cases hkey
    | some s =>
        obtain ⟨k, -, heq, -⟩ := p.secret_spec hf hs
        exact .inr ⟨k, s, heq, rfl⟩
  refine ⟨⟨fun d pub key hpub hkey => ?_, fun k n hn _ => ?_⟩, fun d key hkey => ?_⟩
  · rcases hcases hkey with rfl | ⟨k, s, rfl, hs⟩
    · obtain ⟨n, hn, rfl⟩ := nodePublicKey_eq_ok.mp hpub
      rw [p.slot_sender hf] at hn
      cases hn
      cases hown.symm.trans hkey
      exact hpair
    · obtain ⟨key', pub', hpair', hget⟩ := hheld _ s hs
      obtain ⟨n, hn, rfl⟩ := nodePublicKey_eq_ok.mp hpub
      obtain ⟨s', key₀, hs', hpair₀⟩ := p.secret_of_slot hf hn
      cases hs.symm.trans hs'
      cases hpair'.symm.trans hpair₀
      cases hkey.symm.trans hget
      exact nodeKeyPair_matching hpair'
  · rcases Nat.eq_zero_or_pos k with rfl | hk
    · exact ⟨leafPriv, by simpa using hown⟩
    · obtain ⟨k, rfl⟩ : ∃ i, k = i + 1 := ⟨k - 1, by omega⟩
      obtain ⟨s, -, hs, -⟩ := p.secret_of_slot hf hn
      obtain ⟨key, -, -, hget⟩ := hheld _ s hs
      exact ⟨key, hget⟩
  · rcases hcases hkey with rfl | ⟨k, s, rfl, -⟩
    · exact ⟨0, by simp⟩
    · exact ⟨k + 1, rfl⟩

end PathRun

end Generated

theorem meet_iff_of_fork {f : ℕ} (hfork : R / 2 ^ f = siblingRank (L / 2 ^ f)) :
    L / 2 ^ k = R / 2 ^ k ↔ f + 1 ≤ k := by
  refine ⟨fun heq => ?_, fun hk => ancestor_congr (meet_of_fork hfork) hk⟩
  by_contra hlt
  have hup := ancestor_congr heq (show k ≤ f by omega)
  rw [hfork] at hup
  exact siblingRank_ne _ hup

section Rebuilt

variable {f : ℕ} {ownKey secret : Bytes}
  (hkeys : JoinerKeys S h R (f + 1) secret (TreeKEMPrivate.new R ownKey) priv')
  (hlt : R < 2 ^ 31)

include hkeys hlt

theorem rebuilt_own : priv'.privateKey (inorder 0 R) = some ownKey := by
  rw [hkeys.elsewhere, TreeKEMPrivate.privateKey_new, if_pos]
  · rw [u32_double, Nat.mod_eq_of_lt hlt]
  · intro i hi _ heq
    have := (inorder_inj.mp heq).1
    omega

theorem rebuilt_cases {d : ℕ} {key : Bytes} (hkey : priv'.privateKey d = some key) :
    (d = inorder 0 R ∧ key = ownKey) ∨ ∃ i, f + 1 ≤ i ∧ i ≤ h ∧ d = inorder i (R / 2 ^ i) := by
  by_cases hpath : ∃ i, f + 1 ≤ i ∧ i ≤ h ∧ d = inorder i (R / 2 ^ i)
  · exact .inr hpath
  · push Not at hpath
    rw [hkeys.elsewhere d hpath, TreeKEMPrivate.privateKey_new, u32_double,
      Nat.mod_eq_of_lt hlt] at hkey
    split at hkey
    · next hd => exact .inl ⟨hd, (Option.some.inj hkey).symm⟩
    · cases hkey

end Rebuilt

theorem PathRun.aligned_of_none_skipped {senderLeaf : ℕ} {leafSecret : Bytes} {groupID : Bytes}
    {newlyAdded : List ℕ}
    (p : PathRun S t senderLeaf leafSecret signer groupID newlyAdded
      mkGroupContext seeds gp) (hf : t.Full h)
    (hnone : ∀ k < h, ∀ f ≤ k, t.skippedBetween (senderLeaf % 2 ^ 31)
      (pathNode (senderLeaf % 2 ^ 31) f) (pathNode (senderLeaf % 2 ^ 31) k) = 0) :
    Aligned S t gp (senderLeaf % 2 ^ 31) R := by
  intro f k s _ hfk hs s' key pub key' pub' hratchet hpair hpair'
  obtain ⟨k', hk', heq, -⟩ := p.secret_spec hf hs
  obtain rfl := pathNode_injective _ heq
  rw [hnone k (mem_pathLevels.mp hk').1 f hfk] at hratchet
  cases hratchet
  cases hpair.symm.trans hpair'
  exact nodeKeyPair_matching hpair

/-- The reader of a path has what it needs exactly if it needed nothing below the
meeting point and derives the right keys above, and then all it has is right. -/
structure Rebuilt (S : Suite) (t : RatchetTree) (gp : GeneratedPath) (L R : ℕ)
    (priv : TreeKEMPrivate) : Prop where
  complete_iff : KeysComplete S gp.tree R priv ↔ NoneDropped t L R ∧ Aligned S t gp L R
  holds : KeysComplete S gp.tree R priv → HoldsPathKeys S gp.tree R priv

section Receiver

variable {senderLeaf : ℕ} {leafSecret : Bytes} {signer : Option Signer}
  {groupID : Bytes} {newlyAdded : List ℕ} {mkGroupContext : Bytes → Result Bytes}
  {seeds : ℕ → ℕ → Bytes} {gp : GeneratedPath}
  (p : PathRun S t senderLeaf leafSecret signer groupID newlyAdded
    mkGroupContext seeds gp) (hf : t.Full h) (hR : R < 2 ^ h) {f : ℕ}
  (hfork : R / 2 ^ f = siblingRank (senderLeaf % 2 ^ 31 / 2 ^ f)) {l : LeafNode}
  (hleaf : t.slot 0 R = some (.leaf l)) {ownKey secret : Bytes}
  (hmatch : S.Matching ownKey l.encryptionKey)
  (hsecret : gp.pathSecretByNode.get (pathNode (senderLeaf % 2 ^ 31) f) = some secret)
  (hkeys : JoinerKeys S h R (f + 1) secret (TreeKEMPrivate.new R ownKey) priv')

include p hf hR hfork hkeys

theorem PathRun.noneDropped (hcomplete : KeysComplete S gp.tree R priv') :
    NoneDropped t (senderLeaf % 2 ^ 31) R := by
  have hle := hf.two_pow_le
  intro k n hk hne hn
  by_contra hlists
  obtain ⟨key, hkey, -⟩ := hcomplete k n (by rwa [p.slot_off hf hne]) hlists
  rcases rebuilt_cases hkeys (by omega) hkey with ⟨hd, -⟩ | ⟨i, hi, -, hd⟩
  · have := (inorder_inj.mp hd).1
    omega
  · obtain ⟨rfl, -⟩ := inorder_inj.mp hd
    exact hne ((meet_iff_of_fork hfork).mpr hi)

include hsecret

omit hR in
theorem PathRun.aligned (hcomplete : KeysComplete S gp.tree R priv') :
    Aligned S t gp (senderLeaf % 2 ^ 31) R := by
  intro f' k s hfork' hfk hs s' key pub key' pub' hratchet hpair hpair'
  obtain rfl := fork_unique hfork hfork'
  obtain ⟨k', hk', heq, -, key₀, pub₀, hpair₀, hpub⟩ := p.secret_spec hf hs
  obtain rfl := pathNode_injective _ heq
  cases hpair.symm.trans hpair₀
  obtain ⟨s'', key'', pub'', hratchet', hpair'', hget⟩ :=
    hkeys.on_path (k + 1) (by omega) (mem_pathLevels.mp hk').1
  rw [show k + 1 - (f + 1) = k - f by omega] at hratchet'
  cases (p.ratchet_above hf hfk hsecret hs hratchet').symm.trans hratchet
  cases hpair'.symm.trans hpair''
  obtain ⟨n, hn, rfl⟩ := nodePublicKey_eq_ok.mp hpub
  have hmeet := (meet_iff_of_fork hfork).mpr (show f + 1 ≤ k + 1 by omega)
  obtain ⟨key, hheld, hmatch⟩ := hcomplete (k + 1) n (hmeet ▸ hn) (p.not_lists hf hn)
  cases hheld.symm.trans hget
  exact hmatch

include hleaf hmatch

theorem PathRun.holdsPathKeys (hdropped : NoneDropped t (senderLeaf % 2 ^ 31) R)
    (haligned : Aligned S t gp (senderLeaf % 2 ^ 31) R) :
    HoldsPathKeys S gp.tree R priv' := by
  have hle := hf.two_pow_le
  have hother : senderLeaf % 2 ^ 31 / 2 ^ 0 ≠ R := by
    intro heq
    have := (meet_iff_of_fork (k := 0) hfork).mp (by simpa using heq)
    omega
  refine ⟨⟨fun d pub key hpub hkey => ?_, fun k n hn hlists => ?_⟩, fun d key hkey => ?_⟩
  · rcases rebuilt_cases hkeys (by omega) hkey with ⟨rfl, rfl⟩ | ⟨i, hi, hih, rfl⟩
    · obtain ⟨n, hn, rfl⟩ := nodePublicKey_eq_ok.mp hpub
      rw [p.slot_off hf hother, hleaf] at hn
      cases hn
      exact hmatch
    · obtain ⟨k, rfl⟩ : ∃ k, i = k + 1 := ⟨i - 1, by omega⟩
      obtain ⟨s', key', pub', hratchet, hpair', hget⟩ := hkeys.on_path (k + 1) hi hih
      rw [show k + 1 - (f + 1) = k - f by omega] at hratchet
      rw [hkey, Option.some.injEq] at hget
      obtain ⟨n, hn, rfl⟩ := nodePublicKey_eq_ok.mp hpub
      rw [← (meet_iff_of_fork hfork).mpr hi] at hn
      obtain ⟨s, key₀, hs, hpair⟩ := p.secret_of_slot hf hn
      rw [hget]
      exact haligned f k s hfork (by omega) hs s' key₀ n.encryptionKey key' pub'
        (p.ratchet_above hf (by omega) hsecret hs hratchet) hpair hpair'
  · rcases Nat.eq_zero_or_pos k with rfl | hk
    · exact ⟨ownKey, by simpa using rebuilt_own hkeys (by omega)⟩
    · by_cases heq : senderLeaf % 2 ^ 31 / 2 ^ k = R / 2 ^ k
      · obtain ⟨entries, -, hi⟩ := p.installed_tree hf
        obtain ⟨-, key, -, -, -, hget⟩ := hkeys.on_path k
          ((meet_iff_of_fork hfork).mp heq) (hi.full.inside_of_slot hn).1
        exact ⟨key, hget⟩
      · rw [p.slot_off hf heq] at hn
        exact absurd (hdropped k n hk heq hn) hlists
  · rcases rebuilt_cases hkeys (by omega) hkey with ⟨rfl, -⟩ | ⟨i, -, -, rfl⟩
    · exact ⟨0, by simp⟩
    · exact ⟨i, rfl⟩

theorem PathRun.rebuilt : Rebuilt S t gp (senderLeaf % 2 ^ 31) R priv' := by
  have hneeds : KeysComplete S gp.tree R priv' →
      NoneDropped t (senderLeaf % 2 ^ 31) R ∧ Aligned S t gp (senderLeaf % 2 ^ 31) R :=
    fun hcomplete => ⟨p.noneDropped hf hR hfork hkeys hcomplete,
      p.aligned hf hfork hsecret hkeys hcomplete⟩
  have hholds : NoneDropped t (senderLeaf % 2 ^ 31) R ∧
      Aligned S t gp (senderLeaf % 2 ^ 31) R → HoldsPathKeys S gp.tree R priv' :=
    fun hneeds => p.holdsPathKeys hf hR hfork hleaf hmatch hsecret hkeys hneeds.1 hneeds.2
  exact ⟨⟨hneeds, fun h => (hholds h).complete⟩, fun h => hholds (hneeds h)⟩

end Receiver

/-! ## Readers -/

theorem ratchet_length (hkdf : KdfLaws S) {secret s : Bytes} {n : ℕ}
    (hrun : ratchet S secret (n + 1) = .ok s) : s.length = S.hashLen := by
  induction n generalizing secret with
  | zero =>
      obtain ⟨next, hnext, hlen⟩ := deriveSecret_ok hkdf secret "path" (by decide)
      rw [ratchet, hnext] at hrun
      cases hrun
      exact hlen
  | succ n ih =>
      obtain ⟨next, -, hrest⟩ := bind_eq_ok.mp hrun
      exact ih hrest

theorem PathRun.rebuilt_of_read (hkdf : KdfLaws S) (hpos : 0 < S.hashLen)
    (hinv : t.RepresentationInvariant) {sender node : ℕ} {leafSecret secret : Bytes}
    {groupID : Bytes} {newlyAdded skipped : List ℕ}
    (p : PathRun S t sender leafSecret signer groupID newlyAdded mkGroupContext seeds gp)
    (hsender : sender < 2 ^ 31) (hmember : R ∈ t.members) (hkeys : HoldsPathKeys S t R priv)
    (hread : PathRead S t gp sender R skipped priv priv' node secret) :
    Rebuilt S t gp sender R priv' := by
  obtain ⟨h, hf, -⟩ := hinv.full
  have hmod : sender % 2 ^ 31 = sender := Nat.mod_eq_of_lt hsender
  have hR : R < 2 ^ h := hf.member_lt hmember
  obtain ⟨hL, -⟩ := p.sender_slot hf
  have hsecret := p.get_of_mem_pathSecretByNode hf hread.entry
  obtain ⟨k, hk, rfl, hratchet, -⟩ := p.secret_spec hf hsecret
  have hnil : secret ≠ [] := by
    rintro rfl
    have := ratchet_length hkdf hratchet
    simp at this
    omega
  -- where the reader found the secret and where it enters its keys is one place
  have hreaches := hread.reaches
  rw [u32_double] at hreaches
  have hfork := hf.fork_of_reaches hinv.wellFormed hkeys hL (mem_pathLevels.mp hk).1 hreaches
  obtain ⟨k', -, ownKey, hfork', hown, hrebuilt⟩ := hread.rebuilt hnil h hf
  rw [← hmod] at hfork'
  obtain rfl := fork_unique hfork hfork'
  obtain ⟨n, hn⟩ := Option.ne_none_iff_exists'.mp hmember
  obtain ⟨l, rfl⟩ := hinv.wellFormed.leaf_slot _ n hn
  have hmatch : S.Matching ownKey l.encryptionKey := by
    have hlt := hinv.member_lt hmember
    rw [u32_double, Nat.mod_eq_of_lt (by omega)] at hown
    exact hkeys.matching _ _ ownKey (nodePublicKey_eq_ok.mpr ⟨_, hn, rfl⟩) hown
  rw [← hmod]
  exact p.rebuilt hf hR hfork hn hmatch hsecret hrebuilt

end RatchetTree

end MlsGo
