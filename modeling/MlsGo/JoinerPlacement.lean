import MlsGo.PathRuns
import MlsGo.RepresentationInvariant

/-!
# The leaf of an external joiner

An external joiner puts its key-package leaf into the tree and generates its path
there; the members put the commit leaf of that path into theirs.  The two trees
differ at this one leaf, and the path of a leaf does not depend on what the leaf
held: the same path runs on both trees, to the same tree.
-/

namespace MlsGo.RatchetTree

open InOrderLayout

variable {S : Suite} {t t' : RatchetTree} {h k j L : ℕ}

structure SameButLeaf (t t' : RatchetTree) (h L : ℕ) : Prop where
  full : t.Full h
  full' : t'.Full h
  slot_eq : ∀ k j, ¬ (k = 0 ∧ j = L) → t'.slot k j = t.slot k j

theorem Full.addLeaf_other (hf : t.Full h) {ln : LeafNode}
    (hadd : t.addLeaf ln = .ok (L, t')) (ln' : LeafNode) :
    ∃ t'' h', t.addLeaf ln' = .ok (L, t'') ∧ SameButLeaf t' t'' h' L ∧
      L < 2 ^ h' ∧ t''.slot 0 L = some (.leaf ln') := by
  obtain ⟨⟨hblank, hfirst⟩, hL, hf', hslots⟩ := hf.addLeaf_ok hadd
  have hroom : L < 2 ^ h ∨ h < 30 := by
    by_cases hlt : L < 2 ^ h
    · exact .inl hlt
    · rw [if_neg hlt] at hf'
      have := hf'.le_thirty
      exact .inr (by omega)
  obtain ⟨t'', hrun, hf'', hslots'⟩ := hf.addLeaf_spec hblank hfirst hroom ln'
  refine ⟨t'', _, hrun, ⟨hf', hf'', fun k j hne => ?_⟩, hL, by simp [hslots']⟩
  rw [hslots, hslots']
  by_cases hj : L / 2 ^ k = j
  · have hk : k ≠ 0 := by
      rintro rfl
      exact hne ⟨rfl, by simpa using hj.symm⟩
    rw [if_pos hj, if_pos hj, if_neg hk, if_neg hk]
  · rw [if_neg hj, if_neg hj]

namespace SameButLeaf

theorem slot_off (hs : SameButLeaf t t' h L) (hoff : L / 2 ^ k ≠ j) :
    t'.slot k j = t.slot k j := by
  refine hs.slot_eq k j ?_
  rintro ⟨rfl, rfl⟩
  simp at hoff

theorem copath_slot (hs : SameButLeaf t t' h L) {i m : ℕ}
    (hbelow : Below k (siblingRank (L / 2 ^ k)) i m) :
    t'.slot i m = t.slot i m := hs.slot_off (hbelow.off_path (siblingRank_ne _))

theorem copath_resolution (hs : SameButLeaf t t' h L) (k : ℕ) :
    t'.resolutionAt k (siblingRank (L / 2 ^ k)) = t.resolutionAt k (siblingRank (L / 2 ^ k)) :=
  resolutionAt_congr k _ fun _ _ hbelow => hs.copath_slot hbelow

theorem pathLevels_eq (hs : SameButLeaf t t' h L) : t'.pathLevels h L = t.pathLevels h L := by
  unfold pathLevels copathEmpty
  simp only [hs.copath_resolution]

theorem parentHashBelow_eq (hs : SameButLeaf t t' h L) (entries : GoMap ℕ ParentNode) :
    t'.parentHashBelow S L entries = t.parentHashBelow S L entries := by
  cases entries with
  | nil => rfl
  | cons entry rest =>
      obtain ⟨k, p⟩ := entry
      simp only [parentHashBelow, parentHashVia]
      rw [treeHashAt_congr_slots S _ k _ fun _ _ hbelow => hs.copath_slot hbelow]

theorem pathEntries_eq (hs : SameButLeaf t t' h L) (path : List (ℕ × Bytes)) :
    t'.pathEntries S L path = t.pathEntries S L path := by
  induction path with
  | nil => rfl
  | cons head rest ih =>
      obtain ⟨k, pub⟩ := head
      simp only [pathEntries_cons_eq, ih, hs.parentHashBelow_eq]

theorem recipientKeys_eq (hs : SameButLeaf t t' h L) (hw : WellFormed t.slot)
    (skipped : List ℕ) (k : ℕ) :
    t'.recipientKeys skipped (t.resolutionAt k (siblingRank (L / 2 ^ k))) =
      t.recipientKeys skipped (t.resolutionAt k (siblingRank (L / 2 ^ k))) := by
  have hkey : ∀ d ∈ t.resolutionAt k (siblingRank (L / 2 ^ k)),
      t'.nodePublicKey d = t.nodePublicKey d := by
    intro d hd
    obtain ⟨i, m, rfl, hbelow, hne⟩ := hs.full.mem_resolutionAt hw k _ d hd
    obtain ⟨n, hn⟩ := Option.ne_none_iff_exists'.mp hne
    have hin := hs.full.inside_of_slot hn
    simp only [nodePublicKey, hs.full.index_eq hin, hs.full'.index_eq hin, hs.copath_slot hbelow]
  generalize t.resolutionAt k (siblingRank (L / 2 ^ k)) = res at hkey
  induction res with
  | nil => rfl
  | cons d ds ih =>
      simp only [recipientKeys, hkey d (by simp), ih fun x hx => hkey x (by simp [hx])]

theorem copathRecipients_eq (hs : SameButLeaf t t' h L) (hw : WellFormed t.slot) (hL : L < 2 ^ h)
    (skipped : List ℕ) {levels : List ℕ} (hlevels : ∀ k ∈ levels, k < h) :
    t'.copathRecipients (inorder 0 L) skipped (levels.map (pathNode L)) =
      t.copathRecipients (inorder 0 L) skipped (levels.map (pathNode L)) := by
  induction levels with
  | nil => rfl
  | cons k rest ih =>
      have hk := hlevels k (by simp)
      have hin : Inside h k (siblingRank (L / 2 ^ k)) := (inside_ancestor hL hk.le).sibling hk
      have hrest := ih fun i hi => hlevels i (by simp [hi])
      have hchild := hs.full.copathChild_eq hL hk
      have hchild' := hs.full'.copathChild_eq hL hk
      rw [← pathNode] at hchild hchild'
      simp only [List.map_cons, copathRecipients, hchild, hchild', ok_bind, hs.full.resolution_eq
        hin, hs.full'.resolution_eq hin, hs.copath_resolution, hs.recipientKeys_eq hw, hrest]

theorem installed_eq (hs : SameButLeaf t t' h L) (hL : L < 2 ^ h)
    {nodePubs : List Bytes} {entries : GoMap ℕ ParentNode} {leaf : LeafNode}
    {s : RatchetTree} (hi : Installed S t h L nodePubs entries leaf s) :
    (t'.withAncestors L (entrySlot entries) h).setSlot 0 L (some (.leaf leaf)) = s := by
  have hin : Inside h 0 L := ⟨Nat.zero_le _, by simpa using hL⟩
  have hfull := hs.full'.withAncestors L (entrySlot entries) h
  have hout : ∀ k, h ≤ k → entrySlot entries k = none := by
    intro k hk
    rw [entrySlot_eq_none_iff, hi.keys_eq, mem_pathLevels]
    omega
  apply (hfull.setSlot _ _ _).ext_slots hi.full
  intro k j
  rw [hfull.slot_setSlot hin, hs.full'.slot_withAncestors_all hL _ hout, hi.slot_eq]
  rcases Nat.eq_zero_or_pos k with rfl | hk
  · by_cases hj : L = j
    · simp [hj]
    · simpa [hj, Ne.symm hj] using hs.slot_eq 0 j (by simp [Ne.symm hj])
  · by_cases hj : L / 2 ^ k = j
    · simp [hj, hk, hk.ne']
    · simpa [hj, hk.ne'] using hs.slot_eq k j (by omega)

end SameButLeaf

section Generated

variable {senderLeaf : ℕ} {leafSecret : Bytes} {signer : Option Signer} {groupID : Bytes}
  {newlyAdded : List ℕ} {mkGroupContext : Bytes → Result Bytes} {seeds : ℕ → ℕ → Bytes}
  {gp : GeneratedPath}

/-- A path generated at a leaf is also generated, with the same tree as result,
where that leaf holds the commit leaf of the path already. -/
theorem PathRun.at_commitLeaf (r : PathRun S t senderLeaf leafSecret signer groupID newlyAdded
    mkGroupContext seeds gp) (hs : SameButLeaf t t' h (senderLeaf % 2 ^ 31))
    (hw : WellFormed t.slot) (hslot : t'.slot 0 (senderLeaf % 2 ^ 31) =
    some (.leaf gp.updatePath.leafNode)) :
    Nonempty (PathRun S t' senderLeaf leafSecret signer groupID newlyAdded
      mkGroupContext seeds gp) := by
  obtain ⟨hL, -⟩ := r.sender_slot hs.full
  have hin : Inside h 0 (senderLeaf % 2 ^ 31) := ⟨Nat.zero_le _, by simpa using hL⟩
  obtain ⟨entries, hinstalled, hi⟩ := r.installed_tree hs.full
  have hpath := r.path_eq
  rw [hs.full.filteredDirectPath_eq rfl hL, Except.ok.injEq] at hpath
  have hlevels : ∀ k ∈ t.pathLevels h (senderLeaf % 2 ^ 31), k < h :=
    fun k hk => (mem_pathLevels.mp hk).1
  have hresPubs := r.resPubs_eq
  rw [u32_double, ← hpath, ← hs.copathRecipients_eq hw hL _ hlevels, hpath] at hresPubs
  -- the same entries above the leaf, and the same hash for it
  have hfull := hs.full'.withAncestors (senderLeaf % 2 ^ 31) (entrySlot entries) h
  have hinstall : t'.installPath S senderLeaf r.nodePubs =
      .ok (t'.withAncestors (senderLeaf % 2 ^ 31) (entrySlot entries) h) := by
    rw [hs.full'.installPath_eq rfl hL (by rw [hs.pathLevels_eq, hi.length_eq]),
      hs.pathLevels_eq, hs.pathEntries_eq, hi.entries_eq, ok_bind, pure_eq_ok]
  have hparentHash : (t'.withAncestors (senderLeaf % 2 ^ 31) (entrySlot entries)
      h).leafParentHash S senderLeaf r.path = .ok r.parentHash := by
    have hkeys : ∀ k ∈ entries.map Prod.fst, k < h := by
      rw [hi.keys_eq]
      exact hlevels
    have hnodes := hs.full'.leafParentHash_eq (S := S) rfl hL hkeys
    rwa [hi.keys_eq, hpath, hs.parentHashBelow_eq,
      r.parentHash_below hs.full hinstalled hi.keys_eq] at hnodes
  have htree : (t'.withAncestors (senderLeaf % 2 ^ 31) (entrySlot entries) h).setNode
      (u32 (2 * senderLeaf)) (some (.leaf gp.updatePath.leafNode)) = .ok gp.tree := by
    rw [u32_double, hfull.setNode_eq hin]
    rw [hs.installed_eq hL hi]
  obtain ⟨sig, hleaf⟩ := signLeafNode_ok r.leaf_eq
  have hcommit : commitLeaf gp.updatePath.leafNode r.leafPub r.parentHash =
      commitLeaf r.orig r.leafPub r.parentHash := by
    rw [hleaf]
    rfl
  exact ⟨{ r with
    orig := gp.updatePath.leafNode
    installed := t'.withAncestors (senderLeaf % 2 ^ 31) (entrySlot entries) h
    resPubs := r.resPubs
    orig_eq := by rw [u32_double, hs.full'.index_eq hin, hslot]
    path_eq := by
      rw [hs.full'.filteredDirectPath_eq rfl hL, hs.pathLevels_eq, hpath]
    resPubs_eq := by rwa [u32_double]
    installed_eq := hinstall
    parentHash_eq := hparentHash
    leaf_eq := by rw [hcommit, r.leaf_eq]
    tree_eq := htree }⟩

end Generated

end MlsGo.RatchetTree
