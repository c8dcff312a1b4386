import MlsGo.RepresentationInvariant

/-!
# Where leaves go

`RemoveLeaf` and `AddLeaf` on the node array, as their callers see them: the
width afterwards and the content of every node.  A node is an ancestor of a leaf
if its subtree contains the leaf.
-/

namespace MlsGo

namespace RatchetTree

open InOrderLayout

variable {S : Suite} {t t' : RatchetTree} {h L : ℕ}

/-! ## Removal -/

/-- Tree `t'` is `t` without leaf `L` and its ancestors, in the least complete
width that covers the members that remain. -/
structure Removed (t : RatchetTree) (L : ℕ) (t' : RatchetTree) : Prop where
  width_eq : ∃ k, t'.nodes.length = 2 ^ (k + 1) - 1
  covers : ∀ M < t.leafCount, t.Populated M → M ≠ L → 2 * M < t'.nodes.length
  least : ∀ k, (∀ M < t.leafCount, t.Populated M → M ≠ L → 2 * M < 2 ^ k - 1) →
    t'.nodes.length ≤ 2 ^ k - 1
  shrinks : t'.nodes.length ≤ t.nodes.length
  node_eq : ∀ i < t.nodes.length, t'.nodeAt i =
    if subtreeContains i (2 * L) then none else t.nodeAt i

theorem RepresentationInvariant.removeLeaf_removed (hinv : t.RepresentationInvariant)
    (hL : L < t.leafCount) (hleft : ∃ M < t.leafCount, t.Populated M ∧ M ≠ L) :
    ∃ t', t.removeLeaf L = .ok t' ∧ t.Removed L t' := by
  obtain ⟨h, hf, -⟩ := hinv.full
  have hh := hf.le_thirtyOne
  have hle := hf.two_pow_le
  rw [hf.leafCount_eq] at hL
  have hmod : L % 2 ^ 31 = L := Nat.mod_eq_of_lt (by omega)
  obtain ⟨t', h', hle', hrun, hf', hslots, -⟩ := hf.removeLeaf_spec hmod hL
  have hinv' := removeLeaf_invariant hinv hrun
  -- the members that remain
  have hmembers : ∀ M, t'.slot 0 M ≠ none ↔ M ≠ L ∧ t.slot 0 M ≠ none := by
    intro M
    rw [hslots, pow_zero, Nat.div_one]
    by_cases hM : L = M
    · simp [hM]
    · simp [hM, Ne.symm hM]
  have hremains : ∀ M, M < t.leafCount → t.Populated M → M ≠ L → t'.slot 0 M ≠ none := by
    intro M hM hmember hne
    rw [hf.leafCount_eq] at hM
    exact (hmembers M).mpr ⟨hne, (hf.populated_iff_of_lt hM).mp hmember⟩
  have hadd := treeWidth_add_one h'
  refine ⟨t', hrun, ⟨h', hf'.length_eq⟩, ?_, ?_, ?_, ?_⟩
  · intro M hM hmember hne
    have hlt := hf'.member_lt (hremains M hM hmember hne)
    rw [hf'.length_eq]
    rw [pow_succ] at hadd
    omega
  · intro k hcover
    -- the least width is the actual one because its right half is populated
    obtain ⟨h'', hf'', hright⟩ := hinv'.full
    obtain rfl := hf'.height_unique hf''
    have hcover' : ∀ M, t'.slot 0 M ≠ none → 2 * M < 2 ^ k - 1 := by
      intro M hM
      obtain ⟨hne, hslot⟩ := (hmembers M).mp hM
      have hlt := hf.member_lt hslot
      exact hcover M (hf.leafCount_eq ▸ hlt) ((hf.populated_iff_of_lt hlt).mpr hslot) hne
    rw [hf'.length_eq, treeWidth]
    have hk : h' + 1 ≤ k := by
      by_contra hlt
      rcases Nat.eq_zero_or_pos h' with rfl | hpos
      · obtain ⟨M, hM, hmember, hne⟩ := hleft
        have := hcover M hM hmember hne
        have hk0 : k = 0 := by omega
        simp [hk0] at this
      · obtain ⟨M, hM, hMne⟩ := hright hpos
        have hlow := hcover' M hMne
        have hpow : 2 ^ k ≤ 2 ^ h' := Nat.pow_le_pow_right (by norm_num) (by omega)
        have hdouble : 2 ^ h' = 2 * 2 ^ (h' - 1) := by
          rw [← pow_succ', Nat.sub_add_cancel hpos]
        omega
    have := Nat.pow_le_pow_right (show 0 < 2 by omega) hk
    omega
  · rw [hf.length_eq, hf'.length_eq]
    exact treeWidth_strictMono.monotone hle'
  · intro i hi
    obtain ⟨k, j, rfl⟩ := exists_inorder i
    have hin : Inside h k j := inside_iff.mpr (hf.length_eq ▸ hi)
    have hsub : subtreeContains (inorder k j) (2 * L) = true ↔ L / 2 ^ k = j := by
      rw [← inorder_zero, hin.subtreeContains_iff hh, below_leaf_iff]
    rw [hf'.nodeAt_eq, hf.nodeAt_eq, hslots]
    simp only [hsub]

/-! ## Insertion -/

def ListsAlso (L : ℕ) (n n' : Option Node) : Prop :=
  match n with
  | some (.parent p) => ∃ unmerged, n' = some (.parent
        { p with unmergedLeaves := unmerged }) ∧
      unmerged.Pairwise (· < ·) ∧
      ∀ u, u ∈ unmerged ↔ u = UInt32.ofNat L ∨ u ∈ p.unmergedLeaves
  | _ => n' = n

/-- Tree `t'` is `t` with the leaf `ln` at index `L`: the leftmost blank leaf, or
the first leaf of a new right half. -/
structure Inserted (t : RatchetTree) (ln : LeafNode) (L : ℕ)
    (t' : RatchetTree) : Prop where
  leftmost : ∀ M < L, t.Populated M
  place : (L < t.leafCount ∧ ¬ t.Populated L ∧ t'.leafCount = t.leafCount) ∨
    (L = t.leafCount ∧ t'.leafCount = 2 * t.leafCount)
  full : t'.nodes.length = 2 * t'.leafCount - 1
  leaf_eq : t'.nodeAt (2 * L) = some (.leaf ln)
  ancestor : ∀ i < t'.nodes.length, i ≠ 2 * L →
    subtreeContains i (2 * L) = true → ListsAlso L (t.nodeAt i) (t'.nodeAt i)
  elsewhere : ∀ i < t'.nodes.length, subtreeContains i (2 * L) = false → t'.nodeAt i = t.nodeAt i

theorem addUnmerged_listsAlso (hw : WellFormed t.slot) {k j : ℕ}
    (hL : L < 2 ^ 32) (hblank : t.slot 0 L = none) :
    ListsAlso L (t.slot k j) (addUnmerged (UInt32.ofNat L) (t.slot k j)) := by
  cases hslot : t.slot k j with
  | none => exact rfl
  | some n =>
      cases n with
      | leaf l => exact rfl
      | parent p =>
          refine ⟨_, rfl, ?_, fun u => WellFormed.mem_insertLeaf⟩
          refine WellFormed.insertLeaf_sorted (hw.unmerged_sorted k j p hslot) fun hmem => ?_
          apply (hw.unmerged_below k j p hslot _ hmem).2
          rw [UInt32.toNat_ofNat', Nat.mod_eq_of_lt hL, hblank]

theorem Full.room_of_lt (hf : t.Full h) (hL : L < 2 ^ 30) : L < 2 ^ h ∨ h < 30 := by
  by_contra hfull
  obtain rfl : h = 30 := by have := hf.le_thirty; omega
  omega

theorem RepresentationInvariant.addLeaf_inserted (hinv : t.RepresentationInvariant)
    (hroom : ∃ M < 2 ^ 30, ¬ t.Populated M) (ln : LeafNode) :
    ∃ L t', t.addLeaf ln = .ok (L, t') ∧ t.Inserted ln L t' := by
  obtain ⟨h, hf, -⟩ := hinv.full
  have hle := hf.two_pow_le
  have hpopulated : ∀ M < 2 ^ 30, t.Populated M ↔ t.slot 0 M ≠ none := by
    intro M hM
    rw [hf.populated_iff, Nat.mod_eq_of_lt (by omega)]
  have hex : ∃ M, t.slot 0 M = none := by
    obtain ⟨M, hM, hblank⟩ := hroom
    rw [hpopulated M hM, not_not] at hblank
    exact ⟨M, hblank⟩
  obtain ⟨M, hM, hMblank⟩ := hroom
  rw [hpopulated M hM, not_not] at hMblank
  have hblank := Nat.find_spec hex
  have hfirst : ∀ M < Nat.find hex, t.slot 0 M ≠ none := fun M hM => Nat.find_min hex hM
  have hfind : Nat.find hex ≤ M := Nat.find_min' hex hMblank
  generalize Nat.find hex = L at hblank hfirst hfind
  have hL : L ≤ 2 ^ h := by
    by_contra hlt
    exact hfirst (2 ^ h) (by omega) (hf.slot_eq_none fun hin => by simpa using hin.2)
  obtain ⟨t', hrun, hf', hslots⟩ := hf.addLeaf_spec hblank hfirst (hf.room_of_lt (by omega)) ln
  have hh' : (if L < 2 ^ h then h else h + 1) ≤ 31 := by
    have := hf'.le_thirty
    omega
  have hnode : ∀ i, ∃ k j, i = inorder k j ∧ t.nodeAt i = t.slot k j ∧
      t'.nodeAt i = t'.slot k j ∧ (i < t'.nodes.length →
        (subtreeContains i (2 * L) = true ↔ L / 2 ^ k = j)) := by
    intro i
    obtain ⟨k, j, rfl⟩ := exists_inorder i
    refine ⟨k, j, rfl, hf.nodeAt_eq, hf'.nodeAt_eq, fun hi => ?_⟩
    have hin := inside_iff.mpr (hf'.length_eq ▸ hi)
    rw [← inorder_zero, hin.subtreeContains_iff hh', below_leaf_iff]
  refine ⟨L, t', hrun, ?_, ?_, ?_, ?_, ?_, ?_⟩
  · intro M hM
    exact (hpopulated M (by omega)).mpr (hfirst M hM)
  · rw [hf.leafCount_eq, hf'.leafCount_eq]
    by_cases hlt : L < 2 ^ h
    · rw [if_pos hlt]
      exact .inl ⟨hlt, by rw [hpopulated L (by omega), not_not]; exact hblank, rfl⟩
    · rw [if_neg hlt, pow_succ']
      exact .inr ⟨by omega, rfl⟩
  · rw [hf'.length_eq, hf'.leafCount_eq, treeWidth, pow_succ']
  · rw [← inorder_zero, hf'.nodeAt_eq, hslots]
    simp
  · intro i hi hne hsub
    obtain ⟨k, j, rfl, hold, hnew, hiff⟩ := hnode i
    have hj := (hiff hi).mp hsub
    have hk : k ≠ 0 := by
      rintro rfl
      apply hne
      rw [← hj, pow_zero, Nat.div_one, inorder_zero]
    rw [hold, hnew, hslots, if_pos hj, if_neg hk]
    exact addUnmerged_listsAlso hinv.wellFormed (by omega) hblank
  · intro i hi hsub
    obtain ⟨k, j, rfl, hold, hnew, hiff⟩ := hnode i
    have hj : L / 2 ^ k ≠ j := fun heq => by
      rw [(hiff hi).mpr heq] at hsub
      cases hsub
    rw [hold, hnew, hslots, if_neg hj]

/-! ## Reachable trees -/

/-- On a reachable tree `RemoveLeaf` and, up to `2 ^ 30` members, `AddLeaf` do
what they should. -/
theorem removal_and_insertion (hreach : Reachable S t) :
    (∀ L < t.leafCount, t.Populated L → (∃ M < t.leafCount, t.Populated M ∧ M ≠ L) →
      ∃ t', t.removeLeaf L = .ok t' ∧ t.Removed L t') ∧
    ((∃ M < 2 ^ 30, ¬ t.Populated M) →
      ∀ ln, ∃ L t', t.addLeaf ln = .ok (L, t') ∧ t.Inserted ln L t') :=
  ⟨fun _ hL _ hleft => hreach.invariant.removeLeaf_removed hL hleft,
    fun hroom ln => hreach.invariant.addLeaf_inserted hroom ln⟩

/-- The second of two members leaves, or a third one joins. -/
theorem removal_and_insertion_two_members :
    (∃ t', twoMembers.removeLeaf 1 = .ok t' ∧ twoMembers.Removed 1 t') ∧
    ∃ L t', twoMembers.addLeaf (sampleLeaf 3) = .ok (L, t') ∧
      twoMembers.Inserted (sampleLeaf 3) L t' := by
  obtain ⟨hremove, hadd⟩ := removal_and_insertion twoMembers_reachable
  exact ⟨hremove 1 (by decide) (by decide) ⟨0, by decide, by decide, by decide⟩,
    hadd ⟨2, by decide, by decide⟩ (sampleLeaf 3)⟩

/-! ## The largest tree -/

theorem exists_crowd (S : Suite) (leaf : LeafNode) {n : ℕ} (hpos : 0 < n) (hle : n ≤ 2 ^ 30) :
    ∃ t, Reachable S t ∧ ∀ M, t.slot 0 M ≠ none ↔ M < n := by
  induction n, hpos using Nat.le_induction with
  | base =>
      refine ⟨newRatchetTree leaf, ⟨leaf, .refl⟩, fun M => ?_⟩
      have hf : (newRatchetTree leaf).Full 0 := ⟨rfl, by omega⟩
      constructor
      · intro hM
        simpa using hf.member_lt hM
      · intro hM
        obtain rfl : M = 0 := by omega
        exact Option.some_ne_none _
  | succ n hpos ih =>
      obtain ⟨t, hreach, hmembers⟩ := ih (by omega)
      have hblank : ¬ t.slot 0 n ≠ none := by simp [hmembers]
      obtain ⟨h, hf, -⟩ := hreach.invariant.full
      obtain ⟨t', hrun, -, hslots⟩ := hf.addLeaf_spec (not_not.mp hblank)
        (fun M hM => (hmembers M).mpr hM) (hf.room_of_lt (by omega)) leaf
      obtain ⟨first, hcalls⟩ := hreach
      refine ⟨t', ⟨first, hcalls.tail (.addLeaf leaf hrun)⟩, fun M => ?_⟩
      rw [hslots, pow_zero, Nat.div_one]
      by_cases hM : n = M
      · subst hM
        simp
      · rw [if_neg hM, hmembers]
        omega

theorem exists_full_crowd (S : Suite) :
    ∃ t, Reachable S t ∧ ∀ ln, t.addLeaf ln = .error .diverge := by
  obtain ⟨t, hreach, hmembers⟩ := exists_crowd S (sampleLeaf 1) (n := 2 ^ 30) (by norm_num) le_rfl
  obtain ⟨h, hf, -⟩ := hreach.invariant.full
  have hlast := hf.member_lt ((hmembers (2 ^ 30 - 1)).mpr (by norm_num))
  have hh : h = 30 := by
    have hle := hf.le_thirty
    by_contra hne
    have := Nat.pow_le_pow_right (show 0 < 2 by omega) (show h ≤ 29 by omega)
    omega
  subst hh
  exact ⟨t, hreach, hf.addLeaf_diverges fun M hM => (hmembers M).mpr hM⟩

theorem insertion_fails_in_full_crowd :
    ∃ t, Reachable plainSuite t ∧
      ∀ ln, ¬ ∃ L t', t.addLeaf ln = .ok (L, t') ∧ t.Inserted ln L t' := by
  obtain ⟨t, hreach, hdiverges⟩ := exists_full_crowd plainSuite
  refine ⟨t, hreach, fun ln => ?_⟩
  rintro ⟨L, t', hrun, -⟩
  rw [hdiverges] at hrun
  cases hrun

end RatchetTree

end MlsGo
