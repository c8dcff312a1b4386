import MlsGo.TreeSlots

/-!
# What the leaf changes do to the slots

One specification for each of `UpdateLeaf`, `RemoveLeaf` and `AddLeaf` on a
full tree: the height afterwards and the content of every slot.  Truncation
and growth change no slot, because a slot outside the array counts as blank.
-/

namespace MlsGo

namespace RatchetTree

open InOrderLayout

variable {t t' : RatchetTree} {h k j : ℕ} {leaf L : ℕ}

/-! ## Widths -/

theorem u32_double (leaf : ℕ) : u32 (2 * leaf) = inorder 0 (leaf % 2 ^ 31) := by
  rw [inorder_zero, u32]
  omega

theorem u32_double_of_lt (hleaf : leaf < 2 ^ 31) : u32 (2 * leaf) = 2 * leaf := by
  rw [u32]
  omega

theorem fullWidthLoop_eq {n : ℕ} (hh : h ≤ 31) (hle : n ≤ treeWidth h)
    (hgt : ∀ i < h, treeWidth i < n) :
    ∀ fuel i, i ≤ h → h ≤ i + fuel → fullWidthLoop n fuel (treeWidth i) = treeWidth h := by
  intro fuel
  induction fuel with
  | zero =>
      intro i hih hhi
      rw [show i = h by omega, fullWidthLoop]
  | succ fuel ih =>
      intro i hih hhi
      rw [fullWidthLoop]
      by_cases heq : i = h
      · subst heq
        rw [if_neg (by omega)]
      · have hnext : u32 (2 * treeWidth i + 1) = treeWidth (i + 1) := by
          rw [← treeWidth_succ, u32, Nat.mod_eq_of_lt]
          exact treeWidth_lt (by omega)
        rw [if_pos (hgt i (by omega)), hnext]
        exact ih (i + 1) (by omega) (by omega)

theorem fullWidth_eq {n : ℕ} (hh : h ≤ 31) (hle : n ≤ treeWidth h)
    (hgt : ∀ i < h, treeWidth i < n) : fullWidth n = treeWidth h :=
  fullWidthLoop_eq hh hle hgt 32 0 (by omega) (by omega)

theorem exists_least_height (n : ℕ) : ∃ h, n ≤ treeWidth h ∧ ∀ i < h, treeWidth i < n := by
  have hex : ∃ h, n ≤ treeWidth h := ⟨n, treeWidth_strictMono.le_apply⟩
  refine ⟨Nat.find hex, Nat.find_spec hex, fun i hi => ?_⟩
  exact not_le.mp (Nat.find_min hex hi)

theorem padToFullWidth_full {nodes : List (Option Node)} (hh : h ≤ 30)
    (hle : nodes.length ≤ treeWidth h) (hgt : ∀ i < h, treeWidth i < nodes.length) :
    (RatchetTree.mk (padToFullWidth nodes)).Full h := by
  have hlt : nodes.length < 2 ^ 32 := hle.trans_lt (treeWidth_lt (by omega))
  have hfull := fullWidth_eq (by omega) hle hgt
  refine ⟨?_, hh⟩
  simp only [padToFullWidth, u32, Nat.mod_eq_of_lt hlt, List.length_append,
    List.length_replicate, hfull]
  omega

theorem slot_append_blanks (nodes : List (Option Node)) (m k j : ℕ) :
    (RatchetTree.mk (nodes ++ List.replicate m none)).slot k j =
      (RatchetTree.mk nodes).slot k j := by
  unfold slot
  rcases Nat.lt_or_ge (inorder k j) nodes.length with hlt | hge
  · rw [List.getElem?_append_left hlt]
  · rw [List.getElem?_append_right hge, List.getElem?_eq_none hge, List.getElem?_replicate]
    split <;> rfl

theorem slot_padToFullWidth (nodes : List (Option Node)) (k j : ℕ) :
    (RatchetTree.mk (padToFullWidth nodes)).slot k j = (RatchetTree.mk nodes).slot k j :=
  slot_append_blanks nodes _ k j

/-! ## Blanking a path -/

theorem Full.blankPath_spec (hf : t.Full h) (hL : L < 2 ^ h) :
    ∃ t', t.blankPath (inorder 0 L) = .ok t' ∧ t'.Full h ∧
      ∀ k j, t'.slot k j = if 0 < k ∧ L / 2 ^ k = j then none else t.slot k j := by
  have hh := hf.le_thirtyOne
  obtain ⟨t', hrun, hf', hslots⟩ := climb_rewrites (h := h) (fun _ p s => s.setNode p none)
    (fun _ => none) (fun s x k j hs hin => hs.setNode_eq hin none) h 0 L t hf (by omega) hL
  refine ⟨t', ?_, hf', fun k j => ?_⟩
  · rw [blankPath, hf.root_eq, hf.leafCount_eq,
      walkUp_eq_climb _ hh h walkFuel 0 L t (by omega) hL
        (by have := hf.le_thirty; unfold walkFuel; omega), hrun]
  · rw [hslots]
    simp only [Nat.sub_zero]
    by_cases hk : k ≤ h
    · simp [hk]
    · have hnone := hf.slot_eq_none (k := k) (j := j) (fun hin => hk hin.1)
      simp [hk, hnone]

theorem Full.updateLeaf_spec (hf : t.Full h)
    (hleaf : leaf % 2 ^ 31 = L) (hL : L < 2 ^ h) (ln : LeafNode) :
    ∃ t', t.updateLeaf leaf ln = .ok t' ∧ t'.Full h ∧
      ∀ k j, t'.slot k j = if L / 2 ^ k = j then (if k = 0 then some (.leaf ln) else none)
        else t.slot k j := by
  have hin : Inside h 0 L := ⟨Nat.zero_le _, by simpa using hL⟩
  have hrange : ¬ t.width ≤ inorder 0 L := by
    rw [hf.width_eq, not_le]
    exact inside_iff.mp hin
  obtain ⟨t', hrun, hf', hslots⟩ := (hf.setSlot 0 L (some (.leaf ln))).blankPath_spec hL
  refine ⟨t', ?_, hf', fun k j => ?_⟩
  · simp only [updateLeaf, u32_double, hleaf, hrange, if_false, hf.setNode_eq hin, ok_bind, hrun]
  · rw [hslots, hf.slot_setSlot hin]
    rcases Nat.eq_zero_or_pos k with rfl | hk
    · simp [eq_comm]
    · simp [hk, hk.ne']

theorem Full.updateLeaf_outside (hf : t.Full h) (hleaf : 2 ^ h ≤ leaf % 2 ^ 31) (ln : LeafNode) :
    t.updateLeaf leaf ln = fail s!"tree: UpdateLeaf: leaf {leaf} out of range" := by
  have hrange : t.width ≤ inorder 0 (leaf % 2 ^ 31) := by
    rw [hf.width_eq, ← not_lt, ← inside_iff, Inside]
    simpa using hleaf
  rw [updateLeaf, u32_double, if_pos hrange]

theorem Full.updateLeaf_ok (hf : t.Full h) {ln : LeafNode}
    (hupdate : t.updateLeaf leaf ln = .ok t') :
    leaf % 2 ^ 31 < 2 ^ h ∧ t'.Full h ∧ ∀ k j, t'.slot k j = if leaf % 2 ^ 31 / 2 ^ k = j then
          (if k = 0 then some (.leaf ln) else none)
        else t.slot k j := by
  by_cases hL : leaf % 2 ^ 31 < 2 ^ h
  · obtain ⟨s, hrun, hf', hslots⟩ := hf.updateLeaf_spec rfl hL ln
    cases hrun.symm.trans hupdate
    exact ⟨hL, hf', hslots⟩
  · rw [hf.updateLeaf_outside (by omega) ln] at hupdate
    exact absurd hupdate fail_ne_ok

/-! ## Removing a leaf -/

theorem truncateLoop_spec (slots : List (Option Node)) (hne : slots ≠ []) :
    ∃ m kept, slots = List.replicate m none ++ kept ∧ truncateLoop slots = kept ∧ kept ≠ [] ∧
      (kept.length = 1 ∨ ∃ n, kept.head? = some (some n)) := by
  induction slots with
  | nil => exact absurd rfl hne
  | cons slot rest ih =>
      cases slot with
      | some n => exact ⟨0, some n :: rest, rfl, rfl, by simp, .inr ⟨n, rfl⟩⟩
      | none =>
          cases rest with
          | nil => exact ⟨0, [none], rfl, rfl, by simp, .inl rfl⟩
          | cons next others =>
              obtain ⟨m, kept, heq, hloop, hkept, hhead⟩ := ih (by simp)
              refine ⟨m + 1, kept, ?_, hloop, hkept, hhead⟩
              rw [heq]
              rfl

/-- Truncation and padding of a full tree: no slot changes, and unless one slot
is left the upper half of the array is not blank. -/
theorem Full.truncate_spec (hf : t.Full h) :
    ∃ h' ≤ h,
      (RatchetTree.mk (padToFullWidth (truncateLoop t.nodes.reverse).reverse)).Full h' ∧
      (∀ k j, (RatchetTree.mk
        (padToFullWidth (truncateLoop t.nodes.reverse).reverse)).slot k j = t.slot k j) ∧
      (0 < h' → ∃ k j n, t.slot k j = some n ∧ treeWidth (h' - 1) ≤ inorder k j) := by
  have hpos : t.nodes.reverse ≠ [] := by
    rw [Ne, List.reverse_eq_nil_iff, ← List.length_eq_zero_iff, hf.length_eq]
    exact (treeWidth_pos h).ne'
  obtain ⟨m, kept, heq, hloop, hkept, hhead⟩ := truncateLoop_spec t.nodes.reverse hpos
  have hnodes : t.nodes = kept.reverse ++ List.replicate m none := by
    rw [← List.reverse_reverse t.nodes, heq]
    simp
  have hslots : ∀ k j, (RatchetTree.mk kept.reverse).slot k j = t.slot k j := by
    intro k j
    rw [← slot_append_blanks kept.reverse m k j, ← hnodes]
  have hlen : kept.length + m = treeWidth h := by
    rw [← hf.length_eq, hnodes]
    simp
  obtain ⟨h', hle, hgt⟩ := exists_least_height kept.length
  have hh' : h' ≤ h := by
    by_contra hlt
    have := hgt h (by omega)
    omega
  rw [hloop]
  refine ⟨h', hh', padToFullWidth_full (by have := hf.le_thirty; omega)
    (by simpa using hle) (by simpa using hgt), fun k j => ?_, fun hh => ?_⟩
  · rw [slot_padToFullWidth, hslots]
  · have hwide := hgt (h' - 1) (by omega)
    have htwo : 0 < treeWidth (h' - 1) := treeWidth_pos _
    rcases hhead with hone | ⟨n, hn⟩
    · omega
    · obtain ⟨k, j, hkj⟩ := exists_inorder (kept.length - 1)
      refine ⟨k, j, n, ?_, by omega⟩
      rw [← hslots, slot, ← hkj, List.getElem?_reverse (by omega)]
      rw [show kept.length - 1 - (kept.length - 1) = 0 by omega, ← List.head?_eq_getElem?, hn]
      rfl

theorem Full.removeLeaf_spec (hf : t.Full h) (hleaf : leaf % 2 ^ 31 = L) (hL : L < 2 ^ h) :
    ∃ t', ∃ h' ≤ h, t.removeLeaf leaf = .ok t' ∧ t'.Full h' ∧
      (∀ k j, t'.slot k j = if L / 2 ^ k = j then none else t.slot k j) ∧
      (0 < h' → ∃ k j n, t'.slot k j = some n ∧ treeWidth (h' - 1) ≤ inorder k j) := by
  have hin : Inside h 0 L := ⟨Nat.zero_le _, by simpa using hL⟩
  have hrange : ¬ t.width ≤ inorder 0 L := by
    rw [hf.width_eq, not_le]
    exact inside_iff.mp hin
  obtain ⟨s, hrun, hs, hslots⟩ := (hf.setSlot 0 L none).blankPath_spec hL
  obtain ⟨h', hh', hf', hsame, hupper⟩ := hs.truncate_spec
  refine ⟨_, h', hh', ?_, hf', fun k j => ?_, fun hpos => ?_⟩
  · simp only [removeLeaf, u32_double, hleaf, hrange, if_false,
      hf.setNode_eq hin, ok_bind, hrun, pure_eq_ok]
  · rw [hsame, hslots, hf.slot_setSlot hin]
    rcases Nat.eq_zero_or_pos k with rfl | hk
    · simp [eq_comm]
    · simp [hk, hk.ne']
  · obtain ⟨k, j, n, hn, hwide⟩ := hupper hpos
    exact ⟨k, j, n, by rw [hsame, hn], hwide⟩

theorem Full.removeLeaf_outside (hf : t.Full h) (hleaf : 2 ^ h ≤ leaf % 2 ^ 31) :
    t.removeLeaf leaf = fail s!"tree: RemoveLeaf: leaf {leaf} out of range" := by
  have hrange : t.width ≤ inorder 0 (leaf % 2 ^ 31) := by
    rw [hf.width_eq, ← not_lt, ← inside_iff, Inside]
    simpa using hleaf
  rw [removeLeaf, u32_double, if_pos hrange]

theorem Full.removeLeaf_ok (hf : t.Full h) (hremove : t.removeLeaf leaf = .ok t') :
    ∃ h' ≤ h, leaf % 2 ^ 31 < 2 ^ h ∧ t'.Full h' ∧
      (∀ k j, t'.slot k j = if leaf % 2 ^ 31 / 2 ^ k = j then none else t.slot k j) ∧
      (0 < h' → ∃ k j n, t'.slot k j = some n ∧ treeWidth (h' - 1) ≤ inorder k j) := by
  by_cases hL : leaf % 2 ^ 31 < 2 ^ h
  · obtain ⟨s, h', hle, hrun, hf', hslots, hupper⟩ := hf.removeLeaf_spec rfl hL
    cases hrun.symm.trans hremove
    exact ⟨h', hle, hL, hf', hslots, hupper⟩
  · rw [hf.removeLeaf_outside (by omega)] at hremove
    exact absurd hremove fail_ne_ok

/-! ## Adding a leaf -/

theorem leafSlots_getElem? (nodes : List (Option Node)) (i : ℕ) :
    (leafSlots nodes)[i]? = nodes[2 * i]? := by
  induction nodes using leafSlots.induct generalizing i with
  | case1 => simp [leafSlots]
  | case2 slot =>
      cases i with
      | zero => rfl
      | succ i => simp [leafSlots]
  | case3 slot other rest ih =>
      cases i with
      | zero => rfl
      | succ i =>
          rw [show 2 * (i + 1) = 2 * i + 1 + 1 by ring]
          simpa [leafSlots] using ih i

theorem slot_zero (t : RatchetTree) (L : ℕ) : t.slot 0 L = ((leafSlots t.nodes)[L]?).join := by
  rw [slot, inorder_zero, leafSlots_getElem?]

theorem Full.length_leafSlots (hf : t.Full h) : (leafSlots t.nodes).length = 2 ^ h := by
  have hlast : ∀ L, L < (leafSlots t.nodes).length ↔ L < 2 ^ h := by
    intro L
    rw [← not_le, ← List.getElem?_eq_none_iff, leafSlots_getElem?,
      List.getElem?_eq_none_iff, not_le, hf.length_eq]
    have hadd := treeWidth_add_one h
    rw [pow_succ] at hadd
    omega
  have hle := (hlast (2 ^ h)).not.mpr (lt_irrefl _)
  have hge := (hlast (leafSlots t.nodes).length).not.mp (lt_irrefl _)
  omega

theorem slot_isNone_eq {M : ℕ} (hM : M < (leafSlots t.nodes).length) :
    (leafSlots t.nodes)[M].isNone = (t.slot 0 M).isNone := by
  rw [slot_zero, List.getElem?_eq_getElem hM]
  rfl

theorem firstBlankLeaf_eq (hlt : L < (leafSlots t.nodes).length)
    (hblank : t.slot 0 L = none) (hfirst : ∀ M < L, t.slot 0 M ≠ none) :
    t.firstBlankLeaf = .ok (some L) := by
  have hfind : (leafSlots t.nodes).findIdx? Option.isNone = some L := by
    rw [List.findIdx?_eq_some_iff_getElem]
    refine ⟨hlt, by rw [slot_isNone_eq, hblank]; rfl, fun M hM => ?_⟩
    rw [slot_isNone_eq]
    simpa [Option.isNone_iff_eq_none] using hfirst M hM
  rw [firstBlankLeaf, hfind]

theorem Full.firstBlankLeaf_spec (hf : t.Full h)
    (hblank : t.slot 0 L = none) (hfirst : ∀ M < L, t.slot 0 M ≠ none) :
    t.firstBlankLeaf = .ok (if L < 2 ^ h then some L else none) := by
  have hlen := hf.length_leafSlots
  by_cases hL : L < 2 ^ h
  · rw [if_pos hL, firstBlankLeaf_eq (by omega) hblank hfirst]
  · have hwidth : t.width ≠ 2 ^ 32 - 1 := by
      have hadd := treeWidth_add_one h
      have hle : 2 ^ (h + 1) ≤ 2 ^ 31 :=
        Nat.pow_le_pow_right (by norm_num) (by have := hf.le_thirty; omega)
      rw [hf.width_eq]
      omega
    have hfind : (leafSlots t.nodes).findIdx? Option.isNone = none := by
      rw [List.findIdx?_eq_none_iff_findIdx_eq, List.findIdx_eq_length]
      intro slot hmem
      obtain ⟨M, hM, rfl⟩ := List.getElem_of_mem hmem
      rw [slot_isNone_eq]
      simpa [Option.isSome_iff_ne_none] using hfirst M (by omega)
    rw [firstBlankLeaf, hfind, if_neg hL]
    exact if_neg hwidth

theorem Full.placeLeaf_spec (hf : t.Full h) (hL : L < 2 ^ h) (ln : LeafNode) :
    ∃ t', t.placeLeaf ln L = .ok (L, t') ∧ t'.Full h ∧ ∀ k j, t'.slot k j = if L / 2 ^ k = j then
          (if k = 0 then some (.leaf ln)
            else addUnmerged (UInt32.ofNat L) (t.slot k j))
        else t.slot k j := by
  have hh := hf.le_thirtyOne
  have hin : Inside h 0 L := ⟨Nat.zero_le _, by simpa using hL⟩
  have hf₁ := hf.setSlot 0 L (some (.leaf ln))
  obtain ⟨t', hrun, hf', hslots⟩ := climb_rewrites (h := h) (fun _ p s => do
      let slot ← s.index p
      s.setNode p (addUnmerged (UInt32.ofNat L) slot))
    (addUnmerged (UInt32.ofNat L))
    (fun s x k j hs hin => by
      simp only [hs.index_eq hin, ok_bind, hs.setNode_eq hin])
    h 0 L _ hf₁ (by omega) hL
  refine ⟨t', ?_, hf', fun k j => ?_⟩
  · simp only [placeLeaf, ← inorder_zero, hf.setNode_eq hin, ok_bind,
      hf₁.leafCount_eq, root_full hh]
    rw [walkUp_eq_climb _ hh h walkFuel 0 L _ (by omega) hL
      (by have := hf.le_thirty; unfold walkFuel; omega), hrun]
    rfl
  · rw [hslots, hf.slot_setSlot hin]
    simp only [Nat.sub_zero]
    rcases Nat.eq_zero_or_pos k with rfl | hk
    · simp [eq_comm]
    · by_cases hkh : k ≤ h
      · simp [hk, hk.ne', hkh]
      · have hnone := hf.slot_eq_none (k := k) (j := j) (fun hin => hkh hin.1)
        simp [hk.ne', hkh, hnone, addUnmerged]

theorem Full.grown (hf : t.Full h) (hh : h < 30) :
    (RatchetTree.mk (padToFullWidth (t.nodes ++ [none, none]))).Full (h + 1) ∧
      ∀ k j, (RatchetTree.mk
        (padToFullWidth (t.nodes ++ [none, none]))).slot k j = t.slot k j := by
  have hsucc := treeWidth_succ h
  have hpos := treeWidth_pos h
  have hlen : (t.nodes ++ [none, none]).length = treeWidth h + 2 := by
    simp [hf.length_eq]
  refine ⟨padToFullWidth_full (by omega) (by omega) fun i hi => ?_, fun k j => ?_⟩
  · have hmono := treeWidth_strictMono.monotone (show i ≤ h by omega)
    omega
  · rw [slot_padToFullWidth]
    exact slot_append_blanks t.nodes 2 k j

theorem Full.addLeaf_spec (hf : t.Full h) (hblank : t.slot 0 L = none)
    (hfirst : ∀ M < L, t.slot 0 M ≠ none) (hroom : L < 2 ^ h ∨ h < 30) (ln : LeafNode) :
    ∃ t', t.addLeaf ln = .ok (L, t') ∧ t'.Full (if L < 2 ^ h then h else h + 1) ∧
      ∀ k j, t'.slot k j = if L / 2 ^ k = j then
          (if k = 0 then some (.leaf ln)
            else addUnmerged (UInt32.ofNat L) (t.slot k j))
        else t.slot k j := by
  rw [addLeaf, hf.firstBlankLeaf_spec hblank hfirst]
  by_cases hL : L < 2 ^ h
  · simp only [hL, if_true, ok_bind]
    exact hf.placeLeaf_spec hL ln
  · have hh : h < 30 := by omega
    obtain ⟨hgrown, hsame⟩ := hf.grown hh
    have hout : t.slot 0 (2 ^ h) = none := hf.slot_eq_none fun hin => by simpa using hin.2
    have hLeq : L = 2 ^ h := by
      by_contra hne
      exact hfirst (2 ^ h) (by omega) hout
    have hL' : L < 2 ^ (h + 1) := by
      rw [hLeq, pow_succ]
      have := Nat.two_pow_pos h
      omega
    have hscan := hgrown.firstBlankLeaf_spec (L := L)
      (by rw [hsame, hblank]) (fun M hM => by rw [hsame]; exact hfirst M hM)
    rw [if_pos hL'] at hscan
    simp only [hL, if_false, ok_bind, hscan]
    obtain ⟨t', hrun, hf', hslots⟩ := hgrown.placeLeaf_spec hL' ln
    exact ⟨t', hrun, hf', fun k j => by rw [hslots, hsame]⟩

/-! ### The largest tree -/

theorem climbInside_zero (fuel p : ℕ) : climbInside 0 fuel p = .error .diverge := by
  induction fuel generalizing p with
  | zero => rfl
  | succ fuel ih => simp [climbInside, ih]

theorem placeLeaf_diverges (hlen : t.nodes.length = treeWidth 31)
    (hpos : 0 < L) (hL : 2 * L < treeWidth 31) (ln : LeafNode) :
    t.placeLeaf ln L = .error .diverge := by
  have hwidth : treeWidth 31 = 2 ^ 32 - 1 := by
    have := treeWidth_add_one 31
    omega
  have hcount : (RatchetTree.mk (t.nodes.set (2 * L) (some (.leaf ln)))).leafCount = 0 := by
    simp [leafCount, width, hlen, hwidth, u32]
  have hparent : ∀ x, x ≠ 0 → parent x 0 = .error .diverge := by
    intro x hx
    have hroot : root 0 = 0 := by decide
    rw [parent, hroot, if_neg hx]
    simp [nodeWidth, climbInside_zero]
  have hroot : root 0 = 0 := by decide
  rw [placeLeaf, setNode, if_pos (by rw [hlen]; exact hL), ok_bind]
  simp only [hcount, hroot, walkFuel]
  rw [walkUp, if_neg (by omega), hparent _ (by omega)]
  rfl

theorem Full.addLeaf_diverges (hf : t.Full 30)
    (hmembers : ∀ M < 2 ^ 30, t.slot 0 M ≠ none) (ln : LeafNode) :
    t.addLeaf ln = .error .diverge := by
  have hout : t.slot 0 (2 ^ 30) = none := hf.slot_eq_none fun hin => by simpa using hin.2
  have hscan := hf.firstBlankLeaf_spec hout hmembers
  rw [if_neg (by omega)] at hscan
  have hwidth : treeWidth 31 = 2 ^ 32 - 1 := by
    have := treeWidth_add_one 31
    omega
  have hwidth' : treeWidth 30 = 2 ^ 31 - 1 := by
    have := treeWidth_add_one 30
    omega
  have hlen' : (t.nodes ++ [none, none]).length = 2 ^ 31 + 1 := by
    simp [hf.length_eq, hwidth']
  have hlen : (padToFullWidth (t.nodes ++ [none, none])).length = treeWidth 31 := by
    have hfull : fullWidth (2 ^ 31 + 1) = treeWidth 31 := by
      refine fullWidth_eq (h := 31) (by omega) (by omega) fun i hi => ?_
      have := treeWidth_strictMono.monotone (show i ≤ 30 by omega)
      omega
    rw [padToFullWidth, List.length_append, List.length_replicate, hlen',
      show u32 (2 ^ 31 + 1) = 2 ^ 31 + 1 by decide, hfull]
    omega
  have hsame : ∀ M, (RatchetTree.mk
      (padToFullWidth (t.nodes ++ [none, none]))).slot 0 M = t.slot 0 M := by
    intro M
    rw [slot_padToFullWidth]
    exact slot_append_blanks t.nodes 2 0 M
  have hlt : 2 ^ 30 < (leafSlots (padToFullWidth (t.nodes ++ [none, none]))).length := by
    rw [← not_le, ← List.getElem?_eq_none_iff, leafSlots_getElem?,
      List.getElem?_eq_none_iff, not_le, hlen]
    omega
  have hagain : (RatchetTree.mk (padToFullWidth
      (t.nodes ++ [none, none]))).firstBlankLeaf = .ok (some (2 ^ 30)) :=
    firstBlankLeaf_eq hlt (by rw [hsame, hout]) (fun M hM => by rw [hsame]; exact hmembers M hM)
  rw [addLeaf, hscan]
  simp only [ok_bind, hagain]
  exact placeLeaf_diverges hlen (by omega) (by omega) ln

theorem Full.addLeaf_ok (hf : t.Full h) {ln : LeafNode} (hadd : t.addLeaf ln = .ok (L, t')) :
    (t.slot 0 L = none ∧ ∀ M < L, t.slot 0 M ≠ none) ∧ L < 2 ^ (if L < 2 ^ h then h else h + 1) ∧
      t'.Full (if L < 2 ^ h then h else h + 1) ∧ ∀ k j, t'.slot k j = if L / 2 ^ k = j then
          (if k = 0 then some (.leaf ln)
            else addUnmerged (UInt32.ofNat L) (t.slot k j))
        else t.slot k j := by
  have hout : t.slot 0 (2 ^ h) = none := hf.slot_eq_none fun hin => by simpa using hin.2
  have hex : ∃ M, t.slot 0 M = none := ⟨2 ^ h, hout⟩
  have hblank := Nat.find_spec hex
  have hfirst : ∀ M < Nat.find hex, t.slot 0 M ≠ none := fun M hM => Nat.find_min hex hM
  have hle : Nat.find hex ≤ 2 ^ h := Nat.find_min' hex hout
  by_cases hroom : Nat.find hex < 2 ^ h ∨ h < 30
  · obtain ⟨s, hrun, hf', hslots⟩ := hf.addLeaf_spec hblank hfirst hroom ln
    rw [hrun, Except.ok.injEq, Prod.mk.injEq] at hadd
    obtain ⟨rfl, rfl⟩ := hadd
    refine ⟨⟨hblank, hfirst⟩, ?_, hf', hslots⟩
    split
    · assumption
    · rw [pow_succ]
      have := Nat.two_pow_pos h
      omega
  · have hh : h = 30 := by have := hf.le_thirty; omega
    subst hh
    rw [hf.addLeaf_diverges (fun M hM => hfirst M (by omega)) ln] at hadd
    cases hadd

end RatchetTree

end MlsGo
