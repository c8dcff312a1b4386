import MlsGo.RatchetTree

/-!
# Slots of a full tree

A tree whose array has the width of a complete tree of height `h` is read
through the coordinates of `InOrderLayout`: `slot k j` is the `j`-th slot of
level `k`.  Leaf `L` lies below `(k, j)` exactly when `L / 2 ^ k = j`.  Each
loop that walks from a node to the root becomes a recursion on the levels that
remain.
-/

namespace MlsGo

namespace RatchetTree

open InOrderLayout

def slot (t : RatchetTree) (k j : ℕ) : Option Node := (t.nodes[inorder k j]?).join

def Inside (h k j : ℕ) : Prop := k ≤ h ∧ j < 2 ^ (h - k)

/-- The array is exactly a complete tree of height `h`.  At height 31 the
`uint32` sum in `leafCount` would wrap, so the code never works on such a
tree. -/
structure Full (t : RatchetTree) (h : ℕ) : Prop where
  length_eq : t.nodes.length = treeWidth h
  le_thirty : h ≤ 30

variable {t t' : RatchetTree} {h k j : ℕ}

theorem inside_iff : Inside h k j ↔ inorder k j < treeWidth h := inorder_lt_treeWidth.symm

theorem Inside.parent (hin : Inside h k j) (hk : k < h) : Inside h (k + 1) (j / 2) :=
  ⟨hk, half_lt_two_pow hk hin.2⟩

theorem Inside.child (hin : Inside h (k + 1) j) {i : ℕ} (hi : i < 2) : Inside h k (2 * j + i) := by
  have hpow := two_pow_sub (show k < h from hin.1)
  have hj := hin.2
  exact ⟨by have := hin.1; omega, by omega⟩

theorem Inside.sibling (hin : Inside h k j) (hk : k < h) : Inside h k (siblingRank j) := by
  have hpow := two_pow_sub hk
  have hj := hin.2
  refine ⟨hk.le, ?_⟩
  unfold siblingRank
  split <;> omega

theorem inside_root : Inside h h 0 := ⟨le_rfl, by simp⟩

theorem inside_ancestor {L : ℕ} (hL : L < 2 ^ h) (hk : k ≤ h) : Inside h k (L / 2 ^ k) := by
  refine ⟨hk, (Nat.div_lt_iff_lt_mul (Nat.two_pow_pos k)).mpr ?_⟩
  rwa [← pow_add, Nat.sub_add_cancel hk]

theorem ancestor_succ (L k : ℕ) : L / 2 ^ (k + 1) = L / 2 ^ k / 2 := by
  rw [pow_succ, Nat.div_div_eq_div_mul]

namespace Full

theorem le_thirtyOne (hf : t.Full h) : h ≤ 31 := hf.le_thirty.trans (by norm_num)

theorem two_pow_le (hf : t.Full h) : 2 ^ h ≤ 2 ^ 30 :=
  Nat.pow_le_pow_right (by norm_num) hf.le_thirty

theorem width_eq (hf : t.Full h) : t.width = treeWidth h := by
  have hlt : treeWidth h < 2 ^ 32 := treeWidth_lt hf.le_thirtyOne
  rw [width, hf.length_eq, u32, Nat.mod_eq_of_lt hlt]

theorem leafCount_eq (hf : t.Full h) : t.leafCount = 2 ^ h := by
  have hadd := treeWidth_add_one h
  have hle : 2 ^ (h + 1) ≤ 2 ^ 31 :=
    Nat.pow_le_pow_right (by norm_num) (by have := hf.le_thirty; omega)
  have hpow : 2 ^ (h + 1) = 2 * 2 ^ h := by ring
  rw [leafCount, hf.width_eq, u32, Nat.mod_eq_of_lt (by omega)]
  omega

theorem leafCount_pos (hf : t.Full h) : 0 < t.leafCount := by
  rw [hf.leafCount_eq]
  exact Nat.two_pow_pos h

theorem leafCount_le (hf : t.Full h) : t.leafCount ≤ 2 ^ 31 := by
  rw [hf.leafCount_eq]
  exact Nat.pow_le_pow_right (by norm_num) hf.le_thirtyOne

theorem root_eq (hf : t.Full h) : root t.leafCount = inorder h 0 := by
  rw [hf.leafCount_eq, root_full hf.le_thirtyOne]

theorem height_unique {h' : ℕ} (hf : t.Full h) (hf' : t.Full h') : h = h' :=
  treeWidth_strictMono.injective (hf.length_eq.symm.trans hf'.length_eq)

theorem inorder_lt_length (hf : t.Full h) (hin : Inside h k j) : inorder k j < t.nodes.length := by
  rw [hf.length_eq]
  exact inside_iff.mp hin

theorem slot_eq_none (hf : t.Full h) (hout : ¬ Inside h k j) : t.slot k j = none := by
  rw [inside_iff, ← hf.length_eq, not_lt] at hout
  simp [slot, List.getElem?_eq_none hout]

theorem inside_of_slot {n : Node} (hf : t.Full h)
    (hslot : t.slot k j = some n) : Inside h k j := by
  by_contra hout
  simp [hf.slot_eq_none hout] at hslot

theorem index_eq (hf : t.Full h) (hin : Inside h k j) :
    t.index (inorder k j) = .ok (t.slot k j) := by
  have hlt := hf.inorder_lt_length hin
  simp [index, slot, List.getElem?_eq_getElem hlt]

theorem nodeAt_eq (hf : t.Full h) : t.nodeAt (inorder k j) = t.slot k j := by
  unfold nodeAt
  split
  · rw [hf.slot_eq_none]
    rw [inside_iff, ← hf.width_eq]
    omega
  · rfl

end Full

theorem Full.ext_slots (hf : t.Full h) (hf' : t'.Full h)
    (hslots : ∀ k j, t.slot k j = t'.slot k j) : t = t' := by
  have hnodes : t.nodes = t'.nodes := by
    apply List.ext_getElem?
    intro i
    obtain ⟨k, j, rfl⟩ := exists_inorder i
    have hslot := hslots k j
    by_cases hin : Inside h k j
    · have hlt := hf.inorder_lt_length hin
      have hlt' := hf'.inorder_lt_length hin
      rw [slot, slot, List.getElem?_eq_getElem hlt, List.getElem?_eq_getElem hlt'] at hslot
      rw [List.getElem?_eq_getElem hlt, List.getElem?_eq_getElem hlt']
      simpa using hslot
    · rw [inside_iff, not_lt] at hin
      rw [List.getElem?_eq_none (by rw [hf.length_eq]; exact hin),
        List.getElem?_eq_none (by rw [hf'.length_eq]; exact hin)]
  cases t
  cases t'
  simpa using hnodes

/-! ## Changing one slot -/

def setSlot (t : RatchetTree) (k j : ℕ) (n : Option Node) : RatchetTree :=
  ⟨t.nodes.set (inorder k j) n⟩

theorem Full.setSlot (hf : t.Full h) (k j : ℕ) (n : Option Node) : (t.setSlot k j n).Full h :=
  ⟨by simpa [RatchetTree.setSlot] using hf.length_eq, hf.le_thirty⟩

theorem Full.setNode_eq (hf : t.Full h) (hin : Inside h k j) (n : Option Node) :
    t.setNode (inorder k j) n = .ok (t.setSlot k j n) := by
  simp [setNode, RatchetTree.setSlot, hf.inorder_lt_length hin]

theorem Full.slot_setSlot (hf : t.Full h) (hin : Inside h k j) (n : Option Node) (k' j' : ℕ) :
    (t.setSlot k j n).slot k' j' = if k' = k ∧ j' = j then n else t.slot k' j' := by
  have hlt := hf.inorder_lt_length hin
  unfold RatchetTree.slot RatchetTree.setSlot
  rw [List.getElem?_set]
  by_cases heq : k' = k ∧ j' = j
  · obtain ⟨rfl, rfl⟩ := heq
    simp [hlt]
  · have hne : ¬ inorder k j = inorder k' j' := by
      rw [inorder_inj]
      rintro ⟨rfl, rfl⟩
      exact heq ⟨rfl, rfl⟩
    simp [hne, heq]

/-! ## Walking to the root -/

def climb {σ : Type} (visit : ℕ → ℕ → σ → Result σ) :
    ℕ → ℕ → ℕ → σ → Result σ
  | 0, _, _, s => .ok s
  | d + 1, k, j, s => do
      let s ← visit (inorder k j) (inorder (k + 1) (j / 2)) s
      climb visit d (k + 1) (j / 2) s

theorem walkUp_eq_climb {σ : Type} (visit : ℕ → ℕ → σ → Result σ) (hh : h ≤ 31) :
    ∀ d fuel k j s, k + d = h → j < 2 ^ d → d < fuel →
      walkUp (2 ^ h) (inorder h 0) visit fuel (inorder k j) s = climb visit d k j s := by
  intro d
  induction d with
  | zero =>
      intro fuel k j s hk hj hfuel
      obtain ⟨fuel, rfl⟩ : ∃ f, fuel = f + 1 := ⟨fuel - 1, by omega⟩
      have hroot : inorder k j = inorder h 0 := by
        rw [inorder_inj]
        simp at hj
        omega
      simp [walkUp, climb, hroot]
  | succ d ih =>
      intro fuel k j s hk hj hfuel
      obtain ⟨fuel, rfl⟩ : ∃ f, fuel = f + 1 := ⟨fuel - 1, by omega⟩
      have hne : ¬ inorder k j = inorder h 0 := by
        rw [inorder_inj]
        omega
      have hrank : j < 2 ^ (h - k) := by
        rwa [show h - k = d + 1 by omega]
      have hhalf : j / 2 < 2 ^ d := by
        rw [pow_succ] at hj
        omega
      simp only [walkUp, hne, if_false, parent_inorder hh (by omega) hrank, ok_bind, climb]
      refine congrArg _ (funext fun s' => ?_)
      exact ih fuel (k + 1) (j / 2) s' (by omega) hhalf (by omega)

theorem climb_rewrites (visit : ℕ → ℕ → RatchetTree → Result RatchetTree)
    (f : Option Node → Option Node) (hvisit : ∀ s x k j, s.Full h → Inside h k j →
    visit x (inorder k j) s = .ok (s.setSlot k j (f (s.slot k j)))) :
    ∀ d k j s, s.Full h → k + d = h → j < 2 ^ d →
      ∃ s', climb visit d k j s = .ok s' ∧ s'.Full h ∧
        ∀ k' j', s'.slot k' j' = if k < k' ∧ k' ≤ h ∧ j / 2 ^ (k' - k) = j' then f (s.slot k' j')
          else s.slot k' j' := by
  intro d
  induction d with
  | zero =>
      intro k j s hf hk hj
      refine ⟨s, rfl, hf, fun k' j' => ?_⟩
      rw [if_neg (by omega)]
  | succ d ih =>
      intro k j s hf hk hj
      have hin : Inside h k j := ⟨by omega, by rwa [show h - k = d + 1 by omega]⟩
      have hparent : Inside h (k + 1) (j / 2) := hin.parent (by omega)
      have hhalf : j / 2 < 2 ^ d := by
        rw [pow_succ] at hj
        omega
      obtain ⟨s', hrun, hf', hslots⟩ := ih (k + 1) (j / 2)
        (s.setSlot (k + 1) (j / 2) (f (s.slot (k + 1) (j / 2))))
        (hf.setSlot _ _ _) (by omega) hhalf
      refine ⟨s', ?_, hf', fun k' j' => ?_⟩
      · simp only [climb, hvisit s (inorder k j) (k + 1) (j / 2) hf hparent, ok_bind, hrun]
      · rw [hslots, hf.slot_setSlot hparent]
        rcases Nat.lt_trichotomy k' (k + 1) with hlt | heq | hgt
        · rw [if_neg (by omega), if_neg (by omega), if_neg (by omega)]
        · subst heq
          simp only [Nat.add_sub_cancel_left, pow_one, lt_irrefl, false_and, if_false, true_and]
          by_cases hj' : j / 2 = j'
          · subst hj'
            rw [if_pos rfl, if_pos ⟨by omega, by omega, rfl⟩]
          · rw [if_neg (fun heq => hj' heq.symm), if_neg (fun hcond => hj' hcond.2.2)]
        · have hdiv : j / 2 / 2 ^ (k' - (k + 1)) = j / 2 ^ (k' - k) := by
            rw [Nat.div_div_eq_div_mul, ← pow_succ']
            congr 2
            omega
          have hne : ¬ (k' = k + 1 ∧ j' = j / 2) := by omega
          rw [hdiv, if_neg hne]
          by_cases hcond : k' ≤ h ∧ j / 2 ^ (k' - k) = j'
          · rw [if_pos ⟨hgt, hcond⟩, if_pos ⟨by omega, hcond⟩]
          · rw [if_neg (fun hc => hcond hc.2), if_neg (fun hc => hcond hc.2)]

end RatchetTree

end MlsGo
