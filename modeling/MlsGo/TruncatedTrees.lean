import MlsGo.TreeMath

/-!
# Trees whose leaf count is not a power of two

`math.go` also lays out trees with a last level that is cut off: the array of
`n` leaves ends inside the complete tree above it, and `Right` descends along
left children until it is back inside.  A node at level `k` and rank `j` still
stands over the leaves from `2 ^ k * j` on, as far as there are any, and its two
children share them out in order.  `truncated_induction` goes through such a
tree as the recursive functions of the source do.
-/

namespace MlsGo

open InOrderLayout

def leafSpan (n k j : ℕ) : List ℕ := List.range' (2 ^ k * j) (min (2 ^ k * (j + 1)) n - 2 ^ k * j)

section Positions

variable {n k j : ℕ}

theorem inorder_lt_width (hpos : 0 < n) :
    inorder k j < 2 * n - 1 ↔ 2 ^ k * (2 * j + 1) < 2 * n := by
  have hone := inorder_add_one k j
  omega

theorem inorder_succ_lt_width (hpos : 0 < n) :
    inorder (k + 1) j < 2 * n - 1 ↔ 2 ^ k * (2 * j + 1) < n := by
  rw [inorder_lt_width hpos, pow_succ', mul_assoc]
  omega

theorem left_inside (hpos : 0 < n) (hin : inorder (k + 1) j < 2 * n - 1) :
    inorder k (2 * j) < 2 * n - 1 := by
  rw [inorder_succ_lt_width hpos] at hin
  rw [inorder_lt_width hpos]
  have hpow := Nat.two_pow_pos k
  have hsplit : 2 ^ k * (2 * (2 * j) + 1) + 2 ^ k = 2 * (2 ^ k * (2 * j + 1)) := by
    ring
  omega

variable (hpos : 0 < n) (hle : n ≤ 2 ^ 31)

include hpos hle

theorem nodeWidth_eq : nodeWidth n = 2 * n - 1 := by
  rw [nodeWidth, if_neg hpos.ne', u32, Nat.mod_eq_of_lt (by omega)]
  omega

theorem root_eq :
    ∃ height, root n = inorder height 0 ∧ inorder height 0 < 2 * n - 1 ∧
      n ≤ 2 ^ height ∧ height ≤ 31 := by
  have hlog : 2 ^ Nat.log2 (2 * n - 1) ≤ 2 * n - 1 := Nat.log2_self_le (by omega)
  have hlt : 2 * n - 1 < 2 ^ (Nat.log2 (2 * n - 1) + 1) := Nat.lt_log2_self
  rw [pow_succ] at hlt
  refine ⟨Nat.log2 (2 * n - 1), ?_, ?_, by omega, ?_⟩
  · rw [root, nodeWidth_eq hpos hle, Nat.one_shiftLeft, inorder]
    simp
  · rw [inorder_lt_width hpos]
    omega
  · by_contra hhigh
    have hpow : 2 ^ 32 ≤ 2 ^ Nat.log2 (2 * n - 1) := Nat.pow_le_pow_right (by norm_num) (by omega)
    omega

end Positions

/-! ## Left spines -/

/-- Down the left children from `(k, j)` the nodes lie outside the array, up to
`(k', j')`, which is inside.  `Right` descends here and `Parent` climbs. -/
inductive Spine (n : ℕ) : ℕ → ℕ → ℕ → ℕ → Prop
  | inside {k j : ℕ} (hin : inorder k j < 2 * n - 1) : Spine n k j k j
  | down {k j k' j' : ℕ} (hout : ¬inorder (k + 1) j < 2 * n - 1)
      (hspine : Spine n k (2 * j) k' j') : Spine n (k + 1) j k' j'

theorem left_index_lt {k j : ℕ} (hindex : inorder (k + 1) j < 2 ^ 32) :
    inorder k (2 * j) < 2 ^ 32 := by
  have hone := inorder_add_one k (2 * j)
  have honeUp := inorder_add_one (k + 1) j
  have hup : 2 ^ (k + 1) * (2 * j + 1) = 2 ^ k * (2 * (2 * j) + 1) + 2 ^ k := by ring
  have hpow := Nat.two_pow_pos k
  omega

namespace Spine

variable {n k j k' j' : ℕ} (hspine : Spine n k j k' j')

include hspine

theorem lower_inside : inorder k' j' < 2 * n - 1 := by
  induction hspine with
  | inside hin => exact hin
  | down _ _ ih => exact ih

theorem lower_le : k' ≤ k := by
  induction hspine with
  | inside _ => exact le_rfl
  | down _ _ ih => omega

theorem first_eq : 2 ^ k' * j' = 2 ^ k * j := by
  induction hspine with
  | inside _ => rfl
  | down _ _ ih =>
      rw [ih]
      ring

theorem end_eq (hpos : 0 < n) : min (2 ^ k' * (j' + 1)) n = min (2 ^ k * (j + 1)) n := by
  induction hspine with
  | inside _ => rfl
  | @down k j _ _ hout _ ih =>
      -- an outside parent has no leaf in its right half, so its end is `n`
      rw [inorder_succ_lt_width hpos] at hout
      have hpow := Nat.two_pow_pos k
      have hend : 2 ^ k * (2 * j + 1) + 2 ^ k = 2 ^ (k + 1) * (j + 1) := by ring
      rw [ih, min_eq_right (by omega), min_eq_right (by omega)]

theorem clampLeft_eq (hindex : inorder k j < 2 ^ 32) {fuel : ℕ} (hfuel : k < fuel) :
    clampLeft (2 * n - 1) fuel (inorder k j) = .ok (inorder k' j') := by
  induction hspine generalizing fuel with
  | inside hin =>
      obtain ⟨fuel, rfl⟩ := Nat.exists_eq_succ_of_ne_zero (show fuel ≠ 0 by omega)
      rw [clampLeft, if_pos hin]
  | down hout _ ih =>
      obtain ⟨fuel, rfl⟩ := Nat.exists_eq_succ_of_ne_zero (show fuel ≠ 0 by omega)
      rw [clampLeft, if_neg hout, left_inorder hindex]
      exact ih (left_index_lt hindex) (by omega)

end Spine

section Children

variable {n k j : ℕ}

theorem exists_spine (hfirst : 2 ^ k * j < n) : ∃ k' j', Spine n k j k' j' := by
  induction k generalizing j with
  | zero =>
      refine ⟨0, j, .inside ?_⟩
      rw [inorder_zero]
      omega
  | succ k ih =>
      by_cases hin : inorder (k + 1) j < 2 * n - 1
      · exact ⟨k + 1, j, .inside hin⟩
      · have hsame : 2 ^ k * (2 * j) = 2 ^ (k + 1) * j := by ring
        obtain ⟨k', j', hspine⟩ := ih (j := 2 * j) (by omega)
        exact ⟨k', j', .down hin hspine⟩

variable (hpos : 0 < n) (hle : n ≤ 2 ^ 31)

include hpos hle

theorem right_index_lt (hin : inorder (k + 1) j < 2 * n - 1) :
    k ≤ 30 ∧ inorder k (2 * j + 1) < 2 ^ 32 := by
  have hfirst := (inorder_succ_lt_width hpos).mp hin
  have hk : k ≤ 30 := by
    by_contra hk
    have hpow : 2 ^ 31 ≤ 2 ^ k := Nat.pow_le_pow_right (by norm_num) (by omega)
    have hmul : 2 ^ k * 1 ≤ 2 ^ k * (2 * j + 1) := Nat.mul_le_mul_left _ (by omega)
    omega
  refine ⟨hk, ?_⟩
  have hblock : 2 * j + 1 < 2 ^ (31 - k) := by
    have hsplit : 2 ^ 31 = 2 ^ k * 2 ^ (31 - k) := by
      rw [← pow_add]
      congr 1
      omega
    exact Nat.lt_of_mul_lt_mul_left (a := 2 ^ k) (by omega)
  have hinside : inorder k (2 * j + 1) < treeWidth 31 :=
    inorder_lt_treeWidth.mpr ⟨by omega, hblock⟩
  exact hinside.trans (treeWidth_lt le_rfl)

theorem right_of_spine {k' j' : ℕ} (hin : inorder (k + 1) j < 2 * n - 1)
    (hspine : Spine n k (2 * j + 1) k' j') :
    right (inorder (k + 1) j) n = .ok (inorder k' j', true) := by
  obtain ⟨hk, hchild⟩ := right_index_lt hpos hle hin
  have hshift : u32 (3 <<< k) = 3 <<< k := Nat.mod_eq_of_lt (three_shiftLeft_lt hk)
  simp only [right, level_inorder (show inorder (k + 1) j < 2 ^ 32 by omega),
    Nat.succ_ne_zero, if_false, Nat.add_sub_cancel, hshift, xor_three_inorder,
    nodeWidth_eq hpos hle, hspine.clampLeft_eq hchild (show k < 34 by omega), ok_bind, pure_eq_ok]

theorem right_truncated (hin : inorder (k + 1) j < 2 * n - 1) :
    ∃ k' j', k' ≤ k ∧ right (inorder (k + 1) j) n = .ok (inorder k' j', true) ∧
      inorder k' j' < 2 * n - 1 ∧ 2 ^ k' * j' = 2 ^ k * (2 * j + 1) ∧
      min (2 ^ k' * (j' + 1)) n = min (2 ^ (k + 1) * (j + 1)) n := by
  obtain ⟨k', j', hspine⟩ := exists_spine ((inorder_succ_lt_width hpos).mp hin)
  refine ⟨k', j', hspine.lower_le, right_of_spine hpos hle hin hspine,
    hspine.lower_inside, hspine.first_eq, ?_⟩
  rw [hspine.end_eq hpos]
  congr 1
  ring

theorem truncated_induction {motive : ℕ → ℕ → Prop} (leaf : ∀ j, j < n → motive 0 j)
    (node : ∀ k j k' j', k' ≤ k → left (inorder (k + 1) j) = (inorder k (2 * j), true) →
    right (inorder (k + 1) j) n = .ok (inorder k' j', true) → leafSpan n (k + 1) j =
    leafSpan n k (2 * j) ++ leafSpan n k' j' → motive k (2 * j) → motive k' j' →
    motive (k + 1) j) :
    ∀ k j, inorder k j < 2 * n - 1 → motive k j := by
  intro k
  induction k using Nat.strong_induction_on with
  | _ k ih =>
    intro j hin
    cases k with
    | zero =>
        rw [inorder_zero] at hin
        exact leaf j (by omega)
    | succ k =>
        obtain ⟨k', j', hk', hright, hin', hfirst, hend⟩ := right_truncated hpos hle hin
        refine node k j k' j' hk' (left_inorder (by omega)) hright ?_
          (ih k (by omega) (2 * j) (left_inside hpos hin)) (ih k' (by omega) j' hin')
        -- the left half is whole, the right one ends where the parent does
        have hhalf := (inorder_succ_lt_width hpos).mp hin
        have hpow := Nat.two_pow_pos k
        have hsame : 2 ^ (k + 1) * j = 2 ^ k * (2 * j) := by ring
        have hmiddle : 2 ^ k * (2 * j + 1) = 2 ^ k * (2 * j) + 2 ^ k := by ring
        have hlast : 2 ^ (k + 1) * (j + 1) = 2 ^ k * (2 * j + 1) + 2 ^ k := by ring
        rw [leafSpan, leafSpan, leafSpan, hend, hfirst, hsame, hlast, min_eq_left hhalf.le,
          hmiddle, Nat.add_sub_cancel_left, List.range'_append_1]
        congr 1
        omega

end Children

end MlsGo
