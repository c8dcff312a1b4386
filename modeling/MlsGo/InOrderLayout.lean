import Mathlib.Tactic

/-!
# Complete binary trees laid out in order

A complete binary tree of height `h` stored in an array in symmetric order
puts the `j`-th node of level `k` (leaves are level zero, counted from the
left) at position `2 ^ k * (2 * j + 1) - 1`.  Children, parents, ancestors and
subtrees become arithmetic on the pair `(k, j)`, and every position belongs to
exactly one pair.  The lemmas below are the coordinate system in which array
code over such trees is verified; they mention no particular program.
-/

namespace InOrderLayout

def inorder (k j : ℕ) : ℕ := 2 ^ k * (2 * j + 1) - 1

def treeWidth (h : ℕ) : ℕ := 2 ^ (h + 1) - 1

theorem inorder_add_one (k j : ℕ) : inorder k j + 1 = 2 ^ k * (2 * j + 1) := by
  have hpos : 0 < 2 ^ k * (2 * j + 1) := by positivity
  unfold inorder
  omega

@[simp] theorem inorder_zero (j : ℕ) : inorder 0 j = 2 * j := by
  simp [inorder]

theorem treeWidth_add_one (h : ℕ) : treeWidth h + 1 = 2 ^ (h + 1) := by
  have hpos : 0 < 2 ^ (h + 1) := by positivity
  unfold treeWidth
  omega

theorem treeWidth_pos (h : ℕ) : 0 < treeWidth h := by
  have hadd := treeWidth_add_one h
  have hpow : 2 ^ (h + 1) = 2 * 2 ^ h := by ring
  have hpos : 0 < 2 ^ h := by positivity
  omega

theorem treeWidth_succ (h : ℕ) : treeWidth (h + 1) = 2 * treeWidth h + 1 := by
  have hlow := treeWidth_add_one h
  have hhigh := treeWidth_add_one (h + 1)
  have hpow : 2 ^ (h + 1 + 1) = 2 * 2 ^ (h + 1) := by ring
  omega

theorem treeWidth_strictMono : StrictMono treeWidth := by
  refine strictMono_nat_of_lt_succ fun h => ?_
  rw [treeWidth_succ]
  omega

/-! ## Coordinates determine positions and conversely -/

theorem inorder_injective {k j k' j' : ℕ}
    (heq : inorder k j = inorder k' j') : k = k' ∧ j = j' := by
  have hprod : 2 ^ k * (2 * j + 1) = 2 ^ k' * (2 * j' + 1) := by
    rw [← inorder_add_one, ← inorder_add_one, heq]
  have key : ∀ a b x y : ℕ, a < b → 2 ^ a * (2 * x + 1) ≠ 2 ^ b * (2 * y + 1) := by
    intro a b x y hlt h
    obtain ⟨d, rfl⟩ : ∃ d, b = a + 1 + d := ⟨b - a - 1, by omega⟩
    have hexp : 2 ^ (a + 1 + d) * (2 * y + 1) = 2 ^ a * (2 * (2 ^ d * (2 * y + 1))) := by ring
    rw [hexp] at h
    have hcancel := Nat.eq_of_mul_eq_mul_left (by positivity) h
    omega
  rcases Nat.lt_trichotomy k k' with hlt | heqk | hgt
  · exact absurd hprod (key k k' j j' hlt)
  · subst heqk
    have hcancel := Nat.eq_of_mul_eq_mul_left (by positivity) hprod
    exact ⟨rfl, by omega⟩
  · exact absurd hprod.symm (key k' k j' j hgt)

@[simp] theorem inorder_inj {k j k' j' : ℕ} : inorder k j = inorder k' j' ↔ k = k' ∧ j = j' :=
  ⟨inorder_injective, fun ⟨hk, hj⟩ => by rw [hk, hj]⟩

theorem exists_inorder (x : ℕ) : ∃ k j, x = inorder k j := by
  have hex : ∀ m : ℕ, 0 < m → ∃ k j, m = 2 ^ k * (2 * j + 1) := by
    intro m hm
    induction m using Nat.strong_induction_on with
    | _ m ih =>
        rcases Nat.even_or_odd' m with ⟨c, heven | hodd⟩
        · obtain ⟨k, j, hc⟩ := ih c (by omega) (by omega)
          exact ⟨k + 1, j, by rw [heven, hc]; ring⟩
        · exact ⟨0, c, by rw [hodd]; ring⟩
  obtain ⟨k, j, h⟩ := hex (x + 1) (by omega)
  refine ⟨k, j, ?_⟩
  have hadd := inorder_add_one k j
  omega

/-- A position lies inside the tree of height `h` exactly when its level is at
most `h` and its rank is below the number of nodes of that level. -/
theorem inorder_lt_treeWidth {h k j : ℕ} :
    inorder k j < treeWidth h ↔ k ≤ h ∧ j < 2 ^ (h - k) := by
  have hpos := inorder_add_one k j
  have hwidth := treeWidth_add_one h
  constructor
  · intro hlt
    have hmul : 2 ^ k * (2 * j + 1) < 2 ^ (h + 1) := by omega
    have hk : k ≤ h := by
      by_contra hgt
      have hle : 2 ^ (h + 1) ≤ 2 ^ k := Nat.pow_le_pow_right (by omega) (by omega)
      have hge : 2 ^ k ≤ 2 ^ k * (2 * j + 1) := Nat.le_mul_of_pos_right _ (by omega)
      omega
    obtain ⟨d, rfl⟩ := Nat.exists_eq_add_of_le hk
    refine ⟨hk, ?_⟩
    have hpow : 2 ^ (k + d + 1) = 2 ^ k * (2 * 2 ^ d) := by ring
    rw [hpow] at hmul
    have hcancel := Nat.lt_of_mul_lt_mul_left hmul
    simp only [Nat.add_sub_cancel_left]
    omega
  · rintro ⟨hk, hj⟩
    obtain ⟨d, rfl⟩ := Nat.exists_eq_add_of_le hk
    simp only [Nat.add_sub_cancel_left] at hj
    have hpow : 2 ^ (k + d + 1) = 2 ^ k * (2 * 2 ^ d) := by ring
    have hmul : 2 ^ k * (2 * j + 1) < 2 ^ k * (2 * 2 ^ d) :=
      Nat.mul_lt_mul_of_pos_left (by omega) (by positivity)
    omega

/-- The subtree under `(k, j)` is the interval of positions that starts at
`2 ^ (k + 1) * j` and leaves out the last position of its block. -/
theorem inorder_mem_subtree {k j i m : ℕ} :
    (2 ^ (k + 1) * j ≤ inorder i m ∧ inorder i m + 2 ≤ 2 ^ (k + 1) * (j + 1)) ↔ i ≤ k ∧
      m / 2 ^ (k - i) = j := by
  have hone := inorder_add_one i m
  by_cases hik : i ≤ k
  · obtain ⟨d, rfl⟩ := Nat.exists_eq_add_of_le hik
    have hpow : 2 ^ (i + d + 1) = 2 ^ (i + 1) * 2 ^ d := by ring
    have hpos : 0 < 2 ^ i := by positivity
    have hsucc : 2 ^ (i + 1) = 2 * 2 ^ i := by ring
    have hexp : 2 ^ i * (2 * m + 1) = 2 ^ (i + 1) * m + 2 ^ i := by ring
    simp only [hik, true_and, Nat.add_sub_cancel_left]
    rw [Nat.div_eq_iff (by positivity)]
    constructor
    · rintro ⟨hlow, hhigh⟩
      rw [hpow] at hlow hhigh
      constructor
      · by_contra hlt
        have hle : m + 1 ≤ 2 ^ d * j := by
          rw [mul_comm]
          omega
        have hmul := Nat.mul_le_mul_left (2 ^ (i + 1)) hle
        rw [← mul_assoc, mul_add] at hmul
        omega
      · by_contra hgt
        have hle : 2 ^ d * (j + 1) ≤ m := by
          have hd : 0 < 2 ^ d := by positivity
          have hcomm : 2 ^ d * (j + 1) = j * 2 ^ d + 2 ^ d := by ring
          omega
        have hmul := Nat.mul_le_mul_left (2 ^ (i + 1)) hle
        rw [← mul_assoc] at hmul
        omega
    · rintro ⟨hlow, hhigh⟩
      have hd : 0 < 2 ^ d := by positivity
      have hlow' := Nat.mul_le_mul_left (2 ^ (i + 1)) hlow
      have hle : m + 1 ≤ 2 ^ d * (j + 1) := by
        have hcomm : 2 ^ d * (j + 1) = j * 2 ^ d + 2 ^ d := by ring
        omega
      have hhigh' := Nat.mul_le_mul_left (2 ^ (i + 1)) hle
      have hcomm : 2 ^ (i + 1) * (j * 2 ^ d) = 2 ^ (i + d + 1) * j := by ring
      have hcomm' : 2 ^ (i + 1) * (2 ^ d * (j + 1)) = 2 ^ (i + d + 1) * (j + 1) := by ring
      have hcomm'' : 2 ^ (i + 1) * (m + 1) = 2 ^ (i + 1) * m + 2 ^ (i + 1) := by ring
      omega
  · -- A node above level `k` sits at the last position of such a block.
    simp only [hik, false_and, iff_false, not_and]
    intro hlow hhigh
    obtain ⟨d, rfl⟩ : ∃ d, i = k + 1 + d := ⟨i - k - 1, by omega⟩
    have hexp : 2 ^ (k + 1 + d) * (2 * m + 1) = 2 ^ (k + 1) * (2 ^ d * (2 * m + 1)) := by ring
    rw [hexp] at hone
    have hlt : 2 ^ (k + 1) * j < 2 ^ (k + 1) * (2 ^ d * (2 * m + 1)) := by omega
    have hlt' : 2 ^ (k + 1) * (2 ^ d * (2 * m + 1)) < 2 ^ (k + 1) * (j + 1) := by
      omega
    have h1 := Nat.lt_of_mul_lt_mul_left hlt
    have h2 := Nat.lt_of_mul_lt_mul_left hlt'
    omega
end InOrderLayout
