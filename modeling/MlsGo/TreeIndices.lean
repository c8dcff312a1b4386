import MlsGo.TruncatedTrees
import Mathlib.Logic.Relation

/-!
# The indices of a tree of any size

File `math.go` for every number of leaves up to `2 ^ 31`.  A node inside the array
is the lower end of a left spine whose upper end has its parent inside: `Parent`
climbs the spine, and where the upper end is a right child, `Right` comes down the
same spine.  So the two loops undo each other, whether or not the tree is full.

That nothing overflows is said with a second copy of the functions, over arithmetic
that panics where a `uint32` would wrap around.
-/

namespace MlsGo

open InOrderLayout

/-! ## Arithmetic that traps -/

namespace Checked

def fits (x : ℕ) : Result ℕ := if x < 2 ^ 32 then .ok x else .error .panic

def nodeWidth (nLeaves : ℕ) : Result ℕ :=
  if nLeaves = 0 then .ok 0 else fits (2 * (nLeaves - 1) + 1)

def levelLoop : ℕ → ℕ → ℕ → Result ℕ
  | 0, _, _ => .error .diverge
  | fuel + 1, x, k => if (x >>> k) &&& 1 = 1 then levelLoop fuel x (k + 1) else .ok k

def level (x : ℕ) : Result ℕ := if x &&& 1 = 0 then .ok 0 else levelLoop 33 x 0

def root (nLeaves : ℕ) : Result ℕ := do
  let w ← nodeWidth nLeaves
  let top ← fits (1 <<< Nat.log2 w)
  return top - 1

def left (x : ℕ) : Result (ℕ × Bool) := do
  let k ← level x
  if k = 0 then return (0, false)
  else
    let bit ← fits (1 <<< (k - 1))
    return (x ^^^ bit, true)

def clampLeft (w : ℕ) : ℕ → ℕ → Result ℕ
  | 0, _ => .error .diverge
  | fuel + 1, r =>
      if r < w then .ok r
      else do
        let (l, _) ← left r
        clampLeft w fuel l

def right (x nLeaves : ℕ) : Result (ℕ × Bool) := do
  let k ← level x
  if k = 0 then return (0, false)
  else
    let bits ← fits (3 <<< (k - 1))
    let w ← nodeWidth nLeaves
    let r ← clampLeft w 34 (x ^^^ bits)
    return (r, true)

def parentStep (x : ℕ) : Result ℕ := do
  let k ← level x
  let low ← fits (1 <<< k)
  let high ← fits (((x >>> (k + 1)) &&& 1) <<< (k + 1))
  return (x ||| low) ^^^ high

def climbInside (w : ℕ) : ℕ → ℕ → Result ℕ
  | 0, _ => .error .diverge
  | fuel + 1, p =>
      if p < w then .ok p
      else do
        let p ← parentStep p
        climbInside w fuel p

def parent (x nLeaves : ℕ) : Result (ℕ × Bool) := do
  let top ← root nLeaves
  if x = top then return (0, false)
  else
    let w ← nodeWidth nLeaves
    let p ← parentStep x
    let p ← climbInside w 34 p
    return (p, true)

def sibling (x nLeaves : ℕ) : Result (ℕ × Bool) := do
  let (p, ok) ← parent x nLeaves
  if ok then
    let (l, _) ← left p
    let (r, _) ← right p nLeaves
    return (if l = x then r else l, true)
  else return (0, false)

variable {x k : ℕ}

theorem fits_eq (hlt : x < 2 ^ 32) : fits x = .ok x := if_pos hlt

theorem levelLoop_eq_ok_iff {k' fuel : ℕ} :
    levelLoop (fuel + 1) x k = .ok k' ↔ MlsGo.levelLoop fuel x k = k' ∧ ¬(x >>> k') &&& 1 = 1 := by
  induction fuel generalizing k with
  | zero =>
      rw [levelLoop, MlsGo.levelLoop]
      split
      next hbit =>
        simp only [levelLoop, reduceCtorEq, false_iff, not_and, not_not]
        rintro rfl
        exact hbit
      next hbit =>
        rw [Except.ok.injEq, iff_self_and]
        rintro rfl
        exact hbit
  | succ fuel ih =>
      rw [levelLoop, MlsGo.levelLoop]
      split
      · exact ih
      next hbit =>
        rw [Except.ok.injEq, iff_self_and]
        rintro rfl
        exact hbit

theorem level_eq_ok_iff : level x = .ok k ↔ MlsGo.level x = k ∧ ¬(x >>> k) &&& 1 = 1 := by
  unfold level MlsGo.level
  split
  next heven =>
    rw [Except.ok.injEq, iff_self_and]
    rintro rfl
    rw [Nat.shiftRight_zero, heven]
    norm_num
  · exact levelLoop_eq_ok_iff

theorem level_inorder {j : ℕ} (hlt : inorder k j < 2 ^ 32) : level (inorder k j) = .ok k := by
  refine level_eq_ok_iff.mpr ⟨MlsGo.level_inorder hlt, ?_⟩
  rw [testBit_shiftRight_and_one, testBit_inorder]
  simp

theorem left_eq (hlt : x < 2 ^ 32) : left x = .ok (MlsGo.left x) := by
  obtain ⟨k, j, rfl⟩ := exists_inorder x
  have hk := level_le_of_inorder_lt hlt
  have hfits : fits (1 <<< (k - 1)) = .ok (1 <<< (k - 1)) := by
    refine fits_eq ?_
    rw [Nat.one_shiftLeft]
    exact Nat.pow_lt_pow_right (by norm_num) (by omega)
  simp only [left, MlsGo.left, level_inorder hlt, MlsGo.level_inorder hlt, hfits,
    ok_bind, pure_eq_ok]
  split <;> rfl

theorem left_lt (hlt : x < 2 ^ 32) : (MlsGo.left x).1 < 2 ^ 32 := by
  obtain ⟨k, j, rfl⟩ := exists_inorder x
  cases k with
  | zero =>
      rw [left_inorder_zero hlt]
      norm_num
  | succ k =>
      rw [left_inorder hlt]
      exact left_index_lt hlt

theorem clampLeft_eq (w fuel : ℕ) {r : ℕ} (hlt : r < 2 ^ 32) :
    clampLeft w fuel r = MlsGo.clampLeft w fuel r := by
  induction fuel generalizing r with
  | zero => rfl
  | succ fuel ih =>
      rw [clampLeft, MlsGo.clampLeft, left_eq hlt, ok_bind]
      split
      · rfl
      · exact ih (left_lt hlt)

theorem parentStep_inorder {j : ℕ} (hk : k < 32) (hself : inorder k j < 2 ^ 32) :
    parentStep (inorder k j) = .ok (inorder (k + 1) (j / 2)) := by
  obtain ⟨hlow, hhigh⟩ := parentStep_shifts hk hself
  rw [← MlsGo.parentStep_inorder hk hself]
  simp only [parentStep, MlsGo.parentStep, level_inorder hself,
    MlsGo.level_inorder hself, shiftRight_inorder, fits_eq hlow, fits_eq hhigh, u32,
    Nat.mod_eq_of_lt hlow, Nat.mod_eq_of_lt hhigh, ok_bind, pure_eq_ok]

theorem fits_eq_ok {y : ℕ} (hfits : fits x = .ok y) : u32 x = y := by
  unfold fits at hfits
  split at hfits
  next hlt => exact (Nat.mod_eq_of_lt hlt).trans (Except.ok.inj hfits)
  · cases hfits

theorem parentStep_sound {p : ℕ} (hstep : parentStep x = .ok p) : MlsGo.parentStep x = p := by
  simp only [parentStep, bind_eq_ok, pure_ok_iff] at hstep
  obtain ⟨k, hlevel, low, hlow, high, hhigh, rfl⟩ := hstep
  simp only [MlsGo.parentStep, (level_eq_ok_iff.mp hlevel).1, fits_eq_ok hlow, fits_eq_ok hhigh]

theorem climbInside_sound {w p q : ℕ} :
    ∀ {fuel}, climbInside w fuel p = .ok q → MlsGo.climbInside w fuel p = .ok q := by
  intro fuel
  induction fuel generalizing p with
  | zero => exact fun hclimb => hclimb
  | succ fuel ih =>
      intro hclimb
      rw [climbInside] at hclimb
      rw [MlsGo.climbInside]
      split at hclimb
      next hin =>
        rw [if_pos hin]
        exact hclimb
      next hout =>
        obtain ⟨next, hstep, hclimb⟩ := bind_eq_ok.mp hclimb
        rw [if_neg hout, parentStep_sound hstep]
        exact ih hclimb

end Checked

/-! ## Climbing -/

section Climbing

variable {n k j k' j' : ℕ}

theorem Spine.climbInside_eq (hspine : Spine n k j k' j') (hk : k < 32)
    (hindex : inorder k j < 2 ^ 32) (fuel : ℕ) :
    Checked.climbInside (2 * n - 1) (fuel + (k - k')) (inorder (k' + 1) (j' / 2)) =
      Checked.climbInside (2 * n - 1) fuel (inorder (k + 1) (j / 2)) := by
  induction hspine generalizing fuel with
  | inside _ => simp
  | @down k j k' j' hout hspine ih =>
      have hle := hspine.lower_le
      have hstep := ih (by omega) (left_index_lt hindex) (fuel + 1)
      rw [show fuel + (k + 1 - k') = fuel + 1 + (k - k') by omega, hstep, Nat.mul_div_cancel_left j
        two_pos, Checked.climbInside, if_neg hout, Checked.parentStep_inorder hk hindex, ok_bind]

variable (hpos : 0 < n) (hle : n ≤ 2 ^ 31)

include hpos hle

theorem checked_nodeWidth : Checked.nodeWidth n = .ok (2 * n - 1) := by
  rw [Checked.nodeWidth, if_neg hpos.ne', Checked.fits_eq (by omega)]
  congr 1
  omega

theorem checked_root : Checked.root n = .ok (root n) := by
  have hlog : Nat.log2 (2 * n - 1) < 32 := by
    rw [Nat.log2_lt (by omega)]
    omega
  have hfits : Checked.fits (1 <<< Nat.log2 (2 * n - 1)) = .ok (1 <<< Nat.log2 (2 * n - 1)) := by
    refine Checked.fits_eq ?_
    rw [Nat.one_shiftLeft]
    exact Nat.pow_lt_pow_right (by norm_num) hlog
  rw [Checked.root, checked_nodeWidth hpos hle, ok_bind, hfits, ok_bind, root,
    nodeWidth_eq hpos hle]
  rfl

omit hle in
theorem level_le_height {height : ℕ} (htop : n ≤ 2 ^ height)
    (hin : inorder k j < 2 * n - 1) : k < height ∨ (k = height ∧ j = 0) := by
  rw [inorder_lt_width hpos] at hin
  have hlt : inorder k j < treeWidth height := by
    have hone := inorder_add_one k j
    have hwidth := treeWidth_add_one height
    rw [pow_succ] at hwidth
    omega
  obtain ⟨hk, hj⟩ := inorder_lt_treeWidth.mp hlt
  rcases hk.lt_or_eq with hlt | rfl
  · exact .inl hlt
  · exact .inr ⟨rfl, by simpa using hj⟩

theorem child_index_lt (hup : inorder (k + 1) (j / 2) < 2 * n - 1) :
    k ≤ 30 ∧ inorder k j < 2 ^ 32 := by
  obtain ⟨hk, hright⟩ := right_index_lt hpos hle hup
  refine ⟨hk, lt_of_le_of_lt ?_ hright⟩
  have hrank : 2 ^ k * (2 * j + 1) ≤ 2 ^ k * (2 * (2 * (j / 2) + 1) + 1) :=
    Nat.mul_le_mul_left _ (by omega)
  have hone := inorder_add_one k j
  have honeRight := inorder_add_one k (2 * (j / 2) + 1)
  omega

theorem parent_of_spine (hspine : Spine n k j k' j') (hup : inorder (k + 1) (j / 2) < 2 * n - 1) :
    Checked.parent (inorder k' j') n = .ok (inorder (k + 1) (j / 2), true) ∧
      parent (inorder k' j') n = .ok (inorder (k + 1) (j / 2), true) := by
  obtain ⟨height, hroot, -, htop, -⟩ := root_eq hpos hle
  obtain ⟨hk, hindex⟩ := child_index_lt hpos hle hup
  have hlower := hspine.lower_le
  have hself : inorder k' j' < 2 ^ 32 := by
    have hin := hspine.lower_inside
    omega
  have hne : inorder k' j' ≠ root n := by
    have hlevel := level_le_height hpos htop hup
    rw [hroot, Ne, inorder_inj]
    omega
  have hclimb : Checked.climbInside (2 * n - 1) 34 (inorder (k' + 1) (j' / 2)) =
      .ok (inorder (k + 1) (j / 2)) := by
    have harrive := hspine.climbInside_eq (by omega) hindex (33 - (k - k') + 1)
    rw [Checked.climbInside, if_pos hup] at harrive
    rw [← harrive]
    congr 1
    omega
  constructor
  · simp only [Checked.parent, checked_root hpos hle, ok_bind, if_neg hne, checked_nodeWidth hpos
      hle, Checked.parentStep_inorder (show k' < 32 by omega) hself, hclimb, pure_eq_ok]
  · simp only [parent, if_neg hne, nodeWidth_eq hpos hle, parentStep_inorder
      (show k' < 32 by omega) hself, Checked.climbInside_sound hclimb, ok_bind, pure_eq_ok]

omit hle in
/-- Every node but the root hangs from an inside parent by a spine.  The spine grows
upwards as long as the next parent is outside, and it ends below the root. -/
theorem Spine.exists_above {height : ℕ} (htop : n ≤ 2 ^ height)
    (hroot : inorder height 0 < 2 * n - 1) (hspine : Spine n k j k' j') (hk : k < height) :
    ∃ k j, Spine n k j k' j' ∧ inorder (k + 1) (j / 2) < 2 * n - 1 := by
  induction hdist : height - k generalizing k j with
  | zero => omega
  | succ d ih =>
      by_cases hup : inorder (k + 1) (j / 2) < 2 * n - 1
      · exact ⟨k, j, hspine, hup⟩
      -- a right child with a leaf below it would have its parent inside
      have hfirst : 2 ^ k * j < n := by
        have hin := (inorder_lt_width hpos).mp hspine.lower_inside
        have hexp : 2 ^ k' * (2 * j' + 1) = 2 * (2 ^ k' * j') + 2 ^ k' := by ring
        have hsame := hspine.first_eq
        have hpow := Nat.two_pow_pos k'
        omega
      have heven : j = 2 * (j / 2) := by
        by_contra hodd
        rw [inorder_succ_lt_width hpos, show 2 * (j / 2) + 1 = j by omega] at hup
        omega
      have hgrown : Spine n (k + 1) (j / 2) k' j' := .down hup (heven ▸ hspine)
      have hlt : k + 1 < height := by
        by_contra hend
        obtain rfl : height = k + 1 := by omega
        have hzero : j / 2 = 0 := by
          have hsame : 2 ^ (k + 1) * (j / 2) = 2 ^ k * (2 * (j / 2)) := by ring
          rw [← heven] at hsame
          by_contra hne
          have hmul : 2 ^ (k + 1) * 1 ≤ 2 ^ (k + 1) * (j / 2) := Nat.mul_le_mul_left _ (by omega)
          omega
        rw [hzero] at hup
        exact hup hroot
      exact ih hgrown hlt (by omega)

end Climbing

/-! ## Families -/

/-- A parent with its two children, as the functions of the source connect them
without overflow. -/
structure Family (n p l r : ℕ) : Prop where
  parent_inside : p < 2 * n - 1
  left_inside : l < 2 * n - 1
  right_inside : r < 2 * n - 1
  ne : l ≠ r
  left_eq : left p = (l, true)
  right_eq : right p n = .ok (r, true)
  checkedRight_eq : Checked.right p n = .ok (r, true)
  parent_left : parent l n = .ok (p, true)
  parent_right : parent r n = .ok (p, true)
  checkedParent_left : Checked.parent l n = .ok (p, true)
  checkedParent_right : Checked.parent r n = .ok (p, true)

section Families

variable {n k j : ℕ} (hpos : 0 < n) (hle : n ≤ 2 ^ 31)

include hpos hle

theorem checked_right (hin : inorder (k + 1) j < 2 * n - 1) :
    Checked.right (inorder (k + 1) j) n = right (inorder (k + 1) j) n := by
  obtain ⟨hk, hchild⟩ := right_index_lt hpos hle hin
  have hself : inorder (k + 1) j < 2 ^ 32 := by omega
  have hshift := three_shiftLeft_lt hk
  simp only [Checked.right, right, Checked.level_inorder hself, level_inorder hself,
    Nat.succ_ne_zero, if_false, Nat.add_sub_cancel, Checked.fits_eq hshift, u32,
    Nat.mod_eq_of_lt hshift, xor_three_inorder, checked_nodeWidth hpos hle,
    nodeWidth_eq hpos hle, Checked.clampLeft_eq _ _ hchild, ok_bind]

theorem family_of_spine {k' j' : ℕ} (hin : inorder (k + 1) j < 2 * n - 1)
    (hspine : Spine n k (2 * j + 1) k' j') :
    Family n (inorder (k + 1) j) (inorder k (2 * j)) (inorder k' j') := by
  have hleft := left_inside hpos hin
  have hright := right_of_spine hpos hle hin hspine
  obtain ⟨hcheckedLeft, hparentLeft⟩ :=
    parent_of_spine hpos hle (.inside hleft) (by rwa [Nat.mul_div_cancel_left j two_pos])
  obtain ⟨hcheckedRight, hparentRight⟩ :=
    parent_of_spine hpos hle hspine (by rwa [show (2 * j + 1) / 2 = j by omega])
  rw [Nat.mul_div_cancel_left j two_pos] at hcheckedLeft hparentLeft
  rw [show (2 * j + 1) / 2 = j by omega] at hcheckedRight hparentRight
  refine ⟨hin, hleft, hspine.lower_inside, ?_, left_inorder (by omega), hright,
    (checked_right hpos hle hin).trans hright, hparentLeft, hparentRight,
    hcheckedLeft, hcheckedRight⟩
  -- the two halves start at different leaves
  rw [Ne, inorder_inj]
  rintro ⟨rfl, rfl⟩
  have hsame := Nat.eq_of_mul_eq_mul_left (Nat.two_pow_pos k) hspine.first_eq
  omega

theorem exists_family (hin : inorder (k + 1) j < 2 * n - 1) :
    ∃ r, Family n (inorder (k + 1) j) (inorder k (2 * j)) r := by
  obtain ⟨k', j', hspine⟩ := exists_spine ((inorder_succ_lt_width hpos).mp hin)
  exact ⟨inorder k' j', family_of_spine hpos hle hin hspine⟩

theorem exists_family_above (hin : inorder k j < 2 * n - 1) (hne : inorder k j ≠ root n) :
    ∃ k' j' l r, k < k' ∧ Family n (inorder k' j') l r ∧ (inorder k j = l ∨ inorder k j = r) := by
  obtain ⟨height, hroot, hrootin, htop, -⟩ := root_eq hpos hle
  have hk : k < height := by
    have hlevel := level_le_height hpos htop hin
    rw [hroot, Ne, inorder_inj] at hne
    omega
  obtain ⟨k', j', hspine, hup⟩ := Spine.exists_above hpos htop hrootin (.inside hin) hk
  have hlower := hspine.lower_le
  rcases Nat.even_or_odd' j' with ⟨i, rfl | rfl⟩
  · rw [Nat.mul_div_cancel_left i two_pos] at hup
    obtain ⟨r, hfamily⟩ := exists_family hpos hle hup
    refine ⟨k' + 1, i, inorder k' (2 * i), r, by omega, hfamily, .inl ?_⟩
    -- a left child of an inside parent is inside, so its spine is a point
    cases hspine with
    | inside _ => rfl
    | down hout _ => exact absurd hfamily.left_inside hout
  · rw [show (2 * i + 1) / 2 = i by omega] at hup
    exact ⟨k' + 1, i, _, inorder k j, by omega, family_of_spine hpos hle hup hspine, .inr rfl⟩

end Families

namespace Family

variable {n p l r : ℕ} (hfamily : Family n p l r)

include hfamily

theorem sibling_left : sibling l n = .ok (r, true) := by
  simp only [sibling, hfamily.parent_left, hfamily.left_eq, hfamily.right_eq, ok_bind,
    if_true, pure_eq_ok]

theorem sibling_right : sibling r n = .ok (l, true) := by
  simp only [sibling, hfamily.parent_right, hfamily.left_eq, hfamily.right_eq, ok_bind,
    if_true, if_neg hfamily.ne, pure_eq_ok]

variable (hle : n ≤ 2 ^ 31)

include hle

theorem checkedLeft_eq : Checked.left p = .ok (l, true) := by
  have hinside := hfamily.parent_inside
  rw [Checked.left_eq (by omega), hfamily.left_eq]

theorem checkedSibling_left : Checked.sibling l n = .ok (r, true) := by
  simp only [Checked.sibling, hfamily.checkedParent_left, hfamily.checkedLeft_eq hle,
    hfamily.checkedRight_eq, ok_bind, if_true, pure_eq_ok]

theorem checkedSibling_right : Checked.sibling r n = .ok (l, true) := by
  simp only [Checked.sibling, hfamily.checkedParent_right, hfamily.checkedLeft_eq hle,
    hfamily.checkedRight_eq, ok_bind, if_true, if_neg hfamily.ne, pure_eq_ok]

end Family

/-! ## The tree of the parent relation -/

def Climbs (n x p : ℕ) : Prop := parent x n = .ok (p, true)

section Trees

variable {n x : ℕ} (hpos : 0 < n) (hle : n ≤ 2 ^ 31)

include hpos hle

omit hpos hle in
theorem leaf_children (hleaf : x % 2 = 0) (hlt : x < 2 ^ 32) :
    left x = (0, false) ∧ right x n = .ok (0, false) ∧ Checked.right x n = .ok (0, false) := by
  obtain ⟨j, rfl⟩ : ∃ j, x = inorder 0 j := ⟨x / 2, by rw [inorder_zero]; omega⟩
  refine ⟨left_inorder_zero hlt, ?_, ?_⟩
  · simp only [right, level_inorder hlt, if_true]
  · simp only [Checked.right, Checked.level_inorder hlt, ok_bind, if_true, pure_eq_ok]

theorem internal_family (hinternal : x % 2 = 1) (hin : x < 2 * n - 1) : ∃ l r, Family n x l r := by
  obtain ⟨k, j, rfl⟩ := exists_inorder x
  cases k with
  | zero =>
      rw [inorder_zero] at hinternal
      omega
  | succ k =>
      obtain ⟨r, hfamily⟩ := exists_family hpos hle hin
      exact ⟨_, r, hfamily⟩

theorem climbs_root (hin : x < 2 * n - 1) : Relation.ReflTransGen (Climbs n) x (root n) := by
  obtain ⟨height, -, -, htop, -⟩ := root_eq hpos hle
  obtain ⟨k, j, rfl⟩ := exists_inorder x
  induction hdist : height - k using Nat.strong_induction_on generalizing k j with
  | _ d ih =>
      by_cases hroot : inorder k j = root n
      · rw [hroot]
      obtain ⟨k', j', l, r, hlt, hfamily, hchild⟩ := exists_family_above hpos hle hin hroot
      have hstep : Climbs n (inorder k j) (inorder k' j') := by
        rcases hchild with heq | heq
        · rw [heq]
          exact hfamily.parent_left
        · rw [heq]
          exact hfamily.parent_right
      have hlevel := level_le_height hpos htop hfamily.parent_inside
      refine .head hstep (ih (height - k') ?_ k' j' hfamily.parent_inside rfl)
      omega

theorem root_has_no_parent :
    parent (root n) n = .ok (0, false) ∧ Checked.parent (root n) n = .ok (0, false) ∧
      sibling (root n) n = .ok (0, false) ∧ Checked.sibling (root n) n = .ok (0, false) := by
  have hparent : parent (root n) n = .ok (0, false) := if_pos rfl
  have hchecked : Checked.parent (root n) n = .ok (0, false) := by
    simp only [Checked.parent, checked_root hpos hle, ok_bind, if_true, pure_eq_ok]
  refine ⟨hparent, hchecked, ?_, ?_⟩
  · simp [sibling, hparent]
  · simp [Checked.sibling, hchecked]

theorem checked_right_inside (hin : x < 2 * n - 1) : Checked.right x n = right x n := by
  rcases Nat.mod_two_eq_zero_or_one x with hleaf | hinternal
  · obtain ⟨-, hright, hchecked⟩ := leaf_children (n := n) hleaf (by omega)
    rw [hright, hchecked]
  · obtain ⟨l, r, hfamily⟩ := internal_family hpos hle hinternal hin
    rw [hfamily.right_eq, hfamily.checkedRight_eq]

theorem exists_family_of_ne_root (hin : x < 2 * n - 1) (hne : x ≠ root n) :
    ∃ p l r, Family n p l r ∧ (x = l ∨ x = r) := by
  obtain ⟨k, j, rfl⟩ := exists_inorder x
  obtain ⟨k', j', l, r, -, hfamily, hchild⟩ := exists_family_above hpos hle hin hne
  exact ⟨_, l, r, hfamily, hchild⟩

theorem checked_parent_sibling (hin : x < 2 * n - 1) :
    Checked.parent x n = parent x n ∧ Checked.sibling x n = sibling x n := by
  by_cases hroot : x = root n
  · obtain ⟨hparent, hcheckedParent, hsibling, hcheckedSibling⟩ := root_has_no_parent hpos hle
    rw [hroot, hparent, hcheckedParent, hsibling, hcheckedSibling]
    exact ⟨rfl, rfl⟩
  · obtain ⟨p, l, r, hfamily, rfl | rfl⟩ := exists_family_of_ne_root hpos hle hin hroot
    · rw [hfamily.parent_left, hfamily.checkedParent_left, hfamily.sibling_left,
        hfamily.checkedSibling_left hle]
      exact ⟨rfl, rfl⟩
    · rw [hfamily.parent_right, hfamily.checkedParent_right, hfamily.sibling_right,
        hfamily.checkedSibling_right hle]
      exact ⟨rfl, rfl⟩

end Trees

/-- The index functions make a tree of the array for every leaf count up to `2 ^ 31`.
They compute what they would compute without a word size, and so do not overflow;
their loops return, to nodes inside the array; `Parent` undoes `Left` and `Right`;
every node but the root is one child of its parent and has the other for its sibling;
and every climb ends at the root. -/
theorem node_indices_form_tree {n x : ℕ} (hpos : 1 ≤ n) (hle : n ≤ 2 ^ 31)
    (hin : x < nodeWidth n) :
    (Checked.nodeWidth n = .ok (nodeWidth n) ∧ Checked.root n = .ok (root n) ∧
      Checked.left x = .ok (left x) ∧ Checked.right x n = right x n ∧
      Checked.parent x n = parent x n ∧ Checked.sibling x n = sibling x n) ∧
    (x % 2 = 0 → left x = (0, false) ∧ right x n = .ok (0, false)) ∧
    (x % 2 = 1 → ∃ l r, left x = (l, true) ∧ right x n = .ok (r, true) ∧ l < nodeWidth n ∧
      r < nodeWidth n ∧ parent l n = .ok (x, true) ∧ parent r n = .ok (x, true)) ∧
    (x = root n → parent x n = .ok (0, false) ∧ sibling x n = .ok (0, false)) ∧
    (x ≠ root n → ∃ p l r s, parent x n = .ok (p, true) ∧ p < nodeWidth n ∧ left p = (l, true) ∧
      right p n = .ok (r, true) ∧ (x = l ∧ x ≠ r ∨ x = r ∧ x ≠ l) ∧ sibling x n = .ok (s, true) ∧
      s < nodeWidth n ∧ s ≠ x ∧ sibling s n = .ok (x, true)) ∧
    Relation.ReflTransGen (Climbs n) x (root n) := by
  rw [nodeWidth_eq hpos hle] at hin ⊢
  obtain ⟨hparent, hsibling⟩ := checked_parent_sibling hpos hle hin
  refine ⟨⟨checked_nodeWidth hpos hle, checked_root hpos hle,
    Checked.left_eq (by omega), checked_right_inside hpos hle hin, hparent, hsibling⟩,
    ?_, ?_, ?_, ?_, climbs_root hpos hle hin⟩
  · intro hleaf
    obtain ⟨hleft, hright, -⟩ := leaf_children (n := n) hleaf (by omega)
    exact ⟨hleft, hright⟩
  · intro hinternal
    obtain ⟨l, r, hfamily⟩ := internal_family hpos hle hinternal hin
    exact ⟨l, r, hfamily.left_eq, hfamily.right_eq, hfamily.left_inside,
      hfamily.right_inside, hfamily.parent_left, hfamily.parent_right⟩
  · rintro rfl
    obtain ⟨hnoParent, -, hnoSibling, -⟩ := root_has_no_parent hpos hle
    exact ⟨hnoParent, hnoSibling⟩
  · intro hroot
    obtain ⟨p, l, r, hfamily, rfl | rfl⟩ := exists_family_of_ne_root hpos hle hin hroot
    · exact ⟨p, x, r, r, hfamily.parent_left, hfamily.parent_inside, hfamily.left_eq,
        hfamily.right_eq, .inl ⟨rfl, hfamily.ne⟩, hfamily.sibling_left,
        hfamily.right_inside, hfamily.ne.symm, hfamily.sibling_right⟩
    · exact ⟨p, l, x, l, hfamily.parent_right, hfamily.parent_inside, hfamily.left_eq,
        hfamily.right_eq, .inr ⟨rfl, hfamily.ne.symm⟩, hfamily.sibling_right,
        hfamily.left_inside, hfamily.ne, hfamily.sibling_left⟩

/-- One leaf more than a full tree of height thirty: the new leaf hangs from the root,
and the two loops pass the same thirty levels. -/
theorem node_indices_form_tree_new_leaf :
    right (2 ^ 31 - 1) (2 ^ 30 + 1) = .ok (2 ^ 31, true) ∧
      parent (2 ^ 31) (2 ^ 30 + 1) = .ok (2 ^ 31 - 1, true) := by
  have hright : right (2 ^ 31 - 1) (2 ^ 30 + 1) = .ok (2 ^ 31, true) := by
    decide +kernel
  obtain ⟨-, -, hinternal, -⟩ :=
    node_indices_form_tree (n := 2 ^ 30 + 1) (x := 2 ^ 31 - 1) (by norm_num)
      (by norm_num) (by decide)
  obtain ⟨l, r, -, hchild, -, -, -, hparent⟩ := hinternal (by norm_num)
  rw [hright, Except.ok.injEq, Prod.mk.injEq] at hchild
  obtain ⟨rfl, -⟩ := hchild
  exact ⟨hright, hparent⟩

end MlsGo
