import MlsGo.InOrderLayout
import MlsGo.GoOutcome

/-!
# Node-index arithmetic of the ratchet tree

File `math.go`.  Indices are `uint32` values, represented by natural numbers
with the reductions modulo `2 ^ 32` written out.  The loops of `Right` and
`Parent` carry fuel: an index has at most thirty-two levels, so a loop that
has not stopped after thirty-three rounds never stops.

In a full tree every index is an in-order position, and each function is one
move between positions.
-/

namespace MlsGo

open InOrderLayout

def u32 (x : ℕ) : ℕ := x % 2 ^ 32

def nodeWidth (nLeaves : ℕ) : ℕ := if nLeaves = 0 then 0 else u32 (2 * (nLeaves - 1) + 1)

def levelLoop : ℕ → ℕ → ℕ → ℕ
  | 0, _, k => k
  | fuel + 1, x, k => if (x >>> k) &&& 1 = 1 then levelLoop fuel x (k + 1) else k

/-- Number of trailing one bits.  The loop leaves a 32-bit index after at most
thirty-two rounds. -/
def level (x : ℕ) : ℕ := if x &&& 1 = 0 then 0 else levelLoop 32 x 0

def root (nLeaves : ℕ) : ℕ := 1 <<< Nat.log2 (nodeWidth nLeaves) - 1

def left (x : ℕ) : ℕ × Bool :=
  let k := level x
  if k = 0 then (0, false) else (x ^^^ (1 <<< (k - 1)), true)

/-- The loop of `Right` that descends the left spine into the array. -/
def clampLeft (w : ℕ) : ℕ → ℕ → Result ℕ
  | 0, _ => .error .diverge
  | fuel + 1, r => if r < w then .ok r else clampLeft w fuel (left r).1

def right (x nLeaves : ℕ) : Result (ℕ × Bool) :=
  let k := level x
  if k = 0 then .ok (0, false)
  else do
    let r ← clampLeft (nodeWidth nLeaves) 34 (x ^^^ u32 (3 <<< (k - 1)))
    return (r, true)

def parentStep (x : ℕ) : ℕ :=
  let k := level x
  let b := (x >>> (k + 1)) &&& 1
  (x ||| u32 (1 <<< k)) ^^^ u32 (b <<< (k + 1))

/-- The loop of `Parent` that climbs until it is inside the array. -/
def climbInside (w : ℕ) : ℕ → ℕ → Result ℕ
  | 0, _ => .error .diverge
  | fuel + 1, p => if p < w then .ok p else climbInside w fuel (parentStep p)

def parent (x nLeaves : ℕ) : Result (ℕ × Bool) :=
  if x = root nLeaves then .ok (0, false)
  else do
    let p ← climbInside (nodeWidth nLeaves) 34 (parentStep x)
    return (p, true)

def sibling (x nLeaves : ℕ) : Result (ℕ × Bool) := do
  let (p, ok) ← parent x nLeaves
  if ok then
    let (l, _) := left p
    let (r, _) ← right p nLeaves
    return (if l = x then r else l, true)
  else return (0, false)

def subtreeContains (root node : ℕ) : Bool :=
  let half := u32 (u32 (1 <<< level root) + 2 ^ 32 - 1)
  node ≥ u32 (root + 2 ^ 32 - half) && node ≤ u32 (root + half)

/-! ## Bits of a position -/

theorem testBit_inorder (k j i : ℕ) :
    (inorder k j).testBit i = if i < k then true else if i = k then false
      else j.testBit (i - k - 1) := by
  have hsplit : inorder k j = 2 ^ k * (2 * j) + (2 ^ k - 1) := by
    have hpos := Nat.two_pow_pos k
    have hone := inorder_add_one k j
    have hmul : 2 ^ k * (2 * j + 1) = 2 ^ k * (2 * j) + 2 ^ k := by ring
    omega
  have hlow : 2 ^ k - 1 < 2 ^ k := Nat.sub_lt (Nat.two_pow_pos k) one_pos
  rw [hsplit, Nat.testBit_two_pow_mul_add _ hlow]
  by_cases hik : i < k
  · simp [hik]
  · by_cases heq : i = k
    · subst heq
      simp
    · rw [if_neg hik, if_neg hik, if_neg heq]
      have hshift : i - k = (i - k - 1) + 1 := by omega
      rw [hshift, Nat.testBit_succ]
      simp

theorem testBit_shiftRight_and_one (x k : ℕ) : (x >>> k) &&& 1 = 1 ↔ x.testBit k = true := by
  rw [Nat.testBit, Nat.one_and_eq_mod_two, Nat.and_one_is_mod]
  simp

theorem levelLoop_inorder (k j : ℕ) :
    ∀ fuel i, i ≤ k → k ≤ i + fuel → levelLoop fuel (inorder k j) i = k := by
  intro fuel
  induction fuel with
  | zero =>
      intro i hik hki
      simp only [levelLoop]
      omega
  | succ fuel ih =>
      intro i hik hki
      simp only [levelLoop, testBit_shiftRight_and_one, testBit_inorder]
      by_cases hlt : i < k
      · simp only [hlt, if_true]
        exact ih (i + 1) hlt (by omega)
      · have heq : i = k := by omega
        simp [heq]

variable {j k : ℕ}

theorem level_le_of_inorder_lt (hlt : inorder k j < 2 ^ 32) : k ≤ 32 := by
  by_contra hk
  have hpow : 2 ^ 33 ≤ 2 ^ k := Nat.pow_le_pow_right (by norm_num) (by omega)
  have hone := inorder_add_one k j
  have hmul : 2 ^ k * 1 ≤ 2 ^ k * (2 * j + 1) := Nat.mul_le_mul_left _ (by omega)
  omega

theorem level_inorder (hlt : inorder k j < 2 ^ 32) : level (inorder k j) = k := by
  have hk := level_le_of_inorder_lt hlt
  have hbit := testBit_shiftRight_and_one (inorder k j) 0
  rw [testBit_inorder, Nat.shiftRight_zero] at hbit
  unfold level
  by_cases hzero : k = 0
  · subst hzero
    have hodd : ¬ inorder 0 j &&& 1 = 1 := by simp
    have hmod : inorder 0 j &&& 1 = inorder 0 j % 2 := Nat.and_one_is_mod _
    rw [if_pos (by omega)]
  · have hone : inorder k j &&& 1 = 1 := hbit.mpr (by simp; omega)
    rw [if_neg (by omega)]
    exact levelLoop_inorder k j 32 0 (by omega) (by omega)

theorem left_inorder_zero (hlt : inorder 0 j < 2 ^ 32) : left (inorder 0 j) = (0, false) := by
  simp only [left, level_inorder hlt, if_true]

theorem left_inorder (hlt : inorder (k + 1) j < 2 ^ 32) :
    left (inorder (k + 1) j) = (inorder k (2 * j), true) := by
  have hbits : inorder (k + 1) j ^^^ 1 <<< k = inorder k (2 * j) := by
    apply Nat.eq_of_testBit_eq
    intro i
    rw [Nat.testBit_xor, testBit_inorder, testBit_inorder, Nat.one_shiftLeft, Nat.testBit_two_pow]
    rcases Nat.lt_trichotomy i k with hik | rfl | hik
    · simp [hik, hik.ne', show i < k + 1 by omega]
    · simp
    · have hcomm : i - k - 1 = (i - (k + 1)) := by omega
      by_cases heq : i = k + 1
      · subst heq
        simp
      · have hsucc : i - k - 1 = (i - (k + 1) - 1) + 1 := by omega
        rw [if_neg (by omega), if_neg heq, if_neg (by omega),
          if_neg (by omega), hsucc, Nat.testBit_succ]
        simp [show k ≠ i by omega]
  simp only [left, level_inorder hlt, Nat.succ_ne_zero, if_false, Nat.add_sub_cancel, hbits]

theorem xor_three_inorder (k j : ℕ) : inorder (k + 1) j ^^^ 3 <<< k = inorder k (2 * j + 1) := by
  have hthree : ∀ i, (3 <<< k).testBit i = decide (i = k ∨ i = k + 1) := by
    intro i
    rw [Nat.testBit_shiftLeft]
    rcases Nat.lt_trichotomy i k with hik | rfl | hik
    · simp [show ¬ k ≤ i by omega]
      omega
    · simp
    · by_cases heq : i = k + 1
      · subst heq
        simp
        decide
      · have h2 : i - k = (i - k - 2) + 1 + 1 := by omega
        rw [h2]
        simp [Nat.testBit_succ, heq]
        omega
  apply Nat.eq_of_testBit_eq
  intro i
  rw [Nat.testBit_xor, testBit_inorder, testBit_inorder, hthree]
  rcases Nat.lt_trichotomy i k with hik | rfl | hik
  · simp [hik, show i < k + 1 by omega, hik.ne]
    omega
  · simp
  · by_cases heq : i = k + 1
    · subst heq
      simp
    · have hsucc : i - k - 1 = (i - (k + 1) - 1) + 1 := by omega
      rw [if_neg (by omega), if_neg heq, if_neg (by omega),
        if_neg (by omega), hsucc, Nat.testBit_succ]
      have hdiv : (2 * j + 1) / 2 = j := by omega
      have hoff : ¬ (i = k ∨ i = k + 1) := by omega
      simp [hdiv, hoff]

theorem shiftRight_inorder (k j : ℕ) : (inorder k j >>> (k + 1)) &&& 1 = j % 2 := by
  have hmod : (inorder k j >>> (k + 1)) &&& 1 < 2 := by
    rw [Nat.and_one_is_mod]
    omega
  have htest := testBit_shiftRight_and_one (inorder k j) (k + 1)
  rw [testBit_inorder, if_neg (by omega), if_neg (by omega)] at htest
  simp only [Nat.add_sub_cancel_left, Nat.sub_self, Nat.testBit_zero, decide_eq_true_eq] at htest
  omega

theorem parentStep_shifts (hk : k < 32) (hself : inorder k j < 2 ^ 32) :
    1 <<< k < 2 ^ 32 ∧ (j % 2) <<< (k + 1) < 2 ^ 32 := by
  have hone := inorder_add_one k j
  have hpow : 2 ^ k * (2 * j + 1) = 2 ^ (k + 1) * j + 2 ^ k := by ring
  have hle : 2 ^ (k + 1) * (j % 2) ≤ 2 ^ (k + 1) * j := Nat.mul_le_mul_left _ (Nat.mod_le j 2)
  have hpos := Nat.two_pow_pos k
  constructor
  · rw [Nat.one_shiftLeft]
    exact Nat.pow_lt_pow_right (by norm_num) hk
  · rw [Nat.shiftLeft_eq, mul_comm]
    omega

theorem parentStep_inorder (hk : k < 32) (hself : inorder k j < 2 ^ 32) :
    parentStep (inorder k j) = inorder (k + 1) (j / 2) := by
  have hbit := shiftRight_inorder k j
  obtain ⟨hfirst, hsecond⟩ := parentStep_shifts hk hself
  have hlow : u32 (1 <<< k) = 2 ^ k := by
    rw [u32, Nat.mod_eq_of_lt hfirst, Nat.one_shiftLeft]
  have hhigh : u32 ((j % 2) <<< (k + 1)) = 2 ^ (k + 1) * (j % 2) := by
    rw [u32, Nat.mod_eq_of_lt hsecond, Nat.shiftLeft_eq, mul_comm]
  simp only [parentStep, level_inorder hself, hbit, hlow, hhigh]
  apply Nat.eq_of_testBit_eq
  intro i
  rw [Nat.testBit_xor, Nat.testBit_or, testBit_inorder, testBit_inorder,
    Nat.testBit_two_pow, Nat.testBit_two_pow_mul]
  rcases Nat.lt_trichotomy i (k + 1) with hik | rfl | hik
  · have hoff : ¬ k + 1 ≤ i := by omega
    by_cases heq : i = k
    · subst heq
      simp
    · have hlt : i < k := by omega
      simp [hlt, hik, hoff]
  · have hzero : (j % 2).testBit 0 = j.testBit 0 := by simp
    simp
  · have hsucc : i - k - 1 = (i - (k + 1) - 1) + 1 := by omega
    have hoff : (j % 2).testBit (i - (k + 1)) = false := by
      apply Nat.testBit_lt_two_pow
      have hexp : 2 ^ 1 ≤ 2 ^ (i - (k + 1)) := Nat.pow_le_pow_right (by norm_num) (by omega)
      omega
    rw [if_neg (by omega), if_neg (by omega), if_neg (by omega),
      if_neg (by omega), hsucc, Nat.testBit_succ, hoff]
    simp [show k ≠ i by omega]

/-! ## Moves inside a full tree -/

variable {height : ℕ}

theorem two_pow_sub (hk : k < height) : 2 ^ (height - k) = 2 * 2 ^ (height - (k + 1)) := by
  rw [← pow_succ']
  congr 1
  omega

theorem half_lt_two_pow (hk : k < height)
    (hj : j < 2 ^ (height - k)) : j / 2 < 2 ^ (height - (k + 1)) := by
  have hpow := two_pow_sub hk
  omega

theorem treeWidth_lt (hheight : height ≤ 31) : treeWidth height < 2 ^ 32 := by
  have hadd := treeWidth_add_one height
  have hle : 2 ^ (height + 1) ≤ 2 ^ 32 := Nat.pow_le_pow_right (by norm_num) (by omega)
  omega

theorem nodeWidth_full (hheight : height ≤ 31) : nodeWidth (2 ^ height) = treeWidth height := by
  have hlt := treeWidth_lt hheight
  have hadd := treeWidth_add_one height
  have hpos := Nat.two_pow_pos height
  have hpow : 2 ^ (height + 1) = 2 * 2 ^ height := by ring
  rw [nodeWidth, if_neg (by omega), u32, Nat.mod_eq_of_lt (by omega)]
  omega

theorem root_full (hheight : height ≤ 31) : root (2 ^ height) = inorder height 0 := by
  have hadd := treeWidth_add_one height
  have hpow : 2 ^ (height + 1) = 2 * 2 ^ height := by ring
  have hpos := Nat.two_pow_pos height
  have hlog : Nat.log2 (treeWidth height) = height := by
    rw [Nat.log2_eq_iff (by omega)]
    omega
  rw [root, nodeWidth_full hheight, hlog, Nat.one_shiftLeft, inorder]
  simp

theorem three_shiftLeft_lt (hk : k ≤ 30) : 3 <<< k < 2 ^ 32 := by
  have hpow : 2 ^ k ≤ 2 ^ 30 := Nat.pow_le_pow_right (by norm_num) hk
  rw [Nat.shiftLeft_eq]
  omega

theorem right_inorder (hheight : height ≤ 31) (hinside : inorder (k + 1) j < treeWidth height) :
    right (inorder (k + 1) j) (2 ^ height) = .ok (inorder k (2 * j + 1), true) := by
  have hself : inorder (k + 1) j < 2 ^ 32 := hinside.trans (treeWidth_lt hheight)
  obtain ⟨hkh, hj⟩ := inorder_lt_treeWidth.mp hinside
  have hchild : inorder k (2 * j + 1) < treeWidth height := by
    refine inorder_lt_treeWidth.mpr ⟨by omega, ?_⟩
    have hpow := two_pow_sub (show k < height by omega)
    omega
  have hshift : u32 (3 <<< k) = 3 <<< k := Nat.mod_eq_of_lt (three_shiftLeft_lt (by omega))
  simp only [right, level_inorder hself, Nat.succ_ne_zero, if_false, Nat.add_sub_cancel, hshift,
    xor_three_inorder, nodeWidth_full hheight, clampLeft, hchild, if_true, ok_bind, pure_eq_ok]

theorem parent_inorder (hheight : height ≤ 31) (hk : k < height) (hj : j < 2 ^ (height - k)) :
    parent (inorder k j) (2 ^ height) = .ok (inorder (k + 1) (j / 2), true) := by
  have hinside : inorder k j < treeWidth height := inorder_lt_treeWidth.mpr ⟨hk.le, hj⟩
  have hparent : inorder (k + 1) (j / 2) < treeWidth height :=
    inorder_lt_treeWidth.mpr ⟨hk, half_lt_two_pow hk hj⟩
  have hne : inorder k j ≠ inorder height 0 := by
    rw [Ne, inorder_inj]
    omega
  rw [parent, root_full hheight, if_neg hne, parentStep_inorder (by omega)
    (hinside.trans (treeWidth_lt hheight)), nodeWidth_full hheight]
  simp [climbInside, hparent]

def siblingRank (j : ℕ) : ℕ := if j % 2 = 0 then j + 1 else j - 1

theorem sibling_inorder (hheight : height ≤ 31) (hk : k < height) (hj : j < 2 ^ (height - k)) :
    sibling (inorder k j) (2 ^ height) = .ok (inorder k (siblingRank j), true) := by
  have hparent : inorder (k + 1) (j / 2) < treeWidth height :=
    inorder_lt_treeWidth.mpr ⟨hk, half_lt_two_pow hk hj⟩
  simp only [sibling, parent_inorder hheight hk hj, ok_bind, if_true,
    right_inorder hheight hparent, left_inorder (hparent.trans (treeWidth_lt hheight)),
    pure_eq_ok, inorder_inj, true_and, siblingRank]
  by_cases heven : j % 2 = 0
  · rw [if_pos (by omega), if_pos heven, show 2 * (j / 2) + 1 = j + 1 by omega]
  · rw [if_neg (by omega), if_neg heven, show 2 * (j / 2) = j - 1 by omega]

theorem subtreeContains_inorder {x : ℕ} (hheight : height ≤ 31)
    (hinside : inorder k j < treeWidth height) :
    subtreeContains (inorder k j) x = true ↔
      2 ^ (k + 1) * j ≤ x ∧ x + 2 ≤ 2 ^ (k + 1) * (j + 1) := by
  have hwidth := treeWidth_lt hheight
  obtain ⟨hkh, hj⟩ := inorder_lt_treeWidth.mp hinside
  have hk : 2 ^ k ≤ 2 ^ 31 := Nat.pow_le_pow_right (by norm_num) (by omega)
  have hpos := Nat.two_pow_pos k
  have hone := inorder_add_one k j
  have hexp : 2 ^ k * (2 * j + 1) = 2 ^ (k + 1) * j + 2 ^ k := by ring
  have hexp' : 2 ^ (k + 1) * (j + 1) = 2 ^ (k + 1) * j + 2 * 2 ^ k := by ring
  have htop : 2 ^ (k + 1) * (j + 1) ≤ 2 ^ (height + 1) := by
    have hpow : 2 ^ (height + 1) = 2 ^ (k + 1) * 2 ^ (height - k) := by
      rw [← pow_add]
      congr 1
      omega
    rw [hpow]
    exact Nat.mul_le_mul_left _ hj
  have hadd := treeWidth_add_one height
  simp only [subtreeContains, level_inorder (hinside.trans hwidth),
    Bool.and_eq_true, decide_eq_true_eq, u32]
  omega

end MlsGo
