import MlsGo.JoinerKeys
import MlsGo.TreeIndices

/-!
# Subtrees, path children and common ancestors as one relation

Three functions of the source look upwards in a full tree, each in its own way:
`subtreeContains` compares an index with an interval, `pathChild` tests the left child
and otherwise takes the right one, `commonAncestor` climbs from two leaves at once.
All three are determined by the steps of `Parent`.  In the coordinates of a full tree
to climb from `(i, m)` to `(k, j)` is to lie below it, and the rest is arithmetic.

A tree of `2 ^ 31` leaves is the exception for `pathChild`: the array has `2 ^ 32 - 1`
slots, `leafCount` wraps around to zero, and `Right` descends for ever.
-/

namespace MlsGo

open InOrderLayout RatchetTree

variable {h k j i m : ℕ} {x p : ℕ}

/-! ## Climbing in a full tree -/

section Climbing

variable (hh : h ≤ 31)

include hh

theorem climbs_iff (hin : Inside h i m) {y : ℕ} :
    Climbs (2 ^ h) (inorder i m) y ↔ i < h ∧ y = inorder (i + 1) (m / 2) := by
  rcases hin.1.lt_or_eq with hlt | rfl
  · rw [Climbs, parent_inorder hh hlt hin.2]
    simp [hlt, eq_comm]
  · obtain rfl : m = 0 := by simpa using hin.2
    rw [Climbs, parent, root_full hh, if_pos rfl]
    simp

omit hh in
theorem below_parent_iff : Below k j (i + 1) (m / 2) ↔ i < k ∧ Below k j i m := by
  unfold Below
  constructor
  · rintro ⟨hik, hdiv⟩
    refine ⟨hik, by omega, ?_⟩
    rw [show k - i = 1 + (k - (i + 1)) by omega, pow_add, ← Nat.div_div_eq_div_mul]
    exact hdiv
  · rintro ⟨hik, -, hdiv⟩
    refine ⟨hik, ?_⟩
    rw [show k - i = 1 + (k - (i + 1)) by omega, pow_add, ← Nat.div_div_eq_div_mul] at hdiv
    exact hdiv

theorem reflTransGen_climbs_iff (hin : Inside h i m) (hk : k ≤ h) :
    Relation.ReflTransGen (Climbs (2 ^ h)) (inorder i m) (inorder k j) ↔ Below k j i m := by
  constructor
  · intro hreach
    generalize hx : inorder i m = x at hreach
    induction hreach using Relation.ReflTransGen.head_induction_on generalizing i m with
    | refl =>
        obtain ⟨rfl, rfl⟩ := inorder_inj.mp hx
        exact Below.self _ _
    | head hstep _ ih =>
        rw [← hx, climbs_iff hh hin] at hstep
        obtain ⟨hlt, hnext⟩ := hstep
        exact (below_parent_iff.mp (ih (hin.parent hlt) hnext.symm)).2
  · intro hbelow
    induction hdist : k - i generalizing i m with
    | zero =>
        obtain ⟨hik, hdiv⟩ := hbelow
        obtain rfl : i = k := by omega
        rw [hdist, pow_zero, Nat.div_one] at hdiv
        rw [hdiv]
    | succ d ih =>
        have hlt : i < k := by omega
        have hstep : Climbs (2 ^ h) (inorder i m) (inorder (i + 1) (m / 2)) :=
          (climbs_iff hh hin).mpr ⟨by omega, rfl⟩
        exact .head hstep (ih (hin.parent (by omega))
          (below_parent_iff.mpr ⟨hlt, hbelow⟩) (by omega))

theorem transGen_climbs_iff (hin : Inside h i m) (hk : k ≤ h) :
    Relation.TransGen (Climbs (2 ^ h)) (inorder i m) (inorder k j) ↔ i < k ∧ Below k j i m := by
  rw [Relation.TransGen.head'_iff]
  constructor
  · rintro ⟨y, hstep, hreach⟩
    obtain ⟨hlt, rfl⟩ := (climbs_iff hh hin).mp hstep
    exact below_parent_iff.mp ((reflTransGen_climbs_iff hh (hin.parent hlt) hk).mp hreach)
  · intro hbelow
    have hlt : i < h := by omega
    exact ⟨inorder (i + 1) (m / 2), (climbs_iff hh hin).mpr ⟨hlt, rfl⟩,
      (reflTransGen_climbs_iff hh (hin.parent hlt) hk).mpr (below_parent_iff.mpr hbelow)⟩

omit hh in
theorem exists_inside (hx : x < treeWidth h) : ∃ k j, x = inorder k j ∧ Inside h k j := by
  obtain ⟨k, j, rfl⟩ := exists_inorder x
  exact ⟨k, j, rfl, inside_iff.mpr hx⟩

theorem subtreeContains_iff_climbs {r : ℕ} (hr : r < treeWidth h) (hx : x < treeWidth h) :
    subtreeContains r x = true ↔ Relation.ReflTransGen (Climbs (2 ^ h)) x r := by
  obtain ⟨k, j, rfl, hrin⟩ := exists_inside hr
  obtain ⟨i, m, rfl, hxin⟩ := exists_inside hx
  rw [hrin.subtreeContains_iff hh, reflTransGen_climbs_iff hh hxin hrin.1]

end Climbing

/-! ## The child towards a node -/

section Children

variable {t : RatchetTree}

theorem clampLeft_zero (fuel r : ℕ) : clampLeft 0 fuel r = .error .diverge := by
  induction fuel generalizing r with
  | zero => rfl
  | succ fuel ih =>
      rw [clampLeft, if_neg (Nat.not_lt_zero r)]
      exact ih _

theorem right_zero (hlt : inorder (k + 1) j < 2 ^ 32) :
    right (inorder (k + 1) j) 0 = .error .diverge := by
  have hwidth : nodeWidth 0 = 0 := if_pos rfl
  simp only [right, level_inorder hlt, Nat.succ_ne_zero, if_false, hwidth,
    clampLeft_zero, error_bind]

theorem leafCount_largest (hlen : t.nodes.length = treeWidth 31) : t.leafCount = 0 := by
  rw [leafCount, width, hlen]
  rfl

theorem exists_child_of_transGen (hh : h ≤ 31) (hp : p < treeWidth h)
    (hx : x < treeWidth h) (hbelow : Relation.TransGen (Climbs (2 ^ h)) x p) :
    ∃ k j b i m, p = inorder (k + 1) j ∧ Inside h (k + 1) j ∧ b < 2 ∧
      x = inorder i m ∧ Inside h i m ∧ Below k (2 * j + b) i m := by
  obtain ⟨k, j, rfl, hpin⟩ := exists_inside hp
  obtain ⟨i, m, rfl, hxin⟩ := exists_inside hx
  obtain ⟨hik, hbelow⟩ := (transGen_climbs_iff hh hxin hpin.1).mp hbelow
  cases k with
  | zero => omega
  | succ k =>
      rcases hbelow.cases with ⟨rfl, -⟩ | ⟨b, hb, hchild⟩
      · omega
      · exact ⟨k, j, b, i, m, rfl, hpin, hb, rfl, hxin, hchild⟩

theorem child_on_path (hh : h ≤ 31) {b : ℕ} (hb : b < 2) (hpin : Inside h (k + 1) j)
    (hxin : Inside h i m) (hchild : Below k (2 * j + b) i m) :
    Climbs (2 ^ h) (inorder k (2 * j + b)) (inorder (k + 1) j) ∧
      Relation.ReflTransGen (Climbs (2 ^ h)) (inorder i m) (inorder k (2 * j + b)) := by
  have hcin := hpin.child hb
  refine ⟨(climbs_iff hh hcin).mpr ⟨hpin.1, ?_⟩,
    (reflTransGen_climbs_iff hh hxin hcin.1).mpr hchild⟩
  rw [show (2 * j + b) / 2 = j by omega]

theorem pathChild_on_path (hh : h ≤ 31) (hlen : t.nodes.length = treeWidth h)
    (hp : p < treeWidth h) (hx : x < treeWidth h) (hbelow : Relation.TransGen (Climbs (2 ^ h)) x p)
    (hreturns : h ≤ 30 ∨ subtreeContains (left p).1 x = true) :
    ∃ c, t.pathChild p x = .ok c ∧ Climbs (2 ^ h) c p ∧
      Relation.ReflTransGen (Climbs (2 ^ h)) x c := by
  obtain ⟨k, j, b, i, m, rfl, hpin, hb, rfl, hxin, hchild⟩ :=
    exists_child_of_transGen hh hp hx hbelow
  have hpath := child_on_path hh hb hpin hxin hchild
  refine ⟨inorder k (2 * j + b), ?_, hpath⟩
  rcases hreturns with hle | hleft
  · exact Full.pathChild_of_below ⟨hlen, hle⟩ hpin hb hchild
  · obtain rfl : b = 0 := (hpin.left_contains_iff hh hchild).mp hleft
    rw [hpin.pathChild_eq hh t hchild, if_pos rfl, add_zero]

theorem pathChild_diverges (hlen : t.nodes.length = treeWidth 31) (hp : p < treeWidth 31)
    (hx : x < treeWidth 31) (hbelow : Relation.TransGen (Climbs (2 ^ 31)) x p)
    (hright : subtreeContains (left p).1 x = false) :
    t.pathChild p x = .error .diverge := by
  obtain ⟨k, j, b, i, m, rfl, hpin, hb, rfl, hxin, hchild⟩ :=
    exists_child_of_transGen le_rfl hp hx hbelow
  have hne : b ≠ 0 := by
    intro hzero
    rw [(hpin.left_contains_iff le_rfl hchild).mpr hzero] at hright
    cases hright
  rw [hpin.pathChild_eq le_rfl t hchild, if_neg hne, leafCount_largest hlen,
    right_zero (hp.trans (treeWidth_lt le_rfl)), error_bind]

end Children

/-! ## The lowest common ancestor -/

theorem commonAncestor_lowest (hh : h ≤ 31) {a b : ℕ} (ha : a < 2 ^ h) (hb : b < 2 ^ h) :
    ∃ c, commonAncestor (2 * a) (2 * b) (2 ^ h) = .ok c ∧ c < treeWidth h ∧
      subtreeContains c (2 * a) = true ∧ subtreeContains c (2 * b) = true ∧
      (∀ r < treeWidth h, subtreeContains r (2 * a) = true → subtreeContains r (2 * b) = true →
        Relation.ReflTransGen (Climbs (2 ^ h)) c r) ∧
      (a ≠ b → Relation.TransGen (Climbs (2 ^ h)) (2 * a) c ∧
        Relation.TransGen (Climbs (2 ^ h)) (2 * b) c) := by
  obtain ⟨k, hk, hmeet, hapart⟩ := exists_meet hb ha
  have hcin : Inside h k (a / 2 ^ k) := inside_ancestor ha hk
  have hleaf : ∀ {L}, L < 2 ^ h → Inside h 0 L := fun hL => ⟨Nat.zero_le h, hL⟩
  simp only [← inorder_zero]
  refine ⟨inorder k (a / 2 ^ k), commonAncestor_of_meet hh hb ha hk hmeet hapart,
    inside_iff.mp hcin, ?_, ?_, ?_, ?_⟩
  · rw [hcin.subtreeContains_iff hh, below_leaf_iff]
  · rw [hcin.subtreeContains_iff hh, below_leaf_iff, hmeet]
  · intro r hr hra hrb
    obtain ⟨k', j', rfl, hrin⟩ := exists_inside hr
    rw [hrin.subtreeContains_iff hh, below_leaf_iff] at hra hrb
    have hle : k ≤ k' := by
      by_contra hlt
      exact hapart k' (by omega) (hrb.trans hra.symm)
    rw [reflTransGen_climbs_iff hh hcin hrin.1]
    refine ⟨hle, ?_⟩
    rw [Nat.div_div_eq_div_mul, ← pow_add, Nat.add_sub_cancel' hle, hra]
  · intro hne
    have hpos : 0 < k := by
      refine Nat.pos_of_ne_zero ?_
      rintro rfl
      rw [pow_zero, Nat.div_one, Nat.div_one] at hmeet
      exact hne hmeet.symm
    rw [transGen_climbs_iff hh (hleaf ha) hk, transGen_climbs_iff hh (hleaf hb) hk,
      below_leaf_iff, below_leaf_iff]
    exact ⟨⟨hpos, rfl⟩, hpos, hmeet⟩

/-! ## The three functions together -/

/-- In a full tree of up to `2 ^ 31` leaves the interval test is the ancestor relation
of `Parent`, and the common ancestor of two leaves is the lowest node above both.
The child that `pathChild` returns is the one on the path; with `2 ^ 31` leaves it
returns for the left subtree only. -/
theorem ancestors_follow_parent (hh : h ≤ 31) :
    (∀ r x, r < nodeWidth (2 ^ h) → x < nodeWidth (2 ^ h) →
      (subtreeContains r x = true ↔ Relation.ReflTransGen (Climbs (2 ^ h)) x r)) ∧
    (∀ t : RatchetTree, t.nodes.length = nodeWidth (2 ^ h) →
      ∀ p x, p < nodeWidth (2 ^ h) → x < nodeWidth (2 ^ h) →
      Relation.TransGen (Climbs (2 ^ h)) x p →
      (h ≤ 30 ∨ subtreeContains (left p).1 x = true →
        ∃ c, t.pathChild p x = .ok c ∧ Climbs (2 ^ h) c p ∧
          Relation.ReflTransGen (Climbs (2 ^ h)) x c) ∧
      (h = 31 → subtreeContains (left p).1 x = false → t.pathChild p x = .error .diverge)) ∧
    (∀ a b, a < 2 ^ h → b < 2 ^ h →
      ∃ c, commonAncestor (2 * a) (2 * b) (2 ^ h) = .ok c ∧ c < nodeWidth (2 ^ h) ∧
        subtreeContains c (2 * a) = true ∧ subtreeContains c (2 * b) = true ∧
        (∀ r < nodeWidth (2 ^ h), subtreeContains r (2 * a) = true → subtreeContains r (2 * b) =
          true → Relation.ReflTransGen (Climbs (2 ^ h)) c r) ∧
        (a ≠ b → Relation.TransGen (Climbs (2 ^ h)) (2 * a) c ∧
          Relation.TransGen (Climbs (2 ^ h)) (2 * b) c)) := by
  rw [nodeWidth_full hh]
  refine ⟨fun r x hr hx => subtreeContains_iff_climbs hh hr hx, ?_,
    fun a b ha hb => commonAncestor_lowest hh ha hb⟩
  intro t hlen p x hp hx hbelow
  refine ⟨pathChild_on_path hh hlen hp hx hbelow, ?_⟩
  rintro rfl hright
  exact pathChild_diverges hlen hp hx hbelow hright

/-- The outermost leaves of the largest tree meet at the root. -/
theorem ancestors_follow_parent_outermost :
    ∃ c, commonAncestor 0 (2 ^ 32 - 2) (2 ^ 31) = .ok c ∧ Relation.TransGen (Climbs (2 ^ 31)) 0 c ∧
      Relation.TransGen (Climbs (2 ^ 31)) (2 ^ 32 - 2) c := by
  obtain ⟨-, -, hcommon⟩ := ancestors_follow_parent (h := 31) le_rfl
  obtain ⟨c, hc, -, -, -, -, hpaths⟩ := hcommon 0 (2 ^ 31 - 1) (by norm_num) (by norm_num)
  obtain ⟨hfirst, hlast⟩ := hpaths (by norm_num)
  exact ⟨c, hc, hfirst, hlast⟩

/-- A tree of `2 ^ 31` blank leaves: the right child of the root is one step below the
root, and the search for it never ends. -/
theorem pathChild_of_largest_tree :
    ∃ t : RatchetTree, t.nodes.length = nodeWidth (2 ^ 31) ∧
      Climbs (2 ^ 31) (3 * 2 ^ 30 - 1) (2 ^ 31 - 1) ∧
      t.pathChild (2 ^ 31 - 1) (3 * 2 ^ 30 - 1) = .error .diverge := by
  have hwidth : nodeWidth (2 ^ 31) = treeWidth 31 := nodeWidth_full le_rfl
  have hstep : Climbs (2 ^ 31) (3 * 2 ^ 30 - 1) (2 ^ 31 - 1) := by
    unfold Climbs
    decide +kernel
  refine ⟨⟨List.replicate (treeWidth 31) none⟩, ?_, hstep, ?_⟩
  · rw [List.length_replicate, hwidth]
  · exact pathChild_diverges List.length_replicate (by decide) (by decide)
      (.single hstep) (by decide +kernel)

end MlsGo
