import MlsGo.LeafChanges
import MlsGo.TreeKem

/-!
# Resolutions and paths by slots

The resolution of a slot of a full tree as a recursion on its level, and the
filtered direct path of a leaf as the list of the levels whose copath slot has
a non-empty resolution.
-/

namespace MlsGo

namespace RatchetTree

open InOrderLayout

variable {t t' : RatchetTree} {h k j L : ℕ} {b i m : ℕ}

/-! ## Resolutions -/

def nodeResolution (i : ℕ) : Node → List ℕ
  | .leaf _ => [i]
  | .parent p => i :: p.unmergedLeaves.map fun leaf => u32 (2 * leaf.toNat)

def resolutionAt (t : RatchetTree) : ℕ → ℕ → List ℕ
  | 0, j =>
      match t.slot 0 j with
      | some n => nodeResolution (inorder 0 j) n
      | none => []
  | k + 1, j =>
      match t.slot (k + 1) j with
      | some n => nodeResolution (inorder (k + 1) j) n
      | none => t.resolutionAt k (2 * j) ++ t.resolutionAt k (2 * j + 1)

theorem resolutionAt_of_some {n : Node} (hslot : t.slot k j = some n) :
    t.resolutionAt k j = nodeResolution (inorder k j) n := by
  cases k <;> simp only [resolutionAt, hslot]

theorem resolutionAt_zero_of_none (hslot : t.slot 0 j = none) : t.resolutionAt 0 j = [] := by
  simp only [resolutionAt, hslot]

theorem resolutionAt_succ_of_none (hslot : t.slot (k + 1) j = none) :
    t.resolutionAt (k + 1) j = t.resolutionAt k (2 * j) ++ t.resolutionAt k (2 * j + 1) := by
  simp only [resolutionAt, hslot]

theorem nodeResolution_ne_nil (i : ℕ) (n : Node) : nodeResolution i n ≠ [] := by
  cases n <;> simp [nodeResolution]

theorem Full.resolutionFrom_eq (hf : t.Full h) :
    ∀ k fuel j, Inside h k j → k < fuel →
      t.resolutionFrom fuel (inorder k j) = .ok (t.resolutionAt k j) := by
  have hh := hf.le_thirtyOne
  intro k
  induction k with
  | zero =>
      intro fuel j hin hfuel
      obtain ⟨fuel, rfl⟩ : ∃ f, fuel = f + 1 := ⟨fuel - 1, by omega⟩
      have hlt := (inside_iff.mp hin).trans (treeWidth_lt hh)
      rw [resolutionFrom, hf.index_eq hin, left_inorder_zero hlt]
      cases hslot : t.slot 0 j with
      | none => rw [resolutionAt_zero_of_none hslot]; rfl
      | some n =>
          rw [resolutionAt_of_some hslot]
          cases n <;> rfl
  | succ k ih =>
      intro fuel j hin hfuel
      obtain ⟨fuel, rfl⟩ : ∃ f, fuel = f + 1 := ⟨fuel - 1, by omega⟩
      have hlt := (inside_iff.mp hin).trans (treeWidth_lt hh)
      rw [resolutionFrom, hf.index_eq hin, left_inorder hlt]
      cases hslot : t.slot (k + 1) j with
      | none =>
          have hleft := ih fuel (2 * j) (hin.child (i := 0) (by omega)) (by omega)
          have hright := ih fuel (2 * j + 1) (hin.child (by omega)) (by omega)
          simp only [ok_bind, hf.leafCount_eq, right_inorder hh (inside_iff.mp hin),
            hleft, hright, resolutionAt_succ_of_none hslot, pure_eq_ok]
      | some n =>
          rw [resolutionAt_of_some hslot]
          cases n <;> rfl

theorem Full.resolution_eq (hf : t.Full h) (hin : Inside h k j) :
    t.resolution (inorder k j) = .ok (t.resolutionAt k j) :=
  hf.resolutionFrom_eq k descentFuel j hin
    (by have := hf.le_thirty; have := hin.1; unfold descentFuel; omega)

def Below (k j i m : ℕ) : Prop := i ≤ k ∧ m / 2 ^ (k - i) = j

theorem Below.self (k j : ℕ) : Below k j k j := ⟨le_rfl, by simp⟩

theorem Below.up (hbelow : Below k (2 * j + b) i m) (hb : b < 2) : Below (k + 1) j i m := by
  obtain ⟨hik, hdiv⟩ := hbelow
  refine ⟨by omega, ?_⟩
  rw [show k + 1 - i = k - i + 1 by omega, pow_succ, ← Nat.div_div_eq_div_mul, hdiv]
  omega

theorem Below.cases (hbelow : Below (k + 1) j i m) :
    (i = k + 1 ∧ m = j) ∨ ∃ b < 2, Below k (2 * j + b) i m := by
  obtain ⟨hik, hdiv⟩ := hbelow
  rcases Nat.lt_or_ge k i with hlt | hge
  · have hi : i = k + 1 := by omega
    subst hi
    left
    simpa using hdiv
  · right
    rw [show k + 1 - i = k - i + 1 by omega, pow_succ, ← Nat.div_div_eq_div_mul] at hdiv
    exact ⟨m / 2 ^ (k - i) % 2, by omega, hge, by omega⟩

theorem below_zero_iff : Below 0 j i m ↔ i = 0 ∧ m = j := by
  constructor
  · rintro ⟨hi, hdiv⟩
    have hi0 : i = 0 := by omega
    subst hi0
    exact ⟨rfl, by simpa using hdiv⟩
  · rintro ⟨rfl, rfl⟩
    exact Below.self 0 m

theorem Inside.subtreeContains_iff (hin : Inside h k j) (hh : h ≤ 31) :
    subtreeContains (inorder k j) (inorder i m) = true ↔ Below k j i m := by
  rw [subtreeContains_inorder hh (inside_iff.mp hin), inorder_mem_subtree]
  rfl

theorem below_leaf_iff : Below k j 0 L ↔ L / 2 ^ k = j := by
  simp [Below]

theorem Below.off_path (hbelow : Below k j i m) (hoff : L / 2 ^ k ≠ j) : L / 2 ^ i ≠ m := by
  rintro rfl
  apply hoff
  obtain ⟨hik, hdiv⟩ := hbelow
  rw [← hdiv, Nat.div_div_eq_div_mul, ← pow_add, Nat.add_sub_cancel' hik]

theorem siblingRank_ne (j : ℕ) : j ≠ siblingRank j := by
  unfold siblingRank
  split <;> omega

theorem meet_of_fork {R : ℕ} (hfork : R / 2 ^ k = siblingRank (L / 2 ^ k)) :
    L / 2 ^ (k + 1) = R / 2 ^ (k + 1) := by
  rw [ancestor_succ, ancestor_succ, hfork]
  generalize L / 2 ^ k = rank
  unfold siblingRank
  split <;> omega

theorem ancestor_congr {R : ℕ} (hmeet : L / 2 ^ k = R / 2 ^ k) (hki : k ≤ i) :
    L / 2 ^ i = R / 2 ^ i := by
  rw [← Nat.add_sub_cancel' hki, pow_add, ← Nat.div_div_eq_div_mul,
    ← Nat.div_div_eq_div_mul, hmeet]

theorem own_child_rank (L k : ℕ) : 2 * (L / 2 ^ (k + 1)) + L / 2 ^ k % 2 = L / 2 ^ k := by
  have hsucc := ancestor_succ L k
  omega

theorem other_child_rank (L k : ℕ) :
    2 * (L / 2 ^ (k + 1)) + (1 - L / 2 ^ k % 2) = siblingRank (L / 2 ^ k) := by
  have hsucc := ancestor_succ L k
  unfold siblingRank
  split <;> omega

theorem resolutionAt_congr :
    ∀ k j, (∀ i m, Below k j i m → t.slot i m = t'.slot i m) →
      t.resolutionAt k j = t'.resolutionAt k j := by
  intro k
  induction k with
  | zero =>
      intro j hsame
      rw [resolutionAt, resolutionAt, hsame 0 j (Below.self 0 j)]
  | succ k ih =>
      intro j hsame
      rw [resolutionAt, resolutionAt, hsame (k + 1) j (Below.self _ j),
        ih (2 * j) fun i m hb => hsame i m (Below.up (b := 0) hb (by omega)),
        ih (2 * j + 1) fun i m hb => hsame i m (hb.up (by omega))]

theorem slot_eq_none_of_resolutionAt_nil :
    ∀ k j, t.resolutionAt k j = [] → ∀ i m, Below k j i m → t.slot i m = none := by
  intro k
  induction k with
  | zero =>
      intro j hnil i m hbelow
      obtain ⟨rfl, rfl⟩ := below_zero_iff.mp hbelow
      cases hslot : t.slot 0 m with
      | none => rfl
      | some n =>
          rw [resolutionAt_of_some hslot] at hnil
          exact absurd hnil (nodeResolution_ne_nil _ n)
  | succ k ih =>
      intro j hnil i m hbelow
      cases hslot : t.slot (k + 1) j with
      | some n =>
          rw [resolutionAt_of_some hslot] at hnil
          exact absurd hnil (nodeResolution_ne_nil _ n)
      | none =>
          rw [resolutionAt_succ_of_none hslot, List.append_eq_nil_iff] at hnil
          rcases hbelow.cases with ⟨rfl, rfl⟩ | ⟨b, hb, hbelow⟩
          · exact hslot
          · interval_cases b
            · exact ih (2 * j) hnil.1 i m hbelow
            · exact ih (2 * j + 1) hnil.2 i m hbelow

/-! ## Children towards a leaf -/

theorem Inside.left_contains_iff (hin : Inside h (k + 1) j) (hh : h ≤ 31)
    (hbelow : Below k (2 * j + b) i m) :
    subtreeContains (left (inorder (k + 1) j)).1 (inorder i m) = true ↔ b = 0 := by
  have hchild : Inside h k (2 * j) := hin.child (i := 0) (by omega)
  obtain ⟨hik, hdiv⟩ := hbelow
  rw [left_inorder ((inside_iff.mp hin).trans (treeWidth_lt hh)),
    hchild.subtreeContains_iff hh, Below, hdiv]
  omega

theorem Inside.pathChild_eq (hin : Inside h (k + 1) j) (hh : h ≤ 31)
    (t : RatchetTree) (hbelow : Below k (2 * j + b) i m) :
    t.pathChild (inorder (k + 1) j) (inorder i m) = if b = 0 then .ok (inorder k (2 * j))
      else (do
        let (r, _) ← right (inorder (k + 1) j) t.leafCount
        return r) := by
  have hlt := (inside_iff.mp hin).trans (treeWidth_lt hh)
  have hcontains := hin.left_contains_iff hh hbelow
  rw [left_inorder hlt] at hcontains
  simp only [pathChild, left_inorder hlt, hcontains]

theorem Full.pathChild_of_below (hf : t.Full h) (hin : Inside h (k + 1) j) (hb : b < 2)
    (hbelow : Below k (2 * j + b) i m) :
    t.pathChild (inorder (k + 1) j) (inorder i m) = .ok (inorder k (2 * j + b)) := by
  have hh := hf.le_thirtyOne
  rw [hin.pathChild_eq hh t hbelow, hf.leafCount_eq, right_inorder hh (inside_iff.mp hin)]
  split
  next hleft => rw [hleft, add_zero]
  next hright =>
    obtain rfl : b = 1 := by omega
    rfl

theorem Full.pathChild_eq (hf : t.Full h) (hL : L < 2 ^ h) (hk : k < h) (hik : i ≤ k) :
    t.pathChild (inorder (k + 1) (L / 2 ^ (k + 1))) (inorder i (L / 2 ^ i)) =
      .ok (inorder k (L / 2 ^ k)) := by
  have hbelow : Below k (2 * (L / 2 ^ (k + 1)) + L / 2 ^ k % 2) i (L / 2 ^ i) := by
    refine ⟨hik, ?_⟩
    rw [own_child_rank, Nat.div_div_eq_div_mul, ← pow_add, Nat.add_sub_cancel' hik]
  rw [hf.pathChild_of_below (inside_ancestor hL hk) (Nat.mod_lt _ two_pos) hbelow, own_child_rank]

theorem Full.sibling_ancestor_eq (hf : t.Full h) (hL : L < 2 ^ h) (hk : k < h) :
    sibling (inorder k (L / 2 ^ k)) t.leafCount =
      .ok (inorder k (siblingRank (L / 2 ^ k)), true) := by
  have hh := hf.le_thirtyOne
  rw [hf.leafCount_eq]
  exact sibling_inorder hh hk (inside_ancestor hL hk.le).2

theorem Full.copathChild_eq (hf : t.Full h) (hL : L < 2 ^ h) (hk : k < h) :
    t.copathChild (inorder (k + 1) (L / 2 ^ (k + 1))) (inorder 0 L) =
      .ok (inorder k (siblingRank (L / 2 ^ k))) := by
  have hchild := hf.pathChild_eq hL hk (Nat.zero_le k)
  rw [pow_zero, Nat.div_one] at hchild
  simp only [copathChild, hchild, ok_bind, hf.sibling_ancestor_eq hL hk, pure_eq_ok]

/-! ## The filtered direct path -/

def copathEmpty (t : RatchetTree) (L k : ℕ) : Bool :=
  (t.resolutionAt k (siblingRank (L / 2 ^ k))).isEmpty

/-- The levels `k` at which the path of `L` has a node at level `k + 1` in the
filtered direct path. -/
def pathLevels (t : RatchetTree) (h L : ℕ) : List ℕ :=
  (List.range h).filter fun k => ¬ t.copathEmpty L k

def pathNode (L k : ℕ) : ℕ := inorder (k + 1) (L / 2 ^ (k + 1))

theorem mem_pathLevels : k ∈ t.pathLevels h L ↔ k < h ∧ ¬ t.copathEmpty L k := by
  simp [pathLevels]

theorem pathLevels_sorted (t : RatchetTree) (h L : ℕ) : (t.pathLevels h L).Pairwise (· < ·) :=
  List.pairwise_lt_range.filter _

theorem climb_collects (visit : ℕ → ℕ → List ℕ → Result (List ℕ)) (skip : ℕ → Bool)
    (hvisit : ∀ k < h, ∀ path, visit (inorder k (L / 2 ^ k)) (pathNode L k) path =
    .ok (if skip k then path else path ++ [pathNode L k])) :
    ∀ d k path, k + d = h →
      climb visit d k (L / 2 ^ k) path =
        .ok (path ++ ((List.range' k d).filter fun i => ¬ skip i).map (pathNode L)) := by
  intro d
  induction d with
  | zero =>
      intro k path hk
      simp [climb]
  | succ d ih =>
      intro k path hk
      rw [climb, ← ancestor_succ]
      have hstep := hvisit k (by omega) path
      unfold pathNode at hstep
      rw [hstep, ok_bind, ih (k + 1) _ (by omega), List.range'_succ]
      cases hskip : skip k <;> simp [hskip, pathNode]

theorem Full.filteredDirectPath_eq (hf : t.Full h) {leaf : ℕ}
    (hleaf : leaf % 2 ^ 31 = L) (hL : L < 2 ^ h) :
    t.filteredDirectPath leaf = .ok ((t.pathLevels h L).map (pathNode L)) := by
  have hh := hf.le_thirtyOne
  rw [filteredDirectPath, u32_double, hleaf, hf.root_eq]
  nth_rewrite 1 [hf.leafCount_eq]
  rw [walkUp_eq_climb _ hh h walkFuel 0 L _ (by omega) hL
      (by have := hf.le_thirty; unfold walkFuel; omega)]
  conv_lhs => rw [show L = L / 2 ^ 0 by simp]
  refine (climb_collects (h := h) _ (t.copathEmpty L) (fun k hk path => ?_) h 0 []
    (by omega)).trans ?_
  · have hin : Inside h k (siblingRank (L / 2 ^ k)) := (inside_ancestor hL hk.le).sibling hk
    simp only [hf.sibling_ancestor_eq hL hk, ok_bind, hf.resolution_eq hin,
      copathEmpty, pure_eq_ok]
    rfl
  · rw [← List.range_eq_range']
    simp [pathLevels]

end RatchetTree

end MlsGo
