import MlsGo.TreeValidity
import MlsGo.SuiteLaws

/-!
# Unmerged leaves of a validated tree

`VerifyParentHashes` sees an unmerged-leaves list through one comparison: below
the child that carries the parent hash, the listed leaves are the remaining
entries of the resolution.  Those leaves are populated as soon as the lists of
the parents further down name populated leaves only.  Nothing is asked of the
entries below the other child or outside the subtree, and a comparison of sets
sees neither order nor repetition.
-/

namespace MlsGo.RatchetTree

open InOrderLayout

variable {S : Suite} {t : RatchetTree} {h k j L : ℕ} {p : ParentNode}

def HoldsLeaf (t : RatchetTree) (L : ℕ) : Prop := ∃ l, t.slot 0 L = some (.leaf l)

/-- Every unmerged leaf is a non-blank leaf below the parent that lists it, and
every list is strictly increasing. -/
structure UnmergedPinned (t : RatchetTree) : Prop where
  increasing : ∀ k j p, t.slot k j = some (.parent p) → p.unmergedLeaves.Pairwise (· < ·)
  named : ∀ k j p, t.slot k j = some (.parent p) → ∀ u ∈ p.unmergedLeaves,
    Below k j 0 u.toNat ∧ t.HoldsLeaf u.toNat

/-- What no comparison of parent hashes enforces: the order of the lists, that
their entries lie below the parent, and that an entry below the child which does
not carry the parent hash is not blank. -/
structure UnmergedUnseen (S : Suite) (t : RatchetTree) : Prop where
  increasing : ∀ k j p, t.slot k j = some (.parent p) → p.unmergedLeaves.Pairwise (· < ·)
  below : ∀ k j p, t.slot k j = some (.parent p) → ∀ u ∈ p.unmergedLeaves, Below k j 0 u.toNat
  otherSide : ∀ k j p, t.slot (k + 1) j = some (.parent p) → ∀ b < 2,
    t.hasParentHashMatch S (inorder (k + 1) j) (inorder k (2 * j + b))
      (inorder k (2 * j + (1 - b))) = .ok false →
    ∀ u ∈ p.unmergedLeaves, Below k (2 * j + b) 0 u.toNat → t.HoldsLeaf u.toNat

/-! ## What a match says about the listed leaves -/

theorem holdsParent_of_slot (hp : t.slot k j = some (.parent p)) : t.HoldsParent (inorder k j) :=
  ⟨p, Option.join_eq_some_iff.mp hp⟩

theorem Full.slot_zero_ne_parent (hf : t.Full h)
    (hverify : t.verifyParentHashes S = .ok true) (p : ParentNode) :
    t.slot 0 L ≠ some (.parent p) := by
  intro hp
  have hh := hf.le_thirtyOne
  obtain ⟨r, ok, okL, okR, hright, hL, hR, hne⟩ :=
    verifyParentHashes_eq_true.mp hverify _ (holdsParent_of_slot hp)
  have hlevel : level (inorder 0 L) = 0 :=
    level_inorder ((inside_iff.mp (hf.inside_of_slot hp)).trans (treeWidth_lt hh))
  rw [right, if_pos hlevel, Except.ok.injEq, Prod.mk.injEq] at hright
  rw [left, if_pos hlevel, ← hright.1] at hL hR
  exact hne (Except.ok.inj (hL.symm.trans hR))

theorem exists_match_of_loop {want : Bytes} {res expected : List ℕ} :
    ∀ ds, t.parentHashMatchLoop want res expected ds = .ok true →
      ∃ d, sameSet (res.filter fun x => x ≠ d) expected = true := by
  intro ds
  induction ds with
  | nil => simp [parentHashMatchLoop]
  | cons d ds ih =>
      intro hloop
      rw [parentHashMatchLoop, bind_eq_ok] at hloop
      obtain ⟨ph, -, hloop⟩ := hloop
      split at hloop
      · exact ⟨d, (‹_ ∧ _›).2⟩
      · exact ih hloop

theorem Inside.leaf_lt (hin : Inside h k j) (hh : h ≤ 31)
    (hbelow : Below k j 0 L) : L < 2 ^ 31 := by
  have hdiv := below_leaf_iff.mp hbelow
  have hlt : L < 2 ^ (h - k) * 2 ^ k := (Nat.div_lt_iff_lt_mul (by positivity)).mp (hdiv ▸ hin.2)
  rw [← pow_add, Nat.sub_add_cancel hin.1] at hlt
  exact hlt.trans_le (Nat.pow_le_pow_right (by norm_num) hh)

theorem Full.mem_resolutionAt_of_match (hf : t.Full h) {c s : ℕ}
    (hp : t.slot (k + 1) j = some (.parent p)) (hc : Inside h k c) (hs : Inside h k s)
    (hmatch : t.hasParentHashMatch S (inorder (k + 1) j) (inorder k c) (inorder k s) = .ok true)
    {u : UInt32} (hu : u ∈ p.unmergedLeaves) (hbelow : Below k c 0 u.toNat) :
    inorder 0 u.toNat ∈ t.resolutionAt k c := by
  have hh := hf.le_thirtyOne
  rw [hf.hasParentHashMatch_bind hp hc hs, bind_eq_ok] at hmatch
  obtain ⟨want, -, hloop⟩ := hmatch
  obtain ⟨d, hset⟩ := exists_match_of_loop _ hloop
  have hindex : u32 (2 * u.toNat) = inorder 0 u.toNat := by
    rw [u32_double_of_lt (hc.leaf_lt hh hbelow), inorder_zero]
  have hlisted : inorder 0 u.toNat ∈ unmergedBelow p (inorder k c) :=
    List.mem_filter.mpr ⟨List.mem_map.mpr ⟨u, hu, hindex⟩, (hc.subtreeContains_iff hh).mpr hbelow⟩
  exact (List.mem_filter.mp ((sameSet_iff.mp hset _).mpr hlisted)).1

theorem Full.slot_ne_none_of_mem_resolutionAt (hf : t.Full h) :
    ∀ k j, (∀ i ≤ k, ∀ m p, t.slot i m = some (.parent p) →
        ∀ u ∈ p.unmergedLeaves, t.slot 0 u.toNat ≠ none) →
      inorder 0 L ∈ t.resolutionAt k j → t.slot 0 L ≠ none := by
  have hnode : ∀ k j n, t.slot k j = some n →
      (∀ p, n = .parent p → ∀ u ∈ p.unmergedLeaves, t.slot 0 u.toNat ≠ none) →
      inorder 0 L ∈ nodeResolution (inorder k j) n → t.slot 0 L ≠ none := by
    intro k j n hslot hlists hmem
    have hself : inorder 0 L = inorder k j → t.slot 0 L ≠ none := by
      intro heq
      obtain ⟨rfl, rfl⟩ := inorder_inj.mp heq
      simp [hslot]
    cases n with
    | leaf l => exact hself (List.mem_singleton.mp hmem)
    | parent p =>
        rw [nodeResolution, List.mem_cons, List.mem_map] at hmem
        rcases hmem with heq | ⟨u, hu, heq⟩
        · exact hself heq
        · have hne := hlists p rfl u hu
          rw [hf.unmerged_index_eq hne, inorder_inj] at heq
          rwa [← heq.2]
  intro k
  induction k with
  | zero =>
      intro j hlists hmem
      cases hslot : t.slot 0 j with
      | none => simp [resolutionAt_zero_of_none hslot] at hmem
      | some n =>
          rw [resolutionAt_of_some hslot] at hmem
          exact hnode 0 j n hslot (fun p hp => hlists 0 le_rfl j p (hp ▸ hslot)) hmem
  | succ k ih =>
      intro j hlists hmem
      cases hslot : t.slot (k + 1) j with
      | some n =>
          rw [resolutionAt_of_some hslot] at hmem
          exact hnode (k + 1) j n hslot (fun p hp => hlists (k + 1) le_rfl j p (hp ▸ hslot)) hmem
      | none =>
          have hlower := fun i (hi : i ≤ k) => hlists i (by omega)
          rw [resolutionAt_succ_of_none hslot, List.mem_append] at hmem
          exact hmem.elim (ih _ hlower) (ih _ hlower)

/-! ## Which trees have their lists pinned down -/

/-- By induction on the level: an entry on the side that carries the parent hash
is in a resolution made of leaves and of lists further down. -/
theorem UnmergedUnseen.holdsLeaf (hf : t.Full h)
    (hverify : t.verifyParentHashes S = .ok true) (hunseen : t.UnmergedUnseen S) :
    ∀ k j p, t.slot k j = some (.parent p) → ∀ u ∈ p.unmergedLeaves, t.HoldsLeaf u.toNat := by
  intro k
  induction k using Nat.strong_induction_on with
  | _ k ih =>
  intro j p hp u hu
  obtain _ | k := k
  · exact absurd hp (hf.slot_zero_ne_parent hverify p)
  have hin := hf.inside_of_slot hp
  obtain ⟨b, hb, hbelow⟩ : ∃ b < 2, Below k (2 * j + b) 0 u.toNat := by
    rcases (hunseen.below _ _ _ hp u hu).cases with ⟨hlevel, -⟩ | hchild
    · omega
    · exact hchild
  obtain ⟨own, other, hown, -, -⟩ := (hf.oneSideMatches_iff hin hb).mp
    (verifyParentHashes_eq_true.mp hverify _ (holdsParent_of_slot hp))
  cases own with
  | false => exact hunseen.otherSide k j p hp b hb hown u hu hbelow
  | true =>
      have hmem := hf.mem_resolutionAt_of_match hp (hin.child hb)
        (hin.child (by omega)) hown hu hbelow
      have hne := hf.slot_ne_none_of_mem_resolutionAt k _ (fun i hi m q hq v hv => by
        obtain ⟨l, hl⟩ := ih i (by omega) m q hq v hv
        simp [hl]) hmem
      obtain ⟨n, hn⟩ := Option.ne_none_iff_exists'.mp hne
      cases n with
      | leaf l => exact ⟨l, hn⟩
      | parent q => exact absurd hn (hf.slot_zero_ne_parent hverify q)

/-- In a parsed tree with verified parent hashes the unmerged leaves are pinned
down exactly when the part that no comparison sees is in order. -/
theorem unmerged_pinned_iff {data : Bytes} (hparse : parseRatchetTree data = .ok t)
    (hverify : t.verifyParentHashes S = .ok true) :
    t.UnmergedPinned ↔ t.UnmergedUnseen S := by
  obtain ⟨h, -, hf⟩ := parseRatchetTree_full hparse
  constructor
  · intro hpinned
    exact ⟨hpinned.increasing, fun k j p hp u hu => (hpinned.named k j p hp u hu).1,
      fun k j p hp _ _ _ u hu _ => (hpinned.named (k + 1) j p hp u hu).2⟩
  · intro hunseen
    exact ⟨hunseen.increasing, fun k j p hp u hu =>
      ⟨hunseen.below k j p hp u hu, hunseen.holdsLeaf hf hverify k j p hp u hu⟩⟩

/-! ## Lists that no comparison sees -/

/-- A root over leaf 0, whose committer sits there, with the given list and right
child. -/
def rootOver (unmerged : List UInt32) (right : Option Node) : RatchetTree :=
  ⟨[some (.leaf { sampleLeaf 1 with leafNodeSource := .commit [2] }),
    some (.parent ⟨[3], [], unmerged⟩), right]⟩

theorem rootOver_parent {unmerged : List UInt32} {right : Option LeafNode}
    (hp : (rootOver unmerged (right.map .leaf)).slot k j = some (.parent p)) :
    k = 1 ∧ j = 0 ∧ p = ⟨[3], [], unmerged⟩ := by
  rw [slot, Option.join_eq_some_iff] at hp
  generalize hx : inorder k j = x at hp
  rcases x with _ | _ | _ | x
  · simp [rootOver] at hp
  · obtain ⟨rfl, rfl⟩ := inorder_inj.mp (hx.trans (show 1 = inorder 1 0 from rfl))
    simpa [rootOver, eq_comm] using hp
  · cases right <;> simp [rootOver] at hp
  · simp [rootOver] at hp

/-- A leaf that was added on the right of the committer and is not merged yet. -/
theorem unmerged_pinned_added_leaf :
    ∃ data t, parseRatchetTree data = .ok t ∧ t.verifyParentHashes plainSuite = .ok true ∧
      t.UnmergedPinned ∧ ∃ p, t.slot 1 0 = some (.parent p) ∧ p.unmergedLeaves = [1] := by
  let t := rootOver [1] ((some (sampleLeaf 2)).map .leaf)
  have hclone : t.clone = .ok t := by decide +kernel
  obtain ⟨data, -, hparse⟩ := bind_eq_ok.mp hclone
  have hverify : t.verifyParentHashes plainSuite = .ok true := by decide +kernel
  refine ⟨data, t, hparse, hverify,
    (unmerged_pinned_iff hparse hverify).mpr ⟨?_, ?_, ?_⟩, _, rfl, rfl⟩
  · intro k j p hp
    obtain ⟨-, -, rfl⟩ := rootOver_parent hp
    simp
  · intro k j p hp u hu
    obtain ⟨rfl, rfl, rfl⟩ := rootOver_parent hp
    rw [List.mem_singleton.mp hu]
    exact ⟨by omega, rfl⟩
  · intro k j p hp b _ _ u hu _
    obtain ⟨-, -, rfl⟩ := rootOver_parent hp
    rw [List.mem_singleton.mp hu]
    exact ⟨sampleLeaf 2, rfl⟩

/-- A list that repeats a blank leaf and names one outside the tree is parsed and
verified. -/
theorem stray_unmerged_verified :
    ∃ data t p, parseRatchetTree data = .ok t ∧ t.verifyParentHashes plainSuite = .ok true ∧
      t.slot 1 0 = some (.parent p) ∧ p.unmergedLeaves = [1, 1, 5] ∧ ¬ t.HoldsLeaf 1 ∧
      ¬ Below 1 0 0 5 ∧ ¬ t.UnmergedPinned := by
  let t := rootOver [1, 1, 5] none
  have hclone : t.clone = .ok t := by decide +kernel
  obtain ⟨data, -, hparse⟩ := bind_eq_ok.mp hclone
  have hblank : ¬ t.HoldsLeaf 1 := by
    rintro ⟨l, hl⟩
    cases hl
  refine ⟨data, t, _, hparse, by decide +kernel, rfl, rfl, hblank, ?_, ?_⟩
  · rw [below_leaf_iff]
    decide
  · intro hpinned
    exact hblank (hpinned.named 1 0 _ rfl 1 (by simp)).2

end MlsGo.RatchetTree
