import MlsGo.RepresentationInvariant

/-!
# Resolutions partition the members

A path secret is encrypted once for every entry of a resolution.  A listed leaf
stands for itself, a listed parent for the members below it that have merged
into it.  In a reachable tree every member below a node is covered by exactly
one entry of the node's resolution.
-/

namespace MlsGo

namespace RatchetTree

open InOrderLayout

variable {S : Suite} {t : RatchetTree} {h k j M : ℕ}

def Covers (t : RatchetTree) (x leaf : ℕ) : Prop :=
  match t.nodeAt x with
  | none => False
  | some (.leaf _) => x = 2 * leaf
  | some (.parent p) =>
      subtreeContains x (2 * leaf) = true ∧ t.Populated leaf ∧ UInt32.ofNat leaf ∉ p.unmergedLeaves

/-! ## Coverage by slots -/

theorem Full.covers_of_leaf (hf : t.Full h) {l : LeafNode} (hslot : t.slot k j = some (.leaf l)) :
    t.Covers (inorder k j) M ↔ k = 0 ∧ j = M := by
  rw [Covers, hf.nodeAt_eq, hslot]
  change inorder k j = 2 * M ↔ _
  rw [← inorder_zero, inorder_inj]

theorem Full.covers_of_parent (hf : t.Full h) {p : ParentNode}
    (hslot : t.slot k j = some (.parent p)) :
    t.Covers (inorder k j) M ↔
      M / 2 ^ k = j ∧ t.Populated M ∧ UInt32.ofNat M ∉ p.unmergedLeaves := by
  have hh := hf.le_thirtyOne
  rw [Covers, hf.nodeAt_eq, hslot]
  change subtreeContains _ _ = true ∧ _ ↔ _
  rw [← inorder_zero, (hf.inside_of_slot hslot).subtreeContains_iff hh, below_leaf_iff]

theorem Full.on_path_of_covers (hf : t.Full h)
    (hcovers : t.Covers (inorder k j) M) : M / 2 ^ k = j := by
  cases hslot : t.slot k j with
  | none =>
      rw [Covers, hf.nodeAt_eq, hslot] at hcovers
      exact hcovers.elim
  | some n =>
      cases n with
      | leaf l =>
          obtain ⟨rfl, rfl⟩ := (hf.covers_of_leaf hslot).mp hcovers
          simp
      | parent p => exact ((hf.covers_of_parent hslot).mp hcovers).1

theorem Full.nodeResolution_covers (hf : t.Full h) (hw : WellFormed t.slot) {n : Node}
    (hslot : t.slot k j = some n) (hM : M / 2 ^ k = j) (hmember : t.slot 0 M ≠ none) :
    ∃! x, x ∈ nodeResolution (inorder k j) n ∧ t.Covers x M := by
  have hlt := hf.member_lt hmember
  have hle := hf.two_pow_le
  cases n with
  | leaf l =>
      have hk : k = 0 := by
        cases k with
        | zero => rfl
        | succ k =>
            obtain ⟨p, hp⟩ := hw.parent_slot k j _ hslot
            cases hp
      subst hk
      refine ⟨inorder 0 j, ⟨List.mem_singleton_self _, ?_⟩, ?_⟩
      · exact (hf.covers_of_leaf hslot).mpr ⟨rfl, by simpa using hM.symm⟩
      · rintro y ⟨hy, -⟩
        exact List.mem_singleton.mp hy
  | parent p =>
      obtain ⟨m, hm⟩ := Option.ne_none_iff_exists'.mp hmember
      obtain ⟨l, rfl⟩ := hw.leaf_slot M m hm
      -- an unmerged leaf covers itself and nothing else
      have hunmerged : ∀ u ∈ p.unmergedLeaves,
          u32 (2 * u.toNat) = inorder 0 u.toNat ∧
            (t.Covers (inorder 0 u.toNat) M ↔ u.toNat = M) := by
        intro u hu
        obtain ⟨-, hne⟩ := hw.unmerged_below k j p hslot u hu
        obtain ⟨n, hn⟩ := Option.ne_none_iff_exists'.mp hne
        obtain ⟨l, rfl⟩ := hw.leaf_slot _ n hn
        refine ⟨hf.unmerged_index_eq hne, ?_⟩
        rw [hf.covers_of_leaf hn]
        simp
      have hofNat : ∀ u : UInt32, u.toNat = M ↔ u = UInt32.ofNat M := by
        intro u
        rw [← UInt32.toNat_inj, UInt32.toNat_ofNat', Nat.mod_eq_of_lt (by omega)]
      by_cases hlisted : UInt32.ofNat M ∈ p.unmergedLeaves
      · have htoNat : (UInt32.ofNat M).toNat = M := (hofNat _).mpr rfl
        obtain ⟨hindex, hself⟩ := hunmerged _ hlisted
        refine ⟨inorder 0 M, ⟨?_, ?_⟩, ?_⟩
        · rw [nodeResolution, List.mem_cons, List.mem_map]
          exact .inr ⟨_, hlisted, by rw [hindex, htoNat]⟩
        · rw [htoNat] at hself
          exact hself.mpr rfl
        · rintro y ⟨hy, hcovers⟩
          rw [nodeResolution, List.mem_cons, List.mem_map] at hy
          rcases hy with rfl | ⟨u, hu, rfl⟩
          · exact absurd hlisted ((hf.covers_of_parent hslot).mp hcovers).2.2
          · obtain ⟨hindex', hother⟩ := hunmerged u hu
            rw [hindex'] at hcovers ⊢
            rw [hother.mp hcovers]
      · refine ⟨inorder k j, ⟨List.mem_cons_self, ?_⟩, ?_⟩
        · exact (hf.covers_of_parent hslot).mpr
            ⟨hM, (hf.populated_iff_of_lt hlt).mpr hmember, hlisted⟩
        · rintro y ⟨hy, hcovers⟩
          rw [nodeResolution, List.mem_cons, List.mem_map] at hy
          rcases hy with rfl | ⟨u, hu, rfl⟩
          · rfl
          · obtain ⟨hindex', hother⟩ := hunmerged u hu
            rw [hindex', hother, hofNat] at hcovers
            exact absurd (hcovers ▸ hu) hlisted

theorem Full.resolutionAt_covers (hf : t.Full h) (hw : WellFormed t.slot)
    (hmember : t.slot 0 M ≠ none) :
    ∀ k, ∃! x, x ∈ t.resolutionAt k (M / 2 ^ k) ∧ t.Covers x M := by
  intro k
  induction k with
  | zero =>
      obtain ⟨n, hn⟩ := Option.ne_none_iff_exists'.mp hmember
      rw [pow_zero, Nat.div_one, resolutionAt_of_some hn]
      exact hf.nodeResolution_covers hw hn (by simp) hmember
  | succ k ih =>
      cases hslot : t.slot (k + 1) (M / 2 ^ (k + 1)) with
      | some n =>
          rw [resolutionAt_of_some hslot]
          exact hf.nodeResolution_covers hw hslot rfl hmember
      | none =>
          obtain ⟨x, ⟨hx, hcovers⟩, hunique⟩ := ih
          have hchild := own_child_rank M k
          rw [resolutionAt_succ_of_none hslot]
          -- the other child has no ancestor of the member below it
          have hside : ∀ b < 2, ∀ y ∈ t.resolutionAt k (2 * (M / 2 ^ (k + 1)) + b), t.Covers y M →
              y ∈ t.resolutionAt k (M / 2 ^ k) := by
            intro b _ y hy hy'
            obtain ⟨i, m, rfl, hbelow, -⟩ := hf.mem_resolutionAt hw _ _ y hy
            rwa [hbelow.leaf (hf.on_path_of_covers hy')]
          refine ⟨x, ⟨?_, hcovers⟩, ?_⟩
          · rw [List.mem_append]
            rcases Nat.mod_two_eq_zero_or_one (M / 2 ^ k) with hbit | hbit
            · rw [hbit, Nat.add_zero] at hchild
              exact .inl (hchild.symm ▸ hx)
            · rw [hbit] at hchild
              exact .inr (hchild.symm ▸ hx)
          · rintro y ⟨hy, hy'⟩
            rw [List.mem_append] at hy
            rcases hy with hy | hy
            · exact hunique y ⟨hside 0 (by omega) y hy hy', hy'⟩
            · exact hunique y ⟨hside 1 (by omega) y hy hy', hy'⟩

/-! ## No entry twice -/

theorem Full.nodeResolution_nodup (hf : t.Full h) (hw : WellFormed t.slot)
    {n : Node} (hslot : t.slot k j = some n) :
    (nodeResolution (inorder k j) n).Nodup := by
  cases n with
  | leaf l => exact List.nodup_singleton _
  | parent p =>
      have hindex : ∀ u ∈ p.unmergedLeaves, u32 (2 * u.toNat) = inorder 0 u.toNat := fun u hu =>
        hf.unmerged_index_eq (hw.unmerged_below k j p hslot u hu).2
      have hk : k ≠ 0 := by
        rintro rfl
        obtain ⟨l, hl⟩ := hw.leaf_slot j _ hslot
        cases hl
      rw [nodeResolution, List.nodup_cons, List.map_congr_left hindex]
      constructor
      · rw [List.mem_map]
        rintro ⟨u, -, heq⟩
        exact hk (inorder_inj.mp heq).1.symm
      · refine List.Pairwise.map _ (fun u v hlt heq => ?_) (hw.unmerged_sorted k j p hslot)
        have htoNat := (inorder_inj.mp heq).2
        rw [UInt32.lt_iff_toNat_lt] at hlt
        omega

theorem Below.rank_unique {j' i m : ℕ} (hbelow : Below k j i m)
    (hbelow' : Below k j' i m) : j = j' := hbelow.2.symm.trans hbelow'.2

theorem Full.resolutionAt_nodup (hf : t.Full h) (hw : WellFormed t.slot) :
    ∀ k j, (t.resolutionAt k j).Nodup := by
  intro k
  induction k with
  | zero =>
      intro j
      cases hslot : t.slot 0 j with
      | none => simp [resolutionAt_zero_of_none hslot]
      | some n =>
          rw [resolutionAt_of_some hslot]
          exact hf.nodeResolution_nodup hw hslot
  | succ k ih =>
      intro j
      cases hslot : t.slot (k + 1) j with
      | some n =>
          rw [resolutionAt_of_some hslot]
          exact hf.nodeResolution_nodup hw hslot
      | none =>
          rw [resolutionAt_succ_of_none hslot, List.nodup_append]
          refine ⟨ih _, ih _, fun x hx y hy heq => ?_⟩
          obtain ⟨i, m, rfl, hbelow, -⟩ := hf.mem_resolutionAt hw _ _ x hx
          obtain ⟨i', m', rfl, hbelow', -⟩ := hf.mem_resolutionAt hw _ _ y hy
          obtain ⟨rfl, rfl⟩ := inorder_inj.mp heq
          have := hbelow.rank_unique hbelow'
          omega

/-! ## Resolutions of a reachable tree -/

structure Partitions (t : RatchetTree) (i : ℕ) (res : List ℕ) : Prop where
  nodup : res.Nodup
  inside : ∀ x ∈ res, t.nodeAt x ≠ none ∧ subtreeContains i x = true
  covered : ∀ leaf < t.leafCount, t.Populated leaf →
    subtreeContains i (2 * leaf) = true → ∃! x, x ∈ res ∧ t.Covers x leaf
  empty_iff : res = [] ↔ ∀ leaf < t.leafCount,
    subtreeContains i (2 * leaf) = true → ¬ t.Populated leaf

theorem RepresentationInvariant.partitions (hinv : t.RepresentationInvariant)
    {i : ℕ} (hi : i < t.nodes.length) :
    ∃ res, t.resolution i = .ok res ∧ t.Partitions i res := by
  obtain ⟨h, hf, -⟩ := hinv.full
  have hw := hinv.wellFormed
  have hh := hf.le_thirtyOne
  obtain ⟨k, j, rfl⟩ := exists_inorder i
  have hin : Inside h k j := inside_iff.mpr (hf.length_eq ▸ hi)
  have hbelow : ∀ leaf, subtreeContains (inorder k j) (2 * leaf) = true ↔ leaf / 2 ^ k = j := by
    intro leaf
    rw [← inorder_zero, hin.subtreeContains_iff hh, below_leaf_iff]
  refine ⟨_, hf.resolution_eq hin, hf.resolutionAt_nodup hw k j, ?_, ?_, ?_⟩
  · intro x hx
    obtain ⟨i, m, rfl, hb, hne⟩ := hf.mem_resolutionAt hw k j x hx
    exact ⟨hf.nodeAt_eq ▸ hne, (hin.subtreeContains_iff hh).mpr hb⟩
  · intro leaf hlt hmember hsub
    rw [hf.leafCount_eq] at hlt
    rw [hbelow] at hsub
    have hcovers := hf.resolutionAt_covers hw ((hf.populated_iff_of_lt hlt).mp hmember) k
    rwa [hsub] at hcovers
  · constructor
    · intro hnil leaf hlt hsub hmember
      rw [hf.leafCount_eq] at hlt
      rw [hbelow] at hsub
      apply (hf.populated_iff_of_lt hlt).mp hmember
      exact slot_eq_none_of_resolutionAt_nil k j hnil 0 leaf (below_leaf_iff.mpr hsub)
    · intro hblank
      by_contra hne
      obtain ⟨M, hM, hMne⟩ := leaf_of_resolutionAt_ne_nil hw hne
      have hlt := hf.member_lt hMne
      exact hblank M (hf.leafCount_eq ▸ hlt) ((hbelow M).mpr hM)
        ((hf.populated_iff_of_lt hlt).mpr hMne)

/-- On every reachable tree the resolution of every node partitions the members
below it. -/
theorem resolution_partitions (hreach : Reachable S t) {i : ℕ} (hi : i < t.nodes.length) :
    ∃ res, t.resolution i = .ok res ∧ t.Partitions i res := hreach.invariant.partitions hi

/-- The root of a tree of two members. -/
theorem resolution_partitions_two_members :
    ∃ res, twoMembers.resolution 1 = .ok res ∧ twoMembers.Partitions 1 res :=
  resolution_partitions twoMembers_reachable (by decide)

end RatchetTree

end MlsGo
