import MlsGo.PathRuns
import MlsGo.SuiteLaws

/-!
# The representation invariant of the ratchet tree

The clauses are stated for a family of slots, so that one lemma covers every
operation that rewrites the path of a leaf (`UpdateLeaf`, `RemoveLeaf`,
`GenerateUpdatePath` and `Merge`) and one covers `AddLeaf`.  They are inductive
together only: an added leaf is not yet listed anywhere because lists name
populated leaves, and a path node may be populated because its copath slot has
a populated leaf below it.
-/

namespace MlsGo

open InOrderLayout

/-! ## Slot families -/

/-- The clauses on the content of the slots.  Level 0 is the even array
indices. -/
structure WellFormed (slots : ℕ → ℕ → Option Node) : Prop where
  leaf_slot : ∀ j n, slots 0 j = some n → ∃ l, n = .leaf l
  parent_slot : ∀ k j n, slots (k + 1) j = some n → ∃ p, n = .parent p
  both_children : ∀ k j, slots (k + 1) j ≠ none →
    ∀ b < 2, ∃ L, L / 2 ^ k = 2 * j + b ∧ slots 0 L ≠ none
  unmerged_sorted : ∀ k j p, slots k j = some (.parent p) → p.unmergedLeaves.Pairwise (· < ·)
  unmerged_below : ∀ k j p, slots k j = some (.parent p) →
    ∀ u ∈ p.unmergedLeaves, u.toNat / 2 ^ k = j ∧ slots 0 u.toNat ≠ none
  unmerged_between : ∀ k j p, slots k j = some (.parent p) →
    ∀ u ∈ p.unmergedLeaves, ∀ i < k, ∀ q,
      slots i (u.toNat / 2 ^ i) = some (.parent q) → u ∈ q.unmergedLeaves

namespace WellFormed

variable {slots slots' : ℕ → ℕ → Option Node} {L : ℕ}

theorem leaf_below (hw : WellFormed slots) {k j : ℕ} (hslot : slots k j ≠ none) :
    ∃ M, M / 2 ^ k = j ∧ slots 0 M ≠ none := by
  cases k with
  | zero => exact ⟨j, by simp, hslot⟩
  | succ k =>
      obtain ⟨M, hM, hne⟩ := hw.both_children k j hslot 0 (by omega)
      refine ⟨M, ?_, hne⟩
      rw [RatchetTree.ancestor_succ, hM]
      omega

/-- Rewriting the path of leaf `L`: the leaf becomes `x`, and only a member's
path may carry nodes, which are parents without unmerged leaves whose copath
slot has a populated leaf below it. -/
theorem rewritePath (hw : WellFormed slots) {x : Option Node}
    {f : ℕ → Option Node}
    (hslots : ∀ k j, slots' k j =
      if L / 2 ^ k = j then (if k = 0 then x else f (k - 1)) else slots k j)
    (hleaf : ∀ n, x = some n → ∃ l, n = .leaf l)
    (hparent : ∀ k n, f k = some n → ∃ p, n = .parent p ∧ p.unmergedLeaves = [])
    (hcopath : ∀ k, f k ≠ none → x ≠ none ∧
      ∃ M, M / 2 ^ k = siblingRank (L / 2 ^ k) ∧ slots 0 M ≠ none) :
    WellFormed slots' := by
  have hself : slots' 0 L = x := by simp [hslots]
  have hon : ∀ k, slots' (k + 1) (L / 2 ^ (k + 1)) = f k := by
    intro k
    simp [hslots]
  have hoff : ∀ {k j}, L / 2 ^ k ≠ j → slots' k j = slots k j := by
    intro k j hne
    rw [hslots, if_neg hne]
  have hother : ∀ {M}, M ≠ L → slots' 0 M = slots 0 M := by
    intro M hne
    exact hoff (by simpa using hne.symm)
  -- a parent with an unmerged leaf is off the path
  have hlisted : ∀ {k j p u}, slots' k j = some (.parent p) →
      u ∈ p.unmergedLeaves → L / 2 ^ k ≠ j := by
    rintro k j p u hp hu rfl
    cases k with
    | zero =>
        rw [pow_zero, Nat.div_one, hself] at hp
        obtain ⟨l, hl⟩ := hleaf _ hp
        cases hl
    | succ k =>
        rw [hon] at hp
        obtain ⟨q, hq, hnil⟩ := hparent k _ hp
        cases hq
        simp [hnil] at hu
  refine ⟨?_, ?_, ?_, ?_, ?_, ?_⟩
  · intro j n hn
    by_cases hj : j = L
    · subst hj
      exact hleaf n (hself ▸ hn)
    · exact hw.leaf_slot j n (hother hj ▸ hn)
  · intro k j n hn
    by_cases hj : L / 2 ^ (k + 1) = j
    · subst hj
      obtain ⟨p, hp, -⟩ := hparent k n (hon k ▸ hn)
      exact ⟨p, hp⟩
    · exact hw.parent_slot k j n (hoff hj ▸ hn)
  · intro k j hne b hb
    by_cases hj : L / 2 ^ (k + 1) = j
    · subst hj
      rw [hon] at hne
      obtain ⟨hx, M, hM, hMne⟩ := hcopath k hne
      have hsucc := RatchetTree.ancestor_succ L k
      by_cases hside : L / 2 ^ k = 2 * (L / 2 ^ (k + 1)) + b
      · exact ⟨L, hside, hself ▸ hx⟩
      · have hML : M ≠ L := by
          rintro rfl
          exact RatchetTree.siblingRank_ne _ hM
        refine ⟨M, ?_, by rwa [hother hML]⟩
        rw [hM]
        unfold siblingRank
        split <;> omega
    · obtain ⟨M, hM, hMne⟩ := hw.both_children k j (hoff hj ▸ hne) b hb
      have hML : M ≠ L := by
        rintro rfl
        apply hj
        rw [RatchetTree.ancestor_succ, hM]
        omega
      exact ⟨M, hM, by rwa [hother hML]⟩
  · intro k j p hp
    by_cases hj : L / 2 ^ k = j
    · cases hul : p.unmergedLeaves with
      | nil => exact List.Pairwise.nil
      | cons u us => exact absurd hj (hlisted (u := u) hp (by simp [hul]))
    · exact hw.unmerged_sorted k j p (hoff hj ▸ hp)
  · intro k j p hp u hu
    have hj := hlisted hp hu
    obtain ⟨hdiv, hne⟩ := hw.unmerged_below k j p (hoff hj ▸ hp) u hu
    have huL : u.toNat ≠ L := fun heq => hj (heq ▸ hdiv)
    exact ⟨hdiv, by rwa [hother huL]⟩
  · intro k j p hp u hu i hik q hq
    have hj := hlisted hp hu
    have hp' := hoff hj ▸ hp
    obtain ⟨hdiv, -⟩ := hw.unmerged_below k j p hp' u hu
    -- nodes between `u` and a node off the path are off the path
    have hbelow : RatchetTree.Below k j i (u.toNat / 2 ^ i) :=
      ⟨hik.le, by
        rw [Nat.div_div_eq_div_mul, ← pow_add, Nat.add_sub_cancel' hik.le, hdiv]⟩
    exact hw.unmerged_between k j p hp' u hu i hik q (hoff (hbelow.off_path hj) ▸ hq)

/-! ### Adding a leaf -/

theorem mem_insertLeaf {u x : UInt32} {ul : List UInt32} :
    u ∈ RatchetTree.insertLeaf x ul ↔ u = x ∨ u ∈ ul := by
  have hsplit : u ∈ ul ↔ u ∈ ul.takeWhile (· < x) ∨ u ∈ ul.dropWhile (· < x) := by
    rw [← List.mem_append, List.takeWhile_append_dropWhile]
  rw [hsplit, RatchetTree.insertLeaf, List.mem_append, List.mem_cons]
  tauto

theorem insertLeaf_sorted {x : UInt32} {ul : List UInt32}
    (hsorted : ul.Pairwise (· < ·)) (hfresh : x ∉ ul) :
    (RatchetTree.insertLeaf x ul).Pairwise (· < ·) := by
  induction ul with
  | nil => simp [RatchetTree.insertLeaf]
  | cons u ul ih =>
      rw [List.pairwise_cons] at hsorted
      simp only [List.mem_cons, not_or] at hfresh
      by_cases hlt : u < x
      · have hcons : RatchetTree.insertLeaf x (u :: ul) = u :: RatchetTree.insertLeaf x ul := by
          simp [RatchetTree.insertLeaf, hlt]
        rw [hcons, List.pairwise_cons]
        refine ⟨fun v hv => ?_, ih hsorted.2 hfresh.2⟩
        rcases mem_insertLeaf.mp hv with rfl | hv
        · exact hlt
        · exact hsorted.1 v hv
      · have hcons : RatchetTree.insertLeaf x (u :: ul) = x :: u :: ul := by
          simp [RatchetTree.insertLeaf, hlt]
        have hne : x.toNat ≠ u.toNat := fun heq => hfresh.1 (UInt32.toNat_inj.mp heq)
        have hxu : x < u := by
          rw [UInt32.lt_iff_toNat_lt] at hlt ⊢
          omega
        rw [hcons]
        simp only [List.pairwise_cons, List.mem_cons, forall_eq_or_imp]
        exact ⟨⟨hxu, fun v hv => UInt32.lt_trans hxu (hsorted.1 v hv)⟩, hsorted⟩

theorem addUnmerged_eq_some {x : UInt32} {slot : Option Node} {p : ParentNode}
    (hp : RatchetTree.addUnmerged x slot = some (.parent p)) :
    ∃ q, slot = some (.parent q) ∧ p = { q with
        unmergedLeaves := RatchetTree.insertLeaf x q.unmergedLeaves } := by
  rcases slot with _ | (l | q)
  · cases hp
  · cases hp
  · cases hp
    exact ⟨q, rfl, rfl⟩

theorem parent_of_add {leaf : LeafNode} (hslots : ∀ k j, slots' k j = if L / 2 ^ k = j then
        (if k = 0 then some (.leaf leaf)
          else RatchetTree.addUnmerged (UInt32.ofNat L) (slots k j))
      else slots k j)
    {k j : ℕ} {p : ParentNode} (hp : slots' k j = some (.parent p)) :
    ∃ q, slots k j = some (.parent q) ∧
      ((L / 2 ^ k = j ∧ p.unmergedLeaves =
          RatchetTree.insertLeaf (UInt32.ofNat L) q.unmergedLeaves) ∨
        (L / 2 ^ k ≠ j ∧ p.unmergedLeaves = q.unmergedLeaves)) := by
  rw [hslots] at hp
  by_cases hj : L / 2 ^ k = j
  · rw [if_pos hj] at hp
    by_cases hk : k = 0
    · rw [if_pos hk] at hp
      cases hp
    · rw [if_neg hk] at hp
      obtain ⟨q, hq, rfl⟩ := addUnmerged_eq_some hp
      exact ⟨q, hq, .inl ⟨hj, rfl⟩⟩
  · rw [if_neg hj] at hp
    exact ⟨p, hp, .inr ⟨hj, rfl⟩⟩

theorem addLeaf (hw : WellFormed slots) {leaf : LeafNode} (hL : L < 2 ^ 32)
    (hblank : slots 0 L = none) (hslots : ∀ k j, slots' k j = if L / 2 ^ k = j then
        (if k = 0 then some (.leaf leaf)
          else RatchetTree.addUnmerged (UInt32.ofNat L) (slots k j))
      else slots k j) :
    WellFormed slots' := by
  have hself : slots' 0 L = some (.leaf leaf) := by simp [hslots]
  have hother : ∀ {M}, M ≠ L → slots' 0 M = slots 0 M := by
    intro M hne
    rw [hslots, if_neg (by simpa using hne.symm)]
  have hkeep : ∀ {M}, slots 0 M ≠ none → slots' 0 M ≠ none := by
    intro M hM
    by_cases hML : M = L
    · rw [hML, hself]
      simp
    · rwa [hother hML]
  have htoNat : (UInt32.ofNat L).toNat = L := by
    rw [UInt32.toNat_ofNat', Nat.mod_eq_of_lt hL]
  refine ⟨?_, ?_, ?_, ?_, ?_, ?_⟩
  · intro j n hn
    by_cases hj : j = L
    · rw [hj, hself, Option.some.injEq] at hn
      exact ⟨leaf, hn.symm⟩
    · exact hw.leaf_slot j n (hother hj ▸ hn)
  · intro k j n hn
    rw [hslots] at hn
    by_cases hj : L / 2 ^ (k + 1) = j
    · rw [if_pos hj, if_neg (by omega)] at hn
      cases hslot : slots (k + 1) j with
      | none => rw [hslot] at hn; cases hn
      | some m =>
          obtain ⟨p, rfl⟩ := hw.parent_slot k j m hslot
          rw [hslot] at hn
          cases hn
          exact ⟨_, rfl⟩
    · rw [if_neg hj] at hn
      exact hw.parent_slot k j n hn
  · intro k j hne b hb
    have hold : slots (k + 1) j ≠ none := by
      intro hnone
      apply hne
      rw [hslots, hnone]
      simp [RatchetTree.addUnmerged]
    obtain ⟨M, hM, hMne⟩ := hw.both_children k j hold b hb
    exact ⟨M, hM, hkeep hMne⟩
  · intro k j p hp
    obtain ⟨q, hq, ⟨-, hlist⟩ | ⟨-, hlist⟩⟩ := parent_of_add hslots hp
    · rw [hlist]
      refine insertLeaf_sorted (hw.unmerged_sorted k j q hq) fun hmem => ?_
      apply (hw.unmerged_below k j q hq _ hmem).2
      rw [htoNat, hblank]
    · rw [hlist]
      exact hw.unmerged_sorted k j q hq
  · intro k j p hp u hu
    obtain ⟨q, hq, ⟨hj, hlist⟩ | ⟨-, hlist⟩⟩ := parent_of_add hslots hp
    · rw [hlist, mem_insertLeaf] at hu
      rcases hu with rfl | hu
      · rw [htoNat, hself]
        exact ⟨hj, by simp⟩
      · exact (hw.unmerged_below k j q hq u hu).imp_right hkeep
    · rw [hlist] at hu
      exact (hw.unmerged_below k j q hq u hu).imp_right hkeep
  · intro k j p hp u hu i hik r hr
    obtain ⟨q, hq, hcase⟩ := parent_of_add hslots hp
    obtain ⟨q', hq', hcase'⟩ := parent_of_add hslots hr
    have hold : u ∈ q.unmergedLeaves → u ∈ r.unmergedLeaves := by
      intro hmem
      have hmem' := hw.unmerged_between k j q hq u hmem i hik q' hq'
      rcases hcase' with ⟨-, hlist⟩ | ⟨-, hlist⟩
      · rw [hlist, mem_insertLeaf]
        exact .inr hmem'
      · rwa [hlist]
    rcases hcase with ⟨-, hlist⟩ | ⟨-, hlist⟩
    · rw [hlist, mem_insertLeaf] at hu
      rcases hu with rfl | hu
      · rcases hcase' with ⟨-, hlist'⟩ | ⟨hoff, -⟩
        · rw [hlist', mem_insertLeaf]
          exact .inl rfl
        · rw [htoNat] at hoff
          exact absurd rfl hoff
      · exact hold hu
    · exact hold (hlist ▸ hu)

end WellFormed

/-! ## Trees -/

namespace RatchetTree

variable {S : Suite} {t t' : RatchetTree} {h L : ℕ}

/-- The array is a complete tree, its right half has a populated leaf, and its
slots are well formed. -/
structure RepresentationInvariant (t : RatchetTree) : Prop where
  full : ∃ h, t.Full h ∧ (0 < h → ∃ L, 2 ^ (h - 1) ≤ L ∧ t.slot 0 L ≠ none)
  wellFormed : WellFormed t.slot

theorem exists_slot_of_resolutionAt_ne_nil :
    ∀ k j, t.resolutionAt k j ≠ [] → ∃ i m, Below k j i m ∧ t.slot i m ≠ none := by
  intro k
  induction k with
  | zero =>
      intro j hne
      refine ⟨0, j, Below.self 0 j, fun hnone => hne ?_⟩
      exact resolutionAt_zero_of_none hnone
  | succ k ih =>
      intro j hne
      cases hslot : t.slot (k + 1) j with
      | some n => exact ⟨k + 1, j, Below.self _ j, by simp [hslot]⟩
      | none =>
          rw [resolutionAt_succ_of_none hslot, Ne, List.append_eq_nil_iff, not_and_or] at hne
          rcases hne with hleft | hright
          · obtain ⟨i, m, hbelow, hm⟩ := ih (2 * j) hleft
            exact ⟨i, m, Below.up (b := 0) hbelow (by omega), hm⟩
          · obtain ⟨i, m, hbelow, hm⟩ := ih (2 * j + 1) hright
            exact ⟨i, m, hbelow.up (by omega), hm⟩

theorem Below.leaf {k j i m M : ℕ} (hbelow : Below k j i m)
    (hM : M / 2 ^ i = m) : M / 2 ^ k = j := by
  by_contra hoff
  exact hbelow.off_path hoff hM

theorem leaf_of_resolutionAt_ne_nil (hw : WellFormed t.slot) {k j : ℕ}
    (hne : t.resolutionAt k j ≠ []) :
    ∃ M, M / 2 ^ k = j ∧ t.slot 0 M ≠ none := by
  obtain ⟨i, m, hbelow, hslot⟩ := exists_slot_of_resolutionAt_ne_nil k j hne
  obtain ⟨M, hM, hMne⟩ := hw.leaf_below hslot
  exact ⟨M, hbelow.leaf hM, hMne⟩

theorem Full.unmerged_index_eq (hf : t.Full h) {u : UInt32} (hmember : t.slot 0 u.toNat ≠ none) :
    u32 (2 * u.toNat) = inorder 0 u.toNat := by
  obtain ⟨n, hn⟩ := Option.ne_none_iff_exists'.mp hmember
  have hin := hf.inside_of_slot hn
  have hlt : u.toNat < 2 ^ 31 :=
    hin.2.trans_le (Nat.pow_le_pow_right (by norm_num) hf.le_thirtyOne)
  rw [u32_double_of_lt hlt, inorder_zero]

theorem Full.mem_resolutionAt (hf : t.Full h) (hw : WellFormed t.slot) :
    ∀ k j x, x ∈ t.resolutionAt k j →
      ∃ i m, x = inorder i m ∧ Below k j i m ∧ t.slot i m ≠ none := by
  have hnode : ∀ k j n x, t.slot k j = some n → x ∈ nodeResolution (inorder k j) n →
      ∃ i m, x = inorder i m ∧ Below k j i m ∧ t.slot i m ≠ none := by
    intro k j n x hslot hx
    cases n with
    | leaf l =>
        rw [nodeResolution, List.mem_singleton] at hx
        exact ⟨k, j, hx, Below.self k j, by simp [hslot]⟩
    | parent p =>
        rw [nodeResolution, List.mem_cons, List.mem_map] at hx
        rcases hx with rfl | ⟨u, hu, rfl⟩
        · exact ⟨k, j, rfl, Below.self k j, by simp [hslot]⟩
        · obtain ⟨hdiv, hne⟩ := hw.unmerged_below k j p hslot u hu
          exact ⟨0, u.toNat, hf.unmerged_index_eq hne, below_leaf_iff.mpr hdiv, hne⟩
  intro k
  induction k with
  | zero =>
      intro j x hx
      cases hslot : t.slot 0 j with
      | none => simp [resolutionAt_zero_of_none hslot] at hx
      | some n =>
          rw [resolutionAt_of_some hslot] at hx
          exact hnode 0 j n x hslot hx
  | succ k ih =>
      intro j x hx
      cases hslot : t.slot (k + 1) j with
      | some n =>
          rw [resolutionAt_of_some hslot] at hx
          exact hnode (k + 1) j n x hslot hx
      | none =>
          rw [resolutionAt_succ_of_none hslot, List.mem_append] at hx
          rcases hx with hx | hx
          · obtain ⟨i, m, rfl, hb, hne⟩ := ih (2 * j) x hx
            exact ⟨i, m, rfl, Below.up (b := 0) hb (by omega), hne⟩
          · obtain ⟨i, m, rfl, hb, hne⟩ := ih (2 * j + 1) x hx
            exact ⟨i, m, rfl, hb.up (by omega), hne⟩

theorem Installed.wellFormed {nodePubs : List Bytes} {entries : GoMap ℕ ParentNode}
    {leaf : LeafNode} (hi : Installed S t h L nodePubs entries leaf t') (hw : WellFormed t.slot) :
    WellFormed t'.slot := by
  refine hw.rewritePath hi.slot_eq ?_ ?_ ?_
  · rintro n ⟨⟩
    exact ⟨leaf, rfl⟩
  · intro k n hn
    obtain ⟨p, rfl, hmem⟩ := entrySlot_eq_some hn
    exact ⟨p, rfl, pathEntries_unmerged hi.entries_eq _ hmem⟩
  · intro k hne
    refine ⟨by simp, leaf_of_resolutionAt_ne_nil hw ?_⟩
    have hcopath := (hi.entrySlot_ne_none_iff.mp hne).2
    simpa [copathEmpty] using hcopath

theorem rightHalf_mono (hright : 0 < h → ∃ L, 2 ^ (h - 1) ≤ L ∧ t.slot 0 L ≠ none)
    (hkeep : ∀ L, t.slot 0 L ≠ none → t'.slot 0 L ≠ none) :
    0 < h → ∃ L, 2 ^ (h - 1) ≤ L ∧ t'.slot 0 L ≠ none := by
  intro hpos
  obtain ⟨L, hL, hne⟩ := hright hpos
  exact ⟨L, hL, hkeep L hne⟩

theorem Installed.invariant {nodePubs : List Bytes} {entries : GoMap ℕ ParentNode}
    {leaf : LeafNode} (hi : Installed S t h L nodePubs entries leaf t') (hf : t.Full h)
    (hinv : t.RepresentationInvariant) : t'.RepresentationInvariant := by
  obtain ⟨h', hf', hright⟩ := hinv.full
  obtain rfl := hf.height_unique hf'
  refine ⟨⟨h, hi.full, rightHalf_mono hright fun M hM => ?_⟩, hi.wellFormed hinv.wellFormed⟩
  rw [hi.slot_eq]
  split
  · simp
  · exact hM

theorem newRatchetTree_invariant (leaf : LeafNode) :
    (newRatchetTree leaf).RepresentationInvariant := by
  have hf : (newRatchetTree leaf).Full 0 := ⟨rfl, by omega⟩
  have hslots : ∀ k j, (newRatchetTree leaf).slot k j =
      if k = 0 ∧ j = 0 then some (.leaf leaf) else none := by
    intro k j
    by_cases hzero : k = 0 ∧ j = 0
    · obtain ⟨rfl, rfl⟩ := hzero
      rfl
    · rw [if_neg hzero]
      apply hf.slot_eq_none
      rintro ⟨hk, hj⟩
      have hk0 : k = 0 := by omega
      subst hk0
      simp at hj
      exact hzero ⟨rfl, hj⟩
  refine ⟨⟨0, hf, fun hpos => absurd hpos (by omega)⟩, ?_, ?_, ?_, ?_, ?_, ?_⟩
  · intro j n hn
    rw [hslots] at hn
    split at hn <;> cases hn
    exact ⟨leaf, rfl⟩
  all_goals
    intro k j
    simp [hslots]

theorem addLeaf_invariant {ln : LeafNode} (hinv : t.RepresentationInvariant)
    (hadd : t.addLeaf ln = .ok (L, t')) : t'.RepresentationInvariant := by
  obtain ⟨h, hf, hright⟩ := hinv.full
  obtain ⟨⟨hblank, -⟩, hL, hf', hslots⟩ := hf.addLeaf_ok hadd
  have hL32 : L < 2 ^ 32 := by
    refine hL.trans_le (Nat.pow_le_pow_right (by norm_num) ?_)
    have := hf'.le_thirty
    omega
  have hkeep : ∀ M, t.slot 0 M ≠ none → t'.slot 0 M ≠ none := by
    intro M hM
    rw [hslots]
    split
    · simp
    · exact hM
  refine ⟨⟨_, hf', ?_⟩, hinv.wellFormed.addLeaf hL32 hblank hslots⟩
  by_cases hroom : L < 2 ^ h
  · rw [if_pos hroom]
    exact rightHalf_mono hright hkeep
  · rw [if_neg hroom]
    intro _
    refine ⟨L, by simpa using hroom, ?_⟩
    rw [hslots]
    simp

theorem updateLeaf_invariant {leaf : ℕ} {ln : LeafNode}
    (hinv : t.RepresentationInvariant) (hupdate : t.updateLeaf leaf ln = .ok t') :
    t'.RepresentationInvariant := by
  obtain ⟨h, hf, hright⟩ := hinv.full
  obtain ⟨-, hf', hslots⟩ := hf.updateLeaf_ok hupdate
  refine ⟨⟨h, hf', rightHalf_mono hright fun M hM => ?_⟩, ?_⟩
  · rw [hslots]
    split
    · simp
    · exact hM
  · refine hinv.wellFormed.rewritePath (f := fun _ => none) hslots ?_ ?_ ?_
    · rintro n ⟨⟩
      exact ⟨ln, rfl⟩
    · simp
    · simp

theorem removeLeaf_invariant {leaf : ℕ} (hinv : t.RepresentationInvariant)
    (hremove : t.removeLeaf leaf = .ok t') : t'.RepresentationInvariant := by
  obtain ⟨h, hf, -⟩ := hinv.full
  obtain ⟨h', -, -, hf', hslots, hupper⟩ := hf.removeLeaf_ok hremove
  have hw : WellFormed t'.slot := by
    refine hinv.wellFormed.rewritePath (L := leaf % 2 ^ 31) (x := none)
      (f := fun _ => none) (fun k j => ?_) ?_ ?_ ?_
    · rw [hslots]
      simp
    all_goals simp
  refine ⟨⟨h', hf', fun hpos => ?_⟩, hw⟩
  obtain ⟨k, j, n, hn, hwide⟩ := hupper hpos
  have hadd := treeWidth_add_one (h' - 1)
  have hpow : 2 ^ (h' - 1 + 1) = 2 * 2 ^ (h' - 1) := by ring
  cases k with
  | zero =>
      rw [inorder_zero] at hwide
      exact ⟨j, by omega, by simp [hn]⟩
  | succ k =>
      obtain ⟨M, hM, hMne⟩ := hw.both_children k j (by simp [hn]) 1 (by omega)
      have hone := inorder_add_one (k + 1) j
      have hge : 2 ^ k * (2 * j + 1) ≤ M := by
        rw [← hM]
        exact Nat.mul_div_le M (2 ^ k)
      have hdouble : 2 ^ (k + 1) * (2 * j + 1) = 2 * (2 ^ k * (2 * j + 1)) := by ring
      exact ⟨M, by omega, hMne⟩

/-! ## Runs -/

def Populated (t : RatchetTree) (leaf : ℕ) : Prop := t.nodeAt (u32 (2 * leaf)) ≠ none

instance (t : RatchetTree) (leaf : ℕ) : Decidable (t.Populated leaf) :=
  inferInstanceAs (Decidable (t.nodeAt (u32 (2 * leaf)) ≠ none))

/-- One operation on the tree.  Operations that fail leave no new tree. -/
inductive TreeStep (S : Suite) : RatchetTree → RatchetTree → Prop where
  | addLeaf {t t' : RatchetTree} {leafIndex : ℕ} (ln : LeafNode)
      (hrun : t.addLeaf ln = .ok (leafIndex, t')) : TreeStep S t t'
  | updateLeaf {t t' : RatchetTree} (leaf : ℕ) (ln : LeafNode)
      (hmember : t.Populated leaf)
      (hrun : t.updateLeaf leaf ln = .ok t') : TreeStep S t t'
  | removeLeaf {t t' : RatchetTree} (leaf : ℕ)
      (hrun : t.removeLeaf leaf = .ok t')
      (hleft : ∃ member, t'.Populated member) : TreeStep S t t'
  | generateUpdatePath {t : RatchetTree} {gp : GeneratedPath} (sender : ℕ)
      (leafSecret : Bytes) (signer : Option Signer) (groupID : Bytes)
      (newlyAdded : List ℕ) (mkGroupContext : Bytes → Result Bytes)
      (seeds : ℕ → ℕ → Bytes) (hmember : t.Populated sender)
      (hrun : t.generateUpdatePath S sender leafSecret signer groupID
        newlyAdded mkGroupContext seeds = .ok gp) : TreeStep S t gp.tree
  | merge {t t' : RatchetTree} (sender : ℕ) (up : UpdatePath)
      (hmember : t.Populated sender)
      (hrun : t.merge S sender up = .ok t') : TreeStep S t t'

theorem Full.populated_iff (hf : t.Full h) {leaf : ℕ} :
    t.Populated leaf ↔ t.slot 0 (leaf % 2 ^ 31) ≠ none := by
  rw [Populated, u32_double, hf.nodeAt_eq]

theorem Full.member_lt (hf : t.Full h) {M : ℕ} (hmember : t.slot 0 M ≠ none) : M < 2 ^ h := by
  obtain ⟨n, hn⟩ := Option.ne_none_iff_exists'.mp hmember
  simpa using (hf.inside_of_slot hn).2

theorem Full.populated_iff_of_lt (hf : t.Full h) {M : ℕ} (hM : M < 2 ^ h) :
    t.Populated M ↔ t.slot 0 M ≠ none := by
  have hle := hf.two_pow_le
  rw [hf.populated_iff, Nat.mod_eq_of_lt (by omega)]

/-- One successful call of an operation, whatever its arguments: an update or a
merge may populate a blank leaf, and a removal may leave no member. -/
inductive TreeCall (S : Suite) : RatchetTree → RatchetTree → Prop where
  | addLeaf {t t' : RatchetTree} {leafIndex : ℕ} (ln : LeafNode)
      (hrun : t.addLeaf ln = .ok (leafIndex, t')) : TreeCall S t t'
  | updateLeaf {t t' : RatchetTree} (leaf : ℕ) (ln : LeafNode)
      (hrun : t.updateLeaf leaf ln = .ok t') : TreeCall S t t'
  | removeLeaf {t t' : RatchetTree} (leaf : ℕ)
      (hrun : t.removeLeaf leaf = .ok t') : TreeCall S t t'
  | generateUpdatePath {t : RatchetTree} {gp : GeneratedPath} (sender : ℕ)
      (leafSecret : Bytes) (signer : Option Signer) (groupID : Bytes)
      (newlyAdded : List ℕ) (mkGroupContext : Bytes → Result Bytes)
      (seeds : ℕ → ℕ → Bytes)
      (hrun : t.generateUpdatePath S sender leafSecret signer groupID
        newlyAdded mkGroupContext seeds = .ok gp) : TreeCall S t gp.tree
  | merge {t t' : RatchetTree} (sender : ℕ) (up : UpdatePath)
      (hrun : t.merge S sender up = .ok t') : TreeCall S t t'

def Reachable (S : Suite) (t : RatchetTree) : Prop :=
  ∃ leaf, Relation.ReflTransGen (TreeCall S) (newRatchetTree leaf) t

theorem TreeCall.invariant (hcall : TreeCall S t t')
    (hinv : t.RepresentationInvariant) : t'.RepresentationInvariant := by
  obtain ⟨h, hf, -⟩ := hinv.full
  cases hcall with
  | addLeaf ln hrun => exact addLeaf_invariant hinv hrun
  | updateLeaf leaf ln hrun => exact updateLeaf_invariant hinv hrun
  | removeLeaf leaf hrun => exact removeLeaf_invariant hinv hrun
  | generateUpdatePath sender leafSecret signer groupID newlyAdded mkGroupContext seeds hrun =>
      obtain ⟨r⟩ := pathRun_of_generateUpdatePath hrun
      obtain ⟨entries, -, hi⟩ := r.installed_tree hf
      exact hi.invariant hf hinv
  | merge sender up hrun =>
      obtain ⟨entries, hi⟩ := hf.merge_installed rfl (hf.lt_of_merge hrun) hrun
      exact hi.invariant hf hinv

theorem Reachable.invariant (hreach : Reachable S t) : t.RepresentationInvariant := by
  obtain ⟨leaf, hrun⟩ := hreach
  induction hrun with
  | refl => exact newRatchetTree_invariant leaf
  | tail _ hcall ih => exact hcall.invariant ih

theorem TreeStep.call (hstep : TreeStep S t t') : TreeCall S t t' := by
  cases hstep with
  | addLeaf ln hrun => exact .addLeaf ln hrun
  | updateLeaf leaf ln hmember hrun => exact .updateLeaf leaf ln hrun
  | removeLeaf leaf hrun hleft => exact .removeLeaf leaf hrun
  | generateUpdatePath sender leafSecret signer groupID newlyAdded
      mkGroupContext seeds hmember hrun =>
      exact .generateUpdatePath sender leafSecret signer groupID newlyAdded
        mkGroupContext seeds hrun
  | merge sender up hmember hrun => exact .merge sender up hrun

/-- Every tree reached from a one-member tree satisfies the invariant. -/
theorem representationInvariant_of_run (leaf : LeafNode)
    (hrun : Relation.ReflTransGen (TreeStep S) (newRatchetTree leaf) t) :
    t.RepresentationInvariant := Reachable.invariant ⟨leaf, hrun.lift id fun _ _ => TreeStep.call⟩

def sampleLeaf (key : UInt8) : LeafNode :=
  ⟨[key], [key], .basic [], ⟨[], [], [], [], []⟩, .keyPackage ⟨0, 1⟩, [], []⟩

def twoMembers : RatchetTree := ⟨[some (.leaf (sampleLeaf 1)), none, some (.leaf (sampleLeaf 2))]⟩

theorem twoMembers_reachable : Reachable plainSuite twoMembers :=
  ⟨sampleLeaf 1, .single (.addLeaf (sampleLeaf 2) rfl)⟩

/-- One member adds another and updates its path. -/
theorem representationInvariant_two_members :
    ∃ gp, (RatchetTree.mk [some (.leaf (sampleLeaf 1)), none,
        some (.leaf (sampleLeaf 2))]).generateUpdatePath plainSuite 0 [3]
        (some ⟨[1]⟩) [] [] pure (fun _ _ => []) = .ok gp ∧
      gp.tree.RepresentationInvariant := by
  obtain ⟨gp, hrun⟩ : ∃ gp, (RatchetTree.mk [some (.leaf (sampleLeaf 1)), none,
      some (.leaf (sampleLeaf 2))]).generateUpdatePath plainSuite 0 [3] (some ⟨[1]⟩) [] [] pure
        (fun _ _ => []) = .ok gp := by decide +kernel
  refine ⟨gp, hrun, representationInvariant_of_run (S := plainSuite) (sampleLeaf 1) ?_⟩
  exact (Relation.ReflTransGen.single (.addLeaf (sampleLeaf 2) rfl)).tail
    (.generateUpdatePath 0 _ _ _ _ _ _ (by decide) hrun)

end RatchetTree

end MlsGo
