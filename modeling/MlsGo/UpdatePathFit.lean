import MlsGo.JoinerPlacement
import MlsGo.MergedPaths

/-!
# Whether a path fits a tree

The parent hashes that `Merge` assigns follow from the keys of the path and the
subtrees beside it, and the tree hashes along the path from those and the new
leaf.  So it can be said on the tree before the merge which node will carry the
parent hash of which path node, and parents off the path stay as they are.
-/

namespace MlsGo.RatchetTree

open InOrderLayout

variable {S : Suite} {t t' : RatchetTree} {h k j L : ℕ} {i sender : ℕ}

/-! ## Trees that agree off a path -/

/-- The trees agree at the leaves and off the path of `L`. -/
structure AgreeOff (t t' : RatchetTree) (h L : ℕ) : Prop where
  full : t.Full h
  full' : t'.Full h
  slot_eq : ∀ k j, k = 0 ∨ L / 2 ^ k ≠ j → t'.slot k j = t.slot k j

theorem mem_resolutionAt_cases :
    ∀ k j, ∀ x ∈ t.resolutionAt k j, ∃ i m, x = inorder i m ∧ (i = 0 ∨ Below k j i m) := by
  have hnode : ∀ k j n, ∀ x ∈ nodeResolution (inorder k j) n,
      ∃ i m, x = inorder i m ∧ (i = 0 ∨ Below k j i m) := by
    intro k j n x hx
    have hself : x = inorder k j → ∃ i m, x = inorder i m ∧ (i = 0 ∨ Below k j i m) :=
      fun hx => ⟨k, j, hx, .inr (.self k j)⟩
    cases n with
    | leaf l => exact hself (List.mem_singleton.mp hx)
    | parent p =>
        rw [nodeResolution, List.mem_cons, List.mem_map] at hx
        rcases hx with hx | ⟨u, -, rfl⟩
        · exact hself hx
        · exact ⟨0, _, u32_double _, .inl rfl⟩
  intro k
  induction k with
  | zero =>
      intro j x hx
      cases hslot : t.slot 0 j with
      | none => simp [resolutionAt_zero_of_none hslot] at hx
      | some n => exact hnode 0 j n x (resolutionAt_of_some hslot ▸ hx)
  | succ k ih =>
      intro j x hx
      cases hslot : t.slot (k + 1) j with
      | some n => exact hnode (k + 1) j n x (resolutionAt_of_some hslot ▸ hx)
      | none =>
          have hup : ∀ b < 2, x ∈ t.resolutionAt k (2 * j + b) →
              ∃ i m, x = inorder i m ∧ (i = 0 ∨ Below (k + 1) j i m) := by
            intro b hb hx
            obtain ⟨i, m, rfl, hbelow⟩ := ih _ x hx
            exact ⟨i, m, rfl, hbelow.imp_right (·.up hb)⟩
          rw [resolutionAt_succ_of_none hslot, List.mem_append] at hx
          rcases hx with hx | hx
          · exact hup 0 (by omega) hx
          · exact hup 1 (by omega) hx

theorem parentHashMatchLoop_congr {want : Bytes} {res expected : List ℕ} :
    ∀ ds, (∀ x ∈ ds, t'.nodeParentHash x = t.nodeParentHash x) →
      t'.parentHashMatchLoop want res expected ds =
        t.parentHashMatchLoop want res expected ds := by
  intro ds
  induction ds with
  | nil => exact fun _ => rfl
  | cons d ds ih =>
      intro hsame
      rw [List.forall_mem_cons] at hsame
      rw [parentHashMatchLoop, parentHashMatchLoop, hsame.1, ih hsame.2]

theorem not_oneSideMatches_leaf (hlt : inorder 0 j < 2 ^ 32) :
    ¬t.OneSideMatches S (inorder 0 j) := by
  rintro ⟨r, ok, okL, okR, hright, hl, hr, hne⟩
  have hzero : right (inorder 0 j) t.leafCount = .ok (0, false) := by
    simp only [right, level_inorder hlt, if_true]
  cases hzero.symm.trans hright
  rw [left_inorder_zero hlt] at hl hr
  cases hl.symm.trans hr
  exact hne rfl

theorem HoldsParent.slot (hparent : t.HoldsParent i) :
    ∃ k j p, i = inorder k j ∧ t.slot k j = some (.parent p) := by
  obtain ⟨p, hp⟩ := hparent
  obtain ⟨k, j, rfl⟩ := exists_inorder i
  exact ⟨k, j, p, rfl, Option.join_eq_some_iff.mpr hp⟩

namespace AgreeOff

variable (ha : AgreeOff t t' h L)
include ha

theorem below (hoff : L / 2 ^ k ≠ j) {m : ℕ} (hbelow : Below k j i m) : t'.slot i m = t.slot i m :=
  ha.slot_eq i m (.inr (hbelow.off_path hoff))

theorem resolutionAt_eq (hoff : L / 2 ^ k ≠ j) : t'.resolutionAt k j = t.resolutionAt k j :=
  resolutionAt_congr k j fun _ _ => ha.below hoff

theorem nodeParentHash_eq {m : ℕ} (hsame : t'.slot i m = t.slot i m) :
    t'.nodeParentHash (inorder i m) = t.nodeParentHash (inorder i m) := by
  by_cases hin : Inside h i m
  · rw [ha.full'.nodeParentHash_eq hin, ha.full.nodeParentHash_eq hin, hsame]
  · rw [inside_iff, not_lt] at hin
    simp [nodeParentHash, index, List.getElem?_eq_none (ha.full.length_eq.trans_le hin),
      List.getElem?_eq_none (ha.full'.length_eq.trans_le hin)]

theorem parentHashMatchLoop_eq (hoff : L / 2 ^ k ≠ j) (want : Bytes) (expected : List ℕ) :
    t'.parentHashMatchLoop want (t'.resolutionAt k j) expected (t'.resolutionAt k j) =
      t.parentHashMatchLoop want (t.resolutionAt k j) expected (t.resolutionAt k j) := by
  rw [ha.resolutionAt_eq hoff]
  refine parentHashMatchLoop_congr _ fun x hx => ?_
  obtain ⟨i, m, rfl, hbelow⟩ := mem_resolutionAt_cases k j x hx
  exact ha.nodeParentHash_eq (ha.slot_eq i m (hbelow.imp_right fun hbelow => hbelow.off_path hoff))

theorem holdsParent (hoff : subtreeContains i (inorder 0 L) = false) (hparent : t'.HoldsParent i) :
    t.HoldsParent i ∧ (t'.OneSideMatches S i ↔ t.OneSideMatches S i) := by
  have hh := ha.full.le_thirtyOne
  obtain ⟨k, j, p, rfl, hp⟩ := hparent.slot
  have hin := ha.full'.inside_of_slot hp
  have hj : L / 2 ^ k ≠ j := by
    intro hj
    rw [(hin.subtreeContains_iff hh).mpr (below_leaf_iff.mpr hj)] at hoff
    cases hoff
  have hslot : t.slot k j = some (.parent p) := (ha.slot_eq k j (.inr hj)).symm.trans hp
  refine ⟨⟨p, Option.join_eq_some_iff.mp hslot⟩, ?_⟩
  cases k with
  | zero =>
      have hlt := (inside_iff.mp hin).trans (treeWidth_lt hh)
      exact iff_of_false (not_oneSideMatches_leaf hlt) (not_oneSideMatches_leaf hlt)
  | succ k =>
      have hchild : ∀ b < 2, L / 2 ^ k ≠ 2 * j + b := by
        intro b hb hb'
        rw [ancestor_succ] at hj
        omega
      have hmatch : ∀ b < 2, ∀ c < 2,
          t'.hasParentHashMatch S (inorder (k + 1) j) (inorder k (2 * j + b))
              (inorder k (2 * j + c)) =
            t.hasParentHashMatch S (inorder (k + 1) j) (inorder k (2 * j + b))
              (inorder k (2 * j + c)) := by
        intro b hb c hc
        rw [ha.full'.hasParentHashMatch_bind hp (hin.child hb) (hin.child hc),
          ha.full.hasParentHashMatch_bind hslot (hin.child hb) (hin.child hc), parentHashVia,
          parentHashVia, treeHashAt_congr_slots S _ k _ fun _ _ => ha.below (hchild c hc)]
        simp only [ha.parentHashMatchLoop_eq (hchild b hb)]
      rw [ha.full'.oneSideMatches_iff hin (b := 0) (by omega), ha.full.oneSideMatches_iff hin
        (b := 0) (by omega), hmatch 0 (by omega) 1 (by omega), hmatch 1 (by omega) 0 (by omega)]

theorem symm : AgreeOff t' t h L := ⟨ha.full', ha.full, fun k j hoff => (ha.slot_eq k j hoff).symm⟩

end AgreeOff

/-! ## A path before it is merged -/

/-- The tree hash of the subtree of height `k` above `L`, with the entries of a path
in it. -/
def pathHash (S : Suite) (t : RatchetTree) (L : ℕ) (entries : GoMap ℕ ParentNode) :
    ℕ → Result Bytes
  | 0 => t.treeHashAt S [] 0 L
  | k + 1 => do
      let own := t.pathHash S L entries k
      let beside := t.treeHashAt S [] k (siblingRank (L / 2 ^ k))
      let children := if L / 2 ^ k % 2 = 0 then (own, beside) else (beside, own)
      let left ← children.1
      let right ← children.2
      let input ← parentHashInput (entries.get k) left right
      return S.hash input

/-- Whether a node beside the path carries the parent hash of the path node `p` at
level `k + 1`. -/
def copathCarries (S : Suite) (t : RatchetTree) (L : ℕ) (entries : GoMap ℕ ParentNode)
    (k : ℕ) (p : ParentNode) : Result Bool := do
  let own ← t.pathHash S L entries k
  let input ← parentHashBytes p.encryptionKey p.parentHash own
  let res := t.resolutionAt k (siblingRank (L / 2 ^ k))
  t.parentHashMatchLoop (S.hash input) res [] res

/-- Exactly one of the leaf and the nodes beside the path carries the parent hash of the
lowest entry, and no node beside the path that of another. -/
def EntriesFit (S : Suite) (t : RatchetTree) (L : ℕ) (leaf : LeafNode) :
    GoMap ℕ ParentNode → Prop
  | [] => True
  | (k, p) :: others =>
      (∃ want, t.parentHashVia S p k (siblingRank (L / 2 ^ k)) = .ok want ∧
        t.copathCarries S L ((k, p) :: others) k p =
          .ok (decide (slotParentHash (some (.leaf leaf)) ≠ some want))) ∧
      ∀ e ∈ others, t.copathCarries S L ((k, p) :: others) e.1 e.2 = .ok false

/-- A path fits a tree that has its leaf already. -/
def TakesPath (S : Suite) (t : RatchetTree) (L : ℕ) (up : UpdatePath) : Prop :=
  ∃ entries,
    t.pathEntries S L ((t.pathLevels (Nat.log2 t.leafCount) L).zip
      (up.nodes.map (·.encryptionKey))) = .ok entries ∧
    t.EntriesFit S L up.leafNode entries

section Seated

variable {nodePubs : List Bytes} {entries : GoMap ℕ ParentNode} {leaf : LeafNode}

theorem Full.sameButLeaf (hf : t.Full h) (hL : L < 2 ^ h) (n : Option Node) :
    SameButLeaf t (t.setSlot 0 L n) h L := by
  refine ⟨hf, hf.setSlot 0 L n, fun k j hne => ?_⟩
  rw [hf.slot_setSlot (by simpa using inside_ancestor hL (Nat.zero_le h)), if_neg hne]

theorem Installed.seated {t₁ : RatchetTree} (hi : Installed S t h L nodePubs entries leaf t')
    (hs : SameButLeaf t t₁ h L) : Installed S t₁ h L nodePubs entries leaf t' where
  length_eq := by rw [hs.pathLevels_eq, hi.length_eq]
  entries_eq := by rw [hs.pathLevels_eq, hs.pathEntries_eq, hi.entries_eq]
  full := hi.full
  slot_eq := by
    intro k j
    rw [hi.slot_eq]
    by_cases hj : L / 2 ^ k = j
    · rw [if_pos hj, if_pos hj]
    · rw [if_neg hj, if_neg hj, hs.slot_off hj]

variable (hi : Installed S t h L nodePubs entries leaf t')
  (hseat : t.slot 0 L = some (.leaf leaf)) (hf : t.Full h)
include hi hseat

theorem Installed.treeHashAt_eq (k : ℕ) :
    t'.treeHashAt S [] k (L / 2 ^ k) = t.pathHash S L entries k := by
  induction k with
  | zero => rw [pow_zero, Nat.div_one, treeHashAt, hi.slot_leaf, ← hseat, pathHash, treeHashAt]
  | succ k ih =>
      have hbeside : t'.treeHashAt S [] k (siblingRank (L / 2 ^ k)) =
          t.treeHashAt S [] k (siblingRank (L / 2 ^ k)) :=
        treeHashAt_congr_slots S _ k _ fun _ _ hb => hi.slot_off (hb.off_path (siblingRank_ne _))
      have hparent : hashedParent [] (t'.slot (k + 1) (L / 2 ^ (k + 1))) = entries.get k := by
        rw [hi.slot_on, entrySlot]
        cases entries.get k with
        | none => rfl
        | some p => simp [hashedParent, filterLeaves]
      have hown := own_child_rank L k
      have hother := other_child_rank L k
      rw [treeHashAt, hparent, pathHash]
      rcases Nat.mod_two_eq_zero_or_one (L / 2 ^ k) with hbit | hbit
      · rw [hbit, Nat.add_zero] at hown
        rw [hbit, Nat.sub_zero] at hother
        rw [hother, hown, ih, hbeside, if_pos hbit]
      · rw [hbit] at hown
        rw [hbit, Nat.sub_self, Nat.add_zero] at hother
        rw [hown, hother, ih, hbeside, if_neg (by omega)]

include hf in
theorem Installed.agreeOff : AgreeOff t t' h L := by
  refine ⟨hf, hi.full, fun k j hoff => ?_⟩
  by_cases hj : L / 2 ^ k = j
  · obtain rfl := hoff.resolve_right (not_not_intro hj)
    rw [pow_zero, Nat.div_one] at hj
    rw [← hj, hi.slot_leaf, hseat]
  · exact hi.slot_off hj

include hf in
theorem Installed.copathMatch_carries (hsender : sender % 2 ^ 31 = L)
    (hL : L < 2 ^ h) (e : ℕ × ParentNode) (he : e ∈ entries) :
    t'.copathMatch S sender (pathNode L e.1) = t.copathCarries S L entries e.1 e.2 := by
  have hk := hi.level_lt he
  have hslot : t'.slot (e.1 + 1) (L / 2 ^ (e.1 + 1)) = some (.parent e.2) := by
    rw [hi.slot_on, entrySlot, GoMap.get_of_mem ?_ he]
    · rfl
    · rw [hi.keys_eq]
      exact (t.pathLevels_sorted h L).nodup
  have hnil := pathEntries_unmerged hi.entries_eq e he
  have hown := inside_ancestor hL hk.le
  rw [hi.full.copathMatch_eq hsender hL hk, pathNode, hi.full.hasParentHashMatch_bind hslot
    (hown.sibling hk) hown, parentHashVia, hnil, hi.treeHashAt_eq hseat, copathCarries]
  simp only [(hi.agreeOff hseat hf).parentHashMatchLoop_eq (siblingRank_ne (L / 2 ^ e.1)),
    unmergedBelow, hnil, List.map_nil, List.filter_nil, bind_assoc, pure_bind]

include hf in
theorem Installed.pathFits_iff (hsender : sender % 2 ^ 31 = L) (hL : L < 2 ^ h) :
    PathFits S t' sender leaf ((entries.map Prod.fst).map (pathNode L)) ↔
      t.EntriesFit S L leaf entries := by
  have hwant := hi.leafParentHash_eq hsender hL
  have hcarries := hi.copathMatch_carries hseat hf hsender hL
  cases entries with
  | nil => rfl
  | cons entry others =>
      obtain ⟨k, p⟩ := entry
      simp only [List.map_cons] at hwant
      rw [List.forall_mem_cons] at hcarries
      simp only [List.map_cons, PathFits, EntriesFit, hwant, hcarries.1, parentHashBelow,
        List.mem_map, forall_exists_index, and_imp, forall_apply_eq_imp_iff₂]
      exact and_congr Iff.rfl (forall₂_congr fun e he => by rw [hcarries.2 e he])

omit hseat in
theorem Installed.mem_path_iff_above (hparent : t'.HoldsParent i) :
    i ∈ (entries.map Prod.fst).map (pathNode L) ↔ subtreeContains i (inorder 0 L) = true := by
  have hh := hi.full.le_thirtyOne
  obtain ⟨k, j, p, rfl, hp⟩ := hparent.slot
  rw [(hi.full.inside_of_slot hp).subtreeContains_iff hh, below_leaf_iff]
  constructor
  · intro hmem
    obtain ⟨i, -, heq⟩ := List.mem_map.mp hmem
    obtain ⟨rfl, rfl⟩ := inorder_inj.mp heq
    rfl
  · rintro rfl
    cases k with
    | zero =>
        rw [pow_zero, Nat.div_one, hi.slot_leaf] at hp
        cases hp
    | succ k => exact hi.mem_path_iff.mpr (by simp [hp])

include hf in
theorem Installed.verifyParentHashes_seated (hsender : sender % 2 ^ 31 = L) (hL : L < 2 ^ h) :
    t'.verifyParentHashes S = .ok true ↔ t.EntriesFit S L leaf entries ∧
      ∀ i, t.HoldsParent i → subtreeContains i (inorder 0 L) = false → t.OneSideMatches S i := by
  have hagree := hi.agreeOff hseat hf
  rw [verifyParentHashes_eq_true, ← hi.pathFits_iff hseat hf hsender hL,
    ← hi.path_matched_iff hsender hL]
  constructor
  · intro hall
    refine ⟨fun i hmem => hall i (hi.path_holdsParent hmem), fun i hparent hoff => ?_⟩
    obtain ⟨hparent', hiff⟩ := hagree.symm.holdsParent hoff hparent
    exact hiff.mpr (hall i hparent')
  · rintro ⟨hpath, helsewhere⟩ i hparent
    by_cases hmem : i ∈ (entries.map Prod.fst).map (pathNode L)
    · exact hpath i hmem
    · rw [hi.mem_path_iff_above hparent, Bool.not_eq_true] at hmem
      obtain ⟨hparent', hiff⟩ := hagree.holdsParent hmem hparent
      exact hiff.mpr (helsewhere i hparent' hmem)

end Seated

end MlsGo.RatchetTree
