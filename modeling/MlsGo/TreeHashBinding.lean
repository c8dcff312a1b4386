import MlsGo.RepresentationInvariant

/-!
# What the tree hash binds

`treeHashExcept` looks at the kind of slot it is in, not at the kind of node it
finds there: a leaf in an odd slot and a parent in an even slot are hashed as
blank.  The parser accepts such nodes and `Resolution` uses them.  So the root
tree hash determines a parsed tree up to its misplaced nodes, and no further.
-/

namespace MlsGo

open DecoderLaws

/-! ## Parsed trees are full -/

variable {buf rest x : Bytes} {p : Option ParentNode}

theorem readVarint_le {v : ℕ} (hread : readVarint buf = .ok (v, rest)) : v ≤ maxVarint := by
  by_contra hlarge
  have hcanon : canonicalLength v = 0 := by
    have hfail : writeVarint v = .error (.err (.varintTooLong v)) := by
      unfold maxVarint at hlarge
      rw [writeVarint, if_neg (by omega), if_neg (by omega), if_neg (by unfold maxVarint; omega)]
    rw [canonicalLength, hfail]
  cases buf with
  | nil => cases hread
  | cons first others =>
      simp only [readVarint] at hread
      split at hread
      · cases hread
      split at hread
      · cases hread
      split at hread
      · cases hread
      · rename_i _ _ hlength
        cases hread
        have hpos : 0 < 1 <<< (first >>> 6).toNat := by
          rw [Nat.one_shiftLeft]
          exact Nat.two_pow_pos _
        rw [ne_eq, not_not, hcanon] at hlength
        omega

theorem readOpaqueV_length_le {body : Bytes} (hread : readOpaqueV buf = .ok (body, rest)) :
    body.length ≤ maxVarint := by
  simp only [readOpaqueV, Bind.bind, StateT.bind, Except.bind] at hread
  split at hread
  · cases hread
  · rename_i pair hvarint
    have hle := readVarint_le hvarint
    simp only [take] at hread
    split at hread
    · cases hread
    · cases hread
      exact (List.length_take_le _ _).trans hle

theorem decodeAll_length_le {α : Type} {dec : Cursor α} {values : List α} :
    ∀ {fuel : ℕ} {buf : Bytes},
      decodeAll Fault.diverge dec fuel buf = .ok values → values.length ≤ fuel := by
  intro fuel
  induction fuel generalizing values with
  | zero =>
      intro buf hread
      cases buf with
      | nil => cases hread; rfl
      | cons _ _ => cases hread
  | succ fuel ih =>
      intro buf hread
      cases buf with
      | nil => cases hread; simp
      | cons b bs =>
          obtain ⟨⟨value, rest⟩, -, hread⟩ := bind_eq_ok.mp hread
          obtain ⟨others, hothers, hread⟩ := bind_eq_ok.mp hread
          cases hread
          simpa using ih hothers

theorem readVectorV_length_le {α : Type} {dec : Cursor α}
    {values : List α} (hread : readVectorV dec buf = .ok (values, rest)) :
    values.length ≤ maxVarint := by
  obtain ⟨⟨body, middle⟩, hbody, hread⟩ := bind_eq_ok.mp hread
  obtain ⟨inner, hinner, hread⟩ := bind_eq_ok.mp hread
  cases hread
  exact (decodeAll_length_le hinner).trans (readOpaqueV_length_le hbody)

namespace RatchetTree

open InOrderLayout

variable {S : Suite} {t t' t₁ t₂ : RatchetTree} {h k j : ℕ}

theorem parseRatchetTree_full {data : Bytes}
    (hparse : parseRatchetTree data = .ok t) : ∃ h < 30, t.Full h := by
  obtain ⟨⟨nodes, rest⟩, hread, hparse⟩ := bind_eq_ok.mp hparse
  have hlen := readVectorV_length_le hread
  simp only at hparse
  split at hparse
  · cases hparse
  split at hparse
  · cases hparse
  · cases hparse
  · cases hparse
    obtain ⟨h, hle, hgt⟩ := exists_least_height nodes.length
    have hh : h < 30 := by
      by_contra hh
      have hwide := hgt 29 (by omega)
      have hadd := treeWidth_add_one 29
      unfold maxVarint at hlen
      omega
    exact ⟨h, hh, padToFullWidth_full hh.le hle hgt⟩

theorem clone_full (hclone : t.clone = .ok t') : ∃ h, t'.Full h := by
  obtain ⟨data, -, hparse⟩ := bind_eq_ok.mp hclone
  obtain ⟨h, -, hf⟩ := parseRatchetTree_full hparse
  exact ⟨h, hf⟩

/-! ## Misplaced nodes -/

def placed (i : ℕ) : Option Node → Option Node
  | some (.leaf l) => if i % 2 = 0 then some (.leaf l) else none
  | some (.parent p) => if i % 2 = 1 then some (.parent p) else none
  | none => none

def dropMisplaced (t : RatchetTree) : RatchetTree := ⟨t.nodes.mapIdx placed⟩

theorem Full.dropMisplaced (hf : t.Full h) : t.dropMisplaced.Full h :=
  ⟨by simpa [RatchetTree.dropMisplaced] using hf.length_eq, hf.le_thirty⟩

theorem slot_dropMisplaced (t : RatchetTree) (k j : ℕ) :
    t.dropMisplaced.slot k j = placed (inorder k j) (t.slot k j) := by
  simp only [slot, dropMisplaced, List.getElem?_mapIdx]
  cases t.nodes[inorder k j]? <;> rfl

theorem placed_leaf_slot (j : ℕ) (slot : Option Node) :
    placed (inorder 0 j) slot = (hashedLeaf [] j slot).map Node.leaf := by
  rcases slot with _ | (_ | _) <;> simp [placed, hashedLeaf]

theorem inorder_succ_odd (k j : ℕ) : inorder (k + 1) j % 2 = 1 := by
  have hone := inorder_add_one (k + 1) j
  have heven : 2 ^ (k + 1) * (2 * j + 1) = 2 * (2 ^ k * (2 * j + 1)) := by ring
  omega

theorem filterLeaves_nil (leaves : List UInt32) : filterLeaves leaves [] = leaves := by
  simp [filterLeaves]

theorem placed_parent_slot (k j : ℕ) (slot : Option Node) :
    placed (inorder (k + 1) j) slot = (hashedParent [] slot).map Node.parent := by
  rcases slot with _ | (_ | _) <;> simp [placed, hashedParent, inorder_succ_odd, filterLeaves_nil]

def SameHashed (t₁ t₂ : RatchetTree) (k j : ℕ) : Prop :=
  (∀ m, Below k j 0 m → hashedLeaf [] m (t₁.slot 0 m) = hashedLeaf [] m (t₂.slot 0 m)) ∧
  ∀ i m, Below k j (i + 1) m →
    hashedParent [] (t₁.slot (i + 1) m) = hashedParent [] (t₂.slot (i + 1) m)

theorem Full.sameHashed_iff (hf₁ : t₁.Full h) (hf₂ : t₂.Full h) :
    SameHashed t₁ t₂ h 0 ↔ t₁.dropMisplaced = t₂.dropMisplaced := by
  constructor
  · intro hsame
    apply hf₁.dropMisplaced.ext_slots hf₂.dropMisplaced
    intro k j
    rw [slot_dropMisplaced, slot_dropMisplaced]
    by_cases hin : Inside h k j
    · have hbelow : Below h 0 k j := ⟨hin.1, Nat.div_eq_of_lt hin.2⟩
      cases k with
      | zero => rw [placed_leaf_slot, placed_leaf_slot, hsame.1 j hbelow]
      | succ k => rw [placed_parent_slot, placed_parent_slot, hsame.2 k j hbelow]
    · rw [hf₁.slot_eq_none hin, hf₂.slot_eq_none hin]
  · intro heq
    have hslots : ∀ k j, placed (inorder k j) (t₁.slot k j) =
        placed (inorder k j) (t₂.slot k j) := by
      intro k j
      rw [← slot_dropMisplaced, heq, slot_dropMisplaced]
    refine ⟨fun m _ => ?_, fun i m _ => ?_⟩
    · have hslot := hslots 0 m
      rw [placed_leaf_slot, placed_leaf_slot] at hslot
      exact Option.map_injective (fun _ _ heq => by cases heq; rfl) hslot
    · have hslot := hslots (i + 1) m
      rw [placed_parent_slot, placed_parent_slot] at hslot
      exact Option.map_injective (fun _ _ heq => by cases heq; rfl) hslot

/-! ## Binding -/

def hashedInputs (S : Suite) (t : RatchetTree) : ℕ → ℕ → Set Bytes
  | 0, j => {x | leafHashInput j (hashedLeaf [] j (t.slot 0 j)) = .ok x}
  | k + 1, j =>
      hashedInputs S t k (2 * j) ∪ hashedInputs S t k (2 * j + 1) ∪
        {x | ∃ l r, t.treeHashAt S [] k (2 * j) = .ok l ∧
          t.treeHashAt S [] k (2 * j + 1) = .ok r ∧
          parentHashInput (hashedParent [] (t.slot (k + 1) j)) l r = .ok x}

theorem leafHashInput_inj {m : ℕ} {l l' : Option LeafNode}
    (hl : leafHashInput m l = .ok x) (hl' : leafHashInput m l' = .ok x) :
    l = l' := by
  simp only [leafHashInput, bind_eq_ok, pure_ok_iff] at hl hl'
  obtain ⟨body, hbody, rfl⟩ := hl
  obtain ⟨body', hbody', heq⟩ := hl'
  rw [List.append_cancel_left_eq, List.append_cancel_left_eq] at heq
  have hjoin : body ++ [] = body' ++ [] := by rw [heq]
  exact ((roundTrips_optional roundTrips_leafNode).injective hbody hbody' hjoin).1

theorem parentHashInput_inj {p' : Option ParentNode} {l l' r r' : Bytes}
    (hp : parentHashInput p l r = .ok x)
    (hp' : parentHashInput p' l' r' = .ok x) : p = p' ∧ l = l' ∧ r = r' := by
  simp only [parentHashInput, bind_eq_ok, pure_ok_iff] at hp hp'
  obtain ⟨body, hbody, left, hleft, right, hright, rfl⟩ := hp
  obtain ⟨body', hbody', left', hleft', right', hright', heq⟩ := hp'
  rw [List.append_cancel_left_eq] at heq
  obtain ⟨rfl, hchildren⟩ := (roundTrips_optional
    roundTrips_parentNode).injective hbody hbody' heq.symm
  obtain ⟨rfl, hlast⟩ := roundTrips_opaqueV.injective hleft hleft' hchildren
  have hjoin : right ++ [] = right' ++ [] := by rw [hlast]
  exact ⟨rfl, rfl, (roundTrips_opaqueV.injective hright hright' hjoin).1⟩

theorem leafHashInput_ne_parentHashInput {m : ℕ} {leaf : Option LeafNode} {l r : Bytes}
    (hleaf : leafHashInput m leaf = .ok x) : parentHashInput p l r ≠ .ok x := by
  intro hparent
  simp only [leafHashInput, parentHashInput, bind_eq_ok, pure_ok_iff] at hleaf hparent
  obtain ⟨body, -, rfl⟩ := hleaf
  obtain ⟨body', -, left, -, right, -, heq⟩ := hparent
  simp [writeUint8] at heq

theorem treeHashAt_zero_ok {d : Bytes} (hhash : t.treeHashAt S [] 0 j = .ok d) :
    ∃ x ∈ hashedInputs S t 0 j, S.hash x = d ∧
      leafHashInput j (hashedLeaf [] j (t.slot 0 j)) = .ok x := by
  obtain ⟨x, hx, hd⟩ := bind_eq_ok.mp hhash
  rw [pure_ok_iff] at hd
  exact ⟨x, hx, hd, hx⟩

theorem treeHashAt_succ_ok {d : Bytes} (hhash : t.treeHashAt S [] (k + 1) j = .ok d) :
    ∃ l r, ∃ x ∈ hashedInputs S t (k + 1) j, S.hash x = d ∧
      t.treeHashAt S [] k (2 * j) = .ok l ∧
      t.treeHashAt S [] k (2 * j + 1) = .ok r ∧
      parentHashInput (hashedParent [] (t.slot (k + 1) j)) l r = .ok x := by
  obtain ⟨l, hl, hhash⟩ := bind_eq_ok.mp hhash
  obtain ⟨r, hr, hhash⟩ := bind_eq_ok.mp hhash
  obtain ⟨x, hx, hd⟩ := bind_eq_ok.mp hhash
  rw [pure_ok_iff] at hd
  exact ⟨l, r, x, .inr ⟨l, r, hl, hr, hx⟩, hd, hl, hr, hx⟩

theorem sameHashed_of_treeHashAt_eq :
    ∀ k₁ k₂ j d, t₁.treeHashAt S [] k₁ j = .ok d → t₂.treeHashAt S [] k₂ j = .ok d →
      Set.InjOn S.hash (hashedInputs S t₁ k₁ j ∪ hashedInputs S t₂ k₂ j) → k₁ = k₂ ∧
      SameHashed t₁ t₂ k₁ j := by
  intro k₁
  induction k₁ with
  | zero =>
      intro k₂ j d h₁ h₂ hinj
      obtain ⟨x₁, hmem₁, rfl, hx₁⟩ := treeHashAt_zero_ok h₁
      cases k₂ with
      | zero =>
          obtain ⟨x₂, hmem₂, heq, hx₂⟩ := treeHashAt_zero_ok h₂
          obtain rfl := hinj (.inr hmem₂) (.inl hmem₁) heq
          refine ⟨rfl, fun m hb => ?_, fun i m hb => absurd hb.1 (by omega)⟩
          obtain ⟨-, rfl⟩ := below_zero_iff.mp hb
          exact leafHashInput_inj hx₁ hx₂
      | succ k₂ =>
          obtain ⟨l, r, x₂, hmem₂, heq, -, -, hx₂⟩ := treeHashAt_succ_ok h₂
          obtain rfl := hinj (.inr hmem₂) (.inl hmem₁) heq
          exact absurd hx₂ (leafHashInput_ne_parentHashInput hx₁)
  | succ k₁ ih =>
      intro k₂ j d h₁ h₂ hinj
      obtain ⟨l₁, r₁, x₁, hmem₁, rfl, hl₁, hr₁, hx₁⟩ := treeHashAt_succ_ok h₁
      cases k₂ with
      | zero =>
          obtain ⟨x₂, hmem₂, heq, hx₂⟩ := treeHashAt_zero_ok h₂
          obtain rfl := hinj (.inr hmem₂) (.inl hmem₁) heq
          exact absurd hx₁ (leafHashInput_ne_parentHashInput hx₂)
      | succ k₂ =>
          obtain ⟨l₂, r₂, x₂, hmem₂, heq, hl₂, hr₂, hx₂⟩ := treeHashAt_succ_ok h₂
          obtain rfl := hinj (.inr hmem₂) (.inl hmem₁) heq
          obtain ⟨hparent, rfl, rfl⟩ := parentHashInput_inj hx₁ hx₂
          obtain ⟨rfl, hleft⟩ := ih k₂ (2 * j) l₁ hl₁ hl₂ (hinj.mono
            (Set.union_subset_union (fun _ hx => .inl (.inl hx)) fun _ hx => .inl (.inl hx)))
          obtain ⟨-, hright⟩ := ih k₁ (2 * j + 1) r₁ hr₁ hr₂ (hinj.mono
            (Set.union_subset_union (fun _ hx => .inl (.inr hx)) fun _ hx => .inl (.inr hx)))
          refine ⟨rfl, fun m hb => ?_, fun i m hb => ?_⟩
          · rcases hb.cases with ⟨hzero, -⟩ | ⟨b, hlt, hb⟩
            · omega
            · interval_cases b
              · exact hleft.1 m hb
              · exact hright.1 m hb
          · rcases hb.cases with ⟨hi, rfl⟩ | ⟨b, hlt, hb⟩
            · obtain rfl : i = k₁ := by omega
              exact hparent
            · interval_cases b
              · exact hleft.2 i m hb
              · exact hright.2 i m hb

def rootHashInputs (S : Suite) (t : RatchetTree) : Set Bytes :=
  hashedInputs S t (Nat.log2 t.leafCount) 0

theorem Full.rootHashInputs_eq (hf : t.Full h) : rootHashInputs S t = hashedInputs S t h 0 := by
  rw [rootHashInputs, hf.leafCount_eq, Nat.log2_two_pow]

theorem rootTreeHash_eq_iff {h' : ℕ} (hf₁ : t₁.Full h) (hf₂ : t₂.Full h') {d₁ d₂ : Bytes}
    (hd₁ : t₁.rootTreeHash S = .ok d₁) (hd₂ : t₂.rootTreeHash S = .ok d₂)
    (hinj : Set.InjOn S.hash (rootHashInputs S t₁ ∪ rootHashInputs S t₂)) :
    d₁ = d₂ ↔ t₁.dropMisplaced = t₂.dropMisplaced := by
  rw [hf₁.rootTreeHash_eq] at hd₁
  rw [hf₂.rootTreeHash_eq] at hd₂
  rw [hf₁.rootHashInputs_eq, hf₂.rootHashInputs_eq] at hinj
  constructor
  · rintro rfl
    obtain ⟨rfl, hsame⟩ := sameHashed_of_treeHashAt_eq h h' 0 d₁ hd₁ hd₂ hinj
    exact (hf₁.sameHashed_iff hf₂).mp hsame
  · intro hdrop
    have hheight : h = h' := hf₁.dropMisplaced.height_unique (hdrop ▸ hf₂.dropMisplaced)
    subst hheight
    obtain ⟨hleaf, hparent⟩ := (hf₁.sameHashed_iff hf₂).mpr hdrop
    rw [treeHashAt_congr S h 0 hleaf hparent, hd₂, Except.ok.injEq] at hd₁
    exact hd₁.symm

/-- Two parsed trees with the same root tree hash are equal unless they differ
in misplaced nodes only. -/
theorem parsed_tree_bound_iff {data₁ data₂ d₁ d₂ : Bytes}
    (hparse₁ : parseRatchetTree data₁ = .ok t₁) (hparse₂ : parseRatchetTree data₂ = .ok t₂)
    (hd₁ : t₁.rootTreeHash S = .ok d₁) (hd₂ : t₂.rootTreeHash S = .ok d₂)
    (hinj : Set.InjOn S.hash (rootHashInputs S t₁ ∪ rootHashInputs S t₂)) :
    (d₁ = d₂ → t₁ = t₂) ↔ ¬ (t₁ ≠ t₂ ∧ t₁.dropMisplaced = t₂.dropMisplaced) := by
  obtain ⟨h₁, -, hf₁⟩ := parseRatchetTree_full hparse₁
  obtain ⟨h₂, -, hf₂⟩ := parseRatchetTree_full hparse₂
  rw [rootTreeHash_eq_iff hf₁ hf₂ hd₁ hd₂ hinj]
  tauto

def pairTree (top : Option Node) : RatchetTree :=
  ⟨[some (.leaf (sampleLeaf 1)), top, some (.leaf (sampleLeaf 2))]⟩

def wire (t : RatchetTree) : Bytes := t.marshal.toOption.getD []

/-- A parent in its own slot is bound. -/
theorem parsed_tree_bound_pair :
    ∃ d₁ d₂, (pairTree none).rootTreeHash taggedSuite = .ok d₁ ∧
      (pairTree (some (.parent ⟨[3], [], []⟩))).rootTreeHash taggedSuite = .ok d₂ ∧
      (d₁ = d₂ → pairTree none = pairTree (some (.parent ⟨[3], [], []⟩))) := by
  obtain ⟨d₁, hd₁⟩ : ∃ d, (pairTree none).rootTreeHash taggedSuite = .ok d := by decide +kernel
  obtain ⟨d₂, hd₂⟩ : ∃ d, (pairTree (some (.parent ⟨[3], [], []⟩))).rootTreeHash taggedSuite =
      .ok d := by decide +kernel
  have hparse₁ : parseRatchetTree (wire (pairTree none)) = .ok (pairTree none) := by decide +kernel
  have hparse₂ : parseRatchetTree (wire (pairTree (some (.parent ⟨[3], [], []⟩)))) =
      .ok (pairTree (some (.parent ⟨[3], [], []⟩))) := by decide +kernel
  refine ⟨d₁, d₂, hd₁, hd₂, (parsed_tree_bound_iff (S := taggedSuite) hparse₁ hparse₂ hd₁ hd₂
    taggedSuite_hash_injective.injOn).mpr (by decide)⟩

/-- A leaf put into the blank parent slot leaves the root tree hash of a parsed
tree as it was and takes over the resolution of the root. -/
theorem misplaced_leaf_not_bound :
    Function.Injective taggedSuite.hash ∧
      parseRatchetTree (wire (pairTree none)) = .ok (pairTree none) ∧
      parseRatchetTree (wire (pairTree (some (.leaf (sampleLeaf 3))))) =
        .ok (pairTree (some (.leaf (sampleLeaf 3)))) ∧
      (∃ d, (pairTree none).rootTreeHash taggedSuite = .ok d ∧
        (pairTree (some (.leaf (sampleLeaf 3)))).rootTreeHash taggedSuite = .ok d) ∧
      pairTree none ≠ pairTree (some (.leaf (sampleLeaf 3))) ∧
      (pairTree none).resolution 1 = .ok [0, 2] ∧
      (pairTree (some (.leaf (sampleLeaf 3)))).resolution 1 = .ok [1] := by
  obtain ⟨d, hd⟩ : ∃ d, (pairTree none).rootTreeHash taggedSuite = .ok d := by decide +kernel
  have hsame : (pairTree (some (.leaf (sampleLeaf 3)))).rootTreeHash
      taggedSuite = (pairTree none).rootTreeHash taggedSuite := by
    decide +kernel
  exact ⟨taggedSuite_hash_injective, by decide +kernel, by decide +kernel,
    ⟨d, hd, hsame.trans hd⟩, by decide, by decide +kernel, by decide +kernel⟩

end RatchetTree

end MlsGo
