import MlsGo.TreeHashBinding

/-!
# Honest runs keep the tree parent-hash valid

A parent hash is computed once, when a path is installed, and checked later
against the sibling's hash without the leaves added since.  The invariant says
for every populated parent which of its children the path came from, that the
hashes of both children without its unmerged leaves exist, that exactly one node
in the resolution of the path child carries the resulting parent hash, and that
no parent hash stored on the other side was computed with this parent's key.
An `AddLeaf` below the parent is undone by the exclusion of its unmerged leaves;
every other change below the parent replaces or blanks it.
-/

namespace MlsGo

open InOrderLayout

def UpdatePath.nodeKeys (up : UpdatePath) : List Bytes := up.nodes.map (·.encryptionKey)

namespace RatchetTree

variable {S : Suite} {t t' : RatchetTree} {h k j M : ℕ} {p : ParentNode} {excluded : List UInt32}
    {inputs inputs' : Set Bytes} {x input groupID leafSecret : Bytes} {L : ℕ} {keys : List Bytes}
    {gp : GeneratedPath} {mkGroupContext : Bytes → Result Bytes} {newlyAdded : List ℕ}
    {seeds : ℕ → ℕ → Bytes} {signer : Option Signer} {excluded' : List UInt32}
    {trees : List RatchetTree}

def slotParentHash : Option Node → Option Bytes
  | some (.leaf l) =>
      match l.leafNodeSource with
      | .commit parentHash => some parentHash
      | _ => none
  | some (.parent p) => some p.parentHash
  | none => none

theorem Full.nodeParentHash_eq (hf : t.Full h) (hin : Inside h k j) :
    t.nodeParentHash (inorder k j) = .ok (slotParentHash (t.slot k j)) := by
  rw [nodeParentHash, hf.index_eq hin, ok_bind]
  rcases t.slot k j with _ | (l | p)
  · rfl
  · cases hsource : l.leafNodeSource <;> simp [slotParentHash, hsource]
  · rfl

/-! ## Adding a leaf -/

structure Added (t t' : RatchetTree) (M : ℕ) (ln : LeafNode) : Prop where
  lt : M < 2 ^ 31
  blank : t.slot 0 M = none
  slot_eq : ∀ k j, t'.slot k j =
    if M / 2 ^ k = j then
      (if k = 0 then some (.leaf ln)
        else addUnmerged (UInt32.ofNat M) (t.slot k j))
    else t.slot k j

theorem Full.added_of_addLeaf (hf : t.Full h) {ln : LeafNode}
    (hadd : t.addLeaf ln = .ok (M, t')) : Added t t' M ln := by
  obtain ⟨⟨hblank, -⟩, hL, hf', hslots⟩ := hf.addLeaf_ok hadd
  refine ⟨hL.trans_le (Nat.pow_le_pow_right (by norm_num) ?_), hblank, hslots⟩
  have := hf'.le_thirty
  omega

namespace Added

variable {ln : LeafNode}

theorem toNat_eq (ha : Added t t' M ln) : (UInt32.ofNat M).toNat = M := by
  rw [UInt32.toNat_ofNat', Nat.mod_eq_of_lt (by have := ha.lt; omega)]

theorem notMem_unmerged (ha : Added t t' M ln) (hw : WellFormed t.slot)
    (hp : t.slot k j = some (.parent p)) :
    UInt32.ofNat M ∉ p.unmergedLeaves := by
  intro hmem
  apply (hw.unmerged_below k j p hp _ hmem).2
  rw [ha.toNat_eq, ha.blank]

theorem slot_off (ha : Added t t' M ln) (hoff : M / 2 ^ k ≠ j) : t'.slot k j = t.slot k j := by
  rw [ha.slot_eq, if_neg hoff]

theorem slot_leaf (ha : Added t t' M ln) : t'.slot 0 M = some (.leaf ln) := by
  rw [ha.slot_eq]
  simp

theorem slot_on (ha : Added t t' M ln) (k : ℕ) :
    t'.slot (k + 1) (M / 2 ^ (k + 1)) =
      addUnmerged (UInt32.ofNat M) (t.slot (k + 1) (M / 2 ^ (k + 1))) := by
  rw [ha.slot_eq]
  simp

theorem mem_resolutionAt (ha : Added t t' M ln) (hw : WellFormed t.slot) (x : ℕ) :
    ∀ k j, x ∈ t'.resolutionAt k j ↔
      x ∈ t.resolutionAt k j ∨ (x = inorder 0 M ∧ M / 2 ^ k = j) := by
  intro k
  induction k with
  | zero =>
      intro j
      by_cases hj : M = j
      · subst hj
        rw [resolutionAt_of_some ha.slot_leaf, resolutionAt_zero_of_none ha.blank]
        simp [nodeResolution]
      · have hslot := ha.slot_off (k := 0) (j := j) (by simpa using hj)
        rw [resolutionAt, resolutionAt, hslot]
        simp [hj]
  | succ k ih =>
      intro j
      by_cases hj : M / 2 ^ (k + 1) = j
      · subst hj
        have hslot := ha.slot_on k
        cases hold : t.slot (k + 1) (M / 2 ^ (k + 1)) with
        | none =>
            rw [hold] at hslot
            have hsucc := ancestor_succ M k
            rw [resolutionAt_succ_of_none hold, resolutionAt_succ_of_none hslot, List.mem_append,
              List.mem_append, ih, ih]
            have hside : M / 2 ^ k = 2 * (M / 2 ^ (k + 1)) ∨
                M / 2 ^ k = 2 * (M / 2 ^ (k + 1)) + 1 := by omega
            tauto
        | some n =>
            obtain ⟨p, rfl⟩ := hw.parent_slot k _ n hold
            rw [hold] at hslot
            rw [resolutionAt_of_some hold, resolutionAt_of_some hslot]
            have hindex : u32 (2 * (UInt32.ofNat M).toNat) = inorder 0 M := by
              rw [ha.toNat_eq, u32_double_of_lt ha.lt, inorder_zero]
            simp only [nodeResolution, List.mem_cons, List.mem_map, WellFormed.mem_insertLeaf,
              or_and_right, exists_or, exists_eq_left, hindex, and_true]
            rw [eq_comm (a := inorder 0 M), ← or_assoc, or_right_comm]
      · have hslot := ha.slot_off hj
        cases hold : t.slot (k + 1) j with
        | none =>
            rw [hold] at hslot
            have hsucc := ancestor_succ M k
            rw [resolutionAt_succ_of_none hold, resolutionAt_succ_of_none hslot, List.mem_append,
              List.mem_append, ih, ih]
            have hleft : M / 2 ^ k ≠ 2 * j := by omega
            have hright : M / 2 ^ k ≠ 2 * j + 1 := by omega
            tauto
        | some n =>
            rw [hold] at hslot
            rw [resolutionAt_of_some hold, resolutionAt_of_some hslot]
            tauto

theorem filterLeaves_insertLeaf {x : UInt32} {ul : List UInt32} (hx : x ∈ excluded')
    (hexcluded : ∀ u ∈ ul, (u ∈ excluded' ↔ u ∈ excluded)) :
    filterLeaves (insertLeaf x ul) excluded' = filterLeaves ul excluded := by
  have hsplit : filterLeaves (insertLeaf x ul) excluded' = filterLeaves ul excluded' := by
    unfold filterLeaves insertLeaf
    rw [List.filter_append, List.filter_cons_of_neg (by simpa using hx),
      ← List.filter_append, List.takeWhile_append_dropWhile]
  rw [hsplit]
  unfold filterLeaves
  apply List.filter_congr
  intro u hu
  simp [hexcluded u hu]

theorem treeHashAt_eq (ha : Added t t' M ln) (hf : t.Full h) (hw : WellFormed t.slot)
    (hexcluded : ∀ u, u ∈ excluded' ↔ u = UInt32.ofNat M ∨ u ∈ excluded) (k j : ℕ) :
    t'.treeHashAt S excluded' k j = t.treeHashAt S excluded k j := by
  apply treeHashAt_congr
  · intro m _
    by_cases hm : M = m
    · subst hm
      rw [ha.slot_leaf, ha.blank]
      simp [hashedLeaf, hexcluded]
    · rw [ha.slot_off (by simpa using hm)]
      cases hslot : t.slot 0 m with
      | none => rfl
      | some n =>
          have hlt : m < 2 ^ 31 :=
            (hf.inside_of_slot hslot).2.trans_le
              (Nat.pow_le_pow_right (by norm_num) hf.le_thirtyOne)
          have hne : UInt32.ofNat m ≠ UInt32.ofNat M := by
            intro heq
            have hval := congrArg UInt32.toNat heq
            rw [ha.toNat_eq, UInt32.toNat_ofNat', Nat.mod_eq_of_lt (by omega)] at hval
            exact hm hval.symm
          cases n <;> simp [hashedLeaf, hexcluded, hne]
  · intro i m _
    by_cases hm : M / 2 ^ (i + 1) = m
    · subst hm
      rw [ha.slot_on]
      cases hslot : t.slot (i + 1) (M / 2 ^ (i + 1)) with
      | none => rfl
      | some n =>
          obtain ⟨p, rfl⟩ := hw.parent_slot i _ n hslot
          have hfresh := ha.notMem_unmerged hw hslot
          simp only [addUnmerged, hashedParent]
          rw [filterLeaves_insertLeaf ((hexcluded _).mpr (.inl rfl))]
          intro u hu
          rw [hexcluded]
          have hne : u ≠ UInt32.ofNat M := fun heq => hfresh (heq ▸ hu)
          simp [hne]
    · rw [ha.slot_off hm]
      cases hslot : t.slot (i + 1) m with
      | none => rfl
      | some n =>
          obtain ⟨p, rfl⟩ := hw.parent_slot i _ n hslot
          have hfresh := ha.notMem_unmerged hw hslot
          have hfilter : filterLeaves p.unmergedLeaves excluded' =
              filterLeaves p.unmergedLeaves excluded := by
            unfold filterLeaves
            apply List.filter_congr
            intro u hu
            have hne : u ≠ UInt32.ofNat M := fun heq => hfresh (heq ▸ hu)
            simp [hexcluded, hne]
          simp only [hashedParent, hfilter]

theorem slotParentHash_eq (ha : Added t t' M ln)
    (hsource : ∀ ph, ln.leafNodeSource ≠ .commit ph) (k j : ℕ) :
    slotParentHash (t'.slot k j) = slotParentHash (t.slot k j) := by
  by_cases hj : M / 2 ^ k = j
  · subst hj
    cases k with
    | zero =>
        rw [pow_zero, Nat.div_one, ha.slot_leaf, ha.blank]
        cases hs : ln.leafNodeSource with
        | commit ph => exact absurd hs (hsource ph)
        | keyPackage lifetime => simp [slotParentHash, hs]
        | update => simp [slotParentHash, hs]
    | succ k =>
        rw [ha.slot_on]
        rcases t.slot (k + 1) (M / 2 ^ (k + 1)) with _ | (_ | _) <;> rfl
  · rw [ha.slot_off hj]

end Added

/-! ## The invariant -/

/-- A parent hash that is empty or the digest of a recorded input whose key
satisfies `P`. -/
def Recorded (S : Suite) (inputs : Set Bytes) (P : Bytes → Prop)
    (parentHash : Bytes) : Prop :=
  parentHash = [] ∨ ∃ key above sibling input,
    parentHashBytes key above sibling = .ok input ∧ input ∈ inputs ∧
      P key ∧ parentHash = S.hash input

theorem Recorded.mono {P Q : Bytes → Prop} (hx : Recorded S inputs P x) (hinputs : inputs ⊆ inputs')
    (hPQ : ∀ key, P key → Q key) : Recorded S inputs' Q x := by
  rcases hx with hnil | ⟨key, above, sibling, input, hbytes, hmem, hkey, hx⟩
  · exact .inl hnil
  · exact .inr ⟨key, above, sibling, input, hbytes, hinputs hmem, hPQ key hkey, hx⟩

def parentHashInputs (S : Suite) (t : RatchetTree) : Set Bytes :=
  {input | ∃ k j p b hash, t.slot (k + 1) j = some (.parent p) ∧ b < 2 ∧
    t.treeHashAt S p.unmergedLeaves k (2 * j + b) = .ok hash ∧
    parentHashBytes p.encryptionKey p.parentHash hash = .ok input}

/-- Child `b` of the parent `p` at `(k + 1, j)` is the one the path came
from. -/
structure PathSide (S : Suite) (inputs : Set Bytes) (t : RatchetTree)
    (k j : ℕ) (p : ParentNode) (b : ℕ) : Prop where
  side : b < 2
  own : ∃ hash input, t.treeHashAt S p.unmergedLeaves k (2 * j + b) = .ok hash ∧
    parentHashBytes p.encryptionKey p.parentHash hash = .ok input
  other : ∃ hash input i m,
    t.treeHashAt S p.unmergedLeaves k (2 * j + (1 - b)) = .ok hash ∧
    parentHashBytes p.encryptionKey p.parentHash hash = .ok input ∧
    Below k (2 * j + b) i m ∧
    slotParentHash (t.slot i m) = some (S.hash input) ∧
    inorder i m ∈ t.resolutionAt k (2 * j + b) ∧
    ∀ x, (x ∈ t.resolutionAt k (2 * j + b) ∧ x ≠ inorder i m) ↔
      ∃ u ∈ p.unmergedLeaves, u.toNat / 2 ^ k = 2 * j + b ∧ x = inorder 0 u.toNat
  stored : ∀ i m x, Below k (2 * j + (1 - b)) i m →
    slotParentHash (t.slot i m) = some x →
    Recorded S inputs (· ≠ p.encryptionKey) x

structure ParentHashInvariant (S : Suite) (inputs : Set Bytes)
    (keys : List Bytes) (t : RatchetTree) : Prop where
  sides : ∀ k j p, t.slot (k + 1) j = some (.parent p) → ∃ b, PathSide S inputs t k j p b
  recorded : ∀ k j x, slotParentHash (t.slot k j) = some x → Recorded S inputs (· ∈ keys) x

theorem PathSide.frame {b : ℕ} (hside : PathSide S inputs t k j p b) (hinputs : inputs ⊆ inputs')
    (hsame : ∀ c < 2, ∀ i m, Below k (2 * j + c) i m → t'.slot i m = t.slot i m) :
    PathSide S inputs' t' k j p b := by
  have hhash : ∀ c < 2, t'.treeHashAt S p.unmergedLeaves k (2 * j + c) =
      t.treeHashAt S p.unmergedLeaves k (2 * j + c) := fun c hc =>
    treeHashAt_congr_slots S _ k _ (hsame c hc)
  have hres : t'.resolutionAt k (2 * j + b) = t.resolutionAt k (2 * j + b) :=
    resolutionAt_congr k _ (hsame b hside.side)
  refine ⟨hside.side, ?_, ?_, ?_⟩
  · rw [hhash b hside.side]
    exact hside.own
  · obtain ⟨hash, input, i, m, hh, hbytes, hbelow, hph, hmem, hset⟩ := hside.other
    refine ⟨hash, input, i, m, ?_, hbytes, hbelow, ?_, ?_, ?_⟩
    · rw [hhash (1 - b) (by omega), hh]
    · rw [hsame b hside.side i m hbelow, hph]
    · rw [hres]
      exact hmem
    · rw [hres]
      exact hset
  · intro i m x hbelow hx
    rw [hsame (1 - b) (by omega) i m hbelow] at hx
    exact (hside.stored i m x hbelow hx).mono hinputs fun _ hne => hne

theorem ParentHashInvariant.side_off (hinv : ParentHashInvariant S inputs keys t)
    (hinputs : inputs ⊆ inputs') (hoff : ∀ k j, L / 2 ^ k ≠ j → t'.slot k j = t.slot k j)
    (hj : L / 2 ^ (k + 1) ≠ j) (hp : t'.slot (k + 1) j = some (.parent p)) :
    ∃ b, PathSide S inputs' t' k j p b := by
  rw [hoff (k + 1) j hj] at hp
  obtain ⟨b, hside⟩ := hinv.sides k j p hp
  refine ⟨b, hside.frame hinputs fun c hc i m hbelow => ?_⟩
  exact hoff i m ((hbelow.up hc).off_path hj)

theorem ParentHashInvariant.blank {x : Option Node} (hinv : ParentHashInvariant S inputs keys t)
    (hx : slotParentHash x = none) (hslots : ∀ k j, t'.slot k j = if L / 2 ^ k =
    j then (if k = 0 then x else none) else t.slot k j) :
    ParentHashInvariant S inputs keys t' := by
  have hoff : ∀ k j, L / 2 ^ k ≠ j → t'.slot k j = t.slot k j := by
    intro k j hne
    rw [hslots, if_neg hne]
  constructor
  · intro k j p hp
    by_cases hj : L / 2 ^ (k + 1) = j
    · rw [hslots, if_pos hj, if_neg (by omega)] at hp
      cases hp
    · exact hinv.side_off subset_rfl hoff hj hp
  · intro k j y hy
    by_cases hj : L / 2 ^ k = j
    · rw [hslots, if_pos hj] at hy
      split at hy
      · rw [hx] at hy
        cases hy
      · cases hy
    · rw [hoff k j hj] at hy
      exact hinv.recorded k j y hy

theorem ParentHashInvariant.add {ln : LeafNode} (hinv : ParentHashInvariant S inputs keys t)
    (hf : t.Full h) (hw : WellFormed t.slot) (ha : Added t t' M ln)
    (hsource : ∀ ph, ln.leafNodeSource ≠ .commit ph) :
    ParentHashInvariant S inputs keys t' := by
  constructor
  · intro k j p hp
    by_cases hj : M / 2 ^ (k + 1) = j
    · subst hj
      rw [ha.slot_on] at hp
      obtain ⟨q, hq, rfl⟩ := WellFormed.addUnmerged_eq_some hp
      obtain ⟨b, hside⟩ := hinv.sides k _ q hq
      have hhash := ha.treeHashAt_eq (S := S) hf hw
        (fun u => (WellFormed.mem_insertLeaf : u ∈ insertLeaf _ q.unmergedLeaves ↔ _))
      refine ⟨b, hside.side, ?_, ?_, ?_⟩
      · rw [hhash]
        exact hside.own
      · obtain ⟨hash, input, i, m, hh, hbytes, hbelow, hph, hmem, hset⟩ := hside.other
        -- the matching node was populated before, the new leaf was not
        have hne : inorder i m ≠ inorder 0 M := by
          rw [Ne, inorder_inj]
          rintro ⟨rfl, rfl⟩
          rw [ha.blank] at hph
          cases hph
        refine ⟨hash, input, i, m, by rw [hhash, hh], hbytes, hbelow, ?_, ?_, fun x => ?_⟩
        · rw [ha.slotParentHash_eq hsource, hph]
        · rw [ha.mem_resolutionAt hw]
          exact .inl hmem
        · rw [ha.mem_resolutionAt hw, or_and_right, hset]
          simp only [WellFormed.mem_insertLeaf, or_and_right, exists_or,
            exists_eq_left, ha.toNat_eq]
          rw [or_comm]
          refine or_congr ⟨?_, ?_⟩ Iff.rfl
          · rintro ⟨⟨rfl, hM⟩, -⟩
            exact ⟨hM, rfl⟩
          · rintro ⟨hM, rfl⟩
            exact ⟨⟨rfl, hM⟩, hne.symm⟩
      · intro i m x hbelow hx
        rw [ha.slotParentHash_eq hsource] at hx
        exact hside.stored i m x hbelow hx
    · exact hinv.side_off subset_rfl (fun k j hne => ha.slot_off hne) hj hp
  · intro k j x hx
    rw [ha.slotParentHash_eq hsource] at hx
    exact hinv.recorded k j x hx

/-! ## Installing a path -/

theorem treeHashAt_children_ok {d : Bytes}
    (hhash : t.treeHashAt S excluded (k + 1) j = .ok d) {b : ℕ} (hb : b < 2) :
    ∃ x encoded, t.treeHashAt S excluded k (2 * j + b) = .ok x ∧ writeOpaqueV x = .ok encoded := by
  simp only [treeHashAt, parentHashInput, bind_eq_ok] at hhash
  obtain ⟨l, hl, r, hr, input, ⟨body, -, lbytes, hlb, rbytes, hrb, -⟩, -⟩ := hhash
  interval_cases b
  · exact ⟨l, lbytes, hl, hlb⟩
  · exact ⟨r, rbytes, hr, hrb⟩

theorem treeHashAt_below_ok :
    ∀ k j d, t.treeHashAt S excluded k j = .ok d →
      ∀ i m, Below k j i m → ∃ d', t.treeHashAt S excluded i m = .ok d' := by
  intro k
  induction k with
  | zero =>
      intro j d hhash i m hbelow
      obtain ⟨rfl, rfl⟩ := below_zero_iff.mp hbelow
      exact ⟨d, hhash⟩
  | succ k ih =>
      intro j d hhash i m hbelow
      rcases hbelow.cases with ⟨rfl, rfl⟩ | ⟨b, hb, hbelow⟩
      · exact ⟨d, hhash⟩
      · obtain ⟨x, -, hx, -⟩ := treeHashAt_children_ok hhash hb
        exact ih (2 * j + b) x hx i m hbelow

theorem parentHashVia_ok {s : ℕ} (hvia : t.parentHashVia S p k s = .ok x) :
    ∃ hash input, t.treeHashAt S p.unmergedLeaves k s = .ok hash ∧
      parentHashBytes p.encryptionKey p.parentHash hash = .ok input ∧ x = S.hash input := by
  simp only [parentHashVia, bind_eq_ok, pure_ok_iff] at hvia
  obtain ⟨hash, hhash, input, hinput, rfl⟩ := hvia
  exact ⟨hash, input, hhash, hinput, rfl⟩

theorem parentHashBytes_ok {key above hash hash' encoded : Bytes}
    (hbytes : parentHashBytes key above hash = .ok input)
    (hencoded : writeOpaqueV hash' = .ok encoded) :
    ∃ input', parentHashBytes key above hash' = .ok input' := by
  simp only [parentHashBytes, bind_eq_ok] at hbytes
  obtain ⟨k, hk, a, ha, -⟩ := hbytes
  exact ⟨k ++ (a ++ encoded), by
    simp only [parentHashBytes, hk, ha, hencoded, ok_bind, pure_eq_ok]⟩

theorem resolutionAt_descend {a : ℕ} :
    ∀ d, (∀ k, a ≤ k → k < a + d →
        t.slot (k + 1) (L / 2 ^ (k + 1)) = none ∧
        t.resolutionAt k (siblingRank (L / 2 ^ k)) = []) →
      t.resolutionAt (a + d) (L / 2 ^ (a + d)) = t.resolutionAt a (L / 2 ^ a) := by
  intro d
  induction d with
  | zero =>
      intro _
      rfl
  | succ d ih =>
      intro hblank
      obtain ⟨hslot, hcopath⟩ := hblank (a + d) (by omega) (by omega)
      rw [← ih fun k hk hlt => hblank k hk (by omega),
        show a + (d + 1) = a + d + 1 by ring, resolutionAt_succ_of_none hslot]
      have hsucc := ancestor_succ L (a + d)
      unfold siblingRank at hcopath
      split at hcopath
      · have hleft : 2 * (L / 2 ^ (a + d + 1)) = L / 2 ^ (a + d) := by omega
        rw [hleft, hcopath, List.append_nil]
      · have hleft : 2 * (L / 2 ^ (a + d + 1)) = L / 2 ^ (a + d) - 1 := by
          omega
        have hright : L / 2 ^ (a + d) - 1 + 1 = L / 2 ^ (a + d) := by omega
        rw [hleft, hcopath, hright, List.nil_append]

/-- The facts about a tree `t'` with a new path of sender `L` that the parents
of the path are checked from. -/
structure FreshPath (S : Suite) (inputs : Set Bytes) (keys : List Bytes)
    (t t' : RatchetTree) (h L : ℕ) : Prop where
  full : t'.Full h
  lt : L < 2 ^ h
  invariant : ParentHashInvariant S inputs keys t
  slot_off : ∀ k j, L / 2 ^ k ≠ j → t'.slot k j = t.slot k j
  hashed : ∃ d, t'.treeHashAt S [] h 0 = .ok d

theorem FreshPath.copath_hash_eq (hp : FreshPath S inputs keys t t' h L)
    (excluded : List UInt32) (k : ℕ) :
    t'.treeHashAt S excluded k (siblingRank (L / 2 ^ k)) =
      t.treeHashAt S excluded k (siblingRank (L / 2 ^ k)) :=
  treeHashAt_congr_slots S excluded k _ fun i m hb =>
    hp.slot_off i m (hb.off_path (siblingRank_ne _))

theorem FreshPath.pathSide {a : ℕ} (hp : FreshPath S inputs keys t t' h L)
    (hinputs : inputs ⊆ inputs') (hfresh : p.encryptionKey ∉ keys) (hnil : p.unmergedLeaves = [])
    (hk : k < h) (hak : a ≤ k) (hvia : t.parentHashVia S p k (siblingRank (L / 2 ^ k)) = .ok x)
    (hbelow : slotParentHash (t'.slot a (L / 2 ^ a)) = some x)
    (hself : t'.resolutionAt a (L / 2 ^ a) = [inorder a (L / 2 ^ a)])
    (hblank : ∀ i, a ≤ i → i < k → t'.slot (i + 1) (L / 2 ^ (i + 1)) = none ∧ t.copathEmpty L i) :
    PathSide S inputs' t' k (L / 2 ^ (k + 1)) p (L / 2 ^ k % 2) := by
  have hown := own_child_rank L k
  have hother := other_child_rank L k
  obtain ⟨hash, input, hhash, hinput, rfl⟩ := parentHashVia_ok hvia
  obtain ⟨d, hd⟩ := hp.hashed
  have hin : Inside h (k + 1) (L / 2 ^ (k + 1)) := inside_ancestor hp.lt hk
  obtain ⟨d', hd'⟩ := treeHashAt_below_ok h 0 d hd (k + 1) (L / 2 ^ (k + 1))
    ⟨hin.1, Nat.div_eq_of_lt hin.2⟩
  obtain ⟨y, encoded, hy, hencoded⟩ := treeHashAt_children_ok hd' (b := L / 2 ^ k % 2) (by omega)
  rw [hown] at hy
  obtain ⟨input', hinput'⟩ := parentHashBytes_ok hinput hencoded
  have hcopath : ∀ i, t.copathEmpty L i → t'.resolutionAt i (siblingRank (L / 2 ^ i)) = [] := by
    intro i hempty
    rw [resolutionAt_congr i _ fun i' m hb => hp.slot_off i' m (hb.off_path (siblingRank_ne _))]
    simpa [copathEmpty] using hempty
  have hres : t'.resolutionAt k (L / 2 ^ k) = [inorder a (L / 2 ^ a)] := by
    obtain ⟨n, rfl⟩ := Nat.exists_eq_add_of_le hak
    rw [resolutionAt_descend n fun i hai hik =>
      ⟨(hblank i hai hik).1, hcopath i (hblank i hai hik).2⟩, hself]
  refine ⟨by omega, ⟨y, input', by rw [hown, hnil, hy], hinput'⟩,
    ⟨hash, input, a, L / 2 ^ a, ?_, hinput, ?_, hbelow, ?_, ?_⟩, ?_⟩
  · rw [hother, hp.copath_hash_eq, hhash]
  · rw [hown]
    exact ⟨hak, by
      rw [Nat.div_div_eq_div_mul, ← pow_add, Nat.add_sub_cancel' hak]⟩
  · rw [hown, hres]
    simp
  · intro x
    rw [hown, hres, hnil]
    simp
  · intro i m x hb hx
    rw [hother] at hb
    rw [hp.slot_off i m (hb.off_path (siblingRank_ne _))] at hx
    refine (hp.invariant.recorded i m x hx).mono hinputs ?_
    rintro key hkey rfl
    exact hfresh hkey

theorem FreshPath.recorded_below {keys' : List Bytes} {entries : GoMap ℕ ParentNode}
    (hp : FreshPath S inputs keys t t' h L) (hinputs : parentHashInputs S t' ⊆ inputs')
    (hentries : ∀ e ∈ entries, e.2.unmergedLeaves = [] ∧ e.2.encryptionKey ∈ keys' ∧
    t'.slot (e.1 + 1) (L / 2 ^ (e.1 + 1)) = some (.parent e.2)) (hx :
    t.parentHashBelow S L entries = .ok x) :
    Recorded S inputs' (· ∈ keys') x := by
  cases entries with
  | nil =>
      cases hx
      exact .inl rfl
  | cons entry rest =>
      obtain ⟨k, p⟩ := entry
      obtain ⟨hnil, hkey, hslot⟩ := hentries (k, p) (by simp)
      obtain ⟨hash, input, hhash, hinput, rfl⟩ := parentHashVia_ok hx
      refine .inr ⟨_, _, _, input, hinput, hinputs ?_, hkey, rfl⟩
      refine ⟨k, L / 2 ^ (k + 1), p, 1 - L / 2 ^ k % 2, hash, hslot, by omega, ?_, hinput⟩
      rw [other_child_rank, hp.copath_hash_eq, hhash]

/-- Every parent of the path, by induction from its lower end: `a` is the level
of the node just below the rest of the path. -/
theorem FreshPath.sides (hp : FreshPath S inputs keys t t' h L) (keys' : List Bytes)
    (hinputs : inputs ⊆ inputs') (hinputs' : parentHashInputs S t' ⊆ inputs') :
    ∀ (path : List (ℕ × Bytes)) (entries : GoMap ℕ ParentNode) (a : ℕ)
      (x : Bytes),
      PathAbove S t t' h L a path entries →
      (∀ e ∈ path, e.2 ∉ keys ∧ e.2 ∈ keys') →
      t.parentHashBelow S L entries = .ok x →
      slotParentHash (t'.slot a (L / 2 ^ a)) = some x →
      t'.resolutionAt a (L / 2 ^ a) = [inorder a (L / 2 ^ a)] →
      Recorded S inputs' (· ∈ keys') x ∧
      ∀ e ∈ entries, Recorded S inputs' (· ∈ keys') e.2.parentHash ∧
        ∃ b, PathSide S inputs' t' e.1 (L / 2 ^ (e.1 + 1)) e.2 b := by
  intro path
  induction path with
  | nil =>
      intro entries a x hpath _ hx _ _
      cases hpath.entries_eq
      cases hx
      exact ⟨.inl rfl, by simp⟩
  | cons head rest ih =>
      intro entries a x hpath hkeys hx hbelow hself
      obtain ⟨k, pub⟩ := head
      obtain ⟨others, ph, rfl, hak, hkh, hph, hslot, hblank, hrest⟩ := hpath.cons
      simp only [List.forall_mem_cons] at hkeys
      obtain ⟨⟨hfresh, hkey⟩, hkeys⟩ := hkeys
      have hside := hp.pathSide hinputs hfresh rfl hkh hak hx hbelow hself hblank
      obtain ⟨hrecorded, htail⟩ := ih others (k + 1) ph hrest hkeys hph (by rw [hslot]; rfl)
        (by rw [resolutionAt_of_some hslot]; rfl)
      refine ⟨?_, ?_⟩
      · have hentry : ∀ e ∈ ([(k, ⟨pub, ph, []⟩)] : GoMap ℕ ParentNode),
            e.2.unmergedLeaves = [] ∧ e.2.encryptionKey ∈ keys' ∧
            t'.slot (e.1 + 1) (L / 2 ^ (e.1 + 1)) = some (.parent e.2) := by
          simpa using ⟨hkey, hslot⟩
        exact hp.recorded_below hinputs' hentry hx
      · intro e he
        rcases List.mem_cons.mp he with rfl | he
        · exact ⟨hrecorded, _, hside⟩
        · exact htail e he

theorem ParentHashInvariant.generate {senderLeaf : ℕ} (hinv : ParentHashInvariant S inputs keys t)
    (hf : t.Full h) (r : PathRun S t senderLeaf leafSecret signer groupID newlyAdded mkGroupContext
    seeds gp) (hfresh : ∀ key ∈ r.nodePubs, key ∉ keys) (hinputs : inputs ⊆ inputs')
    (hinputs' : parentHashInputs S gp.tree ⊆ inputs') :
    ParentHashInvariant S inputs' (r.nodePubs ++ keys) gp.tree := by
  obtain ⟨hL, -⟩ := r.sender_slot hf
  obtain ⟨entries, hinstalled, hi⟩ := r.installed_tree hf
  have hoff : ∀ k j, senderLeaf % 2 ^ 31 / 2 ^ k ≠ j →
      gp.tree.slot k j = t.slot k j := fun k j hne => hi.slot_off hne
  have hleaf := hi.slot_leaf
  have hhash := r.treeHash_eq
  rw [hi.full.rootTreeHash_eq] at hhash
  have hp : FreshPath S inputs keys t gp.tree h (senderLeaf % 2 ^ 31) :=
    ⟨hi.full, hL, hinv, hoff, r.treeHash, hhash⟩
  obtain ⟨sig, hsigned⟩ := signLeafNode_ok r.leaf_eq
  have hleafHash : slotParentHash (gp.tree.slot 0 (senderLeaf % 2 ^ 31)) = some r.parentHash := by
    rw [hleaf, hsigned]
    rfl
  have hsides := hp.sides (r.nodePubs ++ keys) hinputs hinputs' _ entries 0 r.parentHash
    hi.pathAbove (fun e he => by
      have hkey : e.2 ∈ r.nodePubs := (List.of_mem_zip he).2
      exact ⟨hfresh e.2 hkey, List.mem_append_left _ hkey⟩)
    (r.parentHash_below hf hinstalled hi.keys_eq)
    (by rw [pow_zero, Nat.div_one]; exact hleafHash)
    (by
      rw [pow_zero, Nat.div_one, resolutionAt_of_some hleaf]
      rfl)
  constructor
  · intro k j p hparent
    by_cases hj : senderLeaf % 2 ^ 31 / 2 ^ (k + 1) = j
    · subst hj
      rw [hi.slot_on] at hparent
      obtain ⟨q, hq, hmem⟩ := entrySlot_eq_some hparent
      cases hq
      exact (hsides.2 (k, p) hmem).2
    · exact hinv.side_off hinputs hoff hj hparent
  · intro k j x hx
    by_cases hj : senderLeaf % 2 ^ 31 / 2 ^ k = j
    · subst hj
      cases k with
      | zero =>
          rw [pow_zero, Nat.div_one, hleafHash, Option.some.injEq] at hx
          exact hx ▸ hsides.1
      | succ k =>
          rw [hi.slot_on] at hx
          cases hslot : entrySlot entries k with
          | none =>
              rw [hslot] at hx
              cases hx
          | some n =>
              obtain ⟨q, rfl, hmem⟩ := entrySlot_eq_some hslot
              rw [hslot] at hx
              cases hx
              exact (hsides.2 (k, q) hmem).1
    · rw [hoff k j hj] at hx
      exact (hinv.recorded k j x hx).mono hinputs fun key hkey => List.mem_append_right _ hkey

/-! ## Verification -/

theorem sameSet_iff {xs ys : List ℕ} : sameSet xs ys = true ↔ ∀ x, x ∈ xs ↔ x ∈ ys := by
  simp only [sameSet, Bool.and_eq_true, List.all_eq_true, List.contains_iff_mem]
  constructor
  · rintro ⟨hxs, hys⟩ x
    exact ⟨hxs x, hys x⟩
  · intro hsame
    exact ⟨fun x => (hsame x).mp, fun x => (hsame x).mpr⟩

theorem parentHashMatchLoop_true {want : Bytes} {res expected : List ℕ} {d : ℕ}
    (hmatch : t.nodeParentHash d = .ok (some want))
    (hset : sameSet (res.filter fun x => x ≠ d) expected = true) :
    ∀ ds, d ∈ ds → (∀ x ∈ ds, ∃ ph, t.nodeParentHash x = .ok ph) →
      t.parentHashMatchLoop want res expected ds = .ok true := by
  intro ds
  induction ds with
  | nil =>
      intro hmem
      cases hmem
  | cons x ds ih =>
      intro hmem hdefined
      obtain ⟨ph, hph⟩ := hdefined x (by simp)
      rw [parentHashMatchLoop, hph, ok_bind]
      by_cases hfound : ph = some want ∧ sameSet (res.filter fun y => y ≠ x) expected = true
      · rw [if_pos hfound, pure_eq_ok]
      · rw [if_neg hfound]
        rcases List.mem_cons.mp hmem with rfl | hmem
        · rw [hmatch, Except.ok.injEq] at hph
          exact absurd ⟨hph.symm, hset⟩ hfound
        · exact ih hmem fun y hy => hdefined y (by simp [hy])

theorem parentHashMatchLoop_false {want : Bytes} {res expected : List ℕ} :
    ∀ ds, (∀ x ∈ ds, ∃ ph, t.nodeParentHash x = .ok ph ∧ ph ≠ some want) →
      t.parentHashMatchLoop want res expected ds = .ok false := by
  intro ds
  induction ds with
  | nil =>
      intro _
      rfl
  | cons x ds ih =>
      intro hnone
      obtain ⟨ph, hph, hne⟩ := hnone x (by simp)
      rw [parentHashMatchLoop, hph, ok_bind, if_neg fun hc => hne hc.1]
      exact ih fun y hy => hnone y (by simp [hy])

theorem verifyParentHashesLoop_true :
    ∀ (nodes : List (Option Node)) (i : ℕ),
      (∀ m p, nodes[m]? = some (some (.parent p)) →
        ∃ l r okL okR okl okr, left (i + m) = (l, okl) ∧ right (i + m) t.leafCount = .ok (r, okr) ∧
          t.hasParentHashMatch S (i + m) l r = .ok okL ∧
          t.hasParentHashMatch S (i + m) r l = .ok okR ∧ okL ≠ okR) →
      t.verifyParentHashesLoop S nodes i = .ok true := by
  intro nodes
  induction nodes with
  | nil =>
      intro i _
      rfl
  | cons slot rest ih =>
      intro i hchecks
      have hrest := ih (i + 1) fun m p hm => by
        have hcheck := hchecks (m + 1) p (by simpa using hm)
        rwa [show i + (m + 1) = i + 1 + m by ring] at hcheck
      rcases slot with _ | (l | p)
      · rw [verifyParentHashesLoop]
        · exact hrest
        · simp
      · rw [verifyParentHashesLoop]
        · exact hrest
        · simp
      · obtain ⟨l, r, okL, okR, okl, okr, hl, hr, hL, hR, hne⟩ := hchecks 0 p (by simp)
        rw [Nat.add_zero] at hl hr hL hR
        rw [verifyParentHashesLoop]
        simp only [hl, hr, hL, hR, ok_bind, hne, if_false, hrest]

/-- The unmerged leaves of `p` below the node at array index `ci`, as
`hasParentHashMatch` lists them. -/
def unmergedBelow (p : ParentNode) (ci : ℕ) : List ℕ :=
  (p.unmergedLeaves.map fun l => u32 (2 * l.toNat)).filter fun ni => subtreeContains ci ni

theorem Full.mem_unmergedBelow (hf : t.Full h) (hw : WellFormed t.slot) {i m x : ℕ}
    (hp : t.slot i m = some (.parent p)) (hin : Inside h k j) :
    x ∈ unmergedBelow p (inorder k j) ↔
      ∃ u ∈ p.unmergedLeaves, u.toNat / 2 ^ k = j ∧ x = inorder 0 u.toNat := by
  have hh := hf.le_thirtyOne
  have hcontains : ∀ u : UInt32,
      subtreeContains (inorder k j) (inorder 0 u.toNat) = true ↔ u.toNat / 2 ^ k = j := by
    intro u
    rw [hin.subtreeContains_iff hh, below_leaf_iff]
  unfold unmergedBelow
  rw [List.mem_filter, List.mem_map]
  constructor
  · rintro ⟨⟨u, hu, rfl⟩, hsub⟩
    have hindex := hf.unmerged_index_eq (hw.unmerged_below i m p hp u hu).2
    rw [hindex, hcontains] at hsub
    exact ⟨u, hu, hsub, hindex⟩
  · rintro ⟨u, hu, hdiv, rfl⟩
    have hindex := hf.unmerged_index_eq (hw.unmerged_below i m p hp u hu).2
    exact ⟨⟨u, hu, hindex⟩, (hcontains u).mpr hdiv⟩

theorem Full.hasParentHashMatch_eq (hf : t.Full h) {c s : ℕ} {hash : Bytes}
    (hp : t.slot (k + 1) j = some (.parent p)) (hc : Inside h k c) (hs : Inside h k s)
    (hhash : t.treeHashAt S p.unmergedLeaves k s = .ok hash)
    (hinput : parentHashBytes p.encryptionKey p.parentHash hash = .ok input) :
    t.hasParentHashMatch S (inorder (k + 1) j) (inorder k c) (inorder k s) =
      t.parentHashMatchLoop (S.hash input) (t.resolutionAt k c)
        (unmergedBelow p (inorder k c)) (t.resolutionAt k c) := by
  simp only [hasParentHashMatch, hf.parentHashOf_eq S hp hs, parentHashVia,
    hhash, hinput, ok_bind, pure_eq_ok, hf.resolution_eq hc, parentAt,
    hf.index_eq (hf.inside_of_slot hp), hp, unmergedBelow]

theorem parentHashBytes_key_inj {key key' above above' sib sib' : Bytes}
    (hbytes : parentHashBytes key above sib = .ok input)
    (hbytes' : parentHashBytes key' above' sib' = .ok input) : key = key' := by
  simp only [parentHashBytes, bind_eq_ok, pure_ok_iff] at hbytes hbytes'
  obtain ⟨k, hk, a, -, s, -, rfl⟩ := hbytes
  obtain ⟨k', hk', a', -, s', -, heq⟩ := hbytes'
  exact (roundTrips_opaqueV.injective hk hk' heq.symm).1

section Verified

variable {inputs : Set Bytes} {p : ParentNode} {b : ℕ}

theorem PathSide.match_own (hside : PathSide S inputs t k j p b) (hf : t.Full h)
    (hw : WellFormed t.slot) (hp : t.slot (k + 1) j = some (.parent p)) :
    t.hasParentHashMatch S (inorder (k + 1) j) (inorder k (2 * j + b))
      (inorder k (2 * j + (1 - b))) = .ok true := by
  have hin := hf.inside_of_slot hp
  have hc := hin.child hside.side
  obtain ⟨hash, input, i, m, hhash, hinput, hbelow, hph, hmem, hset⟩ := hside.other
  rw [hf.hasParentHashMatch_eq hp hc (hin.child (by omega)) hhash hinput]
  have hdefined : ∀ x ∈ t.resolutionAt k (2 * j + b), ∃ ph, t.nodeParentHash x = .ok ph := by
    intro x hx
    obtain ⟨i', m', rfl, -, hne⟩ := hf.mem_resolutionAt hw k _ x hx
    obtain ⟨n, hn⟩ := Option.ne_none_iff_exists'.mp hne
    exact ⟨_, hf.nodeParentHash_eq (hf.inside_of_slot hn)⟩
  have hmatch : t.nodeParentHash (inorder i m) = .ok (some (S.hash input)) := by
    cases hslot : t.slot i m with
    | none =>
        rw [hslot] at hph
        cases hph
    | some n => rw [hf.nodeParentHash_eq (hf.inside_of_slot hslot), hph]
  refine parentHashMatchLoop_true hmatch ?_ _ hmem hdefined
  rw [sameSet_iff]
  intro x
  rw [List.mem_filter, hf.mem_unmergedBelow hw hp hc, ← hset]
  simp

theorem PathSide.match_other (hside : PathSide S inputs t k j p b) (hf : t.Full h)
    (hw : WellFormed t.slot) (hp : t.slot (k + 1) j = some (.parent p))
    (hinj : Set.InjOn S.hash inputs) (hsub : parentHashInputs S t ⊆ inputs)
    (hdigest : ∀ input, S.hash input ≠ []) :
    t.hasParentHashMatch S (inorder (k + 1) j) (inorder k (2 * j + (1 - b)))
      (inorder k (2 * j + b)) = .ok false := by
  have hin := hf.inside_of_slot hp
  obtain ⟨hash, input, hhash, hinput⟩ := hside.own
  have hmem : input ∈ inputs := hsub ⟨k, j, p, b, hash, hp, hside.side, hhash, hinput⟩
  rw [hf.hasParentHashMatch_eq hp (hin.child (by omega)) (hin.child hside.side) hhash hinput]
  apply parentHashMatchLoop_false
  intro x hx
  obtain ⟨i, m, rfl, hbelow, hne⟩ := hf.mem_resolutionAt hw k _ x hx
  obtain ⟨n, hn⟩ := Option.ne_none_iff_exists'.mp hne
  refine ⟨_, hf.nodeParentHash_eq (hf.inside_of_slot hn), fun hph => ?_⟩
  rcases hside.stored i m _ hbelow hph with
    hnil | ⟨key, above, sib, input', hinput', hmem', hkey, heq⟩
  · exact hdigest input hnil
  · obtain rfl := hinj hmem hmem' heq
    exact hkey (parentHashBytes_key_inj hinput' hinput)

end Verified

theorem ParentHashInvariant.verify (hinv : ParentHashInvariant S inputs keys t)
    (hrep : t.RepresentationInvariant) (hinj : Set.InjOn S.hash inputs)
    (hsub : parentHashInputs S t ⊆ inputs) (hdigest : ∀ input, S.hash input ≠ []) :
    t.verifyParentHashes S = .ok true := by
  obtain ⟨h, hf, -⟩ := hrep.full
  have hw := hrep.wellFormed
  have hh := hf.le_thirtyOne
  apply verifyParentHashesLoop_true
  intro i p hi
  rw [Nat.zero_add]
  obtain ⟨k, j, rfl⟩ := exists_inorder i
  have hp : t.slot k j = some (.parent p) := by
    rw [slot, hi]
    rfl
  cases k with
  | zero =>
      obtain ⟨l, hl⟩ := hw.leaf_slot j _ hp
      cases hl
  | succ k =>
      have hin := inside_iff.mp (hf.inside_of_slot hp)
      obtain ⟨b, hside⟩ := hinv.sides k j p hp
      have hown := hside.match_own hf hw hp
      have hother := hside.match_other hf hw hp hinj hsub hdigest
      have hleft := left_inorder (hin.trans (treeWidth_lt hh))
      have hright : right (inorder (k + 1) j) t.leafCount = .ok (inorder k (2 * j + 1), true) := by
        rw [hf.leafCount_eq, right_inorder hh hin]
      obtain rfl | rfl : b = 0 ∨ b = 1 := by
        have := hside.side
        omega
      · exact ⟨_, _, true, false, true, true, hleft, hright, hown, hother, by decide⟩
      · exact ⟨_, _, false, true, true, true, hleft, hright, hother, hown, by decide⟩

/-! ## Runs -/

/-- A run of honest operations: the trees it went through, latest first, and
the keys of all path nodes it generated. -/
inductive HonestRun (S : Suite) : List RatchetTree → List Bytes → Prop where
  | start (leaf : LeafNode) (hsource : ∀ ph, leaf.leafNodeSource ≠ .commit ph) :
      HonestRun S [newRatchetTree leaf] []
  | addLeaf {t t' : RatchetTree} {trees : List RatchetTree} {keys : List Bytes}
      {leafIndex : ℕ} {lifetime : Lifetime} (ln : LeafNode)
      (hprior : HonestRun S (t :: trees) keys)
      (hsource : ln.leafNodeSource = .keyPackage lifetime)
      (hrun : t.addLeaf ln = .ok (leafIndex, t')) :
      HonestRun S (t' :: t :: trees) keys
  | updateLeaf {t t' : RatchetTree} {trees : List RatchetTree}
      {keys : List Bytes} (leaf : ℕ) (ln : LeafNode)
      (hprior : HonestRun S (t :: trees) keys) (hmember : t.Populated leaf)
      (hsource : ln.leafNodeSource = .update)
      (hrun : t.updateLeaf leaf ln = .ok t') :
      HonestRun S (t' :: t :: trees) keys
  | removeLeaf {t t' : RatchetTree} {trees : List RatchetTree}
      {keys : List Bytes} (leaf : ℕ) (hprior : HonestRun S (t :: trees) keys)
      (hrun : t.removeLeaf leaf = .ok t')
      (hleft : ∃ member, t'.Populated member) :
      HonestRun S (t' :: t :: trees) keys
  | generateUpdatePath {t : RatchetTree} {trees : List RatchetTree}
      {keys : List Bytes} {gp : GeneratedPath} (sender : ℕ)
      (leafSecret : Bytes) (signer : Option Signer) (groupID : Bytes)
      (newlyAdded : List ℕ) (mkGroupContext : Bytes → Result Bytes)
      (seeds : ℕ → ℕ → Bytes) (hprior : HonestRun S (t :: trees) keys)
      (hmember : t.Populated sender)
      (hrun : t.generateUpdatePath S sender leafSecret signer groupID
        newlyAdded mkGroupContext seeds = .ok gp)
      (hfresh : ∀ key ∈ gp.updatePath.nodeKeys, key ∉ keys) :
      HonestRun S (gp.tree :: t :: trees) (gp.updatePath.nodeKeys ++ keys)
  | merge {t t' : RatchetTree} {trees : List RatchetTree}
      {keys : List Bytes} {gp : GeneratedPath} (sender : ℕ)
      (leafSecret : Bytes) (signer : Option Signer) (groupID : Bytes)
      (newlyAdded : List ℕ) (mkGroupContext : Bytes → Result Bytes)
      (seeds : ℕ → ℕ → Bytes) (hprior : HonestRun S (t :: trees) keys)
      (hmember : t.Populated sender)
      (hgenerate : t.generateUpdatePath S sender leafSecret signer groupID
        newlyAdded mkGroupContext seeds = .ok gp)
      (hrun : t.merge S sender gp.updatePath = .ok t')
      (hfresh : ∀ key ∈ gp.updatePath.nodeKeys, key ∉ keys) :
      HonestRun S (t' :: t :: trees) (gp.updatePath.nodeKeys ++ keys)

def Continues (S : Suite) (start : RatchetTree) (trees : List RatchetTree)
    (keys : List Bytes) (t : RatchetTree) : Prop :=
  ∃ steps rest, HonestRun S (t :: rest) keys ∧ steps ++ start :: trees = t :: rest

section Continued

variable {start t t' : RatchetTree} {trees : List RatchetTree} {keys : List Bytes}

theorem Continues.refl (hhonest : HonestRun S (start :: trees) keys) :
    Continues S start trees keys start := ⟨[], trees, hhonest, rfl⟩

theorem Continues.push (hcontinues : Continues S start trees keys t)
    (hstep : ∀ rest, HonestRun S (t :: rest) keys →
      HonestRun S (t' :: t :: rest) keys) : Continues S start trees keys t' := by
  obtain ⟨steps, rest, hhonest, hsteps⟩ := hcontinues
  exact ⟨t' :: steps, t :: rest, hstep rest hhonest, by rw [List.cons_append, hsteps]⟩

theorem Continues.generateUpdatePath (hcontinues : Continues S start trees keys t) {sender : ℕ}
    (hmember : t.Populated sender)
    (hrun : t.generateUpdatePath S sender leafSecret signer groupID newlyAdded
      mkGroupContext seeds = .ok gp)
    (hfresh : ∀ key ∈ gp.updatePath.nodeKeys, key ∉ keys) :
    ∃ steps keys', HonestRun S (gp.tree :: (steps ++ start :: trees)) keys' := by
  obtain ⟨steps, rest, hhonest, hsteps⟩ := hcontinues
  refine ⟨steps, gp.updatePath.nodeKeys ++ keys, ?_⟩
  rw [hsteps]
  exact .generateUpdatePath sender _ _ _ _ _ _ hhonest hmember hrun hfresh

end Continued

def runInputs (S : Suite) (trees : List RatchetTree) : Set Bytes :=
  {input | ∃ t ∈ trees, input ∈ parentHashInputs S t}

theorem runInputs_subset (t : RatchetTree) (trees : List RatchetTree) :
    runInputs S trees ⊆ runInputs S (t :: trees) := by
  rintro input ⟨s, hs, hinput⟩
  exact ⟨s, List.mem_cons_of_mem _ hs, hinput⟩

theorem parentHashInputs_subset (t : RatchetTree) (trees : List RatchetTree) :
    parentHashInputs S t ⊆ runInputs S (t :: trees) := fun _ hinput => ⟨t, by simp, hinput⟩

theorem ParentHashInvariant.mono (hinv : ParentHashInvariant S inputs keys t)
    (hinputs : inputs ⊆ inputs') : ParentHashInvariant S inputs' keys t := by
  constructor
  · intro k j p hp
    obtain ⟨b, hside⟩ := hinv.sides k j p hp
    exact ⟨b, hside.frame hinputs fun _ _ _ _ _ => rfl⟩
  · intro k j x hx
    exact (hinv.recorded k j x hx).mono hinputs fun _ hkey => hkey

theorem newRatchetTree_parentHashInvariant {leaf : LeafNode}
    (hsource : ∀ ph, leaf.leafNodeSource ≠ .commit ph) (inputs : Set Bytes) :
    ParentHashInvariant S inputs [] (newRatchetTree leaf) := by
  have hslots : ∀ k j, slotParentHash ((newRatchetTree leaf).slot k j) = none := by
    intro k j
    cases hslot : (newRatchetTree leaf).slot k j with
    | none => rfl
    | some n =>
        have hf : (newRatchetTree leaf).Full 0 := ⟨rfl, by omega⟩
        obtain ⟨hk, hj⟩ := hf.inside_of_slot hslot
        obtain rfl : k = 0 := by omega
        obtain rfl : j = 0 := by simpa using hj
        cases hslot
        cases hs : leaf.leafNodeSource with
        | commit ph => exact absurd hs (hsource ph)
        | keyPackage lifetime => simp [slotParentHash, hs]
        | update => simp [slotParentHash, hs]
  constructor
  · intro k j p hp
    have hnone := hslots (k + 1) j
    rw [hp] at hnone
    cases hnone
  · intro k j x hx
    rw [hslots] at hx
    cases hx

theorem generated_invariant {senderLeaf : ℕ} (hrep : t.RepresentationInvariant)
    (hinv : ParentHashInvariant S (runInputs S (t :: trees)) keys t) (r :
    PathRun S t senderLeaf leafSecret signer groupID newlyAdded mkGroupContext seeds gp)
    (hfresh : ∀ key ∈ gp.updatePath.nodeKeys, key ∉ keys) :
    gp.tree.RepresentationInvariant ∧
      ParentHashInvariant S (runInputs S (gp.tree :: t :: trees))
        (gp.updatePath.nodeKeys ++ keys) gp.tree := by
  obtain ⟨h, hf, -⟩ := hrep.full
  obtain ⟨entries, -, hi⟩ := r.installed_tree hf
  have hkeys : gp.updatePath.nodeKeys = r.nodePubs := r.node_keys
  rw [hkeys] at hfresh ⊢
  exact ⟨hi.invariant hf hrep, hinv.generate hf r hfresh
    (runInputs_subset _ _) (parentHashInputs_subset _ _)⟩

theorem HonestRun.invariant (hrun : HonestRun S trees keys) :
    ∀ t rest, trees = t :: rest → t.RepresentationInvariant ∧
      ParentHashInvariant S (runInputs S trees) keys t := by
  induction hrun with
  | start leaf hsource =>
      rintro t rest ⟨⟩
      exact ⟨newRatchetTree_invariant leaf, newRatchetTree_parentHashInvariant hsource _⟩
  | @addLeaf t₁ t₂ trees keys leafIndex lifetime ln hprior hsource hrun ih =>
      rintro t rest ⟨⟩
      obtain ⟨hrep, hinv⟩ := ih _ _ rfl
      obtain ⟨h, hf, -⟩ := hrep.full
      exact ⟨addLeaf_invariant hrep hrun,
        (hinv.add hf hrep.wellFormed (hf.added_of_addLeaf hrun)
          (by simp [hsource])).mono (runInputs_subset _ _)⟩
  | updateLeaf leaf ln hprior hmember hsource hrun ih =>
      rintro t rest ⟨⟩
      obtain ⟨hrep, hinv⟩ := ih _ _ rfl
      obtain ⟨h, hf, -⟩ := hrep.full
      obtain ⟨-, -, hslots⟩ := hf.updateLeaf_ok hrun
      exact ⟨updateLeaf_invariant hrep hrun,
        (hinv.blank (by simp [slotParentHash, hsource]) hslots).mono (runInputs_subset _ _)⟩
  | removeLeaf leaf hprior hrun hleft ih =>
      rintro t rest ⟨⟩
      obtain ⟨hrep, hinv⟩ := ih _ _ rfl
      obtain ⟨h, hf, -⟩ := hrep.full
      obtain ⟨h', -, -, -, hslots, -⟩ := hf.removeLeaf_ok hrun
      refine ⟨removeLeaf_invariant hrep hrun,
        (hinv.blank (L := leaf % 2 ^ 31) (x := none) rfl
          fun k j => ?_).mono (runInputs_subset _ _)⟩
      rw [hslots]
      simp
  | generateUpdatePath sender leafSecret signer groupID newlyAdded
      mkGroupContext seeds hprior hmember hrun hfresh ih =>
      rintro t rest ⟨⟩
      obtain ⟨hrep, hinv⟩ := ih _ _ rfl
      obtain ⟨r⟩ := pathRun_of_generateUpdatePath hrun
      exact generated_invariant hrep hinv r hfresh
  | merge sender leafSecret signer groupID newlyAdded mkGroupContext seeds
      hprior hmember hgenerate hrun hfresh ih =>
      rintro t rest ⟨⟩
      obtain ⟨hrep, hinv⟩ := ih _ _ rfl
      obtain ⟨r⟩ := pathRun_of_generateUpdatePath hgenerate
      rw [r.merge_eq, Except.ok.injEq] at hrun
      subst hrun
      exact generated_invariant hrep hinv r hfresh

/-- Honest runs keep the tree parent-hash valid. -/
theorem verifyParentHashes_of_run {trees : List RatchetTree} {keys : List Bytes}
    (hrun : HonestRun S (t :: trees) keys) (hinj : Set.InjOn S.hash (runInputs S (t :: trees)))
    (hdigest : ∀ input, S.hash input ≠ []) :
    t.verifyParentHashes S = .ok true := by
  obtain ⟨hrep, hinv⟩ := hrun.invariant t trees rfl
  exact hinv.verify hrep hinj (parentHashInputs_subset _ _) hdigest

/-- One member adds another and updates its path. -/
theorem verifyParentHashes_two_members :
    ∃ gp, (pairTree none).generateUpdatePath taggedSuite 0 [3] (some ⟨[1]⟩)
        [] [] pure (fun _ _ => []) = .ok gp ∧
      gp.tree.verifyParentHashes taggedSuite = .ok true := by
  obtain ⟨gp, hrun⟩ : ∃ gp, (pairTree none).generateUpdatePath taggedSuite 0 [3] (some ⟨[1]⟩)
      [] [] pure (fun _ _ => []) = .ok gp := by decide +kernel
  have hadd : HonestRun taggedSuite [pairTree none, newRatchetTree (sampleLeaf 1)] [] :=
    .addLeaf (sampleLeaf 2) (.start (sampleLeaf 1) (by simp [sampleLeaf])) rfl rfl
  refine ⟨gp, hrun, verifyParentHashes_of_run (S := taggedSuite) (.generateUpdatePath 0 _ _ _ _ _ _
    hadd (by decide) hrun (by simp)) taggedSuite_hash_injective.injOn ?_⟩
  intro input
  simp [taggedSuite]

end RatchetTree

end MlsGo
