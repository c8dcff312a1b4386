import MlsGo.ValidationFaults

/-!
# Tree validity slot by slot

`VerifyLeafSignatures` and `VerifyParentHashes` scan the whole array.  Both
answers are statements about slots: every leaf is signed for its place and no
two leaves share a key, and of the two children of every parent exactly one
carries the parent hash.  In a well-formed tree the latter depends on the two
subtrees below the parent only, and an `AddLeaf` below it changes nothing.
-/

namespace MlsGo.RatchetTree

open InOrderLayout

variable {S : Suite} {t t' : RatchetTree} {h k j L M : ℕ} {groupID : Bytes} {l : LeafNode} {c : ℕ}
    {p : ParentNode} {want : Bytes}

/-! ## Leaf signatures -/

def KeysDiffer (l l' : LeafNode) : Prop :=
  l.signatureKey ≠ l'.signatureKey ∧ l.encryptionKey ≠ l'.encryptionKey

theorem KeysDiffer.symm {l' : LeafNode} (hdiffer : KeysDiffer l l') : KeysDiffer l' l :=
  ⟨hdiffer.1.symm, hdiffer.2.symm⟩

/-- Every leaf is signed for its place in the group, and the keys of the leaves
are pairwise distinct. -/
structure LeavesValid (S : Suite) (groupID : Bytes) (t : RatchetTree) :
    Prop where
  signed : ∀ L l, t.slot 0 L = some (.leaf l) → l.verifySignature S groupID L = .ok true
  distinct : ∀ L M l l', L ≠ M → t.slot 0 L = some (.leaf l) →
    t.slot 0 M = some (.leaf l') → KeysDiffer l l'

theorem verifyLeafSignaturesLoop_leaf {rest : List (Option Node)}
    {leafIndex : ℕ} {sigKeys encKeys : List Bytes} :
    verifyLeafSignaturesLoop S groupID (some (.leaf l) :: rest) leafIndex sigKeys
        encKeys = .ok () ↔
      l.verifySignature S groupID leafIndex = .ok true ∧
        l.signatureKey ∉ sigKeys ∧ l.encryptionKey ∉ encKeys ∧
        verifyLeafSignaturesLoop S groupID rest (leafIndex + 1)
          (l.signatureKey :: sigKeys) (l.encryptionKey :: encKeys) = .ok () := by
  rw [verifyLeafSignaturesLoop, bind_eq_ok]
  constructor
  · rintro ⟨ok, hok, hrest⟩
    simp only [List.contains_iff_mem] at hrest
    cases ok with
    | false => exact absurd hrest fail_ne_ok
    | true =>
        rw [if_neg (by simp)] at hrest
        split at hrest
        · exact absurd hrest fail_ne_ok
        · split at hrest
          · exact absurd hrest fail_ne_ok
          · exact ⟨hok, ‹_›, ‹_›, hrest⟩
  · rintro ⟨hok, hsig, henc, hrest⟩
    exact ⟨true, hok, by simpa [hsig, henc] using hrest⟩

def leavesFrom : List (Option Node) → ℕ → List (ℕ × LeafNode)
  | [], _ => []
  | some (.leaf l) :: rest, leafIndex => (leafIndex, l) :: leavesFrom rest (leafIndex + 1)
  | _ :: rest, leafIndex => leavesFrom rest (leafIndex + 1)

theorem mem_leavesFrom :
    ∀ (slots : List (Option Node)) (leafIndex : ℕ),
      (L, l) ∈ leavesFrom slots leafIndex ↔
        ∃ n : ℕ, L = leafIndex + n ∧ slots[n]? = some (some (.leaf l)) := by
  intro slots
  induction slots with
  | nil => simp [leavesFrom]
  | cons slot rest ih =>
      intro leafIndex
      have hrest : (L, l) ∈ leavesFrom rest (leafIndex + 1) ↔
          ∃ n : ℕ, L = leafIndex + (n + 1) ∧ rest[n]? = some (some (.leaf l)) := by
        rw [ih]
        simp only [Nat.add_assoc, Nat.add_comm 1]
      rw [← Nat.or_exists_add_one]
      simp only [List.getElem?_cons_zero, List.getElem?_cons_succ, ← hrest]
      rcases slot with _ | (l' | p)
      · simp [leavesFrom]
      · simp [leavesFrom, eq_comm]
      · simp [leavesFrom]

theorem leavesFrom_sorted :
    ∀ (slots : List (Option Node)) (leafIndex : ℕ),
      (leavesFrom slots leafIndex).Pairwise fun e e' => e.1 < e'.1 := by
  intro slots
  induction slots with
  | nil => simp [leavesFrom]
  | cons slot rest ih =>
      intro leafIndex
      rcases slot with _ | (l | p)
      · exact ih _
      · refine List.pairwise_cons.mpr ⟨?_, ih _⟩
        rintro ⟨M, l'⟩ hmem
        obtain ⟨n, rfl, -⟩ := (mem_leavesFrom rest _).mp hmem
        exact Nat.lt_of_lt_of_le (Nat.lt_succ_self _) (Nat.le_add_right _ _)
      · exact ih _

theorem verifyLeafSignaturesLoop_eq_ok :
    ∀ (slots : List (Option Node)) (leafIndex : ℕ) (sigKeys encKeys : List Bytes),
      verifyLeafSignaturesLoop S groupID slots leafIndex sigKeys encKeys = .ok () ↔
        (∀ e ∈ leavesFrom slots leafIndex,
          e.2.verifySignature S groupID e.1 = .ok true ∧
            e.2.signatureKey ∉ sigKeys ∧ e.2.encryptionKey ∉ encKeys) ∧
        (leavesFrom slots leafIndex).Pairwise fun e e' => KeysDiffer e.2 e'.2 := by
  intro slots
  induction slots with
  | nil => simp [verifyLeafSignaturesLoop, leavesFrom]
  | cons slot rest ih =>
      intro leafIndex sigKeys encKeys
      rcases slot with _ | (l | p)
      · exact ih _ _ _
      · rw [verifyLeafSignaturesLoop_leaf, ih, leavesFrom, List.forall_mem_cons,
          List.pairwise_cons]
        simp only [List.mem_cons, not_or, KeysDiffer]
        grind
      · exact ih _ _ _

theorem verifyLeafSignatures_eq_ok :
    t.verifyLeafSignatures S groupID = .ok () ↔ LeavesValid S groupID t := by
  have hmem : ∀ L l, (L, l) ∈ leavesFrom (leafSlots t.nodes) 0 ↔ t.slot 0 L = some (.leaf l) := by
    intro L l
    rw [mem_leavesFrom, slot_zero, Option.join_eq_some_iff]
    simp
  have hsorted := leavesFrom_sorted (leafSlots t.nodes) 0
  rw [verifyLeafSignatures, verifyLeafSignaturesLoop_eq_ok]
  constructor
  · rintro ⟨hsigned, hdistinct⟩
    refine ⟨fun L l hl => (hsigned (L, l) ((hmem L l).mpr hl)).1, ?_⟩
    intro L M l l' hne hl hl'
    have hsymm : Std.Symm fun e e' : ℕ × LeafNode => KeysDiffer e.2 e'.2 :=
      ⟨fun _ _ hdiffer => hdiffer.symm⟩
    exact hdistinct.forall ((hmem L l).mpr hl) ((hmem M l').mpr hl') (by simp [hne])
  · rintro ⟨hsigned, hdistinct⟩
    refine ⟨fun e he => ⟨hsigned e.1 e.2 ((hmem _ _).mp he), by simp, by simp⟩, ?_⟩
    refine hsorted.imp_of_mem fun {e e'} he he' hlt => ?_
    exact hdistinct e.1 e'.1 e.2 e'.2 hlt.ne ((hmem _ _).mp he) ((hmem _ _).mp he')

/-! ## Parent hashes -/

theorem verifyParentHashesLoop_eq_true :
    ∀ (nodes : List (Option Node)) (i : ℕ),
      t.verifyParentHashesLoop S nodes i = .ok true ↔
        ∀ (m : ℕ) p, nodes[m]? = some (some (.parent p)) → t.OneSideMatches S (i + m) := by
  intro nodes
  induction nodes with
  | nil => simp [verifyParentHashesLoop]
  | cons slot rest ih =>
      intro i
      have hrest : t.verifyParentHashesLoop S rest (i + 1) = .ok true ↔
          ∀ (m : ℕ) p, rest[m]? = some (some (.parent p)) → t.OneSideMatches S (i + (m + 1)) := by
        rw [ih]
        simp only [Nat.add_assoc, Nat.add_comm 1]
      rw [← Nat.and_forall_add_one]
      simp only [List.getElem?_cons_zero, List.getElem?_cons_succ, ← hrest]
      rcases slot with _ | (l | p)
      · simp [verifyParentHashesLoop]
      · simp [verifyParentHashesLoop]
      · simp only [verifyParentHashesLoop, bind_eq_ok, Prod.exists]
        constructor
        · rintro ⟨r, ok, hr, okL, hL, okR, hR, hloop⟩
          split at hloop
          · cases hloop
          · exact ⟨fun _ _ => ⟨r, ok, okL, okR, hr, hL, hR, ‹_›⟩, hloop⟩
        · rintro ⟨hmatch, hloop⟩
          obtain ⟨r, ok, okL, okR, hr, hL, hR, hne⟩ := hmatch p rfl
          exact ⟨r, ok, hr, okL, hL, okR, hR, by rw [if_neg hne, hloop]⟩

theorem verifyParentHashes_eq_true :
    t.verifyParentHashes S = .ok true ↔ ∀ i, t.HoldsParent i → t.OneSideMatches S i := by
  rw [verifyParentHashes, verifyParentHashesLoop_eq_true]
  constructor
  · rintro hall i ⟨p, hp⟩
    simpa using hall i p hp
  · intro hall m p hp
    simpa using hall m ⟨p, hp⟩

theorem Full.oneSideMatches_iff (hf : t.Full h) (hin : Inside h (k + 1) j) {b : ℕ} (hb : b < 2) :
    t.OneSideMatches S (inorder (k + 1) j) ↔
      ∃ own other,
        t.hasParentHashMatch S (inorder (k + 1) j) (inorder k (2 * j + b))
          (inorder k (2 * j + (1 - b))) = .ok own ∧
        t.hasParentHashMatch S (inorder (k + 1) j)
          (inorder k (2 * j + (1 - b))) (inorder k (2 * j + b)) = .ok other ∧
        own ≠ other := by
  have hh := hf.le_thirtyOne
  have hlt := inside_iff.mp hin
  have hleft := left_inorder (hlt.trans (treeWidth_lt hh))
  have hright : right (inorder (k + 1) j) t.leafCount = .ok (inorder k (2 * j + 1), true) := by
    rw [hf.leafCount_eq, right_inorder hh hlt]
  have hsides : t.OneSideMatches S (inorder (k + 1) j) ↔
      ∃ okL okR,
        t.hasParentHashMatch S (inorder (k + 1) j) (inorder k (2 * j))
          (inorder k (2 * j + 1)) = .ok okL ∧
        t.hasParentHashMatch S (inorder (k + 1) j) (inorder k (2 * j + 1))
          (inorder k (2 * j)) = .ok okR ∧ okL ≠ okR := by
    simp only [OneSideMatches, hleft, hright, Except.ok.injEq, Prod.mk.injEq]
    constructor
    · rintro ⟨r, ok, okL, okR, ⟨rfl, rfl⟩, hL, hR, hne⟩
      exact ⟨okL, okR, hL, hR, hne⟩
    · rintro ⟨okL, okR, hL, hR, hne⟩
      exact ⟨_, _, okL, okR, ⟨rfl, rfl⟩, hL, hR, hne⟩
  rw [hsides]
  interval_cases b
  · exact Iff.rfl
  · constructor
    · rintro ⟨okL, okR, hL, hR, hne⟩
      exact ⟨okR, okL, hR, hL, hne.symm⟩
    · rintro ⟨own, other, hown, hother, hne⟩
      exact ⟨other, own, hother, hown, hne.symm⟩

theorem parentHashMatchLoop_defined (want : Bytes) (res expected : List ℕ) :
    ∀ ds, (∀ d ∈ ds, ∃ ph, t.nodeParentHash d = .ok ph) →
      ∃ b, t.parentHashMatchLoop want res expected ds = .ok b ∧
        (b = true ↔ ∃ d ∈ ds, t.nodeParentHash d = .ok (some want) ∧
          sameSet (res.filter fun x => x ≠ d) expected = true) := by
  intro ds
  induction ds with
  | nil => exact fun _ => ⟨false, rfl, by simp⟩
  | cons d ds ih =>
      intro hdefined
      obtain ⟨ph, hph⟩ := hdefined d (by simp)
      obtain ⟨b, hb, hiff⟩ := ih fun x hx => hdefined x (by simp [hx])
      rw [parentHashMatchLoop, hph, ok_bind]
      by_cases hmatch : ph = some want ∧ sameSet (res.filter fun x => x ≠ d) expected = true
      · rw [if_pos hmatch]
        exact ⟨true, rfl, iff_of_true rfl ⟨d, by simp, by rw [hph, hmatch.1], hmatch.2⟩⟩
      · rw [if_neg hmatch]
        refine ⟨b, hb, ?_⟩
        rw [hiff, List.exists_mem_cons_iff, hph, Except.ok.injEq]
        simp only [hmatch, false_or]

/-- One node in the resolution of `(k, c)` carries the parent hash `want` of `p`,
and the others are the unmerged leaves of `p` below `(k, c)`. -/
def Carries (t : RatchetTree) (k c : ℕ) (p : ParentNode) (want : Bytes) : Prop :=
  ∃ i m, Below k c i m ∧ inorder i m ∈ t.resolutionAt k c ∧
    slotParentHash (t.slot i m) = some want ∧
    ∀ x, (x ∈ t.resolutionAt k c ∧ x ≠ inorder i m) ↔
      ∃ u ∈ p.unmergedLeaves, u.toNat / 2 ^ k = c ∧ x = inorder 0 u.toNat

def Matched (S : Suite) (t : RatchetTree) (k j : ℕ) (p : ParentNode) : Prop :=
  ∃ left right, t.parentHashVia S p k (2 * j + 1) = .ok left ∧
    t.parentHashVia S p k (2 * j) = .ok right ∧
    ¬ (t.Carries k (2 * j) p left ↔ t.Carries k (2 * j + 1) p right)

theorem Full.hasParentHashMatch_carries (hf : t.Full h) (hw : WellFormed t.slot) {s : ℕ}
    (hp : t.slot (k + 1) j = some (.parent p)) (hc : Inside h k c)
    (hs : Inside h k s) (hwant : t.parentHashVia S p k s = .ok want) :
    ∃ b, t.hasParentHashMatch S (inorder (k + 1) j) (inorder k c) (inorder k s) =
      .ok b ∧ (b = true ↔ t.Carries k c p want) := by
  have hentry : ∀ x ∈ t.resolutionAt k c, ∃ i m, x = inorder i m ∧
      Below k c i m ∧ t.nodeParentHash x = .ok (slotParentHash (t.slot i m)) := by
    intro x hx
    obtain ⟨i, m, rfl, hbelow, hne⟩ := hf.mem_resolutionAt hw k _ x hx
    obtain ⟨n, hn⟩ := Option.ne_none_iff_exists'.mp hne
    exact ⟨i, m, rfl, hbelow, hf.nodeParentHash_eq (hf.inside_of_slot hn)⟩
  obtain ⟨b, hb, hiff⟩ := parentHashMatchLoop_defined want (t.resolutionAt k c)
    (unmergedBelow p (inorder k c)) (t.resolutionAt k c) fun x hx => by
      obtain ⟨i, m, -, -, hph⟩ := hentry x hx
      exact ⟨_, hph⟩
  refine ⟨b, by rw [hf.hasParentHashMatch_bind hp hc hs, hwant, ok_bind, hb], ?_⟩
  rw [hiff]
  simp only [sameSet_iff, List.mem_filter, hf.mem_unmergedBelow hw hp hc, decide_eq_true_eq]
  constructor
  · rintro ⟨d, hd, hph, hset⟩
    obtain ⟨i, m, rfl, hbelow, hslot⟩ := hentry d hd
    rw [hslot, Except.ok.injEq] at hph
    exact ⟨i, m, hbelow, hd, hph, hset⟩
  · rintro ⟨i, m, hbelow, hd, hph, hset⟩
    obtain ⟨i', m', heq, -, hslot⟩ := hentry _ hd
    obtain ⟨rfl, rfl⟩ := inorder_inj.mp heq
    exact ⟨_, hd, by rw [hslot, hph], hset⟩

theorem Full.oneSideMatches_iff_matched (hf : t.Full h) (hw : WellFormed t.slot)
    (hp : t.slot (k + 1) j = some (.parent p)) :
    t.OneSideMatches S (inorder (k + 1) j) ↔ Matched S t k j p := by
  have hin := hf.inside_of_slot hp
  have hleft : Inside h k (2 * j) := hin.child (i := 0) (by omega)
  have hright : Inside h k (2 * j + 1) := hin.child (by omega)
  rw [hf.oneSideMatches_iff hin (b := 0) (by omega)]
  simp only [Nat.add_zero, Nat.sub_zero]
  constructor
  · rintro ⟨own, other, hown, hother, hne⟩
    have hown' := hown
    have hother' := hother
    rw [hf.hasParentHashMatch_bind hp hleft hright, bind_eq_ok] at hown'
    rw [hf.hasParentHashMatch_bind hp hright hleft, bind_eq_ok] at hother'
    obtain ⟨left, hl, -⟩ := hown'
    obtain ⟨right, hr, -⟩ := hother'
    obtain ⟨b, hb, hbiff⟩ := hf.hasParentHashMatch_carries hw hp hleft hright hl
    obtain ⟨c, hc, hciff⟩ := hf.hasParentHashMatch_carries hw hp hright hleft hr
    cases hown.symm.trans hb
    cases hother.symm.trans hc
    exact ⟨left, right, hl, hr, by
      rw [← hbiff, ← hciff, ← Bool.eq_iff_iff]
      exact hne⟩
  · rintro ⟨left, right, hl, hr, hne⟩
    obtain ⟨b, hb, hbiff⟩ := hf.hasParentHashMatch_carries hw hp hleft hright hl
    obtain ⟨c, hc, hciff⟩ := hf.hasParentHashMatch_carries hw hp hright hleft hr
    rw [← hbiff, ← hciff, ← Bool.eq_iff_iff] at hne
    exact ⟨b, c, hb, hc, hne⟩

/-! ## Changes elsewhere in the tree -/

theorem Carries.frame (hsame : ∀ i m, Below k c i m → t'.slot i m = t.slot i m)
    (hcarries : t.Carries k c p want) : t'.Carries k c p want := by
  obtain ⟨i, m, hbelow, hmem, hph, hset⟩ := hcarries
  have hres : t'.resolutionAt k c = t.resolutionAt k c := resolutionAt_congr k c hsame
  refine ⟨i, m, hbelow, ?_, ?_, ?_⟩
  · rw [hres]
    exact hmem
  · rw [hsame i m hbelow, hph]
  · rw [hres]
    exact hset

theorem Matched.frame (hmatched : Matched S t k j p)
    (hsame : ∀ c < 2, ∀ i m, Below k (2 * j + c) i m →
      t'.slot i m = t.slot i m) : Matched S t' k j p := by
  obtain ⟨left, right, hl, hr, hne⟩ := hmatched
  have hvia : ∀ c < 2, t'.parentHashVia S p k (2 * j + c) = t.parentHashVia S p k (2 * j + c) := by
    intro c hc
    rw [parentHashVia, parentHashVia, treeHashAt_congr_slots S _ k _ (hsame c hc)]
  have hcarries : ∀ c < 2, ∀ want, t'.Carries k (2 * j + c) p want ↔
      t.Carries k (2 * j + c) p want := fun c hc want =>
    ⟨Carries.frame fun i m hb => (hsame c hc i m hb).symm, Carries.frame (hsame c hc)⟩
  refine ⟨left, right, ?_, ?_, ?_⟩
  · rw [hvia 1 (by omega), hl]
  · rw [← Nat.add_zero (2 * j), hvia 0 (by omega)]
    exact hr
  · rw [hcarries 1 (by omega), ← Nat.add_zero (2 * j), hcarries 0 (by omega)]
    exact hne

theorem Matched.off_path (hmatched : Matched S t k j p)
    (hoff : ∀ k j, L / 2 ^ k ≠ j → t'.slot k j = t.slot k j)
    (hj : L / 2 ^ (k + 1) ≠ j) : Matched S t' k j p :=
  hmatched.frame fun _ hc i m hbelow => hoff i m ((hbelow.up hc).off_path hj)

/-! ## Adding a leaf below a parent -/

namespace Added

variable {ln : LeafNode}

theorem slotParentHash_of_ne (ha : Added t t' M ln) {i m : ℕ} (hne : inorder i m ≠ inorder 0 M) :
    slotParentHash (t'.slot i m) = slotParentHash (t.slot i m) := by
  by_cases hm : M / 2 ^ i = m
  · subst hm
    cases i with
    | zero => exact absurd (by simp) hne
    | succ i =>
        rw [ha.slot_on]
        rcases t.slot (i + 1) (M / 2 ^ (i + 1)) with _ | (_ | _) <;> rfl
  · rw [ha.slot_off hm]

theorem notMem_resolutionAt (ha : Added t t' M ln) (hf : t.Full h)
    (hw : WellFormed t.slot) (c : ℕ) : inorder 0 M ∉ t.resolutionAt k c := by
  intro hmem
  obtain ⟨i, m, heq, -, hne⟩ := hf.mem_resolutionAt hw k c _ hmem
  obtain ⟨rfl, rfl⟩ := inorder_inj.mp heq
  exact hne ha.blank

/-- The new leaf is an unmerged leaf of every parent above it, so it is neither
the node that carries the parent hash nor an entry too many. -/
theorem carries_iff (ha : Added t t' M ln) (hf : t.Full h) (hw : WellFormed t.slot)
    (hp : t.slot (k + 1) j = some (.parent p)) :
    t'.Carries k c { p with unmergedLeaves := insertLeaf (UInt32.ofNat M) p.unmergedLeaves } want ↔
        t.Carries k c p want := by
  have hfresh : ∀ u ∈ p.unmergedLeaves, u.toNat ≠ M := by
    rintro u hu rfl
    exact (hw.unmerged_below _ j p hp u hu).2 ha.blank
  have hout := ha.notMem_resolutionAt hf hw (k := k) c
  -- the condition on entry `x`, for a candidate other than the new leaf
  have hset : ∀ i m, inorder i m ≠ inorder 0 M → ∀ x,
      ((x ∈ t'.resolutionAt k c ∧ x ≠ inorder i m) ↔
          ∃ u ∈ insertLeaf (UInt32.ofNat M) p.unmergedLeaves,
            u.toNat / 2 ^ k = c ∧ x = inorder 0 u.toNat) ↔
        ((x ∈ t.resolutionAt k c ∧ x ≠ inorder i m) ↔
          ∃ u ∈ p.unmergedLeaves, u.toNat / 2 ^ k = c ∧ x = inorder 0 u.toNat) := by
    intro i m hne x
    simp only [ha.mem_resolutionAt hw, WellFormed.mem_insertLeaf, or_and_right,
      exists_or, exists_eq_left, ha.toNat_eq]
    by_cases hx : x = inorder 0 M
    · subst hx
      have hold : ¬ ∃ u ∈ p.unmergedLeaves, u.toNat / 2 ^ k = c ∧
          inorder 0 M = inorder 0 u.toNat := by
        rintro ⟨u, hu, -, heq⟩
        exact hfresh u hu (inorder_inj.mp heq).2.symm
      simp only [hout, hold, hne.symm, ne_eq, not_false_eq_true,
        and_true, true_and, false_or, or_false]
    · simp only [hx, false_and, and_false, false_or, or_false]
  constructor
  · rintro ⟨i, m, hbelow, hmem, hph, hall⟩
    by_cases hne : inorder i m = inorder 0 M
    · -- the new leaf is itself unmerged, so it cannot be the carrier
      obtain ⟨rfl, rfl⟩ := inorder_inj.mp hne
      have hself := (hall (inorder 0 m)).mpr ⟨UInt32.ofNat m,
        WellFormed.mem_insertLeaf.mpr (.inl rfl), by
          rw [ha.toNat_eq]
          exact below_leaf_iff.mp hbelow, by rw [ha.toNat_eq]⟩
      exact absurd rfl hself.2
    · refine ⟨i, m, hbelow, ?_, ?_, fun x => (hset i m hne x).mp (hall x)⟩
      · exact ((ha.mem_resolutionAt hw _ k c).mp hmem).resolve_right fun hnew => hne hnew.1
      · rw [← ha.slotParentHash_of_ne hne, hph]
  · rintro ⟨i, m, hbelow, hmem, hph, hall⟩
    have hne : inorder i m ≠ inorder 0 M := fun heq => hout (heq ▸ hmem)
    refine ⟨i, m, hbelow, (ha.mem_resolutionAt hw _ k c).mpr (.inl hmem), ?_,
      fun x => (hset i m hne x).mpr (hall x)⟩
    rw [ha.slotParentHash_of_ne hne, hph]

theorem matched (ha : Added t t' M ln) (hf : t.Full h) (hw : WellFormed t.slot)
    (hp : t.slot (k + 1) j = some (.parent p)) (hmatched : Matched S t k j p) :
    Matched S t' k j
      { p with unmergedLeaves := insertLeaf (UInt32.ofNat M) p.unmergedLeaves } := by
  obtain ⟨left, right, hl, hr, hne⟩ := hmatched
  have hvia : ∀ s, t'.parentHashVia S
        { p with unmergedLeaves := insertLeaf (UInt32.ofNat M) p.unmergedLeaves }
        k s = t.parentHashVia S p k s := by
    intro s
    rw [parentHashVia, parentHashVia, ha.treeHashAt_eq hf hw
      fun u => (WellFormed.mem_insertLeaf : u ∈ insertLeaf _ p.unmergedLeaves ↔ _)]
  refine ⟨left, right, by rw [hvia, hl], by rw [hvia, hr], ?_⟩
  rw [ha.carries_iff hf hw hp, ha.carries_iff hf hw hp]
  exact hne

end Added

/-! ## All parents -/

def AllMatched (S : Suite) (t : RatchetTree) : Prop :=
  ∀ k j p, t.slot (k + 1) j = some (.parent p) → Matched S t k j p

theorem RepresentationInvariant.allMatched (hinv : t.RepresentationInvariant)
    (hverify : t.verifyParentHashes S = .ok true) : AllMatched S t := by
  intro k j p hp
  obtain ⟨h, hf, -⟩ := hinv.full
  refine (hf.oneSideMatches_iff_matched hinv.wellFormed hp).mp ?_
  exact verifyParentHashes_eq_true.mp hverify _ ⟨p, Option.join_eq_some_iff.mp hp⟩

theorem RepresentationInvariant.oneSideMatches (hinv : t.RepresentationInvariant)
    {nodes : List ℕ}
    (hmatched : ∀ k j p, t.slot (k + 1) j = some (.parent p) →
      inorder (k + 1) j ∉ nodes → Matched S t k j p) {i : ℕ}
    (hparent : t.HoldsParent i) (hi : i ∉ nodes) : t.OneSideMatches S i := by
  obtain ⟨h, hf, -⟩ := hinv.full
  obtain ⟨p, hp⟩ := hparent
  obtain ⟨k, j, rfl⟩ := exists_inorder i
  have hslot : t.slot k j = some (.parent p) := Option.join_eq_some_iff.mpr hp
  cases k with
  | zero =>
      obtain ⟨l, hl⟩ := hinv.wellFormed.leaf_slot j _ hslot
      cases hl
  | succ k =>
      exact (hf.oneSideMatches_iff_matched hinv.wellFormed hslot).mpr (hmatched k j p hslot hi)

theorem AllMatched.blank {x : Option Node} (hall : AllMatched S t) (hslots : ∀ k j,
    t'.slot k j = if L / 2 ^ k = j then (if k = 0 then x else none) else t.slot k j) :
    AllMatched S t' := by
  intro k j p hp
  by_cases hj : L / 2 ^ (k + 1) = j
  · rw [hslots, if_pos hj, if_neg (by omega)] at hp
    cases hp
  · rw [hslots, if_neg hj] at hp
    refine (hall k j p hp).off_path (fun i m hne => ?_) hj
    rw [hslots, if_neg hne]

theorem AllMatched.add {ln : LeafNode} (hall : AllMatched S t) (hf : t.Full h)
    (hw : WellFormed t.slot) (ha : Added t t' M ln) : AllMatched S t' := by
  intro k j p hp
  by_cases hj : M / 2 ^ (k + 1) = j
  · subst hj
    rw [ha.slot_on] at hp
    obtain ⟨q, hq, rfl⟩ := WellFormed.addUnmerged_eq_some hp
    exact ha.matched hf hw hq (hall k _ q hq)
  · rw [ha.slot_off hj] at hp
    exact (hall k j p hp).off_path (fun i m hne => ha.slot_off hne) hj

end MlsGo.RatchetTree
