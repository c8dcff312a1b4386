import MlsGo.CanonicalForms
import MlsGo.CodecReturns
import MlsGo.ParentHashValidity
import MlsGo.TreeHashBinding
import MlsGo.WireRoundTrips

/-!
# Validation of an untrusted tree

A parsed tree fills its array, so hashing it and checking its leaf signatures
stay inside.  `VerifyParentHashes` looks up the parent hash of every entry in
the resolution of a child, and an entry comes from an unmerged-leaves list, whose
numbers nobody has compared with the size of the tree.  An entry outside the
array cannot be hidden behind an earlier match: a match wants all other entries
in the subtree of the child.  So the lookup panics as soon as the scan reaches a
parent whose child has such an entry.
-/

namespace MlsGo.RatchetTree

open InOrderLayout DecoderLaws

variable {S : Suite} {t : RatchetTree} {h k j : ℕ} {p : ParentNode} {a c s i : ℕ}

/-! ## Checks that always return -/

theorem treeHashAt_stops (excluded : List UInt32) :
    ∀ k j, StopsAtLimit (t.treeHashAt S excluded k j) := by
  intro k
  induction k with
  | zero =>
      intro j
      simp [treeHashAt, leafHashInput]
  | succ k ih =>
      intro j
      simp [treeHashAt, parentHashInput, ih]

theorem Full.rootTreeHash_stops (hf : t.Full h) : StopsAtLimit (t.rootTreeHash S) := by
  rw [hf.rootTreeHash_eq]
  exact treeHashAt_stops [] h 0

theorem verifyLeafSignaturesLoop_returns (groupID : Bytes) :
    ∀ (slots : List (Option Node)) (leafIndex : ℕ) (sigKeys encKeys : List Bytes),
      Returns (verifyLeafSignaturesLoop S groupID slots leafIndex sigKeys encKeys) := by
  intro slots
  induction slots with
  | nil => simp [verifyLeafSignaturesLoop]
  | cons slot rest ih =>
      intro leafIndex sigKeys encKeys
      rcases slot with _ | (l | p)
      · exact ih _ _ _
      · simp [verifyLeafSignaturesLoop, LeafNode.verifySignature, ih]
      · exact ih _ _ _

/-! ## Hashing a parsed tree succeeds -/

theorem encodeAll_mem {α : Type} {enc : α → Result Bytes} {values : List α}
    {encoded : Bytes} {value : α} (henc : encodeAll enc values = .ok encoded)
    (hmem : value ∈ values) : ∃ b, enc value = .ok b := by
  induction values generalizing encoded with
  | nil => cases hmem
  | cons first values ih =>
      simp only [encodeAll, bind_eq_ok] at henc
      obtain ⟨b, hb, others, hothers, -⟩ := henc
      rcases List.mem_cons.mp hmem with rfl | hmem
      · exact ⟨b, hb⟩
      · exact ih hothers hmem

theorem writeOpaqueV_of_le {p : Bytes} (hp : p.length ≤ maxVarint) :
    ∃ b, writeOpaqueV p = .ok b := by
  have hheader : ∃ header, writeVarint p.length = .ok header := by
    unfold writeVarint
    split_ifs
    · exact ⟨_, rfl⟩
    · exact ⟨_, rfl⟩
    · exact ⟨_, rfl⟩
  obtain ⟨header, hheader⟩ := hheader
  exact ⟨header ++ p, writeOpaqueV_eq_ok.mpr ⟨header, hheader, rfl⟩⟩

theorem encodeAll_uint32s (leaves : List UInt32) :
    ∃ b : Bytes, encodeAll (fun v => (.ok (writeUint32 v) : Result Bytes)) leaves =
      .ok b ∧ b.length = 4 * leaves.length := by
  induction leaves with
  | nil => exact ⟨[], rfl, rfl⟩
  | cons leaf leaves ih =>
      obtain ⟨b, hb, hlen⟩ := ih
      refine ⟨writeUint32 leaf ++ b, by simp [encodeAll, hb], ?_⟩
      simp only [List.length_append, hlen, List.length_cons, writeUint32, length_beBytes]
      ring

theorem writeUint32s_ok {leaves fewer : List UInt32} {encoded : Bytes}
    (hwrite : writeVectorV leaves (fun v => .ok (writeUint32 v)) = .ok encoded)
    (hlen : fewer.length ≤ leaves.length) :
    ∃ b, writeVectorV fewer (fun v => .ok (writeUint32 v)) = .ok b := by
  obtain ⟨inner, hinner, hlength⟩ := encodeAll_uint32s leaves
  obtain ⟨inner', hinner', hlength'⟩ := encodeAll_uint32s fewer
  simp only [writeVectorV, hinner, ok_bind] at hwrite
  have hmax := writeOpaqueV_length_le hwrite
  simp only [writeVectorV, hinner', ok_bind]
  exact writeOpaqueV_of_le (by omega)

theorem marshal_filterLeaves {b : Bytes} (hb : p.marshal = .ok b) (excluded : List UInt32) :
    ∃ b', ParentNode.marshal
      { p with unmergedLeaves := filterLeaves p.unmergedLeaves excluded } = .ok b' := by
  simp only [ParentNode.marshal, bind_eq_ok] at hb
  obtain ⟨key, hkey, hash, hhash, leaves, hleaves, -⟩ := hb
  have hlen : (filterLeaves p.unmergedLeaves excluded).length ≤
      p.unmergedLeaves.length := List.length_filter_le _ _
  obtain ⟨leaves', hleaves'⟩ := writeUint32s_ok hleaves hlen
  exact ⟨key ++ (hash ++ leaves'), by
    simp [ParentNode.marshal, hkey, hhash, hleaves']⟩

def Encodable (t : RatchetTree) : Prop := ∀ k j n, t.slot k j = some n → ∃ b, n.marshal = .ok b

theorem encodable_of_parse {data : Bytes}
    (hparse : parseRatchetTree data = .ok t) : t.Encodable := by
  intro k j n hslot
  obtain ⟨⟨nodes, rest⟩, hread, hresult⟩ := bind_eq_ok.mp hparse
  obtain ⟨encoded, hwrite, -⟩ := canonical_vectorV (canonical_optional canonical_node) _ _ _ hread
  dsimp only at hresult
  split at hresult
  · exact absurd hresult fail_ne_ok
  split at hresult
  · exact absurd hresult fail_ne_ok
  · exact absurd hresult fail_ne_ok
  next last hlast =>
    cases hresult
    have hmem : some n ∈ padToFullWidth nodes :=
      List.mem_of_getElem? (Option.join_eq_some_iff.mp hslot)
    have hmem : some n ∈ nodes := by
      rcases List.mem_append.mp hmem with hmem | hpad
      · exact hmem
      · simp at hpad
    obtain ⟨inner, hinner, -⟩ := bind_eq_ok.mp hwrite
    obtain ⟨b, hb⟩ := encodeAll_mem hinner hmem
    simp only [writeOptional, bind_eq_ok] at hb
    obtain ⟨body, hbody, -⟩ := hb
    exact ⟨body, hbody⟩

theorem slot_of_hashedLeaf {excluded : List UInt32} {n : Option Node}
    {l : LeafNode} (hhashed : hashedLeaf excluded j n = some l) :
    n = some (.leaf l) := by
  rcases n with _ | (l' | p)
  · cases hhashed
  · simp only [hashedLeaf] at hhashed
    split at hhashed
    · cases hhashed
    · cases hhashed
      rfl
  · cases hhashed

def ShortHashes (S : Suite) : Prop := ∀ data, (S.hash data).length ≤ maxVarint

theorem Encodable.treeHashAt_ok (henc : t.Encodable) (hshort : ShortHashes S)
    (excluded : List UInt32) :
    ∀ k j, ∃ d encoded, t.treeHashAt S excluded k j = .ok d ∧ writeOpaqueV d = .ok encoded := by
  intro k
  induction k with
  | zero =>
      intro j
      have hbody : ∃ b, writeOptional (hashedLeaf excluded j (t.slot 0 j))
          LeafNode.marshal = .ok b := by
        cases hhashed : hashedLeaf excluded j (t.slot 0 j) with
        | none => exact ⟨_, rfl⟩
        | some l =>
            obtain ⟨b, hb⟩ := henc 0 j _ (slot_of_hashedLeaf hhashed)
            simp only [Node.marshal, bind_eq_ok] at hb
            obtain ⟨body, hbody, -⟩ := hb
            exact ⟨1 :: body, by simp [writeOptional, hbody]⟩
      obtain ⟨b, hb⟩ := hbody
      obtain ⟨encoded, hencoded⟩ := writeOpaqueV_of_le
        (hshort (writeUint8 1 ++ (beBytes 4 j ++ b)))
      exact ⟨_, encoded, by simp [treeHashAt, leafHashInput, hb], hencoded⟩
  | succ k ih =>
      intro j
      obtain ⟨l, lbytes, hl, hlb⟩ := ih (2 * j)
      obtain ⟨r, rbytes, hr, hrb⟩ := ih (2 * j + 1)
      have hbody : ∃ b, writeOptional (hashedParent excluded (t.slot (k + 1) j))
          ParentNode.marshal = .ok b := by
        cases hslot : t.slot (k + 1) j with
        | none => exact ⟨_, rfl⟩
        | some n =>
            cases n with
            | leaf l => exact ⟨_, rfl⟩
            | parent p =>
                obtain ⟨b, hb⟩ := henc (k + 1) j _ hslot
                simp only [Node.marshal, bind_eq_ok] at hb
                obtain ⟨body, hbody, -⟩ := hb
                obtain ⟨b', hb'⟩ := marshal_filterLeaves hbody excluded
                exact ⟨1 :: b', by simp [hashedParent, writeOptional, hb']⟩
      obtain ⟨b, hb⟩ := hbody
      obtain ⟨encoded, hencoded⟩ := writeOpaqueV_of_le
        (hshort (writeUint8 2 ++ (b ++ (lbytes ++ rbytes))))
      exact ⟨_, encoded, by
        simp [treeHashAt, parentHashInput, hl, hr, hb, hlb, hrb], hencoded⟩

theorem Encodable.parentHashVia_ok (henc : t.Encodable) (hshort : ShortHashes S)
    (hp : t.slot k j = some (.parent p)) (a s : ℕ) :
    ∃ want, t.parentHashVia S p a s = .ok want := by
  obtain ⟨d, encoded, hd, hencoded⟩ := henc.treeHashAt_ok hshort p.unmergedLeaves a s
  obtain ⟨b, hb⟩ := henc k j _ hp
  simp only [Node.marshal, ParentNode.marshal, bind_eq_ok] at hb
  obtain ⟨-, ⟨key, hkey, above, habove, -⟩, -⟩ := hb
  exact ⟨S.hash (key ++ (above ++ encoded)), by
    simp [parentHashVia, parentHashBytes, hd, hkey, habove, hencoded]⟩

/-! ## The lookups of one parent -/

theorem nodeParentHash_inside {d : ℕ} (hd : d < t.nodes.length) :
    ∃ ph, t.nodeParentHash d = .ok ph := by
  rw [nodeParentHash, index, List.getElem?_eq_getElem hd]
  simp only [ok_bind]
  split
  · exact ⟨_, rfl⟩
  · split
    · exact ⟨_, rfl⟩
    · exact ⟨_, rfl⟩
  · exact ⟨_, rfl⟩

theorem nodeParentHash_outside {d : ℕ} (hd : t.nodes.length ≤ d) :
    t.nodeParentHash d = .error .panic := by
  rw [nodeParentHash, index, List.getElem?_eq_none hd]
  rfl

def Within (t : RatchetTree) (res : List ℕ) : Prop := ∀ d ∈ res, d < t.nodes.length

theorem parentHashMatchLoop_within {want : Bytes} {res expected : List ℕ} :
    ∀ ds, t.Within ds → ∃ b, t.parentHashMatchLoop want res expected ds = .ok b := by
  intro ds
  induction ds with
  | nil => exact fun _ => ⟨false, rfl⟩
  | cons d ds ih =>
      intro hwithin
      obtain ⟨ph, hph⟩ := nodeParentHash_inside (hwithin d (by simp))
      obtain ⟨b, hb⟩ := ih fun x hx => hwithin x (by simp [hx])
      rw [parentHashMatchLoop, hph, ok_bind]
      split
      · exact ⟨true, rfl⟩
      · exact ⟨b, hb⟩

theorem parentHashMatchLoop_outside {want : Bytes} {res expected : List ℕ}
    (hnone : ∀ d, d < t.nodes.length → sameSet (res.filter fun x => x ≠ d) expected = false) :
    ∀ ds, ¬ t.Within ds → t.parentHashMatchLoop want res expected ds = .error .panic := by
  intro ds
  induction ds with
  | nil => exact fun hout => absurd (fun d hd => by cases hd) hout
  | cons d ds ih =>
      intro hout
      by_cases hd : d < t.nodes.length
      · obtain ⟨ph, hph⟩ := nodeParentHash_inside hd
        have hrest : ¬ t.Within ds := fun hrest => hout fun x hx => by
          rcases List.mem_cons.mp hx with rfl | hx
          · exact hd
          · exact hrest x hx
        have hmiss : ¬ (ph = some want ∧ sameSet (res.filter fun x => x ≠ d) expected = true) := by
          rw [hnone d hd]
          simp
        rw [parentHashMatchLoop, hph, ok_bind, if_neg hmiss]
        exact ih hrest
      · rw [parentHashMatchLoop, nodeParentHash_outside (by omega), error_bind]

theorem Full.unmergedBelow_within (hf : t.Full h) (hin : Inside h k j)
    (p : ParentNode) : t.Within (unmergedBelow p (inorder k j)) := by
  intro x hx
  have hh := hf.le_thirtyOne
  have hsub := (List.mem_filter.mp hx).2
  rw [subtreeContains_inorder hh (inside_iff.mp hin)] at hsub
  have htop : 2 ^ (k + 1) * (j + 1) ≤ 2 ^ (h + 1) := by
    have hpow : 2 ^ (h + 1) = 2 ^ (k + 1) * 2 ^ (h - k) := by
      rw [← pow_add]
      congr 1
      have := hin.1
      omega
    rw [hpow]
    exact Nat.mul_le_mul_left _ hin.2
  have hadd := treeWidth_add_one h
  rw [hf.length_eq]
  omega

theorem Full.hasParentHashMatch_bind (hf : t.Full h) (hp : t.slot k j = some (.parent p))
    (hc : Inside h a c) (hs : Inside h a s) :
    t.hasParentHashMatch S (inorder k j) (inorder a c) (inorder a s) =
      (t.parentHashVia S p a s >>= fun want =>
        t.parentHashMatchLoop want (t.resolutionAt a c)
          (unmergedBelow p (inorder a c)) (t.resolutionAt a c)) := by
  simp only [hasParentHashMatch, hf.parentHashOf_eq S hp hs, hf.resolution_eq hc, parentAt,
    hf.index_eq (hf.inside_of_slot hp), hp, ok_bind, pure_eq_ok, unmergedBelow]

theorem Full.hasParentHashMatch_within (hf : t.Full h) (henc : t.Encodable)
    (hshort : ShortHashes S) (hp : t.slot k j = some (.parent p)) (hc : Inside h a c)
    (hs : Inside h a s) (hwithin : t.Within (t.resolutionAt a c)) :
    ∃ b, t.hasParentHashMatch S (inorder k j) (inorder a c) (inorder a s) = .ok b := by
  obtain ⟨want, hwant⟩ := henc.parentHashVia_ok hshort hp a s
  rw [hf.hasParentHashMatch_bind hp hc hs, hwant, ok_bind]
  exact parentHashMatchLoop_within _ hwithin

theorem Full.hasParentHashMatch_outside (hf : t.Full h) (henc : t.Encodable)
    (hshort : ShortHashes S) (hp : t.slot k j = some (.parent p)) (hc : Inside h a c)
    (hs : Inside h a s) (hout : ¬ t.Within (t.resolutionAt a c)) :
    t.hasParentHashMatch S (inorder k j) (inorder a c) (inorder a s) = .error .panic := by
  obtain ⟨want, hwant⟩ := henc.parentHashVia_ok hshort hp a s
  rw [hf.hasParentHashMatch_bind hp hc hs, hwant, ok_bind]
  refine parentHashMatchLoop_outside ?_ _ hout
  intro d hd
  -- a match at `d` would put every other entry into the subtree of the child
  by_contra hset
  rw [Bool.not_eq_false, sameSet_iff] at hset
  refine hout fun x hx => ?_
  by_cases hxd : x = d
  · rwa [hxd]
  · exact hf.unmergedBelow_within hc p x
      ((hset x).mp (List.mem_filter.mpr ⟨hx, by simpa using hxd⟩))

/-! ## The scan over all parents -/

theorem Full.children_eq (hf : t.Full h) (hi : i < t.nodes.length) :
    ∃ a l r ok, (left i).1 = inorder a l ∧ right i t.leafCount = .ok (inorder a r, ok) ∧
      Inside h a l ∧ Inside h a r := by
  have hh := hf.le_thirtyOne
  obtain ⟨k, j, rfl⟩ := exists_inorder i
  rw [hf.length_eq] at hi
  have hlt := hi.trans (treeWidth_lt hh)
  have hin := inside_iff.mpr hi
  cases k with
  | zero =>
      have hzero : Inside h 0 0 := ⟨by omega, Nat.two_pow_pos _⟩
      refine ⟨0, 0, 0, false, ?_, ?_, hzero, hzero⟩
      · rw [left_inorder_zero hlt]
        rfl
      · simp only [right, level_inorder hlt, if_true]
        rfl
  | succ k =>
      have hleft : Inside h k (2 * j + 0) := hin.child (by norm_num)
      refine ⟨k, 2 * j, 2 * j + 1, true, ?_, ?_, hleft, hin.child (by norm_num)⟩
      · rw [left_inorder hlt]
      · rw [hf.leafCount_eq, right_inorder hh hi]

def CandidatesWithin (t : RatchetTree) (i : ℕ) : Prop :=
  ∀ c res, (c = (left i).1 ∨ ∃ ok, right i t.leafCount = .ok (c, ok)) →
    t.resolution c = .ok res → t.Within res

def OneSideMatches (S : Suite) (t : RatchetTree) (i : ℕ) : Prop :=
  ∃ r ok okL okR, right i t.leafCount = .ok (r, ok) ∧
    t.hasParentHashMatch S i (left i).1 r = .ok okL ∧
    t.hasParentHashMatch S i r (left i).1 = .ok okR ∧ okL ≠ okR

def HoldsParent (t : RatchetTree) (i : ℕ) : Prop := ∃ p, t.nodes[i]? = some (some (.parent p))

/-- The scan meets no parent with a candidate outside the array: it stops at the
first parent that fails, so only the parents up to there count. -/
def ScanWithin (S : Suite) (t : RatchetTree) (start : ℕ) : Prop :=
  ∀ i, start ≤ i → t.HoldsParent i →
    (∀ j, start ≤ j → j < i → t.HoldsParent j → t.OneSideMatches S j) →
    t.CandidatesWithin i

theorem scanWithin_of_no_parent (hnone : ¬ t.HoldsParent i) :
    t.ScanWithin S i ↔ t.ScanWithin S (i + 1) := by
  constructor
  · intro hscan n hn hparent hbefore
    refine hscan n (by omega) hparent fun m hm hmn hp => ?_
    rcases Nat.eq_or_lt_of_le hm with rfl | hlt
    · exact absurd hp hnone
    · exact hbefore m hlt hmn hp
  · intro hscan n hn hparent hbefore
    rcases Nat.eq_or_lt_of_le hn with rfl | hlt
    · exact absurd hparent hnone
    · exact hscan n hlt hparent fun m hm => hbefore m (by omega)

theorem scanWithin_of_parent (hparent : t.HoldsParent i) :
    t.ScanWithin S i ↔ t.CandidatesWithin i ∧ (t.OneSideMatches S i → t.ScanWithin S (i + 1)) := by
  constructor
  · intro hscan
    refine ⟨hscan i le_rfl hparent fun m hm hmi => by omega, ?_⟩
    intro hmatch n hn hp hbefore
    refine hscan n (by omega) hp fun m hm hmn hp' => ?_
    rcases Nat.eq_or_lt_of_le hm with rfl | hlt
    · exact hmatch
    · exact hbefore m hlt hmn hp'
  · rintro ⟨hhere, hlater⟩ n hn hp hbefore
    rcases Nat.eq_or_lt_of_le hn with rfl | hlt
    · exact hhere
    · exact hlater (hbefore i le_rfl hlt hparent) n hlt hp fun m hm => hbefore m (by omega)

section Scan

variable {rest : List (Option Node)} {i : ℕ} {p : ParentNode}

theorem Full.scan_step (hf : t.Full h) (henc : t.Encodable)
    (hshort : ShortHashes S) (hp : t.nodes[i]? = some (some (.parent p))) :
    Returns (t.verifyParentHashesLoop S (some (.parent p) :: rest) i) ↔
      t.CandidatesWithin i ∧ (t.OneSideMatches S i →
        Returns (t.verifyParentHashesLoop S rest (i + 1))) := by
  have hi : i < t.nodes.length := (List.getElem?_eq_some_iff.mp hp).1
  obtain ⟨a, l, r, ok, hl, hr, hlin, hrin⟩ := hf.children_eq hi
  have hslot : ∃ k j, i = inorder k j ∧ t.slot k j = some (.parent p) := by
    obtain ⟨k, j, rfl⟩ := exists_inorder i
    exact ⟨k, j, rfl, by simp [slot, hp]⟩
  obtain ⟨k, j, rfl, hslot⟩ := hslot
  have hcandidates : t.CandidatesWithin (inorder k j) ↔
      t.Within (t.resolutionAt a l) ∧ t.Within (t.resolutionAt a r) := by
    constructor
    · intro hall
      exact ⟨hall _ _ (.inl rfl) (by rw [hl, hf.resolution_eq hlin]),
        hall _ _ (.inr ⟨ok, hr⟩) (hf.resolution_eq hrin)⟩
    · rintro ⟨hleft, hright⟩ c res (rfl | ⟨ok', hc⟩) hres
      · rw [hl, hf.resolution_eq hlin] at hres
        cases hres
        exact hleft
      · cases hr.symm.trans hc
        rw [hf.resolution_eq hrin] at hres
        cases hres
        exact hright
  rw [hcandidates]
  simp only [verifyParentHashesLoop, hl, hr, ok_bind]
  by_cases hleft : t.Within (t.resolutionAt a l)
  · obtain ⟨okL, hokL⟩ := hf.hasParentHashMatch_within henc hshort hslot hlin hrin hleft
    by_cases hright : t.Within (t.resolutionAt a r)
    · obtain ⟨okR, hokR⟩ := hf.hasParentHashMatch_within henc hshort hslot hrin hlin hright
      have hmatch : t.OneSideMatches S (inorder k j) ↔ okL ≠ okR := by
        constructor
        · rintro ⟨r', ok', okL', okR', hr', hL', hR', hne⟩
          cases hr.symm.trans hr'
          rw [hl] at hL' hR'
          cases hokL.symm.trans hL'
          cases hokR.symm.trans hR'
          exact hne
        · intro hne
          exact ⟨_, ok, okL, okR, hr, by rw [hl, hokL], by rw [hl, hokR], hne⟩
      rw [hmatch]
      simp [hokL, hokR, hleft, hright]
    · have hpanic := hf.hasParentHashMatch_outside henc hshort hslot hrin hlin hright
      simp [hokL, hpanic, hright, Returns]
  · have hpanic := hf.hasParentHashMatch_outside henc hshort hslot hlin hrin hleft
    simp [hpanic, hleft, Returns]

theorem Full.scan_returns_iff (hf : t.Full h) (henc : t.Encodable) (hshort : ShortHashes S) :
    ∀ (rest : List (Option Node)) (i : ℕ), (∀ m, t.nodes[i + m]? = rest[m]?) →
      (Returns (t.verifyParentHashesLoop S rest i) ↔ t.ScanWithin S i) := by
  intro rest
  induction rest with
  | nil =>
      intro i hrest
      refine iff_of_true (by simp [verifyParentHashesLoop]) ?_
      rintro n hn ⟨p, hp⟩
      obtain ⟨m, rfl⟩ := Nat.exists_eq_add_of_le hn
      simp [hrest m] at hp
  | cons slot rest ih =>
      intro i hrest
      have hhere : t.nodes[i]? = some slot := by simpa using hrest 0
      have hnext : ∀ m, t.nodes[i + 1 + m]? = rest[m]? := by
        intro m
        have := hrest (m + 1)
        rwa [show i + (m + 1) = i + 1 + m by ring, List.getElem?_cons_succ] at this
      have hskip : (∀ p, slot ≠ some (.parent p)) →
          (Returns (t.verifyParentHashesLoop S (slot :: rest) i) ↔ t.ScanWithin S i) := by
        intro hslot
        rw [scanWithin_of_no_parent (by
          rintro ⟨p, hp⟩
          exact hslot p (Option.some.inj (hhere.symm.trans hp))), ← ih (i + 1) hnext]
        rw [verifyParentHashesLoop]
        exact fun p hp => hslot p hp
      rcases slot with _ | (l | p)
      · exact hskip (by simp)
      · exact hskip (by simp)
      · rw [hf.scan_step henc hshort hhere, scanWithin_of_parent ⟨p, hhere⟩, ih (i + 1) hnext]

end Scan

/-- Validating a parsed tree returns, with a value or an error, exactly when the
scan over the parents looks up no position outside the array. -/
theorem validation_returns_iff (hshort : ShortHashes S) {data : Bytes}
    (hparse : parseRatchetTree data = .ok t) :
    (Returns (t.rootTreeHash S) ∧ Returns (t.verifyParentHashes S) ∧
        ∀ groupID, Returns (t.verifyLeafSignatures S groupID)) ↔
      t.ScanWithin S 0 := by
  obtain ⟨h, -, hf⟩ := parseRatchetTree_full hparse
  have hscan : Returns (t.verifyParentHashes S) ↔ t.ScanWithin S 0 :=
    hf.scan_returns_iff (encodable_of_parse hparse) hshort t.nodes 0 (by simp)
  rw [hscan]
  constructor
  · exact fun hall => hall.2.1
  · intro hwithin
    exact ⟨returns_of_stops hf.rootTreeHash_stops, hwithin,
      fun groupID => verifyLeafSignaturesLoop_returns groupID _ _ _ _⟩

/-! ## A tree that stops the validation -/

/-- Four members under a root; the right half has a parent with the given
unmerged leaves. -/
def unmergedTree (unmerged : List UInt32) : RatchetTree :=
  ⟨[some (.leaf (sampleLeaf 1)), none, some (.leaf (sampleLeaf 2)),
    some (.parent ⟨[5], [], []⟩),
    some (.leaf (sampleLeaf 3)), some (.parent ⟨[6], [], unmerged⟩),
    some (.leaf (sampleLeaf 4))]⟩

theorem shortHashes_plainSuite : ShortHashes plainSuite := by
  intro data
  simp [plainSuite, plainDigest, maxVarint]

theorem validation_returns_four :
    parseRatchetTree (wire (unmergedTree [3])) = .ok (unmergedTree [3]) ∧
      Returns ((unmergedTree [3]).verifyParentHashes plainSuite) ∧
      (unmergedTree [3]).ScanWithin plainSuite 0 := by
  have hparse : parseRatchetTree (wire (unmergedTree [3])) =
      .ok (unmergedTree [3]) := by decide +kernel
  have hreturns : Returns ((unmergedTree [3]).verifyParentHashes plainSuite) := by
    obtain ⟨b, hb⟩ : ∃ b, (unmergedTree [3]).verifyParentHashes plainSuite = .ok b := by
      decide +kernel
    simp [hb]
  obtain ⟨h, -, hf⟩ := parseRatchetTree_full hparse
  exact ⟨hparse, hreturns, (validation_returns_iff shortHashes_plainSuite hparse).mp
    ⟨returns_of_stops hf.rootTreeHash_stops, hreturns,
      fun groupID => verifyLeafSignaturesLoop_returns groupID _ _ _ _⟩⟩

/-- An unmerged leaf 9 in a tree of four leaves is parsed, and its lookup
panics. -/
theorem validation_panics :
    parseRatchetTree (wire (unmergedTree [9])) = .ok (unmergedTree [9]) ∧
      (unmergedTree [9]).verifyParentHashes plainSuite = .error .panic := by
  decide +kernel

end MlsGo.RatchetTree
