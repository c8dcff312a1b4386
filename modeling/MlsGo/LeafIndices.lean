import MlsGo.GroupMemory
import MlsGo.JoinRuns
import MlsGo.RepresentationInvariant
import MlsGo.VniController

/-!
# Leaf indices outside the tree

A leaf index is a `uint32` and the tree tests twice the index, again as a
`uint32`.  An index of `2 ^ 31` or more therefore denotes the leaf `2 ^ 31`
below it.  The lookup, the update and the removal of a leaf take it; the
controller compares indices, so it does not see that such a Remove is its own.
-/

namespace MlsGo

open InPlacePrograms InOrderLayout

namespace RatchetTree

variable {t : RatchetTree} {h : ℕ}

/-! ## Range tests -/

structure RejectsOutside (t : RatchetTree) (leaf : ℕ) : Prop where
  leafNodeAt : t.leafCount ≤ leaf → ∃ error, t.leafNodeAt leaf = .error (.err error)
  updateLeaf : t.leafCount ≤ leaf → ∀ ln, ∃ error, t.updateLeaf leaf ln = .error (.err error)
  removeLeaf : t.leafCount ≤ leaf → ∃ error, t.removeLeaf leaf = .error (.err error)
  unchanged : t.leafCount ≤ leaf → ∀ (m : Memory) (a : ℕ), m.tree a = t →
    (∀ ln, (GoProg.updateLeaf a leaf ln m).2 = m) ∧ (GoProg.removeLeaf a leaf m).2 = m

def SameLeaf (i j : ℕ) : Prop := u32 (2 * i) = u32 (2 * j)

theorem sameLeaf_iff {i j : ℕ} : SameLeaf i j ↔ i % 2 ^ 31 = j % 2 ^ 31 := by
  rw [SameLeaf, u32_double, u32_double, inorder_zero, inorder_zero]
  omega

theorem Full.width_le_of_outside (hf : t.Full h) {leaf : ℕ}
    (hleaf : 2 ^ h ≤ leaf % 2 ^ 31) : t.width ≤ u32 (2 * leaf) := by
  rw [u32_double, hf.width_eq, ← not_lt, ← inside_iff, Inside]
  simpa using hleaf

theorem Full.rejectsOutside_iff (hf : t.Full h) (leaf : UInt32) :
    t.RejectsOutside leaf.toNat ↔ (leaf.toNat < 2 ^ 31 ∨ t.leafCount ≤ leaf.toNat - 2 ^ 31) := by
  have hlt := leaf.toNat_lt
  have hpow := hf.two_pow_le
  rw [hf.leafCount_eq]
  constructor
  · intro hrejects
    by_contra haliased
    rw [not_or, not_lt, not_le] at haliased
    obtain ⟨t', h', -, hremove, -⟩ := hf.removeLeaf_spec
      (rfl : leaf.toNat % 2 ^ 31 = leaf.toNat % 2 ^ 31) (by omega)
    obtain ⟨error, herror⟩ := hrejects.removeLeaf (by rw [hf.leafCount_eq]; omega)
    rw [hremove] at herror
    cases herror
  · intro hindex
    have houtside : t.leafCount ≤ leaf.toNat → 2 ^ h ≤ leaf.toNat % 2 ^ 31 := by
      rw [hf.leafCount_eq]
      omega
    refine ⟨fun hge => ?_, fun hge ln => ?_, fun hge => ?_, fun hge m a ha => ?_⟩
    · refine ⟨.text s!"tree: leaf {leaf.toNat} is blank", ?_⟩
      rw [leafNodeAt, nodeAt, if_pos (hf.width_le_of_outside (houtside hge))]
      rfl
    · exact ⟨_, hf.updateLeaf_outside (houtside hge) ln⟩
    · exact ⟨_, hf.removeLeaf_outside (houtside hge)⟩
    · have hwidth := hf.width_le_of_outside (houtside hge)
      subst ha
      constructor
      · intro ln
        show ((if (m.tree a).width ≤ u32 (2 * leaf.toNat) then _ else _ : GoProg Unit) m).2 = m
        rw [if_pos hwidth]
        rfl
      · show ((if (m.tree a).width ≤ u32 (2 * leaf.toNat) then _ else _ : GoProg Unit) m).2 = m
        rw [if_pos hwidth]
        rfl

theorem sameLeaf_unique_iff (i j : UInt32) :
    (SameLeaf i.toNat j.toNat → i = j) ↔
      i.toNat + 2 ^ 31 ≠ j.toNat ∧ j.toNat + 2 ^ 31 ≠ i.toNat := by
  have hi := i.toNat_lt
  have hj := j.toNat_lt
  rw [sameLeaf_iff, ← UInt32.toNat_inj]
  omega

end RatchetTree

/-! ## The controller -/

variable {S : Suite} {registry : UInt16 → Option Suite} {c : Controller} {g : Group}
  {commit : Bytes} {ps : List ProposalOrRef}

def Group.committedProposals (S : Suite) (g : Group) (commit : Bytes) :
    Result (List ProposalOrRef) := do
  let m ← unmarshalMLSMessage commit
  if m.isExternalCommit then
    let content ← g.authenticateExternalCommit S m
    return content.proposals
  else
    let (_, cm) ← g.openMemberCommit S m
    return cm.proposals

def Controller.RecognisesRemoval (S : Suite) (registry : UInt16 → Option Suite)
    (c : Controller) (commit : Bytes) : Prop :=
  c.handleCommit S registry commit = (.error (.err errSelfRemoved), c)

theorem commitRemovesSelf_ne_err (error : Err) :
    g.commitRemovesSelf S commit ≠ .error (.err error) := by
  rw [Group.commitRemovesSelf]
  rcases g.peekCommit S commit with (_ | _ | _) | _ <;> simp

theorem within_ne_text {α : Type} {message text : String} {result : Result α} :
    within message result ≠ .error (.err (.text text)) := by
  rcases result with (_ | _ | _) | _ <;> simp [within]

theorem Controller.recognisesRemoval_iff (hg : c.g = some g) :
    c.RecognisesRemoval S registry commit ↔ g.commitRemovesSelf S commit = .ok true := by
  rw [RecognisesRemoval, handleCommit, hg]
  simp only []
  cases hself : g.commitRemovesSelf S commit with
  | error fault =>
      have hne : fault ≠ .err errSelfRemoved := fun heq =>
        commitRemovesSelf_ne_err _ (hself.trans (by rw [heq]))
      simp [hne]
  | ok removed =>
      cases removed with
      | true => simp
      | false =>
          refine iff_of_false (fun hhandle => ?_) (by simp)
          cases hrun : g.processCommit S [] commit with
          | error fault =>
              rw [hrun] at hhandle
              exact within_ne_text (congrArg Prod.fst hhandle)
          | ok g' =>
              rw [hrun] at hhandle
              have hkept := congrArg (fun out => out.2.g) hhandle
              simp only [rotateSA_g, hg, Option.some.injEq] at hkept
              have hepoch := (EpochStep.processCommit [] commit hrun).epoch_eq
              rw [hkept] at hepoch
              exact absurd hepoch.symm (by simp)

theorem commitRemovesSelf_iff :
    g.commitRemovesSelf S commit = .ok true ↔
      ∃ cm, g.peekCommit S commit = .ok cm ∧
        ∃ removed ∈ removedLeaves cm.proposals, removed.toNat = g.ownLeaf := by
  rw [Group.commitRemovesSelf]
  rcases g.peekCommit S commit with (_ | _ | _) | cm <;> simp

theorem peekCommit_proposals {cm : Commit} (hpeek : g.peekCommit S commit = .ok cm)
    (hcommitted : g.committedProposals S commit = .ok ps) : cm.proposals = ps := by
  simp only [Group.peekCommit, bind_eq_ok, check_eq_ok] at hpeek
  obtain ⟨m, hm, _, hmember, ac, hac, _, -, hcm⟩ := hpeek
  have hexternal : m.isExternalCommit = false := by
    rw [MLSMessage.isExternalCommit]
    rw [MLSMessage.hasMemberSender] at hmember
    split
    · next pm hbody =>
        rw [hbody] at hmember
        cases hsender : pm.content.sender <;> simp_all [Sender.isMember]
    · rfl
  rw [Group.committedProposals, hm, ok_bind, hexternal] at hcommitted
  simp only [Bool.false_eq_true, if_false, Group.openMemberCommit, hac, within_ok,
    ok_bind, hcm, bind_eq_ok, pure_ok_iff] at hcommitted
  obtain ⟨_, ⟨_, -, rfl⟩, hps⟩ := hcommitted
  exact hps

def Group.RemovesOwn (g : Group) (ps : List ProposalOrRef) : Prop :=
  ∃ removed ∈ removedLeaves ps, RatchetTree.SameLeaf removed.toNat g.ownLeaf

theorem Controller.recognisesRemoval_iff_index (hg : c.g = some g) (hown : g.ownLeaf < 2 ^ 31)
    (hcommitted : g.committedProposals S commit = .ok ps) :
    c.RecognisesRemoval S registry commit ↔
      (∃ cm, g.peekCommit S commit = .ok cm) ∧
        ∃ removed ∈ removedLeaves ps,
          RatchetTree.SameLeaf removed.toNat g.ownLeaf ∧ removed.toNat < 2 ^ 31 := by
  have hindex : ∀ removed : UInt32, removed.toNat = g.ownLeaf ↔
      RatchetTree.SameLeaf removed.toNat g.ownLeaf ∧ removed.toNat < 2 ^ 31 := by
    intro removed
    rw [RatchetTree.sameLeaf_iff]
    omega
  rw [recognisesRemoval_iff hg, commitRemovesSelf_iff]
  simp only [hindex]
  constructor
  · rintro ⟨cm, hpeek, hremoved⟩
    rw [peekCommit_proposals hpeek hcommitted] at hremoved
    exact ⟨⟨cm, hpeek⟩, hremoved⟩
  · rintro ⟨⟨cm, hpeek⟩, hremoved⟩
    rw [← peekCommit_proposals hpeek hcommitted] at hremoved
    exact ⟨cm, hpeek, hremoved⟩

/-- Which indices a tree refuses, which indices denote one leaf, and which
removals of the own leaf the controller recognises. -/
theorem leaf_index_rejection (S : Suite) (registry : UInt16 → Option Suite) :
    (∀ (t : RatchetTree) (h : ℕ), t.Full h → ∀ leaf : UInt32,
      t.RejectsOutside leaf.toNat ↔ (leaf.toNat < 2 ^ 31 ∨ t.leafCount ≤ leaf.toNat - 2 ^ 31)) ∧
    (∀ i j : UInt32, (RatchetTree.SameLeaf i.toNat j.toNat → i = j) ↔
      i.toNat + 2 ^ 31 ≠ j.toNat ∧ j.toNat + 2 ^ 31 ≠ i.toNat) ∧
    ∀ (c : Controller) (g : Group) (commit : Bytes) (ps : List ProposalOrRef),
      c.g = some g → g.ownLeaf < 2 ^ 31 → g.committedProposals S commit = .ok ps →
      g.RemovesOwn ps →
      (c.RecognisesRemoval S registry commit ↔
        (∃ cm, g.peekCommit S commit = .ok cm) ∧
          ∃ removed ∈ removedLeaves ps,
            RatchetTree.SameLeaf removed.toNat g.ownLeaf ∧ removed.toNat < 2 ^ 31) :=
  ⟨fun _ _ hf leaf => hf.rejectsOutside_iff leaf, RatchetTree.sameLeaf_unique_iff,
    fun _ _ _ _ hg hown hcommitted _ => Controller.recognisesRemoval_iff_index hg hown hcommitted⟩

/-! ### A removal under two indices -/

/-- `A` adds `B` and then removes it by value under the given index: `B`, and
the second commit. -/
def removeJoiner (removed : UInt32) : Result (Group × Bytes) := do
  let signer (key : UInt8) : Option Signer := some ⟨[key]⟩
  let a ← newGroup plainSuite [9] (.basic [1]) (signer 1) ⟨0, 1⟩ ⟨[1, 1], [1, 2]⟩
  let (kpB, initB, leafB) ← newKeyPackage plainSuite (.basic [2]) (signer 2)
    ⟨0, 1⟩ ⟨[2, 1], [2, 2]⟩
  let r ← a.commit plainSuite ⟨[.add kpB], []⟩ ⟨[11], fun _ _ => [], ⟨0, 0, 0, 0⟩, fun _ => []⟩
  let kpBytes ← encodeKeyPackageMessage kpB
  let b ← joinFromWelcome plainSuite (r.welcome.getD []) ⟨kpBytes, initB, leafB, signer 2, [], []⟩
  let r' ← r.group.commit plainSuite ⟨[.remove removed], []⟩
    ⟨[12], fun _ _ => [], ⟨0, 0, 0, 0⟩, fun _ => []⟩
  return (b, r'.commit)

def controllerOf (g : Group) : Controller :=
  ⟨⟨7, plainSuite, fun _ _ _ => .ok true, none, none, true⟩, some g, vniGroupID 7,
    none, none, false⟩

/-- Index 1 is recognised; index 2 is outside a tree of two leaves. -/
theorem leaf_index_rejection_pair :
    RatchetTree.twoMembers.RejectsOutside (2 : UInt32).toNat ∧
    ∃ b commit, removeJoiner 1 = .ok (b, commit) ∧
      (controllerOf b).RecognisesRemoval plainSuite (fun _ => none) commit := by
  obtain ⟨hrejects, -, hrecognises⟩ := leaf_index_rejection plainSuite fun _ => none
  refine ⟨(hrejects RatchetTree.twoMembers 1 ⟨rfl, by norm_num⟩ 2).mpr (.inl (by decide)), ?_⟩
  obtain ⟨⟨b, commit⟩, hrun, hown, hpeek, hcommitted⟩ : ∃ run, removeJoiner 1 = .ok run ∧
      run.1.ownLeaf = 1 ∧ (∃ cm, run.1.peekCommit plainSuite run.2 = .ok cm) ∧
      run.1.committedProposals plainSuite run.2 = .ok [.proposal (.remove 1)] := by
    decide +kernel
  have hsame : RatchetTree.SameLeaf (1 : UInt32).toNat b.ownLeaf := by
    rw [hown]
    rfl
  refine ⟨b, commit, hrun, (hrecognises (controllerOf b) b commit _ rfl
    (hown.trans_lt (by decide)) hcommitted ⟨1, by simp [removedLeaves], hsame⟩).mpr
    ⟨hpeek, 1, by simp [removedLeaves], hsame, by decide⟩⟩

/-- Index `2 ^ 31` is taken for leaf 0 of two, and `B` does not recognise its
removal under index `2 ^ 31 + 1`. -/
theorem high_index_accepted :
    RatchetTree.twoMembers.leafCount = 2 ∧
    RatchetTree.twoMembers.leafNodeAt (2 ^ 31) = .ok (RatchetTree.sampleLeaf 1) ∧
    RatchetTree.twoMembers.removeLeaf (2 ^ 31 + 1) =
      .ok (.newRatchetTree (RatchetTree.sampleLeaf 1)) ∧
    ∃ b commit, removeJoiner 2147483649 = .ok (b, commit) ∧ b.ownLeaf = 1 ∧
      b.committedProposals plainSuite commit = .ok [.proposal (.remove 2147483649)] ∧
      RatchetTree.SameLeaf (2147483649 : UInt32).toNat b.ownLeaf ∧
      ¬ (controllerOf b).RecognisesRemoval plainSuite (fun _ => none) commit := by
  refine ⟨by decide, by decide +kernel, by decide +kernel, ?_⟩
  obtain ⟨⟨b, commit⟩, hrun, hown, hcommitted⟩ : ∃ run, removeJoiner 2147483649 = .ok run ∧
      run.1.ownLeaf = 1 ∧ run.1.committedProposals plainSuite run.2 =
        .ok [.proposal (.remove 2147483649)] := by decide +kernel
  refine ⟨b, commit, hrun, hown, hcommitted, by rw [hown]; rfl, ?_⟩
  rw [Controller.recognisesRemoval_iff_index rfl (hown.trans_lt (by decide)) hcommitted]
  rintro ⟨-, removed, hmem, -, hlt⟩
  obtain rfl : removed = 2147483649 := by simpa [removedLeaves] using hmem
  exact absurd hlt (by decide)

end MlsGo
