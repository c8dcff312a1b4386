import MlsGo.JoinRuns
import MlsGo.SignedInputs
import MlsGo.TreeValidity

/-!
# Whom a joiner believes

A Welcome and an external commit both start from group information that anyone
may have written.  `JoinFromWelcome` validates the tree, binds it to the group
context and checks that a member signed the whole; `ExternalCommit` makes the
first two checks and not the third.
-/

namespace MlsGo

open RatchetTree

variable {S : Suite} {gi : GroupInfo} {rt : RatchetTree}

structure GroupInfo.TreeBound (S : Suite) (gi : GroupInfo) (rt : RatchetTree) :
    Prop where
  parentHashes : rt.verifyParentHashes S = .ok true
  leaves : LeavesValid S gi.groupContext.groupID rt
  treeHash : rt.rootTreeHash S = .ok gi.groupContext.treeHash

def GroupInfo.SignedIn (S : Suite) (gi : GroupInfo) (rt : RatchetTree) : Prop :=
  ∃ leaf, rt.leafNodeAt gi.signer.toNat = .ok leaf ∧
    gi.verifySignature S leaf.signatureKey = .ok true

def GroupInfo.Embeds (gi : GroupInfo) (rt : RatchetTree) : Prop :=
  ∃ data, gi.ratchetTreeExtension = some data ∧ parseRatchetTree data = .ok rt

theorem GroupInfo.Embeds.unique {rt' : RatchetTree} (hrt : gi.Embeds rt)
    (hrt' : gi.Embeds rt') : rt = rt' := by
  obtain ⟨data, hdata, hparse⟩ := hrt
  obtain ⟨data', hdata', hparse'⟩ := hrt'
  obtain rfl : data = data' := Option.some.inj (hdata.symm.trans hdata')
  exact Except.ok.inj (hparse.symm.trans hparse')

def GroupInfo.Authentic (S : Suite) (gi : GroupInfo) : Prop :=
  ∃ rt, gi.Embeds rt ∧ gi.TreeBound S rt ∧ gi.SignedIn S rt

/-! ## What the two functions check -/

theorem openPublishedTree_eq_ok :
    openPublishedTree S gi = .ok rt ↔ gi.Embeds rt ∧ gi.TreeBound S rt := by
  unfold openPublishedTree
  cases hdata : gi.ratchetTreeExtension with
  | none => simp [GroupInfo.Embeds, hdata]
  | some data =>
      simp only [bind_eq_ok, within_eq_ok, check_eq_ok, pure_ok_iff]
      constructor
      · rintro ⟨wt, hparse, valid, hvalid, _, rfl, _, hleaves, th, hth, _, rfl, rfl⟩
        exact ⟨⟨data, hdata, hparse⟩, hvalid, verifyLeafSignatures_eq_ok.mp hleaves, hth⟩
      · rintro ⟨⟨data', hdata', hparse⟩, hvalid, hleaves, hth⟩
        cases hdata.symm.trans hdata'
        exact ⟨rt, hparse, true, hvalid, (), rfl, (),
          verifyLeafSignatures_eq_ok.mpr hleaves, _, hth, (), rfl, rfl⟩

def GroupInfo.treeData (gi : GroupInfo) : Bytes → Option Bytes
  | [] => gi.ratchetTreeExtension
  | byte :: rest => some (byte :: rest)

theorem openRatchetTree_of_treeData {provided data : Bytes}
    (htree : gi.treeData provided = some data) :
    openRatchetTree S gi provided = .ok rt ↔
      parseRatchetTree data = .ok rt ∧ gi.TreeBound S rt ∧ gi.SignedIn S rt := by
  have hchecks : openRatchetTree S gi provided = .ok rt ↔
      ∃ rt', parseRatchetTree data = .ok rt' ∧ rt'.verifyParentHashes S = .ok true ∧
        rt'.verifyLeafSignatures S gi.groupContext.groupID = .ok () ∧
        rt'.rootTreeHash S = .ok gi.groupContext.treeHash ∧ gi.SignedIn S rt' ∧ rt' = rt := by
    unfold GroupInfo.SignedIn
    cases provided with
    | nil =>
        have hext : gi.ratchetTreeExtension = some data := htree
        simp only [openRatchetTree, hext, pure_eq_ok, ok_bind, bind_eq_ok,
          within_eq_ok, check_eq_ok, Except.ok.injEq]
        grind
    | cons byte rest =>
        obtain rfl : byte :: rest = data := Option.some.inj htree
        simp only [openRatchetTree, pure_eq_ok, ok_bind, bind_eq_ok,
          within_eq_ok, check_eq_ok, Except.ok.injEq]
        grind
  rw [hchecks]
  constructor
  · rintro ⟨rt', hparse, hvalid, hleaves, hth, hsigned, rfl⟩
    exact ⟨hparse, ⟨hvalid, verifyLeafSignatures_eq_ok.mp hleaves, hth⟩, hsigned⟩
  · rintro ⟨hparse, ⟨hvalid, hleaves, hth⟩, hsigned⟩
    exact ⟨rt, hparse, hvalid, verifyLeafSignatures_eq_ok.mpr hleaves, hth, hsigned, rfl⟩

theorem treeData_of_openRatchetTree {provided : Bytes}
    (hopen : openRatchetTree S gi provided = .ok rt) :
    ∃ data, gi.treeData provided = some data := by
  cases provided with
  | nil =>
      cases hget : gi.ratchetTreeExtension with
      | none => simp [openRatchetTree, hget, fail] at hopen
      | some data => exact ⟨data, hget⟩
  | cons byte rest => exact ⟨_, rfl⟩

theorem GroupInfo.authentic_iff : gi.Authentic S ↔ ∃ rt, openRatchetTree S gi [] = .ok rt := by
  constructor
  · rintro ⟨rt, ⟨data, hdata, hparse⟩, hchecks⟩
    have htree : gi.treeData [] = some data := hdata
    exact ⟨rt, (openRatchetTree_of_treeData htree).mpr ⟨hparse, hchecks⟩⟩
  · rintro ⟨rt, hopen⟩
    obtain ⟨data, hdata⟩ := treeData_of_openRatchetTree hopen
    obtain ⟨hparse, hchecks⟩ := (openRatchetTree_of_treeData hdata).mp hopen
    exact ⟨rt, ⟨data, hdata, hparse⟩, hchecks⟩

theorem JoinRun.authenticated {welcome : Bytes} {opt : JoinOptions} (run : JoinRun S welcome opt) :
    run.gi.TreeBound S run.rt ∧ run.gi.SignedIn S run.rt := by
  obtain ⟨data, hdata⟩ := treeData_of_openRatchetTree run.rt_eq
  exact ((openRatchetTree_of_treeData hdata).mp run.rt_eq).2

/-! ## The missing check -/

variable {cred : Credential} {signer : Option Signer} {lifetime : Lifetime}
  {rnd : ExternalRandomness}

theorem EntryRun.treeBound (run : EntryRun S gi cred signer lifetime rnd) :
    gi.Embeds run.published ∧ gi.TreeBound S run.published :=
  openPublishedTree_eq_ok.mp run.published_eq

/-- The signer's leaf in the embedded tree is not blank, and its key signed the
group information. -/
def GroupInfo.SignedByMember (S : Suite) (gi : GroupInfo) : Prop :=
  ∃ rt, gi.Embeds rt ∧ gi.SignedIn S rt

/-- The tree a joiner accepts is valid and bound to the group context, and what it
joined is authentic exactly if a member of that tree signed it. -/
theorem externalCommit_authenticates_iff {g : Group} {commit : Bytes}
    (haccept : externalCommit S gi cred signer lifetime rnd = .ok (g, commit)) :
    (∃ rt, gi.Embeds rt ∧ gi.TreeBound S rt) ∧ (gi.Authentic S ↔ gi.SignedByMember S) := by
  obtain ⟨run, -⟩ := entryRun_of_externalCommit haccept
  obtain ⟨hpublished, hbound⟩ := run.treeBound
  refine ⟨⟨_, hpublished, hbound⟩, ?_, ?_⟩
  · rintro ⟨rt, hembeds, -, hsigned⟩
    exact ⟨rt, hembeds, hsigned⟩
  · rintro ⟨rt, hembeds, hsigned⟩
    obtain rfl := hembeds.unique hpublished
    exact ⟨_, hembeds, hbound, hsigned⟩

/-! ### A substituted key -/

def GroupInfo.withExternalPub (gi : GroupInfo) (extPub : Bytes) : GroupInfo :=
  { gi with extensions := gi.extensions.map fun e =>
      if e.extensionType = extensionTypeExternalPub then
        { e with extensionData := extPub }
      else e }

/-- `A` creates group `[9]` and publishes it; `B` joins from what the delivery
service makes of it. -/
def joinPublished (deliver : GroupInfo → GroupInfo) : Result (GroupInfo × Group × Bytes) := do
  let a ← newGroup bindingSuite [9] (.basic [1]) (some ⟨[1]⟩) ⟨0, 1⟩ ⟨[1, 1], [1, 2]⟩
  let gi ← a.publishGroupInfo bindingSuite
  let gi := deliver gi
  let (b, commit) ← externalCommit bindingSuite gi (.basic [2]) (some ⟨[2]⟩)
    ⟨0, 1⟩ ⟨[5], ⟨[2, 1], [2, 2]⟩, [11], fun _ _ => []⟩
  return (gi, b, commit)

theorem joinPublished_accepts {deliver : GroupInfo → GroupInfo} {gi : GroupInfo} {b : Group}
    {commit : Bytes} (hrun : joinPublished deliver = .ok (gi, b, commit)) :
    externalCommit bindingSuite gi (.basic [2]) (some ⟨[2]⟩) ⟨0, 1⟩
      ⟨[5], ⟨[2, 1], [2, 2]⟩, [11], fun _ _ => []⟩ = .ok (b, commit) := by
  simp only [joinPublished, bind_eq_ok, pure_ok_iff, Prod.mk.injEq] at hrun
  obtain ⟨a, -, published, -, ⟨b', commit'⟩, henter, rfl, rfl, rfl⟩ := hrun
  exact henter

theorem externalCommit_authenticates_as_published :
    ∃ gi b commit, joinPublished id = .ok (gi, b, commit) ∧ gi.Authentic bindingSuite ∧
      gi.SignedByMember bindingSuite := by
  obtain ⟨⟨gi, b, commit⟩, hrun, hopened⟩ : ∃ run, joinPublished id = .ok run ∧
      ∃ rt, openRatchetTree bindingSuite run.1 [] = .ok rt := by decide +kernel
  have hauthentic := GroupInfo.authentic_iff.mpr hopened
  exact ⟨gi, b, commit, hrun, hauthentic,
    (externalCommit_authenticates_iff (joinPublished_accepts hrun)).2.mp hauthentic⟩

/-- `B` has a group, keyed with the delivery service, though no member signed
what it joined. -/
theorem externalCommit_accepts_substituted_key :
    ∃ gi b commit, externalCommit bindingSuite gi (.basic [2]) (some ⟨[2]⟩) ⟨0, 1⟩
        ⟨[5], ⟨[2, 1], [2, 2]⟩, [11], fun _ _ => []⟩ = .ok (b, commit) ∧
      ¬ gi.Authentic bindingSuite := by
  obtain ⟨⟨gi, b, commit⟩, hrun, hrefused⟩ :
      ∃ run, joinPublished (·.withExternalPub [66]) = .ok run ∧
        ∀ rt, openRatchetTree bindingSuite run.1 [] ≠ .ok rt := by decide +kernel
  refine ⟨gi, b, commit, joinPublished_accepts hrun, fun hauthentic => ?_⟩
  obtain ⟨rt, hopen⟩ := GroupInfo.authentic_iff.mp hauthentic
  exact hrefused rt hopen

end MlsGo
