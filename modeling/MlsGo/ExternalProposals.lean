import MlsGo.CommitAcceptance
import MlsGo.GroupJoining
import MlsGo.ProposalEffects
import MlsGo.ScheduleReturns
import MlsGo.TreeHashBinding
import MlsGo.TreeValidity

/-!
# The proposals of an external commit

A member that receives an external commit admits four types of proposals: the
ExternalInit, Removes of the joiner's own prior leaf, PreSharedKeys and
GroupContextExtensions.  Of the last two it takes no further notice, and it does
not ask for the Remove: a joiner may leave its prior leaf where it is.
-/

namespace MlsGo

open RatchetTree

variable {S : Suite} {g g' : Group} {m : MLSMessage} {own : LeafNode} {props : List Proposal}
    {content : ExternalCommitContent}

/-! ## The leaves after an external commit -/

def LeafKeysDistinct (t : RatchetTree) : Prop :=
  ∀ L M l l', L ≠ M → t.slot 0 L = some (.leaf l) → t.slot 0 M = some (.leaf l') → KeysDiffer l l'

def Removes (removed : List UInt32) (M : ℕ) : Prop := ∃ r ∈ removed, r.toNat % 2 ^ 31 = M

instance (removed : List UInt32) (M : ℕ) : Decidable (Removes removed M) :=
  inferInstanceAs (Decidable (∃ r ∈ removed, r.toNat % 2 ^ 31 = M))

theorem removes_cons {r : UInt32} {rest : List UInt32} {M : ℕ} :
    Removes (r :: rest) M ↔ r.toNat % 2 ^ 31 = M ∨ Removes rest M := by
  simp [Removes]

theorem applyExternalRemoves_slots {removed : List UInt32} :
    ∀ {t t' : RatchetTree} {h : ℕ}, t.Full h → applyExternalRemoves t removed = .ok t' →
      ∃ h', t'.Full h' ∧ ∀ M, t'.slot 0 M = if Removes removed M then none else t.slot 0 M := by
  induction removed with
  | nil =>
      intro t t' h hf hrun
      cases hrun
      exact ⟨h, hf, fun M => (if_neg (by simp [Removes])).symm⟩
  | cons r rest ih =>
      intro t t' h hf hrun
      obtain ⟨t₁, hremove, hrest⟩ := bind_eq_ok.mp hrun
      obtain ⟨h₁, -, -, hf₁, hslots, -⟩ := hf.removeLeaf_ok (within_eq_ok.mp hremove)
      obtain ⟨h', hf', hlater⟩ := ih hf₁ hrest
      refine ⟨h', hf', fun M => ?_⟩
      rw [hlater, hslots, pow_zero, Nat.div_one]
      by_cases hfirst : r.toNat % 2 ^ 31 = M
      · simp only [hfirst, removes_cons, if_true, true_or, ite_self]
      · simp only [removes_cons, hfirst, if_false, false_or]

theorem ExternalRun.slot_result (run : ExternalRun S g m) :
    (Removes (removedLeaves run.content.proposals) run.liC ∨ g.tree.slot 0 run.liC = none) ∧
    ∀ M, run.result.tree.slot 0 M = if M = run.liC then some (.leaf run.content.path.leafNode)
      else if Removes (removedLeaves run.content.proposals) M then none
      else g.tree.slot 0 M := by
  have hplaced := run.placed_eq
  simp only [Group.placeExternalJoiner, bind_eq_ok, within_eq_ok, check_eq_ok,
    pure_ok_iff, Prod.mk.injEq] at hplaced
  obtain ⟨copy, hclone, vacated, hremoves, ⟨L, wt⟩, hadd, _, -, _, -, hL, hwt⟩ := hplaced
  simp only at hL hwt
  subst hL hwt
  obtain ⟨h, hf⟩ := clone_full hclone
  obtain ⟨h₁, hf₁, hvacated⟩ := applyExternalRemoves_slots hf hremoves
  obtain ⟨⟨hblank, -⟩, hlt, hf₂, hadded⟩ := hf₁.addLeaf_ok hadd
  have hout := run.out_eq
  simp only [receivePath, bind_eq_ok, within_eq_ok, pure_ok_iff] at hout
  obtain ⟨_, -, _, -, _, -, _, -, _, -, merged, hmerge, hout⟩ := hout
  have hle : run.liC % 2 ^ 31 = run.liC := by
    refine Nat.mod_eq_of_lt (hlt.trans_le ?_)
    exact Nat.pow_le_pow_right (by norm_num) (by have := hf₂.le_thirty; omega)
  obtain ⟨entries, hi⟩ := hf₂.merge_installed hle hlt hmerge
  constructor
  · rw [hvacated] at hblank
    by_cases hremoved : Removes (removedLeaves run.content.proposals) run.liC
    · exact .inl hremoved
    · rw [if_neg hremoved, slot_clone hclone] at hblank
      exact .inr hblank
  · intro M
    show run.out.tree.slot 0 M = _
    rw [← hout, hi.slot_eq, pow_zero, Nat.div_one]
    by_cases hM : M = run.liC
    · subst hM
      simp
    · rw [if_neg (Ne.symm hM), if_neg hM, hadded, pow_zero, Nat.div_one,
        if_neg (Ne.symm hM), hvacated, slot_clone hclone]

def ExternalCommitContent.JoinerIsNew (content : ExternalCommitContent)
    (t : RatchetTree) : Prop :=
  ∀ M l, t.slot 0 M = some (.leaf l) →
    ¬ Removes (removedLeaves content.proposals) M → KeysDiffer content.path.leafNode l

theorem ExternalRun.leafKeysDistinct_iff (run : ExternalRun S g m)
    (hdistinct : LeafKeysDistinct g.tree) :
    LeafKeysDistinct run.result.tree ↔ run.content.JoinerIsNew g.tree := by
  obtain ⟨hplace, hslots⟩ := run.slot_result
  constructor
  · intro hnew M l hM hstays
    have hne : M ≠ run.liC := by
      rintro rfl
      rcases hplace with hremoved | hblank
      · exact hstays hremoved
      · rw [hblank] at hM
        cases hM
    refine hnew run.liC M _ l hne.symm ?_ ?_
    · rw [hslots, if_pos rfl]
    · rw [hslots, if_neg hne, if_neg hstays, hM]
  · intro hjoiner L M l l' hne hL hM
    rw [hslots] at hL hM
    -- a leaf that is not the joiner's was there before
    have hold : ∀ {N : ℕ} {leaf : LeafNode}, N ≠ run.liC →
        (if Removes (removedLeaves run.content.proposals) N then none
          else g.tree.slot 0 N) = some (.leaf leaf) →
        g.tree.slot 0 N = some (.leaf leaf) ∧
          ¬ Removes (removedLeaves run.content.proposals) N := by
      intro N leaf _ hN
      split at hN
      · cases hN
      · next hstays => exact ⟨hN, hstays⟩
    by_cases hLj : L = run.liC
    · have hMj : M ≠ run.liC := fun h => hne (hLj.trans h.symm)
      rw [if_pos hLj] at hL
      rw [if_neg hMj] at hM
      obtain ⟨hM, hstays⟩ := hold hMj hM
      cases hL
      exact hjoiner M l' hM hstays
    · rw [if_neg hLj] at hL
      obtain ⟨hL, hstays⟩ := hold hLj hL
      by_cases hMj : M = run.liC
      · rw [if_pos hMj] at hM
        cases hM
        exact (hjoiner L l hL hstays).symm
      · rw [if_neg hMj] at hM
        exact hdistinct L M l l' hne hL (hold hMj hM).1

/-! ## The other proposals -/

def lastExtensions : List Proposal → Option (List Extension)
  | [] => none
  | .groupContextExtensions extensions :: rest => some ((lastExtensions rest).getD extensions)
  | _ :: rest => lastExtensions rest

def pskIDs : List Proposal → List PreSharedKeyID
  | [] => []
  | .preSharedKey id :: rest => id :: pskIDs rest
  | _ :: rest => pskIDs rest

theorem applyExtensions_resolvedFrom (L : ℕ) (props : List Proposal) :
    ∀ current, applyExtensions current (resolvedFrom L props) =
      (lastExtensions props).getD current := by
  induction props with
  | nil => exact fun _ => rfl
  | cons p rest ih =>
      intro current
      cases p with
      | groupContextExtensions extensions => exact ih extensions
      | add _ | update _ | remove _ | preSharedKey _ | reInit _ _ _ _
        | externalInit _ => exact ih current

theorem collectPSKs_resolvedFrom {L : ℕ} (hnone : pskIDs props = [])
    (externalPSKs : GoMap Bytes Bytes) (resumptionPSKs : GoMap UInt64 Bytes) (groupID : Bytes) :
    collectPSKs externalPSKs resumptionPSKs groupID (resolvedFrom L props) = .ok [] := by
  induction props with
  | nil => rfl
  | cons p rest ih =>
      cases p with
      | preSharedKey id => cases hnone
      | add _ | update _ | remove _ | groupContextExtensions _ | reInit _ _ _ _
        | externalInit _ => exact ih hnone

theorem validateExternalLoop_byValue {ps : List ProposalOrRef} :
    ∀ {extInit : Option Bytes} {count : ℕ} {out : Option Bytes × ℕ},
      validateExternalLoop ps extInit count = .ok out →
        ∃ props : List Proposal, ps = props.map .proposal := by
  induction ps with
  | nil => exact fun _ => ⟨[], rfl⟩
  | cons por rest ih =>
      intro extInit count out hrun
      cases por with
      | reference ref => exact absurd hrun fail_ne_ok
      | proposal p =>
          have hrest : ∃ props : List Proposal, rest = props.map .proposal := by
            cases p with
            | externalInit _ | remove _ | preSharedKey _
              | groupContextExtensions _ => exact ih hrun
            | add _ | update _ | reInit _ _ _ _ => exact absurd hrun fail_ne_ok
          obtain ⟨props, rfl⟩ := hrest
          exact ⟨p :: props, rfl⟩

theorem ExternalRun.byValue (run : ExternalRun S g m) :
    ∃ props : List Proposal, run.content.proposals = props.map .proposal := by
  have hcontent := run.content_eq
  rw [Group.authenticateExternalCommit] at hcontent
  split at hcontent
  · exact absurd hcontent fail_ne_ok
  · simp only [bind_eq_ok, within_eq_ok, check_eq_ok, pure_ok_iff] at hcontent
    obtain ⟨_, -, _, -, cm, -, ⟨kemOutput, path⟩, hvalid, _, -, _, -, _, -, _, -,
      hcontent⟩ := hcontent
    rw [validateExternalCommit] at hvalid
    split at hvalid
    · exact absurd hvalid fail_ne_ok
    · obtain ⟨out, hloop, -⟩ := bind_eq_ok.mp hvalid
      rw [← hcontent]
      exact validateExternalLoop_byValue hloop

/-- The new epoch follows from the proposals as it does after a member commit:
the last extensions are in the context, and the secrets are derived with the
listed PSKs. -/
structure ExternalRun.Reflects (run : ExternalRun S g m) (props : List Proposal) :
    Prop where
  extensions_eq : run.result.groupContext.extensions =
    applyExtensions g.groupContext.extensions (resolvedFrom run.liC props)
  secrets_eq : ∃ psks psk,
    collectPSKs g.externalPSKs g.resumptionPSKs g.groupContext.groupID
      (resolvedFrom run.liC props) = .ok psks ∧
    pskSecret S psks = .ok psk ∧
    deriveEpochSecrets S run.initSecret run.out.commitSecret (some psk)
      run.gcBytes = .ok run.result.epoch

/-- The listed PSKs are known, and the key schedule does not tell their secret
from the all-zero one. -/
def ExternalRun.PSKsIndifferent (run : ExternalRun S g m)
    (props : List Proposal) : Prop :=
  ∃ psks psk,
    collectPSKs g.externalPSKs g.resumptionPSKs g.groupContext.groupID
      (resolvedFrom run.liC props) = .ok psks ∧
    pskSecret S psks = .ok psk ∧
    deriveEpochSecrets S run.initSecret run.out.commitSecret (some psk)
        run.gcBytes =
      deriveEpochSecrets S run.initSecret run.out.commitSecret none run.gcBytes

theorem ExternalRun.pskIndifferent_of_none (run : ExternalRun S g m) (hnone : pskIDs props = []) :
    run.PSKsIndifferent props :=
  ⟨[], List.replicate S.hashLen 0, collectPSKs_resolvedFrom hnone _ _ _, rfl, rfl⟩

theorem ExternalRun.reflects_iff (run : ExternalRun S g m) (props : List Proposal) :
    run.Reflects props ↔
      (∀ extensions, lastExtensions props = some extensions →
        extensions = g.groupContext.extensions) ∧
      (pskIDs props = [] ∨ run.PSKsIndifferent props) := by
  have hresult : run.result.groupContext.extensions = g.groupContext.extensions := rfl
  have hsecrets : run.result.epoch = run.es := rfl
  constructor
  · rintro ⟨hext, psks, psk, hpsks, hpsk, hderive⟩
    refine ⟨fun extensions hlast => ?_, .inr ⟨psks, psk, hpsks, hpsk, ?_⟩⟩
    · rw [hresult, applyExtensions_resolvedFrom, hlast] at hext
      exact hext.symm
    · rw [hderive, hsecrets, run.es_eq]
  · rintro ⟨hext, hpsks⟩
    have hindifferent : run.PSKsIndifferent props := hpsks.elim run.pskIndifferent_of_none id
    obtain ⟨psks, psk, hpsks, hpsk, hsame⟩ := hindifferent
    refine ⟨?_, psks, psk, hpsks, hpsk, by rw [hsame, run.es_eq, hsecrets]⟩
    rw [hresult, applyExtensions_resolvedFrom]
    cases hlast : lastExtensions props with
    | none => rfl
    | some extensions => exact (hext extensions hlast).symm

/-! ## What a member accepts -/

/-- After an external commit the leaves have distinct keys, if and only if the
commit removes every leaf that shares a key with the joiner. -/
theorem external_commit_keys_distinct_iff (hdistinct : LeafKeysDistinct g.tree)
    (haccept : g.processExternalCommit S m = .ok g') :
    ∃ content, g.authenticateExternalCommit S m = .ok content ∧
      (LeafKeysDistinct g'.tree ↔ content.JoinerIsNew g.tree) := by
  obtain ⟨run, rfl⟩ := processExternalCommit_eq_ok.mp haccept
  exact ⟨run.content, run.content_eq, run.leafKeysDistinct_iff hdistinct⟩

/-- The new epoch reflects the proposals of an external commit, if and only if
they change neither the extensions nor the PSK secret. -/
theorem external_proposals_reflected_iff (haccept : g.processExternalCommit S m = .ok g') :
    ∃ (run : ExternalRun S g m) (props : List Proposal), run.result = g' ∧
      resolveProposals [] run.liC run.content.proposals = .ok (resolvedFrom run.liC props) ∧
      (run.Reflects props ↔
        (∀ extensions, lastExtensions props = some extensions →
          extensions = g.groupContext.extensions) ∧
        (pskIDs props = [] ∨ run.PSKsIndifferent props)) := by
  obtain ⟨run, hresult⟩ := processExternalCommit_eq_ok.mp haccept
  obtain ⟨props, hprops⟩ := run.byValue
  refine ⟨run, props, hresult, ?_, run.reflects_iff props⟩
  rw [hprops, resolveProposals_byValue]

/-! ### Commits of a joiner that does not use `ExternalCommit` -/

/-- What a joiner can send: any Removes and other proposals beside the
ExternalInit, a path, and the tag of the epoch that the members compute. -/
def sendExternal (S : Suite) (gi : GroupInfo) (cred : Credential) (signer : Signer)
    (rnd : ExternalRandomness) (removed : List UInt32) (others : List Proposal) :
    Result Bytes := do
  let gc := gi.groupContext
  let (kemOutput, initSecret) ← liftErr
    (S.externalInitEncap (gi.externalPubExtension.getD []) rnd.kemSeed)
  let wt ← openPublishedTree S gi
  let wt ← applyExternalRemoves wt removed
  let (kp, _, _) ← newKeyPackage S cred (some signer) ⟨0, 1⟩ rnd.keyPackageSeeds
  let (liC, wt) ← wt.addLeaf kp.leafNode
  let path ← wt.generateUpdatePath S liC rnd.leafSecret (some signer) gc.groupID []
    (fun treeHash => (gc.next treeHash gc.confirmedTranscriptHash
      gc.extensions).marshal) rnd.pathSeeds
  let cm : Commit := ⟨.proposal (.externalInit kemOutput) ::
    (removed.map (fun r => .proposal (.remove r)) ++ others.map .proposal),
    some path.updatePath⟩
  let body ← cm.marshal
  let fc : FramedContent := ⟨gc.groupID, gc.epoch, .newMemberCommit, [], contentTypeCommit, body⟩
  let (confirmedInput, sig) ← signCommit S (some signer) gc fc .publicMessage
  let interim ← interimTranscriptHash S gc.confirmedTranscriptHash gi.confirmationTag
  let confirmed := confirmedTranscriptHash S interim confirmedInput
  let treeHash ← path.tree.rootTreeHash S
  let gcBytes ← (gc.next treeHash confirmed gc.extensions).marshal
  let es ← deriveEpochSecrets S initSecret (some path.commitSecret) none gcBytes
  MLSMessage.marshal ⟨1, .publicMessage ⟨fc,
    ⟨sig, confirmationTag S es.confirmationKey confirmed⟩, []⟩⟩

/-- `A` in the second epoch of its group, and a commit of a joiner with the
given signature key. -/
def joinSecondEpoch (key : UInt8) (removed : List UInt32)
    (others : List Proposal) : Result (Group × MLSMessage) := do
  let a ← newGroup plainSuite [9] (.basic [1]) (some ⟨[1]⟩) ⟨0, 1⟩ ⟨[1, 1], [1, 2]⟩
  let r ← a.commit plainSuite ⟨[], []⟩ ⟨[11], fun _ _ => [], ⟨0, 0, 0, 0⟩, fun _ => []⟩
  let gi ← r.group.publishGroupInfo plainSuite
  let commit ← sendExternal plainSuite gi (.basic [2]) ⟨[key]⟩
    ⟨[5], ⟨[2, 1], [2, 2]⟩, [12], fun _ _ => []⟩ removed others
  let m ← unmarshalMLSMessage commit
  return (r.group, m)

/-- A commit to which `A` is the only member: `A` before and after it, the
content and the leaf of `A`. -/
def acceptJoiner (key : UInt8) (others : List Proposal) :
    Result (Group × MLSMessage × Group × ExternalCommitContent × LeafNode) := do
  let (a, m) ← joinSecondEpoch key [] others
  let content ← a.authenticateExternalCommit plainSuite m
  let a' ← a.processExternalCommit plainSuite m
  let own ← a.tree.leafNodeAt 0
  return (a, m, a', content, own)

theorem acceptJoiner_ok {key : UInt8} {others : List Proposal} {a a' : Group}
    (hrun : acceptJoiner key others = .ok (a, m, a', content, own)) :
    a.authenticateExternalCommit plainSuite m = .ok content ∧
      a.processExternalCommit plainSuite m = .ok a' := by
  simp only [acceptJoiner, bind_eq_ok, pure_ok_iff, Prod.mk.injEq] at hrun
  obtain ⟨⟨a, m⟩, -, content, hcontent, a', haccept, own, -, rfl, rfl, rfl, rfl, -⟩ := hrun
  exact ⟨hcontent, haccept⟩

theorem slot_newRatchetTree {l : LeafNode} {M : ℕ}
    (hM : (newRatchetTree own).slot 0 M = some (.leaf l)) : M = 0 ∧ l = own := by
  have hf : (newRatchetTree own).Full 0 := ⟨rfl, by norm_num⟩
  obtain rfl : M = 0 := by
    have := hf.member_lt (by simp [hM] : (newRatchetTree own).slot 0 M ≠ none)
    omega
  cases hM
  exact ⟨rfl, rfl⟩

theorem leafKeysDistinct_newRatchetTree (own : LeafNode) :
    LeafKeysDistinct (newRatchetTree own) := by
  intro L M l l' hne hL hM
  exact absurd ((slot_newRatchetTree hL).1.trans (slot_newRatchetTree hM).1.symm) hne

theorem joinerIsNew_newRatchetTree (hkept : removedLeaves content.proposals = []) :
    content.JoinerIsNew (newRatchetTree own) ↔ KeysDiffer content.path.leafNode own := by
  constructor
  · intro hnew
    exact hnew 0 own rfl (by simp [hkept, Removes])
  · intro hdiffer M l hM _
    rwa [(slot_newRatchetTree hM).2]

/-- A joiner with keys of its own. -/
theorem external_commit_keys_distinct_new_key :
    ∃ a m a' content own, acceptJoiner 2 [] = .ok (a, m, a', content, own) ∧
      LeafKeysDistinct a.tree ∧ LeafKeysDistinct a'.tree := by
  obtain ⟨⟨a, m, a', content, own⟩, hrun, htree, hkept, hdiffer⟩ :
      ∃ run, acceptJoiner 2 [] = .ok run ∧ run.1.tree = newRatchetTree run.2.2.2.2 ∧
        removedLeaves run.2.2.2.1.proposals = [] ∧
        run.2.2.2.1.path.leafNode.signatureKey ≠ run.2.2.2.2.signatureKey ∧
        run.2.2.2.1.path.leafNode.encryptionKey ≠ run.2.2.2.2.encryptionKey := by
    decide +kernel
  obtain ⟨hcontent, haccept⟩ := acceptJoiner_ok hrun
  have hdistinct : LeafKeysDistinct a.tree := by
    rw [htree]
    exact leafKeysDistinct_newRatchetTree own
  obtain ⟨content', hcontent', hiff⟩ := external_commit_keys_distinct_iff hdistinct haccept
  obtain rfl := Except.ok.inj (hcontent.symm.trans hcontent')
  refine ⟨a, m, a', content, own, hrun, hdistinct, hiff.mpr ?_⟩
  rw [htree]
  exact (joinerIsNew_newRatchetTree hkept).mpr hdiffer

/-- A joiner with the signature key of `A` leaves `A`'s leaf in place, and `A`
accepts it. -/
theorem duplicate_signature_key_accepted :
    ∃ a m a' content own, acceptJoiner 1 [] = .ok (a, m, a', content, own) ∧
      LeafKeysDistinct a.tree ∧ a.processExternalCommit plainSuite m = .ok a' ∧
      ¬ LeafKeysDistinct a'.tree := by
  obtain ⟨⟨a, m, a', content, own⟩, hrun, htree, hkept, hsame⟩ :
      ∃ run, acceptJoiner 1 [] = .ok run ∧ run.1.tree = newRatchetTree run.2.2.2.2 ∧
        removedLeaves run.2.2.2.1.proposals = [] ∧
        run.2.2.2.1.path.leafNode.signatureKey = run.2.2.2.2.signatureKey := by decide +kernel
  obtain ⟨hcontent, haccept⟩ := acceptJoiner_ok hrun
  have hdistinct : LeafKeysDistinct a.tree := by
    rw [htree]
    exact leafKeysDistinct_newRatchetTree own
  refine ⟨a, m, a', content, own, hrun, hdistinct, haccept, ?_⟩
  obtain ⟨r, rfl⟩ := processExternalCommit_eq_ok.mp haccept
  rw [r.leafKeysDistinct_iff hdistinct, Except.ok.inj (r.content_eq.symm.trans hcontent),
    htree, joinerIsNew_newRatchetTree hkept]
  exact fun hdiffer => hdiffer.1 hsame

/-- Extensions that the group has already are reflected. -/
theorem external_proposals_reflected_repeated :
    ∃ a m a' content own,
      acceptJoiner 2 [.groupContextExtensions []] = .ok (a, m, a', content, own) ∧
      a.groupContext.extensions = [] ∧
      ∃ run : ExternalRun plainSuite a m, run.result = a' ∧
        run.Reflects [.externalInit content.kemOutput, .groupContextExtensions []] := by
  obtain ⟨⟨a, m, a', content, own⟩, hrun, hproposals, hextensions⟩ :
      ∃ run, acceptJoiner 2 [.groupContextExtensions []] = .ok run ∧
        run.2.2.2.1.proposals = [.proposal (.externalInit run.2.2.2.1.kemOutput),
          .proposal (.groupContextExtensions [])] ∧
        run.1.groupContext.extensions = [] := by decide +kernel
  obtain ⟨hcontent, haccept⟩ := acceptJoiner_ok hrun
  obtain ⟨r, props, hresult, hresolved, hiff⟩ := external_proposals_reflected_iff haccept
  rw [Except.ok.inj (r.content_eq.symm.trans hcontent), hproposals] at hresolved
  obtain rfl : props = [.externalInit content.kemOutput, .groupContextExtensions []] := by
    have hmap := congrArg (List.map Resolved.proposal) (Except.ok.inj hresolved)
    simpa [resolvedFrom, Function.comp_def] using hmap.symm
  refine ⟨a, m, a', content, own, hrun, hextensions, r, hresult, hiff.mpr ⟨?_, .inl rfl⟩⟩
  rintro extensions ⟨⟩
  exact hextensions.symm

def ignoredProposals : List Proposal :=
  [.groupContextExtensions [⟨7, [7]⟩], .preSharedKey ⟨.external [9], []⟩]

/-- `A` accepts a commit with them, keeps its extensions and cannot resolve the
PSK. -/
theorem external_proposals_ignored :
    ∃ a m a' content own,
      acceptJoiner 2 ignoredProposals = .ok (a, m, a', content, own) ∧
      a.processExternalCommit plainSuite m = .ok a' ∧
      (∃ kemOutput, content.proposals =
        .proposal (.externalInit kemOutput) :: ignoredProposals.map .proposal) ∧
      a'.groupContext.extensions = [] ∧
      ∀ psks, collectPSKs a.externalPSKs a.resumptionPSKs a.groupContext.groupID
        (resolvedFrom 1 ignoredProposals) ≠ .ok psks := by
  obtain ⟨⟨a, m, a', content, own⟩, hrun, hproposals, hextensions, hpsks⟩ :
      ∃ run, acceptJoiner 2 ignoredProposals = .ok run ∧
        run.2.2.2.1.proposals = .proposal (.externalInit run.2.2.2.1.kemOutput) ::
          ignoredProposals.map .proposal ∧
        run.2.2.1.groupContext.extensions = [] ∧
        ∀ psks, collectPSKs run.1.externalPSKs run.1.resumptionPSKs
          run.1.groupContext.groupID (resolvedFrom 1 ignoredProposals) ≠ .ok psks := by
    decide +kernel
  exact ⟨a, m, a', content, own, hrun, (acceptJoiner_ok hrun).2, ⟨_, hproposals⟩, hextensions,
    hpsks⟩

end MlsGo
