import MlsGo.CommitAcceptance
import MlsGo.CommitAgreement
import MlsGo.MessageAdmission

/-!
# What acceptance establishes about a member commit

Of the header of a commit `ProcessCommit` compares the epoch alone.  The
confirmation tag is cut off the end of the serialized commit by position, so the
tag that is verified is the received field only if that field is there and has
the length of the hash.
-/

namespace MlsGo

variable {S : Suite} {g g' : Group} {proposals : List Bytes} {commit : Bytes}
    {ac : AuthenticatedContent}

/-- The received confirmation tag is the MAC over the transcript hash of the new
epoch, and that hash is the one of the received commit. -/
structure Confirmed (S : Suite) (g g' : Group) (ac : AuthenticatedContent) :
    Prop where
  tag_eq : ac.auth.confirmationTag = confirmationTag S g'.epoch.confirmationKey
    g'.groupContext.confirmedTranscriptHash
  transcript_eq : ∃ content signature, ac.content.marshal = .ok content ∧
    writeOpaqueV ac.auth.signature = .ok signature ∧
    g'.groupContext.confirmedTranscriptHash =
      confirmedTranscriptHash S g.interim
        (writeUint16 ac.wireFormat.code ++ (content ++ signature))

/-- If a commit is accepted on the member path, it is an MLS 1.0 commit from a
member of this group in this epoch, and its confirmation tag is verified as a
whole. -/
def CommitAdmission (S : Suite) (g : Group) (proposals : List Bytes)
    (commit : Bytes) : Prop :=
  ∀ g' m, g.processCommit S proposals commit = .ok g' →
    unmarshalMLSMessage commit = .ok m → m.isExternalCommit = false →
    ∃ ac, Authentic S g m ac ∧ m.version = 1 ∧
      Admission S g contentTypeCommit m ac ∧ Confirmed S g g' ac

structure OpenedCommit.Fits (o : OpenedCommit S g proposals commit) : Prop where
  version_eq : o.message.version = 1
  header : HeaderFits g contentTypeCommit o.ac.content
  tag_length : o.ac.auth.confirmationTag.length = S.hashLen

theorem OpenedCommit.authentic (o : OpenedCommit S g proposals commit) :
    Authentic S g o.message o.ac := by
  have hopened := o.opened
  simp only [Group.openMemberCommit, bind_eq_ok, within_eq_ok, check_eq_ok,
    pure_ok_iff, Prod.mk.injEq] at hopened
  obtain ⟨ac, hac, -, -, cm, -, rfl, -⟩ := hopened
  exact authenticateCommit_eq_ok.mp hac

theorem split_of_marshal {acBytes input tag : Bytes}
    (htype : ac.content.contentType = contentTypeCommit)
    (hlen : ac.auth.confirmationTag.length = S.hashLen) (hbytes : ac.marshal = .ok acBytes)
    (hsplit : splitAuthenticatedContent S acBytes = .ok (input, tag)) :
    tag = ac.auth.confirmationTag ∧
      ∃ content signature, ac.content.marshal = .ok content ∧
        writeOpaqueV ac.auth.signature = .ok signature ∧
        input = writeUint16 ac.wireFormat.code ++ (content ++ signature) := by
  obtain ⟨wireFormat, fc, signature, confTag⟩ := ac
  change fc.contentType = contentTypeCommit at htype
  have hfields := hbytes
  simp only [AuthenticatedContent.marshal, FramedContentAuthData.marshal, htype,
    if_true, bind_eq_ok] at hfields
  obtain ⟨content, hcontent, -, ⟨sigBytes, hsig, tagBytes, htag, -⟩, -⟩ := hfields
  obtain ⟨acBytes', hbytes', hsplit'⟩ :=
    splitAuthenticatedContent_marshal htype hlen hcontent hsig htag
  cases hbytes.symm.trans hbytes'
  cases hsplit.symm.trans hsplit'
  exact ⟨rfl, content, sigBytes, hcontent, hsig, rfl⟩

variable {o : OpenedCommit S g proposals commit}

theorem MemberRun.confirmed_of_fits (run : MemberRun S g o.cache o.ac o.cm) (hfits : o.Fits) :
    Confirmed S g run.result o.ac := by
  obtain ⟨htag, content, signature, hcontent, hsig, hinput⟩ :=
    split_of_marshal hfits.header.contentType_eq hfits.tag_length run.acBytes_eq run.split_eq
  refine ⟨?_, content, signature, hcontent, hsig, ?_⟩
  · rw [← htag, ← run.confTag_eq]
    rfl
  · rw [← hinput]
    rfl

theorem OpenedCommit.ac_unique (hac : Authentic S g o.message ac) : ac = o.ac :=
  hac.unique o.authentic

/-- The admission of member commits is sound for exactly those bytes that do not
carry an authentic commit which passes the checks of `ProcessCommit` while its
version, its header or the length of its confirmation tag is another. -/
theorem commitAdmission_iff (hmac : ∀ key data, (S.mac key data).length = S.hashLen) :
    CommitAdmission S g proposals commit ↔
      ∀ o : OpenedCommit S g proposals commit,
        Nonempty (MemberRun S g o.cache o.ac o.cm) → o.Fits := by
  constructor
  · rintro hsound o ⟨run⟩
    obtain ⟨ac, hauthentic, hversion, hadmission, hconfirmed⟩ :=
      hsound run.result o.message (processCommit_eq_ok.mpr (.inl ⟨o, run, rfl⟩))
        o.message_eq o.member
    cases OpenedCommit.ac_unique hauthentic
    refine ⟨hversion, hauthentic.admission_iff.mp hadmission, ?_⟩
    rw [hconfirmed.tag_eq, confirmationTag, hmac]
  · intro hfits g' m hok hm hmember
    rcases processCommit_eq_ok.mp hok with ⟨o, run, rfl⟩ | hexternal
    · cases hm.symm.trans o.message_eq
      have ho := hfits o ⟨run⟩
      exact ⟨o.ac, o.authentic, ho.version_eq,
        o.authentic.admission_iff.mpr ho.header, run.confirmed_of_fits ho⟩
    · obtain ⟨-, m', -, -, hm', hext, -⟩ := hexternal
      cases hm.symm.trans hm'
      rw [hmember] at hext
      cases hext

/-! ## A commit for another group -/

/-- An empty commit that a member frames under the identifier of another group
and authenticates with the keys of this one. -/
def Group.sendUnder (S : Suite) (g : Group) (groupID : Bytes) : Result Bytes := do
  let cm : Commit := ⟨[], none⟩
  let body ← cm.marshal
  let fc : FramedContent := ⟨groupID, g.groupContext.epoch,
    .member (UInt32.ofNat g.ownLeaf), [], contentTypeCommit, body⟩
  let (confirmedInput, sig) ← signCommit S g.signer g.groupContext fc .publicMessage
  let confirmed := confirmedTranscriptHash S g.interim confirmedInput
  let treeHash ← g.tree.rootTreeHash S
  let gcBytes ← (g.groupContext.next treeHash confirmed g.groupContext.extensions).marshal
  let psk ← pskSecret S []
  let es ← deriveEpochSecrets S g.initSecret none (some psk) gcBytes
  let pm ← assembleCommitPublic S g.groupContext g.epoch.membershipKey fc sig
    (confirmationTag S es.confirmationKey confirmed)
  MLSMessage.marshal ⟨1, .publicMessage pm⟩

/-- Two members `A` and `B` of group `[9]`: the state of `B`, and a commit of `A`
under the identifier `[8]`. -/
def commitForOtherGroup : Result (Group × Bytes) := do
  let signer (key : UInt8) : Option Signer := some ⟨[key]⟩
  let a ← newGroup plainSuite [9] (.basic [1]) (signer 1) ⟨0, 1⟩ ⟨[1, 1], [1, 2]⟩
  let (kpB, initB, leafB) ← newKeyPackage plainSuite (.basic [2]) (signer 2)
    ⟨0, 1⟩ ⟨[2, 1], [2, 2]⟩
  let r ← a.commit plainSuite ⟨[.add kpB], []⟩ ⟨[11], fun _ _ => [], ⟨0, 0, 0, 0⟩, fun _ => []⟩
  let kpBytes ← encodeKeyPackageMessage kpB
  let b ← joinFromWelcome plainSuite (r.welcome.getD []) ⟨kpBytes, initB, leafB, signer 2, [], []⟩
  let commit ← r.group.sendUnder plainSuite [8]
  return (b, commit)

/-- `B` accepts the commit. -/
theorem commit_for_other_group_accepted :
    ∃ b commit, commitForOtherGroup = .ok (b, commit) ∧
      (∃ b', b.processCommit plainSuite [] commit = .ok b') ∧
      ¬ CommitAdmission plainSuite b [] commit := by
  obtain ⟨⟨b, commit⟩, hrun, ⟨b', hb'⟩, m, hm, hmember, ac, hac, hgroup⟩ :
      ∃ run, commitForOtherGroup = .ok run ∧
        (∃ b', run.1.processCommit plainSuite [] run.2 = .ok b') ∧
        ∃ m, unmarshalMLSMessage run.2 = .ok m ∧ m.isExternalCommit = false ∧
          ∃ ac, run.1.authenticateCommit plainSuite m = .ok ac ∧
            ac.content.groupID ≠ run.1.groupContext.groupID := by decide +kernel
  refine ⟨b, commit, hrun, ⟨b', hb'⟩, ?_⟩
  intro hsound
  obtain ⟨ac', hauthentic, -, hadmission, -⟩ := hsound b' m hb' hm hmember
  cases hauthentic.unique (authenticateCommit_eq_ok.mp hac)
  exact hgroup hadmission.groupID_eq

theorem commitAdmission_iff_plainSuite :
    ∃ b commit, commitForOtherGroup = .ok (b, commit) ∧
      (CommitAdmission plainSuite b [] commit ↔
        ∀ o : OpenedCommit plainSuite b [] commit,
          Nonempty (MemberRun plainSuite b o.cache o.ac o.cm) → o.Fits) := by
  obtain ⟨⟨b, commit⟩, hrun⟩ : ∃ run, commitForOtherGroup = .ok run := by decide +kernel
  exact ⟨b, commit, hrun, commitAdmission_iff plainSuite_kdfLaws.mac_length⟩

end MlsGo
