import MlsGo.EpochHistories
import MlsGo.CommitAdmission
import MlsGo.WelcomeEntry

/-!
# Everybody who goes with a commit arrives at one state

A commit carries a confirmation tag: a MAC of the transcript under a key of the new
epoch.  The committer computes it, an external joiner too, and a reader compares it
with its own.  Members of one epoch read the same tag in the same bytes, and the tag
commits to the new state.  So whoever moves on with these bytes arrives at the same state,
whatever private keys or pre-shared keys it used and whoever made the commit.
-/

namespace MlsGo

open DecoderLaws RatchetTree

variable {S : Suite} {p q g g' : Group} {ac : AuthenticatedContent} {m : MLSMessage}
    {commit : Bytes} {auth : FramedContentAuthData} {pm : PrivateMessage} {opt : CommitOptions}
    {res : CommitResult} {rnd : CommitRandomness}

/-! ## Reading a commit -/

/-- What a member reads in a message, before it checks any signature. -/
inductive ReadsAs (S : Suite) (g : Group) : MLSMessage → AuthenticatedContent → Prop
  | ofPublic (version : UInt16) (pm : PublicMessage) :
      ReadsAs S g ⟨version, .publicMessage pm⟩ ⟨.publicMessage, pm.content, pm.auth⟩
  | ofPrivate (version : UInt16) (pm : PrivateMessage) (sd : SenderData)
      (content : Bytes) (auth : FramedContentAuthData)
      (hopens : Nonempty (OpensTo S g pm sd content auth)) :
      ReadsAs S g ⟨version, .privateMessage pm⟩
        ⟨.privateMessage, ⟨pm.groupID, pm.epoch, .member sd.leafIndex,
          pm.authenticatedData, pm.contentType, content⟩, auth⟩

theorem Authentic.readsAs (hauthentic : Authentic S g m ac) : ReadsAs S g m ac := by
  cases hauthentic with
  | ofPublic version pm => exact .ofPublic version pm
  | ofPrivate version pm sd content auth ln hopens =>
      exact .ofPrivate version pm sd content auth hopens

theorem OpensTo.unique {sd sd' : SenderData}
    {content content' : Bytes} {auth' : FramedContentAuthData}
    (o : OpensTo S g pm sd content auth) (o' : OpensTo S g pm sd' content' auth') :
    sd = sd' ∧ content = content' ∧ auth = auth' := by
  obtain ⟨key, nonce, aad, guarded, plaintext, hsd, hkey, haad, hguarded, hopen, hcontent⟩ := o
  obtain ⟨key', nonce', aad', guarded', plaintext', hsd', hkey', haad', hguarded', hopen',
    hcontent'⟩ := o'
  cases hsd.symm.trans hsd'
  cases hkey.symm.trans hkey'
  cases haad.symm.trans haad'
  cases hguarded.symm.trans hguarded'
  cases hopen.symm.trans hopen'
  cases hcontent.symm.trans hcontent'
  exact ⟨rfl, rfl, rfl⟩

theorem ReadsAs.unique {ac' : AuthenticatedContent}
    (hreads : ReadsAs S g m ac) (hreads' : ReadsAs S g m ac') : ac = ac' := by
  cases hreads with
  | ofPublic =>
      cases hreads'
      rfl
  | ofPrivate _ _ _ _ _ hopens =>
      cases hreads' with
      | ofPrivate _ _ _ _ _ hopens' =>
          obtain ⟨o⟩ := hopens
          obtain ⟨o'⟩ := hopens'
          obtain ⟨rfl, rfl, rfl⟩ := o.unique o'
          rfl

theorem ReadsAs.of_sameEpoch
    (hreads : ReadsAs S p m ac) (hsame : SameEpoch p q) : ReadsAs S q m ac := by
  cases hreads with
  | ofPublic version pm => exact .ofPublic version pm
  | ofPrivate version pm sd content auth hopens =>
      obtain ⟨o⟩ := hopens
      refine .ofPrivate version pm sd content auth ⟨⟨o.key, o.nonce, o.aad, o.guarded,
        o.plaintext, ?_, ?_, o.aad_eq, o.guarded_eq, o.open_eq, o.content_eq⟩⟩
      · rw [← hsame.epoch_eq, o.senderData_eq]
      · rw [← hsame.secretTree_eq, o.keyNonce_eq]

theorem readsAs_of_seal (haead : S.AeadInverts) {fc : FramedContent}
    {generation leafIndex : UInt32} {guard : ReuseGuard} {padding : ℕ} (version : UInt16)
    (hsender : fc.sender = .member leafIndex) (hinline : fc.Inline)
    (htag : fc.contentType ≠ contentTypeCommit → auth.confirmationTag = [])
    (hseal : sealPrivate S g.secretTree g.epoch.senderDataSecret fc auth generation guard padding =
    .ok pm) :
    ReadsAs S g ⟨version, .privateMessage pm⟩ ⟨.privateMessage, fc, auth⟩ := by
  simp only [sealPrivate, bind_eq_ok, pure_ok_iff, liftErr_eq_ok,
    hsender, Sender.leafIndex] at hseal
  obtain ⟨⟨key, nonce⟩, hkey, contentAAD, hcontentAAD, pt, hpt, guarded, hguarded, ciphertext,
    hciphertext, ⟨sdKey, sdNonce⟩, hsdKey, sdAAD, hsdAAD, encSD, hencSD, rfl⟩ := hseal
  have hindex : UInt32.ofNat leafIndex.toNat = leafIndex := by simp
  have hopenSD := haead hencSD
  rw [hindex] at hopenSD
  have hsd := decodes_senderData ⟨leafIndex, generation, guard⟩ []
  rw [List.append_nil] at hsd
  have hfc : FramedContent.mk fc.groupID fc.epoch (.member leafIndex)
      fc.authenticatedData fc.contentType fc.content = fc := by
    rw [← hsender]
  have hreads := ReadsAs.ofPrivate (S := S) (g := g) version
    ⟨fc.groupID, fc.epoch, fc.contentType, fc.authenticatedData, encSD, ciphertext⟩
    ⟨leafIndex, generation, guard⟩ fc.content auth ⟨⟨key, nonce, contentAAD, guarded, pt,
      by simp only [openSenderData, hsdKey, hsdAAD, hopenSD, ok_bind, liftErr_ok, within_ok,
          hsd]; rfl,
      hkey, hcontentAAD, hguarded, haead hciphertext,
      decodePrivateMessageContent_eq hinline htag hpt⟩⟩
  simp only [hfc] at hreads
  exact hreads

/-- The confirmation tag that a member reads in the bytes of a commit. -/
structure ReadsTag (S : Suite) (g : Group) (commit tag : Bytes) : Prop where
  read : ∃ m ac acBytes input, unmarshalMLSMessage commit = .ok m ∧ ReadsAs S g m ac ∧
    ac.marshal = .ok acBytes ∧ splitAuthenticatedContent S acBytes = .ok (input, tag)

theorem ReadsTag.unique {tag tag' : Bytes} (ht : ReadsTag S g commit tag)
    (ht' : ReadsTag S g commit tag') : tag = tag' := by
  obtain ⟨m, ac, acBytes, input, hm, hac, hbytes, hsplit⟩ := ht
  obtain ⟨m', ac', acBytes', input', hm', hac', hbytes', hsplit'⟩ := ht'
  cases hm.symm.trans hm'
  cases hac.unique hac'
  cases hbytes.symm.trans hbytes'
  cases hsplit.symm.trans hsplit'
  rfl

theorem ReadsTag.of_sameEpoch {tag : Bytes} (ht : ReadsTag S p commit tag)
    (hsame : SameEpoch p q) : ReadsTag S q commit tag := by
  obtain ⟨m, ac, acBytes, input, hm, hac, hbytes, hsplit⟩ := ht
  exact ⟨m, ac, acBytes, input, hm, hac.of_sameEpoch hsame, hbytes, hsplit⟩

/-! ## Arriving -/

/-- A member of the epoch of `p` reads in the commit the tag of `g`. -/
def Arrives (S : Suite) (p : Group) (commit : Bytes) (g : Group) : Prop :=
  ReadsTag S p commit
    (confirmationTag S g.epoch.confirmationKey g.groupContext.confirmedTranscriptHash)

theorem arrives_of_processCommit {proposals : List Bytes}
    (hrun : p.processCommit S proposals commit = .ok g) : Arrives S p commit g := by
  rcases processCommit_eq_ok.mp hrun with ⟨o, run, rfl⟩ | ⟨cached, m, run, -, hm, -, rfl⟩
  · refine ⟨o.message, o.ac, run.acBytes, run.confirmedInput, o.message_eq,
      o.authentic.readsAs, run.acBytes_eq, ?_⟩
    rw [run.split_eq, ← run.confTag_eq]
    rfl
  · have hauth := run.content_eq
    obtain ⟨version, body⟩ := m
    cases body with
    | privateMessage pm => exact absurd hauth fail_ne_ok
    | publicMessage pm =>
        have hac : run.content.ac = ⟨.publicMessage, pm.content, pm.auth⟩ := by
          simp only [Group.authenticateExternalCommit, bind_eq_ok, within_eq_ok,
            check_eq_ok, pure_ok_iff, unprotectPublic] at hauth
          obtain ⟨-, -, -, -, cm, -, ⟨kem, path⟩, -, ac, ⟨-, -, hverified⟩, -, -, -, -, -, -,
            hcontent⟩ := hauth
          split at hverified
          · cases hverified
          · cases hverified
            rw [← hcontent]
        refine ⟨_, _, run.acBytes, run.confirmedInput, hm, .ofPublic version pm, ?_, ?_⟩
        · rw [← hac, run.acBytes_eq]
        · rw [run.split_eq, ← run.confTag_eq]
          rfl

theorem readsAs_own (haead : S.AeadInverts) {d : CommitDraft} (a : DraftRun S p opt rnd d)
    (b : FinishRun S p d rnd res) :
    unmarshalMLSMessage res.commit = .ok b.message ∧
      ReadsAs S p b.message (d.authenticated p.wireFormat) := by
  have hcontent := a.content_eq
  have htype : d.content.contentType ≠ contentTypeCommit → d.confTag = [] :=
    fun hne => absurd (by rw [hcontent]) hne
  have hmessage := b.message_eq
  have hbytes := b.commit_eq
  rw [Group.assembleCommit] at hmessage
  cases hwf : p.wireFormat with
  | publicMessage =>
      simp only [hwf, bind_eq_ok, within_eq_ok, pure_ok_iff, assembleCommitPublic] at hmessage
      obtain ⟨pm, ⟨tbm, -, rfl⟩, hm⟩ := hmessage
      rw [← hm] at hbytes ⊢
      obtain ⟨body, hbody, -⟩ := bind_eq_ok.mp hbytes
      have hdec := decodes_publicMessage a.content_inline htype
        (fun hnot => by simp [hcontent, Sender.isMember] at hnot) hbody
      exact ⟨unmarshalMLSMessage_public hbody hdec hbytes, .ofPublic _ _⟩
  | privateMessage =>
      simp only [hwf, bind_eq_ok, within_eq_ok, pure_ok_iff] at hmessage
      obtain ⟨pm, hpm, hm⟩ := hmessage
      rw [← hm] at hbytes ⊢
      have hsender : d.content.sender = .member (UInt32.ofNat p.ownLeaf) := by
        rw [hcontent]
      rw [assembleCommitPrivate, if_neg (by simp [hsender, Sender.isMember])] at hpm
      exact ⟨unmarshalMLSMessage_private hbytes,
        readsAs_of_seal haead _ hsender a.content_inline htype hpm⟩

section Senders

variable (hmac : ∀ key data, (S.mac key data).length = S.hashLen)

include hmac

theorem arrives_of_commit (haead : S.AeadInverts)
    (hcommit : p.commit S opt rnd = .ok res) : Arrives S p res.commit res.group := by
  obtain ⟨d, ⟨a⟩, ⟨b⟩⟩ := runs_of_commit hcommit
  obtain ⟨hm, hreads⟩ := readsAs_own haead a b
  obtain ⟨tagBytes, htag, -⟩ := bind_eq_ok.mp b.interim_eq
  obtain ⟨acBytes, hbytes, hsplit⟩ := split_of_signCommit (by rw [a.content_eq])
    (by rw [a.confTag_eq]; exact hmac _ _) a.signature_eq htag
  have hconfirmed : d.newGC.confirmedTranscriptHash = d.confirmed := by
    rw [a.newGC_eq]
    rfl
  refine ⟨b.message, _, acBytes, a.confirmedInput, hm, hreads, hbytes, ?_⟩
  rw [hsplit, b.group_eq, a.confTag_eq, ← hconfirmed]
  rfl

theorem arrives_of_externalCommit {gi : GroupInfo} {cred : Credential}
    {signer : Option Signer} {lifetime : Lifetime} {rnd : ExternalRandomness}
    (henter : externalCommit S gi cred signer lifetime rnd = .ok (g, commit)) :
    Arrives S p commit g := by
  obtain ⟨run, rfl, rfl⟩ := entryRun_of_externalCommit henter
  obtain ⟨tagBytes, htag, -⟩ := bind_eq_ok.mp run.interim_eq
  obtain ⟨acBytes, hbytes, hsplit⟩ := split_of_signCommit rfl (hmac _ _) run.signature_eq htag
  exact ⟨run.message, run.authenticated.ac, acBytes, run.confirmedInput,
    run.unmarshal_commit, .ofPublic _ _, hbytes, hsplit⟩

end Senders

/-! ## Agreement -/

/-- The ways to move on from `p` with the bytes of a commit: to have made it, to read
it, or to enter the group with it, from the group information that `p` publishes. -/
inductive MovesOn (S : Suite) (p : Group) (commit : Bytes) : Group → Prop where
  | committer {res : CommitResult} (opt : CommitOptions) (rnd : CommitRandomness)
      (hrun : p.commit S opt rnd = .ok res) (hbytes : res.commit = commit) :
      MovesOn S p commit res.group
  | reader {g : Group} (proposals : List Bytes)
      (hrun : p.processCommit S proposals commit = .ok g) : MovesOn S p commit g
  | entrant {g : Group} (gi : GroupInfo) (cred : Credential) (signer : Option Signer)
      (lifetime : Lifetime) (rnd : ExternalRandomness)
      (hpublish : p.publishGroupInfo S = .ok gi)
      (hrun : externalCommit S gi cred signer lifetime rnd = .ok (g, commit)) :
      MovesOn S p commit g

variable {past past' : List Group} {commit : Bytes} {Q : Queries}

theorem MovesOn.exists_membership (hmoves : MovesOn S p commit g)
    (hmember : Membership S p past) : ∃ past, Membership S g past := by
  cases hmoves with
  | committer opt rnd hrun _ => exact ⟨_, hmember.nextEpoch (.commit opt rnd hrun)⟩
  | reader proposals hrun => exact ⟨_, hmember.nextEpoch (.processCommit proposals commit hrun)⟩
  | entrant gi cred signer lifetime rnd hpublish hrun =>
      have henter := hrun
      obtain ⟨run, -, -⟩ := entryRun_of_externalCommit henter
      have hpublished := run.published_eq
      rw [(run.published_eq_tree (publishes_of_publishGroupInfo hpublish)
        hmember.invariant.1).1] at hpublished
      exact ⟨[], .externalCommit gi cred signer lifetime rnd hmember hpublished hrun⟩

theorem MovesOn.arrives (hmac : ∀ key data, (S.mac key data).length = S.hashLen)
    (haead : S.AeadInverts) (hmoves : MovesOn S p commit g) : Arrives S p commit g := by
  cases hmoves with
  | committer opt rnd hrun hbytes => exact hbytes ▸ arrives_of_commit hmac haead hrun
  | reader proposals hrun => exact arrives_of_processCommit hrun
  | entrant gi cred signer lifetime rnd _ hrun => exact arrives_of_externalCommit hmac hrun

/-- Members of one epoch read one tag in a commit, and it is the tag of wherever each of
them arrives. -/
theorem MovesOn.tag_eq (hmac : ∀ key data, (S.mac key data).length = S.hashLen)
    (haead : S.AeadInverts) (hsame : SameEpoch p q) (hmoves : MovesOn S p commit g)
    (hmoves' : MovesOn S q commit g') :
    confirmationTag S g.epoch.confirmationKey g.groupContext.confirmedTranscriptHash =
      confirmationTag S g'.epoch.confirmationKey g'.groupContext.confirmedTranscriptHash :=
  (ReadsTag.of_sameEpoch (hmoves.arrives hmac haead) hsame).unique (hmoves'.arrives hmac haead)

/-- Two members of one epoch that move on with the same bytes arrive in the same epoch,
with the same tree, secrets and transcript, however each of them moves on. -/
theorem commit_consensus (hmac : ∀ key data, (S.mac key data).length = S.hashLen)
    (haead : S.AeadInverts) (hfree : Q.CollisionFree S) (hmember : Membership S p past)
    (hmember' : Membership S q past') (hsame : SameEpoch p q) (hmoves : MovesOn S p commit g)
    (hmoves' : MovesOn S q commit g') (hrec : Recorded S Q g) (hrec' : Recorded S Q g')
    (hstarted : g.groupContext.epoch ≠ 0) : SameEpoch g g' := by
  obtain ⟨_, hnext⟩ := hmoves.exists_membership hmember
  obtain ⟨_, hnext'⟩ := hmoves'.exists_membership hmember'
  exact hrec.sameEpoch_of_tag hfree hrec' hnext.epochSound hnext'.epochSound hstarted
    (hmoves.tag_eq hmac haead hsame hmoves')

/-- `B` reads the commit of `A`. -/
theorem commit_consensus_two_members :
    ∃ a a₁ a₀ b b₁, twoHistories = .ok ([a, a₁, a₀], [b, b₁]) ∧ SameEpoch a b := by
  obtain ⟨a₀, b₁, b, r, r', rnd, hrun, hmemberA, hmemberB, hcommit, hfollow, hagree⟩ :=
    exists_twoHistories
  simp only [historiesAgree, Bool.and_eq_true, decide_eq_true_eq, List.all_eq_true] at hagree
  obtain ⟨htags, hpairs⟩ := hagree
  have hfree := Queries.allBut_collisionFree htags
  have haead : transparentSuite.AeadInverts :=
    @SuiteLaws.aeadOpen_aeadSeal plainSuite plainSuite_laws
  obtain ⟨hcall₁, -, -, hstarted₁, hauth₁⟩ := hpairs (r.group, b₁) (by simp)
  obtain ⟨hcall, -, -, hstarted, -⟩ := hpairs (r'.group, b) (by simp)
  have hnextA := hmemberA.nextEpoch (.commit _ _ hcommit)
  have hnextB := hmemberB.nextEpoch (.processCommit _ _ hfollow)
  have hrecorded : ∀ {g : Group} {past : List Group}, Membership transparentSuite g past →
      g.tagCall ∈ [r'.group, r.group, a₀].map Group.tagCall →
      Recorded transparentSuite
        (.allBut {call | call ∈ [r'.group, r.group, a₀].map Group.tagCall}) g :=
    fun hmember hcall => hmember.reached.recorded_allBut hcall
  have hsame : SameEpoch r.group b₁ :=
    (hrecorded hmemberA (by simp)).sameEpoch_of_authenticator hfree
      (hrecorded hmemberB (by simp [← hcall₁])) hmemberA.epochSound hmemberB.epochSound
      hstarted₁ hauth₁
  exact ⟨r'.group, r.group, a₀, b, b₁, hrun,
    commit_consensus (fun _ _ => rfl) haead hfree hmemberA
      hmemberB hsame (.committer _ _ hcommit rfl) (.reader _ hfollow)
      (hrecorded hnextA (by simp)) (hrecorded hnextB (by simp [← hcall])) hstarted⟩

end MlsGo
