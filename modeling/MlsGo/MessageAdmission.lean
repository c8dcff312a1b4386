import MlsGo.CommitSending
import MlsGo.GroupJoining
import MlsGo.SuiteLaws

/-!
# What authentication establishes about a message

Proposals and member commits are authenticated by the same two functions.  They
verify a signature under the key of the leaf that the sender field denotes, and
the membership tag of a member's public message.  They compare neither the
content type nor the group identifier, the epoch or the type of the sender, and
`authenticateProposalMessage` does not do so either: whatever is signed by a leaf
and parses as a proposal is admitted.
-/

namespace MlsGo

variable {S : Suite} {g : Group} {ac : AuthenticatedContent} {m : MLSMessage} {pm : PublicMessage}

/-! ## Authentic messages -/

structure OpensTo (S : Suite) (g : Group) (pm : PrivateMessage)
    (sd : SenderData) (content : Bytes) (auth : FramedContentAuthData) where
  key : Bytes
  nonce : Bytes
  aad : Bytes
  guarded : Bytes
  plaintext : Bytes
  senderData_eq : openSenderData S g.epoch.senderDataSecret pm = .ok sd
  keyNonce_eq : g.secretTree.keyNonce S sd.leafIndex.toNat
    (ratchetTypeFor pm.contentType) sd.generation.toNat = .ok (key, nonce)
  aad_eq : privateContentAAD pm.groupID pm.epoch pm.contentType pm.authenticatedData = .ok aad
  guarded_eq : applyReuseGuard nonce sd.reuseGuard = .ok guarded
  open_eq : S.aeadOpen key guarded aad pm.ciphertext = .ok plaintext
  content_eq : decodePrivateMessageContent plaintext pm.contentType = .ok (content, auth)

def TagVerified (S : Suite) (g : Group) (pm : PublicMessage) : Prop :=
  ∃ tbm, authenticatedContentTBM .publicMessage pm.content pm.auth
      g.groupContext = .ok tbm ∧
    S.mac g.epoch.membershipKey tbm = pm.membershipTag

/-- Message `m` carries the content `ac`, signed under the key of the leaf that
its sender field denotes. -/
inductive Authentic (S : Suite) (g : Group) :
    MLSMessage → AuthenticatedContent → Prop
  | ofPublic (version : UInt16) (pm : PublicMessage) (ln : LeafNode)
      (hleaf : g.tree.leafNodeAt pm.content.sender.leafIndex = .ok ln)
      (htag : pm.content.sender.isMember = true → TagVerified S g pm)
      (hsig : AuthenticatedContent.verify S ⟨.publicMessage, pm.content, pm.auth⟩
        ln.signatureKey g.groupContext = true) :
      Authentic S g ⟨version, .publicMessage pm⟩ ⟨.publicMessage, pm.content, pm.auth⟩
  | ofPrivate (version : UInt16) (pm : PrivateMessage) (sd : SenderData)
      (content : Bytes) (auth : FramedContentAuthData) (ln : LeafNode)
      (hopens : Nonempty (OpensTo S g pm sd content auth))
      (hleaf : g.tree.leafNodeAt sd.leafIndex.toNat = .ok ln)
      (hsig : AuthenticatedContent.verify S
        ⟨.privateMessage, ⟨pm.groupID, pm.epoch, .member sd.leafIndex,
          pm.authenticatedData, pm.contentType, content⟩, auth⟩
        ln.signatureKey g.groupContext = true) :
      Authentic S g ⟨version, .privateMessage pm⟩
        ⟨.privateMessage, ⟨pm.groupID, pm.epoch, .member sd.leafIndex,
          pm.authenticatedData, pm.contentType, content⟩, auth⟩

theorem checkMembershipTag_eq_ok {u : Unit} :
    checkMembershipTag S g.groupContext g.epoch.membershipKey pm = .ok u ↔
      (pm.content.sender.isMember = true → TagVerified S g pm) := by
  unfold checkMembershipTag
  by_cases hmember : pm.content.sender.isMember = true
  · simp only [hmember, if_true, bind_eq_ok, true_imp_iff, TagVerified]
    refine exists_congr fun tbm => and_congr_right fun _ => ?_
    by_cases htag : S.mac g.epoch.membershipKey tbm = pm.membershipTag
    · simp [htag]
    · simp [htag]
  · simp [hmember]

theorem unprotectPublic_eq_ok {pub : Bytes} :
    unprotectPublic S pub g.groupContext g.epoch.membershipKey pm = .ok ac ↔
      (pm.content.sender.isMember = true → TagVerified S g pm) ∧
        ac.verify S pub g.groupContext = true ∧ ac = ⟨.publicMessage, pm.content, pm.auth⟩ := by
  simp only [unprotectPublic, bind_eq_ok, checkMembershipTag_eq_ok]
  constructor
  · rintro ⟨-, htag, hrest⟩
    split at hrest
    · simp at hrest
    · rename_i hsig
      cases hrest
      exact ⟨htag, by simpa using hsig, rfl⟩
  · rintro ⟨htag, hsig, rfl⟩
    exact ⟨(), htag, by simp [hsig]⟩

theorem unprotectPrivate_eq_ok {pm : PrivateMessage} :
    unprotectPrivate S g.sigPubByLeaf g.groupContext g.secretTree
        g.epoch.senderDataSecret pm = .ok ac ↔
      ∃ sd content auth ln, Nonempty (OpensTo S g pm sd content auth) ∧
        g.tree.leafNodeAt sd.leafIndex.toNat = .ok ln ∧
        ac.verify S ln.signatureKey g.groupContext = true ∧
        ac = ⟨.privateMessage, ⟨pm.groupID, pm.epoch, .member sd.leafIndex,
          pm.authenticatedData, pm.contentType, content⟩, auth⟩ := by
  simp only [unprotectPrivate, Group.sigPubByLeaf, bind_eq_ok, within_eq_ok,
    liftErr_eq_ok, pure_ok_iff]
  constructor
  · rintro ⟨sd, hsd, ⟨key, nonce⟩, hkeys, aad, haad, guarded, hguarded, pt, hopen,
      ⟨content, auth⟩, hcontent, pub, ⟨ln, hleaf, rfl⟩, hrest⟩
    split at hrest
    · simp at hrest
    · rename_i hsig
      cases hrest
      exact ⟨sd, content, auth, ln,
        ⟨⟨key, nonce, aad, guarded, pt, hsd, hkeys, haad, hguarded, hopen,
          hcontent⟩⟩, hleaf, by simpa using hsig, rfl⟩
  · rintro ⟨sd, content, auth, ln, ⟨o⟩, hleaf, hsig, rfl⟩
    exact ⟨sd, o.senderData_eq, (o.key, o.nonce), o.keyNonce_eq, o.aad, o.aad_eq,
      o.guarded, o.guarded_eq, o.plaintext, o.open_eq, (content, auth),
      o.content_eq, _, ⟨ln, hleaf, rfl⟩, by simp [hsig]⟩

theorem authenticateCommit_eq_ok : g.authenticateCommit S m = .ok ac ↔ Authentic S g m ac := by
  obtain ⟨version, body⟩ := m
  constructor
  · intro hok
    cases body with
    | publicMessage pm =>
        simp only [Group.authenticateCommit, bind_eq_ok, within_eq_ok,
          unprotectPublic_eq_ok] at hok
        obtain ⟨ln, hleaf, htag, hsig, rfl⟩ := hok
        exact .ofPublic version pm ln hleaf htag hsig
    | privateMessage pm =>
        simp only [Group.authenticateCommit, unprotectPrivate_eq_ok] at hok
        obtain ⟨sd, content, auth, ln, hopens, hleaf, hsig, rfl⟩ := hok
        exact .ofPrivate version pm sd content auth ln hopens hleaf hsig
  · intro hauthentic
    cases hauthentic with
    | ofPublic _ pm ln hleaf htag hsig =>
        simp only [Group.authenticateCommit, bind_eq_ok, within_eq_ok,
          unprotectPublic_eq_ok, and_true]
        exact ⟨ln, hleaf, htag, hsig⟩
    | ofPrivate _ pm sd content auth ln hopens hleaf hsig =>
        simp only [Group.authenticateCommit, unprotectPrivate_eq_ok]
        exact ⟨sd, content, auth, ln, hopens, hleaf, hsig, rfl⟩

/-! ## Headers -/

/-- The fields that place a message: its content type, its group and epoch, and
a member as sender, with an index that the doubling to a slot does not wrap. -/
structure HeaderFits (g : Group) (contentType : UInt8) (fc : FramedContent) :
    Prop where
  contentType_eq : fc.contentType = contentType
  groupID_eq : fc.groupID = g.groupContext.groupID
  epoch_eq : fc.epoch = g.groupContext.epoch
  sender_eq : ∃ leaf : UInt32, fc.sender = .member leaf ∧ 2 * leaf.toNat < 2 ^ 32

structure Admission (S : Suite) (g : Group) (contentType : UInt8)
    (m : MLSMessage) (ac : AuthenticatedContent) : Prop where
  contentType_eq : ac.content.contentType = contentType
  groupID_eq : ac.content.groupID = g.groupContext.groupID
  epoch_eq : ac.content.epoch = g.groupContext.epoch
  signed : ∃ (leaf : UInt32) (ln : LeafNode),
    ac.content.sender = .member leaf ∧ 2 * leaf.toNat < 2 ^ 32 ∧
    g.tree.nodes[2 * leaf.toNat]? = some (some (.leaf ln)) ∧
    ac.verify S ln.signatureKey g.groupContext = true
  tagged : ∀ pm, m.body = .publicMessage pm → TagVerified S g pm

theorem nodes_of_leafNodeAt {t : RatchetTree} {leaf : ℕ} {ln : LeafNode}
    (hleaf : t.leafNodeAt leaf = .ok ln) (hsmall : 2 * leaf < 2 ^ 32) :
    t.nodes[2 * leaf]? = some (some (.leaf ln)) := by
  have hslot : u32 (2 * leaf) = 2 * leaf := Nat.mod_eq_of_lt hsmall
  simp only [RatchetTree.leafNodeAt, hslot, RatchetTree.nodeAt] at hleaf
  split at hleaf
  · rename_i l hnode
    cases hleaf
    split at hnode
    · cases hnode
    · exact Option.join_eq_some_iff.mp hnode
  · simp at hleaf

theorem Authentic.signed (hauthentic : Authentic S g m ac) :
    ∃ ln, g.tree.leafNodeAt ac.content.sender.leafIndex = .ok ln ∧
      ac.verify S ln.signatureKey g.groupContext = true := by
  cases hauthentic with
  | ofPublic _ pm ln hleaf _ hsig => exact ⟨ln, hleaf, hsig⟩
  | ofPrivate _ pm sd content auth ln _ hleaf hsig => exact ⟨ln, hleaf, hsig⟩

theorem Authentic.admission_iff {contentType : UInt8} (hauthentic : Authentic S g m ac) :
    Admission S g contentType m ac ↔ HeaderFits g contentType ac.content := by
  constructor
  · rintro ⟨hcontentType, hgroup, hepoch, ⟨leaf, ln, hsender, hsmall, -, -⟩, -⟩
    exact ⟨hcontentType, hgroup, hepoch, leaf, hsender, hsmall⟩
  · rintro ⟨hcontentType, hgroup, hepoch, leaf, hsender, hsmall⟩
    obtain ⟨ln, hleaf, hsig⟩ := hauthentic.signed
    rw [hsender] at hleaf
    refine ⟨hcontentType, hgroup, hepoch, ⟨leaf, ln, hsender, hsmall,
      nodes_of_leafNodeAt hleaf hsmall, hsig⟩, ?_⟩
    intro pm hbody
    cases hauthentic with
    | ofPublic _ pm' _ _ htag _ =>
        cases hbody
        have hmember : pm.content.sender = .member leaf := hsender
        exact htag (by simp [hmember, Sender.isMember])
    | ofPrivate _ _ _ _ _ _ _ _ _ => cases hbody

/-! ## Proposals -/

def Referable (S : Suite) (ac : AuthenticatedContent) : Prop :=
  ∃ acBytes ref p, ac.marshal = .ok acBytes ∧
    S.refHash "MLS 1.0 Proposal Reference" acBytes = .ok ref ∧
    unmarshalProposal ac.content.content = .ok p

theorem authenticateProposalMessage_isOk {propBytes : Bytes} :
    (∃ out, g.authenticateProposalMessage S propBytes = .ok out) ↔
      ∃ m ac, unmarshalMLSMessage propBytes = .ok m ∧ Authentic S g m ac ∧ Referable S ac := by
  simp only [← authenticateCommit_eq_ok, Referable, Group.authenticateProposalMessage, bind_eq_ok]
  constructor
  · rintro ⟨out, ⟨version, body⟩, hm, hrest⟩
    cases body with
    | publicMessage pm =>
        simp only [bind_eq_ok, within_eq_ok] at hrest
        obtain ⟨ln, hleaf, ac, hac, acBytes, hbytes, ref, href, p, hp, -⟩ := hrest
        refine ⟨_, ac, hm, ?_, acBytes, ref, p, hbytes, href, hp⟩
        simp only [Group.authenticateCommit, bind_eq_ok, within_eq_ok]
        exact ⟨ln, hleaf, hac⟩
    | privateMessage pm =>
        simp only [bind_eq_ok] at hrest
        obtain ⟨ac, hac, acBytes, hbytes, ref, href, p, hp, -⟩ := hrest
        exact ⟨_, ac, hm, hac, acBytes, ref, p, hbytes, href, hp⟩
  · rintro ⟨⟨version, body⟩, ac, hm, hac, acBytes, ref, p, hbytes, href, hp⟩
    refine ⟨(ref, ⟨p, ac.content.sender.leafIndex⟩), _, hm, ?_⟩
    cases body with
    | publicMessage pm =>
        simp only [Group.authenticateCommit, bind_eq_ok, within_eq_ok] at hac
        obtain ⟨ln, hleaf, hac⟩ := hac
        simp [hleaf, hac, hbytes, href, hp]
    | privateMessage pm =>
        simp only [Group.authenticateCommit] at hac
        simp [hac, hbytes, href, hp]

theorem Authentic.unique {ac' : AuthenticatedContent}
    (h : Authentic S g m ac) (h' : Authentic S g m ac') : ac = ac' := by
  rw [← authenticateCommit_eq_ok] at h h'
  rw [h] at h'
  exact Except.ok.inj h'

/-- If a message is admitted as a proposal, it is one, from a member of this
group in this epoch. -/
def ProposalAdmission (S : Suite) (g : Group) (propBytes : Bytes) : Prop :=
  (∃ out, g.authenticateProposalMessage S propBytes = .ok out) →
    ∃ m ac, unmarshalMLSMessage propBytes = .ok m ∧ Authentic S g m ac ∧
      Admission S g contentTypeProposal m ac

/-- The admission of proposals is sound for exactly those bytes that do not carry
an authentic, proposal-shaped content under the header of something else. -/
theorem proposalAdmission_iff {propBytes : Bytes} :
    ProposalAdmission S g propBytes ↔
      ∀ m ac, unmarshalMLSMessage propBytes = .ok m → Authentic S g m ac →
        Referable S ac → HeaderFits g contentTypeProposal ac.content := by
  unfold ProposalAdmission
  rw [authenticateProposalMessage_isOk]
  constructor
  · intro hsound m ac hm hauthentic href
    obtain ⟨m', ac', hm', hauthentic', hadmission⟩ := hsound ⟨m, ac, hm, hauthentic, href⟩
    cases hm.symm.trans hm'
    cases hauthentic.unique hauthentic'
    exact hauthentic.admission_iff.mp hadmission
  · rintro hfits ⟨m, ac, hm, hauthentic, href⟩
    exact ⟨m, ac, hm, hauthentic, hauthentic.admission_iff.mpr (hfits m ac hm hauthentic href)⟩

/-! ### Application data taken for a proposal -/

/-- Two members `A` and `B`: the state of `B`, and an application message of `A`
whose plaintext is the encoding of a Remove. -/
def applicationAsProposal : Result (Group × Bytes) := do
  let signer (key : UInt8) : Option Signer := some ⟨[key]⟩
  let a ← newGroup plainSuite [9] (.basic [1]) (signer 1) ⟨0, 1⟩ ⟨[1, 1], [1, 2]⟩
  let (kpB, initB, leafB) ← newKeyPackage plainSuite (.basic [2]) (signer 2)
    ⟨0, 1⟩ ⟨[2, 1], [2, 2]⟩
  let r ← a.commit plainSuite ⟨[.add kpB], []⟩ ⟨[11], fun _ _ => [], ⟨0, 0, 0, 0⟩, fun _ => []⟩
  let kpBytes ← encodeKeyPackageMessage kpB
  let b ← joinFromWelcome plainSuite (r.welcome.getD []) ⟨kpBytes, initB, leafB, signer 2, [], []⟩
  let body ← (Proposal.remove 1).marshal
  let message ← (r.group.protectApplication plainSuite body [] ⟨0, 0, 0, 0⟩).1
  return (b, message)

/-- `B` opens the message as application data, and admits it as a proposal. -/
theorem application_admitted_as_proposal :
    ∃ b message, applicationAsProposal = .ok (b, message) ∧
      (∃ data, b.unprotectApplication plainSuite message = .ok data) ∧
      ¬ ProposalAdmission plainSuite b message := by
  obtain ⟨⟨b, message⟩, hrun, hopens, hadmitted, m, hm, ac, hac, htype⟩ :
      ∃ run, applicationAsProposal = .ok run ∧
        (∃ data, run.1.unprotectApplication plainSuite run.2 = .ok data) ∧
        (∃ p, run.1.authenticateProposalMessage plainSuite run.2 = .ok p) ∧
        ∃ m, unmarshalMLSMessage run.2 = .ok m ∧
          ∃ ac, run.1.authenticateCommit plainSuite m = .ok ac ∧
            ac.content.contentType = contentTypeApplication := by decide +kernel
  refine ⟨b, message, hrun, hopens, ?_⟩
  intro hsound
  obtain ⟨m', ac', hm', hauthentic, hadmission⟩ := hsound hadmitted
  cases hm.symm.trans hm'
  cases (authenticateCommit_eq_ok.mp hac).unique hauthentic
  rw [hadmission.contentType_eq] at htype
  exact absurd htype (by decide)

end MlsGo
