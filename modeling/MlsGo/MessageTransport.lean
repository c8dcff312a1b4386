import MlsGo.CommitAgreement
import MlsGo.WireRoundTrips

/-!
# Messages between members

The plaintext of a private message is content, authentication data and padding,
one after the other without lengths; the key that opens it is named by sender
data whose own key is sampled from the ciphertext.  Decoding stops where the
content ends because the content is an encoded object, and the receiver has the
sender's content, signature and tag.  A commit reaches the receiver's transcript
through the same steps, so both sides hash the same input.
-/

namespace MlsGo

open DecoderLaws

variable {S : Suite} {signer : Option Signer} {gc : GroupContext}
  {fc : FramedContent} {sig tag pub : Bytes} {generation : UInt32} {guard : ReuseGuard}
    {padding : ℕ} {senderDataSecret : Bytes} {st : SecretTree} {pm : PrivateMessage}
    {m : PublicMessage}

/-! ## Private messages -/

theorem authData_marshal_tagFor :
    FramedContentAuthData.marshal ⟨sig, tagFor fc tag⟩ fc.contentType =
      FramedContentAuthData.marshal ⟨sig, tag⟩ fc.contentType := by
  unfold FramedContentAuthData.marshal tagFor
  by_cases hcommit : fc.contentType = contentTypeCommit
  · simp only [hcommit, if_true]
  · simp only [hcommit, if_false]

theorem sealPrivate_tagFor :
    sealPrivate S st senderDataSecret fc ⟨sig, tagFor fc tag⟩ generation guard padding =
      sealPrivate S st senderDataSecret fc ⟨sig, tag⟩ generation guard padding := by
  simp only [sealPrivate, privateMessageContent, authData_marshal_tagFor]

theorem unprotectPrivate_sealed (haead : S.AeadInverts) (hverify : S.SignaturesVerify)
    {leafIndex : UInt32} {signaturePub : ℕ → Result Bytes}
    (hsender : fc.sender = .member leafIndex) (hobject : fc.CarriesObject)
    (hpub : S.publicKeyOf signer = .ok pub) (hlookup : signaturePub leafIndex.toNat = .ok pub)
    (hsign : signContent S .privateMessage fc signer gc = .ok sig)
    (hseal : sealPrivate S st senderDataSecret fc ⟨sig, tag⟩ generation guard padding = .ok pm) :
    unprotectPrivate S signaturePub gc st senderDataSecret pm =
      .ok ⟨.privateMessage, fc, ⟨sig, tagFor fc tag⟩⟩ := by
  rw [← sealPrivate_tagFor] at hseal
  exact unprotectPrivate_of_seal haead hverify hsender hobject.inline
    (fun hother => if_neg hother) hsign hpub hlookup hseal

/-- What `ProtectPrivate`, or `SignCommit` and `AssembleCommitPrivate`, built
comes back with the same content, signature and, for a commit, tag. -/
theorem private_message_round_trip (haead : S.AeadInverts) (hverify : S.SignaturesVerify)
    {leafIndex : UInt32} {signaturePub : ℕ → Result Bytes}
    (hsender : fc.sender = .member leafIndex) (hobject : fc.CarriesObject)
    (hpub : S.publicKeyOf signer = .ok pub) (hlookup : signaturePub leafIndex.toNat = .ok pub)
    (st : SecretTree) (senderDataSecret : Bytes) (generation : UInt32) (guard : ReuseGuard)
    (padding : ℕ) (tag : Bytes) :
    (∀ pm, protectPrivate S signer gc st senderDataSecret fc generation guard
        padding tag = .ok pm →
      ∃ sig, signContent S .privateMessage fc signer gc = .ok sig ∧
        unprotectPrivate S signaturePub gc st senderDataSecret pm =
          .ok ⟨.privateMessage, fc, ⟨sig, tagFor fc tag⟩⟩) ∧
    ∀ input sig pm, signCommit S signer gc fc .privateMessage = .ok (input, sig) →
      assembleCommitPrivate S st senderDataSecret fc generation guard padding sig tag = .ok pm →
      unprotectPrivate S signaturePub gc st senderDataSecret pm =
        .ok ⟨.privateMessage, fc, ⟨sig, tagFor fc tag⟩⟩ := by
  have hmember : ¬ ¬ fc.sender.isMember = true := by
    rw [hsender]
    simp [Sender.isMember]
  constructor
  · intro pm hprotect
    rw [protectPrivate, if_neg hmember, bind_eq_ok] at hprotect
    obtain ⟨sig, hsign, hseal⟩ := hprotect
    rw [sealPrivate_tagFor] at hseal
    exact ⟨sig, hsign, unprotectPrivate_sealed haead hverify hsender hobject hpub
      hlookup hsign hseal⟩
  · intro input sig pm hsign hassemble
    rw [assembleCommitPrivate, if_neg hmember] at hassemble
    exact unprotectPrivate_sealed haead hverify hsender hobject hpub hlookup
      (sign_of_signCommit hsign) hassemble

def emptyCommitContent : FramedContent := ⟨[9], 4, .member 1, [6], contentTypeCommit, [0, 0]⟩

theorem emptyCommitContent_object : emptyCommitContent.CarriesObject :=
  ⟨fun htype => absurd htype (by decide), fun _ => ⟨⟨[], none⟩, by decide +kernel⟩⟩

def commitContext : GroupContext := ⟨1, 1, [9], 4, [], [], []⟩

def oneSigner (_leafIndex : ℕ) : Result Bytes := .ok [2]

theorem private_message_round_trip_commit :
    ∃ st pm sig, newSecretTree plainSuite 2 [5] = .ok st ∧
      protectPrivate plainSuite (some ⟨[2]⟩) commitContext st [8]
        emptyCommitContent 3 ⟨1, 2, 3, 4⟩ 5 [7] = .ok pm ∧
      unprotectPrivate plainSuite oneSigner commitContext st [8] pm =
        .ok ⟨.privateMessage, emptyCommitContent, ⟨sig, [7]⟩⟩ := by
  obtain ⟨st, hst, pm, hprotect⟩ : ∃ st, newSecretTree plainSuite 2 [5] = .ok st ∧
      ∃ pm, protectPrivate plainSuite (some ⟨[2]⟩) commitContext st [8]
        emptyCommitContent 3 ⟨1, 2, 3, 4⟩ 5 [7] = .ok pm := by decide +kernel
  have hlookup : oneSigner (1 : UInt32).toNat = .ok [2] := rfl
  obtain ⟨sig, -, hunprotect⟩ := (private_message_round_trip
    plainSuite_laws.aeadInverts plainSuite_laws.signaturesVerify rfl
    emptyCommitContent_object rfl hlookup st [8] 3 ⟨1, 2, 3, 4⟩ 5 [7]).1 pm hprotect
  exact ⟨st, pm, sig, hst, hprotect, hunprotect⟩

/-! ## The transcript input of a commit -/

theorem Sender.exists_of_isMember {sender : Sender} (hmember : sender.isMember = true) :
    ∃ leafIndex, sender = .member leafIndex := by
  cases sender with
  | member leafIndex => exact ⟨leafIndex, rfl⟩
  | external => cases hmember
  | newMemberProposal => cases hmember
  | newMemberCommit => cases hmember

def PublicMessage.onWire (m : PublicMessage) : PublicMessage :=
  { m with membershipTag := if m.content.sender.isMember then m.membershipTag
      else [] }

theorem PublicMessage.marshal_onWire (m : PublicMessage) : m.onWire.marshal = m.marshal := by
  unfold PublicMessage.marshal PublicMessage.onWire
  by_cases hmember : m.content.sender.isMember = true
  · simp only [hmember, if_true]
  · simp only [hmember, if_false, Bool.false_eq_true]

theorem PublicMessage.onWire_regular (hobject : m.content.CarriesObject)
    (htype : m.content.contentType = contentTypeCommit) : m.onWire.Regular where
  object := hobject
  confirmationTag := fun hother => absurd htype hother
  membershipTag := fun hmember => by
    rw [PublicMessage.onWire] at hmember ⊢
    exact if_neg (by simp [hmember])

theorem PublicMessage.unmarshal_onWire {version : UInt16} {bytes : Bytes} (hm : m.onWire.Regular)
    (hwrite : MLSMessage.marshal ⟨version, .publicMessage m⟩ = .ok bytes) :
    unmarshalMLSMessage bytes = .ok ⟨version, .publicMessage m.onWire⟩ := by
  have hwrite' : MLSMessage.marshal ⟨version, .publicMessage m.onWire⟩ = .ok bytes := by
    simpa only [MLSMessage.marshal, m.marshal_onWire] using hwrite
  exact unmarshal_of_decodes (decodes_mlsMessage (by
    rintro pm ⟨⟩
    exact hm) hwrite') _

theorem split_of_authData {wf : WireFormat} {input body : Bytes}
    (htype : fc.contentType = contentTypeCommit) (hlen : tag.length = S.hashLen)
    (hsign : signCommit S signer gc fc wf = .ok (input, sig))
    (hbody : FramedContentAuthData.marshal ⟨sig, tag⟩ fc.contentType = .ok body) :
    ∃ acBytes, AuthenticatedContent.marshal ⟨wf, fc, ⟨sig, tag⟩⟩ = .ok acBytes ∧
      splitAuthenticatedContent S acBytes = .ok (input, tag) := by
  obtain ⟨sigBytes, -, hbody⟩ := bind_eq_ok.mp hbody
  rw [if_pos htype, bind_eq_ok] at hbody
  obtain ⟨tagBytes, htag, -⟩ := hbody
  exact split_of_signCommit htype hlen hsign htag

theorem authData_of_sealPrivate
    {auth : FramedContentAuthData}
    (hseal : sealPrivate S st senderDataSecret fc auth generation guard padding =
      .ok pm) : ∃ body, auth.marshal fc.contentType = .ok body := by
  simp only [sealPrivate, privateMessageContent, bind_eq_ok] at hseal
  obtain ⟨_, -, _, -, _, ⟨_, -, body, hbody, -⟩, -⟩ := hseal
  exact ⟨body, hbody⟩

/-- What the receiver splits off the commit it authenticated is the input that
the committer hashed, and the tag. -/
theorem transcript_input_transported (haead : S.AeadInverts) (hverify : S.SignaturesVerify)
    {wf : WireFormat} {input : Bytes} (htype : fc.contentType = contentTypeCommit)
    (hobject : fc.CarriesObject) (hpub : S.publicKeyOf signer = .ok pub)
    (hlen : tag.length = S.hashLen) (hsign : signCommit S signer gc fc wf = .ok (input, sig)) :
    (wf = .publicMessage → ∀ membershipKey version pm bytes,
      assembleCommitPublic S gc membershipKey fc sig tag = .ok pm →
      MLSMessage.marshal ⟨version, .publicMessage pm⟩ = .ok bytes →
      ∃ arrived ac acBytes, unmarshalMLSMessage bytes = .ok ⟨version, .publicMessage arrived⟩ ∧
        unprotectPublic S pub gc membershipKey arrived = .ok ac ∧ ac.marshal = .ok acBytes ∧
        splitAuthenticatedContent S acBytes = .ok (input, tag)) ∧
    (wf = .privateMessage → ∀ st senderDataSecret generation guard padding
        signaturePub version pm bytes,
      assembleCommitPrivate S st senderDataSecret fc generation guard padding sig tag = .ok pm →
      MLSMessage.marshal ⟨version, .privateMessage pm⟩ = .ok bytes →
      signaturePub fc.sender.leafIndex = .ok pub →
      ∃ arrived ac acBytes, unmarshalMLSMessage bytes = .ok ⟨version, .privateMessage arrived⟩ ∧
        unprotectPrivate S signaturePub gc st senderDataSecret arrived = .ok ac ∧
        ac.marshal = .ok acBytes ∧ splitAuthenticatedContent S acBytes = .ok (input, tag)) := by
  constructor
  · rintro rfl membershipKey version pm bytes hassemble hbytes
    obtain ⟨tbm, htbm, hpm⟩ := bind_eq_ok.mp hassemble
    cases hpm
    obtain ⟨tbs, -, htbm'⟩ := bind_eq_ok.mp htbm
    obtain ⟨body, hbody, -⟩ := bind_eq_ok.mp htbm'
    obtain ⟨acBytes, hac, hsplit⟩ := split_of_authData htype hlen hsign hbody
    refine ⟨_, _, acBytes, PublicMessage.unmarshal_onWire (PublicMessage.onWire_regular hobject
      htype) hbytes, unprotectPublic_of_sign hverify hpub (sign_of_signCommit hsign) ?_, hac,
      hsplit⟩
    exact fun hmember => ⟨tbm, htbm, if_pos hmember⟩
  · rintro rfl st senderDataSecret generation guard padding signaturePub version pm
      bytes hassemble hbytes hlookup
    unfold assembleCommitPrivate at hassemble
    split at hassemble
    · cases hassemble
    next hmember =>
    obtain ⟨leafIndex, hsender⟩ := Sender.exists_of_isMember (not_not.mp hmember)
    rw [hsender] at hlookup
    obtain ⟨body, hbody⟩ := authData_of_sealPrivate hassemble
    obtain ⟨acBytes, hac, hsplit⟩ := split_of_authData htype hlen hsign hbody
    have hopen := unprotectPrivate_sealed haead hverify hsender hobject hpub hlookup
      (sign_of_signCommit hsign) hassemble
    rw [tagFor, if_pos htype] at hopen
    exact ⟨pm, _, acBytes, unmarshalMLSMessage_private hbytes, hopen, hac, hsplit⟩

theorem transcript_input_transported_commit :
    ∃ input sig pm bytes arrived ac acBytes,
      signCommit plainSuite (some ⟨[2]⟩) commitContext emptyCommitContent
        .publicMessage = .ok (input, sig) ∧
      assembleCommitPublic plainSuite commitContext [3] emptyCommitContent sig [7] = .ok pm ∧
      MLSMessage.marshal ⟨1, .publicMessage pm⟩ = .ok bytes ∧
      unmarshalMLSMessage bytes = .ok ⟨1, .publicMessage arrived⟩ ∧
      unprotectPublic plainSuite [2] commitContext [3] arrived = .ok ac ∧
      ac.marshal = .ok acBytes ∧
      splitAuthenticatedContent plainSuite acBytes = .ok (input, [7]) := by
  obtain ⟨⟨input, sig⟩, hsign, pm, hassemble, bytes, hbytes⟩ :
      ∃ signed, signCommit plainSuite (some ⟨[2]⟩) commitContext emptyCommitContent
          .publicMessage = .ok signed ∧
        ∃ pm, assembleCommitPublic plainSuite commitContext [3] emptyCommitContent signed.2
            [7] = .ok pm ∧
          ∃ bytes, MLSMessage.marshal ⟨1, .publicMessage pm⟩ = .ok bytes := by decide +kernel
  have htag : ([7] : Bytes).length = plainSuite.hashLen := rfl
  obtain ⟨arrived, ac, acBytes, hreceived⟩ := (transcript_input_transported
    plainSuite_laws.aeadInverts plainSuite_laws.signaturesVerify rfl
    emptyCommitContent_object rfl htag hsign).1 rfl [3] 1 pm bytes hassemble hbytes
  exact ⟨input, sig, pm, bytes, arrived, ac, acBytes, hsign, hassemble, hbytes, hreceived⟩

end MlsGo
