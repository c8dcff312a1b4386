import MlsGo.GroupObjects
import MlsGo.SuiteLaws

/-!
# Round trips of messages and protocol objects

Every message an honest sender writes is read back as written.  Content bytes
are carried inline, so a framed content is read back when the skimmer of its
content type consumes exactly those bytes.  Protection is undone by
unprotection under the same keys.
-/

namespace MlsGo

open DecoderLaws

variable {S : Suite} {data pub sig : Bytes} {fc : FramedContent} {signer : Option Signer}
    {gc : GroupContext} {auth : FramedContentAuthData} {m : PublicMessage}

theorem unmarshal_of_decodes {α : Type} {dec : Cursor α}
    {value : α} (hdec : Decodes dec data value) (message : String) :
    unmarshal dec message data = .ok value := by
  have hread := hdec []
  rw [List.append_nil] at hread
  simp [unmarshal, hread]

theorem roundTrips_groupContext : RoundTrips GroupContext.marshal decodeGroupContext := by
  intro gc encoded hwrite
  simp only [GroupContext.marshal, bind_eq_ok, pure_ok_iff] at hwrite
  obtain ⟨groupID, hgroupID, treeHash, htreeHash, confirmed, hconfirmed,
    extensions, hextensions, rfl⟩ := hwrite
  exact (decodes_readUint16 gc.version).bind <|
    (decodes_readUint16 gc.cipherSuite).bind <|
    (roundTrips_opaqueV _ _ hgroupID).bind <|
    (decodes_readUint64 gc.epoch).bind <|
    (roundTrips_opaqueV _ _ htreeHash).bind <|
    (roundTrips_opaqueV _ _ hconfirmed).bind (roundTrips_extensions _ _ hextensions).last

/-! ## Framed content -/

theorem decodes_sender (sender : Sender) : Decodes decodeSender sender.marshal sender := by
  cases sender with
  | member leafIndex => exact (decodes_readUint8 1).bind (decodes_readUint32 leafIndex).last
  | external index => exact (decodes_readUint8 2).bind (decodes_readUint32 index).last
  | newMemberProposal => exact (decodes_readUint8 3).bind (Decodes.pure Sender.newMemberProposal)
  | newMemberCommit => exact (decodes_readUint8 4).bind (Decodes.pure Sender.newMemberCommit)

theorem decodes_skim {f : Cursor Unit} {content : Bytes}
    (hskim : Decodes f content ()) : Decodes (skim f) content content := by
  intro rest
  rw [skim, hskim rest, ok_bind]
  simp

def FramedContent.Inline (fc : FramedContent) : Prop :=
  ∀ body, marshalContent fc.contentType fc.content = .ok body →
    Decodes (decodeContent fc.contentType) body fc.content

theorem decodes_framedContent (hinline : fc.Inline) (hwrite : fc.marshal = .ok data) :
    Decodes decodeFramedContent data fc := by
  simp only [FramedContent.marshal, bind_eq_ok, pure_ok_iff] at hwrite
  obtain ⟨groupID, hgroupID, ad, had, content, hcontent, rfl⟩ := hwrite
  exact (roundTrips_opaqueV _ _ hgroupID).bind <|
    (decodes_readUint64 fc.epoch).bind <|
    (decodes_sender fc.sender).bind <|
    (roundTrips_opaqueV _ _ had).bind <|
    (decodes_readUint8 fc.contentType).bind (hinline content hcontent).last

theorem decodes_authData {contentType : UInt8}
    (htag : contentType ≠ contentTypeCommit → auth.confirmationTag = [])
    (hwrite : auth.marshal contentType = .ok data) :
    Decodes (decodeFramedContentAuthData contentType) data auth := by
  obtain ⟨signature, tag⟩ := auth
  simp only [FramedContentAuthData.marshal, bind_eq_ok] at hwrite
  obtain ⟨sig, hsig, hwrite⟩ := hwrite
  unfold decodeFramedContentAuthData
  by_cases hcommit : contentType = contentTypeCommit
  · simp only [hcommit, if_true, bind_eq_ok, pure_ok_iff] at hwrite ⊢
    obtain ⟨tagBytes, htagBytes, rfl⟩ := hwrite
    exact (roundTrips_opaqueV _ _ hsig).bind (roundTrips_opaqueV _ _ htagBytes).last
  · obtain rfl : tag = [] := htag hcommit
    simp only [hcommit, if_false, pure_ok_iff] at hwrite ⊢
    subst hwrite
    exact (roundTrips_opaqueV _ _ hsig).last

theorem decodes_publicMessage (hinline : m.content.Inline)
    (htag : m.content.contentType ≠ contentTypeCommit → m.auth.confirmationTag = [])
    (hmembership : m.content.sender.isMember = false → m.membershipTag = [])
    (hwrite : m.marshal = .ok data) :
    Decodes decodePublicMessage data m := by
  obtain ⟨fc, auth, membershipTag⟩ := m
  simp only [PublicMessage.marshal, bind_eq_ok] at hwrite
  obtain ⟨contentBytes, hcontent, authBytes, hauth, hwrite⟩ := hwrite
  have hcontent' := decodes_framedContent hinline hcontent
  have hauth' := decodes_authData htag hauth
  by_cases hmember : fc.sender.isMember = true
  · simp only [hmember, if_true, bind_eq_ok, pure_ok_iff] at hwrite
    obtain ⟨tag, htagBytes, rfl⟩ := hwrite
    refine hcontent'.bind (hauth'.bind ?_)
    simp only [hmember, if_true]
    exact (roundTrips_opaqueV _ _ htagBytes).last
  · rw [Bool.not_eq_true] at hmember
    obtain rfl : membershipTag = [] := hmembership hmember
    simp only [hmember, Bool.false_eq_true, if_false, pure_ok_iff] at hwrite
    subst hwrite
    refine hcontent'.bind ?_
    simp only [hmember, Bool.false_eq_true, if_false]
    exact hauth'.last

theorem roundTrips_privateMessage : RoundTrips PrivateMessage.marshal decodePrivateMessage := by
  intro m encoded hwrite
  simp only [PrivateMessage.marshal, bind_eq_ok, pure_ok_iff] at hwrite
  obtain ⟨groupID, hgroupID, ad, had, sd, hsd, ct, hct, rfl⟩ := hwrite
  exact (roundTrips_opaqueV _ _ hgroupID).bind <|
    (decodes_readUint64 m.epoch).bind <|
    (decodes_readUint8 m.contentType).bind <|
    (roundTrips_opaqueV _ _ had).bind <|
    (roundTrips_opaqueV _ _ hsd).bind (roundTrips_opaqueV _ _ hct).last

theorem decodes_senderData (sd : SenderData) : Decodes decodeSenderData sd.marshal sd := by
  obtain ⟨leafIndex, generation, ⟨b0, b1, b2, b3⟩⟩ := sd
  exact (decodes_readUint32 leafIndex).bind <|
    (decodes_readUint32 generation).bind <|
    (decodes_readUint8 b0).bind <| (decodes_readUint8 b1).bind <|
    (decodes_readUint8 b2).bind (decodes_readUint8 b3).last

theorem unmarshalMLSMessage_public {version : UInt16}
    {body : Bytes} (hbody : m.marshal = .ok body)
    (hdec : Decodes decodePublicMessage body m)
    (hwrite : MLSMessage.marshal ⟨version, .publicMessage m⟩ = .ok data) :
    unmarshalMLSMessage data = .ok ⟨version, .publicMessage m⟩ := by
  simp only [MLSMessage.marshal, hbody, ok_bind, pure_ok_iff] at hwrite
  subst hwrite
  refine unmarshal_of_decodes ?_ _
  exact (decodes_readUint16 version).bind ((decodes_readUint16 1).bind hdec.last)

theorem unmarshalMLSMessage_private {m : PrivateMessage} {version : UInt16}
    (hwrite : MLSMessage.marshal ⟨version, .privateMessage m⟩ = .ok data) :
    unmarshalMLSMessage data = .ok ⟨version, .privateMessage m⟩ := by
  simp only [MLSMessage.marshal, bind_eq_ok, pure_ok_iff] at hwrite
  obtain ⟨body, hbody, rfl⟩ := hwrite
  refine unmarshal_of_decodes ?_ _
  exact (decodes_readUint16 version).bind
    ((decodes_readUint16 2).bind (roundTrips_privateMessage _ _ hbody).last)

/-! ## Signatures and protection -/

theorem verifyWithLabel_of_sign (hverify : S.SignaturesVerify)
    {label : String} {content : Bytes}
    (hpub : S.publicKeyOf signer = .ok pub)
    (hsign : S.signWithLabel signer label content = .ok sig) :
    S.verifyWithLabel pub label content sig = true := by
  obtain ⟨tbs, htbs, hsign⟩ := bind_eq_ok.mp hsign
  cases signer with
  | none => cases hpub
  | some key =>
      rw [Suite.verifyWithLabel, htbs]
      exact hverify (liftErr_eq_ok.mp hpub) (liftErr_eq_ok.mp hsign)

theorem verify_of_signContent (hverify : S.SignaturesVerify) {wf : WireFormat}
    (hpub : S.publicKeyOf signer = .ok pub) (hsign : signContent S wf fc signer gc = .ok sig)
    (tag : Bytes) :
    (AuthenticatedContent.mk wf fc ⟨sig, tag⟩).verify S pub gc = true := by
  obtain ⟨tbs, htbs, hsign⟩ := bind_eq_ok.mp hsign
  rw [AuthenticatedContent.verify, htbs]
  exact verifyWithLabel_of_sign hverify hpub hsign

theorem unprotectPublic_of_sign (hverify : S.SignaturesVerify)
    {tag membershipKey membershipTag : Bytes} (hpub : S.publicKeyOf signer = .ok pub)
    (hsign : signContent S .publicMessage fc signer gc = .ok sig)
    (hmembership : fc.sender.isMember = true → ∃ tbm, authenticatedContentTBM .publicMessage fc
    ⟨sig, tag⟩ gc = .ok tbm ∧ membershipTag = S.mac membershipKey tbm) :
    unprotectPublic S pub gc membershipKey ⟨fc, ⟨sig, tag⟩, membershipTag⟩ =
      .ok ⟨.publicMessage, fc, ⟨sig, tag⟩⟩ := by
  have htag : checkMembershipTag S gc membershipKey ⟨fc, ⟨sig, tag⟩, membershipTag⟩ = .ok () := by
    unfold checkMembershipTag
    split
    · rename_i hmember
      obtain ⟨tbm, htbm, rfl⟩ := hmembership hmember
      simp [htbm]
    · rfl
  rw [unprotectPublic, htag, ok_bind]
  simp [verify_of_signContent hverify hpub hsign tag]

theorem decodePrivateMessageContent_eq {padding : ℕ} {pt : Bytes} (hinline : fc.Inline)
    (htag : fc.contentType ≠ contentTypeCommit → auth.confirmationTag = [])
    (hwrite : privateMessageContent fc auth padding = .ok pt) :
    decodePrivateMessageContent pt fc.contentType = .ok (fc.content, auth) := by
  simp only [privateMessageContent, bind_eq_ok, pure_ok_iff] at hwrite
  obtain ⟨content, hcontent, body, hbody, rfl⟩ := hwrite
  simp only [decodePrivateMessageContent,
    hinline content hcontent (body ++ List.replicate padding 0),
    decodes_authData htag hbody (List.replicate padding 0), ok_bind]
  simp

theorem unprotectPrivate_of_seal (haead : S.AeadInverts) (hverify : S.SignaturesVerify)
    {st : SecretTree} {senderDataSecret tag : Bytes} {generation leafIndex : UInt32}
    {guard : ReuseGuard} {padding : ℕ} {pm : PrivateMessage} {signaturePub : ℕ → Result Bytes}
    (hsender : fc.sender = .member leafIndex) (hinline : fc.Inline) (htag : fc.contentType ≠
    contentTypeCommit → tag = []) (hsign : signContent S .privateMessage fc signer gc = .ok sig)
    (hpub : S.publicKeyOf signer = .ok pub) (hlookup : signaturePub leafIndex.toNat = .ok pub)
    (hseal : sealPrivate S st senderDataSecret fc ⟨sig, tag⟩ generation guard padding = .ok pm) :
    unprotectPrivate S signaturePub gc st senderDataSecret pm =
      .ok ⟨.privateMessage, fc, ⟨sig, tag⟩⟩ := by
  simp only [sealPrivate, bind_eq_ok, pure_ok_iff,
    liftErr_eq_ok, hsender, Sender.leafIndex] at hseal
  obtain ⟨⟨key, nonce⟩, hkey, contentAAD, hcontentAAD, pt, hpt, guarded, hguarded, ciphertext,
    hciphertext, ⟨sdKey, sdNonce⟩, hsdKey, sdAAD, hsdAAD, encSD, hencSD, rfl⟩ := hseal
  have hopenSD := haead hencSD
  have hopen := haead hciphertext
  have hsd := decodes_senderData ⟨leafIndex, generation, guard⟩ []
  have hindex : UInt32.ofNat leafIndex.toNat = leafIndex := by simp
  rw [hindex] at hopenSD
  rw [List.append_nil] at hsd
  have hsenderData : openSenderData S senderDataSecret
      ⟨fc.groupID, fc.epoch, fc.contentType, fc.authenticatedData, encSD,
        ciphertext⟩ = .ok ⟨leafIndex, generation, guard⟩ := by
    simp only [openSenderData, hsdKey, hsdAAD, hopenSD, ok_bind, liftErr_ok,
      within_ok, hsd]
    rfl
  have hfc : FramedContent.mk fc.groupID fc.epoch (.member leafIndex)
      fc.authenticatedData fc.contentType fc.content = fc := by
    rw [← hsender]
  rw [unprotectPrivate, hsenderData, ok_bind]
  simp only [hkey, hcontentAAD, hguarded, ok_bind, hopen, liftErr_ok,
    within_ok, decodePrivateMessageContent_eq hinline htag hpt, hlookup, hfc,
    verify_of_signContent hverify hpub hsign tag]
  rfl

end MlsGo
