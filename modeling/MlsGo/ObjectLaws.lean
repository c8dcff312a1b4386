import MlsGo.MessageLaws

/-!
# Round trips of protocol objects

Key packages, proposals, commits, group information and welcomes are read back
as written.  The body of a commit is read twice, by the skimmer of the framing
layer and by the decoder of the group layer; both consume exactly its bytes.
-/

namespace MlsGo

open DecoderLaws

variable {data : Bytes}

theorem decodes_vector_bytes {α : Type} {enc : α → Result Bytes} {items : List α}
    (hwrite : writeVectorV items enc = .ok data) :
    ∃ inner, Decodes readOpaqueV data inner := by
  obtain ⟨inner, -, hopaque⟩ := bind_eq_ok.mp hwrite
  exact ⟨inner, roundTrips_opaqueV inner data hopaque⟩

/-! ## Key packages and pre-shared keys -/

theorem roundTrips_keyPackage : RoundTrips KeyPackage.marshal decodeKeyPackage := by
  intro kp encoded hwrite
  simp only [KeyPackage.marshal, KeyPackage.marshalTBS, bind_eq_ok, pure_ok_iff] at hwrite
  obtain ⟨_, ⟨init, hinit, leaf, hleaf, extensions, hextensions, rfl⟩,
    signature, hsignature, rfl⟩ := hwrite
  simp only [List.append_assoc]
  exact (decodes_readUint16 kp.version).bind <|
    (decodes_readUint16 kp.cipherSuite).bind <|
    (roundTrips_opaqueV _ _ hinit).bind <|
    (roundTrips_leafNode _ _ hleaf).bind <|
    (roundTrips_extensions _ _ hextensions).bind (roundTrips_opaqueV _ _ hsignature).last

theorem roundTrips_pskSource : RoundTrips PskSource.marshal decodePskSource := by
  intro source encoded hwrite
  cases source with
  | external pskID =>
      simp only [PskSource.marshal, bind_eq_ok, pure_ok_iff] at hwrite
      obtain ⟨id, hid, rfl⟩ := hwrite
      exact (decodes_readUint8 1).bind (roundTrips_opaqueV _ _ hid).last
  | resumption usage pskGroupID pskEpoch =>
      simp only [PskSource.marshal, bind_eq_ok, pure_ok_iff] at hwrite
      obtain ⟨group, hgroup, rfl⟩ := hwrite
      exact (decodes_readUint8 2).bind <| (decodes_readUint8 usage).bind <|
        (roundTrips_opaqueV _ _ hgroup).bind (decodes_readUint64 pskEpoch).last

theorem roundTrips_preSharedKeyID : RoundTrips PreSharedKeyID.marshal decodePreSharedKeyID := by
  intro id encoded hwrite
  simp only [PreSharedKeyID.marshal, bind_eq_ok, pure_ok_iff] at hwrite
  obtain ⟨source, hsource, nonce, hnonce, rfl⟩ := hwrite
  exact (roundTrips_pskSource _ _ hsource).bind (roundTrips_opaqueV _ _ hnonce).last

theorem PreSharedKeyID.marshal_ne_nil (id : PreSharedKeyID) (encoded : Bytes)
    (hwrite : id.marshal = .ok encoded) : encoded ≠ [] := by
  simp only [PreSharedKeyID.marshal, bind_eq_ok, pure_ok_iff] at hwrite
  obtain ⟨source, -, nonce, hnonce, rfl⟩ := hwrite
  simp [writeOpaqueV_ne_nil hnonce]

/-! ## Proposals and commits -/

theorem roundTrips_proposal : RoundTrips Proposal.marshal decodeProposal := by
  intro p encoded hwrite
  cases p with
  | add kp =>
      simp only [Proposal.marshal, bind_eq_ok, pure_ok_iff] at hwrite
      obtain ⟨body, hbody, rfl⟩ := hwrite
      exact (decodes_readUint16 1).bind (roundTrips_keyPackage _ _ hbody).last
  | update ln =>
      simp only [Proposal.marshal, bind_eq_ok, pure_ok_iff] at hwrite
      obtain ⟨body, hbody, rfl⟩ := hwrite
      exact (decodes_readUint16 2).bind (roundTrips_leafNode _ _ hbody).last
  | remove removed =>
      simp only [Proposal.marshal, Except.ok.injEq] at hwrite
      subst hwrite
      exact (decodes_readUint16 3).bind (decodes_readUint32 removed).last
  | preSharedKey psk =>
      simp only [Proposal.marshal, bind_eq_ok, pure_ok_iff] at hwrite
      obtain ⟨body, hbody, rfl⟩ := hwrite
      exact (decodes_readUint16 4).bind (roundTrips_preSharedKeyID _ _ hbody).last
  | reInit groupID version cipherSuite extensions =>
      simp only [Proposal.marshal, bind_eq_ok, pure_ok_iff] at hwrite
      obtain ⟨group, hgroup, body, hbody, rfl⟩ := hwrite
      exact (decodes_readUint16 5).bind <|
        (roundTrips_opaqueV _ _ hgroup).bind <|
        (decodes_readUint16 version).bind <|
        (decodes_readUint16 cipherSuite).bind (roundTrips_extensions _ _ hbody).last
  | externalInit kemOutput =>
      simp only [Proposal.marshal, bind_eq_ok, pure_ok_iff] at hwrite
      obtain ⟨body, hbody, rfl⟩ := hwrite
      exact (decodes_readUint16 6).bind (roundTrips_opaqueV _ _ hbody).last
  | groupContextExtensions extensions =>
      simp only [Proposal.marshal, bind_eq_ok, pure_ok_iff] at hwrite
      obtain ⟨body, hbody, rfl⟩ := hwrite
      exact (decodes_readUint16 7).bind (roundTrips_extensions _ _ hbody).last

theorem roundTrips_proposalOrRef : RoundTrips ProposalOrRef.marshal decodeProposalOrRef := by
  intro por encoded hwrite
  cases por with
  | proposal p =>
      simp only [ProposalOrRef.marshal, bind_eq_ok, pure_ok_iff] at hwrite
      obtain ⟨body, hbody, rfl⟩ := hwrite
      exact (decodes_readUint8 1).bind (roundTrips_proposal _ _ hbody).last
  | reference ref =>
      simp only [ProposalOrRef.marshal, bind_eq_ok, pure_ok_iff] at hwrite
      obtain ⟨body, hbody, rfl⟩ := hwrite
      exact (decodes_readUint8 2).bind (roundTrips_opaqueV _ _ hbody).last

theorem ProposalOrRef.marshal_ne_nil (por : ProposalOrRef) (encoded : Bytes)
    (hwrite : por.marshal = .ok encoded) : encoded ≠ [] := by
  cases por with
  | proposal p =>
      obtain ⟨body, -, hwrite⟩ := bind_eq_ok.mp hwrite
      cases hwrite
      simp [writeUint8]
  | reference ref =>
      obtain ⟨body, -, hwrite⟩ := bind_eq_ok.mp hwrite
      cases hwrite
      simp [writeUint8]

theorem roundTrips_commit : RoundTrips Commit.marshal decodeCommit := by
  rintro ⟨proposals, path⟩ encoded hwrite
  obtain ⟨body, hbody, hwrite⟩ := bind_eq_ok.mp hwrite
  have hvector := roundTrips_vectorV roundTrips_proposalOrRef
    ProposalOrRef.marshal_ne_nil _ _ hbody
  cases path with
  | none =>
      cases hwrite
      exact hvector.bind ((decodes_readUint8 0).final rfl)
  | some path =>
      obtain ⟨up, hup, hwrite⟩ := bind_eq_ok.mp hwrite
      cases hwrite
      exact hvector.bind <| (decodes_readUint8 1).bind (roundTrips_updatePath _ _ hup).last

theorem unmarshalCommit_marshal {cm : Commit} {body : Bytes}
    (hwrite : cm.marshal = .ok body) : unmarshalCommit body = .ok cm :=
  unmarshal_of_decodes (roundTrips_commit cm body hwrite) _

theorem decodes_skimCommit {cm : Commit} {body : Bytes}
    (hwrite : cm.marshal = .ok body) : Decodes skimCommit body () := by
  obtain ⟨proposals, path⟩ := cm
  obtain ⟨vector, hvector, hwrite⟩ := bind_eq_ok.mp hwrite
  obtain ⟨inner, hinner⟩ := decodes_vector_bytes hvector
  cases path with
  | none =>
      cases hwrite
      exact hinner.bind ((decodes_readUint8 0).final rfl)
  | some path =>
      obtain ⟨up, hup, hwrite⟩ := bind_eq_ok.mp hwrite
      cases hwrite
      exact hinner.bind <| (decodes_readUint8 1).bind (roundTrips_updatePath _ _ hup).last

/-! ## Group information and welcomes -/

theorem roundTrips_groupInfo : RoundTrips GroupInfo.marshal decodeGroupInfo := by
  intro gi encoded hwrite
  simp only [GroupInfo.marshal, GroupInfo.marshalTBS, bind_eq_ok, pure_ok_iff] at hwrite
  obtain ⟨_, ⟨context, hcontext, extensions, hextensions, tag, htag, rfl⟩,
    signature, hsignature, rfl⟩ := hwrite
  simp only [List.append_assoc]
  exact (roundTrips_groupContext _ _ hcontext).bind <|
    (roundTrips_extensions _ _ hextensions).bind <|
    (roundTrips_opaqueV _ _ htag).bind <|
    (decodes_readUint32 gi.signer).bind (roundTrips_opaqueV _ _ hsignature).last

theorem unmarshalGroupInfo_marshal {gi : GroupInfo}
    (hwrite : gi.marshal = .ok data) : unmarshalGroupInfo data = .ok gi :=
  unmarshal_of_decodes (roundTrips_groupInfo gi data hwrite) _

theorem decodes_pathSecret {pathSecret : Option Bytes}
    (hwrite : writeOptional pathSecret writeOpaqueV = .ok data) :
    Decodes decodePathSecret data pathSecret := by
  cases pathSecret with
  | none =>
      cases hwrite
      exact (decodes_readUint8 0).final rfl
  | some secret =>
      obtain ⟨body, hbody, hwrite⟩ := bind_eq_ok.mp hwrite
      cases hwrite
      exact (decodes_readUint8 1).bind (roundTrips_opaqueV _ _ hbody).last

theorem roundTrips_groupSecrets : RoundTrips GroupSecrets.marshal decodeGroupSecrets := by
  intro gs encoded hwrite
  simp only [GroupSecrets.marshal, bind_eq_ok, pure_ok_iff] at hwrite
  obtain ⟨joiner, hjoiner, path, hpath, psks, hpsks, rfl⟩ := hwrite
  have hvector := roundTrips_vectorV roundTrips_preSharedKeyID
    PreSharedKeyID.marshal_ne_nil _ _ hpsks
  exact (roundTrips_opaqueV _ _ hjoiner).bind <| (decodes_pathSecret hpath).bind hvector.last

theorem unmarshalGroupSecrets_marshal {gs : GroupSecrets}
    (hwrite : gs.marshal = .ok data) : unmarshalGroupSecrets data = .ok gs :=
  unmarshal_of_decodes (roundTrips_groupSecrets gs data hwrite) _

theorem roundTrips_encryptedGroupSecrets :
    RoundTrips EncryptedGroupSecrets.marshal decodeEncryptedGroupSecrets := by
  intro egs encoded hwrite
  simp only [EncryptedGroupSecrets.marshal, bind_eq_ok, pure_ok_iff] at hwrite
  obtain ⟨newMember, hnewMember, secrets, hsecrets, rfl⟩ := hwrite
  exact (roundTrips_opaqueV _ _ hnewMember).bind (roundTrips_hpkeCiphertext _ _ hsecrets).last

theorem EncryptedGroupSecrets.marshal_ne_nil (egs : EncryptedGroupSecrets)
    (encoded : Bytes) (hwrite : egs.marshal = .ok encoded) : encoded ≠ [] := by
  simp only [EncryptedGroupSecrets.marshal, bind_eq_ok, pure_ok_iff] at hwrite
  obtain ⟨newMember, hnewMember, secrets, -, rfl⟩ := hwrite
  simp [writeOpaqueV_ne_nil hnewMember]

theorem roundTrips_welcome : RoundTrips Welcome.marshal decodeWelcome := by
  intro w encoded hwrite
  simp only [Welcome.marshal, bind_eq_ok, pure_ok_iff] at hwrite
  obtain ⟨secrets, hsecrets, info, hinfo, rfl⟩ := hwrite
  have hvector := roundTrips_vectorV roundTrips_encryptedGroupSecrets
    EncryptedGroupSecrets.marshal_ne_nil _ _ hsecrets
  exact (decodes_readUint16 w.cipherSuite).bind <| hvector.bind (roundTrips_opaqueV _ _ hinfo).last

theorem decodes_envelopeHeader (wireFormat : UInt16) :
    Decodes (decodeEnvelopeHeader wireFormat) (writeEnvelopeHeader wireFormat) () :=
  (decodes_readUint16 1).bind ((decodes_readUint16 wireFormat).final (by simp))

theorem decodeWelcomeMessage_encode {w : Welcome} (hwrite : encodeWelcomeMessage w = .ok data) :
    decodeWelcomeMessage data = .ok w := by
  obtain ⟨body, hbody, hwrite⟩ := bind_eq_ok.mp hwrite
  cases hwrite
  exact unmarshal_of_decodes ((decodes_envelopeHeader wireFormatWelcome).bind
    (roundTrips_welcome w body hbody)) _

theorem decodeKeyPackageMessage_encode {kp : KeyPackage}
    (hwrite : encodeKeyPackageMessage kp = .ok data) :
    decodeKeyPackageMessage data = .ok kp := by
  obtain ⟨body, hbody, hwrite⟩ := bind_eq_ok.mp hwrite
  cases hwrite
  exact unmarshal_of_decodes ((decodes_envelopeHeader wireFormatKeyPackage).bind
    (roundTrips_keyPackage kp body hbody)) _

end MlsGo
