import MlsGo.CanonicalWire
import MlsGo.MessageLaws
import MlsGo.GroupObjects
import MlsGo.WireCopies

/-!
# No byte string is a second encoding

Signatures, references, tree hashes and the transcript are computed over values
written again.  Every reader of a protocol object accepts only what its writer
produces, so two parties that read the same object hash the same bytes.
-/

namespace MlsGo

open DecoderLaws

/-! ## Tree nodes -/

theorem canonical_credential : Canonical Credential.marshal decodeCredential :=
  canonical_readUint16.bind_total fun _ =>
    .ite (fun hbasic => canonical_opaqueV.bind fun _ _ h => .pure (by
      simp [Credential.marshal, h, hbasic])) fun _ =>
    .ite (fun hx509 => (canonical_vectorV canonical_opaqueV).bind fun _ _ h => .pure (by
      simp [Credential.marshal, h, hx509])) fun _ => .error _

theorem canonical_uint16s : Canonical writeUint16s (readVectorV readUint16) :=
  canonical_vectorV canonical_readUint16

theorem canonical_capabilities : Canonical Capabilities.marshal decodeCapabilities :=
  canonical_uint16s.bind fun _ _ h1 => canonical_uint16s.bind fun _ _ h2 =>
    canonical_uint16s.bind fun _ _ h3 => canonical_uint16s.bind fun _ _ h4 =>
    canonical_uint16s.bind fun _ _ h5 => .pure (by simp [Capabilities.marshal, h1, h2, h3, h4, h5])

theorem canonical_extension : Canonical Extension.marshal decodeExtension :=
  canonical_readUint16.bind_total fun _ => canonical_opaqueV.bind fun _ _ h => .pure (by
    simp [Extension.marshal, h])

theorem canonical_extensions : Canonical writeExtensions (readVectorV decodeExtension) :=
  canonical_vectorV canonical_extension

theorem canonical_lifetime :
    Canonical (fun lifetime => .ok (Lifetime.marshal lifetime)) decodeLifetime :=
  canonical_readUint64.bind_total fun _ => canonical_readUint64.bind_total fun _ => .pure (by
    simp [Lifetime.marshal])

theorem canonical_leafNodeSource : Canonical LeafNodeSource.marshal decodeLeafNodeSource :=
  canonical_readUint8.bind_total fun _ =>
    .ite (fun hkeyPackage => canonical_lifetime.bind_total fun _ => .pure (by
      simp [LeafNodeSource.marshal, hkeyPackage])) fun _ =>
    .ite (fun hupdate => .pure (by simp [LeafNodeSource.marshal, hupdate])) fun _ =>
    .ite (fun hcommit => canonical_opaqueV.bind fun _ _ h => .pure (by
      simp [LeafNodeSource.marshal, h, hcommit])) fun _ => .error _

theorem canonical_leafNode : Canonical LeafNode.marshal decodeLeafNode :=
  canonical_opaqueV.bind fun _ _ h1 => canonical_opaqueV.bind fun _ _ h2 =>
    canonical_credential.bind fun _ _ h3 => canonical_capabilities.bind fun _ _ h4 =>
    canonical_leafNodeSource.bind fun _ _ h5 =>
    (canonical_vectorV canonical_extension).bind fun _ _ h6 =>
    canonical_opaqueV.bind fun _ _ h7 => .pure (by
      simp [LeafNode.marshal, LeafNode.marshalContents, h1, h2, h3, h4, h5, h6, h7])

theorem canonical_parentNode : Canonical ParentNode.marshal decodeParentNode :=
  canonical_opaqueV.bind fun _ _ h1 => canonical_opaqueV.bind fun _ _ h2 =>
    (canonical_vectorV canonical_readUint32).bind fun _ _ h3 => .pure (by
      simp [ParentNode.marshal, h1, h2, h3])

theorem canonical_node : Canonical Node.marshal decodeNode :=
  canonical_readUint8.bind_total fun _ =>
    .ite (fun hleaf => canonical_leafNode.bind fun _ _ h => .pure (by
      simp [Node.marshal, h, hleaf])) fun _ =>
    .ite (fun hparent => canonical_parentNode.bind fun _ _ h => .pure (by
      simp [Node.marshal, h, hparent])) fun _ => .error _

theorem canonical_hpkeCiphertext : Canonical HPKECiphertext.marshal decodeHPKECiphertext :=
  canonical_opaqueV.bind fun _ _ h1 => canonical_opaqueV.bind fun _ _ h2 => .pure (by
    simp [HPKECiphertext.marshal, h1, h2])

theorem canonical_updatePathNode : Canonical UpdatePathNode.marshal decodeUpdatePathNode :=
  canonical_opaqueV.bind fun _ _ h1 =>
    (canonical_vectorV canonical_hpkeCiphertext).bind fun _ _ h2 => .pure (by
      simp [UpdatePathNode.marshal, h1, h2])

theorem canonical_updatePath : Canonical UpdatePath.marshal decodeUpdatePath :=
  canonical_leafNode.bind fun _ _ h1 =>
    (canonical_vectorV canonical_updatePathNode).bind fun _ _ h2 => .pure (by
      simp [UpdatePath.marshal, h1, h2])

theorem RatchetTree.dropTrailingBlanks_pad {nodes : List (Option Node)}
    {last : Node} (hlast : nodes.getLast? = some (some last)) :
    RatchetTree.dropTrailingBlanks (RatchetTree.padToFullWidth nodes) = nodes := by
  obtain ⟨front, rfl⟩ := List.getLast?_eq_some_iff.mp hlast
  rw [RatchetTree.padToFullWidth, RatchetTree.dropTrailingBlanks, List.reverse_append,
    List.reverse_replicate, List.dropWhile_append_of_pos (by simp), List.reverse_append]
  simp

theorem RatchetTree.marshal_parse {data : Bytes} {t : RatchetTree}
    (hparse : RatchetTree.parseRatchetTree data = .ok t) :
    t.marshal = .ok data := by
  obtain ⟨⟨nodes, rest⟩, hread, hresult⟩ := bind_eq_ok.mp hparse
  dsimp only at hresult
  split at hresult
  · exact absurd hresult fail_ne_ok
  next hempty =>
  obtain rfl : rest = [] := by simpa using hempty
  obtain ⟨encoded, hwrite, rfl⟩ :=
    canonical_vectorV (canonical_optional canonical_node) _ _ _ hread
  split at hresult
  · exact absurd hresult fail_ne_ok
  · exact absurd hresult fail_ne_ok
  next last hlast =>
    cases hresult
    rw [List.append_nil, RatchetTree.marshal, RatchetTree.dropTrailingBlanks_pad hlast]
    exact hwrite

/-! ## Protocol objects -/

theorem canonical_groupContext : Canonical GroupContext.marshal decodeGroupContext :=
  canonical_readUint16.bind_total fun _ => canonical_readUint16.bind_total fun _ =>
    canonical_opaqueV.bind fun _ _ h1 => canonical_readUint64.bind_total fun _ =>
    canonical_opaqueV.bind fun _ _ h2 => canonical_opaqueV.bind fun _ _ h3 =>
    canonical_extensions.bind fun _ _ h4 => .pure (by simp [GroupContext.marshal, h1, h2, h3, h4])

theorem canonical_pskSource : Canonical PskSource.marshal decodePskSource :=
  canonical_readUint8.bind_total fun _ =>
    .ite (fun hexternal => canonical_opaqueV.bind fun _ _ h => .pure (by
      simp [PskSource.marshal, h, hexternal])) fun _ =>
    .ite (fun hresumption => canonical_readUint8.bind_total fun _ =>
      canonical_opaqueV.bind fun _ _ h => canonical_readUint64.bind_total fun _ => .pure (by
        simp [PskSource.marshal, h, hresumption])) fun _ => .error _

theorem canonical_preSharedKeyID : Canonical PreSharedKeyID.marshal decodePreSharedKeyID :=
  canonical_pskSource.bind fun _ _ h1 => canonical_opaqueV.bind fun _ _ h2 => .pure (by
    simp [PreSharedKeyID.marshal, h1, h2])

theorem canonical_keyPackage : Canonical KeyPackage.marshal decodeKeyPackage :=
  canonical_readUint16.bind_total fun _ => canonical_readUint16.bind_total fun _ =>
    canonical_opaqueV.bind fun _ _ h1 => canonical_leafNode.bind fun _ _ h2 =>
    canonical_extensions.bind fun _ _ h3 => canonical_opaqueV.bind fun _ _ h4 => .pure (by
      simp [KeyPackage.marshal, KeyPackage.marshalTBS, h1, h2, h3, h4])

theorem accepts_reInit : Accepts
    (fun p encoded => Proposal.marshal p = .ok (writeUint16 5 ++ encoded)) decodeReInit :=
  canonical_opaqueV.bind fun _ _ h1 => canonical_readUint16.bind_total fun _ =>
    canonical_readUint16.bind_total fun _ => canonical_extensions.bind fun _ _ h2 => .pure (by
      simp [Proposal.marshal, h1, h2])

theorem canonical_proposal : Canonical Proposal.marshal decodeProposal :=
  canonical_readUint16.bind_total fun _ =>
    .ite (fun hadd => canonical_keyPackage.bind fun _ _ h => .pure (by
      simp [Proposal.marshal, h, hadd])) fun _ =>
    .ite (fun hupdate => canonical_leafNode.bind fun _ _ h => .pure (by
      simp [Proposal.marshal, h, hupdate])) fun _ =>
    .ite (fun hremove => canonical_readUint32.bind_total fun _ => .pure (by
      simp [Proposal.marshal, hremove])) fun _ =>
    .ite (fun hpsk => canonical_preSharedKeyID.bind fun _ _ h => .pure (by
      simp [Proposal.marshal, h, hpsk])) fun _ =>
    .ite (fun hreInit => hreInit ▸ accepts_reInit) fun _ =>
    .ite (fun hexternalInit => canonical_opaqueV.bind fun _ _ h => .pure (by
      simp [Proposal.marshal, h, hexternalInit])) fun _ =>
    .ite (fun hextensions => canonical_extensions.bind fun _ _ h => .pure (by
      simp [Proposal.marshal, h, hextensions])) fun _ => .error _

theorem canonical_proposalOrRef : Canonical ProposalOrRef.marshal decodeProposalOrRef :=
  canonical_readUint8.bind_total fun _ =>
    .ite (fun hproposal => canonical_proposal.bind fun _ _ h => .pure (by
      simp [ProposalOrRef.marshal, h, hproposal])) fun _ =>
    .ite (fun hreference => canonical_opaqueV.bind fun _ _ h => .pure (by
      simp [ProposalOrRef.marshal, h, hreference])) fun _ => .error _

theorem canonical_commit : Canonical Commit.marshal decodeCommit :=
  (canonical_vectorV canonical_proposalOrRef).bind fun _ _ h1 =>
    canonical_readUint8.bind_total fun _ =>
    .ite (fun habsent => .pure (by simp [Commit.marshal, h1, habsent])) fun _ =>
    .ite (fun hpath => canonical_updatePath.bind fun _ _ h2 => .pure (by
      simp [Commit.marshal, h1, h2, hpath])) fun _ => .error _

theorem canonical_groupInfo : Canonical GroupInfo.marshal decodeGroupInfo :=
  canonical_groupContext.bind fun _ _ h1 => canonical_extensions.bind fun _ _ h2 =>
    canonical_opaqueV.bind fun _ _ h3 => canonical_readUint32.bind_total fun _ =>
    canonical_opaqueV.bind fun _ _ h4 => .pure (by
      simp [GroupInfo.marshal, GroupInfo.marshalTBS, h1, h2, h3, h4])

theorem canonical_pathSecret :
    Canonical (fun v => writeOptional v writeOpaqueV) decodePathSecret :=
  canonical_readUint8.bind_total fun _ =>
    .ite (fun habsent => .pure (by simp [writeOptional, writeUint8, habsent])) fun _ =>
    .ite (fun hsecret => canonical_opaqueV.bind fun _ _ h => .pure (by
      simp [writeOptional, writeUint8, h, hsecret])) fun _ => .error _

theorem canonical_groupSecrets : Canonical GroupSecrets.marshal decodeGroupSecrets :=
  canonical_opaqueV.bind fun _ _ h1 => canonical_pathSecret.bind fun _ _ h2 =>
    (canonical_vectorV canonical_preSharedKeyID).bind fun _ _ h3 => .pure (by
      simp [GroupSecrets.marshal, h1, h2, h3])

theorem canonical_encryptedGroupSecrets :
    Canonical EncryptedGroupSecrets.marshal decodeEncryptedGroupSecrets :=
  canonical_opaqueV.bind fun _ _ h1 => canonical_hpkeCiphertext.bind fun _ _ h2 => .pure (by
    simp [EncryptedGroupSecrets.marshal, h1, h2])

theorem canonical_welcome : Canonical Welcome.marshal decodeWelcome :=
  canonical_readUint16.bind_total fun _ =>
    (canonical_vectorV canonical_encryptedGroupSecrets).bind fun _ _ h1 =>
    canonical_opaqueV.bind fun _ _ h2 => .pure (by simp [Welcome.marshal, h1, h2])

/-! ## Messages -/

theorem canonical_sender : Canonical (fun sender => .ok (Sender.marshal sender)) decodeSender :=
  canonical_readUint8.bind_total fun _ =>
    .ite (fun hmember => canonical_readUint32.bind_total fun _ => .pure (by
      simp [Sender.marshal, hmember])) fun _ =>
    .ite (fun hexternal => canonical_readUint32.bind_total fun _ => .pure (by
      simp [Sender.marshal, hexternal])) fun _ =>
    .ite (fun hproposal => .pure (by simp [Sender.marshal, hproposal])) fun _ =>
    .ite (fun hcommit => .pure (by simp [Sender.marshal, hcommit])) fun _ => .error _

/-! Inline content is kept as the bytes a skimmer passes over. -/

theorem delimits_leafNode : Delimits decodeLeafNode :=
  canonical_leafNode.delimits roundTrips_leafNode

theorem delimits_extensions : Delimits (readVectorV decodeExtension) :=
  canonical_extensions.delimits roundTrips_extensions

theorem delimits_updatePath : Delimits decodeUpdatePath :=
  canonical_updatePath.delimits roundTrips_updatePath

theorem delimits_skimCommit : Delimits skimCommit :=
  delimits_readOpaqueV.bind fun _ =>
    delimits_readUint8.bind fun _ => (delimits_pure _).ite <|
      (delimits_updatePath.bind fun _ => delimits_pure _).ite (delimits_lift _)

theorem delimits_skimKeyPackage : Delimits skimKeyPackage :=
  delimits_readUint16.bind fun _ =>
    delimits_readUint16.bind fun _ =>
      delimits_readOpaqueV.bind fun _ =>
        delimits_leafNode.bind fun _ =>
          delimits_extensions.bind fun _ => delimits_readOpaqueV.bind fun _ => delimits_pure _

theorem delimits_skimPreSharedKeyID : Delimits skimPreSharedKeyID := by
  have hsource : Delimits skimPskSource :=
    delimits_readUint8.bind fun _ =>
      (delimits_readOpaqueV.bind fun _ => delimits_pure _).ite <|
        (delimits_readUint8.bind fun _ =>
          delimits_readOpaqueV.bind fun _ => delimits_readUint64.bind fun _ => delimits_pure _).ite
          (delimits_lift _)
  exact hsource.bind fun _ => delimits_readOpaqueV.bind fun _ => delimits_pure _

theorem delimits_skimProposal : Delimits skimProposal := by
  have hreInit : Delimits skimReInit :=
    delimits_readOpaqueV.bind fun _ =>
      delimits_readUint16.bind fun _ =>
        delimits_readUint16.bind fun _ => delimits_readOpaqueV.bind fun _ => delimits_pure _
  have hopaque : Delimits (do let _ ← readOpaqueV; return () : Cursor Unit) :=
    delimits_readOpaqueV.bind fun _ => delimits_pure _
  exact delimits_readUint16.bind fun _ =>
    delimits_skimKeyPackage.ite <|
    (delimits_leafNode.bind fun _ => delimits_pure _).ite <|
    (delimits_readUint32.bind fun _ => delimits_pure _).ite <|
    delimits_skimPreSharedKeyID.ite <| hreInit.ite <| hopaque.ite <| hopaque.ite (delimits_lift _)

theorem delimits_skim {f : Cursor Unit} (hf : Delimits f)
    {data rest content : Bytes} (hread : skim f data = .ok (content, rest)) :
    data = content ++ rest ∧ Decodes (skim f) content content := by
  obtain ⟨⟨u, middle⟩, hskim, hpair⟩ := bind_eq_ok.mp hread
  cases hpair
  obtain ⟨consumed, rfl, hconsumed⟩ := hf _ _ _ hskim
  have hlength : (consumed ++ rest).length - rest.length = consumed.length := by
    simp
  rw [hlength, List.take_left]
  exact ⟨rfl, decodes_skim hconsumed⟩

theorem canonical_content (contentType : UInt8) :
    Canonical (marshalContent contentType) (decodeContent contentType) := by
  intro data content rest hread
  unfold decodeContent at hread
  unfold marshalContent
  split at hread
  next happlication =>
    rw [if_pos happlication]
    exact canonical_opaqueV _ _ _ hread
  next happlication =>
  rw [if_neg happlication]
  split at hread
  next hproposal =>
    rw [if_pos (.inl hproposal)]
    exact ⟨content, rfl, (delimits_skim delimits_skimProposal hread).1⟩
  split at hread
  next hcommit =>
    rw [if_pos (.inr hcommit)]
    exact ⟨content, rfl, (delimits_skim delimits_skimCommit hread).1⟩
  · exact absurd (decoder_lift_eq_ok.mp hread).1 fail_ne_ok

theorem canonical_framedContent : Canonical FramedContent.marshal decodeFramedContent :=
  canonical_opaqueV.bind fun _ _ h1 => canonical_readUint64.bind_total fun _ =>
    canonical_sender.bind_total fun _ => canonical_opaqueV.bind fun _ _ h2 =>
    canonical_readUint8.bind_total fun contentType =>
    (canonical_content contentType).bind fun _ _ h3 => .pure (by
      simp [FramedContent.marshal, h1, h2, h3])

theorem canonical_authData (contentType : UInt8) :
    Canonical (fun auth => FramedContentAuthData.marshal auth contentType)
      (decodeFramedContentAuthData contentType) :=
  canonical_opaqueV.bind fun _ _ h1 =>
    .ite (fun hcommit => canonical_opaqueV.bind fun _ _ h2 => .pure (by
      simp [FramedContentAuthData.marshal, h1, h2, hcommit]))
    fun hother => .pure (by simp [FramedContentAuthData.marshal, h1, hother])

theorem canonical_publicMessage : Canonical PublicMessage.marshal decodePublicMessage :=
  canonical_framedContent.bind fun content _ h1 =>
    (canonical_authData content.contentType).bind fun _ _ h2 =>
    .ite (fun hmember => canonical_opaqueV.bind fun _ _ h3 => .pure (by
      simp [PublicMessage.marshal, h1, h2, h3, hmember]))
    fun hother => .pure (by simp [PublicMessage.marshal, h1, h2, hother])

theorem canonical_privateMessage : Canonical PrivateMessage.marshal decodePrivateMessage :=
  canonical_opaqueV.bind fun _ _ h1 => canonical_readUint64.bind_total fun _ =>
    canonical_readUint8.bind_total fun _ => canonical_opaqueV.bind fun _ _ h2 =>
    canonical_opaqueV.bind fun _ _ h3 => canonical_opaqueV.bind fun _ _ h4 => .pure (by
      simp [PrivateMessage.marshal, h1, h2, h3, h4])

theorem canonical_mlsMessage : Canonical MLSMessage.marshal decodeMLSMessage :=
  canonical_readUint16.bind_total fun _ => canonical_readUint16.bind_total fun _ =>
    .ite (fun hpublic => canonical_publicMessage.bind fun _ _ h => .pure (by
      simp [MLSMessage.marshal, h, hpublic])) fun _ =>
    .ite (fun hprivate => canonical_privateMessage.bind fun _ _ h => .pure (by
      simp [MLSMessage.marshal, h, hprivate])) fun _ => .error _

/-! ## All formats -/

/-- Decoding a prefix determines the value's encoding as that prefix, and two
inputs with the same value differ only behind it. -/
structure NotMalleable {α : Type} (enc : α → Result Bytes) (dec : Cursor α) :
    Prop where
  reencodes : ∀ data value rest, dec data = .ok (value, rest) →
    ∃ consumed, data = consumed ++ rest ∧ enc value = .ok consumed
  unique : ∀ first second value restFirst restSecond,
    dec first = .ok (value, restFirst) → dec second = .ok (value, restSecond) →
    ∃ consumed, first = consumed ++ restFirst ∧ second = consumed ++ restSecond

theorem NotMalleable.of_canonical {α : Type} {enc : α → Result Bytes}
    {dec : Cursor α} (hcanon : Canonical enc dec) : NotMalleable enc dec := by
  constructor
  · intro data value rest hread
    obtain ⟨encoded, hwrite, hdata⟩ := hcanon data value rest hread
    exact ⟨encoded, hdata, hwrite⟩
  · intro first second value restFirst restSecond hfirst hsecond
    exact hcanon.unique hfirst hsecond

theorem decoding_not_malleable :
    NotMalleable LeafNode.marshal decodeLeafNode ∧
    NotMalleable ParentNode.marshal decodeParentNode ∧
    (∀ data t, RatchetTree.parseRatchetTree data = .ok t → t.marshal = .ok data) ∧
    NotMalleable UpdatePath.marshal decodeUpdatePath ∧
    NotMalleable KeyPackage.marshal decodeKeyPackage ∧
    NotMalleable Proposal.marshal decodeProposal ∧
    NotMalleable ProposalOrRef.marshal decodeProposalOrRef ∧
    NotMalleable Commit.marshal decodeCommit ∧
    NotMalleable PreSharedKeyID.marshal decodePreSharedKeyID ∧
    NotMalleable GroupContext.marshal decodeGroupContext ∧
    NotMalleable GroupInfo.marshal decodeGroupInfo ∧
    NotMalleable GroupSecrets.marshal decodeGroupSecrets ∧
    NotMalleable Welcome.marshal decodeWelcome ∧
    NotMalleable FramedContent.marshal decodeFramedContent ∧
    NotMalleable PublicMessage.marshal decodePublicMessage ∧
    NotMalleable PrivateMessage.marshal decodePrivateMessage ∧
    NotMalleable MLSMessage.marshal decodeMLSMessage := by
  refine ⟨.of_canonical canonical_leafNode, .of_canonical canonical_parentNode, fun _ _ =>
    RatchetTree.marshal_parse, .of_canonical canonical_updatePath, .of_canonical
    canonical_keyPackage, .of_canonical canonical_proposal, .of_canonical canonical_proposalOrRef,
    .of_canonical canonical_commit, .of_canonical canonical_preSharedKeyID,
    .of_canonical canonical_groupContext, .of_canonical canonical_groupInfo,
    .of_canonical canonical_groupSecrets, .of_canonical canonical_welcome,
    .of_canonical canonical_framedContent, .of_canonical canonical_publicMessage,
    .of_canonical canonical_privateMessage, .of_canonical canonical_mlsMessage⟩

end MlsGo
