import MlsGo.CodecReturns

/-!
# Every reader of the wire form returns

The readers of the protocol objects, each put together from the readers of its
fields.
-/

namespace MlsGo

variable {α : Type} {n : ℕ}

theorem reads_credential : Reads decodeCredential 2 :=
  reads_uint16.bind fun _ =>
    (reads_opaqueV.bind fun _ => reads_pure _).ite
      ((reads_opaqueV.vectorV.bind fun _ => reads_pure _).ite (reads_fail _))

theorem reads_capabilities : Reads decodeCapabilities 1 :=
  reads_uint16.vectorV.bind fun _ => reads_uint16.vectorV.bind fun _ =>
    reads_uint16.vectorV.bind fun _ => reads_uint16.vectorV.bind fun _ =>
      reads_uint16.vectorV.bind fun _ => reads_pure _

theorem reads_extension : Reads decodeExtension 2 :=
  reads_uint16.bind fun _ => reads_opaqueV.bind fun _ => reads_pure _

theorem reads_lifetime : Reads decodeLifetime 8 :=
  reads_uint64.bind fun _ => reads_uint64.bind fun _ => reads_pure _

theorem reads_leafNodeSource : Reads decodeLeafNodeSource 1 :=
  reads_uint8.bind fun _ =>
    (reads_lifetime.bind fun _ => reads_pure _).ite
      ((reads_pure _).ite ((reads_opaqueV.bind fun _ => reads_pure _).ite (reads_fail _)))

theorem reads_leafNode : Reads decodeLeafNode 1 :=
  reads_opaqueV.bind fun _ => reads_opaqueV.bind fun _ =>
    reads_credential.bind fun _ => reads_capabilities.bind fun _ =>
      reads_leafNodeSource.bind fun _ => reads_extension.vectorV.bind fun _ =>
        reads_opaqueV.bind fun _ => reads_pure _

theorem reads_parentNode : Reads decodeParentNode 1 :=
  reads_opaqueV.bind fun _ => reads_opaqueV.bind fun _ =>
    reads_uint32.vectorV.bind fun _ => reads_pure _

theorem reads_node : Reads decodeNode 1 :=
  reads_uint8.bind fun _ =>
    (reads_leafNode.bind fun _ => reads_pure _).ite
      ((reads_parentNode.bind fun _ => reads_pure _).ite (reads_fail _))

theorem Reads.optional {dec : Cursor α} (hdec : Reads dec n) : Reads (readOptional dec) 1 :=
  reads_uint8.bind fun _ =>
    (reads_pure _).ite ((hdec.bind fun _ => reads_pure _).ite (reads_fail _))

theorem reads_hpkeCiphertext : Reads decodeHPKECiphertext 1 :=
  reads_opaqueV.bind fun _ => reads_opaqueV.bind fun _ => reads_pure _

theorem reads_updatePathNode : Reads decodeUpdatePathNode 1 :=
  reads_opaqueV.bind fun _ => reads_hpkeCiphertext.vectorV.bind fun _ => reads_pure _

theorem reads_updatePath : Reads decodeUpdatePath 1 :=
  reads_leafNode.bind fun _ => reads_updatePathNode.vectorV.bind fun _ => reads_pure _

theorem reads_pskSource : Reads decodePskSource 1 :=
  reads_uint8.bind fun _ =>
    (reads_opaqueV.bind fun _ => reads_pure _).ite
      ((reads_uint8.bind fun _ => reads_opaqueV.bind fun _ =>
        reads_uint64.bind fun _ => reads_pure _).ite (reads_fail _))

theorem reads_preSharedKeyID : Reads decodePreSharedKeyID 1 :=
  reads_pskSource.bind fun _ => reads_opaqueV.bind fun _ => reads_pure _

theorem reads_keyPackage : Reads decodeKeyPackage 2 :=
  reads_uint16.bind fun _ => reads_uint16.bind fun _ =>
    reads_opaqueV.bind fun _ => reads_leafNode.bind fun _ =>
      reads_extension.vectorV.bind fun _ => reads_opaqueV.bind fun _ => reads_pure _

theorem reads_reInit : Reads decodeReInit 1 :=
  reads_opaqueV.bind fun _ => reads_uint16.bind fun _ =>
    reads_uint16.bind fun _ => reads_extension.vectorV.bind fun _ => reads_pure _

theorem reads_proposal : Reads decodeProposal 2 :=
  reads_uint16.bind fun _ =>
    (reads_keyPackage.bind fun _ => reads_pure _).ite <|
    (reads_leafNode.bind fun _ => reads_pure _).ite <|
    (reads_uint32.bind fun _ => reads_pure _).ite <|
    (reads_preSharedKeyID.bind fun _ => reads_pure _).ite <|
    reads_reInit.ite <|
    (reads_opaqueV.bind fun _ => reads_pure _).ite <|
    (reads_extension.vectorV.bind fun _ => reads_pure _).ite (reads_fail _)

theorem reads_proposalOrRef : Reads decodeProposalOrRef 1 :=
  reads_uint8.bind fun _ =>
    (reads_proposal.bind fun _ => reads_pure _).ite
      ((reads_opaqueV.bind fun _ => reads_pure _).ite (reads_fail _))

theorem reads_commit : Reads decodeCommit 1 :=
  reads_proposalOrRef.vectorV.bind fun _ => reads_uint8.bind fun _ =>
    (reads_pure _).ite ((reads_updatePath.bind fun _ => reads_pure _).ite (reads_fail _))

/-! ### Framing -/

theorem reads_sender : Reads decodeSender 1 :=
  reads_uint8.bind fun _ =>
    (reads_uint32.bind fun _ => reads_pure _).ite <|
    (reads_uint32.bind fun _ => reads_pure _).ite <|
    (reads_pure _).ite <| (reads_pure _).ite (reads_fail _)

theorem Reads.skim {f : Cursor Unit} (hf : Reads f n) : Reads (skim f) n := by
  constructor
  · intro data
    exact (hf.returns data).bind fun _ _ => returns_ok _
  · intro data value rest hread
    obtain ⟨⟨u, middle⟩, hfirst, hpair⟩ := bind_eq_ok.mp hread
    cases hpair
    exact hf.rest_le hfirst

theorem reads_skimCommit : Reads skimCommit 1 :=
  reads_opaqueV.bind fun _ => reads_uint8.bind fun _ =>
    (reads_pure _).ite ((reads_updatePath.bind fun _ => reads_pure _).ite (reads_fail _))

theorem reads_skimKeyPackage : Reads skimKeyPackage 2 :=
  reads_uint16.bind fun _ => reads_uint16.bind fun _ =>
    reads_opaqueV.bind fun _ => reads_leafNode.bind fun _ =>
      reads_extension.vectorV.bind fun _ => reads_opaqueV.bind fun _ => reads_pure _

theorem reads_skimPreSharedKeyID : Reads skimPreSharedKeyID 1 :=
  have hsource : Reads skimPskSource 1 :=
    reads_uint8.bind fun _ =>
      (reads_opaqueV.bind fun _ => reads_pure _).ite
        ((reads_uint8.bind fun _ => reads_opaqueV.bind fun _ =>
          reads_uint64.bind fun _ => reads_pure _).ite (reads_fail _))
  hsource.bind fun _ => reads_opaqueV.bind fun _ => reads_pure _

theorem reads_skimProposal : Reads skimProposal 2 :=
  have hreInit : Reads skimReInit 1 :=
    reads_opaqueV.bind fun _ => reads_uint16.bind fun _ =>
      reads_uint16.bind fun _ => reads_opaqueV.bind fun _ => reads_pure _
  reads_uint16.bind fun _ =>
    reads_skimKeyPackage.ite <|
    (reads_leafNode.bind fun _ => reads_pure _).ite <|
    (reads_uint32.bind fun _ => reads_pure _).ite <|
    reads_skimPreSharedKeyID.ite <| hreInit.ite <|
    (reads_opaqueV.bind fun _ => reads_pure _).ite <|
    (reads_opaqueV.bind fun _ => reads_pure _).ite (reads_fail _)

theorem reads_content (contentType : UInt8) : Reads (decodeContent contentType) 0 :=
  reads_opaqueV.ite (reads_skimProposal.skim.ite (reads_skimCommit.skim.ite (reads_fail _)))

theorem reads_authData (contentType : UInt8) : Reads (decodeFramedContentAuthData contentType) 1 :=
  reads_opaqueV.bind fun _ => (reads_opaqueV.bind fun _ => reads_pure _).ite (reads_pure _)

theorem reads_publicMessage : Reads decodePublicMessage 1 :=
  have hcontent : Reads decodeFramedContent 1 :=
    reads_opaqueV.bind fun _ => reads_uint64.bind fun _ =>
      reads_sender.bind fun _ => reads_opaqueV.bind fun _ =>
        reads_uint8.bind fun contentType => (reads_content contentType).bind fun _ => reads_pure _
  hcontent.bind fun content => (reads_authData content.contentType).bind fun _ =>
    (reads_opaqueV.bind fun _ => reads_pure _).ite (reads_pure _)

theorem reads_privateMessage : Reads decodePrivateMessage 1 :=
  reads_opaqueV.bind fun _ => reads_uint64.bind fun _ =>
    reads_uint8.bind fun _ => reads_opaqueV.bind fun _ =>
      reads_opaqueV.bind fun _ => reads_opaqueV.bind fun _ => reads_pure _

theorem reads_mlsMessage : Reads decodeMLSMessage 2 :=
  reads_uint16.bind fun _ => reads_uint16.bind fun _ =>
    (reads_publicMessage.bind fun _ => reads_pure _).ite
      ((reads_privateMessage.bind fun _ => reads_pure _).ite (reads_fail _))

theorem reads_senderData : Reads decodeSenderData 4 :=
  reads_uint32.bind fun _ => reads_uint32.bind fun _ =>
    reads_uint8.bind fun _ => reads_uint8.bind fun _ =>
      reads_uint8.bind fun _ => reads_uint8.bind fun _ => reads_pure _

/-! ### Whole messages -/

theorem Reads.unmarshal {dec : Cursor α} (hdec : Reads dec n) (message : String) (data : Bytes) :
    Returns (unmarshal dec message data) := by
  simp [MlsGo.unmarshal, hdec.returns]

@[simp] theorem unmarshalMLSMessage_returns (data : Bytes) : Returns (unmarshalMLSMessage data) :=
  reads_mlsMessage.unmarshal _ data

@[simp] theorem unmarshalProposal_returns (data : Bytes) : Returns (unmarshalProposal data) :=
  reads_proposal.unmarshal _ data

@[simp] theorem unmarshalCommit_returns (data : Bytes) : Returns (unmarshalCommit data) :=
  reads_commit.unmarshal _ data

@[simp] theorem decodePrivateMessageContent_returns (pt : Bytes) (contentType : UInt8) :
    Returns (decodePrivateMessageContent pt contentType) := by
  simp [decodePrivateMessageContent, (reads_content contentType).returns,
    (reads_authData contentType).returns]

@[simp] theorem parseRatchetTree_returns (data : Bytes) :
    Returns (RatchetTree.parseRatchetTree data) := by
  unfold RatchetTree.parseRatchetTree
  refine (reads_node.optional.vectorV.returns data).bind ?_
  rintro ⟨nodes, rest⟩ -
  dsimp only
  split
  · exact returns_fail _
  · cases nodes.getLast? with
    | none => exact returns_fail _
    | some last => cases last <;> simp

@[simp] theorem tree_clone_returns (t : RatchetTree) : Returns t.clone := by
  simp [RatchetTree.clone]

end MlsGo
