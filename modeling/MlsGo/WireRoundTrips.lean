import MlsGo.CanonicalForms
import MlsGo.ObjectLaws
import MlsGo.WireCopies

/-!
# Decoding undoes encoding

The round trips of the wire types in one place, each in front of an arbitrary
suffix.  Framed content carries a proposal or a commit without a length, so its
end is found by skimming.  A tree with a populated slot is read back when its
array has the smallest full width; the tree without any is written, as an empty
vector, but not read back.
-/

namespace MlsGo

open DecoderLaws InOrderLayout

/-! ## Inline proposals -/

variable {body data : Bytes} {α : Type} {enc : α → Result Bytes}

theorem decodes_skimKeyPackage {kp : KeyPackage}
    (hwrite : kp.marshal = .ok body) : Decodes skimKeyPackage body () := by
  simp only [KeyPackage.marshal, KeyPackage.marshalTBS, bind_eq_ok, pure_ok_iff] at hwrite
  obtain ⟨_, ⟨init, hinit, leaf, hleaf, extensions, hextensions, rfl⟩,
    signature, hsignature, rfl⟩ := hwrite
  simp only [List.append_assoc]
  exact (decodes_readUint16 kp.version).bind <|
    (decodes_readUint16 kp.cipherSuite).bind <|
    (roundTrips_opaqueV _ _ hinit).bind <|
    (roundTrips_leafNode _ _ hleaf).bind <|
    (roundTrips_extensions _ _ hextensions).bind ((roundTrips_opaqueV _ _ hsignature).final rfl)

theorem decodes_skimPreSharedKeyID {id : PreSharedKeyID}
    (hwrite : id.marshal = .ok body) : Decodes skimPreSharedKeyID body () := by
  obtain ⟨source, nonce⟩ := id
  simp only [PreSharedKeyID.marshal, bind_eq_ok, pure_ok_iff] at hwrite
  obtain ⟨sourceBytes, hsource, nonceBytes, hnonce, rfl⟩ := hwrite
  have hskim : Decodes skimPskSource sourceBytes () := by
    cases source with
    | external pskID =>
        simp only [PskSource.marshal, bind_eq_ok, pure_ok_iff] at hsource
        obtain ⟨id, hid, rfl⟩ := hsource
        exact (decodes_readUint8 1).bind ((roundTrips_opaqueV _ _ hid).final rfl)
    | resumption usage pskGroupID pskEpoch =>
        simp only [PskSource.marshal, bind_eq_ok, pure_ok_iff] at hsource
        obtain ⟨group, hgroup, rfl⟩ := hsource
        exact (decodes_readUint8 2).bind <| (decodes_readUint8 usage).bind <|
          (roundTrips_opaqueV _ _ hgroup).bind ((decodes_readUint64 pskEpoch).final rfl)
  exact hskim.bind ((roundTrips_opaqueV _ _ hnonce).final rfl)

theorem decodes_skimProposal {p : Proposal}
    (hwrite : p.marshal = .ok body) : Decodes skimProposal body () := by
  cases p with
  | add kp =>
      obtain ⟨inner, hinner, hbody⟩ := bind_eq_ok.mp hwrite
      cases hbody
      exact (decodes_readUint16 1).bind (decodes_skimKeyPackage hinner)
  | update ln =>
      obtain ⟨inner, hinner, hbody⟩ := bind_eq_ok.mp hwrite
      cases hbody
      exact (decodes_readUint16 2).bind ((roundTrips_leafNode _ _ hinner).final rfl)
  | remove removed =>
      cases hwrite
      exact (decodes_readUint16 3).bind ((decodes_readUint32 removed).final rfl)
  | preSharedKey psk =>
      obtain ⟨inner, hinner, hbody⟩ := bind_eq_ok.mp hwrite
      cases hbody
      exact (decodes_readUint16 4).bind (decodes_skimPreSharedKeyID hinner)
  | reInit groupID version cipherSuite extensions =>
      simp only [Proposal.marshal, bind_eq_ok, pure_ok_iff] at hwrite
      obtain ⟨group, hgroup, ext, hext, rfl⟩ := hwrite
      obtain ⟨inner, hinner⟩ := decodes_vector_bytes hext
      exact (decodes_readUint16 5).bind <|
        (roundTrips_opaqueV _ _ hgroup).bind <|
        (decodes_readUint16 version).bind <|
        (decodes_readUint16 cipherSuite).bind (hinner.final rfl)
  | externalInit kemOutput =>
      obtain ⟨inner, hinner, hbody⟩ := bind_eq_ok.mp hwrite
      cases hbody
      exact (decodes_readUint16 6).bind ((roundTrips_opaqueV _ _ hinner).final rfl)
  | groupContextExtensions extensions =>
      obtain ⟨inner, hext, hbody⟩ := bind_eq_ok.mp hwrite
      cases hbody
      obtain ⟨inner, hinner⟩ := decodes_vector_bytes hext
      exact (decodes_readUint16 7).bind (hinner.final rfl)

/-- Where the decoder of the group package stops, the skimmer of the framing
package stops too, so what follows inline content is read from the same place. -/
theorem skimmers_stop_with_decoders (data : Bytes) :
    (∀ p rest, decodeProposal data = .ok (p, rest) → skimProposal data = .ok ((), rest)) ∧
    (∀ cm rest, decodeCommit data = .ok (cm, rest) → skimCommit data = .ok ((), rest)) := by
  constructor
  · intro p rest hread
    exact canonical_proposal.stops_alike (fun _ _ => decodes_skimProposal) hread
  · intro cm rest hread
    exact canonical_commit.stops_alike (fun _ _ => decodes_skimCommit) hread

/-- A Remove of leaf five in front of one byte, and a commit to one reference
without a path in front of two. -/
theorem skimmers_stop_with_decoders_remove :
    (decodeProposal [0, 3, 0, 0, 0, 5, 9] = .ok (.remove 5, [9]) ∧
      skimProposal [0, 3, 0, 0, 0, 5, 9] = .ok ((), [9])) ∧
    (decodeCommit [3, 2, 1, 7, 0, 9, 9] =
        .ok ({ proposals := [.reference [7]], path := none }, [9, 9]) ∧
      skimCommit [3, 2, 1, 7, 0, 9, 9] = .ok ((), [9, 9])) := by
  have hremove : decodeProposal [0, 3, 0, 0, 0, 5, 9] = .ok (.remove 5, [9]) := by
    decide +kernel
  have hcommit : decodeCommit [3, 2, 1, 7, 0, 9, 9] =
      .ok ({ proposals := [.reference [7]], path := none }, [9, 9]) := by
    decide +kernel
  exact ⟨⟨hremove, (skimmers_stop_with_decoders _).1 _ _ hremove⟩,
    hcommit, (skimmers_stop_with_decoders _).2 _ _ hcommit⟩

/-! ## Values whose unused fields are empty -/

def FramedContent.CarriesObject (fc : FramedContent) : Prop :=
  (fc.contentType = contentTypeProposal → ∃ p : Proposal, p.marshal = .ok fc.content) ∧
  (fc.contentType = contentTypeCommit → ∃ cm : Commit, cm.marshal = .ok fc.content)

theorem FramedContent.CarriesObject.inline {fc : FramedContent}
    (hobject : fc.CarriesObject) : fc.Inline := by
  intro body hwrite
  unfold marshalContent at hwrite
  unfold decodeContent
  split at hwrite
  next happlication =>
    rw [if_pos happlication]
    exact roundTrips_opaqueV _ _ hwrite
  next happlication =>
  rw [if_neg happlication]
  split at hwrite
  next hother =>
    cases hwrite
    by_cases hproposal : fc.contentType = contentTypeProposal
    · obtain ⟨p, hp⟩ := hobject.1 hproposal
      rw [if_pos hproposal]
      exact decodes_skim (decodes_skimProposal hp)
    · have hcommit := hother.resolve_left hproposal
      obtain ⟨cm, hcm⟩ := hobject.2 hcommit
      rw [if_neg hproposal, if_pos hcommit]
      exact decodes_skim (decodes_skimCommit hcm)
  · exact absurd hwrite fail_ne_ok

structure PublicMessage.Regular (m : PublicMessage) : Prop where
  object : m.content.CarriesObject
  confirmationTag : m.content.contentType ≠ contentTypeCommit → m.auth.confirmationTag = []
  membershipTag : m.content.sender.isMember = false → m.membershipTag = []

def MLSMessage.Regular (m : MLSMessage) : Prop := ∀ pm, m.body = .publicMessage pm → pm.Regular

theorem decodes_regular {m : PublicMessage} (hm : m.Regular)
    (hwrite : m.marshal = .ok data) : Decodes decodePublicMessage data m :=
  decodes_publicMessage hm.object.inline hm.confirmationTag hm.membershipTag hwrite

theorem decodes_mlsMessage {m : MLSMessage} (hm : m.Regular)
    (hwrite : m.marshal = .ok data) : Decodes decodeMLSMessage data m := by
  obtain ⟨version, body⟩ := m
  cases body with
  | publicMessage pm =>
      obtain ⟨inner, hinner, hdata⟩ := bind_eq_ok.mp hwrite
      cases hdata
      have hread := decodes_regular (hm pm rfl) hinner
      exact (decodes_readUint16 version).bind ((decodes_readUint16 1).bind hread.last)
  | privateMessage pm =>
      obtain ⟨inner, hinner, hdata⟩ := bind_eq_ok.mp hwrite
      cases hdata
      have hread := roundTrips_privateMessage _ _ hinner
      exact (decodes_readUint16 version).bind ((decodes_readUint16 2).bind hread.last)

theorem unmarshal_append {dec : Cursor α} {value : α} (hdec : Decodes dec data value)
    (message : String) {suffix : Bytes} (hsuffix : suffix ≠ []) :
    unmarshal dec message (data ++ suffix) = fail message := by
  simp [unmarshal, hdec suffix, hsuffix]

/-! ## Ratchet trees -/

namespace RatchetTree

def SmallestFullWidth (t : RatchetTree) : Prop :=
  ∃ h, t.nodes.length = treeWidth h ∧ ∀ i < h, ∃ p n, treeWidth i ≤ p ∧ t.nodes[p]? = some (some n)

variable {t : RatchetTree}

theorem lt_length_of_populated {p : ℕ} {n : Node} (hp : t.nodes[p]? = some (some n)) :
    p < (dropTrailingBlanks t.nodes).length := by
  obtain ⟨k, j, rfl⟩ := exists_inorder p
  refine lt_length_dropTrailingBlanks (k := k) (j := j) ?_
  simp [slot, hp]

theorem length_le_encodeAll (hne : ∀ value encoded, enc value = .ok encoded → encoded ≠ []) :
    ∀ {items : List α} {encoded : Bytes}, encodeAll enc items = .ok encoded →
      items.length ≤ encoded.length := by
  intro items
  induction items with
  | nil => simp
  | cons item items ih =>
      intro encoded hwrite
      simp only [encodeAll, bind_eq_ok, pure_ok_iff] at hwrite
      obtain ⟨first, hfirst, others, hothers, rfl⟩ := hwrite
      have hpos := List.length_pos_iff.mpr (hne _ _ hfirst)
      have hle := ih hothers
      simp only [List.length_cons, List.length_append]
      omega

theorem writeOptional_ne_nil
    (v : Option α) (encoded : Bytes) (hwrite : writeOptional v enc = .ok encoded) :
    encoded ≠ [] := by
  cases v with
  | none =>
      cases hwrite
      simp
  | some value =>
      obtain ⟨body, -, hbody⟩ := bind_eq_ok.mp hwrite
      cases hbody
      simp

theorem writeOpaqueV_length_le {p encoded : Bytes}
    (hwrite : writeOpaqueV p = .ok encoded) : p.length ≤ maxVarint := by
  by_contra hlong
  rw [writeOpaqueV_too_long (by omega)] at hwrite
  cases hwrite

theorem length_lt_of_marshal (hwrite : t.marshal = .ok data) :
    (dropTrailingBlanks t.nodes).length < 2 ^ 30 := by
  obtain ⟨inner, hinner, hopaque⟩ := bind_eq_ok.mp hwrite
  have hle := length_le_encodeAll writeOptional_ne_nil hinner
  have hmax := writeOpaqueV_length_le hopaque
  have hval : maxVarint = 2 ^ 30 - 1 := rfl
  omega

theorem SmallestFullWidth.pad_eq (ht : t.SmallestFullWidth) (hwrite : t.marshal = .ok data) :
    RatchetTree.mk (padToFullWidth (dropTrailingBlanks t.nodes)) = t := by
  obtain ⟨h, hlen, hleast⟩ := ht
  have hused := length_lt_of_marshal hwrite
  have hgt : ∀ i < h, treeWidth i < (dropTrailingBlanks t.nodes).length := by
    intro i hi
    obtain ⟨p, n, hp, hn⟩ := hleast i hi
    exact hp.trans_lt (lt_length_of_populated hn)
  -- a higher tree would need a populated slot that cannot be written
  have hh : h ≤ 30 := by
    by_contra hgt30
    have hwide := hgt 30 (by omega)
    have hval : treeWidth 30 = 2 ^ 31 - 1 := rfl
    omega
  have hf : t.Full h := ⟨hlen, hh⟩
  exact hf.pad_dropTrailingBlanks hgt

theorem SmallestFullWidth.parse_marshal (ht : t.SmallestFullWidth)
    {p : ℕ} {n : Node} (hp : t.nodes[p]? = some (some n))
    (hwrite : t.marshal = .ok data) : parseRatchetTree data = .ok t := by
  have hlen := lt_length_of_populated hp
  exact parse_marshal_of_pad (ht.pad_eq hwrite) (List.ne_nil_of_length_pos (by omega)) hwrite

theorem parse_append {suffix : Bytes} (hwrite : t.marshal = .ok data) (hsuffix : suffix ≠ []) :
    parseRatchetTree (data ++ suffix) = fail "tree: trailing bytes after ratchet_tree" := by
  rw [parseRatchetTree, roundTrips_slots _ _ hwrite suffix, ok_bind]
  simp [hsuffix]

end RatchetTree

/-! ## All formats -/

/-- Every wire type is read back in front of any suffix; the two readers of a
whole input accept no suffix. -/
theorem decoding_undoes_encoding :
    RoundTrips LeafNode.marshal decodeLeafNode ∧
    RoundTrips ParentNode.marshal decodeParentNode ∧
    (∀ (t : RatchetTree) data, t.SmallestFullWidth →
      (∃ (p : ℕ) (n : Node), t.nodes[p]? = some (some n)) →
      t.marshal = .ok data →
      RatchetTree.parseRatchetTree data = .ok t ∧
      ∀ suffix, suffix ≠ [] → RatchetTree.parseRatchetTree (data ++ suffix) =
        fail "tree: trailing bytes after ratchet_tree") ∧
    RoundTrips UpdatePath.marshal decodeUpdatePath ∧
    RoundTrips KeyPackage.marshal decodeKeyPackage ∧
    RoundTrips Proposal.marshal decodeProposal ∧
    RoundTrips ProposalOrRef.marshal decodeProposalOrRef ∧
    RoundTrips Commit.marshal decodeCommit ∧
    RoundTrips PreSharedKeyID.marshal decodePreSharedKeyID ∧
    RoundTrips GroupContext.marshal decodeGroupContext ∧
    RoundTrips GroupInfo.marshal decodeGroupInfo ∧
    RoundTrips GroupSecrets.marshal decodeGroupSecrets ∧
    RoundTrips Welcome.marshal decodeWelcome ∧
    (∀ sender : Sender, Decodes decodeSender sender.marshal sender) ∧
    (∀ (fc : FramedContent) data, fc.CarriesObject → fc.marshal = .ok data →
      Decodes decodeFramedContent data fc) ∧
    (∀ (m : PublicMessage) data, m.Regular → m.marshal = .ok data →
      Decodes decodePublicMessage data m) ∧
    RoundTrips PrivateMessage.marshal decodePrivateMessage ∧
    (∀ (m : MLSMessage) data, m.Regular → m.marshal = .ok data →
      Decodes decodeMLSMessage data m ∧ unmarshalMLSMessage data = .ok m ∧
      ∀ suffix, suffix ≠ [] → unmarshalMLSMessage (data ++ suffix) =
        fail "framing: trailing bytes after MLSMessage") := by
  refine ⟨roundTrips_leafNode, roundTrips_parentNode, ?tree, roundTrips_updatePath,
    roundTrips_keyPackage, roundTrips_proposal, roundTrips_proposalOrRef, roundTrips_commit,
    roundTrips_preSharedKeyID, roundTrips_groupContext, roundTrips_groupInfo,
    roundTrips_groupSecrets, roundTrips_welcome, decodes_sender, ?content, ?publicMessage,
    roundTrips_privateMessage, ?message⟩
  case tree =>
    rintro t data ht ⟨p, n, hp⟩ hwrite
    exact ⟨ht.parse_marshal hp hwrite, fun _ => RatchetTree.parse_append hwrite⟩
  case content =>
    intro fc data hobject hwrite
    exact decodes_framedContent hobject.inline hwrite
  case publicMessage =>
    intro m data hm hwrite
    exact decodes_regular hm hwrite
  case message =>
    intro m data hm hwrite
    have hread := decodes_mlsMessage hm hwrite
    exact ⟨hread, unmarshal_of_decodes hread _, fun _ => unmarshal_append hread _⟩

/-- Removing the only member leaves a tree of the smallest full width that is
written as an empty vector, which the parser rejects. -/
theorem blank_tree_not_read_back :
    ∃ t data, (RatchetTree.newRatchetTree (RatchetTree.sampleLeaf 1)).removeLeaf 0 = .ok t ∧
      t.SmallestFullWidth ∧ t.marshal = .ok data ∧
      RatchetTree.parseRatchetTree data = fail "tree: empty ratchet_tree" := by
  refine ⟨⟨[none]⟩, [0], by decide +kernel, ⟨0, rfl, ?_⟩, by decide +kernel, by decide +kernel⟩
  intro i hi
  omega

end MlsGo
