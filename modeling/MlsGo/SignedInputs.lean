import MlsGo.CanonicalForms
import MlsGo.MessageLaws
import MlsGo.TreeSync

/-!
# What a signature says

Contents and leaves are signed as plain concatenations: inline proposals and
commits carry no length, and the group context or the leaf position follows
only for some senders and sources.  Every component is prefix free, so the
signed bytes still determine the signed values, and a signature that binds its
message binds the wire format, the content and the position it was made for.
-/

namespace MlsGo

open DecoderLaws

variable {S : Suite} {fc : FramedContent} {wf : WireFormat} {gc : GroupContext}
    {tbs groupID : Bytes} {l : LeafNode} {leafIndex : UInt32} {signer : Option Signer}
    {wf' : WireFormat} {gc' : GroupContext}

/-! ## Contents a decoder returns -/

def FramedContent.Decoded (fc : FramedContent) : Prop :=
  ∃ data rest, decodeContent fc.contentType data = .ok (fc.content, rest)

theorem FramedContent.Decoded.inline (hfc : fc.Decoded) : fc.Inline := by
  obtain ⟨data, rest, hread⟩ := hfc
  intro body hwrite
  unfold decodeContent at hread ⊢
  unfold marshalContent at hwrite
  split at hread
  next happlication =>
    simp only [if_pos happlication] at hwrite ⊢
    exact roundTrips_opaqueV _ _ hwrite
  next happlication =>
  rw [if_neg happlication] at hwrite ⊢
  split at hread
  next hproposal =>
    rw [if_pos (.inl hproposal)] at hwrite
    cases hwrite
    rw [if_pos hproposal]
    exact (delimits_skim delimits_skimProposal hread).2
  next hproposal =>
  rw [if_neg hproposal]
  split at hread
  next hcommit =>
    rw [if_pos (.inr hcommit)] at hwrite
    cases hwrite
    rw [if_pos hcommit]
    exact (delimits_skim delimits_skimCommit hread).2
  · exact absurd (decoder_lift_eq_ok.mp hread).1 fail_ne_ok

/-! ## Framed contents -/

def Sender.bindsContext : Sender → Bool
  | .member _ | .newMemberCommit => true
  | .external _ | .newMemberProposal => false

structure SameContent (wf wf' : WireFormat) (fc fc' : FramedContent)
    (gc gc' : GroupContext) : Prop where
  wireFormat : wf = wf'
  content : fc = fc'
  context : fc.sender.bindsContext = true → gc = gc'

theorem WireFormat.code_injective (hcode : wf.code = wf'.code) : wf = wf' := by
  cases wf <;> cases wf' <;> first | rfl | exact absurd hcode (by decide)

theorem framedContentTBS_eq_ok (htbs : framedContentTBS wf fc gc = .ok tbs) :
    ∃ content context, fc.marshal = .ok content ∧
      tbs = writeUint16 1 ++ (writeUint16 wf.code ++ (content ++ context)) ∧
      (fc.sender.bindsContext = true → gc.marshal = .ok context) := by
  obtain ⟨content, hcontent, htbs⟩ := bind_eq_ok.mp htbs
  cases hsender : fc.sender with
  | member _ | newMemberCommit =>
      rw [hsender] at htbs
      obtain ⟨context, hcontext, hpair⟩ := bind_eq_ok.mp htbs
      cases hpair
      exact ⟨content, context, hcontent, by simp only [List.append_assoc], fun _ => hcontext⟩
  | external _ | newMemberProposal =>
      rw [hsender] at htbs
      cases htbs
      exact ⟨content, [], hcontent, by rw [List.append_nil],
        fun hbinds => absurd hbinds Bool.false_ne_true⟩

theorem framedContentTBS_injective {fc' : FramedContent} (hfc : fc.Decoded) (hfc' : fc'.Decoded)
    (htbs : framedContentTBS wf fc gc = .ok tbs) (htbs' : framedContentTBS wf' fc' gc' = .ok tbs) :
    SameContent wf wf' fc fc' gc gc' := by
  obtain ⟨content, context, hcontent, rfl, hcontext⟩ := framedContentTBS_eq_ok htbs
  obtain ⟨content', context', hcontent', heq, hcontext'⟩ := framedContentTBS_eq_ok htbs'
  obtain ⟨-, heq⟩ := (decodes_readUint16 1).unique (decodes_readUint16 1) heq
  obtain ⟨hcode, heq⟩ := (decodes_readUint16 wf.code).unique (decodes_readUint16 wf'.code) heq
  obtain ⟨rfl, rfl⟩ := (decodes_framedContent hfc.inline hcontent).unique
    (decodes_framedContent hfc'.inline hcontent') heq
  refine ⟨WireFormat.code_injective hcode, rfl, fun hbinds => ?_⟩
  exact (roundTrips_groupContext _ _ (hcontext hbinds)).value_unique
    (roundTrips_groupContext _ _ (hcontext' hbinds))

/-! ## Leaves -/

def LeafNodeSource.bindsPosition : LeafNodeSource → Bool
  | .keyPackage _ => false
  | .update | .commit _ => true

structure SameLeaf (l l' : LeafNode) (groupID groupID' : Bytes)
    (leafIndex leafIndex' : UInt32) : Prop where
  leaf : { l with signature := l'.signature } = l'
  position : l.leafNodeSource.bindsPosition = true → groupID = groupID' ∧ leafIndex = leafIndex'

/-- A leaf is its contents followed by the signature; the reader of the
contents is the reader of the leaf stopped before the signature. -/
def decodeLeafNodeContents : Cursor (Bytes → LeafNode) := do
  let encryptionKey ← readOpaqueV
  let signatureKey ← readOpaqueV
  let credential ← decodeCredential
  let capabilities ← decodeCapabilities
  let leafNodeSource ← decodeLeafNodeSource
  let extensions ← readVectorV decodeExtension
  return fun signature => ⟨encryptionKey, signatureKey, credential,
    capabilities, leafNodeSource, extensions, signature⟩

theorem decodes_leafNodeContents {contents : Bytes} (hwrite : l.marshalContents = .ok contents) :
    Decodes decodeLeafNodeContents contents
      fun signature => { l with signature := signature } := by
  simp only [LeafNode.marshalContents, bind_eq_ok, pure_ok_iff] at hwrite
  obtain ⟨encryptionKey, hencryption, signatureKey, hsignatureKey, credential, hcredential,
    capabilities, hcapabilities, source, hsource, extensions, hextensions, rfl⟩ := hwrite
  exact (roundTrips_opaqueV _ _ hencryption).bind <|
    (roundTrips_opaqueV _ _ hsignatureKey).bind <|
    (roundTrips_credential _ _ hcredential).bind <|
    (roundTrips_capabilities _ _ hcapabilities).bind <|
    (roundTrips_leafNodeSource _ _ hsource).bind
    (roundTrips_extensions _ _ hextensions).last

theorem LeafNode.tbs_eq_ok (htbs : l.tbs groupID leafIndex.toNat = .ok tbs) :
    ∃ contents position, l.marshalContents = .ok contents ∧
      tbs = contents ++ position ∧
      (l.leafNodeSource.bindsPosition = true → ∃ group,
        writeOpaqueV groupID = .ok group ∧ position = group ++ writeUint32 leafIndex) := by
  obtain ⟨contents, hcontents, htbs⟩ := bind_eq_ok.mp htbs
  cases hsource : l.leafNodeSource with
  | keyPackage lifetime =>
      rw [hsource] at htbs
      obtain rfl : contents = tbs := Except.ok.inj htbs
      exact ⟨contents, [], hcontents, (List.append_nil _).symm,
        fun hbinds => absurd hbinds Bool.false_ne_true⟩
  | update | commit _ =>
      rw [hsource] at htbs
      obtain ⟨group, hgroup, hpair⟩ := bind_eq_ok.mp htbs
      cases hpair
      exact ⟨contents, _, hcontents, rfl, fun _ => ⟨group, hgroup, rfl⟩⟩

theorem LeafNode.tbs_injective {l' : LeafNode} {groupID' : Bytes} {leafIndex' : UInt32}
    (htbs : l.tbs groupID leafIndex.toNat = .ok tbs)
    (htbs' : l'.tbs groupID' leafIndex'.toNat = .ok tbs) :
    SameLeaf l l' groupID groupID' leafIndex leafIndex' := by
  obtain ⟨contents, position, hcontents, rfl, hposition⟩ := l.tbs_eq_ok htbs
  obtain ⟨contents', position', hcontents', heq, hposition'⟩ := l'.tbs_eq_ok htbs'
  obtain ⟨hbuild, rfl⟩ := (decodes_leafNodeContents hcontents).unique
    (decodes_leafNodeContents hcontents') heq
  have hleaf : { l with signature := l'.signature } = l' := congrFun hbuild l'.signature
  refine ⟨hleaf, fun hbinds => ?_⟩
  have hsource : l'.leafNodeSource = l.leafNodeSource := by rw [← hleaf]
  obtain ⟨group, hgroup, rfl⟩ := hposition hbinds
  obtain ⟨group', hgroup', heq⟩ := hposition' (hsource ▸ hbinds)
  obtain ⟨hgroupID, hindex⟩ := roundTrips_opaqueV.injective hgroup hgroup' heq
  exact ⟨hgroupID, (decodes_readUint32 leafIndex).value_unique
    (hindex ▸ decodes_readUint32 leafIndex')⟩

/-! ## Signatures -/

def Suite.SignatureBinds (S : Suite) : Prop :=
  ∀ {signer pub message other sig},
    S.signaturePublicKey signer = .ok pub →
    S.signClassical signer message = .ok sig →
    S.verifyClassical pub other sig = true → message = other

theorem labeledContext_injective {label : String} {content other info : Bytes}
    (hcontent : labeledContext label content = .ok info)
    (hother : labeledContext label other = .ok info) : content = other := by
  simp only [labeledContext, bind_eq_ok, pure_ok_iff] at hcontent hother
  obtain ⟨lbl, hlbl, body, hbody, rfl⟩ := hcontent
  obtain ⟨lbl', hlbl', body', hbody', heq⟩ := hother
  obtain ⟨-, rfl⟩ := roundTrips_opaqueV.injective hlbl hlbl' heq.symm
  exact (roundTrips_opaqueV _ _ hbody).value_unique (roundTrips_opaqueV _ _ hbody')

theorem Suite.SignatureBinds.withLabel (hbinds : S.SignatureBinds) {label : String}
    {pub content other sig : Bytes} (hpub : S.publicKeyOf signer = .ok pub)
    (hsign : S.signWithLabel signer label content = .ok sig)
    (hverify : S.verifyWithLabel pub label other sig = true) :
    content = other := by
  obtain ⟨message, hmessage, hsign⟩ := bind_eq_ok.mp hsign
  cases signer with
  | none => cases hsign
  | some signer =>
      simp only [Suite.verifyWithLabel] at hverify
      split at hverify
      next message' hmessage' =>
        have heq : message = message' :=
          hbinds (liftErr_eq_ok.mp hpub) (liftErr_eq_ok.mp hsign) hverify
        exact labeledContext_injective hmessage (heq ▸ hmessage')
      · cases hverify

theorem Suite.SignatureBinds.content (hbinds : S.SignatureBinds) {pub : Bytes}
    {ac : AuthenticatedContent} (hpub : S.publicKeyOf signer = .ok pub) (hfc : fc.Decoded)
    (hac : ac.content.Decoded) (hsign : signContent S wf fc signer gc = .ok ac.auth.signature)
    (hverify : ac.verify S pub gc' = true) :
    SameContent wf ac.wireFormat fc ac.content gc gc' := by
  obtain ⟨tbs, htbs, hsign⟩ := bind_eq_ok.mp hsign
  simp only [AuthenticatedContent.verify] at hverify
  split at hverify
  next tbs' htbs' =>
    obtain rfl := hbinds.withLabel hpub hsign hverify
    exact framedContentTBS_injective hfc hac htbs htbs'
  · cases hverify

theorem Suite.SignatureBinds.leaf (hbinds : S.SignatureBinds) {signed l' : LeafNode}
    {groupID' : Bytes} {leafIndex' : UInt32} (hpub : S.publicKeyOf signer = .ok l'.signatureKey)
    (hsign : signLeafNode S signer l groupID leafIndex.toNat = .ok signed)
    (hsignature : l'.signature = signed.signature)
    (hverify : l'.verifySignature S groupID' leafIndex'.toNat = .ok true) :
    SameLeaf signed l' groupID groupID' leafIndex leafIndex' := by
  obtain ⟨tbs, htbs, hsign⟩ := bind_eq_ok.mp hsign
  obtain ⟨sig, hsig, hpair⟩ := bind_eq_ok.mp hsign
  cases hpair
  obtain ⟨tbs', htbs', hverify⟩ := bind_eq_ok.mp hverify
  simp only [pure_ok_iff] at hverify
  rw [hsignature] at hverify
  obtain rfl := hbinds.withLabel hpub hsig hverify
  exact LeafNode.tbs_injective htbs htbs'

theorem signed_inputs_unambiguous :
    (∀ {wf wf' : WireFormat} {fc fc' : FramedContent} {gc gc' : GroupContext} {tbs : Bytes},
      fc.Decoded → fc'.Decoded → framedContentTBS wf fc gc = .ok tbs →
      framedContentTBS wf' fc' gc' = .ok tbs → SameContent wf wf' fc fc' gc gc') ∧
    (∀ {l l' : LeafNode} {groupID groupID' tbs : Bytes} {leafIndex leafIndex' : UInt32},
      l.tbs groupID leafIndex.toNat = .ok tbs → l'.tbs groupID' leafIndex'.toNat = .ok tbs →
      SameLeaf l l' groupID groupID' leafIndex leafIndex') ∧
    (∀ {S : Suite}, S.SignatureBinds →
      (∀ {signer : Option Signer} {pub : Bytes} {wf : WireFormat} {fc : FramedContent}
        {ac : AuthenticatedContent} {gc gc' : GroupContext}, S.publicKeyOf signer = .ok pub →
        fc.Decoded → ac.content.Decoded → signContent S wf fc signer gc = .ok ac.auth.signature →
        ac.verify S pub gc' = true → SameContent wf ac.wireFormat fc ac.content gc gc') ∧
      (∀ {signer : Option Signer} {l signed l' : LeafNode} {groupID groupID' : Bytes}
        {leafIndex leafIndex' : UInt32}, S.publicKeyOf signer = .ok l'.signatureKey →
        signLeafNode S signer l groupID leafIndex.toNat = .ok signed →
        l'.signature = signed.signature → l'.verifySignature S groupID' leafIndex'.toNat =
        .ok true → SameLeaf signed l' groupID groupID' leafIndex leafIndex')) :=
  ⟨framedContentTBS_injective, LeafNode.tbs_injective, fun hbinds => ⟨hbinds.content, hbinds.leaf⟩⟩

/-! ### A suite whose signatures bind -/

def bindingSuite : Suite :=
  { plainSuite with
    signClassical := fun signer message => .ok (signer.key ++ message)
    verifyClassical := fun pub message sig => sig = pub ++ message }

theorem bindingSuite_binds : bindingSuite.SignatureBinds := by
  rintro signer pub message other sig ⟨⟩ ⟨⟩ hverify
  have heq : signer.key ++ message = signer.key ++ other := of_decide_eq_true hverify
  exact List.append_cancel_left heq

def greeting : FramedContent := ⟨[7], 0, .member 0, [], contentTypeApplication, [1, 2]⟩

theorem greeting_decoded : greeting.Decoded := ⟨[2, 1, 2], [], by decide⟩

def greetingContext : GroupContext := ⟨1, 1, [7], 0, [], [], []⟩

/-- The signature over the greeting verifies, for the greeting in its context
only. -/
theorem signed_inputs_unambiguous_greeting :
    ∃ sig, signContent bindingSuite .publicMessage greeting (some ⟨[9]⟩)
        greetingContext = .ok sig ∧
      ∀ (ac : AuthenticatedContent) (gc : GroupContext), ac.content.Decoded →
        ac.auth.signature = sig →
        (ac.verify bindingSuite [9] gc = true ↔
          ac.wireFormat = .publicMessage ∧ ac.content = greeting ∧ gc = greetingContext) := by
  obtain ⟨sig, hsign, hverify⟩ : ∃ sig, signContent bindingSuite .publicMessage greeting
        (some ⟨[9]⟩) greetingContext = .ok sig ∧
      (AuthenticatedContent.mk .publicMessage greeting ⟨sig, []⟩).verify bindingSuite [9]
        greetingContext = true := by decide +kernel
  refine ⟨sig, hsign, fun ac gc hac hsignature => ⟨fun hac' => ?_, ?_⟩⟩
  · have hsame : SameContent .publicMessage ac.wireFormat greeting ac.content greetingContext gc :=
      (signed_inputs_unambiguous.2.2 bindingSuite_binds).1 rfl greeting_decoded
        hac (hsignature ▸ hsign) hac'
    exact ⟨hsame.wireFormat.symm, hsame.content.symm, (hsame.context rfl).symm⟩
  · rintro ⟨hwire, hcontent, rfl⟩
    obtain ⟨wf, fc, ⟨signature, tag⟩⟩ := ac
    obtain rfl : wf = .publicMessage := hwire
    obtain rfl : fc = greeting := hcontent
    obtain rfl : signature = sig := hsignature
    exact hverify

end MlsGo
