import MlsGo.CommitRuns
import MlsGo.JoinerKeys
import MlsGo.ObjectLaws
import MlsGo.WireCopies

/-!
# Committer and receiver reach the same epoch

`Commit` and `ProcessCommit` are two separately written procedures.  Started in
the same epoch they end in the same epoch: the receiver reads the committer's
message, resolves the same proposals, opens the update path with keys that fit
the tree, and derives the same secrets.
-/

namespace MlsGo

open DecoderLaws InOrderLayout

variable {S : Suite} {fc : FramedContent} {sig : Bytes} {signer : Option Signer} {wf : WireFormat}
    {R : ℕ} {gc : GroupContext} {priv workingPriv : TreeKEMPrivate} {t : RatchetTree}

structure SameEpoch (g g' : Group) : Prop where
  groupContext_eq : g.groupContext = g'.groupContext
  tree_eq : g.tree = g'.tree
  epoch_eq : g.epoch = g'.epoch
  initSecret_eq : g.initSecret = g'.initSecret
  interim_eq : g.interim = g'.interim
  secretTree_eq : g.secretTree = g'.secretTree

/-- The state of a member: the tree is well formed and has the member, and the
secret tree is the one of the epoch. -/
structure Group.Consistent (S : Suite) (g : Group) : Prop where
  tree_invariant : g.tree.RepresentationInvariant
  own_member : g.ownLeaf ∈ g.tree.members
  secretTree_eq : newSecretTree S g.tree.leafCount g.epoch.encryptionSecret = .ok g.secretTree

def Group.SignsAsLeaf (S : Suite) (g : Group) : Prop :=
  ∃ ln, g.tree.leafNodeAt g.ownLeaf = .ok ln ∧ S.publicKeyOf g.signer = .ok ln.signatureKey

variable {c r : Group} {opt : CommitOptions} {rnd : CommitRandomness}
  {d : CommitDraft} {res : CommitResult}

/-! ## Proposals delivered before the commit -/

theorem SameEpoch.authenticateProposalMessage_eq (hsame : SameEpoch c r) :
    r.authenticateProposalMessage S = c.authenticateProposalMessage S := by
  funext propBytes
  have hlookup : r.sigPubByLeaf = c.sigPubByLeaf := by
    funext leaf
    simp only [Group.sigPubByLeaf, hsame.tree_eq]
  simp only [Group.authenticateProposalMessage, hsame.tree_eq,
    hsame.groupContext_eq, hsame.epoch_eq, hsame.secretTree_eq, hlookup]

theorem SameEpoch.cacheProposals_eq (hsame : SameEpoch c r) {caller : String}
    (caller' : String) {messages : List Bytes} {idx : ℕ} (idx' : ℕ)
    {cache : ProposalCache} {out : List Bytes × ProposalCache}
    (hrun : c.cacheProposals S caller messages idx cache = .ok out) :
    r.cacheProposals S caller' messages idx' cache = .ok out := by
  induction messages generalizing idx idx' cache out with
  | nil => exact hrun
  | cons message rest ih =>
      simp only [Group.cacheProposals, bind_eq_ok, within_eq_ok, pure_ok_iff] at hrun ⊢
      obtain ⟨⟨ref, entry⟩, hentry, ⟨refs, cache'⟩, hrest, hout⟩ := hrun
      rw [hsame.authenticateProposalMessage_eq]
      exact ⟨(ref, entry), hentry, (refs, cache'), ih (idx' + 1) hrest, hout⟩

/-! ## Opening the message -/

theorem DraftRun.content_inline (a : DraftRun S c opt rnd d) : d.content.Inline := by
  intro body hbody
  rw [a.content_eq] at hbody ⊢
  cases hbody
  exact decodes_skim (decodes_skimCommit a.commitBody_eq)

theorem sign_of_signCommit {input : Bytes}
    (hsign : signCommit S signer gc fc wf = .ok (input, sig)) :
    signContent S wf fc signer gc = .ok sig := by
  simp only [signCommit, bind_eq_ok, pure_ok_iff, Prod.mk.injEq] at hsign
  obtain ⟨sig, hsig, content, -, encoded, -, -, rfl⟩ := hsign
  exact hsig

def CommitDraft.authenticated (d : CommitDraft) (wireFormat : WireFormat) :
    AuthenticatedContent := ⟨wireFormat, d.content, ⟨d.signature, d.confTag⟩⟩

theorem SameEpoch.authenticateCommit_public (hlaws : SuiteLaws S) (hsame : SameEpoch c r)
    (hown : c.ownLeaf < 2 ^ 32) (hsigner : c.SignsAsLeaf S) {tag commit : Bytes}
    {pm : PublicMessage} (hsender : fc.sender = .member (UInt32.ofNat c.ownLeaf))
    (htype : fc.contentType = contentTypeCommit) (hinline : fc.Inline)
    (hsign : signContent S .publicMessage fc c.signer c.groupContext = .ok sig)
    (hpm : assembleCommitPublic S c.groupContext c.epoch.membershipKey fc sig tag = .ok pm)
    (hbytes : MLSMessage.marshal ⟨1, .publicMessage pm⟩ = .ok commit) :
    unmarshalMLSMessage commit = .ok ⟨1, .publicMessage pm⟩ ∧
      MLSMessage.isExternalCommit ⟨1, .publicMessage pm⟩ = false ∧
      r.authenticateCommit S ⟨1, .publicMessage pm⟩ = .ok ⟨.publicMessage, fc, ⟨sig, tag⟩⟩ := by
  obtain ⟨ln, hleaf, hpub⟩ := hsigner
  simp only [assembleCommitPublic, bind_eq_ok, pure_ok_iff] at hpm
  obtain ⟨tbm, htbm, rfl⟩ := hpm
  obtain ⟨body, hbody, -⟩ := bind_eq_ok.mp hbytes
  have hdec := decodes_publicMessage hinline (fun hne => absurd htype hne)
    (fun hnot => by simp [hsender, Sender.isMember] at hnot) hbody
  refine ⟨unmarshalMLSMessage_public hbody hdec hbytes, ?_, ?_⟩
  · simp [MLSMessage.isExternalCommit, hsender]
  · have hleafIndex : fc.sender.leafIndex = c.ownLeaf := by
      rw [hsender]
      exact UInt32.toNat_ofNat_of_lt' hown
    simp only [Group.authenticateCommit, hleafIndex, ← hsame.tree_eq, hleaf,
      within_ok, ok_bind, ← hsame.groupContext_eq, ← hsame.epoch_eq]
    exact unprotectPublic_of_sign hlaws.signaturesVerify hpub hsign (fun _ => ⟨tbm, htbm, rfl⟩)

theorem SameEpoch.authenticateCommit_eq (hlaws : SuiteLaws S) (hsame : SameEpoch c r)
    (hown : c.ownLeaf < 2 ^ 32) (hsigner : c.SignsAsLeaf S) (a : DraftRun S c opt rnd d)
    (b : FinishRun S c d rnd res) :
    unmarshalMLSMessage res.commit = .ok b.message ∧ b.message.isExternalCommit = false ∧
      r.authenticateCommit S b.message = .ok (d.authenticated c.wireFormat) := by
  have hcontent := a.content_eq
  have hsign := sign_of_signCommit a.signature_eq
  have hmessage := b.message_eq
  have hbytes := b.commit_eq
  have htype : d.content.contentType = contentTypeCommit := by rw [hcontent]
  have hsender : d.content.sender = .member (UInt32.ofNat c.ownLeaf) := by rw [hcontent]
  rw [Group.assembleCommit] at hmessage
  cases hwf : c.wireFormat with
  | publicMessage =>
      simp only [hwf, bind_eq_ok, within_eq_ok, pure_ok_iff] at hmessage
      obtain ⟨pm, hpm, hm⟩ := hmessage
      rw [hwf] at hsign
      rw [← hm] at hbytes ⊢
      exact hsame.authenticateCommit_public hlaws hown hsigner hsender htype a.content_inline
        hsign hpm hbytes
  | privateMessage =>
      simp only [hwf, bind_eq_ok, within_eq_ok, pure_ok_iff] at hmessage
      obtain ⟨pm, hpm, hm⟩ := hmessage
      rw [hwf] at hsign
      rw [← hm] at hbytes ⊢
      refine ⟨unmarshalMLSMessage_private hbytes, rfl, ?_⟩
      obtain ⟨ln, hleaf, hpub⟩ := hsigner
      have hseal : sealPrivate S c.secretTree c.epoch.senderDataSecret d.content
          ⟨d.signature, d.confTag⟩ c.handshakeGeneration rnd.guard 0 = .ok pm := by
        rw [assembleCommitPrivate, if_neg (by simp [hsender, Sender.isMember])] at hpm
        exact hpm
      have hlookup : r.sigPubByLeaf (UInt32.ofNat c.ownLeaf).toNat = .ok ln.signatureKey := by
        rw [UInt32.toNat_ofNat_of_lt' hown, Group.sigPubByLeaf, ← hsame.tree_eq, hleaf, ok_bind]
        rfl
      simp only [Group.authenticateCommit, ← hsame.groupContext_eq,
        ← hsame.secretTree_eq, ← hsame.epoch_eq]
      exact unprotectPrivate_of_seal hlaws.aeadInverts hlaws.signaturesVerify
        hsender a.content_inline (fun hne => absurd htype hne) hsign hpub hlookup hseal

/-! ## Transcript -/

theorem splitAuthenticatedContent_marshal {tag content sigBytes tagBytes : Bytes}
    (htype : fc.contentType = contentTypeCommit) (hlen : tag.length = S.hashLen)
    (hcontent : fc.marshal = .ok content) (hsig : writeOpaqueV sig = .ok sigBytes)
    (htag : writeOpaqueV tag = .ok tagBytes) :
    ∃ acBytes, AuthenticatedContent.marshal ⟨wf, fc, ⟨sig, tag⟩⟩ = .ok acBytes ∧
      splitAuthenticatedContent S acBytes =
        .ok (writeUint16 wf.code ++ (content ++ sigBytes), tag) := by
  refine ⟨writeUint16 wf.code ++ (content ++ (sigBytes ++ tagBytes)), ?_, ?_⟩
  · simp [AuthenticatedContent.marshal, FramedContentAuthData.marshal, hcontent, hsig, htag, htype]
  · obtain ⟨header, hheader, rfl⟩ := writeOpaqueV_eq_ok.mp htag
    have hfield : writeOpaqueV (List.replicate S.hashLen 0) =
        .ok (header ++ List.replicate S.hashLen 0) := by
      rw [writeOpaqueV, List.length_replicate, ← hlen, hheader, ok_bind]
      rfl
    have hinput : writeUint16 wf.code ++ (content ++ (sigBytes ++ (header ++ tag))) =
        (writeUint16 wf.code ++ (content ++ sigBytes)) ++ (header ++ tag) := by
      simp only [List.append_assoc]
    rw [hinput, splitAuthenticatedContent, hfield, ok_bind]
    generalize writeUint16 wf.code ++ (content ++ sigBytes) = input
    have hcut : (input ++ (header ++ tag)).length -
        (header ++ List.replicate S.hashLen 0).length = input.length := by
      simp only [List.length_append, List.length_replicate]
      omega
    have hcut' : (input ++ (header ++ tag)).length - S.hashLen = (input ++ header).length := by
      simp only [List.length_append]
      omega
    rw [if_neg (by simp; omega), hcut, hcut', List.take_left, ← List.append_assoc, List.drop_left]
    rfl

theorem split_of_signCommit {input tag tagBytes : Bytes}
    (htype : fc.contentType = contentTypeCommit) (hlen : tag.length = S.hashLen)
    (hsign : signCommit S signer gc fc wf = .ok (input, sig))
    (htag : writeOpaqueV tag = .ok tagBytes) :
    ∃ acBytes, AuthenticatedContent.marshal ⟨wf, fc, ⟨sig, tag⟩⟩ = .ok acBytes ∧
      splitAuthenticatedContent S acBytes = .ok (input, tag) := by
  simp only [signCommit, bind_eq_ok, pure_ok_iff, Prod.mk.injEq] at hsign
  obtain ⟨sig, -, content, hcontent, sigBytes, hsigBytes, rfl, rfl⟩ := hsign
  exact splitAuthenticatedContent_marshal htype hlen hcontent hsigBytes htag

/-! ## The path -/

theorem receivePath_eq (hlaws : SuiteLaws S) (hinv : t.RepresentationInvariant) {data : Bytes}
    (hwrite : t.marshal = .ok data) {senderLeaf : ℕ} {leafSecret : Bytes} {groupID : Bytes}
    {newlyAdded : List ℕ} {mkGroupContext : Bytes → Result Bytes} {seeds : ℕ → ℕ → Bytes}
    {gp : RatchetTree.GeneratedPath} (p : RatchetTree.PathRun S t senderLeaf leafSecret signer
    groupID newlyAdded mkGroupContext seeds gp) (hfits : RatchetTree.Fits S t R priv)
    (hmember : R ∈ t.members) (hother : senderLeaf % 2 ^ 31 ≠ R)
    (hnew : ∀ li ∈ newlyAdded, li % 2 ^ 31 ≠ R) (caller : String) (encGC : Bytes → GroupContext)
    (hcontext : (encGC p.treeHash).marshal = .ok p.groupContext) :
    ∃ node secret, (node, secret) ∈ gp.pathSecretByNode ∧
      t.Reaches (u32 (2 * senderLeaf)) priv (RatchetTree.addedNodes newlyAdded) node ∧
      receivePath S caller t senderLeaf gp.updatePath priv encGC newlyAdded =
        .ok ⟨gp.tree, p.treeHash, secret, some gp.commitSecret⟩ := by
  obtain ⟨h, hf, -⟩ := hinv.full
  obtain ⟨node, secret, hmem, hreaches, hprocess⟩ := p.processUpdatePath_eq
    hlaws.opensSealed hf hinv.wellFormed hfits hmember hother hnew
  refine ⟨node, secret, hmem, hreaches, ?_⟩
  simp only [receivePath, hinv.clone_eq ⟨R, hmember⟩ hwrite, within_ok, ok_bind, p.merge_eq,
    p.treeHash_eq, hcontext, hprocess, orZeros, Option.getD_some, pure_eq_ok]

theorem RatchetTree.Fits.own_key (hfits : RatchetTree.Fits S t R priv)
    (hinv : t.RepresentationInvariant) (hmember : R ∈ t.members) :
    ∃ ownKey, priv.privateKey (u32 (2 * R)) = some ownKey := by
  obtain ⟨n, hn⟩ := Option.ne_none_iff_exists'.mp hmember
  obtain ⟨l, rfl⟩ := hinv.wellFormed.leaf_slot _ n hn
  have hheld := hfits.held 0 (.leaf l) (by simpa using hn) (by simp [Node.Lists])
  have hlt := hinv.member_lt hmember
  rw [RatchetTree.u32_double, Nat.mod_eq_of_lt (by omega)]
  simpa using hheld

/-- The private state after a commit: unchanged if no secret was read, else the
own leaf key and the keys from the fork of the two paths up to the root. -/
theorem rebuildPriv_spec (hkdf : KdfLaws S) {h L : ℕ} (hh : h ≤ 31)
    (hL : L < 2 ^ h) (hR : R < 2 ^ h) (hne : L ≠ R) {ownLeaf committerLeaf : ℕ}
    (hown : ownLeaf % 2 ^ 31 = R) (hcommitter : committerLeaf % 2 ^ 31 = L) {ownKey : Bytes}
    (hkey : workingPriv.privateKey (u32 (2 * ownLeaf)) = some ownKey)
    (caller : String) (secret : Bytes) :
    ∃ newPriv, rebuildPriv S caller ownLeaf committerLeaf (2 ^ h) workingPriv
        secret = .ok newPriv ∧
      (secret = [] → newPriv = workingPriv) ∧
      (secret ≠ [] → ∃ k < h, R / 2 ^ k = siblingRank (L / 2 ^ k) ∧
        JoinerKeys S h R (k + 1) secret (TreeKEMPrivate.new ownLeaf ownKey) newPriv) := by
  unfold rebuildPriv
  by_cases hnil : secret = []
  · exact ⟨workingPriv, by rw [if_pos hnil], fun _ => rfl, fun hne => absurd hnil hne⟩
  · obtain ⟨k, hk, hfork, -⟩ := RatchetTree.exists_fork hL hR hne
    obtain ⟨newPriv, hrun, hkeys⟩ := installJoinerPriv_spec hkdf hh hL hR hk
      hfork hown hcommitter (TreeKEMPrivate.new ownLeaf ownKey) secret
    refine ⟨newPriv, ?_, fun heq => absurd heq hnil, fun _ => ⟨k, hk, hfork, hkeys⟩⟩
    rw [if_neg hnil, hkey]
    simp only [hrun, within_ok]

/-! ## The whole commit -/

/-- The proposals of a commit, by reference and by value, as the committer
resolves them. -/
structure Group.Resolves (S : Suite) (c : Group) (opt : CommitOptions)
    (refs : List Bytes) (cache : ProposalCache) (resolved : List Resolved) :
    Prop where
  cache_eq : c.cacheProposals S "group: Commit: by-reference" opt.byReference 0
    [] = .ok (refs, cache)
  resolved_eq : resolveProposals cache c.ownLeaf (commitProposals refs opt.byValue) = .ok resolved

/-- What a receiver needs to follow a commit: it is another member that is not
removed, it resolves the pre-shared keys to the committer's values, and its
private keys fit the tree after the proposals. -/
structure CanFollow (S : Suite) (c r : Group) (opt : CommitOptions)
    (applied : AppliedProposals) : Prop where
  other : r.ownLeaf ≠ c.ownLeaf
  follows : ∀ refs cache resolved, c.Resolves S opt refs cache resolved →
    r.ownLeaf ∉ removedBy resolved ∧
    collectPSKs r.externalPSKs r.resumptionPSKs r.groupContext.groupID resolved =
      collectPSKs c.externalPSKs c.resumptionPSKs c.groupContext.groupID resolved ∧
    ∃ own, r.resolveOwnUpdatePriv cache c.ownLeaf
        (commitProposals refs opt.byValue) = .ok own ∧
      RatchetTree.Fits S applied.tree r.ownLeaf (r.workingPriv own)

def CommitDraft.receiverState (d : CommitDraft) (b : FinishRun S c d rnd res)
    (r : Group) (newPriv : TreeKEMPrivate) : Group :=
  { r.advance d.path.tree d.newGC d.secrets b.interim newPriv b.secretTree with
    handshakeGeneration := 0 }

/-- The private keys of a receiver after the commit, from those it read the
path with. -/
structure FollowedPriv (S : Suite) (c r : Group) (d : CommitDraft)
    (workingPriv newPriv : TreeKEMPrivate) (node : ℕ) (secret : Bytes) :
    Prop where
  entry : (node, secret) ∈ d.path.pathSecretByNode
  reaches : d.applied.tree.Reaches (u32 (2 * c.ownLeaf)) workingPriv
    (RatchetTree.addedNodes d.applied.newlyAdded) node
  unchanged : secret = [] → newPriv = workingPriv
  rebuilt : secret ≠ [] → ∀ h, d.applied.tree.Full h → ∃ k < h, ∃ ownKey,
    r.ownLeaf / 2 ^ k = siblingRank (c.ownLeaf / 2 ^ k) ∧
    workingPriv.privateKey (u32 (2 * r.ownLeaf)) = some ownKey ∧
    JoinerKeys S h r.ownLeaf (k + 1) secret (TreeKEMPrivate.new r.ownLeaf ownKey) newPriv

/-- The private keys of the reader of a path, from those it read the path with. -/
structure PathRead (S : Suite) (t : RatchetTree) (gp : RatchetTree.GeneratedPath)
    (sender reader : ℕ) (skipped : List ℕ) (workingPriv newPriv : TreeKEMPrivate)
    (node : ℕ) (secret : Bytes) : Prop where
  entry : (node, secret) ∈ gp.pathSecretByNode
  reaches : t.Reaches (u32 (2 * sender)) workingPriv skipped node
  rebuilt : secret ≠ [] → ∀ h, t.Full h → ∃ k < h, ∃ ownKey,
    reader / 2 ^ k = siblingRank (sender / 2 ^ k) ∧
    workingPriv.privateKey (u32 (2 * reader)) = some ownKey ∧
    JoinerKeys S h reader (k + 1) secret (TreeKEMPrivate.new reader ownKey) newPriv

theorem FollowedPriv.pathRead {newPriv : TreeKEMPrivate} {node : ℕ}
    {secret : Bytes} (hfollowed : FollowedPriv S c r d workingPriv newPriv node secret) :
    PathRead S d.applied.tree d.path c.ownLeaf r.ownLeaf
      (RatchetTree.addedNodes d.applied.newlyAdded) workingPriv newPriv node secret :=
  ⟨hfollowed.entry, hfollowed.reaches, hfollowed.rebuilt⟩

theorem DraftRun.wt_eq_tree (a : DraftRun S c opt rnd d) (hc : c.Consistent S) : a.wt = c.tree :=
  hc.tree_invariant.eq_of_clone a.wt_eq

theorem DraftRun.applyRun (a : DraftRun S c opt rnd d) (hc : c.Consistent S) :
    Nonempty (ApplyRun c.tree (opt.body a.refs none) a.cache c.groupContext.extensions
      c.externalPSKs c.resumptionPSKs c.groupContext.groupID c.ownLeaf d.applied) := by
  have happlied := a.applied_eq
  rw [a.wt_eq_tree hc] at happlied
  exact applyRun_of_applyProposals happlied

theorem DraftRun.committerLeaf_eq (a : DraftRun S c opt rnd d) (hc : c.Consistent S) :
    (d.authenticated c.wireFormat).content.sender.leafIndex = c.ownLeaf := by
  have hlt := hc.tree_invariant.member_lt hc.own_member
  rw [CommitDraft.authenticated, a.content_eq]
  exact UInt32.toNat_ofNat_of_lt' (hlt.trans (by decide))

theorem SameEpoch.clone_eq (hsame : SameEpoch c r) (hc : c.Consistent S)
    (a : DraftRun S c opt rnd d) : r.tree.clone = .ok c.tree := by
  rw [← hsame.tree_eq, a.wt_eq, a.wt_eq_tree hc]

theorem SameEpoch.applyProposals_eq (hsame : SameEpoch c r) (a : DraftRun S c opt rnd d)
    (e : ApplyRun c.tree (opt.body a.refs none) a.cache c.groupContext.extensions c.externalPSKs
    c.resumptionPSKs c.groupContext.groupID c.ownLeaf d.applied) (hpsks :
    collectPSKs r.externalPSKs r.resumptionPSKs r.groupContext.groupID e.resolved =
    collectPSKs c.externalPSKs c.resumptionPSKs c.groupContext.groupID e.resolved) :
    applyProposals c.tree (opt.body a.refs (some d.path.updatePath)) a.cache
      r.groupContext.extensions r.externalPSKs r.resumptionPSKs
      r.groupContext.groupID c.ownLeaf = .ok d.applied := by
  rw [← hsame.groupContext_eq] at hpsks ⊢
  exact e.apply_eq rfl hpsks

theorem DraftRun.split_eq (hkdf : KdfLaws S) (a : DraftRun S c opt rnd d)
    (b : FinishRun S c d rnd res) :
    ∃ acBytes, (d.authenticated c.wireFormat).marshal = .ok acBytes ∧
      splitAuthenticatedContent S acBytes = .ok (a.confirmedInput, d.confTag) := by
  obtain ⟨tagBytes, htag, -⟩ := bind_eq_ok.mp b.interim_eq
  refine split_of_signCommit (by rw [a.content_eq]) ?_ a.signature_eq htag
  rw [a.confTag_eq]
  exact hkdf.mac_length _ _

theorem SameEpoch.processMemberCommit_eq (hlaws : SuiteLaws S)
    (hkdf : KdfLaws S) (hsame : SameEpoch c r) (hc : c.Consistent S)
    (hr : r.Consistent S) (a : DraftRun S c opt rnd d)
    (b : FinishRun S c d rnd res) (hfollow : CanFollow S c r opt d.applied)
    {data : Bytes} (hwrite : d.applied.tree.marshal = .ok data) :
    ∃ own newPriv node secret,
      r.resolveOwnUpdatePriv a.cache c.ownLeaf (commitProposals a.refs opt.byValue) = .ok own ∧
      FollowedPriv S c r d (r.workingPriv own) newPriv node secret ∧
      r.processMemberCommit S a.cache (d.authenticated c.wireFormat)
        (opt.body a.refs (some d.path.updatePath)) = .ok (d.receiverState b r newPriv) := by
  obtain ⟨e⟩ := a.applyRun hc
  obtain ⟨p⟩ := RatchetTree.pathRun_of_generateUpdatePath a.path_eq
  obtain ⟨hkept, hpsks, own, hown, hfits⟩ := hfollow.follows a.refs a.cache
    e.resolved ⟨a.cache_eq, e.resolved_eq⟩
  have hmember : r.ownLeaf ∈ c.tree.members := by
    rw [hsame.tree_eq]
    exact hr.own_member
  have hcLt := hc.tree_invariant.member_lt hc.own_member
  have hrLt := hc.tree_invariant.member_lt hmember
  obtain ⟨hmember', hnew⟩ := e.member_kept hc.tree_invariant hmember hkept
  have hinv := e.invariant hc.tree_invariant
  obtain ⟨h, hf, -⟩ := hinv.full
  have hcommitter : c.ownLeaf % 2 ^ 31 = c.ownLeaf := Nat.mod_eq_of_lt (by omega)
  have hreceiver : r.ownLeaf % 2 ^ 31 = r.ownLeaf := Nat.mod_eq_of_lt (by omega)
  obtain ⟨hL, -⟩ := p.sender_slot hf
  rw [hcommitter] at hL
  have hR : r.ownLeaf < 2 ^ h := hf.member_lt hmember'
  -- the path, read with the receiver's keys
  obtain ⟨node, secret, hentry, hreaches, hpath⟩ := receivePath_eq hlaws hinv hwrite p hfits
    hmember' (by rw [hcommitter]; exact hfollow.other.symm) (fun li hli heq => by
      rw [Nat.mod_eq_of_lt (by
        have := e.newlyAdded_lt hc.tree_invariant hli
        omega)] at heq
      exact hnew (heq ▸ hli))
    "group: ProcessCommit"
    (fun treeHash => c.groupContext.next treeHash
      c.groupContext.confirmedTranscriptHash d.applied.provisionalExt)
    p.groupContext_eq
  obtain ⟨entries, -, hi⟩ := p.installed_tree hf
  obtain ⟨ownKey, hownKey⟩ := hfits.own_key hinv hmember'
  obtain ⟨newPriv, hrebuild, hunchanged, hrebuilt⟩ := rebuildPriv_spec hkdf hf.le_thirtyOne hL hR
    hfollow.other.symm hreceiver hcommitter hownKey "group: ProcessCommit" secret
  refine ⟨own, newPriv, node, secret, hown, ⟨hentry, hreaches, hunchanged, ?_⟩, ?_⟩
  · intro hne h' hf'
    obtain rfl := hf.height_unique hf'
    obtain ⟨k, hk, hfork, hkeys⟩ := hrebuilt hne
    exact ⟨k, hk, ownKey, hfork, hownKey, hkeys⟩
  · obtain ⟨acBytes, hacBytes, hsplit⟩ := a.split_eq hkdf b
    have htreeHash : p.treeHash = a.newTreeHash := by
      have heq := p.treeHash_eq
      rw [a.treeHash_eq, Except.ok.injEq] at heq
      exact heq.symm
    have happlied := hsame.applyProposals_eq a e hpsks
    have hreceived : r.receiveCommitPath S d.applied c.ownLeaf
        (r.workingPriv own) (some d.path.updatePath) =
          .ok ⟨d.path.tree, a.newTreeHash, secret, some d.path.commitSecret⟩ := by
      rw [← htreeHash, ← hpath, hsame.groupContext_eq]
      rfl
    have hconfirmed : confirmedTranscriptHash S r.interim a.confirmedInput = d.confirmed := by
      rw [← hsame.interim_eq, ← a.confirmed_eq]
    have hnewGC : r.groupContext.next a.newTreeHash d.confirmed
        d.applied.provisionalExt = d.newGC := by
      rw [← hsame.groupContext_eq, a.newGC_eq]
    simp only [CommitOptions.body] at happlied
    simp only [Group.processMemberCommit, a.committerLeaf_eq hc, hsame.clone_eq hc a, within_ok,
      ok_bind, happlied, CommitOptions.body, hown, hacBytes, hsplit, hreceived, hconfirmed, hnewGC,
      a.newGCBytes_eq, a.psk_eq, ← hsame.initSecret_eq, a.secrets_eq, ← a.confTag_eq, check,
      if_true, b.interim_eq, hi.full.leafCount_eq, hrebuild]
    have hst := b.secretTree_eq
    rw [hi.full.leafCount_eq] at hst
    simp only [hst, within_ok, ok_bind, pure_eq_ok]
    rfl

theorem SameEpoch.processCommit_eq_member (hlaws : SuiteLaws S)
    (hsame : SameEpoch c r) (hc : c.Consistent S) (hsigner : c.SignsAsLeaf S)
    (a : DraftRun S c opt rnd d) (b : FinishRun S c d rnd res) :
    r.processCommit S opt.byReference res.commit =
      r.processMemberCommit S a.cache (d.authenticated c.wireFormat)
        (opt.body a.refs (some d.path.updatePath)) := by
  have hlt := hc.tree_invariant.member_lt hc.own_member
  obtain ⟨hparse, hmember, hauth⟩ := hsame.authenticateCommit_eq hlaws
    (hlt.trans (by norm_num)) hsigner a b
  have hcache := hsame.cacheProposals_eq "group: ProcessCommit: proposal" 0 a.cache_eq
  have hepoch : (d.authenticated c.wireFormat).content.epoch = r.groupContext.epoch := by
    rw [CommitDraft.authenticated, a.content_eq, hsame.groupContext_eq]
  have hbody : unmarshalCommit (d.authenticated c.wireFormat).content.content =
      .ok (opt.body a.refs (some d.path.updatePath)) := by
    rw [CommitDraft.authenticated, a.content_eq]
    exact unmarshalCommit_marshal a.commitBody_eq
  have hopen : r.openMemberCommit S b.message =
      .ok (d.authenticated c.wireFormat, opt.body a.refs (some d.path.updatePath)) := by
    simp only [Group.openMemberCommit, hauth, within_ok, ok_bind, hepoch, check,
      if_true, hbody, pure_eq_ok]
  simp only [Group.processCommit, hcache, ok_bind, hparse, within_ok, hmember,
    Bool.false_eq_true, if_false, hopen]

end MlsGo
