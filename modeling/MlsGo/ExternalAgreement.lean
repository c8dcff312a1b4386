import MlsGo.CommitAgreement
import MlsGo.GroupCoherence
import MlsGo.GroupInfoAuthentication
import MlsGo.JoinerPlacement
import MlsGo.PathSecrets
import MlsGo.PathValidity
import MlsGo.TranscriptChain

/-!
# External joiner and members reach the same epoch

A joiner reads group information that a member published and commits itself into
the group; the members read its commit.  No message carries the joiner's leaf
index, the interim hash or the init secret: each side recomputes them, the joiner
from the group information and the members from their own state.
-/

namespace MlsGo

open DecoderLaws InOrderLayout RatchetTree

variable {S : Suite} {g r : Group} {gi : GroupInfo} {t : RatchetTree} {L : ℕ} {keys : List Bytes}

/-! ## What a member publishes -/

/-- The group information is that of `g`, with its tree and the public key of its
external secret. -/
structure Publishes (S : Suite) (g : Group) (gi : GroupInfo) : Prop where
  groupContext_eq : gi.groupContext = g.groupContext
  confirmationTag_eq : gi.confirmationTag = confirmationTag S
    g.epoch.confirmationKey g.groupContext.confirmedTranscriptHash
  tree : ∃ rtree, g.tree.marshal = .ok rtree ∧ gi.ratchetTreeExtension = some rtree
  externalPub : ∃ extPriv extPub,
    externalPub S g.epoch.externalSecret = .ok (extPriv, extPub) ∧
      gi.externalPubExtension = some extPub

theorem publishes_of_publishGroupInfo (hgi : g.publishGroupInfo S = .ok gi) :
    Publishes S g gi := by
  simp only [Group.publishGroupInfo, GroupInfo.sign, bind_eq_ok, within_eq_ok, pure_ok_iff] at hgi
  obtain ⟨_, -, rtree, hrtree, ⟨extPriv, extPub⟩, hkeys, tbs, -, sig, -, rfl⟩ := hgi
  exact ⟨rfl, rfl, ⟨rtree, hrtree, rfl⟩, ⟨extPriv, extPub, hkeys, rfl⟩⟩

/-! ## Fresh keys -/

def FreshPathKeys (t : RatchetTree) (leaf : ℕ) (keys : List Bytes) : Prop :=
  ∀ path, t.filteredDirectPath leaf = .ok path →
    ∀ d ∈ path, ∀ key, t.nodePublicKey d = .ok key → key ∉ keys

theorem nodeKeys_of_freshPathKeys {senderLeaf : ℕ} {leafSecret : Bytes} {signer : Option Signer}
    {groupID : Bytes} {newlyAdded : List ℕ} {mkGroupContext : Bytes → Result Bytes}
    {seeds : ℕ → ℕ → Bytes} {gp : GeneratedPath} (p : PathRun S t senderLeaf leafSecret signer
    groupID newlyAdded mkGroupContext seeds gp) (hinv : t.RepresentationInvariant)
    (hfresh : FreshPathKeys gp.tree senderLeaf keys) :
    ∀ key ∈ gp.updatePath.nodeKeys, key ∉ keys := by
  intro key hkey
  obtain ⟨h, hf, -⟩ := hinv.full
  obtain ⟨hL, -⟩ := p.sender_slot hf
  obtain ⟨entries, -, hi⟩ := p.installed_tree hf
  rw [UpdatePath.nodeKeys, p.node_keys] at hkey
  obtain ⟨i, hi'⟩ := List.mem_iff_getElem?.mp hkey
  obtain ⟨k, hk⟩ : ∃ k, (t.pathLevels h (senderLeaf % 2 ^ 31))[i]? = some k := by
    have hlt := (List.getElem?_eq_some_iff.mp hi').1
    rw [hi.length_eq] at hlt
    exact ⟨_, List.getElem?_eq_getElem hlt⟩
  refine hfresh _ (hi.filteredDirectPath_eq rfl hL) (pathNode _ k) ?_ key
    (hi.nodePublicKey_eq hL hk hi')
  rw [hi.keys_eq]
  exact List.mem_map_of_mem (List.mem_of_getElem? hk)

/-! ## The joiner's place -/

theorem slot_of_findIdx {test : Option Node → Bool}
    (hleaves : ∀ slot, test slot = true → ∃ l, slot = some (.leaf l))
    (hfind : (leafSlots t.nodes).findIdx? test = some L) :
    ∃ l, t.slot 0 L = some (.leaf l) ∧ test (some (.leaf l)) = true := by
  rw [List.findIdx?_eq_some_iff_getElem] at hfind
  obtain ⟨hlt, htest, -⟩ := hfind
  obtain ⟨l, hl⟩ := hleaves _ htest
  rw [slot_zero, List.getElem?_eq_getElem hlt]
  exact ⟨l, hl, hl ▸ htest⟩

theorem findLeafBySignatureKey_eq_some {key : Bytes}
    (hfind : findLeafBySignatureKey t key = some L) :
    ∃ l, t.slot 0 L = some (.leaf l) ∧ l.signatureKey = key := by
  obtain ⟨l, hslot, hkey⟩ := slot_of_findIdx (fun slot htest => by
    rcases slot with _ | (l | p) <;> simp_all [holdsSignatureKey]) hfind
  exact ⟨l, hslot, of_decide_eq_true hkey⟩

theorem leafNodeAt_of_slot {h : ℕ} {l : LeafNode}
    (hf : t.Full h) (hslot : t.slot 0 L = some (.leaf l)) :
    t.leafNodeAt L = .ok l := by
  have hL : L < 2 ^ h := hf.member_lt (by simp [hslot])
  have hle := hf.two_pow_le
  rw [leafNodeAt, u32_double, Nat.mod_eq_of_lt (by omega), hf.nodeAt_eq, hslot]

/-- The tree in which the members read the path of an external joiner with the
given leaf, and the place of that leaf. -/
def Group.seatJoiner (g : Group) (leaf : LeafNode) : Result (ℕ × RatchetTree) := do
  let (wt, _) ← removePriorLeaf g.tree leaf.signatureKey
  wt.addLeaf leaf

/-- What a member needs to admit an external joiner: it is not the stale leaf that
is removed, and its private keys fit the tree in which it reads the path. -/
structure Group.CanAdmit (S : Suite) (r : Group) (leaf : LeafNode)
    (placed : RatchetTree) : Prop where
  member : r.ownLeaf ∈ r.tree.members
  kept : findLeafBySignatureKey r.tree leaf.signatureKey ≠ some r.ownLeaf
  fits : Fits S placed r.ownLeaf r.priv

section Removal

variable {t vacated : RatchetTree} {sigPub kemOutput : Bytes} {oldLeaf : Option ℕ}

theorem removePriorLeaf_eq_ok :
    removePriorLeaf t sigPub = .ok (vacated, oldLeaf) ↔
      oldLeaf = findLeafBySignatureKey t sigPub ∧
        ((oldLeaf = none ∧ vacated = t) ∨
          ∃ L, oldLeaf = some L ∧ t.removeLeaf L = .ok vacated) := by
  unfold removePriorLeaf
  cases findLeafBySignatureKey t sigPub with
  | none =>
      simp only [Except.ok.injEq, Prod.mk.injEq]
      constructor
      · rintro ⟨rfl, rfl⟩
        exact ⟨rfl, .inl ⟨rfl, rfl⟩⟩
      · rintro ⟨rfl, ⟨-, rfl⟩ | ⟨L, hL, -⟩⟩
        · exact ⟨rfl, rfl⟩
        · cases hL
  | some L =>
      simp only [bind_eq_ok, within_eq_ok, pure_ok_iff, Prod.mk.injEq]
      constructor
      · rintro ⟨wt, hremove, rfl, rfl⟩
        exact ⟨rfl, .inr ⟨L, rfl, hremove⟩⟩
      · rintro ⟨rfl, ⟨hL, -⟩ | ⟨L', hL, hremove⟩⟩
        · cases hL
        · cases hL
          exact ⟨vacated, hremove, rfl, rfl⟩

theorem validateExternalCommit_proposals (path : UpdatePath) :
    validateExternalCommit ⟨externalProposals kemOutput oldLeaf, some path⟩ =
      .ok (kemOutput, path) := by
  cases oldLeaf <;> rfl

variable (hinv : t.RepresentationInvariant)
  (hvacated : removePriorLeaf t sigPub = .ok (vacated, oldLeaf))

include hinv hvacated

theorem removedLeaves_applied (kemOutput : Bytes) :
    checkExternalRemoves t sigPub (removedLeaves (externalProposals kemOutput oldLeaf)) = .ok () ∧
      applyExternalRemoves t
        (removedLeaves (externalProposals kemOutput oldLeaf)) = .ok vacated := by
  obtain ⟨h, hf, -⟩ := hinv.full
  obtain ⟨hfind, ⟨rfl, rfl⟩ | ⟨L, rfl, hremove⟩⟩ := removePriorLeaf_eq_ok.mp hvacated
  · exact ⟨rfl, rfl⟩
  · obtain ⟨l, hslot, hkey⟩ := findLeafBySignatureKey_eq_some hfind.symm
    have hlt : L < 2 ^ 30 := hinv.member_lt (by simp [members, hslot])
    have hindex : (UInt32.ofNat L).toNat = L := UInt32.toNat_ofNat_of_lt' (hlt.trans (by norm_num))
    have hremoved : removedLeaves (externalProposals kemOutput (some L)) = [UInt32.ofNat L] := rfl
    rw [hremoved]
    constructor
    · simp [checkExternalRemoves, hindex, leafNodeAt_of_slot hf hslot, hkey, check]
    · simp [applyExternalRemoves, hindex, hremove]

theorem mem_vacated {M : ℕ} (hmember : M ∈ t.members) (hkept : oldLeaf ≠ some M) :
    M ∈ vacated.members := by
  obtain ⟨hfind, ⟨rfl, rfl⟩ | ⟨L, rfl, hremove⟩⟩ := removePriorLeaf_eq_ok.mp hvacated
  · exact hmember
  · obtain ⟨l, hslot, -⟩ := findLeafBySignatureKey_eq_some hfind.symm
    have hlt : L < 2 ^ 30 := hinv.member_lt (by simp [members, hslot])
    rw [removeLeaf_members hinv hremove, Nat.mod_eq_of_lt (by omega)]
    exact ⟨hmember, fun heq => hkept (congrArg some heq.symm)⟩

theorem vacated_allMatched (hall : AllMatched S t) : AllMatched S vacated := by
  obtain ⟨h, hf, -⟩ := hinv.full
  obtain ⟨-, ⟨rfl, rfl⟩ | ⟨L, rfl, hremove⟩⟩ := removePriorLeaf_eq_ok.mp hvacated
  · exact hall
  · obtain ⟨h', -, -, -, hslots, -⟩ := hf.removeLeaf_ok hremove
    refine hall.blank (L := L % 2 ^ 31) (x := none) fun k j => ?_
    rw [hslots]
    simp

end Removal

/-! ## The joiner's side -/

section Entry

variable {cred : Credential} {signer : Option Signer} {lifetime : Lifetime}
  {rnd : ExternalRandomness}

theorem newKeyPackage_ok {kp : KeyPackage} {privs : Bytes × Bytes} {seeds : KeyPackageSeeds}
    (hrun : newKeyPackage S cred signer lifetime seeds = .ok (kp, privs)) :
    S.publicKeyOf signer = .ok kp.leafNode.signatureKey ∧
      kp.leafNode.leafNodeSource = .keyPackage lifetime ∧ S.Matching privs.1 kp.initKey ∧
      S.Matching privs.2 kp.leafNode.encryptionKey := by
  simp only [newKeyPackage, bind_eq_ok, liftErr_eq_ok, pure_ok_iff, Prod.mk.injEq] at hrun
  obtain ⟨⟨initPriv, initPub⟩, hinitKeys, ⟨leafPriv, leafPub⟩, hleafKeys, sigPub, hpub,
    ln, hln, tbs, -, sig, -, rfl, rfl⟩ := hrun
  obtain ⟨leafSig, rfl⟩ := signLeafNode_ok hln
  exact ⟨hpub, rfl, .inr ⟨_, hinitKeys⟩, .inr ⟨_, hleafKeys⟩⟩

namespace EntryRun

section Message

variable (run : EntryRun S gi cred signer lifetime rnd)

def leaf : LeafNode := run.path.updatePath.leafNode

def content : FramedContent :=
  ⟨gi.groupContext.groupID, gi.groupContext.epoch, .newMemberCommit, [],
    contentTypeCommit, run.commitBody⟩

def confTag : Bytes := confirmationTag S run.es.confirmationKey run.confirmed

def message : MLSMessage := ⟨1, .publicMessage ⟨run.content, ⟨run.signature, run.confTag⟩, []⟩⟩

def authenticated : ExternalCommitContent :=
  ⟨⟨.publicMessage, run.content, ⟨run.signature, run.confTag⟩⟩,
    externalProposals run.kemOutput run.oldLeaf, run.kemOutput,
    run.path.updatePath⟩

theorem unmarshal_commit : unmarshalMLSMessage run.commitBytes = .ok run.message := by
  obtain ⟨body, hbody, -⟩ := bind_eq_ok.mp run.commitBytes_eq
  have hinline : run.content.Inline := by
    rintro body ⟨⟩
    exact decodes_skim (decodes_skimCommit run.commitBody_eq)
  have hdec := decodes_publicMessage hinline (fun hne => absurd rfl hne) (fun _ => rfl) hbody
  exact unmarshalMLSMessage_public hbody hdec run.commitBytes_eq

theorem split_eq (hkdf : KdfLaws S) :
    ∃ acBytes, run.authenticated.ac.marshal = .ok acBytes ∧
      splitAuthenticatedContent S acBytes = .ok (run.confirmedInput, run.confTag) := by
  obtain ⟨tagBytes, htag, -⟩ := bind_eq_ok.mp run.interim_eq
  exact split_of_signCommit rfl (hkdf.mac_length _ _) run.signature_eq htag

end Message

variable {run : EntryRun S gi cred signer lifetime rnd}

structure Placed (run : EntryRun S gi cred signer lifetime rnd)
    (placed : RatchetTree) : Prop where
  key_eq : S.publicKeyOf signer = .ok run.leaf.signatureKey
  liC_lt : run.liC < 2 ^ 30
  vacated_invariant : run.vacated.RepresentationInvariant
  wt_invariant : run.wt.RepresentationInvariant
  added_eq : run.vacated.addLeaf run.leaf = .ok (run.liC, placed)
  pathRun : Nonempty (PathRun S placed run.liC rnd.leafSecret signer
    gi.groupContext.groupID []
    (fun treeHash => (gi.groupContext.next treeHash
      gi.groupContext.confirmedTranscriptHash
      gi.groupContext.extensions).marshal) rnd.pathSeeds run.path)

theorem exists_placed (hinv : run.published.RepresentationInvariant) :
    ∃ placed, run.Placed placed := by
  have hvacated := removePriorLeaf_invariant hinv run.vacated_eq
  have hwt := addLeaf_invariant hvacated run.wt_eq
  obtain ⟨h, hf, -⟩ := hvacated.full
  obtain ⟨h', hf', -⟩ := hwt.full
  obtain ⟨p⟩ := pathRun_of_generateUpdatePath run.path_eq
  obtain ⟨placed, h'', hadd, hs, -, hslot⟩ := hf.addLeaf_other run.wt_eq run.leaf
  have hkp : run.wt.slot 0 run.liC = some (.leaf run.kp.leafNode) :=
    (hf.added_of_addLeaf run.wt_eq).slot_leaf
  have hlt : run.liC < 2 ^ 30 := hwt.member_lt (by simp [members, hkp])
  have hmod : run.liC % 2 ^ 31 = run.liC := Nat.mod_eq_of_lt (by omega)
  have horig := (p.sender_slot hf').2
  rw [hmod, hkp, Option.some.injEq, Node.leaf.injEq] at horig
  refine ⟨placed, ?_, hlt, hvacated, hwt, hadd,
    p.at_commitLeaf (h := h'') (by rwa [hmod]) hwt.wellFormed (by rwa [hmod])⟩
  rw [leaf, p.leaf_signatureKey, ← horig]
  exact (newKeyPackage_ok run.kp_eq).1

/-! ## The members' side -/

theorem Placed.invariant {placed : RatchetTree} (hp : run.Placed placed) :
    placed.RepresentationInvariant := addLeaf_invariant hp.vacated_invariant hp.added_eq

section Member

variable {placed : RatchetTree} (hpub : Publishes S r gi) (hinv : r.tree.RepresentationInvariant)

include hpub hinv

theorem published_eq_tree : run.published = r.tree ∧ r.tree.clone = .ok r.tree := by
  obtain ⟨rtree, hwrite, hext⟩ := hpub.tree
  obtain ⟨data, hdata, hparse⟩ := run.treeBound.1
  cases hext.symm.trans hdata
  have hclone : r.tree.clone = .ok run.published := by
    rw [clone, hwrite, ok_bind, hparse]
  have heq := hinv.eq_of_clone hclone
  exact ⟨heq, heq ▸ hclone⟩

theorem vacated_eq_members (hp : run.Placed placed) :
    removePriorLeaf r.tree run.leaf.signatureKey = .ok (run.vacated, run.oldLeaf) := by
  have hkey := hp.key_eq
  rw [run.sigPub_eq, Except.ok.injEq] at hkey
  rw [← hkey, ← (published_eq_tree hpub hinv).1, run.vacated_eq]

theorem seatJoiner_eq (hp : run.Placed placed) :
    r.seatJoiner run.leaf = .ok (run.liC, placed) := by
  rw [Group.seatJoiner, vacated_eq_members hpub hinv hp, ok_bind]
  exact hp.added_eq

theorem authenticate_eq (hlaws : SuiteLaws S) (hp : run.Placed placed) :
    r.authenticateExternalCommit S run.message = .ok run.authenticated := by
  have hbody : unmarshalCommit run.commitBody =
      .ok ⟨externalProposals run.kemOutput run.oldLeaf, some run.path.updatePath⟩ :=
    unmarshalCommit_marshal run.commitBody_eq
  have hsigned : unprotectPublic S run.leaf.signatureKey gi.groupContext []
      ⟨run.content, ⟨run.signature, run.confTag⟩, []⟩ = .ok run.authenticated.ac :=
    unprotectPublic_of_sign hlaws.signaturesVerify hp.key_eq
      (sign_of_signCommit run.signature_eq) (fun hmember => by cases hmember)
  have hsource : isCommitLeaf run.path.updatePath.leafNode = true := by
    obtain ⟨p⟩ := hp.pathRun
    obtain ⟨sig, hleaf⟩ := signLeafNode_ok p.leaf_eq
    rw [hleaf]
    rfl
  have hremoves := (removedLeaves_applied hinv (vacated_eq_members hpub hinv hp) run.kemOutput).1
  rw [hpub.groupContext_eq] at hsigned
  have hepoch : run.authenticated.ac.content.epoch = r.groupContext.epoch := by
    rw [← hpub.groupContext_eq]
    rfl
  simp only [leaf] at hsigned hremoves
  simp only [content] at hsigned
  simp only [Group.authenticateExternalCommit, message, content, check, if_true,
    ok_bind, within_ok, hbody, validateExternalCommit_proposals, hsigned, hepoch,
    hsource, hremoves, pure_eq_ok]
  rfl

theorem placeExternalJoiner_eq (hlaws : SuiteLaws S) (hp : run.Placed placed) :
    r.placeExternalJoiner S (removedLeaves run.authenticated.proposals)
      run.authenticated.path.leafNode = .ok (run.liC, placed) := by
  obtain ⟨p⟩ := hp.pathRun
  have hclone := (run.published_eq_tree hpub hinv).2
  have hremoves := (removedLeaves_applied hinv (vacated_eq_members hpub hinv hp) run.kemOutput).2
  have hsigned : run.leaf.verifySignature S r.groupContext.groupID run.liC = .ok true := by
    rw [← hpub.groupContext_eq]
    refine p.leaf_verifies hlaws ?_
    rw [hp.key_eq, leaf, p.leaf_signatureKey]
  have hadded := hp.added_eq
  rw [leaf] at hsigned hadded
  simp only [Group.placeExternalJoiner, authenticated, hclone, within_ok, ok_bind,
    hremoves, hadded, hsigned, check, if_true, pure_eq_ok]

theorem verifyParentHashes_iff (hp : run.Placed placed)
    (hvalid : r.tree.verifyParentHashes S = .ok true) :
    run.path.tree.verifyParentHashes S = .ok true ↔ CopathUnmatched S run.path.tree run.liC := by
  obtain ⟨h, hf, -⟩ := hp.vacated_invariant.full
  obtain ⟨p⟩ := hp.pathRun
  have hvacated := vacated_allMatched hinv (vacated_eq_members hpub hinv hp)
    (hinv.allMatched hvalid)
  exact p.verifyParentHashes_iff hp.invariant
    (hvacated.add hf hp.vacated_invariant.wellFormed (hf.added_of_addLeaf hp.added_eq))

theorem member_placed (hp : run.Placed placed) (hcan : r.CanAdmit S run.leaf placed) :
    r.ownLeaf ∈ placed.members ∧ run.liC ≠ r.ownLeaf := by
  have hvacated := vacated_eq_members hpub hinv hp
  have hkept : run.oldLeaf ≠ some r.ownLeaf := by
    rw [(removePriorLeaf_eq_ok.mp hvacated).1]
    exact hcan.kept
  have hleft := mem_vacated hinv hvacated hcan.member hkept
  obtain ⟨⟨hfree, -⟩, hall⟩ := addLeaf_members hp.vacated_invariant hp.added_eq
  rw [hall]
  exact ⟨Set.mem_insert_of_mem _ hleft, fun heq => hfree (heq ▸ hleft)⟩

omit hinv in
theorem decap_eq (hlaws : SuiteLaws S) :
    ∃ extPriv extPub,
      externalPub S r.epoch.externalSecret = .ok (extPriv, extPub) ∧
        S.externalInitDecap extPriv run.kemOutput = .ok run.initSecret := by
  obtain ⟨extPriv, extPub, hkeys, hext⟩ := hpub.externalPub
  cases hext.symm.trans run.extPub_eq
  exact ⟨extPriv, _, hkeys, hlaws.decap_encap (.inl ⟨_, liftErr_eq_ok.mp hkeys⟩) run.encap_eq⟩

omit hinv in
theorem interimN_eq_interim (hinterim : InterimAgrees S r) : run.interimN = r.interim := by
  have heq := run.interimN_eq
  rw [hpub.groupContext_eq, hpub.confirmationTag_eq] at heq
  exact Except.ok.inj (heq.symm.trans hinterim)

theorem exists_externalRun (hlaws : SuiteLaws S) (hkdf : KdfLaws S) (hinterim : InterimAgrees S r)
    (hp : run.Placed placed) (hcan : r.CanAdmit S run.leaf placed) {data : Bytes}
    (hwrite : placed.marshal = .ok data) (hvalid : run.path.tree.verifyParentHashes S = .ok true) :
    ∃ (xr : ExternalRun S r run.message) (node : ℕ) (secret : Bytes),
      xr.liC = run.liC ∧ SameEpoch run.result xr.result ∧
      PathRead S placed run.path run.liC r.ownLeaf (addedNodes []) r.priv xr.newPriv
        node secret := by
  obtain ⟨p⟩ := hp.pathRun
  obtain ⟨hmember, hother⟩ := member_placed hpub hinv hp hcan
  have hinvP := hp.invariant
  obtain ⟨h, hf, -⟩ := hinvP.full
  have hliC : run.liC % 2 ^ 31 = run.liC := Nat.mod_eq_of_lt (by have := hp.liC_lt; omega)
  have hreceiver : r.ownLeaf % 2 ^ 31 = r.ownLeaf :=
    Nat.mod_eq_of_lt (by have := hinvP.member_lt hmember; omega)
  obtain ⟨hL, -⟩ := p.sender_slot hf
  rw [hliC] at hL
  -- the path, read in the tree with the commit leaf
  obtain ⟨node, secret, hentry, hreaches, hpath⟩ := receivePath_eq hlaws hinvP hwrite p
    hcan.fits hmember (by rwa [hliC]) (by simp) "group: processExternalCommit"
    (fun treeHash => gi.groupContext.next treeHash
      gi.groupContext.confirmedTranscriptHash gi.groupContext.extensions)
    p.groupContext_eq
  have htreeHash : p.treeHash = run.newTreeHash :=
    Except.ok.inj (p.treeHash_eq.symm.trans run.newTreeHash_eq)
  rw [htreeHash, hpub.groupContext_eq] at hpath
  obtain ⟨entries, -, hi⟩ := p.installed_tree hf
  -- the private keys
  obtain ⟨ownKey, hownKey⟩ := hcan.fits.own_key hinvP hmember
  have hnew : (TreeKEMPrivate.new r.ownLeaf ownKey).privateKey
      (u32 (2 * r.ownLeaf)) = some ownKey := by
    simp
  obtain ⟨newPriv, hrebuild, -, hrebuilt⟩ := rebuildPriv_spec hkdf hf.le_thirtyOne hL
    (hf.member_lt hmember) hother hreceiver hliC hnew "group: processExternalCommit" secret
  rw [← hi.full.leafCount_eq] at hrebuild
  obtain ⟨acBytes, hacBytes, hsplit⟩ := run.split_eq hkdf
  obtain ⟨extPriv, extPub, hkeys, hdecap⟩ := run.decap_eq hpub hlaws
  have hinterimN := run.interimN_eq_interim hpub hinterim
  have hgcBytes := run.newGCBytes_eq
  rw [hpub.groupContext_eq, hinterimN] at hgcBytes
  let xr : ExternalRun S r run.message :=
    { content := run.authenticated
      acBytes := acBytes
      confirmedInput := run.confirmedInput
      confTag := run.confTag
      extPriv := extPriv
      extPub := extPub
      initSecret := run.initSecret
      liC := run.liC
      wt := placed
      out := ⟨run.path.tree, run.newTreeHash, secret, some run.path.commitSecret⟩
      gcBytes := run.newGCBytes
      es := run.es
      interim := run.interim
      ownKey := ownKey
      newPriv := newPriv
      secretTree := run.secretTree
      content_eq := authenticate_eq hpub hinv hlaws hp
      acBytes_eq := hacBytes
      split_eq := hsplit
      extKeys_eq := hkeys
      initSecret_eq := hdecap
      placed_eq := placeExternalJoiner_eq hpub hinv hlaws hp
      out_eq := hpath
      parentHashes_eq := hvalid
      gcBytes_eq := hgcBytes
      es_eq := run.es_eq
      confTag_eq := by rw [confTag, confirmed, hinterimN]
      interim_eq := by rw [← hinterimN]; exact run.interim_eq
      ownKey_eq := hownKey
      newPriv_eq := hrebuild
      secretTree_eq := run.secretTree_eq }
  refine ⟨xr, node, secret, rfl, ⟨?_, rfl, rfl, rfl, rfl, rfl⟩, hentry, hreaches, ?_⟩
  · simp only [xr, EntryRun.result, ExternalRun.result, Group.advance, EntryRun.newGC,
      ExternalRun.newGC, ExternalRun.confirmed, EntryRun.confirmed, hinterimN,
      hpub.groupContext_eq]
  · intro hne h' hf'
    obtain rfl := hf.height_unique hf'
    obtain ⟨k, hk, hfork, hkeys⟩ := hrebuilt hne
    exact ⟨k, hk, ownKey, hfork, hownKey, hkeys⟩

theorem of_externalRun (hlaws : SuiteLaws S) (hp : run.Placed placed)
    (xr : ExternalRun S r run.message) :
    (∃ data, placed.marshal = .ok data) ∧ run.path.tree.verifyParentHashes S = .ok true := by
  have hcontent : xr.content = run.authenticated :=
    Except.ok.inj (xr.content_eq.symm.trans (authenticate_eq hpub hinv hlaws hp))
  have hplaced := xr.placed_eq
  have hout := xr.out_eq
  have hvalid := xr.parentHashes_eq
  rw [hcontent, placeExternalJoiner_eq hpub hinv hlaws hp, Except.ok.injEq,
    Prod.mk.injEq] at hplaced
  rw [hcontent, ← hplaced.1, ← hplaced.2] at hout
  simp only [receivePath, bind_eq_ok, within_eq_ok, pure_ok_iff] at hout
  obtain ⟨ct, hclone, ct', -, treeHash, -, context, -, secrets, -, merged, hmerge, hout⟩ := hout
  obtain ⟨data, hwrite, -⟩ := bind_eq_ok.mp hclone
  obtain ⟨p⟩ := hp.pathRun
  cases p.merge_eq.symm.trans hmerge
  rw [← hout] at hvalid
  exact ⟨⟨data, hwrite⟩, hvalid⟩

theorem exists_honestRun (hp : run.Placed placed) (hcan : r.CanAdmit S run.leaf placed)
    {trees : List RatchetTree} (hhonest : HonestRun S (r.tree :: trees) keys)
    (hfresh : ∀ key ∈ run.path.updatePath.nodeKeys, key ∉ keys) :
    ∃ steps keys', HonestRun S (run.path.tree :: (steps ++ r.tree :: trees)) keys' := by
  have hvacated := vacated_eq_members hpub hinv hp
  have hleft : r.ownLeaf ∈ run.vacated.members := by
    refine mem_vacated hinv hvacated hcan.member ?_
    rw [(removePriorLeaf_eq_ok.mp hvacated).1]
    exact hcan.kept
  have hremoved : Continues S r.tree trees keys run.vacated := by
    obtain ⟨-, ⟨-, heq⟩ | ⟨L, -, hremove⟩⟩ := removePriorLeaf_eq_ok.mp hvacated
    · rw [heq]
      exact .refl hhonest
    · exact (Continues.refl hhonest).push fun rest hrest =>
        .removeLeaf L hrest hremove ⟨_, hp.vacated_invariant.populated hleft⟩
  have hsender : run.liC ∈ run.wt.members := by
    rw [(addLeaf_members hp.vacated_invariant run.wt_eq).2]
    exact Set.mem_insert _ _
  exact (hremoved.push fun rest hrest =>
    .addLeaf _ hrest (newKeyPackage_ok run.kp_eq).2.1 run.wt_eq).generateUpdatePath
    (hp.wt_invariant.populated hsender) run.path_eq hfresh

end Member

end EntryRun

end Entry

end MlsGo
