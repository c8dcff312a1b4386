import MlsGo.OwnUpdates

/-!
# Commits without a path

`applyProposals` computes whether a commit needs an update path, and no caller
looks at the result.  `ProcessCommit` therefore accepts a member commit that
updates or removes leaves without a path, as soon as its confirmation tag is the
one of the epoch that follows from the old init secret alone.
-/

namespace MlsGo

variable {S : Suite} {g : Group} {proposals : List Bytes} {commit : Bytes}

def isUpdateOrRemove : Proposal → Bool
  | .update _ | .remove _ => true
  | _ => false

def OpenedCommit.UpdatesOrRemoves (o : OpenedCommit S g proposals commit) :
    Prop :=
  ∃ resolved, resolveProposals o.cache o.ac.content.sender.leafIndex
      o.cm.proposals = .ok resolved ∧
    ∃ entry ∈ resolved, isUpdateOrRemove entry.proposal = true

def PathEnforced (S : Suite) (g : Group) (proposals : List Bytes)
    (commit : Bytes) : Prop :=
  ∀ o : OpenedCommit S g proposals commit, o.UpdatesOrRemoves →
    (∃ g', g.processCommit S proposals commit = .ok g') → o.cm.path ≠ none

/-- The confirmation tag of the epoch after these proposals if its secrets come from
the init secret, without a commit secret. -/
def Group.initSecretTag (S : Suite) (g : Group) (applied : AppliedProposals)
    (confirmed : Bytes) : Result Bytes := do
  let treeHash ← applied.tree.rootTreeHash S
  let gcBytes ← (g.groupContext.next treeHash confirmed applied.provisionalExt).marshal
  let psk ← pskSecret S applied.psks
  let es ← deriveEpochSecrets S g.initSecret none (some psk) gcBytes
  return confirmationTag S es.confirmationKey confirmed

/-- The proposals of a commit apply to a copy of the tree, the key of an own Update among
them is pending, and the commit is tagged with the init secret alone. -/
def InitSecretSuffices (S : Suite) (g : Group) (cache : ProposalCache)
    (ac : AuthenticatedContent) (cm : Commit) : Prop :=
  ∃ wt resolved applied acBytes input tag,
    g.tree.clone = .ok wt ∧
    resolveProposals cache ac.content.sender.leafIndex cm.proposals = .ok resolved ∧
    applyProposals wt cm cache g.groupContext.extensions g.externalPSKs g.resumptionPSKs
      g.groupContext.groupID ac.content.sender.leafIndex = .ok applied ∧
    (∀ ln ∈ (ownUpdates g.ownLeaf resolved).head?, g.pendingUpdates.get ln.encryptionKey ≠ none) ∧
    ac.marshal = .ok acBytes ∧ splitAuthenticatedContent S acBytes = .ok (input, tag) ∧
    g.initSecretTag S applied (confirmedTranscriptHash S g.interim input) = .ok tag

section Accepted

variable {cache : ProposalCache} {ac : AuthenticatedContent} {cm : Commit}

theorem resolveOwnUpdatePriv_ok_iff {committerLeaf : ℕ} {entries : List ProposalOrRef}
    {resolved : List Resolved}
    (hresolved : resolveProposals cache committerLeaf entries = .ok resolved) :
    (∃ own, g.resolveOwnUpdatePriv cache committerLeaf entries = .ok own) ↔
      ∀ ln ∈ (ownUpdates g.ownLeaf resolved).head?,
        g.pendingUpdates.get ln.encryptionKey ≠ none := by
  rw [resolveOwnUpdatePriv_resolved hresolved]
  cases (ownUpdates g.ownLeaf resolved).head? with
  | none => simp
  | some ln => cases hget : g.pendingUpdates.get ln.encryptionKey <;> simp [hget]

theorem MemberRun.initSecretSuffices (run : MemberRun S g cache ac cm)
    (hpath : cm.path = none) : InitSecretSuffices S g cache ac cm := by
  obtain ⟨a⟩ := applyRun_of_applyProposals run.applied_eq
  have hout := run.out_eq
  simp only [hpath, Group.receiveCommitPath, bind_eq_ok, within_eq_ok, pure_ok_iff] at hout
  obtain ⟨treeHash, htreeHash, hout⟩ := hout
  have hgc := run.gcBytes_eq
  have hes := run.es_eq
  rw [← hout] at hgc hes
  refine ⟨run.wt, a.resolved, run.applied, run.acBytes, run.confirmedInput, run.confTag,
    run.wt_eq, a.resolved_eq, run.applied_eq, ?_, run.acBytes_eq, run.split_eq, ?_⟩
  · exact (resolveOwnUpdatePriv_ok_iff a.resolved_eq).mp ⟨run.own, run.own_eq⟩
  · simp only [Group.initSecretTag, htreeHash, hgc, run.psk_eq, hes, ok_bind, pure_eq_ok,
      run.confTag_eq]

/-- With a key derivation that does not fail nothing else is asked of the commit. -/
theorem InitSecretSuffices.accepted (hkdf : KdfLaws S)
    (hsuffices : InitSecretSuffices S g cache ac cm) (hpath : cm.path = none) :
    ∃ g', g.processMemberCommit S cache ac cm = .ok g' := by
  obtain ⟨wt, resolved, applied, acBytes, input, tag, hwt, hresolved, happlied, hpending,
    hacBytes, hsplit, htag⟩ := hsuffices
  obtain ⟨own, hown⟩ := (resolveOwnUpdatePriv_ok_iff hresolved).mpr hpending
  simp only [Group.initSecretTag, bind_eq_ok, pure_ok_iff] at htag
  obtain ⟨treeHash, htreeHash, gcBytes, hgcBytes, psk, hpsk, es, hes, htag⟩ := htag
  have hlen : tag.length ≤ maxVarint := by
    rw [← htag, confirmationTag, hkdf.mac_length]
    exact hkdf.hashLen_le.trans (by decide)
  obtain ⟨encoded, hencoded⟩ := RatchetTree.writeOpaqueV_of_le hlen
  obtain ⟨a⟩ := applyRun_of_applyProposals happlied
  obtain ⟨h₀, hf₀⟩ := RatchetTree.clone_full hwt
  obtain ⟨⟨h, hf⟩, -⟩ := a.seats hf₀
  obtain ⟨st, hst⟩ := newSecretTree_ok hkdf hf.leafCount_pos hf.leafCount_le es.encryptionSecret
  let run : MemberRun S g cache ac cm :=
    { wt := wt, applied := applied, own := own, acBytes := acBytes, confirmedInput :=
      input, confTag := tag, out := ⟨applied.tree, treeHash, [], none⟩, gcBytes := gcBytes, psk :=
      psk, es := es, interim := S.hash (confirmedTranscriptHash S g.interim input ++ encoded),
      newPriv := g.workingPriv own, secretTree := st, wt_eq := hwt, applied_eq :=
      happlied, own_eq := hown, acBytes_eq := hacBytes, split_eq := hsplit
      out_eq := by simp [hpath, Group.receiveCommitPath, htreeHash]
      gcBytes_eq := hgcBytes, psk_eq := hpsk, es_eq := hes, confTag_eq := htag
      interim_eq := by simp [interimTranscriptHash, hencoded]
      newPriv_eq := if_pos rfl, secretTree_eq := hst }
  exact ⟨run.result, processMemberCommit_eq_ok.mpr ⟨run, rfl⟩⟩

end Accepted

/-- The path is enforced exactly when no pathless commit with an Update or a Remove whose
proposals apply carries the confirmation tag that the init secret alone gives. -/
theorem pathEnforced_iff (hkdf : KdfLaws S) :
    PathEnforced S g proposals commit ↔
      ∀ o : OpenedCommit S g proposals commit, o.cm.path = none → o.UpdatesOrRemoves →
        ¬InitSecretSuffices S g o.cache o.ac o.cm := by
  constructor
  · intro henforced o hpath hchanges hsuffices
    refine henforced o hchanges ?_ hpath
    rw [o.processCommit_eq]
    exact hsuffices.accepted hkdf hpath
  · rintro hrejected o hchanges ⟨g', haccepted⟩ hpath
    rw [o.processCommit_eq] at haccepted
    obtain ⟨run, -⟩ := processMemberCommit_eq_ok.mp haccepted
    exact hrejected o hpath hchanges (run.initSecretSuffices hpath)

/-! ## A member removed without a path -/

/-- What a member can send without going through `Commit`: by-value proposals
and no path, authenticated and with a valid confirmation tag. -/
def Group.sendPathless (S : Suite) (g : Group) (byValue : List Proposal) :
    Result Bytes := do
  let cm : Commit := ⟨byValue.map .proposal, none⟩
  let body ← cm.marshal
  let fc : FramedContent := ⟨g.groupContext.groupID, g.groupContext.epoch,
    .member (UInt32.ofNat g.ownLeaf), [], contentTypeCommit, body⟩
  let (confirmedInput, sig) ← signCommit S g.signer g.groupContext fc .publicMessage
  let confirmed := confirmedTranscriptHash S g.interim confirmedInput
  let applied ← applyProposals g.tree cm [] g.groupContext.extensions
    g.externalPSKs g.resumptionPSKs g.groupContext.groupID g.ownLeaf
  let tag ← g.initSecretTag S applied confirmed
  let pm ← assembleCommitPublic S g.groupContext g.epoch.membershipKey fc sig tag
  MLSMessage.marshal ⟨1, .publicMessage pm⟩

theorem ownUpdates_resolvedFrom {L M : ℕ} (hne : M ≠ L) (props : List Proposal) :
    ownUpdates M (resolvedFrom L props) = [] := by
  rw [ownUpdates, List.filterMap_eq_nil_iff]
  intro entry hentry
  obtain ⟨p, -, rfl⟩ := List.mem_map.mp hentry
  cases p with
  | update l => exact if_neg (Ne.symm hne)
  | _ => rfl

/-- Every other member in the epoch of the sender takes such a commit, whatever it updates
or removes. -/
theorem sendPathless_unenforced (hlaws : SuiteLaws S) (hkdf : KdfLaws S) {c r : Group}
    (hsame : SameEpoch c r) (hc : c.Consistent S) (hsigner : c.SignsAsLeaf S)
    (hpsks : r.externalPSKs = c.externalPSKs ∧ r.resumptionPSKs = c.resumptionPSKs)
    (hother : r.ownLeaf ≠ c.ownLeaf) {data : Bytes} (hwire : c.tree.marshal = .ok data)
    {byValue : List Proposal} (hchanges : ∃ p ∈ byValue, isUpdateOrRemove p = true)
    (hsend : c.sendPathless S byValue = .ok commit) : ¬PathEnforced S r [] commit := by
  have hown : c.ownLeaf < 2 ^ 32 :=
    (hc.tree_invariant.member_lt hc.own_member).trans (by norm_num)
  simp only [Group.sendPathless, bind_eq_ok] at hsend
  obtain ⟨body, hbody, ⟨input, sig⟩, hsign, applied, happlied, tag, htag, pm, hpm, hbytes⟩ := hsend
  set fc : FramedContent := ⟨c.groupContext.groupID, c.groupContext.epoch,
    .member (UInt32.ofNat c.ownLeaf), [], contentTypeCommit, body⟩
  -- The message is read back as it was written.
  have hinline : fc.Inline := by
    intro written hwritten
    cases hwritten
    exact decodes_skim (decodes_skimCommit hbody)
  obtain ⟨hmessage, hmember, hauth⟩ := hsame.authenticateCommit_public hlaws hown hsigner rfl rfl
    hinline (sign_of_signCommit hsign) hpm hbytes
  have hsender : fc.sender.leafIndex = c.ownLeaf := UInt32.toNat_ofNat_of_lt' hown
  have hepoch : fc.epoch = r.groupContext.epoch :=
    congrArg GroupContext.epoch hsame.groupContext_eq
  have hcm : unmarshalCommit fc.content = .ok ⟨byValue.map .proposal, none⟩ :=
    unmarshalCommit_marshal hbody
  have hopen : r.openMemberCommit S ⟨1, .publicMessage pm⟩ =
      .ok (⟨.publicMessage, fc, ⟨sig, tag⟩⟩, ⟨byValue.map .proposal, none⟩) := by
    simp only [Group.openMemberCommit, hauth, within_ok, ok_bind, hepoch, check, if_true, hcm,
      pure_eq_ok]
  let o : OpenedCommit S r [] commit :=
    ⟨[], [], _, _, _, rfl, hmessage, hmember, hopen⟩
  have hresolved : resolveProposals [] o.ac.content.sender.leafIndex o.cm.proposals =
      .ok (resolvedFrom fc.sender.leafIndex byValue) := resolveProposals_byValue _ _ _
  obtain ⟨p, hp, hchange⟩ := hchanges
  intro henforced
  refine henforced o ⟨_, hresolved, ⟨p, _⟩, List.mem_map_of_mem hp, hchange⟩ ?_ rfl
  rw [o.processCommit_eq]
  refine InitSecretSuffices.accepted hkdf ?_ rfl
  -- The receiver computes the tag from what it shares with the sender.
  have htagLen : tag.length = S.hashLen := by
    simp only [Group.initSecretTag, bind_eq_ok, pure_ok_iff] at htag
    obtain ⟨-, -, -, -, -, -, -, -, rfl⟩ := htag
    exact hkdf.mac_length _ _
  obtain ⟨tagBytes, htagBytes⟩ := RatchetTree.writeOpaqueV_of_le
    (htagLen.trans_le (hkdf.hashLen_le.trans (by decide)))
  obtain ⟨acBytes, hacBytes, hsplit⟩ := split_of_signCommit rfl htagLen hsign htagBytes
  refine ⟨c.tree, _, applied, acBytes, input, tag, ?_, hresolved, ?_, ?_, hacBytes, hsplit, ?_⟩
  · rw [← hsame.tree_eq]
    exact hc.tree_invariant.clone_eq ⟨_, hc.own_member⟩ hwire
  · rw [← hsame.groupContext_eq, hpsks.1, hpsks.2, hsender]
    exact happlied
  · rw [ownUpdates_resolvedFrom (hsender ▸ hother)]
    simp
  · rw [← htag, Group.initSecretTag, ← hsame.groupContext_eq, ← hsame.initSecret_eq,
      ← hsame.interim_eq]
    rfl

/-- Three members `A`, `B` and `C`: the state of `B`, and a pathless commit of
`A` that removes `C`. -/
def removalWithoutPath : Result (Group × Bytes) := do
  let signer (key : UInt8) : Option Signer := some ⟨[key]⟩
  let a ← newGroup plainSuite [9] (.basic [1]) (signer 1) ⟨0, 1⟩ ⟨[1, 1], [1, 2]⟩
  let (kpB, initB, leafB) ← newKeyPackage plainSuite (.basic [2]) (signer 2)
    ⟨0, 1⟩ ⟨[2, 1], [2, 2]⟩
  let (kpC, _, _) ← newKeyPackage plainSuite (.basic [3]) (signer 3) ⟨0, 1⟩ ⟨[3, 1], [3, 2]⟩
  let r ← a.commit plainSuite ⟨[.add kpB, .add kpC], []⟩
    ⟨[11], fun _ _ => [], ⟨0, 0, 0, 0⟩, fun _ => []⟩
  let kpBytes ← encodeKeyPackageMessage kpB
  let b ← joinFromWelcome plainSuite (r.welcome.getD []) ⟨kpBytes, initB, leafB, signer 2, [], []⟩
  let commit ← r.group.sendPathless plainSuite [.remove 2]
  return (b, commit)

theorem pathEnforced_iff_removal :
    ∃ b commit, removalWithoutPath = .ok (b, commit) ∧ KdfLaws plainSuite ∧
      (PathEnforced plainSuite b [] commit ↔
        ∀ o : OpenedCommit plainSuite b [] commit, o.cm.path = none → o.UpdatesOrRemoves →
          ¬InitSecretSuffices plainSuite b o.cache o.ac o.cm) := by
  obtain ⟨⟨b, commit⟩, hrun⟩ : ∃ run, removalWithoutPath = .ok run := by decide +kernel
  exact ⟨b, commit, hrun, plainSuite_kdfLaws, pathEnforced_iff plainSuite_kdfLaws⟩

/-- `B` accepts the removal of `C` without a path. -/
theorem removal_without_path_accepted :
    ∃ b commit, removalWithoutPath = .ok (b, commit) ∧
      (∃ b', b.processCommit plainSuite [] commit = .ok b') ∧
      ∃ o : OpenedCommit plainSuite b [] commit, o.UpdatesOrRemoves ∧ o.cm.path = none := by
  obtain ⟨⟨b, commit⟩, hrun, haccepts, m, hm, hmember, ⟨ac, cm⟩, hopen, hpath, hupdates⟩ :
      ∃ run, removalWithoutPath = .ok run ∧
        (∃ b', run.1.processCommit plainSuite [] run.2 = .ok b') ∧
        ∃ m, unmarshalMLSMessage run.2 = .ok m ∧ m.isExternalCommit = false ∧
          ∃ o, run.1.openMemberCommit plainSuite m = .ok o ∧ o.2.path = none ∧
            ∃ resolved, resolveProposals [] o.1.content.sender.leafIndex o.2.proposals =
                .ok resolved ∧
              ∃ entry ∈ resolved, isUpdateOrRemove entry.proposal = true := by decide +kernel
  exact ⟨b, commit, hrun, haccepts, ⟨[], [], m, ac, cm, rfl, hm, hmember, hopen⟩, hupdates, hpath⟩

end MlsGo
