import MlsGo.GroupJoining
import MlsGo.SuiteLaws

/-!
# Accepted commits

`ProcessCommit` and `processExternalCommit` are long sequences of fallible
steps.  A run records what each step returned; a commit is accepted exactly when
there is a run, and the group it leads to is read off the run.
-/

namespace MlsGo

variable {S : Suite} {g g' : Group} {proposals : List Bytes}

structure OpenedCommit (S : Suite) (g : Group) (proposals : List Bytes)
    (commit : Bytes) where
  refs : List Bytes
  cache : ProposalCache
  message : MLSMessage
  ac : AuthenticatedContent
  cm : Commit
  cache_eq : g.cacheProposals S "group: ProcessCommit: proposal" proposals 0 [] = .ok (refs, cache)
  message_eq : unmarshalMLSMessage commit = .ok message
  member : message.isExternalCommit = false
  opened : g.openMemberCommit S message = .ok (ac, cm)

theorem OpenedCommit.processCommit_eq {commit : Bytes} (o : OpenedCommit S g proposals commit) :
    g.processCommit S proposals commit = g.processMemberCommit S o.cache o.ac o.cm := by
  simp only [Group.processCommit, o.cache_eq, o.message_eq, within_ok, ok_bind,
    o.member, Bool.false_eq_true, if_false, o.opened]

structure MemberRun (S : Suite) (g : Group) (cache : ProposalCache)
    (ac : AuthenticatedContent) (cm : Commit) where
  wt : RatchetTree
  applied : AppliedProposals
  own : Option Bytes
  acBytes : Bytes
  confirmedInput : Bytes
  confTag : Bytes
  out : PathOutcome
  gcBytes : Bytes
  psk : Bytes
  es : EpochSecrets
  interim : Bytes
  newPriv : TreeKEMPrivate
  secretTree : SecretTree
  wt_eq : g.tree.clone = .ok wt
  applied_eq : applyProposals wt cm cache g.groupContext.extensions
    g.externalPSKs g.resumptionPSKs g.groupContext.groupID
    ac.content.sender.leafIndex = .ok applied
  own_eq : g.resolveOwnUpdatePriv cache ac.content.sender.leafIndex cm.proposals = .ok own
  acBytes_eq : ac.marshal = .ok acBytes
  split_eq : splitAuthenticatedContent S acBytes = .ok (confirmedInput, confTag)
  out_eq : g.receiveCommitPath S applied ac.content.sender.leafIndex
    (g.workingPriv own) cm.path = .ok out
  gcBytes_eq : (g.groupContext.next out.treeHash
    (confirmedTranscriptHash S g.interim confirmedInput)
    applied.provisionalExt).marshal = .ok gcBytes
  psk_eq : pskSecret S applied.psks = .ok psk
  es_eq : deriveEpochSecrets S g.initSecret out.commitSecret (some psk) gcBytes = .ok es
  confTag_eq : confirmationTag S es.confirmationKey
    (confirmedTranscriptHash S g.interim confirmedInput) = confTag
  interim_eq : interimTranscriptHash S
    (confirmedTranscriptHash S g.interim confirmedInput) confTag = .ok interim
  newPriv_eq : rebuildPriv S "group: ProcessCommit" g.ownLeaf
    ac.content.sender.leafIndex out.tree.leafCount (g.workingPriv own)
    out.pathSecret = .ok newPriv
  secretTree_eq : newSecretTree S out.tree.leafCount es.encryptionSecret = .ok secretTree

namespace MemberRun

variable {cache : ProposalCache} {ac : AuthenticatedContent} {cm : Commit}

def confirmed (run : MemberRun S g cache ac cm) : Bytes :=
  confirmedTranscriptHash S g.interim run.confirmedInput

def newGC (run : MemberRun S g cache ac cm) : GroupContext :=
  g.groupContext.next run.out.treeHash run.confirmed run.applied.provisionalExt

def result (run : MemberRun S g cache ac cm) : Group :=
  { g.advance run.out.tree run.newGC run.es run.interim run.newPriv
      run.secretTree with handshakeGeneration := 0 }

end MemberRun

theorem processMemberCommit_eq_ok {cache : ProposalCache}
    {ac : AuthenticatedContent} {cm : Commit} :
    g.processMemberCommit S cache ac cm = .ok g' ↔
      ∃ run : MemberRun S g cache ac cm, run.result = g' := by
  simp only [Group.processMemberCommit, bind_eq_ok, within_eq_ok, check_eq_ok, pure_ok_iff]
  constructor
  · rintro ⟨wt, hwt, applied, happlied, own, hown, acBytes, hacBytes,
      ⟨confirmedInput, confTag⟩, hsplit, out, hout, gcBytes, hgcBytes, psk, hpsk,
      es, hes, _, htag, interim, hinterim, newPriv, hpriv, st, hst, rfl⟩
    exact ⟨⟨wt, applied, own, acBytes, confirmedInput, confTag, out, gcBytes, psk,
      es, interim, newPriv, st, hwt, happlied, hown, hacBytes, hsplit, hout,
      hgcBytes, hpsk, hes, htag, hinterim, hpriv, hst⟩, rfl⟩
  · rintro ⟨run, rfl⟩
    exact ⟨run.wt, run.wt_eq, run.applied, run.applied_eq, run.own, run.own_eq, run.acBytes,
      run.acBytes_eq, (run.confirmedInput, run.confTag), run.split_eq, run.out, run.out_eq,
      run.gcBytes, run.gcBytes_eq, run.psk, run.psk_eq, run.es, run.es_eq, (),
      run.confTag_eq, run.interim, run.interim_eq, run.newPriv, run.newPriv_eq, run.secretTree,
      run.secretTree_eq, rfl⟩

structure ExternalRun (S : Suite) (g : Group) (m : MLSMessage) where
  content : ExternalCommitContent
  acBytes : Bytes
  confirmedInput : Bytes
  confTag : Bytes
  extPriv : Bytes
  extPub : Bytes
  initSecret : Bytes
  liC : ℕ
  wt : RatchetTree
  out : PathOutcome
  gcBytes : Bytes
  es : EpochSecrets
  interim : Bytes
  ownKey : Bytes
  newPriv : TreeKEMPrivate
  secretTree : SecretTree
  content_eq : g.authenticateExternalCommit S m = .ok content
  acBytes_eq : content.ac.marshal = .ok acBytes
  split_eq : splitAuthenticatedContent S acBytes = .ok (confirmedInput, confTag)
  extKeys_eq : externalPub S g.epoch.externalSecret = .ok (extPriv, extPub)
  initSecret_eq : S.externalInitDecap extPriv content.kemOutput = .ok initSecret
  placed_eq : g.placeExternalJoiner S (removedLeaves content.proposals)
    content.path.leafNode = .ok (liC, wt)
  out_eq : receivePath S "group: processExternalCommit" wt liC content.path
    g.priv (fun treeHash => g.groupContext.next treeHash
      g.groupContext.confirmedTranscriptHash g.groupContext.extensions) [] =
    .ok out
  parentHashes_eq : out.tree.verifyParentHashes S = .ok true
  gcBytes_eq : (g.groupContext.next out.treeHash
    (confirmedTranscriptHash S g.interim confirmedInput)
    g.groupContext.extensions).marshal = .ok gcBytes
  es_eq : deriveEpochSecrets S initSecret out.commitSecret none gcBytes = .ok es
  confTag_eq : confirmationTag S es.confirmationKey
    (confirmedTranscriptHash S g.interim confirmedInput) = confTag
  interim_eq : interimTranscriptHash S
    (confirmedTranscriptHash S g.interim confirmedInput) confTag = .ok interim
  ownKey_eq : g.priv.privateKey (u32 (2 * g.ownLeaf)) = some ownKey
  newPriv_eq : rebuildPriv S "group: processExternalCommit" g.ownLeaf liC
    out.tree.leafCount (TreeKEMPrivate.new g.ownLeaf ownKey) out.pathSecret =
    .ok newPriv
  secretTree_eq : newSecretTree S out.tree.leafCount es.encryptionSecret = .ok secretTree

namespace ExternalRun

variable {m : MLSMessage}

def confirmed (run : ExternalRun S g m) : Bytes :=
  confirmedTranscriptHash S g.interim run.confirmedInput

def newGC (run : ExternalRun S g m) : GroupContext :=
  g.groupContext.next run.out.treeHash run.confirmed g.groupContext.extensions

def result (run : ExternalRun S g m) : Group :=
  g.advance run.out.tree run.newGC run.es run.interim run.newPriv run.secretTree

end ExternalRun

theorem processExternalCommit_eq_ok {m : MLSMessage} :
    g.processExternalCommit S m = .ok g' ↔ ∃ run : ExternalRun S g m, run.result = g' := by
  simp only [Group.processExternalCommit, bind_eq_ok, within_eq_ok, check_eq_ok, liftErr_eq_ok]
  constructor
  · rintro ⟨content, hcontent, acBytes, hacBytes, ⟨confirmedInput, confTag⟩, hsplit,
      ⟨extPriv, extPub⟩, hkeys, initSecret, hinit, ⟨liC, wt⟩, hplaced, out, hout, valid, hvalid, _,
      rfl, gcBytes, hgcBytes, es, hes, _, htag, interim, hinterim, hrest⟩
    split at hrest
    · simp at hrest
    · rename_i ownKey hown
      simp only [bind_eq_ok, within_eq_ok, pure_ok_iff] at hrest
      obtain ⟨newPriv, hpriv, st, hst, rfl⟩ := hrest
      exact ⟨⟨content, acBytes, confirmedInput, confTag, extPriv, extPub, initSecret, liC, wt, out,
        gcBytes, es, interim, ownKey, newPriv, st, hcontent, hacBytes, hsplit, hkeys, hinit,
        hplaced, hout, hvalid, hgcBytes, hes, htag, hinterim, hown, hpriv, hst⟩, rfl⟩
  · rintro ⟨run, rfl⟩
    refine ⟨run.content, run.content_eq, run.acBytes, run.acBytes_eq, (run.confirmedInput,
      run.confTag), run.split_eq, (run.extPriv, run.extPub), run.extKeys_eq, run.initSecret,
      run.initSecret_eq, (run.liC, run.wt), run.placed_eq, run.out, run.out_eq, true,
      run.parentHashes_eq, (), rfl, run.gcBytes, run.gcBytes_eq, run.es, run.es_eq, (),
      run.confTag_eq, run.interim, run.interim_eq, ?_⟩
    simp only [run.ownKey_eq, bind_eq_ok, within_eq_ok, pure_ok_iff]
    exact ⟨run.newPriv, run.newPriv_eq, run.secretTree, run.secretTree_eq, rfl⟩

theorem processCommit_eq_ok {commit : Bytes} :
    g.processCommit S proposals commit = .ok g' ↔
      (∃ (o : OpenedCommit S g proposals commit)
          (run : MemberRun S g o.cache o.ac o.cm), run.result = g') ∨
        ∃ (cached : List Bytes × ProposalCache) (m : MLSMessage) (run : ExternalRun S g m),
          g.cacheProposals S "group: ProcessCommit: proposal" proposals 0 [] = .ok cached ∧
          unmarshalMLSMessage commit = .ok m ∧ m.isExternalCommit = true ∧ run.result = g' := by
  constructor
  · intro hok
    simp only [Group.processCommit, bind_eq_ok, within_eq_ok] at hok
    obtain ⟨⟨refs, cache⟩, hcache, m, hm, hrest⟩ := hok
    cases hext : m.isExternalCommit with
    | true =>
        rw [hext, if_pos rfl, processExternalCommit_eq_ok] at hrest
        obtain ⟨run, hresult⟩ := hrest
        exact .inr ⟨(refs, cache), m, run, hcache, hm, hext, hresult⟩
    | false =>
        rw [hext, if_neg (by simp), bind_eq_ok] at hrest
        obtain ⟨⟨ac, cm⟩, hopen, hmember⟩ := hrest
        obtain ⟨run, hresult⟩ := processMemberCommit_eq_ok.mp hmember
        exact .inl ⟨⟨refs, cache, m, ac, cm, hcache, hm, hext, hopen⟩, run, hresult⟩
  · rintro (⟨o, run, hresult⟩ | ⟨⟨refs, cache⟩, m, run, hcache, hm, hext, hresult⟩)
    · rw [o.processCommit_eq]
      exact processMemberCommit_eq_ok.mpr ⟨run, hresult⟩
    · simp only [Group.processCommit, hcache, hm, within_ok, ok_bind, hext, if_true]
      exact processExternalCommit_eq_ok.mpr ⟨run, hresult⟩

end MlsGo
