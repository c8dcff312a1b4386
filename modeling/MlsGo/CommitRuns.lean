import MlsGo.CommitSending
import MlsGo.ProposalEffects
import MlsGo.PathRuns

/-!
# Successful commits

The intermediate values of a successful `Commit`, one field for each step of the
source.
-/

namespace MlsGo

variable {S : Suite}

def CommitOptions.body (opt : CommitOptions) (refs : List Bytes)
    (path : Option UpdatePath) : Commit := ⟨commitProposals refs opt.byValue, path⟩

structure DraftRun (S : Suite) (g : Group) (opt : CommitOptions)
    (rnd : CommitRandomness) (d : CommitDraft) where
  wt : RatchetTree
  refs : List Bytes
  cache : ProposalCache
  commitBody : Bytes
  confirmedInput : Bytes
  newTreeHash : Bytes
  newGCBytes : Bytes
  psk : Bytes
  wt_eq : g.tree.clone = .ok wt
  cache_eq : g.cacheProposals S "group: Commit: by-reference" opt.byReference 0
    [] = .ok (refs, cache)
  applied_eq : applyProposals wt (opt.body refs none) cache
    g.groupContext.extensions g.externalPSKs g.resumptionPSKs
    g.groupContext.groupID g.ownLeaf = .ok d.applied
  path_eq : d.applied.tree.generateUpdatePath S g.ownLeaf rnd.leafSecret
    g.signer g.groupContext.groupID d.applied.newlyAdded
    (fun treeHash => (g.groupContext.next treeHash
      g.groupContext.confirmedTranscriptHash d.applied.provisionalExt).marshal)
    rnd.pathSeeds = .ok d.path
  commitBody_eq : (opt.body refs (some d.path.updatePath)).marshal = .ok commitBody
  content_eq : d.content = ⟨g.groupContext.groupID, g.groupContext.epoch,
    .member (UInt32.ofNat g.ownLeaf), [], contentTypeCommit, commitBody⟩
  signature_eq : signCommit S g.signer g.groupContext d.content g.wireFormat =
    .ok (confirmedInput, d.signature)
  confirmed_eq : d.confirmed = confirmedTranscriptHash S g.interim confirmedInput
  treeHash_eq : d.path.tree.rootTreeHash S = .ok newTreeHash
  newGC_eq : d.newGC = g.groupContext.next newTreeHash d.confirmed d.applied.provisionalExt
  newGCBytes_eq : d.newGC.marshal = .ok newGCBytes
  psk_eq : pskSecret S d.applied.psks = .ok psk
  secrets_eq : deriveEpochSecrets S g.initSecret (some d.path.commitSecret)
    (some psk) newGCBytes = .ok d.secrets
  confTag_eq : d.confTag = confirmationTag S d.secrets.confirmationKey d.confirmed

variable {g : Group} {opt : CommitOptions} {rnd : CommitRandomness}
  {d : CommitDraft} {res : CommitResult}

theorem draftRun_of_draftCommit (hrun : g.draftCommit S opt rnd = .ok d) :
    Nonempty (DraftRun S g opt rnd d) := by
  simp only [Group.draftCommit, bind_eq_ok, within_eq_ok, pure_ok_iff] at hrun
  obtain ⟨wt, hwt, ⟨refs, cache⟩, hcache, applied, happlied, path, hpath, body,
    hbody, ⟨confirmedInput, sig⟩, hsign, treeHash, htreeHash, gcBytes, hgcBytes,
    psk, hpsk, es, hes, rfl⟩ := hrun
  exact ⟨wt, refs, cache, body, confirmedInput, treeHash, gcBytes, psk, hwt, hcache, happlied,
    hpath, hbody, rfl, hsign, rfl, htreeHash, rfl, hgcBytes, hpsk, hes, rfl⟩

structure FinishRun (S : Suite) (g : Group) (d : CommitDraft)
    (rnd : CommitRandomness) (res : CommitResult) where
  message : MLSMessage
  interim : Bytes
  newPriv : TreeKEMPrivate
  secretTree : SecretTree
  message_eq : g.assembleCommit S d rnd.guard = .ok message
  commit_eq : message.marshal = .ok res.commit
  welcome_eq : g.commitWelcome S d rnd = .ok res.welcome
  interim_eq : interimTranscriptHash S d.confirmed d.confTag = .ok interim
  newPriv_eq : senderPriv S "group: Commit: DeriveSecret(leafNodeSecret)"
    "group: Commit: DeriveKeyPair(newLeaf)"
    (fun nodeIdx => s!"group: Commit: AddPathSecret(node {nodeIdx})")
    g.ownLeaf rnd.leafSecret d.path.pathSecretByNode = .ok newPriv
  secretTree_eq : newSecretTree S d.path.tree.leafCount d.secrets.encryptionSecret = .ok secretTree
  group_eq : res.group = { g.advance d.path.tree d.newGC d.secrets interim
    newPriv secretTree with handshakeGeneration := 0 }

theorem finishRun_of_finishCommit (hrun : g.finishCommit S d rnd = .ok res) :
    Nonempty (FinishRun S g d rnd res) := by
  simp only [Group.finishCommit, bind_eq_ok, within_eq_ok, pure_ok_iff] at hrun
  obtain ⟨message, hmessage, commitBytes, hcommit, welcome, hwelcome, interim,
    hinterim, newPriv, hnewPriv, st, hst, rfl⟩ := hrun
  exact ⟨message, interim, newPriv, st, hmessage, hcommit, hwelcome, hinterim, hnewPriv, hst, rfl⟩

theorem runs_of_commit (hrun : g.commit S opt rnd = .ok res) :
    ∃ d, Nonempty (DraftRun S g opt rnd d) ∧ Nonempty (FinishRun S g d rnd res) := by
  obtain ⟨d, hdraft, hfinish⟩ := bind_eq_ok.mp hrun
  exact ⟨d, draftRun_of_draftCommit hdraft, finishRun_of_finishCommit hfinish⟩

end MlsGo
