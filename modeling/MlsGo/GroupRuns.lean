import MlsGo.CommitAcceptance
import MlsGo.CommitRuns
import MlsGo.JoinRuns

/-!
# Runs of a member

What the calls on a `Group` can do to it.  `Commit` and `ProcessCommit` move it
to the next epoch; every other call changes counters, pending keys or the wire
format only.
-/

namespace MlsGo

variable {S : Suite} {g g' : Group}

/-- A call that leaves the epoch as it is. -/
inductive LocalStep (S : Suite) (g : Group) : Group → Prop where
  | proposeUpdate {p : Proposal} {g' : Group} (seed : Bytes)
      (hrun : g.proposeUpdate S seed = .ok (p, g')) : LocalStep S g g'
  | frameProposal {msg : Bytes} {g' : Group} (p : Proposal) (guard : ReuseGuard)
      (hrun : g.frameProposal S p guard = .ok (msg, g')) : LocalStep S g g'
  | protectApplication (plaintext authenticatedData : Bytes)
      (guard : ReuseGuard) :
      LocalStep S g (g.protectApplication S plaintext authenticatedData guard).2
  /-- `Commit` or `FrameProposal` failing after its message was sealed. -/
  | spentGeneration : LocalStep S g { g with handshakeGeneration := g.handshakeGeneration + 1 }
  | setEncryptHandshakes (v : Bool) : LocalStep S g { g with encryptHandshakes := v }

theorem LocalStep.eq_update (hstep : LocalStep S g g') :
    ∃ app handshake encrypt pending, g' = { g with
      appGeneration := app
      handshakeGeneration := handshake
      encryptHandshakes := encrypt
      pendingUpdates := pending } := by
  cases hstep with
  | proposeUpdate seed hrun =>
      simp only [Group.proposeUpdate, bind_eq_ok, pure_ok_iff, Prod.mk.injEq] at hrun
      obtain ⟨⟨leafPriv, leafPub⟩, -, cur, -, ln, -, -, rfl⟩ := hrun
      exact ⟨_, _, _, _, rfl⟩
  | frameProposal p guard hrun =>
      simp only [Group.frameProposal, bind_eq_ok] at hrun
      obtain ⟨body, -, hrest⟩ := hrun
      split at hrest
      · simp only [bind_eq_ok, pure_ok_iff, Prod.mk.injEq] at hrest
        obtain ⟨pm, -, bytes, -, -, rfl⟩ := hrest
        exact ⟨_, _, _, _, rfl⟩
      · simp only [bind_eq_ok, pure_ok_iff, Prod.mk.injEq] at hrest
        obtain ⟨pm, -, bytes, -, -, rfl⟩ := hrest
        exact ⟨_, _, _, _, rfl⟩
  | protectApplication plaintext authenticatedData guard =>
      rw [Group.protectApplication]
      split
      · exact ⟨_, _, _, _, rfl⟩
      · exact ⟨_, _, _, _, rfl⟩
  | spentGeneration => exact ⟨_, _, _, _, rfl⟩
  | setEncryptHandshakes v => exact ⟨_, _, _, _, rfl⟩

/-- A successful call that starts the next epoch, with any arguments.
`processExternalCommit` is also reached directly, as `ProcessExternalCommit`. -/
inductive EpochStep (S : Suite) (g : Group) : Group → Prop where
  | commit {res : CommitResult} (opt : CommitOptions) (rnd : CommitRandomness)
      (hrun : g.commit S opt rnd = .ok res) : EpochStep S g res.group
  | processCommit {g' : Group} (proposals : List Bytes) (commit : Bytes)
      (hrun : g.processCommit S proposals commit = .ok g') : EpochStep S g g'
  | processExternalCommit {g' : Group} (m : MLSMessage)
      (hrun : g.processExternalCommit S m = .ok g') : EpochStep S g g'

theorem EpochStep.runs (hstep : EpochStep S g g') :
    (∃ (opt : CommitOptions) (rnd : CommitRandomness) (d : CommitDraft)
        (res : CommitResult), Nonempty (DraftRun S g opt rnd d) ∧
        Nonempty (FinishRun S g d rnd res) ∧ res.group = g') ∨
      (∃ (cache : ProposalCache) (ac : AuthenticatedContent) (cm : Commit)
        (run : MemberRun S g cache ac cm), run.result = g') ∨
      ∃ (m : MLSMessage) (run : ExternalRun S g m), run.result = g' := by
  cases hstep with
  | commit opt rnd hrun =>
      obtain ⟨d, hdraft, hfinish⟩ := runs_of_commit hrun
      exact .inl ⟨opt, rnd, d, _, hdraft, hfinish, rfl⟩
  | processCommit proposals commit hrun =>
      rcases processCommit_eq_ok.mp hrun with ⟨o, run, hresult⟩ |
        ⟨cached, m, run, -, -, -, hresult⟩
      · exact .inr (.inl ⟨o.cache, o.ac, o.cm, run, hresult⟩)
      · exact .inr (.inr ⟨m, run, hresult⟩)
  | processExternalCommit m hrun =>
      obtain ⟨run, hresult⟩ := processExternalCommit_eq_ok.mp hrun
      exact .inr (.inr ⟨m, run, hresult⟩)

theorem EpochStep.epoch_eq (hstep : EpochStep S g g') :
    g'.groupContext.epoch = g.groupContext.epoch + 1 := by
  rcases hstep.runs with ⟨opt, rnd, d, res, ⟨draft⟩, ⟨finish⟩, rfl⟩ |
    ⟨cache, ac, cm, run, rfl⟩ | ⟨m, run, rfl⟩
  · rw [finish.group_eq, Group.advance, draft.newGC_eq]
    rfl
  · rfl
  · rfl

theorem EpochStep.ownLeaf_eq (hstep : EpochStep S g g') : g'.ownLeaf = g.ownLeaf := by
  rcases hstep.runs with ⟨opt, rnd, d, res, -, ⟨finish⟩, rfl⟩ |
    ⟨cache, ac, cm, run, rfl⟩ | ⟨m, run, rfl⟩
  · rw [finish.group_eq]
    rfl
  · rfl
  · rfl

/-- The states of a group that its creator has not yet left the first epoch
of. -/
inductive InitialEpoch (S : Suite) : Group → Prop where
  | newGroup {g : Group} (groupID : Bytes) (cred : Credential)
      (signer : Option Signer) (lifetime : Lifetime) (seeds : KeyPackageSeeds)
      (hrun : newGroup S groupID cred signer lifetime seeds = .ok g) :
      InitialEpoch S g
  | sameEpoch {g g' : Group} (hrun : InitialEpoch S g) (hstep : LocalStep S g g') :
      InitialEpoch S g'

/-- The states of a member, whatever it joined from and whatever it was
given. -/
inductive Reached (S : Suite) : Group → Prop where
  | newGroup {g : Group} (groupID : Bytes) (cred : Credential)
      (signer : Option Signer) (lifetime : Lifetime) (seeds : KeyPackageSeeds)
      (hrun : newGroup S groupID cred signer lifetime seeds = .ok g) :
      Reached S g
  | joinFromWelcome {g : Group} (welcome : Bytes) (opt : JoinOptions)
      (hrun : joinFromWelcome S welcome opt = .ok g) : Reached S g
  | externalCommit {g : Group} {commit : Bytes} (gi : GroupInfo)
      (cred : Credential) (signer : Option Signer) (lifetime : Lifetime)
      (rnd : ExternalRandomness)
      (hrun : externalCommit S gi cred signer lifetime rnd = .ok (g, commit)) :
      Reached S g
  | sameEpoch {g g' : Group} (hrun : Reached S g) (hstep : LocalStep S g g') : Reached S g'
  | nextEpoch {g g' : Group} (hrun : Reached S g) (hstep : EpochStep S g g') : Reached S g'

end MlsGo
