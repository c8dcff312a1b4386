import MlsGo.GroupRuns
import MlsGo.SuiteLaws

/-!
# The transcript chain

A joiner computes the interim transcript hash from what a member publishes: the
confirmed transcript hash and the confirmation tag.  Commits set the interim
hash in this way, `NewGroup` sets it to the empty string.
-/

namespace MlsGo

variable {S : Suite} {g g' : Group} {cred : Credential} {signer : Option Signer}

def Group.publishedInterim (S : Suite) (g : Group) : Result Bytes :=
  interimTranscriptHash S g.groupContext.confirmedTranscriptHash
    (confirmationTag S g.epoch.confirmationKey g.groupContext.confirmedTranscriptHash)

def InterimAgrees (S : Suite) (g : Group) : Prop := g.publishedInterim S = .ok g.interim

instance (S : Suite) (g : Group) : Decidable (InterimAgrees S g) :=
  inferInstanceAs (Decidable (g.publishedInterim S = .ok g.interim))

theorem LocalStep.interimAgrees_congr (hstep : LocalStep S g g') :
    InterimAgrees S g' ↔ InterimAgrees S g := by
  obtain ⟨app, handshake, encrypt, pending, rfl⟩ := hstep.eq_update
  exact Iff.rfl

theorem EpochStep.interimAgrees (hstep : EpochStep S g g') : InterimAgrees S g' := by
  rcases hstep.runs with ⟨opt, rnd, d, res, ⟨draft⟩, ⟨finish⟩, rfl⟩ |
    ⟨cache, ac, cm, run, rfl⟩ | ⟨m, run, rfl⟩
  · have hinterim := finish.interim_eq
    rw [draft.confTag_eq] at hinterim
    rw [InterimAgrees, Group.publishedInterim, finish.group_eq]
    simpa only [Group.advance, draft.newGC_eq, GroupContext.next] using hinterim
  · have hinterim := run.interim_eq
    rw [← run.confTag_eq] at hinterim
    exact hinterim
  · have hinterim := run.interim_eq
    rw [← run.confTag_eq] at hinterim
    exact hinterim

theorem interimAgrees_of_join {welcome : Bytes} {opt : JoinOptions}
    (hjoin : joinFromWelcome S welcome opt = .ok g) : InterimAgrees S g := by
  obtain ⟨run, rfl⟩ := joinRun_of_joinFromWelcome hjoin
  have hinterim := run.interim_eq
  rw [← run.confTag_eq] at hinterim
  exact hinterim

theorem interimAgrees_of_externalCommit {gi : GroupInfo} {lifetime : Lifetime}
    {rnd : ExternalRandomness}
    {commit : Bytes}
    (henter : externalCommit S gi cred signer lifetime rnd = .ok (g, commit)) :
    InterimAgrees S g := by
  obtain ⟨run, rfl, -⟩ := entryRun_of_externalCommit henter
  exact run.interim_eq

theorem interim_of_newGroup {groupID : Bytes} {lifetime : Lifetime} {seeds : KeyPackageSeeds}
    (hnew : newGroup S groupID cred signer lifetime seeds = .ok g) :
    g.interim = [] := by
  simp only [newGroup, bind_eq_ok, pure_ok_iff] at hnew
  obtain ⟨⟨kp, _, leafPriv⟩, -, treeHash, -, gcBytes, -, es, -, st, -, rfl⟩ := hnew
  rfl

theorem InitialEpoch.not_interimAgrees (hhash : ∀ data, S.hash data ≠ [])
    (hrun : InitialEpoch S g) : ¬ InterimAgrees S g := by
  induction hrun with
  | newGroup groupID cred signer lifetime seeds hnew =>
      intro hagrees
      obtain ⟨input, -, hout⟩ := bind_eq_ok.mp hagrees
      rw [interim_of_newGroup hnew, pure_ok_iff] at hout
      exact hhash _ hout
  | sameEpoch _ hstep ih => rwa [hstep.interimAgrees_congr]

theorem Reached.initial_or_interimAgrees (hrun : Reached S g) :
    InitialEpoch S g ∨ InterimAgrees S g := by
  induction hrun with
  | newGroup groupID cred signer lifetime seeds hnew =>
      exact .inl (.newGroup groupID cred signer lifetime seeds hnew)
  | joinFromWelcome welcome opt hjoin => exact .inr (interimAgrees_of_join hjoin)
  | externalCommit gi cred signer lifetime rnd henter =>
      exact .inr (interimAgrees_of_externalCommit henter)
  | sameEpoch _ hstep ih =>
      rw [hstep.interimAgrees_congr]
      exact ih.imp_left fun hinit => .sameEpoch hinit hstep
  | nextEpoch _ hstep _ => exact .inr hstep.interimAgrees

theorem interimAgrees_iff (hhash : ∀ data, S.hash data ≠ [])
    (hrun : Reached S g) : InterimAgrees S g ↔ ¬ InitialEpoch S g := by
  constructor
  · exact fun hagrees hinit => hinit.not_interimAgrees hhash hagrees
  · exact hrun.initial_or_interimAgrees.resolve_left

def joinFirstEpoch : Result (Group × Group × Bytes) := do
  let a ← newGroup plainSuite [9] (.basic [1]) (some ⟨[1]⟩) ⟨0, 1⟩ ⟨[1, 1], [1, 2]⟩
  let gi ← a.publishGroupInfo plainSuite
  let (b, commit) ← externalCommit plainSuite gi (.basic [2]) (some ⟨[2]⟩) ⟨0, 1⟩
    ⟨[5], ⟨[2, 1], [2, 2]⟩, [11], fun _ _ => []⟩
  return (a, b, commit)

theorem joinFirstEpoch_reached {a b : Group} {commit : Bytes}
    (hrun : joinFirstEpoch = .ok (a, b, commit)) :
    Reached plainSuite a ∧ Reached plainSuite b := by
  simp only [joinFirstEpoch, bind_eq_ok, pure_ok_iff, Prod.mk.injEq] at hrun
  obtain ⟨a, hnew, gi, -, ⟨b, commit⟩, henter, rfl, rfl, rfl⟩ := hrun
  exact ⟨.newGroup _ _ _ _ _ hnew, .externalCommit _ _ _ _ _ henter⟩

/-- `A` refuses the external commit that `B` made from its group information:
the two continue different transcripts. -/
theorem first_epoch_not_joinable :
    ∃ a b commit, joinFirstEpoch = .ok (a, b, commit) ∧ Reached plainSuite a ∧
      ¬ InterimAgrees plainSuite a ∧
      a.processCommit plainSuite [] commit =
        fail "group: processExternalCommit: confirmation_tag mismatch" := by
  obtain ⟨⟨a, b, commit⟩, hrun, htest⟩ : ∃ run, joinFirstEpoch = .ok run ∧
      ¬ InterimAgrees plainSuite run.1 ∧ run.1.processCommit plainSuite [] run.2.2 =
        fail "group: processExternalCommit: confirmation_tag mismatch" := by decide +kernel
  exact ⟨a, b, commit, hrun, (joinFirstEpoch_reached hrun).1, htest⟩

theorem interimAgrees_iff_joiner :
    ∃ a b commit, joinFirstEpoch = .ok (a, b, commit) ∧
      (InterimAgrees plainSuite a ↔ ¬ InitialEpoch plainSuite a) ∧
      (InterimAgrees plainSuite b ↔ ¬ InitialEpoch plainSuite b) := by
  obtain ⟨⟨a, b, commit⟩, hrun⟩ : ∃ run, joinFirstEpoch = .ok run := by decide +kernel
  have hhash : ∀ data, plainSuite.hash data ≠ [] := by
    intro data
    simp [plainSuite, plainDigest]
  obtain ⟨ha, hb⟩ := joinFirstEpoch_reached hrun
  exact ⟨a, b, commit, hrun, interimAgrees_iff hhash ha, interimAgrees_iff hhash hb⟩

end MlsGo
