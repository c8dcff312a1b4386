import MlsGo.SenderSlots

/-!
# Generation counters at the start of an epoch

`Commit` and the path of `ProcessCommit` for member commits set both generation
counters to zero.  The path for external commits sets `appGeneration` only: the
handshake counter keeps the value it had, so it restarts exactly if no handshake
message of the old epoch had moved it.
-/

namespace MlsGo

variable {S : Suite} {g g' : Group} {proposals : List Bytes} {c : SenderCall}

def Group.afterAll (S : Suite) (g : Group) (calls : List SenderCall) : Group :=
  calls.foldl (Group.after S) g

def Group.Advances (S : Suite) (g : Group) : SenderCall → Prop
  | .commit opt rnd => ∃ res, g.commit S opt rnd = .ok res
  | .processCommit proposals commit => ∃ g', g.processCommit S proposals commit = .ok g'
  | _ => False

def Group.FollowsExternal (S : Suite) (g : Group) : SenderCall → Prop
  | .processCommit proposals commit =>
      (∃ m, unmarshalMLSMessage commit = .ok m ∧ m.isExternalCommit = true) ∧
        ∃ g', g.processCommit S proposals commit = .ok g'
  | _ => False

def Group.CountersZero (g : Group) : Prop := g.appGeneration = 0 ∧ g.handshakeGeneration = 0

theorem countersZero_of_commit {opt : CommitOptions} {rnd : CommitRandomness}
    {res : CommitResult} (hrun : g.commit S opt rnd = .ok res) :
    res.group.CountersZero := by
  obtain ⟨d, -, ⟨finish⟩⟩ := runs_of_commit hrun
  rw [finish.group_eq]
  exact ⟨rfl, rfl⟩

theorem countersZero_of_memberCommit {commit : Bytes}
    (hrun : g.processCommit S proposals commit = .ok g')
    (hmember : ∀ m, unmarshalMLSMessage commit = .ok m → m.isExternalCommit = false) :
    g'.CountersZero := by
  rcases processCommit_eq_ok.mp hrun with ⟨o, run, rfl⟩ | ⟨_, m, _, -, hm, hext, -⟩
  · exact ⟨rfl, rfl⟩
  · rw [hmember m hm] at hext
    cases hext

theorem countersZero_iff_of_externalCommit {commit : Bytes} {m : MLSMessage}
    (hrun : g.processCommit S proposals commit = .ok g') (hm : unmarshalMLSMessage commit = .ok m)
    (hext : m.isExternalCommit = true) :
    g'.CountersZero ↔ g.handshakeGeneration = 0 := by
  rcases processCommit_eq_ok.mp hrun with ⟨o, run, rfl⟩ | ⟨_, _, run, -, -, -, rfl⟩
  · cases hm.symm.trans o.message_eq
    rw [o.member] at hext
    cases hext
  · exact and_iff_right rfl

theorem Group.countersZero_after_iff (hadvances : g.Advances S c) :
    (g.after S c).CountersZero ↔ (g.FollowsExternal S c → g.handshakeGeneration = 0) := by
  cases c with
  | commit opt rnd =>
      obtain ⟨res, hrun⟩ := hadvances
      simp only [Group.after, hrun, Group.FollowsExternal]
      exact iff_of_true (countersZero_of_commit hrun) False.elim
  | processCommit proposals commit =>
      obtain ⟨g', hrun⟩ := hadvances
      simp only [Group.after, hrun, Group.FollowsExternal]
      by_cases hext : ∃ m, unmarshalMLSMessage commit = .ok m ∧ m.isExternalCommit = true
      · obtain ⟨m, hm, hexternal⟩ := hext
        rw [countersZero_iff_of_externalCommit hrun hm hexternal]
        exact ⟨fun hzero _ => hzero, fun himp => himp ⟨⟨m, hm, hexternal⟩, g', rfl⟩⟩
      · refine iff_of_true (countersZero_of_memberCommit hrun fun m hm => ?_)
          fun hfollows => absurd hfollows.1 hext
        by_contra hne
        exact hext ⟨m, hm, by simpa using hne⟩
  | protectApplication _ _ _ | proposeUpdate _ | frameProposal _ _
    | setEncryptHandshakes _ => exact hadvances.elim

theorem Group.FollowsExternal.advances (hfollows : g.FollowsExternal S c) : g.Advances S c := by
  cases c with
  | processCommit proposals commit => exact hfollows.2
  | protectApplication _ _ _ | proposeUpdate _ | frameProposal _ _ | commit _ _
    | setEncryptHandshakes _ => exact hfollows.elim

/-- In a run both counters are zero at the start of every epoch, if and only if
every external commit finds the handshake counter at zero. -/
theorem counters_restart_iff (S : Suite) (start : Group) (calls : List SenderCall) :
    (∀ before c rest, calls = before ++ c :: rest →
      (start.afterAll S before).Advances S c →
        ((start.afterAll S before).after S c).CountersZero) ↔
    ∀ before c rest, calls = before ++ c :: rest →
      (start.afterAll S before).FollowsExternal S c →
        (start.afterAll S before).handshakeGeneration = 0 := by
  constructor
  · intro hzero before c rest hcalls hfollows
    have hadvances := hfollows.advances
    exact (Group.countersZero_after_iff hadvances).mp
      (hzero before c rest hcalls hadvances) hfollows
  · intro hfirst before c rest hcalls hadvances
    exact (Group.countersZero_after_iff hadvances).mpr fun hfollows =>
      hfirst before c rest hcalls hfollows

/-! ### A proposal before an external commit -/

def framedBeforeJoin : List SenderCall :=
  [.commit ⟨[], []⟩ ⟨[11], fun _ _ => [], ⟨0, 0, 0, 0⟩, fun _ => []⟩,
    .setEncryptHandshakes true, .frameProposal (.remove 1) ⟨0, 0, 0, 0⟩]

/-- The creator of a group, and the external commit of `B` to the state after
the calls. -/
def joinAfterFramed : Result (Group × Bytes) := do
  let start ← newGroup plainSuite [9] (.basic [1]) (some ⟨[1]⟩) ⟨0, 1⟩ ⟨[1, 1], [1, 2]⟩
  let gi ← (start.afterAll plainSuite framedBeforeJoin).publishGroupInfo plainSuite
  let (_, commit) ← externalCommit plainSuite gi (.basic [2]) (some ⟨[2]⟩) ⟨0, 1⟩
    ⟨[5], ⟨[2, 1], [2, 2]⟩, [12], fun _ _ => []⟩
  return (start, commit)

/-- `A` enters the epoch of `B`'s external commit with its handshake counter
at one. -/
theorem handshake_counter_kept :
    ∃ start commit, newGroup plainSuite [9] (.basic [1]) (some ⟨[1]⟩) ⟨0, 1⟩
        ⟨[1, 1], [1, 2]⟩ = .ok start ∧
      (start.afterAll plainSuite framedBeforeJoin).Advances plainSuite (.processCommit [] commit) ∧
      ((start.afterAll plainSuite framedBeforeJoin).after plainSuite
        (.processCommit [] commit)).handshakeGeneration = 1 := by
  obtain ⟨⟨start, commit⟩, hrun, htest⟩ : ∃ run, joinAfterFramed = .ok run ∧
      (∃ g, (run.1.afterAll plainSuite framedBeforeJoin).processCommit plainSuite []
        run.2 = .ok g) ∧
      ((run.1.afterAll plainSuite framedBeforeJoin).after plainSuite
        (.processCommit [] run.2)).handshakeGeneration = 1 := by decide +kernel
  simp only [joinAfterFramed, bind_eq_ok, pure_ok_iff, Prod.mk.injEq] at hrun
  obtain ⟨start, hnew, gi, -, joined, -, rfl, rfl⟩ := hrun
  exact ⟨start, joined.2, hnew, htest⟩

end MlsGo
