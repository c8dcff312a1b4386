import MlsGo.FencingSafety

/-!
# What the answers of a sequencer mean

Callers take `(false, nil)` for a lost race.  The register keeps to that: a
write that gets through is answered by what is decided afterwards.  A sequencer
that another owner's lease keeps out answers `(false, nil)` without looking at
the register, and this answer agrees with the register only when a different
commit is decided there.
-/

namespace MlsGo.Sequencer

open FencingTokens

variable {ι : Type} [DecidableEq ι] {w w' : World ι}
  {events log : List (Event ι)} {i : ι} {call : Call} {ok : Bool}

def World.after (w : World ι) (i : ι)
    (out : Result Bool × FencedSequencer × MemoryLeaseStore × FencedRegister) :
    World ι := { w with store := out.2.2.1, reg := out.2.2.2 }.keep i out.2.1

/-- With nobody else moving, the steps of a call do what the method does. -/
theorem acceptCommit_run (call : Call) (now storeNow : Time) (hidle : w.phases i = .idle) :
    ∃ log, w.Run log (w.after i ((w.sequencers i).acceptCommit w.store w.reg call now storeNow)) ∧
      Event.answered i call
        ((w.sequencers i).acceptCommit w.store w.reg call now storeNow).1 ∈ log := by
  generalize hout : (w.sequencers i).acceptCommit w.store w.reg call now storeNow = out
  have hback : ∀ phase, Function.update (Function.update w.phases i phase) i .idle = w.phases := by
    intro phase
    rw [Function.update_idem, ← hidle, Function.update_eq_self]
  by_cases hgroup : call.group = (w.sequencers i).group
  · have henter : w.step (.enter i call now) = some (w.move i (if (w.sequencers i).needsLease now
        then .leasing call else .writing call), []) := by
      simp [World.step, World.enter, hgroup, hidle]
    cases hneeds : (w.sequencers i).needsLease now with
    | true =>
        rw [hneeds, if_pos rfl] at henter
        rcases hacquire : w.store.acquire (w.sequencers i).vni
          (w.sequencers i).owner (w.sequencers i).ttl storeNow with ⟨lease, store⟩
        cases lease with
        | none =>
            simp only [FencedSequencer.acceptCommit, hgroup, ne_eq, not_true_eq_false,
              if_false, hneeds, if_true, hacquire] at hout
            have hlease : (w.move i (.leasing call)).step (.lease i storeNow) =
                some (w.after i out, [.answered i call out.1]) := by
              simp [← hout, World.step, World.lease, World.move, World.keep,
                World.after, hacquire, hback]
            exact ⟨_, .tail _ (.single henter) hlease, by simp⟩
        | some l =>
            simp only [FencedSequencer.acceptCommit, hgroup, ne_eq, not_true_eq_false,
              if_false, hneeds, if_true, hacquire] at hout
            have hlease : (w.move i (.leasing call)).step (.lease i storeNow) =
                some (({ w with store }.keep i
                  { w.sequencers i with lease := l, held := true }).move i
                    (.writing call), [.minted l.vni l.token]) := by
              simp [World.step, World.lease, World.move, World.keep, hacquire,
                mintedBy, Function.update_idem]
            have hwrite : (({ w with store }.keep i
                  { w.sequencers i with lease := l, held := true }).move i
                    (.writing call)).step (.write i) =
                some (w.after i out, passedBy (w.sequencers i).vni l.token out.1 ++
                  [.answered i call out.1]) := by
              simp [← hout, World.step, World.write, World.move, World.keep, World.after, hback]
            exact ⟨_, .tail _ (.tail _ (.single henter) hlease) hwrite, by simp⟩
    | false =>
        rw [hneeds, if_neg (by simp)] at henter
        simp only [FencedSequencer.acceptCommit, hgroup, ne_eq, not_true_eq_false,
          if_false, hneeds, Bool.false_eq_true] at hout
        have hwrite : (w.move i (.writing call)).step (.write i) =
            some (w.after i out, passedBy (w.sequencers i).vni
              (w.sequencers i).lease.token out.1 ++ [.answered i call out.1]) := by
          simp [← hout, World.step, World.write, World.move, World.keep, World.after, hback]
        exact ⟨_, .tail _ (.single henter) hwrite, by simp⟩
  · simp only [FencedSequencer.acceptCommit, ne_eq, hgroup, not_false_eq_true, if_true] at hout
    have henter : w.step (.enter i call now) = some (w.after i out, [.answered i call out.1]) := by
      simp [← hout, World.step, World.enter, hgroup, World.after, World.keep]
    exact ⟨_, .single henter, by simp⟩

/-- An answer without an error comes from a write that got through, or from a
request for a lease that the store refused. -/
theorem World.answered_cases {a : Action ι} (hstep : w.step a = some (w', events))
    (hanswer : Event.answered i call (.ok ok) ∈ events) :
    (∃ now, a = .lease i now ∧ w.phases i = .leasing call ∧
        w.store.blockedBy (w.sequencers i).vni (w.sequencers i).owner now = true ∧
        ok = false ∧ w'.reg = w.reg) ∨
      (a = .write i ∧ w.phases i = .writing call ∧
        Answers (w'.reg.decision call.group call.epoch) call.commit ok) := by
  cases a with
  | enter j other now =>
      simp only [World.step, World.enter] at hstep
      split at hstep
      · cases hstep
        simp at hanswer
      · split at hstep
        · cases hstep
          simp at hanswer
        · cases hstep
  | lease j now =>
      obtain ⟨other, hphase, hblocked | hgranted⟩ := World.lease_cases hstep
      · obtain ⟨hblocked, hreg, -, rfl⟩ := hblocked
        simp only [List.mem_singleton, Event.answered.injEq, Except.ok.injEq] at hanswer
        obtain ⟨rfl, rfl, rfl⟩ := hanswer
        exact .inl ⟨now, rfl, hphase, hblocked, rfl, hreg⟩
      · obtain ⟨-, -, -, rfl⟩ := hgranted
        simp at hanswer
  | write j =>
      obtain ⟨other, result, hphase, -, haccepts, rfl⟩ := World.write_cases hstep
      have hlast : Event.answered i call (.ok ok) = .answered j other result := by
        rcases List.mem_append.mp hanswer with hpassed | hlast
        · cases result <;> simp [passedBy] at hpassed
        · simpa using hlast
      cases hlast
      exact .inr ⟨rfl, hphase, haccepts.answers⟩
  | acquire vni owner ttl now =>
      simp only [World.step] at hstep
      cases hstep
      cases hlease : (w.store.acquire vni owner ttl now).1 with
      | none => simp [hlease, mintedBy] at hanswer
      | some l => simp [hlease, mintedBy] at hanswer
  | renew vni owner token ttl now =>
      cases hstep
      simp at hanswer
  | release vni owner token =>
      cases hstep
      simp at hanswer

/-- No request for a lease is refused because of another owner, except where a
different commit is decided already. -/
def World.Unblocked (w : World ι) (a : Action ι) : Prop :=
  ∀ (i : ι) (now : Time) (call : Call), a = .lease i now →
    w.phases i = .leasing call →
    w.store.blockedBy (w.sequencers i).vni (w.sequencers i).owner now = true →
    ∃ other, w.reg.decision call.group call.epoch = some other ∧ other ≠ call.commit

theorem World.Unblocked.answers {a : Action ι} (hfree : w.Unblocked a)
    (hstep : w.step a = some (w', events)) (hanswer : Event.answered i call (.ok ok) ∈ events) :
    Answers (w'.reg.decision call.group call.epoch) call.commit ok := by
  rcases World.answered_cases hstep hanswer with hrefused | ⟨-, -, hanswers⟩
  · obtain ⟨now, rfl, hphase, hblocked, rfl, hreg⟩ := hrefused
    rw [hreg, answers_false_iff]
    exact hfree i now call rfl hphase hblocked
  · exact hanswers

/-- An answer without an error agrees with the register exactly when the step
that gives it is not the refusal of a lease for a slot that is undecided or
decided for the submitted commit.  This holds in every state, so at every answer
of every interleaving. -/
theorem answer_agrees_iff {a : Action ι} {call : Call} {ok : Bool}
    (hstep : w.step a = some (w', events)) (hanswer : Event.answered i call (.ok ok) ∈ events) :
    Answers (w'.reg.decision call.group call.epoch) call.commit ok ↔ w.Unblocked a := by
  refine ⟨fun hagrees j now other hact hphase _ => ?_, fun hfree => hfree.answers hstep hanswer⟩
  rcases World.answered_cases hstep hanswer with hrefused | ⟨hwrite, -⟩
  · obtain ⟨_, rfl, hphase', -, rfl, hreg⟩ := hrefused
    cases hact
    cases hphase.symm.trans hphase'
    rwa [hreg, answers_false_iff] at hagrees
  · cases hwrite.symm.trans hact

/-- The standby takes over and decides epoch 6. -/
theorem answer_agrees_takeover :
    ∃ log w w' events, (World.start handoverBindings).Run log w ∧
      w.step (.write true) = some (w', events) ∧
      Event.answered true ⟨[7], 6, [2]⟩ (.ok true) ∈ events ∧
      (Answers (w'.reg.decision [7] 6) [2] true ↔ w.Unblocked (.write true)) := by
  obtain ⟨log, w, hrun, htest⟩ :=
    exists_run_of_test handoverBindings (handoverRefused ++ handoverTakeover.take 2)
      (fun out => (out.1.step (.write true)).any fun (next : World Bool × List (Event Bool)) =>
          decide (Event.answered true ⟨[7], 6, [2]⟩ (.ok true) ∈ next.2))
      (by decide +kernel)
  obtain ⟨⟨w', events⟩, hstep, hmem⟩ := (Option.any_eq_true _ _).mp htest
  have hanswer : Event.answered true ⟨[7], 6, [2]⟩ (.ok true) ∈ events := of_decide_eq_true hmem
  have hagrees := answer_agrees_iff hstep hanswer
  exact ⟨log, w, w', events, hrun, hstep, hanswer, hagrees⟩

/-- Every answer of a run was given at a step of it, and if no lease was refused there, the
register agrees with it for the rest of the run. -/
theorem World.Run.answers_agree (hrun : w.Run log w')
    (hanswer : Event.answered i call (.ok ok) ∈ log) :
    ∃ before v a v' events later, w.Run before v ∧ v.step a = some (v', events) ∧
      Event.answered i call (.ok ok) ∈ events ∧ v'.Run later w' ∧
      (v.Unblocked a → Answers (w'.reg.decision call.group call.epoch) call.commit ok) := by
  obtain ⟨before, v, a, v', events, later, hbefore, hstep, hmem, hlater⟩ :=
    hrun.exists_step hanswer
  refine ⟨before, v, a, v', events, later, hbefore, hstep, hmem, hlater, fun hfree => ?_⟩
  have hanswers := hfree.answers hstep hmem
  cases ok with
  | true => exact ⟨iff_of_true rfl (World.Run.keeps hlater (hanswers.1.mp rfl)), nofun⟩
  | false =>
      obtain ⟨other, hdecided, hne⟩ := answers_false_iff.mp hanswers
      exact answers_false_iff.mpr ⟨other, World.Run.keeps hlater hdecided, hne⟩

/-- While the lease of the primary is valid, the standby answers `(false, nil)`
for an epoch nobody has decided. -/
theorem standby_refuses_undecided :
    ∃ (log : List (Event Bool)) (w : World Bool), (World.start handoverBindings).Run log w ∧
      Event.answered true ⟨[7], 6, [2]⟩ (.ok false) ∈ log ∧ w.reg.decision [7] 6 = none ∧
      ¬ Answers (w.reg.decision [7] 6) [2] false := by
  obtain ⟨log, w, hrun, htest⟩ :=
    exists_run_of_test handoverBindings handoverRefused
      (fun out => decide (Event.answered true ⟨[7], 6, [2]⟩ (.ok false) ∈ out.2 ∧
        out.1.reg.decision [7] 6 = none))
      (by decide +kernel)
  obtain ⟨hanswer, hundecided⟩ := of_decide_eq_true htest
  refine ⟨log, w, hrun, hanswer, hundecided, ?_⟩
  rw [hundecided, answers_false_iff]
  simp

end MlsGo.Sequencer
