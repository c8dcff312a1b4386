import MlsGo.VniController

/-!
# When the ordering service fails

`Rekey` and `Reconcile` ask the ordering service about a commit that the group
has already made.  Whatever the answer, the group is in the next epoch by then;
the associations follow only when the commit has won.  After an error the
controller is therefore one epoch ahead of its associations, and a retry
competes for the next slot.
-/

namespace MlsGo

variable (S : Suite) (registry : UInt16 → Option Suite)

inductive CommittingCall where
  | rekey (rnd : CommitRandomness)
  | reconcile (desired : List Bytes) (rnd : CommitRandomness)

structure Submission where
  groupID : Bytes
  epoch : UInt64
  ref : Bytes
  deriving DecidableEq, Repr

namespace Controller

def after (c : Controller) : CommittingCall → Controller
  | .rekey rnd => (c.rekey S registry rnd).controller
  | .reconcile desired rnd => (c.reconcile S registry desired rnd).controller

def proposes (c : Controller) (g : Group) :
    CommittingCall → Option (List Proposal × CommitRandomness)
  | .rekey rnd => if g.isCommitter then some ([], rnd) else none
  | .reconcile desired rnd =>
      match c.planReconcile g desired with
      | .ok (some plan) => if plan.proposals.isEmpty then none else some (plan.proposals, rnd)
      | _ => none

def submission (c : Controller) (call : CommittingCall) : Option Submission := do
  let g ← c.g
  let (byValue, rnd) ← c.proposes g call
  let res ← (g.commit S ⟨byValue, []⟩ rnd).toOption
  return ⟨c.groupID, g.groupContext.epoch, c.cfg.suite.hash res.commit⟩

def answer (c : Controller) (q : Submission) : Except Err Bool :=
  c.cfg.ordering q.groupID q.epoch q.ref

structure Unmoved (c c' : Controller) : Prop where
  epoch : c'.epoch = c.epoch
  group : c'.g = c.g
  currentSA : c'.currentSA = c.currentSA
  previousSA : c'.previousSA = c.previousSA

variable {S registry} {c : Controller} {call : CommittingCall}

theorem after_of_proposes {g : Group} {byValue : List Proposal} {rnd : CommitRandomness}
    (hg : c.g = some g) (hproposes : c.proposes g call = some (byValue, rnd)) :
    c.after S registry call = (c.commitAndOrder S registry g byValue rnd).controller := by
  cases call with
  | rekey rnd' =>
      simp only [proposes, Option.ite_none_right_eq_some, Option.some.injEq,
        Prod.mk.injEq] at hproposes
      obtain ⟨hcommitter, rfl, rfl⟩ := hproposes
      simp only [after, rekey, hg, hcommitter, if_true]
  | reconcile desired rnd' =>
      simp only [proposes] at hproposes
      split at hproposes
      next plan hplan =>
        split at hproposes
        · cases hproposes
        next hsome =>
          cases hproposes
          simp only [after, reconcile, hg, hplan, hsome, Bool.false_eq_true, if_false]
          split <;> rfl
      · cases hproposes

variable {q : Submission}

theorem submission_eq_some :
    c.submission S call = some q ↔
      ∃ g byValue rnd res, c.g = some g ∧
        c.proposes g call = some (byValue, rnd) ∧
        g.commit S ⟨byValue, []⟩ rnd = .ok res ∧
        q = ⟨c.groupID, g.groupContext.epoch, c.cfg.suite.hash res.commit⟩ := by
  simp only [submission, Option.bind_eq_bind, Option.bind_eq_some_iff,
    toOption_eq_some, Option.pure_def, Option.some.injEq, Prod.exists]
  constructor
  · rintro ⟨g, hg, byValue, rnd, hproposes, res, hcommit, rfl⟩
    exact ⟨g, byValue, rnd, res, hg, hproposes, hcommit, rfl⟩
  · rintro ⟨g, byValue, rnd, res, hg, hproposes, hcommit, rfl⟩
    exact ⟨g, hg, byValue, rnd, hproposes, res, hcommit, rfl⟩

theorem after_of_error {error : Err} (hsubmission : c.submission S call = some q)
    (herror : c.answer q = .error error) :
    ∃ g g', c.g = some g ∧ EpochStep S g g' ∧
      c.after S registry call = { c with g := some g' } := by
  obtain ⟨g, byValue, rnd, res, hg, hproposes, hcommit, rfl⟩ := submission_eq_some.mp hsubmission
  refine ⟨g, res.group, hg, .commit _ _ hcommit, ?_⟩
  rw [after_of_proposes hg hproposes]
  simp only [answer] at herror
  simp only [commitAndOrder, hcommit, herror]

theorem epoch_after_of_error {error : Err} (hsubmission : c.submission S call = some q)
    (herror : c.answer q = .error error) :
    (c.after S registry call).epoch = c.epoch + 1 ∧ (c.after S registry call).curSA = c.curSA := by
  have hmoved : ∃ g g', c.g = some g ∧ EpochStep S g g' ∧
      c.after S registry call = { c with g := some g' } := after_of_error hsubmission herror
  obtain ⟨g, g', hg, hstep, hafter⟩ := hmoved
  refine ⟨?_, by rw [hafter]⟩
  rw [hafter, epoch, epoch, hg]
  exact hstep.epoch_eq

theorem unmoved_on_error_iff (S : Suite) (registry : UInt16 → Option Suite)
    (c : Controller) (call : CommittingCall) :
    (∀ q error, c.submission S call = some q → c.answer q = .error error →
        c.Unmoved (c.after S registry call)) ↔
      ∀ q, c.submission S call = some q → ∃ accepted, c.answer q = .ok accepted := by
  constructor
  · intro hunmoved q hsubmission
    cases hanswer : c.answer q with
    | ok accepted => exact ⟨accepted, rfl⟩
    | error error =>
        have hsame := (hunmoved q error hsubmission hanswer).epoch
        have hnext : (c.after S registry call).epoch = c.epoch + 1 :=
          (epoch_after_of_error hsubmission hanswer).1
        rw [hnext] at hsame
        simp at hsame
  · intro hanswers q error hsubmission herror
    obtain ⟨accepted, haccepted⟩ := hanswers q hsubmission
    rw [haccepted] at herror
    cases herror

end Controller

/-! ### An ordering service that times out -/

def silentConfig : ControllerConfig where
  vni := 7
  suite := plainSuite
  ordering := fun _ _ _ => .error (.text "context deadline exceeded")
  validator := none
  resolve := none
  handshakePlaintext := true

def silentController : Result Controller := do
  let g ← newGroup plainSuite (vniGroupID 7) (.basic [1]) (some ⟨[1]⟩) ⟨0, 1⟩ ⟨[1, 1], [1, 2]⟩
  newController plainSuite (fun _ => some plainSuite) silentConfig (some g)

def silentRandomness : CommitRandomness := ⟨[11], fun _ _ => [], ⟨0, 0, 0, 0⟩, fun _ => []⟩

/-- `Rekey` fails with the ordering service, and leaves the group in an epoch
whose association the controller does not hold. -/
theorem rekey_moves_on_error :
    ∃ c q error sa, silentController = .ok c ∧
      c.submission plainSuite (.rekey silentRandomness) = some q ∧
      c.answer q = .error error ∧
      ¬ c.Unmoved (c.after plainSuite (fun _ => some plainSuite) (.rekey silentRandomness)) ∧
      c.curSA = some sa ∧ sa.epoch = c.epoch ∧
      (c.after plainSuite (fun _ => some plainSuite) (.rekey silentRandomness)).curSA = some sa ∧
      (c.after plainSuite (fun _ => some plainSuite)
        (.rekey silentRandomness)).epoch ≠ sa.epoch := by
  obtain ⟨c, hc, ⟨q, hsubmission, hanswer⟩, sa, hsa, hepoch⟩ : ∃ c, silentController = .ok c ∧
      (∃ q ∈ c.submission plainSuite (.rekey silentRandomness), (c.answer q).isOk = false) ∧
      ∃ sa ∈ c.curSA, sa.epoch = c.epoch := by decide +kernel
  rw [Option.mem_def] at hsubmission hsa
  cases herror : c.answer q with
  | ok accepted =>
      rw [herror] at hanswer
      cases hanswer
  | error error =>
      have hmoved : (c.after plainSuite (fun _ => some plainSuite)
            (.rekey silentRandomness)).epoch = c.epoch + 1 ∧
          (c.after plainSuite (fun _ => some plainSuite)
            (.rekey silentRandomness)).curSA = c.curSA :=
        Controller.epoch_after_of_error hsubmission herror
      refine ⟨c, q, error, sa, hc, hsubmission, herror, fun hunmoved => ?_, hsa,
        hepoch, by rw [hmoved.2, hsa], ?_⟩
      · have hsame := hunmoved.epoch
        rw [hmoved.1] at hsame
        simp at hsame
      · rw [hmoved.1, hepoch]
        simp

end MlsGo
