import MlsGo.BinaryHeap
import Mathlib.Data.Prod.Lex

/-!
# The event queue of the simulation

`sim/scheduler.go`: events wait in a heap, ordered by their time and, within one time,
by the order in which they were scheduled.  An event that is scheduled into the past happens
now.  Whatever is scheduled in between, the events come out in order, each one once.
-/

namespace MlsGo.Sim

structure Event (ε : Type) where
  time : UInt64
  seq : UInt64
  body : ε

structure Scheduler (ε : Type) where
  clock : UInt64
  seq : UInt64
  pq : Array (Event ε)

variable {ε : Type} {s : Scheduler ε}

def Event.less (e e' : Event ε) : Bool :=
  if e.time ≠ e'.time then e.time < e'.time else e.seq < e'.seq

def Event.key (e : Event ε) : ℕ ×ₗ ℕ := toLex (e.time.toNat, e.seq.toNat)

theorem Event.less_iff (e e' : Event ε) : e.less e' = true ↔ e.key < e'.key := by
  rw [less, key, key, Prod.Lex.toLex_lt_toLex]
  split
  next hne =>
    have hne' : e.time.toNat ≠ e'.time.toNat := fun heq => hne (UInt64.toNat_inj.mp heq)
    simp [hne', UInt64.lt_iff_toNat_lt]
  next heq =>
    rw [not_not.mp heq]
    simp [UInt64.lt_iff_toNat_lt]

def newScheduler : Scheduler ε := ⟨0, 0, #[]⟩

namespace Scheduler

def schedule (s : Scheduler ε) (time : UInt64) (body : ε) : Scheduler ε :=
  let time := if time < s.clock then s.clock else time
  { s with seq := s.seq + 1, pq := BinaryHeap.push Event.key s.pq ⟨time, s.seq, body⟩ }

def pop (s : Scheduler ε) : Option (Event ε × Scheduler ε) :=
  if hne : 0 < s.pq.size then
    let out := BinaryHeap.pop Event.key s.pq hne
    some (out.1, { s with pq := out.2, clock := out.1.time })
  else none

def pending (s : Scheduler ε) : List (Event ε) := s.pq.toList

def stamp (s : Scheduler ε) (time : UInt64) (body : ε) : Event ε :=
  ⟨if time < s.clock then s.clock else time, s.seq, body⟩

theorem schedule_pending (s : Scheduler ε) (time : UInt64) (body : ε) :
    (s.schedule time body).pending.Perm (s.stamp time body :: s.pending) :=
  BinaryHeap.push_perm s.pq _

theorem stamp_clock_le (s : Scheduler ε) (time : UInt64) (body : ε) :
    s.clock ≤ (s.stamp time body).time := by
  unfold stamp
  split
  · exact UInt64.le_refl _
  next hge => exact UInt64.not_lt.mp hge

structure Ready (s : Scheduler ε) : Prop where
  ordered : BinaryHeap.Ordered Event.key s.pq.size s.pq
  ahead : ∀ e ∈ s.pending, s.clock ≤ e.time

theorem newScheduler_ready : (newScheduler : Scheduler ε).Ready :=
  ⟨fun _ _ hp => absurd hp (by simp [newScheduler]), by simp [pending, newScheduler]⟩

theorem Ready.schedule (hready : s.Ready) (time : UInt64) (body : ε) :
    (s.schedule time body).Ready := by
  refine ⟨BinaryHeap.push_ordered s.pq _ hready.ordered, fun e he => ?_⟩
  rcases List.mem_cons.mp ((s.schedule_pending time body).mem_iff.mp he) with rfl | he
  · exact s.stamp_clock_le time body
  · exact hready.ahead e he

theorem Ready.pop {s' : Scheduler ε} {e : Event ε} (hready : s.Ready)
    (hpop : s.pop = some (e, s')) :
    s'.Ready ∧ (e :: s'.pending).Perm s.pending ∧ (∀ x ∈ s'.pending, e.key ≤ x.key) ∧
      s'.clock = e.time ∧ s'.seq = s.seq := by
  unfold Scheduler.pop at hpop
  split at hpop
  next hne =>
    cases hpop
    have hperm : ((BinaryHeap.pop Event.key s.pq hne).1 ::
        (BinaryHeap.pop Event.key s.pq hne).2.toList).Perm s.pq.toList :=
      BinaryHeap.pop_perm s.pq hne
    have hfirst : ∀ x ∈ (BinaryHeap.pop Event.key s.pq hne).2.toList,
        (BinaryHeap.pop Event.key s.pq hne).1.key ≤ x.key := fun x hx =>
      BinaryHeap.pop_first hready.ordered hne (hperm.mem_iff.mp (List.mem_cons_of_mem _ hx))
    refine ⟨⟨BinaryHeap.pop_ordered s.pq hne hready.ordered, fun x hx => ?_⟩, hperm, hfirst,
      rfl, rfl⟩
    -- The key of a later event is not lower, and the time comes first in it.
    have hle := hfirst x hx
    rw [Event.key, Event.key, Prod.Lex.toLex_le_toLex] at hle
    rw [UInt64.le_iff_toNat_le]
    rcases hle with hlt | ⟨heq, -⟩
    · exact hlt.le
    · exact heq.le
  · cases hpop

end Scheduler

/-! ## Runs -/

inductive SchedulerOp (ε : Type) where
  | schedule (time : UInt64) (body : ε)
  | pop

structure SchedulerRun (ε : Type) where
  queue : Scheduler ε
  scheduled : List (Event ε)
  popped : List (Event ε)

namespace SchedulerRun

def start : SchedulerRun ε := ⟨newScheduler, [], []⟩

def step (r : SchedulerRun ε) : SchedulerOp ε → SchedulerRun ε
  | .schedule time body =>
      ⟨r.queue.schedule time body, r.scheduled ++ [r.queue.stamp time body], r.popped⟩
  | .pop =>
      match r.queue.pop with
      | none => r
      | some (e, queue) => ⟨queue, r.scheduled, r.popped ++ [e]⟩

def run (ops : List (SchedulerOp ε)) : SchedulerRun ε := ops.foldl step start

structure InOrder (r : SchedulerRun ε) : Prop where
  ready : r.queue.Ready
  seq_eq : r.queue.seq.toNat = r.scheduled.length
  fresh : ∀ e ∈ r.scheduled, e.seq.toNat < r.queue.seq.toNat
  numbered : r.scheduled.Pairwise fun e e' => e.seq < e'.seq
  accounted : (r.popped ++ r.queue.pending).Perm r.scheduled
  sorted : r.popped.Pairwise fun e e' => e.key < e'.key
  behind : ∀ e ∈ r.popped, e.time ≤ r.queue.clock
  before : ∀ e ∈ r.popped, ∀ x ∈ r.queue.pending, e.key < x.key

theorem inOrder_start : (start : SchedulerRun ε).InOrder where
  ready := Scheduler.newScheduler_ready
  seq_eq := rfl
  fresh := by simp [start]
  numbered := by simp [start]
  accounted := by simp [start, Scheduler.pending, newScheduler]
  sorted := by simp [start]
  behind := by simp [start]
  before := by simp [start]

variable {r : SchedulerRun ε}

theorem InOrder.mem_scheduled (hr : r.InOrder) {e : Event ε}
    (he : e ∈ r.popped ∨ e ∈ r.queue.pending) : e ∈ r.scheduled :=
  hr.accounted.mem_iff.mp (List.mem_append.mpr he)

theorem InOrder.nodup (hr : r.InOrder) : (r.scheduled.map Event.seq).Nodup :=
  List.pairwise_map.mpr (hr.numbered.imp UInt64.ne_of_lt)

theorem InOrder.schedule (hr : r.InOrder) (time : UInt64) (body : ε)
    (hroom : r.scheduled.length + 1 < 2 ^ 64) : (r.step (.schedule time body)).InOrder := by
  have hperm := r.queue.schedule_pending time body
  have hseq : (r.queue.seq + 1).toNat = r.queue.seq.toNat + 1 := by
    rw [UInt64.toNat_add, hr.seq_eq]
    exact Nat.mod_eq_of_lt hroom
  have hclock := r.queue.stamp_clock_le time body
  refine ⟨hr.ready.schedule time body, ?_, fun e he => ?_, ?_, ?_, hr.sorted, hr.behind,
    fun e he x hx => ?_⟩
  · simp only [step, Scheduler.schedule, List.length_append, List.length_singleton]
    rw [hseq, hr.seq_eq]
  · simp only [step, Scheduler.schedule]
    rw [hseq]
    rcases List.mem_append.mp he with he | he
    · exact (hr.fresh e he).trans (Nat.lt_succ_self _)
    · rw [List.mem_singleton.mp he]
      exact Nat.lt_succ_self _
  · refine List.pairwise_append.mpr ⟨hr.numbered, List.pairwise_singleton _ _, ?_⟩
    intro e he e' he'
    rw [List.mem_singleton.mp he']
    exact UInt64.lt_iff_toNat_lt.mpr (hr.fresh e he)
  · simp only [step]
    refine ((List.Perm.append_left r.popped hperm).trans List.perm_middle).trans ?_
    exact (List.Perm.cons _ hr.accounted).trans (List.perm_append_singleton _ _).symm
  · rcases List.mem_cons.mp (hperm.mem_iff.mp hx) with rfl | hx
    · have hbehind := UInt64.le_iff_toNat_le.mp (UInt64.le_trans (hr.behind e he) hclock)
      have hnumber := hr.fresh e (hr.mem_scheduled (.inl he))
      rw [Event.key, Event.key, Prod.Lex.toLex_lt_toLex]
      rcases hbehind.lt_or_eq with hlt | heq
      · exact .inl hlt
      · exact .inr ⟨heq, hnumber⟩
    · exact hr.before e he x hx

theorem InOrder.pop (hr : r.InOrder) : (r.step .pop).InOrder := by
  unfold step
  cases hpop : r.queue.pop with
  | none => exact hr
  | some out =>
      obtain ⟨e, queue⟩ := out
      obtain ⟨hready, hperm, hfirst, hclock, hseq⟩ := hr.ready.pop hpop
      have hmem : ∀ x, x ∈ e :: queue.pending → x ∈ r.queue.pending := fun x hx =>
        hperm.mem_iff.mp hx
      have haccounted : (r.popped ++ [e] ++ queue.pending).Perm r.scheduled := by
        rw [List.append_assoc]
        exact (List.Perm.append_left r.popped hperm).trans hr.accounted
      refine ⟨hready, ?_, ?_, hr.numbered, haccounted, ?_, fun x hx => ?_, fun x hx y hy => ?_⟩
      · exact (congrArg UInt64.toNat hseq).trans hr.seq_eq
      · rw [hseq]
        exact hr.fresh
      · refine List.pairwise_append.mpr ⟨hr.sorted, List.pairwise_singleton _ _, ?_⟩
        intro x hx y hy
        rw [List.mem_singleton.mp hy]
        exact hr.before x hx e (hmem e List.mem_cons_self)
      · rw [hclock]
        rcases List.mem_append.mp hx with hx | hx
        · exact UInt64.le_trans (hr.behind x hx) (hr.ready.ahead e (hmem e List.mem_cons_self))
        · rw [List.mem_singleton.mp hx]
          exact UInt64.le_refl _
      · rcases List.mem_append.mp hx with hx | hx
        · exact hr.before x hx y (hmem y (List.mem_cons_of_mem _ hy))
        · rw [List.mem_singleton.mp hx]
          refine lt_of_le_of_ne (hfirst y hy) fun hkey => ?_
          -- Two events with one number.
          have hnumbers := (haccounted.map Event.seq).nodup_iff.mpr hr.nodup
          rw [List.append_assoc, List.map_append] at hnumbers
          have hrest := (List.nodup_append.mp hnumbers).2.1
          rw [List.singleton_append, List.map_cons, List.nodup_cons] at hrest
          have hsame : e.seq = y.seq := UInt64.toNat_inj.mp (Prod.mk.inj (toLex_inj.mp hkey)).2
          exact hrest.1 (hsame ▸ List.mem_map_of_mem hy)

theorem run_concat (ops : List (SchedulerOp ε)) (op : SchedulerOp ε) :
    run (ops ++ [op]) = (run ops).step op := by
  rw [run, List.foldl_append]
  rfl

theorem step_pop_scheduled (r : SchedulerRun ε) : (r.step .pop).scheduled = r.scheduled := by
  cases hpop : r.queue.pop with
  | none => simp only [step, hpop]
  | some out => simp only [step, hpop]

theorem length_scheduled_le (ops : List (SchedulerOp ε)) :
    (run ops).scheduled.length ≤ ops.length := by
  induction ops using List.reverseRecOn with
  | nil => exact le_rfl
  | append_singleton ops op ih =>
      rw [run_concat, List.length_append, List.length_singleton]
      cases op with
      | schedule time body =>
          simp only [step, List.length_append, List.length_singleton]
          exact Nat.add_le_add_right ih 1
      | pop =>
          rw [step_pop_scheduled]
          exact Nat.le_succ_of_le ih

/-- Whatever is scheduled in between, events come out in the order of their keys; those that
have come out and those that wait are those that were scheduled, and none that waits comes
before one that has come out.  Events are numbered as they are scheduled. -/
theorem pops_in_order (ops : List (SchedulerOp ε)) (hroom : ops.length < 2 ^ 64) :
    (run ops).popped.Pairwise (fun e e' => e.key < e'.key) ∧
      ((run ops).popped ++ (run ops).queue.pending).Perm (run ops).scheduled ∧
      (∀ e ∈ (run ops).popped, ∀ x ∈ (run ops).queue.pending, e.key < x.key) ∧
      (run ops).scheduled.Pairwise fun e e' => e.seq < e'.seq := by
  have hall : (run ops).InOrder := by
    induction ops using List.reverseRecOn with
    | nil => exact inOrder_start
    | append_singleton ops op ih =>
        rw [List.length_append, List.length_singleton] at hroom
        have hprior := ih (by omega)
        have hlength := length_scheduled_le ops
        rw [run_concat]
        cases op with
        | schedule time body => exact hprior.schedule time body (by omega)
        | pop => exact hprior.pop
  exact ⟨hall.sorted, hall.accounted, hall.before, hall.numbered⟩

def fourEvents : List (SchedulerOp Char) :=
  [.schedule 5 'a', .schedule 3 'b', .pop, .schedule 1 'c', .schedule 4 'd', .pop, .pop]

theorem pops_in_order_four :
    (run fourEvents).popped.map Event.body = ['b', 'c', 'd'] ∧
      (run fourEvents).popped.Pairwise (fun e e' => e.key < e'.key) ∧
      ((run fourEvents).popped ++ (run fourEvents).queue.pending).Perm (run fourEvents).scheduled ∧
      (∀ e ∈ (run fourEvents).popped, ∀ x ∈ (run fourEvents).queue.pending, e.key < x.key) ∧
      (run fourEvents).scheduled.Pairwise fun e e' => e.seq < e'.seq :=
  ⟨by decide +kernel, pops_in_order fourEvents (by decide)⟩

end SchedulerRun

end MlsGo.Sim
