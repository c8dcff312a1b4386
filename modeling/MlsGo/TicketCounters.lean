import Mathlib.Data.List.Iterate
import Mathlib.Tactic

/-!
# Tickets drawn from counters

A ticket office holds one counter for each source.  Issuing takes the current
value of a source and moves its counter on; starting a new epoch may set the
counters to anything.  Within an epoch the values of a source are consecutive,
so a ticket is issued twice only after a counter has run through its period.
The module is parametric in the sources and in the successor of a counter.
-/

namespace TicketCounters

variable {κ γ : Type} [DecidableEq κ] {next : γ → γ}

structure Ticket (κ γ : Type) where
  epoch : ℕ
  source : κ
  value : γ
  deriving DecidableEq, Repr

structure Office (κ γ : Type) where
  epoch : ℕ
  counter : κ → γ
  issued : List (Ticket κ γ)

namespace Office

def issue (next : γ → γ) (o : Office κ γ) (source : κ) : Office κ γ where
  epoch := o.epoch
  counter := Function.update o.counter source (next (o.counter source))
  issued := o.issued ++ [⟨o.epoch, source, o.counter source⟩]

def newEpoch (o : Office κ γ) (counter : κ → γ) : Office κ γ where
  epoch := o.epoch + 1
  counter := counter
  issued := o.issued

def drawn (issued : List (Ticket κ γ)) (epoch : ℕ) (source : κ) : List γ :=
  (issued.filter fun t => t.epoch = epoch ∧ t.source = source).map Ticket.value

theorem drawn_append (issued more : List (Ticket κ γ)) (epoch : ℕ) (source : κ) :
    drawn (issued ++ more) epoch source =
      drawn issued epoch source ++ drawn more epoch source := by
  simp [drawn]

theorem drawn_of_lt {issued : List (Ticket κ γ)} {epoch : ℕ}
    (hpast : ∀ t ∈ issued, t.epoch < epoch) (source : κ) :
    drawn issued epoch source = [] := by
  simp only [drawn, List.map_eq_nil_iff, List.filter_eq_nil_iff]
  intro t ht hmatch
  have hlt := hpast t ht
  simp only [decide_eq_true_eq] at hmatch
  omega

/-- The values of every source and epoch are consecutive, and those of the
current epoch lead up to the counter. -/
structure Consecutive (next : γ → γ) (o : Office κ γ) : Prop where
  past : ∀ t ∈ o.issued, t.epoch ≤ o.epoch
  closed : ∀ epoch source, ∃ first n, drawn o.issued epoch source = List.iterate next first n
  current : ∀ source, ∃ first n,
    drawn o.issued o.epoch source = List.iterate next first n ∧ o.counter source = next^[n] first

theorem consecutive_nil (epoch : ℕ) (counter : κ → γ) : Consecutive next ⟨epoch, counter, []⟩ where
  past := by simp
  closed _ source := ⟨counter source, 0, rfl⟩
  current source := ⟨counter source, 0, rfl, rfl⟩

theorem Consecutive.issue {o : Office κ γ} (ho : o.Consecutive next)
    (source : κ) : (o.issue next source).Consecutive next := by
  have hother : ∀ epoch source', ¬ (o.epoch = epoch ∧ source = source') →
      drawn (o.issue next source).issued epoch source' = drawn o.issued epoch source' := by
    intro epoch source' hne
    simp [Office.issue, drawn, hne]
  -- The new value is the counter, which continues the values drawn so far.
  have hsame : ∃ first n, drawn (o.issue next source).issued o.epoch source =
      List.iterate next first n ∧ next (o.counter source) = next^[n] first := by
    obtain ⟨first, n, hdrawn, hcounter⟩ := ho.current source
    refine ⟨first, n + 1, ?_, ?_⟩
    · rw [Office.issue, drawn_append, hdrawn, List.iterate_add, hcounter]
      simp [drawn]
    · rw [hcounter, Function.iterate_succ_apply']
  refine ⟨?_, ?_, ?_⟩
  · intro t ht
    rcases List.mem_append.mp ht with ht | ht
    · exact ho.past t ht
    · rw [List.mem_singleton.mp ht]
      exact Nat.le_refl _
  · intro epoch source'
    by_cases heq : o.epoch = epoch ∧ source = source'
    · obtain ⟨rfl, rfl⟩ := heq
      obtain ⟨first, n, hdrawn, -⟩ := hsame
      exact ⟨first, n, hdrawn⟩
    · rw [hother epoch source' heq]
      exact ho.closed epoch source'
  · intro source'
    by_cases heq : source = source'
    · subst heq
      obtain ⟨first, n, hdrawn, hnext⟩ := hsame
      exact ⟨first, n, hdrawn, by simpa [Office.issue] using hnext⟩
    · obtain ⟨first, n, hdrawn, hcounter⟩ := ho.current source'
      refine ⟨first, n, ?_, ?_⟩
      · rw [← hdrawn]
        exact hother o.epoch source' fun h => heq h.2
      · rw [← hcounter]
        exact Function.update_of_ne (Ne.symm heq) _ _

theorem Consecutive.newEpoch {o : Office κ γ} (ho : o.Consecutive next)
    (counter : κ → γ) : (o.newEpoch counter).Consecutive next where
  past t ht := Nat.le_succ_of_le (ho.past t ht)
  closed := ho.closed
  current source := by
    refine ⟨counter source, 0, ?_, rfl⟩
    exact drawn_of_lt (fun t ht => Nat.lt_succ_of_le (ho.past t ht)) source

end Office

/-! ## No ticket twice -/

theorem nodup_of_fibers {α β : Type} [DecidableEq β] {key : α → β} {l : List α}
    (hfibers : ∀ b, (l.filter fun a => key a = b).Nodup) : l.Nodup := by
  induction l with
  | nil => exact List.nodup_nil
  | cons a l ih =>
      refine List.nodup_cons.mpr ⟨fun ha => ?_, ih fun b => ?_⟩
      · have hfiber := hfibers (key a)
        rw [List.filter_cons_of_pos (by simp), List.nodup_cons] at hfiber
        exact hfiber.1 (List.mem_filter.mpr ⟨ha, by simp⟩)
      · exact (hfibers b).sublist ((List.sublist_cons_self a l).filter _)

def Period (next : γ → γ) (period : ℕ) : Prop :=
  ∀ first, ∀ i < period, ∀ j < period, next^[i] first = next^[j] first → i = j

theorem Period.nodup_iterate {period n : ℕ} (hperiod : Period next period)
    (first : γ) (hn : n ≤ period) : (List.iterate next first n).Nodup := by
  rw [← List.range_map_iterate]
  refine List.Nodup.map_on ?_ List.nodup_range
  intro i hi j hj heq
  rw [List.mem_range] at hi hj
  exact hperiod first i (by omega) j (by omega) heq

theorem Office.Consecutive.nodup {o : Office κ γ} (ho : o.Consecutive next) {period : ℕ}
    (hperiod : Period next period) (hfew : ∀ epoch source,
    (Office.drawn o.issued epoch source).length ≤ period) :
    o.issued.Nodup := by
  have hfibers : ∀ b : ℕ × κ, (o.issued.filter fun t => (t.epoch, t.source) = b).Nodup := by
    rintro ⟨epoch, source⟩
    obtain ⟨first, n, hdrawn⟩ := ho.closed epoch source
    have hn := hfew epoch source
    have hnodup : (Office.drawn o.issued epoch source).Nodup := by
      rw [hdrawn, List.length_iterate] at hn
      rw [hdrawn]
      exact hperiod.nodup_iterate first hn
    simpa only [Prod.mk.injEq] using List.Nodup.of_map Ticket.value hnodup
  exact nodup_of_fibers hfibers

end TicketCounters
