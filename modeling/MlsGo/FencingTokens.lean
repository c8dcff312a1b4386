import Mathlib.Tactic
import Mathlib.Logic.Function.Basic

/-!
# Fencing tokens and accept-once registers

The general part of a fenced register: systems that emit events while they run,
a wrapping 64-bit counter that mints tokens, and a register in which the first
value proposed for a key stays.
-/

namespace FencingTokens

/-! ## Runs that emit events -/

section Runs

variable {σ α ε : Type} {step : σ → α → Option (σ × List ε)}

/-- A finite run of a step function: the events in the order in which they were
emitted, and the state reached.  A step that returns `none` is not enabled. -/
inductive Run (step : σ → α → Option (σ × List ε)) : σ → List ε → σ → Prop
  | refl (s : σ) : Run step s [] s
  | tail {s t u : σ} {log events : List ε} (a : α)
      (hrun : Run step s log t) (hstep : step t a = some (u, events)) :
      Run step s (log ++ events) u

def exec (step : σ → α → Option (σ × List ε)) (s : σ) :
    List α → Option (σ × List ε)
  | [] => some (s, [])
  | a :: rest =>
      match step s a with
      | none => none
      | some (t, events) =>
          match exec step t rest with
          | none => none
          | some (u, log) => some (u, events ++ log)

variable {log : List ε} {s t : σ}

theorem Run.trans {u : σ} {log' : List ε}
    (hfirst : Run step s log t) (hsecond : Run step t log' u) :
    Run step s (log ++ log') u := by
  induction hsecond with
  | refl => simpa using hfirst
  | tail a _ hstep ih =>
      rw [← List.append_assoc]
      exact .tail a ih hstep

theorem Run.single {events : List ε} {a : α}
    (hstep : step s a = some (t, events)) : Run step s events t := .tail a (.refl s) hstep

/-- An event of a run comes from one of its steps. -/
theorem Run.exists_step {e : ε} (hrun : Run step s log t) (hmem : e ∈ log) :
    ∃ before u a u' events later, Run step s before u ∧ step u a = some (u', events) ∧
      e ∈ events ∧ Run step u' later t := by
  induction hrun with
  | refl => cases hmem
  | tail a hrun hstep ih =>
      rcases List.mem_append.mp hmem with hmem | hmem
      · obtain ⟨before, u, b, u', events, later, hbefore, hb, he, hlater⟩ := ih hmem
        exact ⟨before, u, b, u', events, _, hbefore, hb, he, .tail a hlater hstep⟩
      · exact ⟨_, _, a, _, _, [], hrun, hstep, hmem, .refl _⟩

theorem Run.of_exec {actions : List α}
    (hexec : exec step s actions = some (t, log)) : Run step s log t := by
  induction actions generalizing s t log with
  | nil =>
      simp only [exec, Option.some.injEq, Prod.mk.injEq] at hexec
      obtain ⟨rfl, rfl⟩ := hexec
      exact .refl s
  | cons a rest ih =>
      simp only [exec] at hexec
      split at hexec
      · cases hexec
      · rename_i middle events hstep
        split at hexec
        · cases hexec
        · rename_i last later hrest
          cases hexec
          exact (Run.single hstep).trans (ih hrest)

/-- A property of the state and the events so far that holds at the start and
is kept by every step holds at the end of every run. -/
theorem Run.invariant {P : σ → List ε → Prop}
    (hrun : Run step s log t) (hstart : P s [])
    (hkeep : ∀ s log a t events, P s log → step s a = some (t, events) →
      P t (log ++ events)) : P t log := by
  induction hrun with
  | refl => exact hstart
  | tail a _ hstep ih => exact hkeep _ _ a _ _ ih hstep

end Runs

/-! ## Tokens of a wrapping counter -/

def firstTokens (n : ℕ) : List UInt64 := (List.range n).map fun k => UInt64.ofNat (k + 1)

@[simp] theorem firstTokens_zero : firstTokens 0 = [] := rfl

@[simp] theorem length_firstTokens (n : ℕ) : (firstTokens n).length = n := by
  simp [firstTokens]

theorem firstTokens_succ (n : ℕ) :
    firstTokens (n + 1) = firstTokens n ++ [UInt64.ofNat n + 1] := by
  simp [firstTokens, List.range_succ]

theorem firstTokens_increasing_iff (n : ℕ) : (firstTokens n).Pairwise (· < ·) ↔ n < 2 ^ 64 := by
  have hval : ∀ k, k + 1 < 2 ^ 64 → (UInt64.ofNat (k + 1)).toNat = k + 1 :=
    fun k hk => by simpa using Nat.mod_eq_of_lt hk
  rw [firstTokens, List.pairwise_map, List.pairwise_iff_getElem]
  constructor
  · intro hinc
    by_contra hlarge
    -- the token number `2 ^ 64` is zero, and it is not the first one
    have hwrap := hinc 0 (2 ^ 64 - 1) (by simp; omega) (by simp; omega) (by omega)
    simp [UInt64.lt_iff_toNat_lt] at hwrap
  · intro hn i j hi hj hij
    simp only [List.length_range] at hi hj
    simp only [List.getElem_range, UInt64.lt_iff_toNat_lt]
    rw [hval i (by omega), hval j (by omega)]
    omega

/-! ## Accept-once registers -/

section Register

variable {κ ν : Type}

/-- Propose a value for a key: the first one is decided, and a proposal is
accepted when it is the decided one. -/
def propose [DecidableEq κ] [DecidableEq ν] (decided : κ → Option ν) (key : κ) (value : ν) :
    Bool × (κ → Option ν) :=
  match decided key with
  | some old => (decide (old = value), decided)
  | none => (true, Function.update decided key (some value))

def Answers (slot : Option ν) (value : ν) (ok : Bool) : Prop :=
  (ok = true ↔ slot = some value) ∧ (ok = false → ∃ other, slot = some other ∧ other ≠ value)

instance [DecidableEq ν] (slot : Option ν) (value : ν) (ok : Bool) :
    Decidable (Answers slot value ok) :=
  decidable_of_iff
    ((ok = true ↔ slot = some value) ∧ (ok = false → slot.any (· ≠ value) = true))
    (by simp [Answers, Option.any_eq_true, ne_eq])

theorem answers_false_iff {slot : Option ν} {value : ν} :
    Answers slot value false ↔ ∃ other, slot = some other ∧ other ≠ value := by
  constructor
  · exact fun h => h.2 rfl
  · rintro ⟨other, rfl, hne⟩
    exact ⟨by simpa using hne, fun _ => ⟨other, rfl, hne⟩⟩

variable [DecidableEq κ] [DecidableEq ν] {decided : κ → Option ν} {key : κ} {value : ν}

theorem propose_answers :
    Answers ((propose decided key value).2 key) value (propose decided key value).1 := by
  unfold propose
  cases hslot : decided key with
  | none => simp [Answers]
  | some old => simp [Answers, hslot]

theorem propose_keeps {slot : κ} {old : ν} (hold : decided slot = some old) :
    (propose decided key value).2 slot = some old := by
  unfold propose
  cases hslot : decided key with
  | some _ => exact hold
  | none =>
      have hne : slot ≠ key := fun heq => by simp [heq, hslot] at hold
      simpa [hne] using hold

theorem propose_of_refused (hrefused : (propose decided key value).1 = false) :
    (propose decided key value).2 = decided := by
  unfold propose at hrefused ⊢
  cases hslot : decided key with
  | some _ => rfl
  | none => simp [hslot] at hrefused

theorem propose_of_ne {slot : κ} (hne : slot ≠ key) :
    (propose decided key value).2 slot = decided slot := by
  unfold propose
  cases hslot : decided key with
  | some _ => rfl
  | none => simp [hne]

theorem propose_comp {ι : Type} [DecidableEq ι] {name : ι → κ}
    (hname : Function.Injective name) (decided : κ → Option ν) (i : ι) (value : ν) :
    (propose (decided ∘ name) i value).1 = (propose decided (name i) value).1 ∧
      (propose (decided ∘ name) i value).2 = (propose decided (name i) value).2 ∘ name := by
  unfold propose
  rw [Function.comp_apply]
  cases hslot : decided (name i) with
  | some _ => exact ⟨rfl, rfl⟩
  | none => exact ⟨rfl, (Function.update_comp_eq_of_injective decided hname i _).symm⟩

end Register

end FencingTokens
