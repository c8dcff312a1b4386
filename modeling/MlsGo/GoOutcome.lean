import Mathlib.Tactic

/-!
# Outcomes of Go code

Every modelled function returns a `Result`: a value, a Go error, a run-time
panic (an index out of range or a nil dereference), or `diverge` when one of
its loops never exits.  Keeping the last two apart from errors is what lets
termination and memory safety be stated at all.

Maps are association lists in which an assignment shadows older entries.
-/

namespace MlsGo

/-- Error values.  `varintTooLong` and `noPathSecret` are the two that callers
are later told apart by; all others carry the text of the source. -/
inductive Err where
  | text (message : String)
  | varintTooLong (value : ℕ)
  | noPathSecret (node addedLeaf committerLeaf : ℕ)
  | wrap (message : String) (cause : Err)
  deriving DecidableEq, Repr

/-- The three ways in which a Go call does not return a value. -/
inductive Fault where
  | err (error : Err)
  | panic
  | diverge
  deriving DecidableEq, Repr

abbrev Result := Except Fault

def fail {α : Type} (message : String) : Result α := .error (.err (.text message))

def check (p : Prop) [Decidable p] (message : String) : Result Unit :=
  if p then .ok () else fail message

/-- `fmt.Errorf("message: %w", err)`: prefix an error, leave the rest alone. -/
def within {α : Type} (message : String) (result : Result α) : Result α :=
  match result with
  | .error (.err error) => .error (.err (.wrap message error))
  | other => other

/-- A computation that can only return an error becomes a `Result`. -/
def liftErr {α : Type} : Except Err α → Result α
  | .ok value => .ok value
  | .error error => .error (.err error)

def Returns {α : Type} (result : Result α) : Prop :=
  result ≠ .error .panic ∧ result ≠ .error .diverge

variable {α β : Type} {message : String} {value : α} {r : Result α}

@[simp] theorem within_eq_ok {result : Result α} :
    within message result = .ok value ↔ result = .ok value := by
  rcases result with (_ | _ | _) | _ <;> simp [within]

@[simp] theorem within_ok (message : String) (value : α) :
    within message (.ok value) = .ok value := rfl

@[simp] theorem check_eq_ok {p : Prop} [Decidable p] {u : Unit} : check p message = .ok u ↔ p := by
  unfold check
  split <;> simp [fail, *]

@[simp] theorem liftErr_eq_ok {result : Except Err α} :
    liftErr result = .ok value ↔ result = .ok value := by
  cases result <;> simp [liftErr]

@[simp] theorem liftErr_ok (value : α) : liftErr (.ok value) = .ok value := rfl

@[simp] theorem fail_ne_ok : fail message ≠ .ok value := by
  simp [fail]

theorem bind_eq_ok {first : Result α} {next : α → Result β} {value : β} :
    (first >>= next) = .ok value ↔
      ∃ intermediate, first = .ok intermediate ∧ next intermediate = .ok value := by
  cases first with
  | error fault => simp [Bind.bind, Except.bind]
  | ok intermediate => simp [Bind.bind, Except.bind]

@[simp] theorem ok_bind (value : α) (next : α → Result β) :
    ((Except.ok value : Result α) >>= next) = next value := by
  simp only [Bind.bind, Except.bind]

@[simp] theorem error_bind (fault : Fault) (next : α → Result β) :
    ((Except.error fault : Result α) >>= next) = .error fault := by
  simp only [Bind.bind, Except.bind]

@[simp] theorem pure_eq_ok (value : α) : (pure value : Result α) = .ok value := by
  simp only [Pure.pure, Except.pure]

theorem pure_ok_iff {value' : α} : (pure value : Result α) = .ok value' ↔ value = value' := by
  simp only [pure_eq_ok, Except.ok.injEq]

theorem toOption_eq_some : r.toOption = some value ↔ r = .ok value := by
  cases r <;> simp [Except.toOption]

theorem exists_of_isOk (hok : r.isOk = true) : ∃ value, r = .ok value := by
  cases r with
  | error fault => cases hok
  | ok value => exact ⟨value, rfl⟩

theorem exists_of_test {test : α → Bool} (hok : (r.toOption.any test) = true) :
    ∃ value, r = .ok value ∧ test value = true := by
  cases r with
  | error fault => cases hok
  | ok value => exact ⟨value, rfl, hok⟩

/-! Whether a closed call returns a value with a decidable property is decided by
running it. -/

instance decidableReturnsValue : Decidable (∃ value, r = .ok value) :=
  match r with
  | .ok value => isTrue ⟨value, rfl⟩
  | .error _ => isFalse nofun

instance decidableReturnsNone : Decidable (∀ value, r ≠ .ok value) :=
  decidable_of_iff (¬∃ value, r = .ok value) not_exists

instance decidableReturnsSuch {p : α → Prop} [DecidablePred p] :
    Decidable (∃ value, r = .ok value ∧ p value) :=
  match r with
  | .ok value => decidable_of_iff (p value) (by simp)
  | .error _ => isFalse nofun

/-! ## Returning -/

@[simp] theorem returns_ok (value : α) : Returns (.ok value : Result α) := by
  simp [Returns]

@[simp] theorem returns_err (error : Err) : Returns (.error (.err error) : Result α) := by
  simp [Returns]

@[simp] theorem returns_fail (message : String) : Returns (fail message : Result α) := by
  simp [fail]

@[simp] theorem returns_check {p : Prop} [Decidable p] (message : String) :
    Returns (check p message) := by
  unfold check
  split <;> simp

@[simp] theorem returns_liftErr (result : Except Err α) : Returns (liftErr result) := by
  cases result <;> simp [liftErr]

@[simp] theorem returns_within {result : Result α} :
    Returns (within message result) ↔ Returns result := by
  rcases result with (_ | _ | _) | _ <;> simp [within, Returns]

theorem Returns.bind {first : Result α} {next : α → Result β} (hfirst : Returns first)
    (hnext : ∀ value, first = .ok value → Returns (next value)) :
    Returns (first >>= next) := by
  cases first with
  | error fault => simpa [Returns] using hfirst
  | ok value => exact hnext value rfl

/-! ## Maps -/

abbrev GoMap (κ ν : Type) := List (κ × ν)

variable {κ ν : Type} [DecidableEq κ] {map : GoMap κ ν}

def GoMap.get (map : GoMap κ ν) (key : κ) : Option ν := List.lookup key map

def GoMap.set (map : GoMap κ ν) (key : κ) (value : ν) : GoMap κ ν := (key, value) :: map

@[simp] theorem GoMap.get_nil (key : κ) : GoMap.get ([] : GoMap κ ν) key = none := rfl

theorem GoMap.get_set (map : GoMap κ ν) (key other : κ) (value : ν) :
    (map.set key value).get other = if other = key then some value else map.get other := by
  by_cases heq : other = key
  · subst heq
    simp [GoMap.get, GoMap.set]
  · have hne : (other == key) = false := by simpa using heq
    rw [if_neg heq, GoMap.get, GoMap.set, List.lookup_cons, hne]
    rfl

theorem GoMap.mem_of_get {key : κ} {value : ν}
    (hget : map.get key = some value) : (key, value) ∈ map := by
  induction map with
  | nil => simp at hget
  | cons entry rest ih =>
      obtain ⟨storedKey, storedValue⟩ := entry
      have hset : ((storedKey, storedValue) :: rest : GoMap κ ν) =
          GoMap.set rest storedKey storedValue := rfl
      rw [hset, GoMap.get_set] at hget
      by_cases heq : key = storedKey
      · rw [if_pos heq, Option.some.injEq] at hget
        simp [heq, hget]
      · rw [if_neg heq] at hget
        exact List.mem_cons_of_mem _ (ih hget)

theorem GoMap.get_eq_none_iff {key : κ} : map.get key = none ↔ key ∉ map.map Prod.fst := by
  induction map with
  | nil => simp
  | cons entry rest ih =>
      obtain ⟨stored, value⟩ := entry
      change (GoMap.set rest stored value).get key = none ↔ _
      rw [GoMap.get_set]
      by_cases heq : key = stored
      · simp [heq]
      · simp [heq, ih]

theorem GoMap.get_of_mem (hnodup : (map.map Prod.fst).Nodup) {entry : κ × ν} (hmem : entry ∈ map) :
    map.get entry.1 = some entry.2 := by
  induction map with
  | nil => simp at hmem
  | cons head rest ih =>
      obtain ⟨stored, value⟩ := head
      change (GoMap.set rest stored value).get entry.1 = _
      simp only [List.map_cons, List.nodup_cons] at hnodup
      rw [GoMap.get_set]
      rcases List.mem_cons.mp hmem with rfl | hrest
      · simp
      · have hne : entry.1 ≠ stored := by
          rintro rfl
          exact hnodup.1 (List.mem_map_of_mem hrest)
        rw [if_neg hne, ih hnodup.2 hrest]

end MlsGo
