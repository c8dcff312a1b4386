import Mathlib.Tactic

/-!
# Decoders that undo encoders

A decoder consumes a prefix of a list of tokens.  `Decodes dec encoded value`
says that reading `encoded` yields `value` and leaves whatever follows
untouched; stated with an arbitrary suffix it composes along sequencing, so
the round trip of a composite format follows from those of its fields.
The module is parametric in the token and error types.
-/

namespace DecoderLaws

variable {τ ε : Type} {α β : Type} {result : β} {value other : α}
    {encoded first restFirst restSecond second data rest : List τ} {enc : α → Except ε (List τ)}

abbrev Decoder (τ ε α : Type) := StateT (List τ) (Except ε) α

def Decodes (dec : Decoder τ ε α) (encoded : List τ) (value : α) : Prop :=
  ∀ rest, dec (encoded ++ rest) = .ok (value, rest)

def RoundTrips (enc : α → Except ε (List τ)) (dec : Decoder τ ε α) : Prop :=
  ∀ value encoded, enc value = .ok encoded → Decodes dec encoded value

theorem Decodes.pure (value : α) : Decodes (Pure.pure value : Decoder τ ε α) [] value := by
  intro rest
  rfl

variable {dec : Decoder τ ε α} {next : α → Decoder τ ε β}

theorem Decodes.bind {front back : List τ} (hdec : Decodes dec front value)
    (hnext : Decodes (next value) back result) :
    Decodes (dec >>= next) (front ++ back) result := by
  intro rest
  have hfront := hdec (back ++ rest)
  have hback := hnext rest
  simp only [Bind.bind, StateT.bind, List.append_assoc] at hfront ⊢
  rw [hfront]
  exact hback

theorem Decodes.last {build : α → β} (hdec : Decodes dec encoded value) :
    Decodes (dec >>= fun x => Pure.pure (build x)) encoded (build value) := by
  have hbind : Decodes (dec >>= fun x => Pure.pure (build x)) (encoded ++ [])
      (build value) := hdec.bind (Decodes.pure (build value))
  rwa [List.append_nil] at hbind

theorem Decodes.final (hdec : Decodes dec encoded value) (hnext : next value = Pure.pure result) :
    Decodes (dec >>= next) encoded result := by
  have hbind : Decodes (dec >>= next) (encoded ++ []) result :=
    hdec.bind (hnext ▸ Decodes.pure result)
  rwa [List.append_nil] at hbind

theorem Decodes.lift {result : Except ε α} (hresult : result = .ok value) :
    Decodes (liftM result : Decoder τ ε α) [] value := by
  intro rest
  subst hresult
  rfl

theorem Decodes.unique (hfirst : Decodes dec first value) (hsecond : Decodes dec second other)
    (heq : first ++ restFirst = second ++ restSecond) :
    value = other ∧ restFirst = restSecond := by
  have hleft := hfirst restFirst
  rw [heq, hsecond restSecond] at hleft
  simp only [Except.ok.injEq, Prod.mk.injEq] at hleft
  exact ⟨hleft.1.symm, hleft.2.symm⟩

theorem RoundTrips.injective (htrip : RoundTrips enc dec) (hfirst : enc value = .ok first)
    (hsecond : enc other = .ok second) (heq : first ++ restFirst = second ++ restSecond) :
    value = other ∧ restFirst = restSecond :=
  (htrip value first hfirst).unique (htrip other second hsecond) heq

theorem Decodes.value_unique
    (hvalue : Decodes dec encoded value) (hother : Decodes dec encoded other) :
    value = other := (hvalue.unique hother (rfl : encoded ++ [] = encoded ++ [])).1

/-! ## Runs of one element format -/

def encodeAll (enc : α → Except ε (List τ)) : List α → Except ε (List τ)
  | [] => .ok []
  | value :: values => do
      let first ← enc value
      let others ← encodeAll enc values
      return first ++ others

/-- Apply a decoder until the tokens are exhausted.  The fuel bounds the number
of elements; a decoder that consumes nothing forever ends in `stuck`. -/
def decodeAll (stuck : ε) (dec : Decoder τ ε α) :
    ℕ → List τ → Except ε (List α)
  | _, [] => .ok []
  | 0, _ :: _ => .error stuck
  | fuel + 1, token :: tokens => do
      let (value, rest) ← dec (token :: tokens)
      let values ← decodeAll stuck dec fuel rest
      return value :: values

/-- If every element starts with at least one token, decoding until exhaustion
undoes the concatenated encoding, with one unit of fuel for each token. -/
theorem decodeAll_encodeAll {stuck : ε} (htrip : RoundTrips enc dec)
    (hne : ∀ value encoded, enc value = .ok encoded → encoded ≠ []) {values : List α}
    (henc : encodeAll enc values = .ok encoded) {fuel : ℕ} (hfuel : encoded.length ≤ fuel) :
    decodeAll stuck dec fuel encoded = .ok values := by
  induction values generalizing encoded fuel with
  | nil =>
      simp only [encodeAll, Except.ok.injEq] at henc
      subst henc
      cases fuel <;> rfl
  | cons value values ih =>
      cases hvalue : enc value with
      | error error => simp [encodeAll, hvalue, Bind.bind, Except.bind] at henc
      | ok first =>
          cases hothers : encodeAll enc values with
          | error error => simp [encodeAll, hvalue, hothers, Bind.bind, Except.bind] at henc
          | ok others =>
              simp only [encodeAll, hvalue, hothers, Bind.bind, Except.bind,
                Pure.pure, Except.pure, Except.ok.injEq] at henc
              subst henc
              have hfirst := hne value first hvalue
              obtain ⟨token, tokens, rfl⟩ := List.exists_cons_of_ne_nil hfirst
              simp only [List.cons_append, List.length_cons, List.length_append] at hfuel
              obtain ⟨fuel, rfl⟩ : ∃ f, fuel = f + 1 := ⟨fuel - 1, by omega⟩
              have hread := htrip value (token :: tokens) hvalue others
              have hrest : decodeAll stuck dec fuel others = .ok values := ih hothers (by omega)
              simp only [List.cons_append] at hread ⊢
              simp only [decodeAll, hread, hrest, Bind.bind, Except.bind, Pure.pure, Except.pure]

/-! ## Canonical formats -/

theorem decoder_bind_eq_ok :
    (dec >>= next) data = .ok (result, rest) ↔
      ∃ value middle, dec data = .ok (value, middle) ∧ next value middle = .ok (result, rest) := by
  simp only [Bind.bind, StateT.bind, Except.bind]
  cases hdec : dec data with
  | error error => simp
  | ok read => simp [Prod.ext_iff]

theorem decoder_pure_eq_ok {result : α} :
    (Pure.pure value : Decoder τ ε α) data = .ok (result, rest) ↔
      value = result ∧ data = rest := by
  change (Except.ok (value, data) : Except ε (α × List τ)) = _ ↔ _
  simp

theorem decoder_lift_eq_ok {outcome : Except ε α} {result : α} :
    (liftM outcome : Decoder τ ε α) data = .ok (result, rest) ↔
      outcome = .ok result ∧ data = rest := by
  cases outcome with
  | error error => simp [liftM, MonadLiftT.monadLift, monadLift,
      MonadLift.monadLift, StateT.lift, Bind.bind, Except.bind]
  | ok value => simp [liftM, MonadLiftT.monadLift, monadLift, MonadLift.monadLift, StateT.lift,
      Bind.bind, Except.bind, Pure.pure, Except.pure]

def Canonical (enc : α → Except ε (List τ)) (dec : Decoder τ ε α) : Prop :=
  ∀ data value rest, dec data = .ok (value, rest) →
    ∃ encoded, enc value = .ok encoded ∧ data = encoded ++ rest

/-! A composite reader is followed field by field: `written` says what a value is written
as, and after a field was read only what follows it is left to write. -/

def Accepts (written : α → List τ → Prop) (dec : Decoder τ ε α) : Prop :=
  ∀ data value rest, dec data = .ok (value, rest) →
    ∃ encoded, written value encoded ∧ data = encoded ++ rest

section Accepts

variable {written : β → List τ → Prop}

theorem Canonical.bind (hcanon : Canonical enc dec)
    (hnext : ∀ value encoded, enc value = .ok encoded →
    Accepts (fun result tail => written result (encoded ++ tail)) (next value)) :
    Accepts written (dec >>= next) := by
  intro data result rest hread
  obtain ⟨value, middle, hfirst, hsecond⟩ := decoder_bind_eq_ok.mp hread
  obtain ⟨encoded, henc, rfl⟩ := hcanon _ _ _ hfirst
  obtain ⟨tail, hwritten, rfl⟩ := hnext value encoded henc _ _ _ hsecond
  exact ⟨encoded ++ tail, hwritten, (List.append_assoc ..).symm⟩

theorem Canonical.bind_total {enc : α → List τ}
    (hcanon : Canonical (fun value => .ok (enc value)) dec) (hnext : ∀ value,
      Accepts (fun result tail => written result (enc value ++ tail)) (next value)) :
    Accepts written (dec >>= next) := by
  refine hcanon.bind fun value encoded henc => ?_
  cases henc
  exact hnext value

theorem Accepts.pure (hwritten : written result []) :
    Accepts written (Pure.pure result : Decoder τ ε β) := by
  intro data value rest hread
  obtain ⟨rfl, rfl⟩ := decoder_pure_eq_ok.mp hread
  exact ⟨[], hwritten, rfl⟩

theorem Accepts.error (error : ε) :
    Accepts written (liftM (.error error : Except ε β) : Decoder τ ε β) := by
  intro data value rest hread
  cases (decoder_lift_eq_ok.mp hread).1

theorem Accepts.ite {p : Prop} [Decidable p] {a b : Decoder τ ε β} (ha : p → Accepts written a)
    (hb : ¬p → Accepts written b) : Accepts written (if p then a else b) := by
  split
  next hp => exact ha hp
  next hp => exact hb hp

end Accepts

theorem Canonical.unique (hcanon : Canonical enc dec) (hfirst : dec first = .ok (value, restFirst))
    (hsecond : dec second = .ok (value, restSecond)) :
    ∃ consumed, first = consumed ++ restFirst ∧ second = consumed ++ restSecond := by
  obtain ⟨encoded, henc, rfl⟩ := hcanon _ _ _ hfirst
  obtain ⟨encoded', henc', rfl⟩ := hcanon _ _ _ hsecond
  rw [henc, Except.ok.injEq] at henc'
  exact ⟨encoded, rfl, by rw [henc']⟩

theorem Canonical.stops_alike {other : Decoder τ ε β} {seen : β} (hcanon : Canonical enc dec)
    (hother : ∀ value encoded, enc value = .ok encoded → Decodes other encoded seen)
    (hread : dec data = .ok (value, rest)) :
    other data = .ok (seen, rest) := by
  obtain ⟨encoded, henc, rfl⟩ := hcanon data value rest hread
  exact hother value encoded henc rest

theorem encodeAll_of_decodeAll {stuck : ε} (hcanon : Canonical enc dec) :
    ∀ {fuel : ℕ} {data : List τ} {values : List α},
      decodeAll stuck dec fuel data = .ok values → encodeAll enc values = .ok data := by
  intro fuel
  induction fuel with
  | zero =>
      intro data values hread
      cases data with
      | nil =>
          cases hread
          rfl
      | cons token tokens => cases hread
  | succ fuel ih =>
      intro data values hread
      cases data with
      | nil =>
          cases hread
          rfl
      | cons token tokens =>
          -- the first element is re-encoded, the others by induction
          simp only [decodeAll, Bind.bind, Except.bind] at hread
          split at hread
          · cases hread
          next read hdec =>
            split at hread
            · cases hread
            next others hothers =>
              cases hread
              obtain ⟨first, hfirst, hdata⟩ := hcanon _ _ _ hdec
              simp only [encodeAll, hfirst, ih hothers, Bind.bind, Except.bind,
                Pure.pure, Except.pure, hdata]

/-! ## Readers whose value is not kept -/

/-- What was read is a prefix of the input, and is read alike in front of
anything else. -/
def Delimits (dec : Decoder τ ε α) : Prop :=
  ∀ data value rest, dec data = .ok (value, rest) →
    ∃ consumed, data = consumed ++ rest ∧ Decodes dec consumed value

theorem Canonical.delimits
    (hcanon : Canonical enc dec) (htrip : RoundTrips enc dec) : Delimits dec := by
  intro data value rest hread
  obtain ⟨encoded, henc, hdata⟩ := hcanon data value rest hread
  exact ⟨encoded, hdata, htrip value encoded henc⟩

theorem Canonical.delimits_of_total {enc : α → List τ}
    (hcanon : Canonical (fun value => .ok (enc value)) dec)
    (hdec : ∀ value, Decodes dec (enc value) value) : Delimits dec := by
  refine hcanon.delimits fun value encoded henc => ?_
  cases henc
  exact hdec value

theorem Delimits.bind (hdec : Delimits dec) (hnext : ∀ value, Delimits (next value)) :
    Delimits (dec >>= next) := by
  intro data result rest hread
  obtain ⟨value, middle, hfirst, hsecond⟩ := decoder_bind_eq_ok.mp hread
  obtain ⟨front, rfl, hfront⟩ := hdec _ _ _ hfirst
  obtain ⟨back, rfl, hback⟩ := hnext value _ _ _ hsecond
  exact ⟨front ++ back, (List.append_assoc ..).symm, hfront.bind hback⟩

theorem delimits_pure (value : α) : Delimits (Pure.pure value : Decoder τ ε α) := by
  intro data result rest hread
  obtain ⟨rfl, rfl⟩ := decoder_pure_eq_ok.mp hread
  exact ⟨[], rfl, Decodes.pure value⟩

theorem delimits_lift (outcome : Except ε α) : Delimits (liftM outcome : Decoder τ ε α) := by
  intro data result rest hread
  obtain ⟨hresult, rfl⟩ := decoder_lift_eq_ok.mp hread
  exact ⟨[], rfl, Decodes.lift hresult⟩

theorem Delimits.ite {p : Prop} [Decidable p] {a b : Decoder τ ε α}
    (ha : Delimits a) (hb : Delimits b) : Delimits (if p then a else b) := by
  split
  · exact ha
  · exact hb

end DecoderLaws
