import Mathlib.Tactic

/-!
# Programs that work in place

A program reads and writes a state and may fail; a failure does not undo what
was written.  `Simulates` compares a run with the result of a function on
values: both end in the same way, a successful run satisfies a postcondition and
a failed one leaves a state that is still good.  Every rule follows the shape of
the program.
-/

namespace InPlacePrograms

variable {ε σ α β γ δ : Type}

/-- A program with errors `ε`, state `σ` and value `α`. -/
def Prog (ε σ α : Type) : Type := σ → Except ε α × σ

namespace Prog

def andThen (p : Prog ε σ α) (f : α → Prog ε σ β) : Prog ε σ β := fun s =>
  match p s with
  | (.ok a, s') => f a s'
  | (.error e, s') => (.error e, s')

instance : Monad (Prog ε σ) where
  pure a := fun s => (.ok a, s)
  bind := andThen

def lift (r : Except ε α) : Prog ε σ α := fun s => (r, s)

def ask (f : σ → Except ε α) : Prog ε σ α := fun s => (f s, s)

def read (f : σ → α) : Prog ε σ α := fun s => (.ok (f s), s)

def update (f : σ → σ) : Prog ε σ Unit := fun s => (.ok (), f s)

def mapFault (f : ε → ε) (p : Prog ε σ α) : Prog ε σ α := fun s => ((p s).1.mapError f, (p s).2)

end Prog

/-- An outcome with its final state against the result of a function. -/
inductive Matches (keep : σ → Prop) (post : α → β → σ → Prop) :
    Except ε α × σ → Except ε β → Prop where
  | ok {a : α} {b : β} {s : σ} (hpost : post a b s) : Matches keep post (.ok a, s) (.ok b)
  | error {e : ε} {s : σ} (hkeep : keep s) : Matches keep post (.error e, s) (.error e)

def Simulates (keep : σ → Prop) (p : Prog ε σ α) (s : σ) (r : Except ε β)
    (post : α → β → σ → Prop) : Prop := Matches keep post (p s) r

section Rules

variable {keep : σ → Prop} {s : σ} {post : α → β → σ → Prop}

theorem Simulates.pure {a : α} {b : β} (hpost : post a b s) :
    Simulates keep (Pure.pure a : Prog ε σ α) s (Except.ok b) post := Matches.ok hpost

theorem Simulates.error {e : ε} (hkeep : keep s) :
    Simulates keep (Prog.lift (Except.error e) : Prog ε σ α) s
      (Except.error e : Except ε β) post := Matches.error hkeep

theorem Simulates.bind {p : Prog ε σ γ} {f : γ → Prog ε σ α} {r : Except ε δ} {g : δ → Except ε β}
    {mid : γ → δ → σ → Prop} (hfirst : Simulates keep p s r mid)
    (hrest : ∀ c d s', mid c d s' → Simulates keep (f c) s' (g d) post) :
    Simulates keep (p >>= f) s (r >>= g) post := by
  show Matches keep post (Prog.andThen p f s) (r >>= g)
  rw [Prog.andThen]
  rw [Simulates] at hfirst
  generalize p s = out at hfirst ⊢
  cases hfirst with
  | ok hmid => exact hrest _ _ _ hmid
  | error hkeep => exact .error hkeep

theorem Simulates.map_value {p : Prog ε σ γ} {f : γ → α} {r : Except ε β} {mid : γ → β → σ → Prop}
    (hfirst : Simulates keep p s r mid) (hpost : ∀ c b s', mid c b s' → post (f c) b s') :
    Simulates keep (p >>= fun c => Pure.pure (f c)) s r post := by
  rw [← bind_pure r]
  exact hfirst.bind fun c b s' hmid => Simulates.pure (hpost c b s' hmid)

theorem Simulates.lift_bind {r : Except ε γ} {f : γ → Prog ε σ α} {g : γ → Except ε β}
    (hkeep : keep s) (hrest : ∀ c, r = .ok c → Simulates keep (f c) s (g c) post) :
    Simulates keep (Prog.lift r >>= f) s (r >>= g) post := by
  cases r with
  | error e => exact .error hkeep
  | ok c => exact hrest c rfl

theorem Simulates.lift {r : Except ε α} {post : α → α → σ → Prop} (hkeep : keep s)
    (hpost : ∀ a, r = .ok a → post a a s) :
    Simulates keep (Prog.lift r) s r post := by
  cases r with
  | error e => exact .error hkeep
  | ok a => exact .ok (hpost a rfl)

theorem Simulates.ask {q : σ → Except ε α} {r : Except ε α} (hsame : q s = r) (hkeep : keep s) :
    Simulates keep (Prog.ask q) s r fun x y s' => x = y ∧ s' = s := by
  subst hsame
  rw [Simulates, Prog.ask]
  cases q s with
  | error e => exact .error hkeep
  | ok a => exact .ok ⟨rfl, rfl⟩

theorem Simulates.step {p : Prog ε σ γ} {f : γ → Prog ε σ α} {c : γ} {s' : σ} {r : Except ε β}
    (hstep : p s = (.ok c, s')) (hrest : Simulates keep (f c) s' r post) :
    Simulates keep (p >>= f) s r post := by
  show Matches keep post (Prog.andThen p f s) r
  rw [Prog.andThen, hstep]
  exact hrest

theorem Simulates.read_bind {q : σ → γ} {f : γ → Prog ε σ α} {r : Except ε β}
    (hrest : Simulates keep (f (q s)) s r post) :
    Simulates keep (Prog.read q >>= f) s r post := hrest

theorem Simulates.update_bind {u : σ → σ} {f : Unit → Prog ε σ α}
    {r : Except ε β} (hrest : Simulates keep (f ()) (u s) r post) :
    Simulates keep (Prog.update u >>= f) s r post := hrest

theorem Simulates.mono {p : Prog ε σ α} {r : Except ε β} {keep' : σ → Prop}
    {post' : α → β → σ → Prop} (hrun : Simulates keep' p s r post')
    (hkeep : ∀ s', keep' s' → keep s') (hpost : ∀ a b s', post' a b s' → post a b s') :
    Simulates keep p s r post := by
  rw [Simulates] at hrun ⊢
  generalize p s = out at hrun ⊢
  cases hrun with
  | ok hpost' => exact .ok (hpost _ _ _ hpost')
  | error hkeep' => exact .error (hkeep _ hkeep')

theorem Simulates.mapFault {p : Prog ε σ α} {r : Except ε β} (f : ε → ε)
    (hrun : Simulates keep p s r post) :
    Simulates keep (p.mapFault f) s (r.mapError f) post := by
  show Matches keep post ((p s).1.mapError f, (p s).2) (r.mapError f)
  rw [Simulates] at hrun
  generalize p s = out at hrun ⊢
  cases hrun with
  | ok hpost => exact .ok hpost
  | error hkeep => exact .error hkeep

/-! ## Reading a simulation -/

theorem Simulates.of_ok {p : Prog ε σ α} {r : Except ε β} {a : α} {s' : σ}
    (hrun : Simulates keep p s r post) (hout : p s = (.ok a, s')) :
    ∃ b, r = .ok b ∧ post a b s' := by
  rw [Simulates, hout] at hrun
  cases hrun with
  | ok hpost => exact ⟨_, rfl, hpost⟩

theorem Simulates.of_error {p : Prog ε σ α} {r : Except ε β} {e : ε} {s' : σ}
    (hrun : Simulates keep p s r post) (hout : p s = (.error e, s')) :
    r = .error e ∧ keep s' := by
  rw [Simulates, hout] at hrun
  cases hrun with
  | error hkeep => exact ⟨rfl, hkeep⟩

theorem Simulates.exists_run {p : Prog ε σ α} {b : β} (hrun : Simulates keep p s (.ok b) post) :
    ∃ a s', p s = (.ok a, s') ∧ post a b s' := by
  rw [Simulates] at hrun
  generalize p s = out at hrun ⊢
  cases hrun with
  | ok hpost => exact ⟨_, _, rfl, hpost⟩

end Rules

/-! ## What a run can change -/

/-- Every run, also one that fails, goes from its first state to its last by
`R`. -/
def Prog.Moves (R : σ → σ → Prop) (p : Prog ε σ α) : Prop := ∀ s, R s (p s).2

section Moves

variable {R : σ → σ → Prop} [IsPreorder σ R]

theorem Prog.Moves.pure (a : α) : (Pure.pure a : Prog ε σ α).Moves R := refl_of R

theorem Prog.Moves.lift (r : Except ε α) : (Prog.lift r : Prog ε σ α).Moves R := refl_of R

theorem Prog.Moves.ask (f : σ → Except ε α) : (Prog.ask f).Moves R := refl_of R

theorem Prog.Moves.read (f : σ → α) : (Prog.read f : Prog ε σ α).Moves R := refl_of R

theorem Prog.Moves.bind_of {p : Prog ε σ α} {f : α → Prog ε σ β} (hfirst : p.Moves R)
    (hrest : ∀ s a s', p s = (.ok a, s') → R s' (f a s').2) :
    (p >>= f).Moves R := by
  intro s
  have hp := hfirst s
  show R s (Prog.andThen p f s).2
  rw [Prog.andThen]
  rcases hout : p s with ⟨_ | a, s'⟩
  · rwa [hout] at hp
  · rw [hout] at hp
    exact trans_of R hp (hrest s a s' hout)

theorem Prog.Moves.bind {p : Prog ε σ α} {f : α → Prog ε σ β}
    (hfirst : p.Moves R) (hrest : ∀ a, (f a).Moves R) : (p >>= f).Moves R :=
  hfirst.bind_of fun _ a s' _ => hrest a s'

end Moves

/-! ## Growing lists of cells -/

theorem isPrefix_set {l l' : List α} (hext : l <+: l') {i : ℕ}
    (hi : l.length ≤ i) (a : α) : l <+: l'.set i a := by
  obtain ⟨k, rfl⟩ := hext
  rw [List.set_append_right i a hi]
  exact List.prefix_append l _

theorem getElem?_of_isPrefix {l l' : List α} (hext : l <+: l') {i : ℕ}
    (hi : i < l.length) : l'[i]? = l[i]? := by
  obtain ⟨k, rfl⟩ := hext
  exact List.getElem?_append_left hi

end InPlacePrograms
