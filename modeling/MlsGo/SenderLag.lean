import MlsGo.ClientSteps
import MlsGo.OrderingFailures
import MlsGo.SimWorld

/-!
# What a sender knows of its peers

`sim/client.go`: a client keeps an epoch for every peer of a channel and sends
under the lowest of them, so that every peer can read.  A heartbeat carries the
epoch of its sender, and no epoch goes back: an entry that was heard never runs
ahead of its peer.  The other entries are guesses.  A commit that adds a member
enters it at the epoch of the commit, and a client that joins enters everyone one
epoch before its own, although a peer may have missed more than one commit.
-/

namespace MlsGo.Sim

/-! ## All clients -/

namespace World

variable {H : ContentHash} {S : Suite} {registry : UInt16 → Option Suite}
  {w w' : World} {notes : ℕ → UInt32 → Note → Prop}

def stateOf (w : World) (i : ℕ) (ch : UInt32) : Option VniState :=
  w.clients[i]?.bind fun c => c.vnis.get ch

theorem stateOf_eq_some {i : ℕ} {ch : UInt32} {st : VniState} :
    w.stateOf i ch = some st ↔ ∃ c, w.clients[i]? = some c ∧ c.vnis.get ch = some st :=
  Option.bind_eq_some_iff

theorem performAll_clients (actor : ActorID) (ops : List BusOp) :
    (w.performAll actor ops).clients = w.clients := by
  refine List.foldlRecOn (motive := fun v : World => v.clients = w.clients) ops _ rfl ?_
  rintro v hv (env | ch) _
  · exact hv
  · exact hv

theorem performAll_inFlight {actor : ActorID} {ops : List BusOp} {p : ActorID × Envelope}
    (hp : p ∈ (w.performAll actor ops).inFlight) :
    p ∈ w.inFlight ∨ .publish p.2 ∈ ops := by
  revert p
  refine List.foldlRecOn (motive := fun v : World => ∀ {p}, p ∈ v.inFlight →
    p ∈ w.inFlight ∨ .publish p.2 ∈ ops) ops _ (fun hp => .inl hp) ?_
  rintro v hv (env | ch) hop p hp
  · rcases List.mem_append.mp hp with hp | hp
    · exact hv hp
    · obtain ⟨dst, -, rfl⟩ := List.mem_map.mp hp
      exact .inr hop
  · exact hv hp

structure Moves (w w' : World) (notes : ℕ → UInt32 → Note → Prop) : Prop where
  ids : ∀ (i : ℕ) (c' : Client), w'.clients[i]? = some c' →
    ∃ c, w.clients[i]? = some c ∧ c'.id = c.id
  states : ∀ i ch st', w'.stateOf i ch = some st' →
    ∃ st, w.stateOf i ch = some st ∧ st.Later (notes i ch) st'
  beats : ∀ p ∈ w'.inFlight, p.2.type = .heartbeat → p ∈ w.inFlight ∨
    ∃ (i : ℕ) (c : Client) (st : VniState), w.clients[i]? = some c ∧ p.2.src = c.id ∧
      w'.stateOf i p.2.vni = some st ∧ st.joined = true ∧ st.epoch = p.2.base

theorem moves_of_clients (hclients : w'.clients = w.clients)
    (hbeats : ∀ p ∈ w'.inFlight, p.2.type = .heartbeat → p ∈ w.inFlight) :
    w.Moves w' notes where
  ids := fun i c hc => ⟨c, hclients ▸ hc, rfl⟩
  states := by
    intro i ch st hst
    rw [stateOf, hclients] at hst
    exact ⟨st, hst, .refl st⟩
  beats := fun p hp hbeat => .inl (hbeats p hp hbeat)

theorem onClient_eq {i : ℕ} {c : Client} {act : Client → Result Client.Delivery}
    (hc : w.clients[i]? = some c) (hstep : w.onClient i act = .ok w') :
    ∃ d, act c = .ok d ∧ w'.clients[i]? = some d.client ∧
      (∀ k ≠ i, w'.clients[k]? = w.clients[k]?) ∧
      ∀ p ∈ w'.inFlight, p ∈ w.inFlight ∨ .publish p.2 ∈ d.ops := by
  simp only [onClient, hc, bind_eq_ok, pure_ok_iff] at hstep
  obtain ⟨d, hd, rfl⟩ := hstep
  refine ⟨d, hd, ?_, fun k hk => ?_, fun p => performAll_inFlight⟩
  · rw [performAll_clients]
    exact List.getElem?_set_self (List.getElem?_eq_some_iff.mp hc).1
  · rw [performAll_clients]
    exact List.getElem?_set_ne (Ne.symm hk)

theorem onClient_moves {i : ℕ} {act : Client → Result Client.Delivery}
    (notes : Client → UInt32 → Note → Prop) (hact : ∀ c d, w.clients[i]? = some c → act c = .ok d →
    c.Moves d.client d.ops (notes c)) (hstep : w.onClient i act = .ok w') :
    w.Moves w' fun k ch note => k = i ∧ ∃ c, w.clients[i]? = some c ∧ notes c ch note := by
  cases hc : w.clients[i]? with
  | none =>
      simp only [onClient, hc, Except.ok.injEq] at hstep
      subst hstep
      exact moves_of_clients rfl fun p hp _ => hp
  | some c =>
      obtain ⟨d, hd, hself, hother, hflight⟩ := onClient_eq hc hstep
      have hmoves := hact c d hc hd
      constructor
      case ids =>
        intro k c' hc'
        by_cases hk : k = i
        · subst hk
          cases hself.symm.trans hc'
          exact ⟨c, hc, hmoves.id_eq⟩
        · exact ⟨c', (hother k hk).symm.trans hc', rfl⟩
      case states =>
        intro k ch st' hst'
        obtain ⟨c', hc', hst'⟩ := stateOf_eq_some.mp hst'
        by_cases hk : k = i
        · subst hk
          cases hself.symm.trans hc'
          obtain ⟨st, hst, hlater⟩ := hmoves.states ch st' hst'
          exact ⟨st, stateOf_eq_some.mpr ⟨c, hc, hst⟩,
            hlater.mono fun note hnote => ⟨rfl, c, rfl, hnote⟩⟩
        · exact ⟨st', stateOf_eq_some.mpr ⟨c', (hother k hk).symm.trans hc', hst'⟩, .refl st'⟩
      case beats =>
        intro p hp hbeat
        refine (hflight p hp).imp_right fun hp => ?_
        obtain ⟨hsrc, st, hst, hjoined, hepoch⟩ := hmoves.beats p.2 hp hbeat
        exact ⟨i, c, st, hc, hsrc, stateOf_eq_some.mpr ⟨_, hself, hst⟩, hjoined, hepoch⟩

theorem handle_silent (d : DS) (down : Bool) (env : Envelope) (m : DSMetrics) :
    ∀ env' ∈ (d.handle down env m).published, env'.type ≠ .heartbeat := by
  intro env' hmem
  unfold DS.handle at hmem
  split at hmem
  · cases hmem
  · split at hmem
    next htype =>
      unfold DS.onCommit at hmem
      dsimp only at hmem
      split at hmem
      · cases hmem
      · cases List.mem_singleton.mp hmem
        simp [htype]
    next htype =>
      cases List.mem_singleton.mp hmem
      simp [htype]
    · cases List.mem_singleton.mp hmem
      simp
    · cases hmem

theorem onReflector_moves (id : ActorID) (env : Envelope) :
    w.Moves (w.onReflector id env) notes := by
  unfold onReflector
  split
  · exact moves_of_clients rfl fun p hp _ => hp
  next d hd =>
    refine moves_of_clients (performAll_clients _ _) fun p hp hbeat => ?_
    rcases performAll_inFlight hp with hp | hp
    · exact hp
    · obtain ⟨env', hmem, heq⟩ := List.mem_map.mp hp
      cases heq
      exact absurd hbeat (handle_silent d _ env w.metrics p.2 hmem)

/-! ### Every action -/

structure BelowTop (w : World) : Prop where
  epochs : ∀ i ch st, w.stateOf i ch = some st → st.epoch ≠ lastEpoch
  bases : ∀ p ∈ w.inFlight, ∀ r ∈ p.2.records, r.base ≠ lastEpoch

/-- Client `i` hears on a channel that a peer is in an epoch. -/
inductive Hears (w : World) : Action → ℕ → UInt32 → Note → Prop
  | heartbeat {k i : ℕ} {env : Envelope} (hflight : w.inFlight[k]? = some ((i : ℤ), env))
      (htype : env.type = .heartbeat) :
      Hears w (.deliver k) i env.vni (.peer env.src env.base)

variable (H S registry) in
/-- What client `i` puts down on its own account. -/
inductive Notes (w : World) : Action → ℕ → UInt32 → Note → Prop
  | reconcile {i : ℕ} {ch ch' : UInt32} {rnd : CommitRandomness} {c : Client} {note : Note}
      (hc : w.clients[i]? = some c)
      (hnote : c.ReconcileNotes S registry ch (w.desiredSlice ch) rnd ch' note) :
      Notes w (.reconcile i ch rnd) i ch' note
  | message {k i : ℕ} {env : Envelope} {ch : UInt32} {c : Client} {note : Note}
      (hflight : w.inFlight[k]? = some ((i : ℤ), env)) (hc : w.clients[i]? = some c)
      (hnote : c.MessageNotes H S registry w.dir env ch note) : Notes w (.deliver k) i ch note

theorem Moves.mono {notes' : ℕ → UInt32 → Note → Prop} (hmoves : w.Moves w' notes)
    (hnotes : ∀ i ch note, notes i ch note → notes' i ch note) : w.Moves w' notes' where
  ids := hmoves.ids
  states := by
    intro i ch st' hst'
    obtain ⟨st, hst, hlater⟩ := hmoves.states i ch st' hst'
    exact ⟨st, hst, hlater.mono (hnotes i ch)⟩
  beats := hmoves.beats

theorem churn_clients (join : Bool) (client : ℕ) (tenant : UInt32) :
    (w.dispatchChurn join client tenant).clients = w.clients ∧
      (w.dispatchChurn join client tenant).inFlight = w.inFlight := by
  unfold dispatchChurn
  split
  · exact ⟨rfl, rfl⟩
  · refine List.foldlRecOn (motive := fun v : World =>
      v.clients = w.clients ∧ v.inFlight = w.inFlight) _ _ ⟨rfl, rfl⟩ ?_
    exact fun v hv ch _ => hv

theorem BelowTop.client (hbelow : w.BelowTop) {i : ℕ} {c : Client} (hc : w.clients[i]? = some c) :
    ∀ ch st, c.vnis.get ch = some st → st.epoch ≠ lastEpoch :=
  fun ch st hst => hbelow.epochs i ch st (stateOf_eq_some.mpr ⟨c, hc, hst⟩)

theorem deliver_moves {k : ℕ} (hbelow : w.BelowTop)
    (hstep : w.step H S registry (.deliver k) = .ok w') :
    w.Moves w' fun i ch note => w.Hears (.deliver k) i ch note ∨
      w.Notes H S registry (.deliver k) i ch note := by
  rw [step] at hstep
  split at hstep
  · cases hstep
    exact moves_of_clients rfl fun p hp _ => hp
  next actor env hflight =>
    -- The message leaves the network before it is handled.
    have hfrom : ∀ {notes}, Moves { w with inFlight := w.inFlight.eraseIdx k } w' notes →
        w.Moves w' notes := by
      intro notes hmoves
      refine ⟨hmoves.ids, hmoves.states, fun p hp hbeat => ?_⟩
      exact (hmoves.beats p hp hbeat).imp_left List.mem_of_mem_eraseIdx
    unfold dispatchDeliver at hstep
    split at hstep
    next hclient =>
      have hactor : ((actor.toNat : ℕ) : ℤ) = actor := Int.toNat_of_nonneg hclient.1
      refine (hfrom (onClient_moves (fun c ch note => Client.Heard env ch note ∨
        c.MessageNotes H S registry w.dir env ch note) (fun c d hc hd => ?_) hstep)).mono ?_
      · exact (Client.onDeliver_spec (hbelow.client hc)
          (hbelow.bases _ (List.mem_of_getElem? hflight)) hd).1
      · rintro i ch note ⟨rfl, c, hc, ⟨htype, rfl, rfl⟩ | hnote⟩
        · exact .inl (.heartbeat (hactor.symm ▸ hflight) htype)
        · exact .inr (.message (hactor.symm ▸ hflight) hc hnote)
    · cases hstep
      exact hfrom (onReflector_moves actor env)

theorem step_moves {a : Action} (hbelow : w.BelowTop) (hstep : w.step H S registry a = .ok w') :
    w.Moves w' fun i ch note => w.Hears a i ch note ∨ w.Notes H S registry a i ch note := by
  cases a with
  | deliver k => exact deliver_moves hbelow hstep
  | drop k =>
      cases hstep
      exact moves_of_clients rfl fun p hp _ => List.mem_of_mem_eraseIdx hp
  | rekey i ch rnd =>
      refine (onClient_moves (fun _ _ _ => False) (fun c d hc hd => ?_) hstep).mono ?_
      · obtain ⟨out, hrekey, rfl⟩ := Client.map_eq_ok.mp hd
        exact Client.rekey_moves (hbelow.client hc) hrekey
      · rintro _ _ _ ⟨-, _, -, hnote⟩
        exact hnote.elim
  | heartbeat i ch =>
      refine (onClient_moves (fun _ _ _ => False) (fun c d hc hd => ?_) hstep).mono ?_
      · cases hd
        exact Client.moves_emitHeartbeat
      · rintro _ _ _ ⟨-, _, -, hnote⟩
        exact hnote.elim
  | reconcile i ch rnd =>
      refine (onClient_moves (fun c => c.ReconcileNotes S registry ch (w.desiredSlice ch) rnd)
        (fun c d hc hd => ?_) hstep).mono ?_
      · obtain ⟨out, hreconcile, rfl⟩ := Client.map_eq_ok.mp hd
        exact (Client.reconcile_spec (hbelow.client hc) hreconcile).1
      · rintro _ _ _ ⟨rfl, c, hc, hnote⟩
        exact .inr (.reconcile hc hnote)
  | data i tenant =>
      refine (onClient_moves (fun _ _ _ => False) (fun c d hc hd => ?_) hstep).mono ?_
      · cases hd
        exact Client.sendData_moves tenant
      · rintro _ _ _ ⟨-, _, -, hnote⟩
        exact hnote.elim
  | churn join client tenant =>
      cases hstep
      obtain ⟨hclients, hflight⟩ := churn_clients (w := w) join client tenant
      exact moves_of_clients hclients fun p hp _ => hflight ▸ hp
  | fault ds on =>
      cases hstep
      exact moves_of_clients rfl fun p hp _ => hp

/-- What is put down stands there after the step, and nobody else has moved. -/
theorem Notes.shown {a : Action} {i : ℕ} {ch : UInt32} {note : Note}
    (hnote : w.Notes H S registry a i ch note) (hbelow : w.BelowTop)
    (hstep : w.step H S registry a = .ok w') :
    (∃ c', w'.clients[i]? = some c' ∧ c'.Shows ch note) ∧
      ∀ k ≠ i, ∀ ch, w'.stateOf k ch = w.stateOf k ch := by
  cases hnote with
  | reconcile hc hnote =>
      obtain ⟨d, hd, hself, hother, -⟩ := onClient_eq hc hstep
      obtain ⟨out, hreconcile, rfl⟩ := Client.map_eq_ok.mp hd
      refine ⟨⟨_, hself, ?_⟩, fun k hk ch => congrArg (Option.bind · _) (hother k hk)⟩
      exact (Client.reconcile_spec (hbelow.client hc) hreconcile).2 _ _ hnote
  | @message k i env ch c note hflight hc hnote =>
      have hlt := (List.getElem?_eq_some_iff.mp hc).1
      simp only [step, hflight] at hstep
      rw [dispatchDeliver, if_pos ⟨Int.natCast_nonneg i, by exact_mod_cast hlt⟩] at hstep
      rw [Int.toNat_natCast] at hstep
      obtain ⟨d, hd, hself, hother, -⟩ :=
        onClient_eq (w := { w with inFlight := w.inFlight.eraseIdx k }) hc hstep
      refine ⟨⟨_, hself, ?_⟩, fun k hk ch => congrArg (Option.bind · _) (hother k hk)⟩
      exact (Client.onDeliver_spec (hbelow.client hc)
        (hbelow.bases _ (List.mem_of_getElem? hflight)) hd).2 _ _ hnote

/-! ## Entries and epochs -/

/-- Clients are numbered by their place, a client that waits keeps no entries, and
the sender of a heartbeat on its way is in the epoch it carries or a later one,
unless it has left. -/
structure Sound (w : World) : Prop where
  ids : ∀ (i : ℕ) (c : Client), w.clients[i]? = some c → c.id = i
  waiting : ∀ i ch st, w.stateOf i ch = some st → st.joined = false → st.peerEpoch = []
  beats : ∀ p ∈ w.inFlight, p.2.type = .heartbeat → ∃ j : ℕ, p.2.src = j ∧
    ∀ st, w.stateOf j p.2.vni = some st → st.joined = true ∧ p.2.base ≤ st.epoch

theorem Moves.sound (hmoves : w.Moves w' notes) (hsound : w.Sound) : w'.Sound where
  ids := by
    intro i c' hc'
    obtain ⟨c, hc, hid⟩ := hmoves.ids i c' hc'
    exact hid.trans (hsound.ids i c hc)
  waiting := by
    intro i ch st' hst' hout
    obtain ⟨st, hst, hlater⟩ := hmoves.states i ch st' hst'
    have hout' : st.joined = false := by
      by_contra hjoined
      exact absurd (hlater.joined (by simpa using hjoined)).1 (by simp [hout])
    exact (hlater.waiting hout).trans (hsound.waiting i ch st hst hout')
  beats := by
    intro p hp hbeat
    rcases hmoves.beats p hp hbeat with hold | ⟨i, c, st, hc, hsrc, hst, hjoined, hepoch⟩
    · -- On its way before: the sender has only moved on.
      obtain ⟨j, hsrc, hahead⟩ := hsound.beats p hold hbeat
      refine ⟨j, hsrc, fun st' hst' => ?_⟩
      obtain ⟨st, hst, hlater⟩ := hmoves.states j _ st' hst'
      obtain ⟨hjoined, hle⟩ := hahead st hst
      obtain ⟨hjoined', hle'⟩ := hlater.joined hjoined
      exact ⟨hjoined', UInt64.le_trans hle hle'⟩
    · refine ⟨i, hsrc.trans (hsound.ids i c hc), fun st' hst' => ?_⟩
      cases hst.symm.trans hst'
      exact ⟨hjoined, hepoch ▸ UInt64.le_refl _⟩

theorem Hears.ahead {a : Action} {i : ℕ} {ch : UInt32} {note : Note}
    (hheard : w.Hears a i ch note) (hsound : w.Sound) :
    ∃ (j : ℕ) (e : UInt64), note = .peer j e ∧
      ∀ st, w.stateOf j ch = some st → st.joined = true ∧ e ≤ st.epoch := by
  cases hheard with
  | @heartbeat _ _ env hflight htype =>
      obtain ⟨j, hsrc, hahead⟩ := hsound.beats _ (List.mem_of_getElem? hflight) htype
      exact ⟨j, env.base, congrArg (Note.peer · _) hsrc, hahead⟩

/-- If both have joined the channel, the entry of client `i` for client `j` is at
most the epoch of `j`. -/
def Bounded (w : World) (i j : ℕ) (ch : UInt32) : Prop :=
  ∀ st ∈ w.stateOf i ch, ∀ st' ∈ w.stateOf j ch, st.joined = true → st'.joined = true →
    ∀ e ∈ st.peerEpoch.get (j : ℤ), e ≤ st'.epoch

def LagBounded (w : World) : Prop := ∀ i j ch, i ≠ j → w.Bounded i j ch

def keys (w : World) : List UInt32 := w.clients.flatMap fun c => c.vnis.map Prod.fst

theorem mem_keys {i : ℕ} {ch : UInt32} {st : VniState} (hst : w.stateOf i ch = some st) :
    i ∈ List.range w.clients.length ∧ ch ∈ w.keys := by
  obtain ⟨c, hc, hget⟩ := stateOf_eq_some.mp hst
  refine ⟨List.mem_range.mpr (List.getElem?_eq_some_iff.mp hc).1, List.mem_flatMap.mpr ⟨c, ?_, ?_⟩⟩
  · exact List.mem_of_getElem? hc
  · exact List.mem_map_of_mem (f := Prod.fst) (GoMap.mem_of_get hget)

-- By lists and options: a quantifier over epochs or channels would be decided by
-- trying them all.
instance (w : World) (i j : ℕ) (ch : UInt32) : Decidable (w.Bounded i j ch) :=
  decidable_of_iff (((w.stateOf i ch).all fun st => (w.stateOf j ch).all fun st' =>
    decide (st.joined = true → st'.joined = true →
      ((st.peerEpoch.get (j : ℤ)).all fun e => decide (e ≤ st'.epoch)) = true)) = true) <| by
  simp only [Option.all_eq_true, decide_eq_true_eq]
  rfl

instance (w : World) : Decidable w.LagBounded :=
  decidable_of_iff (((List.range w.clients.length).all fun i =>
    (List.range w.clients.length).all fun j => w.keys.all fun ch =>
      decide (i ≠ j → w.Bounded i j ch)) = true) <| by
  simp only [List.all_eq_true, decide_eq_true_eq]
  refine ⟨fun h i j ch hne st hst st' hst' => ?_, fun h i _ j _ ch _ => h i j ch⟩
  exact h i (mem_keys hst).1 j (mem_keys hst').1 ch (mem_keys hst).2 hne st hst st' hst'

instance (w : World) : Decidable w.BelowTop :=
  decidable_of_iff (((List.range w.clients.length).all fun i => w.keys.all fun ch =>
      (w.stateOf i ch).all fun st => decide (st.epoch ≠ lastEpoch)) = true ∧
    (w.inFlight.all fun p => p.2.records.all fun r => decide (r.base ≠ lastEpoch)) = true) <| by
  simp only [List.all_eq_true, Option.all_eq_true, decide_eq_true_eq]
  refine ⟨fun h => ⟨fun i ch st hst => ?_, h.2⟩, fun h => ⟨fun i _ ch _ => h.1 i ch, h.2⟩⟩
  exact h.1 i (mem_keys hst).1 ch (mem_keys hst).2 st hst

/-- An entry that client `i` puts down is at most the epoch of the joined peer it is for;
and if client `i` joins, what joined peers have for it is at most its epoch. -/
def Safe (w : World) (i : ℕ) (ch : UInt32) : Note → Prop
  | .peer a e => ∀ j : ℕ, j ≠ i → a = j → ∀ st ∈ w.stateOf j ch, st.joined = true → e ≤ st.epoch
  | .own epoch => ∀ j : ℕ, j ≠ i → ∀ st ∈ w.stateOf j ch, st.joined = true →
      ∀ e ∈ st.peerEpoch.get (i : ℤ), e ≤ epoch

variable (H S registry) in
def SafeStep (w : World) (a : Action) : Prop :=
  ∀ i ch note, w.Notes H S registry a i ch note → w.Safe i ch note

theorem LagBounded.step {a : Action} (hbounded : w.LagBounded) (hsound : w.Sound)
    (hbelow : w.BelowTop) (hsafe : w.SafeStep H S registry a)
    (hstep : w.step H S registry a = .ok w') : w'.LagBounded := by
  have hmoves := step_moves hbelow hstep
  intro i j ch hne st hst st' hst' hjoined hjoined' e he
  obtain ⟨old, hold, hlater⟩ := hmoves.states i ch st hst
  obtain ⟨old', hold', hlater'⟩ := hmoves.states j ch st' hst'
  by_cases hin' : old'.joined = true
  · obtain ⟨-, hle⟩ := hlater'.joined hin'
    refine UInt64.le_trans ?_ hle
    rcases hlater.entries _ e he with hheld | hheard | hnote
    · have hin : old.joined = true := by
        by_contra hout
        rw [hsound.waiting i ch old hold (by simpa using hout)] at hheld
        cases hheld
      exact hbounded i j ch hne old hold old' hold' hin hin' e hheld
    · obtain ⟨k, _, hpeer, hahead⟩ := hheard.ahead hsound
      obtain ⟨hk, rfl⟩ := Note.peer.inj hpeer
      obtain rfl : j = k := Int.ofNat_inj.mp hk
      exact (hahead old' hold').2
    · exact hsafe i ch _ hnote j hne.symm rfl old' hold' hin'
  · -- `j` joins in this step, and `i` has not moved.
    rcases hlater'.enters (by simpa using hin') hjoined' with hheard | hnote
    · obtain ⟨_, _, hpeer, -⟩ := hheard.ahead hsound
      cases hpeer
    · rw [(hnote.shown hbelow hstep).2 i hne] at hst
      exact hsafe j ch _ hnote i hne st hst hjoined e he

theorem LagBounded.safeStep {a : Action} (hbounded : w'.LagBounded) (hbelow : w.BelowTop)
    (hstep : w.step H S registry a = .ok w') : w.SafeStep H S registry a := by
  intro i ch note hnote
  obtain ⟨⟨c', hc', hshows⟩, hothers⟩ := hnote.shown hbelow hstep
  cases note with
  | peer a e =>
      obtain ⟨st', hst', hjoined, hentry⟩ := hshows
      rintro j hne rfl st hst hin
      exact hbounded i j ch hne.symm st' (stateOf_eq_some.mpr ⟨c', hc', hst'⟩) st
        ((hothers j hne ch).trans hst) hjoined hin e hentry
  | own epoch =>
      obtain ⟨st', hst', hjoined, rfl⟩ := hshows
      intro j hne st hst hin e he
      exact hbounded j i ch hne st ((hothers j hne ch).trans hst) st'
        (stateOf_eq_some.mpr ⟨c', hc', hst'⟩) hin hjoined e he

end World

/-! ## Sending -/

theorem foldl_min_le (epochs : List UInt64) (init : UInt64) :
    let low := epochs.foldl (fun mn e => if e < mn then e else mn) init
    low ≤ init ∧ ∀ e ∈ epochs, low ≤ e := by
  induction epochs generalizing init with
  | nil => simp
  | cons x rest ih =>
      obtain ⟨hinit, hrest⟩ := ih (if x < init then x else init)
      have hboth : (if x < init then x else init) ≤ init ∧ (if x < init then x else init) ≤ x := by
        split
        next hlt => exact ⟨UInt64.le_of_lt hlt, UInt64.le_refl _⟩
        next hge => exact ⟨UInt64.le_refl _, UInt64.not_lt.mp hge⟩
      refine ⟨UInt64.le_trans hinit hboth.1, fun e he => ?_⟩
      rcases List.mem_cons.mp he with rfl | he
      · exact UInt64.le_trans hinit hboth.2
      · exact hrest e he

theorem Client.sendEpoch_le {c : Client} {st : VniState} {a : ActorID} {e : UInt64}
    (hmbb : c.mbbDisabled = false) (hget : st.peerEpoch.get a = some e) :
    c.sendEpoch st ≤ e := by
  rw [sendEpoch, if_neg (by simp [hmbb])]
  refine (foldl_min_le _ _).2 e (List.mem_filterMap.mpr ⟨a, ?_, hget⟩)
  rw [List.mem_dedup]
  exact List.mem_map_of_mem (f := Prod.fst) (GoMap.mem_of_get hget)

/-! ## The start -/

theorem getElem?_of_mapM {α β : Type} {f : α → Result β} {l : List α} {out : List β}
    (hrun : l.mapM f = .ok out) {i : ℕ} {b : β} (hget : out[i]? = some b) :
    ∃ a, l[i]? = some a ∧ f a = .ok b := by
  induction l generalizing out i with
  | nil =>
      cases hrun
      cases hget
  | cons a rest ih =>
      simp only [List.mapM_cons, bind_eq_ok, pure_ok_iff] at hrun
      obtain ⟨head, hhead, tail, htail, rfl⟩ := hrun
      cases i with
      | zero =>
          cases hget
          exact ⟨a, rfl, hhead⟩
      | succ i => exact ih htail hget

section Start

variable {H : ContentHash} {S : Suite} {registry : UInt16 → Option Suite}
  {sc : Scenario} {rnd : StartRandomness} {start : World}

theorem startClient_fresh {dir : KpDirectory} {i : ℕ} {c : Client}
    (hstart : startClient S registry sc rnd dir i = .ok c) :
    c.id = i ∧ ∀ ch st, c.vnis.get ch = some st → st.peerEpoch = [] := by
  simp only [startClient, bind_eq_ok, pure_ok_iff] at hstart
  obtain ⟨vnis, hvnis, rfl⟩ := hstart
  refine ⟨rfl, fun ch st hst => ?_⟩
  obtain ⟨k, hk⟩ := List.mem_iff_getElem?.mp (GoMap.mem_of_get hst)
  obtain ⟨ch', -, hone⟩ := getElem?_of_mapM hvnis hk
  split at hone
  · simp only [foundVNI, bind_eq_ok] at hone
    obtain ⟨st', ⟨g, -, ctrl, -, hcache⟩, -, rfl⟩ := hone
    exact (Client.cacheCurrentSA_kept hcache).peerEpoch_eq
  · simp only [prospectiveVNI, bind_eq_ok, pure_ok_iff, Prod.mk.injEq] at hone
    obtain ⟨st', ⟨ctrl, -, rfl⟩, -, rfl⟩ := hone
    rfl

theorem bootstrap_fresh (hboot : bootstrap S registry sc rnd = .ok start) :
    start.inFlight = [] ∧ ∀ (i : ℕ) (c : Client), start.clients[i]? = some c →
      c.id = i ∧ ∀ ch st, c.vnis.get ch = some st → st.peerEpoch = [] := by
  simp only [bootstrap, bind_eq_ok, pure_ok_iff] at hboot
  obtain ⟨dir, -, clients, hclients, rfl⟩ := hboot
  refine ⟨rfl, fun i c hc => ?_⟩
  obtain ⟨k, hk, hstart⟩ := getElem?_of_mapM hclients hc
  obtain ⟨hlt, rfl⟩ := List.getElem?_eq_some_iff.mp hk
  rw [List.getElem_range] at hstart
  exact startClient_fresh hstart

theorem bootstrap_sound (hboot : bootstrap S registry sc rnd = .ok start) :
    start.Sound ∧ start.LagBounded := by
  obtain ⟨hflight, hclients⟩ := bootstrap_fresh hboot
  have hempty : ∀ i ch st, start.stateOf i ch = some st → st.peerEpoch = [] := by
    intro i ch st hst
    obtain ⟨c, hc, hget⟩ := World.stateOf_eq_some.mp hst
    exact (hclients i c hc).2 ch st hget
  constructor
  · refine ⟨fun i c hc => (hclients i c hc).1, fun i ch st hst _ => hempty i ch st hst, ?_⟩
    intro p hp
    rw [hflight] at hp
    cases hp
  · intro i j ch _ st hst st' _ _ _ e he
    rw [hempty i ch st hst] at he
    cases he

/-! ## Whole runs -/

theorem History.sound {past : List (World × Action)} {w : World}
    (hrun : History H S registry start past w) (hsound : start.Sound)
    (hbelow : ∀ s ∈ past, s.1.BelowTop) : w.Sound := by
  induction hrun with
  | start => exact hsound
  | step a hpast hstep ih =>
      rw [List.forall_mem_cons] at hbelow
      exact (World.step_moves hbelow.1 hstep).sound (ih hbelow.2)

theorem History.lagBounded_iff {past : List (World × Action)} {w : World}
    (hrun : History H S registry start past w) (hsound : start.Sound)
    (hstart : start.LagBounded) (hbelow : ∀ s ∈ past, s.1.BelowTop) :
    (∀ v ∈ w :: past.map Prod.fst, v.LagBounded) ↔ ∀ s ∈ past, s.1.SafeStep H S registry s.2 := by
  induction hrun with
  | start => simpa using hstart
  | @step past w w' a hpast hstep ih =>
      rw [List.forall_mem_cons] at hbelow
      have hiff := ih hbelow.2
      rw [List.map_cons, List.forall_mem_cons]
      dsimp only
      rw [hiff, List.forall_mem_cons]
      constructor
      · rintro ⟨hbounded, hsafe⟩
        exact ⟨hbounded.safeStep hbelow.1 hstep, hsafe⟩
      · rintro ⟨hsafe, hearlier⟩
        have hbounded := hiff.mpr hearlier w List.mem_cons_self
        exact ⟨hbounded.step (hpast.sound hsound hbelow.2) hbelow.1 hsafe hstep, hearlier⟩

/-- In every run of every scenario the entries of joined clients stay at most the
epochs of the joined peers they are for exactly as long as, at each step, every entry
that an own join, a commit or an own reconcile puts down is at most the epoch in which
the step finds the peer, and every entry held for a client that joins is at most the
epoch of its Welcome.  What is sent under is then at most the epoch of a tracked joined
peer, unless the sender goes by its own epoch alone and is ahead. -/
theorem sender_lag_bounded_iff {past : List (World × Action)} {w : World}
    (hboot : bootstrap S registry sc rnd = .ok start) (hrun : History H S registry start past w)
    (hbelow : ∀ s ∈ past, s.1.BelowTop) :
    ((∀ v ∈ w :: past.map Prod.fst, v.LagBounded) ↔ ∀ s ∈ past, s.1.SafeStep H S registry s.2) ∧
      ∀ v ∈ w :: past.map Prod.fst, v.LagBounded → ∀ (i j : ℕ) (ch : UInt32) (c : Client)
        (st st' : VniState) (e : UInt64), i ≠ j → v.clients[i]? = some c →
        c.vnis.get ch = some st → st.joined = true → v.stateOf j ch = some st' →
        st'.joined = true → st.peerEpoch.get (j : ℤ) = some e →
        (c.sendEpoch st ≤ st'.epoch ↔ (c.mbbDisabled = true → st.epoch ≤ st'.epoch)) := by
  obtain ⟨hsound, hstart⟩ := bootstrap_sound hboot
  refine ⟨hrun.lagBounded_iff hsound hstart hbelow, ?_⟩
  intro v _ hbounded i j ch c st st' e hne hc hst hjoined hst' hjoined' he
  cases hmbb : c.mbbDisabled with
  | true => simp [Client.sendEpoch, hmbb]
  | false =>
      have hle := hbounded i j ch hne st (World.stateOf_eq_some.mpr ⟨c, hc, hst⟩) st' hst'
        hjoined hjoined' e he
      simpa using UInt64.le_trans (Client.sendEpoch_le hmbb he) hle

end Start

/-! ## A client that joins late -/

def lateScenario : Scenario := ⟨3, 1, 4, false, true, false, false⟩

def lateStart : StartRandomness :=
  ⟨fun i => ⟨[UInt8.ofNat i]⟩, fun i _ => ⟨[UInt8.ofNat i, 1], [UInt8.ofNat i, 2]⟩⟩

def firstJoin : List Action :=
  [.churn true 1 0, .reconcile 0 0 silentRandomness, .deliver 0, .deliver 0, .deliver 0,
    .deliver 3, .deliver 4]

def lateJoin : List Action :=
  [.churn true 2 0, .rekey 0 0 silentRandomness, .deliver 5, .deliver 5,
    .reconcile 0 0 silentRandomness, .deliver 8, .deliver 10]

def lateRun (actions : List Action) :
    Result (World × List (World × Action) × World) := do
  let start ← bootstrap plainSuite (fun _ => some plainSuite) lateScenario lateStart
  let out ← start.run DS.paddedHash plainSuite (fun _ => some plainSuite) [] actions
  return (start, out)

theorem history_of_lateRun {actions : List Action}
    {r : World × List (World × Action) × World} (hrun : lateRun actions = .ok r) :
    bootstrap plainSuite (fun _ => some plainSuite) lateScenario lateStart = .ok r.1 ∧
      History DS.paddedHash plainSuite (fun _ => some plainSuite) r.1 r.2.1 r.2.2 := by
  simp only [lateRun, bind_eq_ok, pure_ok_iff] at hrun
  obtain ⟨start, hboot, out, hout, rfl⟩ := hrun
  exact ⟨hboot, History.start.run hout⟩

theorem sender_lag_bounded_first_join :
    ∃ start past w, bootstrap plainSuite (fun _ => some plainSuite) lateScenario lateStart =
        .ok start ∧
      History DS.paddedHash plainSuite (fun _ => some plainSuite) start past w ∧
      (∀ s ∈ past, s.1.BelowTop) ∧
      (∀ s ∈ past, s.1.SafeStep DS.paddedHash plainSuite (fun _ => some plainSuite) s.2) ∧
      (w.stateOf 0 0).bind (fun st => st.peerEpoch.get 1) = some 1 ∧
      (w.stateOf 1 0).map VniState.epoch = some 1 := by
  obtain ⟨r, hr, hbounded, hbelow, hentry, hepoch⟩ : ∃ r, lateRun firstJoin = .ok r ∧
      (∀ v ∈ r.2.2 :: r.2.1.map Prod.fst, v.LagBounded) ∧ (∀ s ∈ r.2.1, s.1.BelowTop) ∧
      (r.2.2.stateOf 0 0).bind (fun st => st.peerEpoch.get 1) = some 1 ∧
      (r.2.2.stateOf 1 0).map VniState.epoch = some 1 := by decide +kernel
  obtain ⟨hboot, hrun⟩ := history_of_lateRun hr
  refine ⟨r.1, r.2.1, r.2.2, hboot, hrun, hbelow, ?_, hentry, hepoch⟩
  exact (sender_lag_bounded_iff hboot hrun hbelow).1.mp hbounded

/-- Client 2 joins in epoch 3 and enters client 1, which is still in epoch 1, at 2:
what it sends under 2 client 1 cannot read. -/
theorem late_joiner_overtakes :
    ∃ start past w c st st',
      bootstrap plainSuite (fun _ => some plainSuite) lateScenario lateStart = .ok start ∧
      History DS.paddedHash plainSuite (fun _ => some plainSuite) start past w ∧
      w.clients[2]? = some c ∧ c.vnis.get 0 = some st ∧ st.joined = true ∧
      w.stateOf 1 0 = some st' ∧ st'.joined = true ∧
      st.peerEpoch.get 1 = some 2 ∧ c.sendEpoch st = 2 ∧ st'.epoch = 1 ∧
      ¬w.LagBounded := by
  obtain ⟨r, hr, c, hc, st, hst, st', hst', hjoined, hjoined', hfacts⟩ :
      ∃ r, lateRun (firstJoin ++ lateJoin) = .ok r ∧ ∃ c ∈ r.2.2.clients[2]?,
        ∃ st ∈ c.vnis.get 0, ∃ st' ∈ r.2.2.stateOf 1 0, st.joined = true ∧ st'.joined = true ∧
          st.peerEpoch.get 1 = some 2 ∧ c.sendEpoch st = 2 ∧ st'.epoch = 1 ∧
          ¬r.2.2.LagBounded := by decide +kernel
  obtain ⟨hboot, hrun⟩ := history_of_lateRun hr
  exact ⟨r.1, r.2.1, r.2.2, c, st, st', hboot, hrun, hc, hst, hjoined, hst', hjoined', hfacts⟩

end MlsGo.Sim
