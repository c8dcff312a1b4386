import MlsGo.FencingSafety

/-!
# One lease holder at a time

A sequencer decides from its own copy of a lease whether to write; the store
keeps only the latest grant.  When one clock that never runs backwards serves
them all, and the leases come from `AcceptCommit` alone, a copy that has not
expired is still what the store holds, so no two owners have one for the same
VNI.

The lease is copied in the step that grants it.  A caller that copies it later
holds it for a shorter time.
-/

namespace MlsGo.Sequencer

variable {ι : Type}

/-! ## Copies and the store -/

def FencedSequencer.Holds (s : FencedSequencer) (now : Time) : Prop :=
  s.held = true ∧ s.lease.valid now = true

instance (s : FencedSequencer) (now : Time) : Decidable (s.Holds now) :=
  inferInstanceAs (Decidable (_ ∧ _))

structure Backed (bindings : ι → Binding) (now : Time) (w : World ι) : Prop where
  owner : ∀ i, (w.sequencers i).owner = (bindings i).owner
  vni : ∀ i, (w.sequencers i).vni = (bindings i).vni
  stored : ∀ i, (w.sequencers i).Holds now →
    w.store.held.get (bindings i).vni = some (w.sequencers i).lease ∧
      (w.sequencers i).lease.owner = (bindings i).owner

variable {bindings : ι → Binding} {w : World ι} {now : Time}

theorem backed_start (now : Time) : Backed bindings now (World.start bindings) where
  owner _ := rfl
  vni _ := rfl
  stored _ hholds := Bool.noConfusion hholds.1

theorem FencedSequencer.Holds.earlier {s : FencedSequencer} {later : Time}
    (hlater : now ≤ later) (hholds : s.Holds later) : s.Holds now := by
  have hvalid : later < s.lease.expiry := by
    simpa [Lease.valid] using hholds.2
  refine ⟨hholds.1, ?_⟩
  simpa [Lease.valid] using hlater.trans_lt hvalid

theorem Backed.elapse {later : Time} (hbacked : Backed bindings now w)
    (hlater : now ≤ later) : Backed bindings later w where
  owner := hbacked.owner
  vni := hbacked.vni
  stored i hholds := hbacked.stored i (hholds.earlier hlater)

theorem Backed.blocks (hbacked : Backed bindings now w) {i j : ι}
    (hholds : (w.sequencers j).Holds now) (hvni : (bindings i).vni = (bindings j).vni)
    (howner : (bindings i).owner ≠ (bindings j).owner) :
    w.store.blockedBy (w.sequencers i).vni (w.sequencers i).owner now = true := by
  obtain ⟨hget, hleased⟩ := hbacked.stored j hholds
  rw [hbacked.vni, hbacked.owner, hvni]
  simp [MemoryLeaseStore.blockedBy, hget, hleased, howner.symm, hholds.2]

/-! ## Runs under one clock -/

variable [DecidableEq ι]

/-- A part of an `AcceptCommit`. -/
inductive CallPart (ι : Type) where
  | enter (caller : ι) (call : Call)
  | lease (caller : ι)
  | write (caller : ι)
  deriving DecidableEq

def CallPart.at (now : Time) : CallPart ι → Action ι
  | .enter i call => .enter i call now
  | .lease i => .lease i now
  | .write i => .write i

/-- The world reached and what the clock reads: the callers interleave the parts
of their calls, and time passes in between. -/
inductive Timed (w₀ : World ι) : Time → World ι → Prop
  | start (now : Time) : Timed w₀ now w₀
  | elapse {now later : Time} {w : World ι} (hrun : Timed w₀ now w)
      (hlater : now ≤ later) : Timed w₀ later w
  | call {now : Time} {w w' : World ι} {events : List (Event ι)}
      (part : CallPart ι) (hrun : Timed w₀ now w)
      (hstep : w.step (part.at now) = some (w', events)) : Timed w₀ now w'

/-! ## What a part does to leases -/

/-- A part changes no lease, drops a copy whose renewal was refused, or stores
a grant and copies it. -/
inductive LeaseEffect (now : Time) (w w' : World ι) : Prop
  | same (hseq : w'.sequencers = w.sequencers) (hstore : w'.store = w.store)
  | refused (i : ι)
      (hseq : w'.sequencers = Function.update w.sequencers i { w.sequencers i with held := false })
      (hstore : w'.store = w.store)
  | granted (i : ι) (l : Lease)
      (hopen : w.store.blockedBy (w.sequencers i).vni (w.sequencers i).owner now = false)
      (howner : l.owner = (w.sequencers i).owner)
      (hseq : w'.sequencers = Function.update w.sequencers i
        { w.sequencers i with lease := l, held := true })
      (hheld : w'.store.held = w.store.held.set (w.sequencers i).vni l)

variable {w' : World ι} {events : List (Event ι)}

theorem World.lease_leaseEffect {i : ι}
    (hstep : w.lease i now = some (w', events)) : LeaseEffect now w w' := by
  simp only [World.lease] at hstep
  split at hstep
  · cases hblocked : w.store.blockedBy (w.sequencers i).vni (w.sequencers i).owner now with
    | true =>
        rw [MemoryLeaseStore.acquire_blocked hblocked] at hstep
        cases hstep
        exact .refused i rfl rfl
    | false =>
        simp only [MemoryLeaseStore.acquire, hblocked] at hstep
        cases hstep
        exact .granted i _ hblocked rfl rfl rfl
  · cases hstep

theorem World.step_leaseEffect {part : CallPart ι}
    (hstep : w.step (part.at now) = some (w', events)) :
    LeaseEffect now w w' := by
  cases part with
  | enter i call =>
      simp only [CallPart.at, World.step, World.enter] at hstep
      split at hstep
      · cases hstep
        exact .same rfl rfl
      · split at hstep
        · cases hstep
          exact .same rfl rfl
        · cases hstep
  | lease i => exact World.lease_leaseEffect hstep
  | write i =>
      simp only [CallPart.at, World.step, World.write] at hstep
      split at hstep
      · cases hstep
        exact .same rfl rfl
      · cases hstep

theorem LeaseEffect.bound (heffect : LeaseEffect now w w') (j : ι) :
    (w'.sequencers j).owner = (w.sequencers j).owner ∧
      (w'.sequencers j).vni = (w.sequencers j).vni := by
  cases heffect with
  | same hseq hstore => simp [hseq]
  | refused i hseq hstore => by_cases hij : j = i <;> simp [hseq, hij]
  | granted i l hopen howner hseq hheld => by_cases hij : j = i <;> simp [hseq, hij]

/-! ## The invariant along a run -/

theorem Backed.stored_step (howners : Function.Injective fun i => (bindings i).owner)
    (hbacked : Backed bindings now w) (heffect : LeaseEffect now w w') {j : ι}
    (hholds : (w'.sequencers j).Holds now) :
    w'.store.held.get (bindings j).vni = some (w'.sequencers j).lease ∧
      (w'.sequencers j).lease.owner = (bindings j).owner := by
  cases heffect with
  | same hseq hstore =>
      rw [hseq] at hholds ⊢
      rw [hstore]
      exact hbacked.stored j hholds
  | refused i hseq hstore =>
      rw [hseq] at hholds ⊢
      by_cases hij : j = i
      · subst hij
        simp [FencedSequencer.Holds] at hholds
      · rw [Function.update_of_ne hij] at hholds ⊢
        rw [hstore]
        exact hbacked.stored j hholds
  | granted i l hopen hgranted hseq hheld =>
      rw [hseq] at hholds ⊢
      rw [hheld, GoMap.get_set, hbacked.vni]
      by_cases hij : j = i
      · subst hij
        simp [hgranted, hbacked.owner]
      · rw [Function.update_of_ne hij] at hholds ⊢
        -- a valid copy of another owner would have kept the store closed
        have hother : (bindings j).vni ≠ (bindings i).vni := by
          intro hsame
          have hblocked := hbacked.blocks hholds hsame.symm fun heq => hij (howners heq.symm)
          rw [hopen] at hblocked
          cases hblocked
        rw [if_neg hother]
        exact hbacked.stored j hholds

theorem Backed.step (howners : Function.Injective fun i => (bindings i).owner)
    (hbacked : Backed bindings now w) (heffect : LeaseEffect now w w') :
    Backed bindings now w' where
  owner j := (heffect.bound j).1.trans (hbacked.owner j)
  vni j := (heffect.bound j).2.trans (hbacked.vni j)
  stored _ hholds := hbacked.stored_step howners heffect hholds

theorem Timed.backed (howners : Function.Injective fun i => (bindings i).owner)
    (hrun : Timed (World.start bindings) now w) : Backed bindings now w := by
  induction hrun with
  | start now => exact backed_start now
  | elapse _ hlater ih => exact ih.elapse hlater
  | call part _ hstep ih => exact ih.step howners (World.step_leaseEffect hstep)

/-- Under one clock, no two sequencers with different owners hold a valid lease
for one VNI at the same time. -/
theorem lease_exclusive (howners : Function.Injective fun i => (bindings i).owner)
    (hrun : Timed (World.start bindings) now w) {i j : ι}
    (hvni : (w.sequencers i).vni = (w.sequencers j).vni)
    (hi : (w.sequencers i).Holds now) (hj : (w.sequencers j).Holds now) :
    i = j := by
  have hbacked := hrun.backed howners
  rw [hbacked.vni, hbacked.vni] at hvni
  obtain ⟨hgeti, howneri⟩ := hbacked.stored i hi
  obtain ⟨hgetj, hownerj⟩ := hbacked.stored j hj
  rw [hvni, hgetj, Option.some.injEq] at hgeti
  apply howners
  calc (bindings i).owner = (w.sequencers i).lease.owner := howneri.symm
    _ = (w.sequencers j).lease.owner := by rw [hgeti]
    _ = (bindings j).owner := hownerj

theorem Timed.exec {w₀ : World ι} {parts : List (CallPart ι)}
    (hrun : Timed w₀ now w)
    (hexec : FencingTokens.exec World.step w (parts.map (CallPart.at now)) =
      some (w', events)) : Timed w₀ now w' := by
  induction parts generalizing w events with
  | nil =>
      cases hexec
      exact hrun
  | cons part rest ih =>
      simp only [List.map_cons, FencingTokens.exec] at hexec
      split at hexec
      · cases hexec
      · rename_i middle _ hstep
        split at hexec
        · cases hexec
        · rename_i hrest
          cases hexec
          exact ih (.call part hrun hstep) hrest

/-- The standby takes over at the instant at which the lease of the primary
expires, and from then on is the only holder. -/
theorem lease_exclusive_handover :
    ∃ w, Timed (World.start handoverBindings) 1005 w ∧
      (w.sequencers true).Holds 1005 ∧
      ∀ i, (w.sequencers i).vni = (w.sequencers true).vni →
        (w.sequencers i).Holds 1005 → i = true := by
  obtain ⟨⟨w, log⟩, hfirst, hleased⟩ := (Option.any_eq_true _ _).mp
    (show (FencingTokens.exec World.step (World.start handoverBindings)
        ([.enter false ⟨[7], 5, [1]⟩, .lease false, .write false].map
          (CallPart.at 1000))).any (fun out =>
      (FencingTokens.exec World.step out.1
        ([.enter true ⟨[7], 6, [2]⟩, .lease true].map (CallPart.at 1005))).any
          fun out => decide ((out.1.sequencers true).Holds 1005)) = true by
      decide +kernel)
  obtain ⟨⟨w', log'⟩, hsecond, htest⟩ := (Option.any_eq_true _ _).mp hleased
  have hrun : Timed (World.start handoverBindings) 1005 w' :=
    (((Timed.start 1000).exec hfirst).elapse (by decide)).exec hsecond
  have hholds : (w'.sequencers true).Holds 1005 := of_decide_eq_true htest
  have howners : Function.Injective fun i => (handoverBindings i).owner := by
    decide
  exact ⟨w', hrun, hholds, fun i hvni hi => lease_exclusive howners hrun hvni hi hholds⟩

end MlsGo.Sequencer
