import MlsGo.LeaseFencing

/-!
# What fencing guarantees

Whatever the clocks read and however the callers interleave, the register
decides one commit per group and epoch, lets tokens through in order, and the
store hands tokens out in order until its 64-bit counter wraps.
-/

namespace MlsGo.Sequencer

open FencingTokens

variable {ι : Type} {epoch : UInt64} {g : Bytes} {call : Call} {vni : UInt32} {now : Time}
    {r r' : FencedRegister} {s : MemoryLeaseStore}

/-! ## The register is an accept-once register behind a token gate -/

theorem seqKey_inj {g' : Bytes} {epoch' : UInt64} :
    seqKey g epoch = seqKey g' epoch' ↔ g = g' ∧ epoch = epoch' := by
  constructor
  · intro heq
    have hlen : (writeUint64 epoch).length = (writeUint64 epoch').length := by
      simp [writeUint64]
    obtain ⟨hepoch, hgroup⟩ := List.append_inj heq hlen
    have hnat := congrArg beNat hepoch
    rw [writeUint64, writeUint64, beNat_beBytes, beNat_beBytes, show 256 ^ 8 = 2 ^ 64 by norm_num,
      Nat.mod_eq_of_lt epoch.toNat_lt, Nat.mod_eq_of_lt epoch'.toNat_lt] at hnat
    exact ⟨hgroup, UInt64.toNat_inj.mp hnat⟩
  · rintro ⟨rfl, rfl⟩
    rfl

def FencedRegister.slots (r : FencedRegister) : Bytes × UInt64 → Option Bytes :=
  fun slot => r.decision slot.1 slot.2

def Call.slot (call : Call) : Bytes × UInt64 := (call.group, call.epoch)

/-- What one write does. -/
inductive Accepts (r : FencedRegister) (vni : UInt32) (token : UInt64)
    (call : Call) : Result Bool → FencedRegister → Prop
  | fenced {r' : FencedRegister} (hstale : token < r.highest vni)
      (hreg : r' = r) : Accepts r vni token call (.error (.err errFenced)) r'
  | through {r' : FencedRegister} (hfresh : r.highest vni ≤ token)
      (hslots : r'.slots = (propose r.slots call.slot call.commit).2)
      (hhighest : r'.highest = Function.update r.highest vni token) :
      Accepts r vni token call (.ok (propose r.slots call.slot call.commit).1) r'

theorem FencedRegister.accept_spec (r : FencedRegister) (vni : UInt32)
    (token : UInt64) (call : Call) :
    Accepts r vni token call (r.accept vni token call).1 (r.accept vni token call).2 := by
  by_cases hstale : token < r.highest vni
  · simpa [FencedRegister.accept, hstale] using .fenced hstale rfl
  · have hhighest : ∀ decided : GoMap Bytes Bytes,
        FencedRegister.highest ⟨decided, r.maxToken.set vni token⟩ =
          Function.update r.highest vni token := by
      intro decided
      funext v
      by_cases heq : v = vni <;> simp [FencedRegister.highest, GoMap.get_set, Function.update, heq]
    cases hslot : r.slots call.slot with
    | some ex =>
        have hget : r.decided.get (seqKey call.group call.epoch) = some ex := hslot
        have hpropose : propose r.slots call.slot call.commit =
            (decide (ex = call.commit), r.slots) := by
          simp [propose, hslot]
        have hthrough : Accepts r vni token call (.ok (propose r.slots call.slot call.commit).1)
            ⟨r.decided, r.maxToken.set vni token⟩ :=
          .through (UInt64.not_lt.mp hstale) (by rw [hpropose]; rfl) (hhighest _)
        simpa [FencedRegister.accept, hstale, hget, hpropose] using hthrough
    | none =>
        have hget : r.decided.get (seqKey call.group call.epoch) = none := hslot
        have hpropose : propose r.slots call.slot call.commit =
            (true, Function.update r.slots call.slot (some call.commit)) := by
          simp [propose, hslot]
        have hslots : FencedRegister.slots
            ⟨r.decided.set (seqKey call.group call.epoch) call.commit, r.maxToken.set vni token⟩ =
            Function.update r.slots call.slot (some call.commit) := by
          funext slot
          obtain ⟨g, epoch⟩ := slot
          simp [FencedRegister.slots, FencedRegister.decision, GoMap.get_set,
            seqKey_inj, Function.update_apply, Call.slot]
        have hthrough : Accepts r vni token call (.ok (propose r.slots call.slot call.commit).1)
            ⟨r.decided.set (seqKey call.group call.epoch) call.commit, r.maxToken.set vni token⟩ :=
          .through (UInt64.not_lt.mp hstale) (by rw [hpropose, hslots]) (hhighest _)
        simpa [FencedRegister.accept, hstale, hget, hpropose] using hthrough

theorem Accepts.answers {token : UInt64} {ok : Bool}
    (haccepts : Accepts r vni token call (.ok ok) r') :
    Answers (r'.decision call.group call.epoch) call.commit ok := by
  generalize hresult : (Except.ok ok : Result Bool) = result at haccepts
  cases haccepts with
  | fenced _ _ => cases hresult
  | through _ hslots _ =>
      cases hresult
      change Answers (r'.slots call.slot) _ _
      rw [hslots]
      exact propose_answers

theorem Accepts.highest {token : UInt64} {ok : Bool}
    (haccepts : Accepts r vni token call (.ok ok) r') :
    r.highest vni ≤ token ∧ r'.highest = Function.update r.highest vni token := by
  generalize hresult : (Except.ok ok : Result Bool) = result at haccepts
  cases haccepts with
  | fenced _ _ => cases hresult
  | through hfresh _ hhighest => exact ⟨hfresh, hhighest⟩

/-! ## The store counts leases -/

theorem MemoryLeaseStore.acquire_blocked
    {owner : String} {ttl : Time} (hblocked : s.blockedBy vni owner now = true) :
    s.acquire vni owner ttl now = (none, s) := by
  simp [MemoryLeaseStore.acquire, hblocked]

theorem MemoryLeaseStore.acquire_granted {owner : String} (ttl : Time)
    (hopen : s.blockedBy vni owner now = false) :
    ∃ store, s.acquire vni owner ttl now =
        (some ⟨vni, owner, s.counter vni + 1, now + ttl⟩, store) ∧
      store.counter = Function.update s.counter vni (s.counter vni + 1) := by
  refine ⟨_, by simp [MemoryLeaseStore.acquire, hopen]; rfl, ?_⟩
  funext v
  by_cases heq : v = vni <;> simp [MemoryLeaseStore.counter, GoMap.get_set, Function.update, heq]

@[simp] theorem MemoryLeaseStore.renew_counter (s : MemoryLeaseStore)
    (vni : UInt32) (owner : String) (token : UInt64) (ttl now : Time) :
    (s.renew vni owner token ttl now).2.counter = s.counter := by
  unfold MemoryLeaseStore.renew
  split
  · rfl
  · split <;> rfl

@[simp] theorem MemoryLeaseStore.release_counter (s : MemoryLeaseStore)
    (vni : UInt32) (owner : String) (token : UInt64) :
    (s.release vni owner token).counter = s.counter := by
  unfold MemoryLeaseStore.release
  split
  · rfl
  · split <;> rfl

/-! ## What a step does to the shared state -/

/-- The four things a step can do to the counters and to the register, with the
events it emits. -/
inductive Effect (w : World ι) : List (Event ι) → World ι → Prop
  | quiet {w' : World ι} (hreg : w'.reg = w.reg)
      (hcounter : w'.store.counter = w.store.counter) : Effect w [] w'
  | refuses {w' : World ι} (i : ι) (call : Call) {result : Result Bool}
      (hresult : result ≠ .ok true) (hreg : w'.reg = w.reg)
      (hcounter : w'.store.counter = w.store.counter) :
      Effect w [.answered i call result] w'
  | mints {w' : World ι} (vni : UInt32) (hreg : w'.reg = w.reg)
      (hcounter : w'.store.counter =
        Function.update w.store.counter vni (w.store.counter vni + 1)) :
      Effect w [.minted vni (w.store.counter vni + 1)] w'
  | writes {w' : World ι} (i : ι) (call : Call) (vni : UInt32) (token : UInt64)
      (ok : Bool) (haccepts : Accepts w.reg vni token call (.ok ok) w'.reg)
      (hcounter : w'.store.counter = w.store.counter) :
      Effect w [.passed vni token, .answered i call (.ok ok)] w'

variable {w w' : World ι} {events log : List (Event ι)} {i : ι}

/-! ## What every step preserves -/

section Tokens

variable (vni : UInt32)

@[simp] theorem mintedTokens_append :
    mintedTokens vni (log ++ events) = mintedTokens vni log ++ mintedTokens vni events :=
  List.filterMap_append

@[simp] theorem mintedTokens_nil : mintedTokens vni ([] : List (Event ι)) = [] := rfl

@[simp] theorem mintedTokens_minted (other : UInt32) (token : UInt64) :
    mintedTokens vni ((.minted other token : Event ι) :: log) =
      (if other = vni then [token] else []) ++ mintedTokens vni log := by
  by_cases hvni : other = vni <;> simp [mintedTokens, hvni]

@[simp] theorem mintedTokens_passed (other : UInt32) (token : UInt64) :
    mintedTokens vni ((.passed other token : Event ι) :: log) = mintedTokens vni log := rfl

@[simp] theorem mintedTokens_answered (call : Call) (result : Result Bool) :
    mintedTokens vni (.answered i call result :: log) = mintedTokens vni log := rfl

@[simp] theorem passedTokens_append :
    passedTokens vni (log ++ events) = passedTokens vni log ++ passedTokens vni events :=
  List.filterMap_append

@[simp] theorem passedTokens_nil : passedTokens vni ([] : List (Event ι)) = [] := rfl

@[simp] theorem passedTokens_passed (other : UInt32) (token : UInt64) :
    passedTokens vni ((.passed other token : Event ι) :: log) =
      (if other = vni then [token] else []) ++ passedTokens vni log := by
  by_cases hvni : other = vni <;> simp [passedTokens, hvni]

@[simp] theorem passedTokens_minted (other : UInt32) (token : UInt64) :
    passedTokens vni ((.minted other token : Event ι) :: log) = passedTokens vni log := rfl

@[simp] theorem passedTokens_answered (call : Call) (result : Result Bool) :
    passedTokens vni (.answered i call result :: log) = passedTokens vni log := rfl

end Tokens

structure Safe (w : World ι) (log : List (Event ι)) : Prop where
  accepted : ∀ (i : ι) (call : Call), Event.answered i call (.ok true) ∈ log →
    w.reg.decision call.group call.epoch = some call.commit
  minted : ∀ vni, mintedTokens vni log =
      firstTokens (mintedTokens vni log).length ∧
    w.store.counter vni = UInt64.ofNat (mintedTokens vni log).length
  passed : ∀ vni, (passedTokens vni log).Pairwise (· ≤ ·) ∧
    ∀ token ∈ passedTokens vni log, token ≤ w.reg.highest vni

theorem safe_start (bindings : ι → Binding) : Safe (World.start bindings) [] where
  accepted _ _ hmem := by simp at hmem
  minted _ := ⟨rfl, rfl⟩
  passed _ := by simp [passedTokens]

theorem Effect.keeps (heffect : Effect w events w')
    {commit : Bytes} (hold : w.reg.decision g epoch = some commit) :
    w'.reg.decision g epoch = some commit := by
  cases heffect with
  | quiet hreg _ => rwa [hreg]
  | refuses _ _ _ hreg _ => rwa [hreg]
  | mints _ hreg _ => rwa [hreg]
  | writes i call _ _ _ haccepts _ =>
      cases haccepts with
      | through _ hslots _ =>
          have hkept : (propose w.reg.slots call.slot call.commit).2 (g, epoch) =
              some commit := propose_keeps hold
          rwa [← hslots] at hkept

theorem Safe.effect (hsafe : Safe w log) (heffect : Effect w events w') :
    Safe w' (log ++ events) where
  accepted i call hmem := by
    rcases List.mem_append.mp hmem with hold | hnew
    · exact heffect.keeps (hsafe.accepted i call hold)
    · cases heffect with
      | quiet _ _ => simp at hnew
      | refuses j other hresult _ _ =>
          simp only [List.mem_singleton, Event.answered.injEq] at hnew
          exact absurd hnew.2.2.symm hresult
      | mints _ _ _ => simp at hnew
      | writes j other _ _ _ haccepts _ =>
          simp only [List.mem_cons, reduceCtorEq, Event.answered.injEq,
            List.not_mem_nil, or_false, false_or, Except.ok.injEq] at hnew
          obtain ⟨-, rfl, rfl⟩ := hnew
          exact haccepts.answers.1.mp rfl
  minted vni := by
    obtain ⟨htokens, hcount⟩ := hsafe.minted vni
    cases heffect with
    | quiet _ hcounter => simpa [hcounter] using ⟨htokens, hcount⟩
    | refuses _ _ _ _ hcounter => simpa [hcounter] using ⟨htokens, hcount⟩
    | writes _ _ _ _ _ _ hcounter => simpa [hcounter] using ⟨htokens, hcount⟩
    | mints other _ hcounter =>
        rw [hcounter]
        by_cases hvni : other = vni
        · subst hvni
          simp only [mintedTokens_append, mintedTokens_minted, if_true, mintedTokens_nil,
            List.append_nil, List.length_append, List.length_singleton, firstTokens_succ,
            ← htokens, ← hcount, Function.update_self, true_and]
          simp [hcount]
        · simpa [hvni, Function.update_of_ne (Ne.symm hvni)] using ⟨htokens, hcount⟩
  passed vni := by
    obtain ⟨hsorted, hbound⟩ := hsafe.passed vni
    cases heffect with
    | quiet hreg _ => simpa [hreg] using ⟨hsorted, hbound⟩
    | refuses _ _ _ hreg _ => simpa [hreg] using ⟨hsorted, hbound⟩
    | mints _ hreg _ => simpa [hreg] using ⟨hsorted, hbound⟩
    | writes i call other token ok haccepts _ =>
        obtain ⟨hfresh, hhighest⟩ := haccepts.highest
        rw [hhighest]
        by_cases hvni : other = vni
        · subst hvni
          -- the new token is not below the highest, which bounds all older ones
          have hbelow : ∀ old ∈ passedTokens other log, old ≤ token :=
            fun old hmem => UInt64.le_trans (hbound old hmem) hfresh
          simp only [passedTokens_append, passedTokens_passed, if_true, passedTokens_answered,
            passedTokens_nil, List.append_nil, List.pairwise_append, Function.update_self]
          refine ⟨⟨hsorted, by simp, by simpa using hbelow⟩, ?_⟩
          simpa [or_imp, forall_and] using hbelow
        · simpa [hvni, Function.update_of_ne (Ne.symm hvni)] using ⟨hsorted, hbound⟩

/-! ## Steps of the callers -/

variable [DecidableEq ι]

@[simp] theorem World.move_reg (w : World ι) (i : ι) (phase : Phase) :
    (w.move i phase).reg = w.reg := rfl

@[simp] theorem World.move_store (w : World ι) (i : ι) (phase : Phase) :
    (w.move i phase).store = w.store := rfl

@[simp] theorem World.keep_reg (w : World ι) (i : ι) (s : FencedSequencer) :
    (w.keep i s).reg = w.reg := rfl

@[simp] theorem World.keep_store (w : World ι) (i : ι) (s : FencedSequencer) :
    (w.keep i s).store = w.store := rfl

theorem World.enter_effect
    (hstep : w.enter i call now = some (w', events)) : Effect w events w' := by
  simp only [World.enter] at hstep
  split at hstep
  · cases hstep
    exact .refuses i call (by simp) rfl rfl
  · split at hstep
    · cases hstep
      exact .quiet rfl rfl
    · cases hstep

theorem World.lease_cases (hstep : w.lease i now = some (w', events)) :
    ∃ call, w.phases i = .leasing call ∧
      ((w.store.blockedBy (w.sequencers i).vni (w.sequencers i).owner now = true ∧
          w'.reg = w.reg ∧ w'.store = w.store ∧
          events = [.answered i call (.ok false)]) ∨
        (w.store.blockedBy (w.sequencers i).vni (w.sequencers i).owner now = false ∧
          w'.reg = w.reg ∧
          w'.store.counter = Function.update w.store.counter (w.sequencers i).vni
            (w.store.counter (w.sequencers i).vni + 1) ∧
          events = [.minted (w.sequencers i).vni
            (w.store.counter (w.sequencers i).vni + 1)])) := by
  simp only [World.lease] at hstep
  split at hstep
  · rename_i call hphase
    refine ⟨call, hphase, ?_⟩
    cases hblocked : w.store.blockedBy (w.sequencers i).vni (w.sequencers i).owner now with
    | true =>
        rw [MemoryLeaseStore.acquire_blocked hblocked] at hstep
        cases hstep
        exact .inl ⟨rfl, rfl, rfl, rfl⟩
    | false =>
        obtain ⟨store, hacquire, hcounter⟩ :=
          MemoryLeaseStore.acquire_granted (w.sequencers i).ttl hblocked
        rw [hacquire] at hstep
        cases hstep
        exact .inr ⟨rfl, rfl, hcounter, rfl⟩
  · cases hstep

theorem World.write_cases (hstep : w.write i = some (w', events)) :
    ∃ call result, w.phases i = .writing call ∧ w'.store = w.store ∧
      Accepts w.reg (w.sequencers i).vni (w.sequencers i).lease.token call result w'.reg ∧
      events = passedBy (w.sequencers i).vni (w.sequencers i).lease.token result ++
        [.answered i call result] := by
  unfold World.write at hstep
  split at hstep
  · rename_i call hphase
    cases hstep
    exact ⟨call, _, hphase, rfl, w.reg.accept_spec _ _ _, rfl⟩
  · cases hstep

theorem World.step_effect {a : Action ι}
    (hstep : w.step a = some (w', events)) : Effect w events w' := by
  cases a with
  | enter i call now => exact World.enter_effect hstep
  | lease i now =>
      obtain ⟨call, -, hblocked | hgranted⟩ := World.lease_cases hstep
      · obtain ⟨-, hreg, hstore, rfl⟩ := hblocked
        exact .refuses i call (by simp) hreg (by rw [hstore])
      · obtain ⟨-, hreg, hcounter, rfl⟩ := hgranted
        exact .mints _ hreg hcounter
  | write i =>
      obtain ⟨call, result, -, hstore, haccepts, rfl⟩ := World.write_cases hstep
      cases result with
      | error fault =>
          cases haccepts with
          | fenced _ hreg => exact .refuses i call (by simp) hreg (by rw [hstore])
      | ok ok => exact .writes i call _ _ ok haccepts (by rw [hstore])
  | acquire vni owner ttl now =>
      cases hblocked : w.store.blockedBy vni owner now with
      | true =>
          simp only [World.step, MemoryLeaseStore.acquire_blocked hblocked] at hstep
          cases hstep
          exact .quiet rfl rfl
      | false =>
          obtain ⟨store, hacquire, hcounter⟩ := MemoryLeaseStore.acquire_granted ttl hblocked
          simp only [World.step, hacquire] at hstep
          cases hstep
          exact .mints vni rfl hcounter
  | renew vni owner token ttl now =>
      cases hstep
      exact .quiet rfl (by simp)
  | release vni owner token =>
      cases hstep
      exact .quiet rfl (by simp)

/-! ## Every run -/

theorem World.Run.safe {bindings : ι → Binding}
    (hrun : (World.start bindings).Run log w) : Safe w log :=
  hrun.invariant (safe_start bindings)
    fun _ _ _ _ _ hsafe hstep => hsafe.effect (World.step_effect hstep)

theorem World.Run.keeps (hrun : w.Run log w')
    {commit : Bytes} (hold : w.reg.decision g epoch = some commit) :
    w'.reg.decision g epoch = some commit :=
  hrun.invariant (P := fun w' _ => w'.reg.decision g epoch = some commit) hold
    fun _ _ _ _ _ hkept hstep => (World.step_effect hstep).keeps hkept

/-- The safety of fencing: successful calls for one group and epoch agree, a
decision stays, and tokens come out of the store and get through the register in
order.  The counter of the store has 64 bits, which bounds the third part. -/
theorem fencing_safe (bindings : ι → Binding) (hrun : (World.start bindings).Run log w) :
    (∀ (i j : ι) (g : Bytes) (epoch : UInt64) (commit commit' : Bytes),
      Event.answered i ⟨g, epoch, commit⟩ (.ok true) ∈ log → Event.answered j ⟨g, epoch, commit'⟩
      (.ok true) ∈ log → commit = commit') ∧
    (∀ (later : List (Event ι)) (w' : World ι), w.Run later w' →
      ∀ (g : Bytes) (epoch : UInt64) (commit : Bytes), w.reg.decision g epoch = some commit →
        w'.reg.decision g epoch = some commit) ∧
    (∀ vni, (mintedTokens vni log).length < 2 ^ 64 → (mintedTokens vni log).Pairwise (· < ·)) ∧
    (∀ vni, (passedTokens vni log).Pairwise (· ≤ ·)) := by
  have hsafe := hrun.safe
  refine ⟨?_, ?_, ?_, fun vni => (hsafe.passed vni).1⟩
  · intro i j g epoch commit commit' hfirst hsecond
    have hdecided := hsafe.accepted i _ hfirst
    rw [hsafe.accepted j _ hsecond] at hdecided
    exact (Option.some.inj hdecided).symm
  · intro later w' hlater g epoch commit hold
    exact hlater.keeps hold
  · intro vni hfew
    rw [(hsafe.minted vni).1]
    exact (firstTokens_increasing_iff _).mpr hfew

/-! ### A handover -/

def handoverBindings : Bool → Binding
  | false => { owner := "primary", vni := 42, group := [7], ttl := 5 }
  | true => { owner := "standby", vni := 42, group := [7], ttl := 5 }

/-- The primary decides epoch 5, and the standby asks for epoch 6 while the
lease of the primary is valid. -/
def handoverRefused : List (Action Bool) :=
  [.enter false ⟨[7], 5, [1]⟩ 1000, .lease false 1000, .write false,
    .enter true ⟨[7], 6, [2]⟩ 1001, .lease true 1001]

def handoverTakeover : List (Action Bool) :=
  [.enter true ⟨[7], 6, [2]⟩ 1006, .lease true 1006, .write true]

theorem exists_run_of_test (bindings : ι → Binding) (actions : List (Action ι))
    (test : World ι × List (Event ι) → Bool)
    (hok : (exec World.step (World.start bindings) actions).any test = true) :
    ∃ log w, (World.start bindings).Run log w ∧ test (w, log) = true := by
  obtain ⟨⟨w, log⟩, hexec, htest⟩ := (Option.any_eq_true _ _).mp hok
  exact ⟨log, w, .of_exec hexec, htest⟩

theorem fencing_safe_handover :
    ∃ log w, (World.start handoverBindings).Run log w ∧
      mintedTokens 42 log = [1, 2] ∧ (mintedTokens 42 log).Pairwise (· < ·) ∧
      passedTokens 42 log = [1, 2] ∧ (passedTokens 42 log).Pairwise (· ≤ ·) := by
  obtain ⟨log, w, hrun, htest⟩ :=
    exists_run_of_test handoverBindings (handoverRefused ++ handoverTakeover)
      (fun out => decide (mintedTokens 42 out.2 = [1, 2] ∧
        passedTokens 42 out.2 = [1, 2])) (by decide +kernel)
  obtain ⟨hminted, hpassed⟩ := of_decide_eq_true htest
  obtain ⟨-, -, hincreasing, hsorted⟩ := fencing_safe handoverBindings hrun
  exact ⟨log, w, hrun, hminted, hincreasing 42 (by simp [hminted]), hpassed, hsorted 42⟩

/-! ### The counter wraps -/

theorem exists_run_minting (bindings : ι → Binding) (n : ℕ) :
    ∃ log w, (World.start bindings).Run log w ∧ (mintedTokens 0 log).length = n ∧
      ∀ l, w.store.held.get 0 = some l → l.owner = "primary" := by
  induction n with
  | zero => exact ⟨[], _, .refl _, rfl, by simp [World.start, newMemoryLeaseStore]⟩
  | succ n ih =>
      obtain ⟨log, w, hrun, hlength, howner⟩ := ih
      have hopen : w.store.blockedBy 0 "primary" 0 = false := by
        unfold MemoryLeaseStore.blockedBy
        split
        · rename_i cur hheld
          simp [howner cur hheld]
        · rfl
      have hstep : w.step (.acquire 0 "primary" 0 0) =
          some ({ w with store := (w.store.acquire 0 "primary" 0 0).2 },
            [.minted 0 (w.store.counter 0 + 1)]) := by
        simp [World.step, MemoryLeaseStore.acquire, hopen, mintedBy]
      refine ⟨_, _, .tail _ hrun hstep, by simp [hlength], ?_⟩
      intro l hheld
      simp only [MemoryLeaseStore.acquire, hopen, Bool.false_eq_true, if_false,
        GoMap.get_set, if_true, Option.some.injEq] at hheld
      rw [← hheld]

/-- After `2 ^ 64` leases the tokens of a VNI start again below the old ones. -/
theorem minted_tokens_wrap :
    ∃ (log : List (Event Bool)) (w : World Bool), (World.start handoverBindings).Run log w ∧
      ¬ (mintedTokens 0 log).Pairwise (· < ·) := by
  obtain ⟨log, w, hrun, hlength, -⟩ := exists_run_minting handoverBindings (2 ^ 64)
  refine ⟨log, w, hrun, ?_⟩
  rw [(hrun.safe.minted 0).1, hlength, firstTokens_increasing_iff]
  exact lt_irrefl _

end MlsGo.Sequencer
