import MlsGo.WireSyntax
import MlsGo.FencingTokens

/-!
# Lease fencing of the commit sequencer

`ironcore/sequencer`: a lease store that hands out a token with every lease, a
register that decides one commit per group and epoch and turns away tokens below
the highest one it has seen, and the sequencers that write to the register while
they hold a lease.

The store and the register do each of their methods under their own mutex, so a
method is one step.  `AcceptCommit` holds the mutex of its sequencer while it
reads the clock, asks the store and writes to the register; between those three
points every other caller may move, and `World.step` lets it.

Every clock reading is an argument of the step that makes it.  Nothing relates
two readings, so clocks may be skewed or run backwards.
-/

namespace MlsGo

abbrev Time := ℤ

namespace Sequencer

/-- `group.CommitRef`, `group.GroupID` and the epoch of one `AcceptCommit`. -/
structure Call where
  group : Bytes
  epoch : UInt64
  commit : Bytes
  deriving DecidableEq, Repr

def seqKey (g : Bytes) (epoch : UInt64) : Bytes := writeUint64 epoch ++ g

/-! ## Leases -/

structure Lease where
  vni : UInt32
  owner : String
  token : UInt64
  expiry : Time
  deriving DecidableEq, Repr

def Lease.valid (l : Lease) (now : Time) : Bool := decide (now < l.expiry)

structure MemoryLeaseStore where
  held : GoMap UInt32 Lease
  next : GoMap UInt32 UInt64

def newMemoryLeaseStore : MemoryLeaseStore := { held := [], next := [] }

/-- `s.next[vni]`, which is zero for a VNI that was never leased. -/
def MemoryLeaseStore.counter (s : MemoryLeaseStore) (vni : UInt32) : UInt64 :=
  (s.next.get vni).getD 0

def MemoryLeaseStore.blockedBy (s : MemoryLeaseStore) (vni : UInt32)
    (owner : String) (now : Time) : Bool :=
  match s.held.get vni with
  | some cur => decide (cur.owner ≠ owner) && cur.valid now
  | none => false

def MemoryLeaseStore.acquire (s : MemoryLeaseStore) (vni : UInt32)
    (owner : String) (ttl now : Time) : Option Lease × MemoryLeaseStore :=
  if s.blockedBy vni owner now then
    (none, s)
  else
    let token := s.counter vni + 1
    let l : Lease := { vni, owner, token, expiry := now + ttl }
    (some l, { held := s.held.set vni l, next := s.next.set vni token })

def MemoryLeaseStore.renew (s : MemoryLeaseStore) (vni : UInt32)
    (owner : String) (token : UInt64) (ttl now : Time) :
    Option Lease × MemoryLeaseStore :=
  match s.held.get vni with
  | none => (none, s)
  | some cur =>
      if cur.owner ≠ owner ∨ cur.token ≠ token then
        (none, s)
      else
        let l := { cur with expiry := now + ttl }
        (some l, { s with held := s.held.set vni l })

def MemoryLeaseStore.release (s : MemoryLeaseStore) (vni : UInt32)
    (owner : String) (token : UInt64) : MemoryLeaseStore :=
  match s.held.get vni with
  | none => s
  | some cur =>
      if cur.owner = owner ∧ cur.token = token then
        { s with held := s.held.filter (·.1 ≠ vni) }
      else s

/-! ## The register -/

structure FencedRegister where
  decided : GoMap Bytes Bytes
  maxToken : GoMap UInt32 UInt64

def newFencedRegister : FencedRegister := { decided := [], maxToken := [] }

def errFenced : Err := .text "sequencer: write fenced by stale token"

def FencedRegister.highest (r : FencedRegister) (vni : UInt32) : UInt64 :=
  (r.maxToken.get vni).getD 0

def FencedRegister.accept (r : FencedRegister) (vni : UInt32) (token : UInt64)
    (call : Call) : Result Bool × FencedRegister :=
  if token < r.highest vni then
    (.error (.err errFenced), r)
  else
    let maxToken := r.maxToken.set vni token
    let key := seqKey call.group call.epoch
    match r.decided.get key with
    | some ex => (.ok (decide (ex = call.commit)), { r with maxToken })
    | none => (.ok true, { decided := r.decided.set key call.commit, maxToken })

def FencedRegister.decision (r : FencedRegister) (g : Bytes)
    (epoch : UInt64) : Option Bytes := r.decided.get (seqKey g epoch)

/-! ## The sequencer -/

structure FencedSequencer where
  owner : String
  vni : UInt32
  group : Bytes
  ttl : Time
  lease : Lease
  held : Bool

/-- `NewFencedSequencer`: the lease is the zero value and not held. -/
def newFencedSequencer (owner : String) (vni : UInt32) (g : Bytes)
    (ttl : Time) : FencedSequencer :=
  { owner, vni, group := g, ttl
    lease := { vni := 0, owner := "", token := 0, expiry := 0 }
    held := false }

def FencedSequencer.needsLease (s : FencedSequencer) (now : Time) : Bool :=
  !s.held || !s.lease.valid now

def FencedSequencer.notOwned (s : FencedSequencer) (g : Bytes) : Err :=
  .text s!"sequencer: group {hexBytes g} not owned by VNI {s.vni.toNat} fencer"

/-- `AcceptCommit` when nobody else moves meanwhile.  The sequencer and the
store read the clock separately. -/
def FencedSequencer.acceptCommit (s : FencedSequencer)
    (store : MemoryLeaseStore) (reg : FencedRegister) (call : Call)
    (now storeNow : Time) :
    Result Bool × FencedSequencer × MemoryLeaseStore × FencedRegister :=
  if call.group ≠ s.group then
    (.error (.err (s.notOwned call.group)), s, store, reg)
  else if s.needsLease now then
    match store.acquire s.vni s.owner s.ttl storeNow with
    | (none, store) => (.ok false, { s with held := false }, store, reg)
    | (some l, store) =>
        let (result, reg) := reg.accept s.vni l.token call
        (result, { s with lease := l, held := true }, store, reg)
  else
    let (result, reg) := reg.accept s.vni s.lease.token call
    (result, s, store, reg)

/-! ## Concurrent callers -/

/-- Where the call that holds a sequencer's mutex stands: none does, it is about
to ask the store for a lease, or it is about to write to the register. -/
inductive Phase where
  | idle
  | leasing (call : Call)
  | writing (call : Call)
  deriving DecidableEq, Repr

/-- What an observer sees: a token handed out by the store, a write the register
let through, and the answer of an `AcceptCommit`. -/
inductive Event (ι : Type) where
  | minted (vni : UInt32) (token : UInt64)
  | passed (vni : UInt32) (token : UInt64)
  | answered (caller : ι) (call : Call) (result : Result Bool)
  deriving DecidableEq

/-- One atomic step of one caller. -/
inductive Action (ι : Type) where
  | enter (caller : ι) (call : Call) (now : Time)
  | lease (caller : ι) (now : Time)
  | write (caller : ι)
  | acquire (vni : UInt32) (owner : String) (ttl now : Time)
  | renew (vni : UInt32) (owner : String) (token : UInt64) (ttl now : Time)
  | release (vni : UInt32) (owner : String) (token : UInt64)

structure World (ι : Type) where
  store : MemoryLeaseStore
  reg : FencedRegister
  sequencers : ι → FencedSequencer
  phases : ι → Phase

structure Binding where
  owner : String
  vni : UInt32
  group : Bytes
  ttl : Time

variable {ι : Type}

def World.start (bindings : ι → Binding) : World ι where
  store := newMemoryLeaseStore
  reg := newFencedRegister
  sequencers i := newFencedSequencer (bindings i).owner (bindings i).vni
    (bindings i).group (bindings i).ttl
  phases _ := .idle

variable [DecidableEq ι]

def World.move (w : World ι) (i : ι) (phase : Phase) : World ι :=
  { w with phases := Function.update w.phases i phase }

def World.keep (w : World ι) (i : ι) (s : FencedSequencer) : World ι :=
  { w with sequencers := Function.update w.sequencers i s }

def mintedBy : Option Lease → List (Event ι)
  | none => []
  | some l => [.minted l.vni l.token]

def passedBy (vni : UInt32) (token : UInt64) : Result Bool → List (Event ι)
  | .ok _ => [.passed vni token]
  | .error _ => []

/-- The first part of `AcceptCommit`.  The group is compared before the mutex is
taken, so a foreign group is refused even while another call is under way. -/
def World.enter (w : World ι) (i : ι) (call : Call) (now : Time) :
    Option (World ι × List (Event ι)) :=
  let s := w.sequencers i
  if call.group ≠ s.group then
    some (w, [.answered i call (.error (.err (s.notOwned call.group)))])
  else if w.phases i = .idle then
    some (w.move i (if s.needsLease now then .leasing call else .writing call), [])
  else none

def World.lease (w : World ι) (i : ι) (now : Time) :
    Option (World ι × List (Event ι)) :=
  match w.phases i with
  | .leasing call =>
      let s := w.sequencers i
      match w.store.acquire s.vni s.owner s.ttl now with
      | (none, store) =>
          some (({ w with store }.keep i { s with held := false }).move i .idle,
            [.answered i call (.ok false)])
      | (some l, store) =>
          some (({ w with store }.keep i { s with lease := l, held := true }).move i
            (.writing call), mintedBy (some l))
  | _ => none

def World.write (w : World ι) (i : ι) : Option (World ι × List (Event ι)) :=
  match w.phases i with
  | .writing call =>
      let s := w.sequencers i
      let (result, reg) := w.reg.accept s.vni s.lease.token call
      some ({ w with reg }.move i .idle,
        passedBy s.vni s.lease.token result ++ [.answered i call result])
  | _ => none

def World.step (w : World ι) : Action ι → Option (World ι × List (Event ι))
  | .enter i call now => w.enter i call now
  | .lease i now => w.lease i now
  | .write i => w.write i
  | .acquire vni owner ttl now =>
      let (lease, store) := w.store.acquire vni owner ttl now
      some ({ w with store }, mintedBy lease)
  | .renew vni owner token ttl now =>
      some ({ w with store := (w.store.renew vni owner token ttl now).2 }, [])
  | .release vni owner token => some ({ w with store := w.store.release vni owner token }, [])

abbrev World.Run (w : World ι) : List (Event ι) → World ι → Prop := FencingTokens.Run World.step w

def mintedTokens (vni : UInt32) : List (Event ι) → List UInt64 :=
  List.filterMap fun
    | .minted v token => if v = vni then some token else none
    | _ => none

/-- The tokens of the writes that got through for a VNI, oldest first. -/
def passedTokens (vni : UInt32) : List (Event ι) → List UInt64 :=
  List.filterMap fun
    | .passed v token => if v = vni then some token else none
    | _ => none

end Sequencer
end MlsGo
