import MlsGo.SimClient

/-!
# The simulated network

`sim/sim.go` and `sim/bus.go`: clients, two reflectors and the messages between
them.  The scheduler, the random drops and delays and the partitions decide which
of the published messages arrive, and when; here every message in flight may be
delivered or dropped at any time and in any order, timers may fire at any time,
and members and reflectors may come and go at any time.  Every run of a scenario
is a run here.
-/

namespace MlsGo.Sim

/-- What the actors know of a `Scenario`; the rest of it is the schedule. -/
structure Scenario where
  clients : ℕ
  vnis : ℕ
  w : ℕ
  mbbDisabled : Bool
  singleReplica : Bool
  sharedSPIReplay : Bool
  encryptHandshakes : Bool

def Scenario.numReplicas (sc : Scenario) : ℕ := if sc.singleReplica then 1 else numDS.toNat

def Scenario.channels (sc : Scenario) : List UInt32 :=
  (List.range sc.vnis).flatMap fun v => (List.range sc.numReplicas).map (saVNI (UInt32.ofNat v))

structure World where
  scenario : Scenario
  clients : List Client
  dss : List DS
  dir : KpDirectory
  subs : GoMap UInt32 (List ActorID)
  /-- Messages on their way, with the actor they go to. -/
  inFlight : List (ActorID × Envelope)
  /-- Reflectors that are down. -/
  down : List ActorID
  desired : GoMap UInt32 (List Bytes)
  metrics : DSMetrics
  losses : List Client.LossEvent

namespace World

/-! ## The bus -/

def subscribers (w : World) (vni : UInt32) : List ActorID :=
  ((w.subs.get vni).getD []).insertionSort (· ≤ ·)

def publish (w : World) (env : Envelope) : World :=
  let dsts := if env.dst = broadcast then w.subscribers env.vni else [env.dst]
  { w with inFlight := w.inFlight ++ (dsts.filter (· ≠ env.src)).map fun dst => (dst, env) }

def perform (actor : ActorID) (w : World) : BusOp → World
  | .publish env => w.publish env
  | .unsubscribe ch =>
      { w with subs := w.subs.set ch (((w.subs.get ch).getD []).filter (· ≠ actor)) }

def performAll (w : World) (actor : ActorID) (ops : List BusOp) : World :=
  ops.foldl (perform actor) w

/-! ## Actors -/

def onClient (w : World) (i : ℕ) (act : Client → Result Client.Delivery) :
    Result World :=
  match w.clients[i]? with
  | none => .ok w
  | some c => do
      let d ← act c
      let w := { w with clients := w.clients.set i d.client
                        losses := w.losses ++ d.loss.toList }
      return w.performAll c.id d.ops

def onReflector (w : World) (id : ActorID) (env : Envelope) : World :=
  match w.dss.find? fun d => d.id = id with
  | none => w
  | some d =>
      let r := d.handle (w.down.contains id) env w.metrics
      let dss := w.dss.map fun other : DS => if other.id = id then r.ds else other
      { w with dss, metrics := r.metrics }.performAll id (r.published.map .publish)

variable (H : ContentHash) (S : Suite) (registry : UInt16 → Option Suite)

def dispatchDeliver (w : World) (actor : ActorID) (env : Envelope) : Result World :=
  if 0 ≤ actor ∧ actor < w.clients.length then
    w.onClient actor.toNat fun c => c.onDeliver H S registry w.dir env
  else .ok (w.onReflector actor env)

def desiredSlice (w : World) (ch : UInt32) : List Bytes :=
  ((w.desired.get ch).getD []).insertionSort (· ≤ ·)

def churnChannel (join : Bool) (identity : Bytes) (w : World) (ch : UInt32) : World :=
  let others := ((w.desired.get ch).getD []).filter (· ≠ identity)
  { w with desired := w.desired.set ch (if join then identity :: others else others) }

def dispatchChurn (w : World) (join : Bool) (client : ℕ) (tenant : UInt32) : World :=
  match w.clients[client]? with
  | none => w
  | some c => ((List.range w.scenario.numReplicas).map (saVNI tenant)).foldl
      (churnChannel join c.identity) w

end World

/-- What can happen next.  `deliver` and `drop` name a message in flight. -/
inductive Action where
  | deliver (i : ℕ)
  | drop (i : ℕ)
  | rekey (client : ℕ) (ch : UInt32) (rnd : CommitRandomness)
  | heartbeat (client : ℕ) (ch : UInt32)
  | reconcile (client : ℕ) (ch : UInt32) (rnd : CommitRandomness)
  | data (client : ℕ) (tenant : UInt32)
  | churn (join : Bool) (client : ℕ) (tenant : UInt32)
  | fault (ds : ActorID) (on : Bool)

def Client.Delivery.of (step : Client × List BusOp) : Client.Delivery := ⟨step.1, step.2, none⟩

section Steps

variable (H : ContentHash) (S : Suite) (registry : UInt16 → Option Suite)

def World.step (w : World) : Action → Result World
  | .deliver i =>
      match w.inFlight[i]? with
      | none => .ok w
      | some (actor, env) =>
          { w with inFlight := w.inFlight.eraseIdx i }.dispatchDeliver H S registry actor env
  | .drop i => .ok { w with inFlight := w.inFlight.eraseIdx i }
  | .rekey i ch rnd => w.onClient i fun c => Client.Delivery.of <$> c.rekey H S registry ch rnd
  | .heartbeat i ch => w.onClient i fun c => .ok (.of (c, c.emitHeartbeat H ch))
  | .reconcile i ch rnd => w.onClient i fun c =>
      Client.Delivery.of <$> c.reconcile H S registry ch (w.desiredSlice ch) rnd
  | .data i tenant => w.onClient i fun c => .ok (.of (c.sendData tenant))
  | .churn join client tenant => .ok (w.dispatchChurn join client tenant)
  | .fault ds on =>
      let others := w.down.filter (· ≠ ds)
      .ok { w with down := if on then ds :: others else others }

/-- A run: the states it went through, each with the action taken there, latest
first, and the state it is in. -/
inductive History (start : World) : List (World × Action) → World → Prop
  | start : History start [] start
  | step {past : List (World × Action)} {w w' : World} (a : Action)
      (hpast : History start past w) (hstep : w.step H S registry a = .ok w') :
      History start ((w, a) :: past) w'

def World.run (w : World) (past : List (World × Action)) :
    List Action → Result (List (World × Action) × World)
  | [] => .ok (past, w)
  | a :: rest => do
      let next ← w.step H S registry a
      next.run ((w, a) :: past) rest

variable {H S registry}

theorem History.run {start w : World} {past : List (World × Action)}
    (hpast : History H S registry start past w) {actions : List Action}
    {out : List (World × Action) × World} (hrun : w.run H S registry past actions = .ok out) :
    History H S registry start out.1 out.2 := by
  induction actions generalizing w past with
  | nil =>
      cases hrun
      exact hpast
  | cons a rest ih =>
      simp only [World.run, bind_eq_ok] at hrun
      obtain ⟨next, hstep, hrest⟩ := hrun
      exact ih (hpast.step a hstep) hrest

end Steps

/-! ## The start -/

/-- What is drawn at the start: signing keys and the seeds of key packages. -/
structure StartRandomness where
  signer : ℕ → Signer
  seeds : ℕ → UInt32 → KeyPackageSeeds

def maxLifetime : Lifetime := ⟨0, 0xFFFFFFFFFFFFFFFF⟩

def clientIdentity (i : ℕ) : Bytes := ascii "client-" ++ decimal i

def publishKeyPackage (S : Suite) (rnd : StartRandomness) (i : ℕ) (ch : UInt32) :
    Result ((Bytes × UInt32) × KpEntry) := do
  let (kp, initPriv, leafPriv) ← newKeyPackage S (.basic (clientIdentity i))
    (some (rnd.signer i)) maxLifetime (rnd.seeds i ch)
  let kpMsg ← encodeKeyPackageMessage kp
  return ((clientIdentity i, ch), ⟨kpMsg, initPriv, leafPriv⟩)

/-- `controllerCfg`.  Every commit is taken for accepted; the reflector decides. -/
def controllerCfg (S : Suite) (sc : Scenario) (dir : KpDirectory) (ch : UInt32) :
    ControllerConfig where
  vni := ch
  suite := S
  ordering := fun _ _ _ => .ok true
  validator := some basicCredentialValidator
  resolve := some fun identity => (dir.get (identity, ch)).map (·.kpMsg)
  handshakePlaintext := !sc.encryptHandshakes

section Start

variable (S : Suite) (registry : UInt16 → Option Suite) (sc : Scenario) (rnd : StartRandomness)

def foundVNI (dir : KpDirectory) (c : Client) (ch : UInt32) : Result VniState := do
  let g ← newGroup S (vniGroupID ch) (.basic c.identity) (some c.signer) maxLifetime
    (rnd.seeds 0 ch)
  let ctrl ← newController S registry (controllerCfg S sc dir ch) (some g)
  c.cacheCurrentSA (newVNIState ctrl true)

def prospectiveVNI (dir : KpDirectory) (ch : UInt32) : Result VniState := do
  let ctrl ← newController S registry (controllerCfg S sc dir ch) none
  return newVNIState ctrl false

def newClient (i : ℕ) : Client where
  id := i
  signer := rnd.signer i
  identity := clientIdentity i
  vnis := []
  dsIDs := [(sc.clients : ℤ), sc.clients + 1]
  w := sc.w
  mbbDisabled := sc.mbbDisabled
  encryptHandshakes := sc.encryptHandshakes
  sharedSPIReplay := sc.sharedSPIReplay

def startClient (dir : KpDirectory) (i : ℕ) : Result Client := do
  let c := newClient sc rnd i
  let vnis ← sc.channels.mapM fun ch => do
    let st ← if i = 0 then foundVNI S registry sc rnd dir c ch
      else prospectiveVNI S registry sc dir ch
    return (ch, st)
  return { c with vnis }

/-- `bootstrap`.  Key packages are published before anyone looks them up. -/
def bootstrap : Result World := do
  let joiners := (List.range sc.clients).tail
  let dir ← (joiners.flatMap fun i => sc.channels.map fun ch => (i, ch)).mapM fun p =>
    publishKeyPackage S rnd p.1 p.2
  let clients ← (List.range sc.clients).mapM (startClient S registry sc rnd dir)
  let all : List ActorID := (List.range sc.clients).map fun i : ℕ => (i : ℤ)
  return { scenario := sc
           clients := clients
           dss := [newDS sc.clients sc.encryptHandshakes,
                   newDS (sc.clients + 1) sc.encryptHandshakes]
           dir := dir
           subs := sc.channels.map fun ch => (ch, all)
           inFlight := []
           down := []
           desired := sc.channels.map fun ch => (ch, [clientIdentity 0])
           metrics := ⟨0, 0, 0, 0⟩
           losses := [] }

end Start

end MlsGo.Sim
