import MlsGo.Reflector
import MlsGo.ReplayWindow
import MlsGo.SenderAssociations

/-!
# A client of the simulation

`sim/client.go`: a host is a member of one group per channel.  It commits when it
is the committer of a channel and its last commit has come back from the
reflector, follows the commits of others, tracks the epochs of its peers and sends
data under the lowest of them.

A handler returns the client it leaves and what it does to the bus, in order.
Errors of the controller are results like any other; a panic, or a call that does
not return, ends the simulation and is the error of the handler.  Counters of the
metrics are left out, and so is `catchupReqs`, which no code reads.
-/

namespace MlsGo

def Credential.identity : Credential → Bytes
  | .basic id => id
  | .x509 _ => []

def basicCredentialValidator : Credential → Bytes → Except Err Bytes
  | .basic (b :: rest), _ => .ok (b :: rest)
  | _, _ => .error (.text "group: BasicCredentialValidator requires a non-empty basic credential")

namespace Sim

/-! ## Channels and identities -/

def numDS : UInt32 := 2

def saVNI (vni : UInt32) (r : ℕ) : UInt32 := vni * numDS + UInt32.ofNat r

def replicaOf (ch : UInt32) : ℕ := (ch % numDS).toNat

def decimal (n : ℕ) : Bytes := (Nat.toDigits 10 n).map fun c => UInt8.ofNat c.toNat

def leadingInt (text : Bytes) : Option ℤ :=
  let negative : Bool := text.head? = some 45
  let unsigned := if negative ∨ text.head? = some 43 then text.tail else text
  let digits := unsigned.takeWhile fun d => 48 ≤ d ∧ d ≤ 57
  let magnitude : ℤ := digits.foldl (fun n d => 10 * n + (d.toNat - 48)) 0
  let value := if negative then -magnitude else magnitude
  if digits.isEmpty ∨ value < -2 ^ 63 ∨ 2 ^ 63 ≤ value then none else some value

/-- `Sscanf(identity, "client-%d", &n)`, which does not look at what follows the
number.  It would also skip blanks before it; no identity of a run has any. -/
def actorIDFromIdentity (identity : Bytes) : Option ActorID :=
  if (ascii "client-").isPrefixOf identity then leadingInt (identity.drop 7) else none

def identityFromActorID (a : ActorID) : Option Bytes :=
  if a < 0 then none else some (ascii "client-" ++ decimal a.toNat)

/-! ## State -/

/-- `vniState`: a client on one channel.  Maps to `true` are kept as their keys. -/
structure VniState where
  ctrl : Controller
  joined : Bool
  joinEpoch : UInt64
  saCache : GoMap UInt64 (Option SA)
  peerEpoch : GoMap ActorID UInt64
  heard : List ActorID
  outbox : GoMap UInt64 Bytes
  confirmed : List UInt64
  hasHead : Bool
  headBase : UInt64
  pendingWelcome : GoMap Bytes Bytes
  sendSeq : GoMap UInt64 UInt64
  inSPIs : GoMap UInt64 (List UInt32)
  replay : GoMap UInt32 ReplayWin

def newVNIState (ctrl : Controller) (joined : Bool) : VniState where
  ctrl := ctrl
  joined := joined
  joinEpoch := 0
  saCache := []
  peerEpoch := []
  heard := []
  outbox := []
  confirmed := []
  hasHead := false
  headBase := 0
  pendingWelcome := []
  sendSeq := []
  inSPIs := []
  replay := []

structure Client where
  id : ActorID
  signer : Signer
  identity : Bytes
  vnis : GoMap UInt32 VniState
  dsIDs : List ActorID
  /-- `W`, the overlap depth. -/
  w : ℕ
  mbbDisabled : Bool
  encryptHandshakes : Bool
  sharedSPIReplay : Bool

/-- The key package that a client published for a channel, and its private keys. -/
structure KpEntry where
  kpMsg : Bytes
  initPriv : Bytes
  leafPriv : Bytes
  deriving DecidableEq, Repr

abbrev KpDirectory := GoMap (Bytes × UInt32) KpEntry

/-- One thing a client does to the bus. -/
inductive BusOp where
  | publish (env : Envelope)
  | unsubscribe (ch : UInt32)
  deriving DecidableEq, Repr

def deleteKey {κ ν : Type} [DecidableEq κ] (map : GoMap κ ν) (key : κ) : GoMap κ ν :=
  map.filter fun entry => entry.1 ≠ key

def Client.put (c : Client) (ch : UInt32) (st : VniState) : Client :=
  { c with vnis := c.vnis.set ch st }

def Client.reflectorFor (c : Client) (ch : UInt32) : ActorID := c.dsIDs.getD (replicaOf ch) 0

namespace VniState

def epoch (st : VniState) : UInt64 := st.ctrl.epoch

def isCommitter (st : VniState) : Bool := st.ctrl.g.any Group.isCommitter

/-! ## Members and their epochs -/

def leafIdentities (st : VniState) : List Bytes :=
  match st.ctrl.g with
  | none => []
  | some g => g.activeLeaves.filterMap fun leaf =>
      (g.leafCredential leaf).toOption.map fun cred => cred.1.identity

def leafIdentitySet (st : VniState) : List Bytes := if st.joined then st.leafIdentities else []

def replicaMembers (st : VniState) : List ActorID :=
  st.leafIdentitySet.filterMap actorIDFromIdentity

def seedPeer (own : ActorID) (value : UInt64) (peers : GoMap ActorID UInt64)
    (identity : Bytes) : GoMap ActorID UInt64 :=
  match actorIDFromIdentity identity with
  | none => peers
  | some aid => if aid ≠ own ∧ (peers.get aid).isNone then peers.set aid value else peers

def seedPeers (st : VniState) (own : ActorID) (value : UInt64)
    (identities : List Bytes) : VniState :=
  { st with peerEpoch := identities.foldl (seedPeer own value) st.peerEpoch }

def initPeerEpochForNewMembers (st : VniState) (own : ActorID) (before : List Bytes) :
    VniState :=
  if !st.joined then st
  else st.seedPeers own st.epoch
    (st.leafIdentities.filter fun identity => !before.contains identity)

def pruneDepartedPeers (st : VniState) : VniState :=
  if !st.joined then st
  else
    let departed := (st.peerEpoch.map Prod.fst).filter fun a => !st.replicaMembers.contains a
    { st with
      peerEpoch := st.peerEpoch.filter fun entry => !departed.contains entry.1
      heard := st.heard.filter fun a => !departed.contains a }

end VniState

/-! ## Associations -/

def saSPI (sa : Option SA) : UInt32 := (sa.map (·.spi)).getD 0

def saOwnSPI (sa : Option SA) : UInt32 := (sa.map (·.ownSPI)).getD 0

/-- The loop of `cacheCurrentSA` over the active leaves. -/
def senderSPIs (sa : Option SA) : List ℕ → Result (List UInt32)
  | [] => .ok []
  | leaf :: rest =>
      match senderSPIOf sa leaf with
      | .ok spi => do return spi :: (← senderSPIs sa rest)
      | .error (.err _) => senderSPIs sa rest
      | .error fault => .error fault

namespace Client

def effectiveW (c : Client) : ℕ := if c.mbbDisabled then 0 else c.w

def trimSAs (c : Client) (st : VniState) : VniState :=
  let w := UInt64.ofNat c.effectiveW
  let trimmed (e : UInt64) : Bool := w ≤ st.epoch ∧ e < st.epoch - w
  { st with
    saCache := st.saCache.filter fun entry => !trimmed entry.1
    inSPIs := st.inSPIs.filter fun entry => !(trimmed entry.1 && (st.saCache.get entry.1).isSome) }

def cacheCurrentSA (c : Client) (st : VniState) : Result VniState :=
  if !st.joined then .ok st
  else
    match st.ctrl.currentSA with
    | .error _ => .ok st
    | .ok sa => do
        let leaves := (st.ctrl.g.map Group.activeLeaves).getD []
        let spis ← senderSPIs sa leaves
        return c.trimSAs { st with
          saCache := st.saCache.set (saEpoch sa) sa
          inSPIs := st.inSPIs.set (saEpoch sa) (saSPI sa :: spis) }

def sendEpoch (c : Client) (st : VniState) : UInt64 :=
  if c.mbbDisabled then st.epoch
  else
    ((st.peerEpoch.map Prod.fst).dedup.filterMap st.peerEpoch.get).foldl
      (fun mn e => if e < mn then e else mn) st.epoch

def sendSPI (c : Client) (sa : Option SA) : UInt32 :=
  if c.sharedSPIReplay then saSPI sa else saOwnSPI sa

/-! ## Sending -/

variable (H : ContentHash)

def toReflector (c : Client) (ch : UInt32) (env : Envelope) : BusOp :=
  .publish { env with src := c.id, dst := c.reflectorFor ch }

def sendCommit (c : Client) (ch : UInt32) (base : UInt64) (msg : Bytes) : BusOp :=
  c.toReflector ch { vni := ch, type := .commit, src := 0, dst := 0, base,
                     payload := msg, hash := H.sum msg }

def sendWelcome (c : Client) (ch : UInt32) (welcome joiner : Bytes) : BusOp :=
  c.toReflector ch { vni := ch, type := .welcome, src := 0, dst := 0, joiner,
                     payload := welcome, hash := H.sum welcome }

def headUnconfirmed (st : VniState) : Bool := st.hasHead && !st.confirmed.contains st.headBase

def resendUnacked (c : Client) (ch : UInt32) (st : VniState) : List BusOp :=
  if !st.joined || !st.isCommitter then []
  else
    let head := if headUnconfirmed st then
        match st.outbox.get st.headBase with
        | some msg => [c.sendCommit H ch st.headBase msg]
        | none => []
      else []
    let joiners := (st.pendingWelcome.map Prod.fst).dedup.insertionSort (· ≤ ·)
    head ++ joiners.filterMap fun joiner =>
      (st.pendingWelcome.get joiner).map fun welcome => c.sendWelcome H ch welcome joiner

def heartbeat (c : Client) (ch : UInt32) (st : VniState) : List BusOp :=
  if !st.joined then []
  else
    .publish { vni := ch, type := .heartbeat, src := c.id, dst := broadcast,
               base := st.epoch } :: c.resendUnacked H ch st

def emitHeartbeat (c : Client) (ch : UInt32) : List BusOp :=
  match c.vnis.get ch with
  | none => []
  | some st => c.heartbeat H ch st

/-! ## Committing -/

variable (S : Suite) (registry : UInt16 → Option Suite)

def canCommit (st : VniState) : Bool :=
  st.joined && st.isCommitter && st.pendingWelcome.isEmpty && !headUnconfirmed st

def recordHead (st : VniState) (base : UInt64) (msg : Bytes) : VniState :=
  { st with outbox := st.outbox.set base msg, hasHead := true, headBase := base }

/-- The end of `reconcile`, when the commit adds members. -/
def welcomeAdded (c : Client) (ch : UInt32) (st : VniState) (welcome : Bytes)
    (added : List Bytes) : VniState × List BusOp :=
  let st := st.seedPeers c.id st.epoch added
  ({ st with pendingWelcome := added.foldl (·.set · welcome) st.pendingWelcome },
    added.map (c.sendWelcome H ch welcome))

def reconcile (c : Client) (ch : UInt32) (desired : List Bytes)
    (rnd : CommitRandomness) : Result (Client × List BusOp) :=
  match c.vnis.get ch with
  | none => .ok (c, [])
  | some st =>
      if !canCommit st then .ok (c, [])
      else
        let out := st.ctrl.reconcile S registry desired rnd
        let st := { st with ctrl := out.controller }
        match out.err with
        | some (.err _) => .ok (c.put ch st, [])
        | some fault => .error fault
        | none =>
            if !out.result.committed then .ok (c.put ch st, [])
            else do
              let st ← c.cacheCurrentSA st
              let st := st.pruneDepartedPeers
              let base := st.epoch - 1
              let st := recordHead st base out.result.commitMsg
              let sent := c.sendCommit H ch base out.result.commitMsg
              let welcome := out.result.welcomeMsg.getD []
              if welcome.isEmpty || out.result.added.isEmpty then
                return (c.put ch st, [sent])
              else
                let (st, welcomes) := c.welcomeAdded H ch st welcome out.result.added
                return (c.put ch st, sent :: welcomes)

def rekey (c : Client) (ch : UInt32) (rnd : CommitRandomness) :
    Result (Client × List BusOp) :=
  match c.vnis.get ch with
  | none => .ok (c, [])
  | some st =>
      if !canCommit st then .ok (c, [])
      else
        let base := st.epoch
        let out := st.ctrl.rekey S registry rnd
        let st := { st with ctrl := out.controller }
        match out.err with
        | some (.err _) => .ok (c.put ch st, [])
        | some fault => .error fault
        | none =>
            if !out.won then .ok (c.put ch st, [])
            else do
              let st ← c.cacheCurrentSA st
              let st := recordHead st base out.commitMsg
              return (c.put ch st, [c.sendCommit H ch base out.commitMsg])

/-! ## Receiving -/

def leaveVNI (c : Client) (ch : UInt32) : Client × List BusOp :=
  ({ c with vnis := deleteKey c.vnis ch }, [.unsubscribe ch])

/-- What a commit does to the state of its reader. -/
inductive Followed where
  | applied (st : VniState)
  | ignored (st : VniState)
  | removed

/-- `HandleCommit` and what the two callers do after it. -/
def followCommit (c : Client) (st : VniState) (commitMsg : Bytes) : Result Followed :=
  let before := st.leafIdentitySet
  match st.ctrl.handleCommit S registry commitMsg with
  | (.ok _, ctrl) => do
      let st ← c.cacheCurrentSA { st with ctrl }
      return .applied (st.initPeerEpochForNewMembers c.id before).pruneDepartedPeers
  | (.error (.err error), ctrl) =>
      if error = errSelfRemoved then .ok .removed
      else .ok (.ignored { st with ctrl })
  | (.error fault, _) => .error fault

def confirm (c : Client) (st : VniState) (env : Envelope) : VniState :=
  if env.src = c.reflectorFor env.vni ∧
      (st.outbox.get env.base).map H.sum = some env.hash then
    { st with confirmed := env.base :: st.confirmed }
  else st

def onCommit (c : Client) (env : Envelope) : Result (Client × List BusOp) :=
  match c.vnis.get env.vni with
  | none => .ok (c, [])
  | some st =>
      if !st.joined then .ok (c, [])
      else
        let st := c.confirm H st env
        if st.epoch ≠ env.base then .ok (c.put env.vni st, [])
        else do
          match ← c.followCommit S registry st env.payload with
          | .applied st => return (c.put env.vni st, [])
          | .ignored st => return (c.put env.vni st, [])
          | .removed => return c.leaveVNI env.vni

/-- The loop of `onLogReply`; `none` when a record removed the client. -/
def followRecords (c : Client) (st : VniState) :
    List CommitRecord → Result (Option VniState)
  | [] => .ok (some st)
  | r :: rest =>
      if st.epoch ≠ r.base then c.followRecords st rest
      else do
        match ← c.followCommit S registry st r.bytes with
        | .applied st => c.followRecords st rest
        | .ignored st => c.followRecords st rest
        | .removed => return none

def onLogReply (c : Client) (env : Envelope) : Result (Client × List BusOp) :=
  match c.vnis.get env.vni with
  | none => .ok (c, [])
  | some st =>
      if !st.joined then .ok (c, [])
      else do
        let records := env.records.insertionSort fun r s => r.base ≤ s.base
        match ← c.followRecords S registry st records with
        | some st => return (c.put env.vni st, [])
        | none => return c.leaveVNI env.vni

def onWelcome (dir : KpDirectory) (c : Client) (env : Envelope) :
    Result (Client × List BusOp) :=
  match c.vnis.get env.vni with
  | none => .ok (c, [])
  | some st =>
      if st.joined then .ok (c, [])
      else
        let kp := (dir.get (c.identity, env.vni)).getD ⟨[], [], []⟩
        match st.ctrl.joinViaWelcome S registry (some c.signer) env.payload kp.kpMsg
          kp.initPriv kp.leafPriv with
        | (.error (.err _), ctrl) => .ok (c.put env.vni { st with ctrl }, [])
        | (.error fault, _) => .error fault
        | (.ok _, ctrl) => do
            let st := { st with ctrl, joined := true, joinEpoch := ctrl.epoch }
            let st ← c.cacheCurrentSA st
            let beat := c.heartbeat H env.vni st
            let init := if 0 < st.epoch then st.epoch - 1 else st.epoch
            let st := st.seedPeers c.id init st.leafIdentities
            return (c.put env.vni st, beat)

def notePeer (st : VniState) (src : ActorID) (base : UInt64) : VniState :=
  let known := (st.peerEpoch.get src).getD 0
  let st := { st with heard := src :: st.heard }
  let st := if known < base ∨ known = 0 then
      { st with peerEpoch := st.peerEpoch.set src base } else st
  match identityFromActorID src with
  | some identity => { st with pendingWelcome := deleteKey st.pendingWelcome identity }
  | none => st

def requestCatchup (c : Client) (ch : UInt32) (base : UInt64) : BusOp :=
  c.toReflector ch { vni := ch, type := .logRequest, src := 0, dst := 0, base }

def onHeartbeat (c : Client) (env : Envelope) : Client × List BusOp :=
  match c.vnis.get env.vni with
  | none => (c, [])
  | some st =>
      if !st.joined then (c, [])
      else
        let st := notePeer st env.src env.base
        (c.put env.vni st, if st.epoch < env.base then [c.requestCatchup env.vni st.epoch] else [])

/-! ## The data plane -/

structure LossEvent where
  vni : UInt32
  sentEpoch : UInt64
  recvEpoch : UInt64
  deriving DecidableEq, Repr

/-- `onData`: the client, and the loss that is reported. -/
def onData (c : Client) (env : Envelope) : Client × Option LossEvent :=
  match c.vnis.get env.vni with
  | none => (c, none)
  | some st =>
      if !st.joined || decide (env.base < st.joinEpoch) then (c, none)
      else
        let held := (st.saCache.map Prod.fst).any fun e =>
          st.joinEpoch ≤ e && ((st.inSPIs.get e).getD []).contains env.spi
        if !held then (c, some ⟨env.vni, env.base, st.epoch⟩)
        else
          let win := (st.replay.get env.spi).getD newReplayWin
          let st := { st with replay := st.replay.set env.spi (win.accept env.dataSeq).2 }
          (c.put env.vni st, none)

structure DataCand where
  ch : UInt32
  se : UInt64
  spi : UInt32
  ok : Bool
  members : List ActorID
  heard : List ActorID

def dataCand (c : Client) (ch : UInt32) : Option DataCand :=
  match c.vnis.get ch with
  | none => none
  | some st =>
      if !st.joined then none
      else
        let se := c.sendEpoch st
        let sa := st.saCache.get se
        some ⟨ch, se, c.sendSPI sa.join, sa.isSome, st.replicaMembers, st.heard⟩

/-- The replica for a receiver: one where it was heard, or else any it is in. -/
def pickCand (cands : List DataCand) (rcv : ActorID) : Option DataCand :=
  let usable := cands.filter fun cd => cd.ok && cd.members.contains rcv
  (usable.find? fun cd => cd.heard.contains rcv) <|> usable.head?

def sendToReceiver (cands : List DataCand) (acc : Client × List BusOp)
    (rcv : ActorID) : Client × List BusOp :=
  let (c, ops) := acc
  match pickCand cands rcv with
  | none => (c, ops)
  | some cd =>
      match c.vnis.get cd.ch with
      | none => (c, ops)
      | some st =>
          let seq := (st.sendSeq.get cd.se).getD 0
          let st := { st with sendSeq := st.sendSeq.set cd.se (seq + 1) }
          let packet : Envelope :=
            { vni := cd.ch, type := .data, src := c.id, dst := rcv, base := cd.se,
              spi := cd.spi, dataSeq := seq }
          (c.put cd.ch st, ops ++ [.publish packet])

def sendData (c : Client) (tenant : UInt32) : Client × List BusOp :=
  let cands := ((List.range numDS.toNat).map (saVNI tenant)).filterMap c.dataCand
  let recv := (cands.flatMap (·.members)).dedup.insertionSort (· ≤ ·)
  (recv.filter (· ≠ c.id)).foldl (sendToReceiver cands) (c, [])

/-! ## Dispatch -/

structure Delivery where
  client : Client
  ops : List BusOp
  loss : Option LossEvent

def onDeliver (dir : KpDirectory) (c : Client) (env : Envelope) : Result Delivery :=
  match env.type with
  | .commit => do
      let (c, ops) ← c.onCommit H S registry env
      return ⟨c, ops, none⟩
  | .welcome =>
      if env.joiner = c.identity then do
        let (c, ops) ← c.onWelcome H S registry dir env
        return ⟨c, ops, none⟩
      else .ok ⟨c, [], none⟩
  | .heartbeat =>
      let (c, ops) := c.onHeartbeat env
      .ok ⟨c, ops, none⟩
  | .logReply => do
      let (c, ops) ← c.onLogReply S registry env
      return ⟨c, ops, none⟩
  | .data =>
      let (c, loss) := c.onData env
      .ok ⟨c, [], loss⟩
  | .logRequest => .ok ⟨c, [], none⟩

end Client

end Sim

end MlsGo
