import MlsGo.GroupJoining
import MlsGo.SecurityAssociations
import MlsGo.SenderSlots

/-!
# The membership controller of a VNI

Files `controller.go` and `members.go`: a controller holds a group and the
associations of its current and previous epoch.  `Rekey` and `Reconcile` commit
first and ask the ordering service afterwards.

The ordering service, the credential validator and the key package resolver are
ports.  A call asks the ordering service at most once, so the port is the
answers it would give at that time.  Where the source returns values next to an
error, so does the model.
-/

namespace MlsGo

variable (S : Suite) (registry : UInt16 → Option Suite) {g : Group} {rnd : CommitRandomness}
    {desired : List Bytes}

/-! ## Ports and state -/

/-- `AcceptCommit` of the interface `Ordering`: group, epoch and reference. -/
abbrev AcceptCommit := Bytes → UInt64 → Bytes → Except Err Bool

structure ControllerConfig where
  vni : UInt32
  suite : Suite
  ordering : AcceptCommit
  validator : Option (Credential → Bytes → Except Err Bytes)
  resolve : Option (Bytes → Option Bytes)
  /-- `HandshakePrivacy` is `HandshakePlaintext`. -/
  handshakePlaintext : Bool

structure Controller where
  cfg : ControllerConfig
  g : Option Group
  groupID : Bytes
  curSA : Option SA
  prevSA : Option SA
  hasPrev : Bool

def vniGroupID (vni : UInt32) : Bytes := ascii "ICVNI1" ++ beBytes 4 vni.toNat

def errNoGroup : Err := .text "ironcore: controller has no group state"

def errSelfRemoved : Err := .text "ironcore: controller self-removed from group"

def errLostRace : Err := .text "ironcore: commit lost the linearization race; AutoRecover"

namespace Controller

def epoch (c : Controller) : UInt64 :=
  match c.g with
  | none => 0
  | some g => g.groupContext.epoch

def currentSA (c : Controller) : Except Err (Option SA) :=
  match c.g with
  | none => .error errNoGroup
  | some _ => .ok c.curSA

def previousSA (c : Controller) : Option SA × Bool := (c.prevSA, c.hasPrev)

def deriveCur (c : Controller) (g : Group) : Result Unit × Controller :=
  match deriveSAKeys S registry g c.cfg.vni with
  | .error fault => (.error fault, c)
  | .ok sa => (.ok (), { c with curSA := some sa })

def rotateSA (c : Controller) (g : Group) : Result Unit × Controller :=
  deriveCur S registry { c with prevSA := c.curSA, hasPrev := true } g

end Controller

def newController (cfg : ControllerConfig) (g : Option Group) :
    Result Controller :=
  let c : Controller := ⟨cfg, none, vniGroupID cfg.vni, none, none, false⟩
  match g with
  | none => .ok c
  | some g =>
      let g := { g with encryptHandshakes := !cfg.handshakePlaintext }
      match { c with g := some g }.deriveCur S registry g with
      | (.error fault, _) =>
          within "ironcore: NewController: deriveCur" (.error fault)
      | (.ok _, c) => .ok c

/-- `JoinViaWelcome`: what it returns, and the controller it leaves.  `signer` is
the field of the configuration. -/
def Controller.joinViaWelcome (c : Controller) (signer : Option Signer)
    (welcomeMsg kpMsg initPriv leafPriv : Bytes) : Result Unit × Controller :=
  match joinFromWelcome S welcomeMsg ⟨kpMsg, initPriv, leafPriv, signer, [], []⟩ with
  | .error fault => (within "ironcore: JoinViaWelcome" (.error fault), c)
  | .ok g =>
      let g := { g with encryptHandshakes := !c.cfg.handshakePlaintext }
      match { c with g := some g }.deriveCur S registry g with
      | (.error fault, c) => (within "ironcore: JoinViaWelcome: deriveCur" (.error fault), c)
      | (.ok _, c) => (.ok (), c)

/-! ## Members -/

def Group.activeLeaves (g : Group) : List ℕ :=
  (List.range g.tree.leafCount).filter fun i => (g.tree.leafNodeAt i).isOk

def Group.leafCredential (g : Group) (leaf : ℕ) :
    Result (Credential × Bytes) := do
  let ln ← g.tree.leafNodeAt leaf
  return (ln.credential, ln.signatureKey)

def Group.isCommitter (g : Group) : Bool :=
  match g.activeLeaves with
  | [] => false
  | leaf :: _ => g.ownLeaf = leaf

/-- The loop of `identityToLeaf`: a leaf whose credential is not valid is
skipped, and of two leaves with one identity the later one stays. -/
def Group.identityToLeaf (g : Group)
    (validate : Credential → Bytes → Except Err Bytes) :
    List ℕ → GoMap Bytes ℕ → Result (GoMap Bytes ℕ)
  | [], m => .ok m
  | leaf :: rest, m => do
      let (cred, sigPub) ← within s!"LeafCredential({leaf})" (g.leafCredential leaf)
      match validate cred sigPub with
      | .error _ => g.identityToLeaf validate rest m
      | .ok identity => g.identityToLeaf validate rest (m.set identity leaf)

/-! ## Committing -/

/-- What `commitAndOrder` returns, and the controller it leaves. -/
structure CommitAttempt where
  controller : Controller
  commitMsg : Bytes
  welcomeMsg : Option Bytes
  won : Bool
  err : Option Fault

/-- `Commit` moves the group in place, before the ordering service is asked. -/
def Controller.commitAndOrder (c : Controller) (g : Group)
    (byValue : List Proposal) (rnd : CommitRandomness) : CommitAttempt :=
  match g.commit S ⟨byValue, []⟩ rnd with
  | .error fault =>
      ⟨{ c with g := some (g.after S (.commit ⟨byValue, []⟩ rnd)) }, [], none, false, some fault⟩
  | .ok res =>
      let c := { c with g := some res.group }
      let ref := c.cfg.suite.hash res.commit
      match c.cfg.ordering c.groupID g.groupContext.epoch ref with
      | .error error => ⟨c, res.commit, res.welcome, false, some (.err error)⟩
      | .ok false => ⟨c, res.commit, res.welcome, false, none⟩
      | .ok true =>
          match c.rotateSA S registry res.group with
          | (.error fault, c) => ⟨c, res.commit, res.welcome, true, some fault⟩
          | (.ok _, c) => ⟨c, res.commit, res.welcome, true, none⟩

/-! ## Handling commits -/

/-- A private message, or a public one that names a member as its sender. -/
def MLSMessage.hasMemberSender (m : MLSMessage) : Bool :=
  match m.body with
  | .publicMessage pm => pm.content.sender.isMember
  | .privateMessage _ => true

/-- `PeekCommit`: the body of a member commit, authenticated and not applied. -/
def Group.peekCommit (g : Group) (commitMsg : Bytes) : Result Commit := do
  let m ← unmarshalMLSMessage commitMsg
  check m.hasMemberSender "group: PeekCommit: not a member commit"
  let ac ← g.authenticateCommit S m
  check (ac.content.contentType = contentTypeCommit) "group: PeekCommit: not a commit"
  unmarshalCommit ac.content.content

/-- A by-value Remove of the commit names the own leaf.  An error of
`PeekCommit` counts as no. -/
def Group.commitRemovesSelf (g : Group) (commitMsg : Bytes) : Result Bool :=
  match g.peekCommit S commitMsg with
  | .ok cm => .ok ((removedLeaves cm.proposals).any fun removed => removed.toNat = g.ownLeaf)
  | .error (.err _) => .ok false
  | .error fault => .error fault

/-- `HandleCommit`: what it returns, and the controller it leaves. -/
def Controller.handleCommit (c : Controller) (commitMsg : Bytes) :
    Result Unit × Controller :=
  match c.g with
  | none => (.error (.err errNoGroup), c)
  | some g =>
      match g.commitRemovesSelf S commitMsg with
      | .error fault => (.error fault, c)
      | .ok true => (.error (.err errSelfRemoved), c)
      | .ok false =>
          match g.processCommit S [] commitMsg with
          | .error fault => (within "ironcore: HandleCommit: ProcessCommit" (.error fault), c)
          | .ok g => { c with g := some g }.rotateSA S registry g

structure RekeyOutcome where
  controller : Controller
  commitMsg : Bytes
  won : Bool
  err : Option Fault

def Controller.rekey (c : Controller) (rnd : CommitRandomness) : RekeyOutcome :=
  match c.g with
  | none => ⟨c, [], false, some (.err errNoGroup)⟩
  | some g =>
      if g.isCommitter then
        let a := c.commitAndOrder S registry g [] rnd
        ⟨a.controller, a.commitMsg, a.won, a.err⟩
      else ⟨c, [], false, none⟩

/-! ## Reconciling -/

structure ReconcileResult where
  committed : Bool
  won : Bool
  added : List Bytes
  removed : List ℕ
  pending : List Bytes
  commitMsg : Bytes
  welcomeMsg : Option Bytes

def ReconcileResult.zero : ReconcileResult := ⟨false, false, [], [], [], [], none⟩

structure ReconcilePlan where
  proposals : List Proposal
  added : List Bytes
  removed : List ℕ
  pending : List Bytes

def resolveAdds (resolve : Option (Bytes → Option Bytes)) :
    List Bytes → Result (List Proposal × List Bytes × List Bytes)
  | [] => .ok ([], [], [])
  | id :: rest =>
      match resolve >>= fun resolve => resolve id with
      | none => do
          let (proposals, added, pending) ← resolveAdds resolve rest
          return (proposals, added, id :: pending)
      | some kpMsg => do
          -- The source quotes the identity.
          let kp ← within s!"ironcore: Reconcile: decode KP for {hexBytes id}"
            (decodeKeyPackageMessage kpMsg)
          let (proposals, added, pending) ← resolveAdds resolve rest
          return (.add kp :: proposals, id :: added, pending)

def noCommitter : ℕ := 2 ^ 32 - 1

def committerElect (leaves removeSet : List ℕ) : ℕ :=
  let committer := leaves.headD 0
  if removeSet.contains committer then
    (leaves.find? fun l => !removeSet.contains l).getD noCommitter
  else committer

def Controller.planReconcile (c : Controller) (g : Group)
    (desired : List Bytes) : Result (Option ReconcilePlan) :=
  match c.cfg.validator with
  | none => fail "ironcore: Reconcile: no CredentialValidator in config"
  | some validate => do
      let idToLeaf ← within "ironcore: Reconcile: identityToLeaf"
        (g.identityToLeaf validate g.activeLeaves [])
      let ids := (idToLeaf.map Prod.fst).dedup
      let removeSet := (ids.filter fun id => !desired.contains id).filterMap idToLeaf.get
      let addIdents := desired.filter fun id => (idToLeaf.get id).isNone
      if g.ownLeaf ≠ committerElect g.activeLeaves removeSet then return none
      else
        let removed := (removeSet.filter (· ≠ g.ownLeaf)).insertionSort (· ≤ ·)
        let (adds, added, pending) ← resolveAdds c.cfg.resolve addIdents
        return some ⟨removed.map (fun leaf => .remove (UInt32.ofNat leaf)) ++ adds,
          added, removed, pending⟩

structure ReconcileOutcome where
  controller : Controller
  result : ReconcileResult
  err : Option Fault

def withinFault (message : String) : Fault → Fault
  | .err error => .err (.wrap message error)
  | fault => fault

def Controller.reconcile (c : Controller) (desired : List Bytes)
    (rnd : CommitRandomness) : ReconcileOutcome :=
  match c.g with
  | none => ⟨c, .zero, some (.err errNoGroup)⟩
  | some g =>
      match c.planReconcile g desired with
      | .error fault => ⟨c, .zero, some fault⟩
      | .ok none => ⟨c, .zero, none⟩
      | .ok (some plan) =>
          if plan.proposals.isEmpty then
            ⟨c, { ReconcileResult.zero with pending := plan.pending }, none⟩
          else
            let a := c.commitAndOrder S registry g plan.proposals rnd
            match a.err with
            | some fault => ⟨a.controller, .zero, some
                (withinFault "ironcore: Reconcile: commitAndOrder" fault)⟩
            | none =>
                ⟨a.controller, ⟨true, a.won, plan.added, plan.removed, plan.pending,
                  a.commitMsg, a.welcomeMsg⟩,
                  if a.won then none else some (.err errLostRace)⟩

variable {S registry} {c : Controller} {c' : Controller}

theorem Controller.rotateSA_g (c : Controller) (g : Group) :
    (c.rotateSA S registry g).2.g = c.g := by
  rw [rotateSA, deriveCur]
  split <;> rfl

theorem Controller.rotateSA_eq_ok (hrotate : c.rotateSA S registry g = (.ok (), c')) :
    ∃ sa, deriveSAKeys S registry g c.cfg.vni = .ok sa ∧
      c' = { c with prevSA := c.curSA, hasPrev := true, curSA := some sa } := by
  simp only [rotateSA, deriveCur] at hrotate
  split at hrotate
  · cases hrotate
  next sa hderive =>
    cases hrotate
    exact ⟨sa, hderive, rfl⟩

theorem Controller.commitAndOrder_won {byValue : List Proposal}
    (hwon : (c.commitAndOrder S registry g byValue rnd).won = true)
    (herr : (c.commitAndOrder S registry g byValue rnd).err = none) :
    ∃ res sa, g.commit S ⟨byValue, []⟩ rnd = .ok res ∧
      deriveSAKeys S registry res.group c.cfg.vni = .ok sa ∧
      (c.commitAndOrder S registry g byValue rnd).controller =
        { c with g := some res.group, prevSA := c.curSA, hasPrev := true, curSA := some sa } := by
  cases hcommit : g.commit S ⟨byValue, []⟩ rnd with
  | error fault => simp [commitAndOrder, hcommit] at hwon
  | ok res =>
      rcases haccepted : c.cfg.ordering c.groupID g.groupContext.epoch
        (c.cfg.suite.hash res.commit) with error | (_ | _)
      · simp [commitAndOrder, hcommit, haccepted] at hwon
      · simp [commitAndOrder, hcommit, haccepted] at hwon
      · cases hderive : deriveSAKeys S registry res.group c.cfg.vni with
        | error fault =>
            simp [commitAndOrder, hcommit, haccepted, rotateSA, deriveCur, hderive] at herr
        | ok sa =>
            refine ⟨res, sa, rfl, hderive, ?_⟩
            simp only [commitAndOrder, hcommit, haccepted, rotateSA, deriveCur, hderive]

theorem Controller.epoch_of_g (hg : c.g = some g) : c.epoch = g.groupContext.epoch := by
  rw [epoch, hg]

theorem Controller.commitAndOrder_epoch (hg : c.g = some g)
    (byValue : List Proposal) (rnd : CommitRandomness) :
    let c' := (c.commitAndOrder S registry g byValue rnd).controller
    c'.epoch = c.epoch ∨ c'.epoch = c.epoch + 1 := by
  rw [epoch_of_g hg]
  cases hcommit : g.commit S ⟨byValue, []⟩ rnd with
  | error fault =>
      left
      simp only [commitAndOrder, hcommit, epoch, Group.after, Group.spent]
      split <;> rfl
  | ok res =>
      right
      have hnext := (EpochStep.commit _ rnd hcommit).epoch_eq
      rw [← hnext]
      refine epoch_of_g ?_
      simp only [commitAndOrder, hcommit]
      split
      · rfl
      · rfl
      · -- The association does not touch the group, derived or not.
        have hkept : (rotateSA S registry { c with g := some res.group } res.group).2.g =
            some res.group := rotateSA_g _ _
        split <;> simp_all

theorem Controller.handleCommit_epoch (commitMsg : Bytes) :
    let c' := (c.handleCommit S registry commitMsg).2
    c'.epoch = c.epoch ∨ c'.epoch = c.epoch + 1 := by
  unfold handleCommit
  split
  · exact .inl rfl
  next g hg =>
    split
    · exact .inl rfl
    · exact .inl rfl
    · split
      · exact .inl rfl
      next g' hprocess =>
        right
        rw [epoch_of_g (rotateSA_g _ _), epoch_of_g hg]
        exact (EpochStep.processCommit _ _ hprocess).epoch_eq

theorem Controller.epoch_of_handled {commitMsg : Bytes}
    (hhandle : c.handleCommit S registry commitMsg = (.ok (), c')) :
    c'.epoch = c.epoch + 1 := by
  unfold handleCommit at hhandle
  split at hhandle
  · cases hhandle
  next g hg =>
    split at hhandle
    · cases hhandle
    · cases hhandle
    · split at hhandle
      next fault _ => cases fault <;> cases hhandle
      next g' hprocess =>
        have hg' : c'.g = some g' := by
          have hkept : (rotateSA S registry { c with g := some g' } g').2.g = some g' :=
            rotateSA_g _ _
          rwa [hhandle] at hkept
        rw [epoch_of_g hg', epoch_of_g hg]
        exact (EpochStep.processCommit _ _ hprocess).epoch_eq

theorem Controller.rekey_epoch (rnd : CommitRandomness) :
    let c' := (c.rekey S registry rnd).controller
    c'.epoch = c.epoch ∨ c'.epoch = c.epoch + 1 := by
  unfold rekey
  split
  · exact .inl rfl
  next g hg =>
    split
    · exact commitAndOrder_epoch hg [] rnd
    · exact .inl rfl

/-- What `Reconcile` reports of an attempt to commit its plan. -/
def ReconcilePlan.outcome (plan : ReconcilePlan) (a : CommitAttempt) : ReconcileOutcome :=
  match a.err with
  | some fault => ⟨a.controller, .zero, some
      (withinFault "ironcore: Reconcile: commitAndOrder" fault)⟩
  | none =>
      ⟨a.controller, ⟨true, a.won, plan.added, plan.removed, plan.pending, a.commitMsg,
        a.welcomeMsg⟩, if a.won then none else some (.err errLostRace)⟩

theorem ReconcilePlan.outcome_controller (plan : ReconcilePlan) (a : CommitAttempt) :
    (plan.outcome a).controller = a.controller := by
  unfold outcome
  split <;> rfl

/-- `Reconcile` commits the proposals of its plan if it has any, and otherwise does
nothing. -/
theorem Controller.reconcile_cases (S : Suite) (registry : UInt16 → Option Suite)
    (c : Controller) (desired : List Bytes) (rnd : CommitRandomness) :
    (∃ g plan, c.g = some g ∧ c.planReconcile g desired = .ok (some plan) ∧
      plan.proposals ≠ [] ∧ c.reconcile S registry desired rnd =
        plan.outcome (c.commitAndOrder S registry g plan.proposals rnd)) ∨
    (∀ g plan, c.g = some g → c.planReconcile g desired = .ok (some plan) → plan.proposals = []) ∧
      (c.reconcile S registry desired rnd).controller = c ∧
      (c.reconcile S registry desired rnd).result.committed = false ∧
      (c.reconcile S registry desired rnd).result.won = false := by
  unfold reconcile
  split
  next hg => exact .inr ⟨fun _ _ hg' => by simp [hg] at hg', rfl, rfl, rfl⟩
  next g hg =>
    have hidle : (∀ plan, c.planReconcile g desired = .ok (some plan) → plan.proposals = []) →
        ∀ g plan, c.g = some g → c.planReconcile g desired = .ok (some plan) →
          plan.proposals = [] := by
      rintro hidle g' plan hg'
      cases hg.symm.trans hg'
      exact hidle plan
    split
    next hplan => exact .inr ⟨hidle (by simp [hplan]), rfl, rfl, rfl⟩
    next hplan => exact .inr ⟨hidle (by simp [hplan]), rfl, rfl, rfl⟩
    next plan hplan =>
      split
      next hnil => exact .inr ⟨hidle (by simpa [hplan] using hnil), rfl, rfl, rfl⟩
      next hsome => exact .inl ⟨g, plan, hg, hplan, fun hnil => hsome (by rw [hnil]; rfl), rfl⟩

theorem Controller.reconcile_epoch (desired : List Bytes) (rnd : CommitRandomness) :
    let c' := (c.reconcile S registry desired rnd).controller
    c'.epoch = c.epoch ∨ c'.epoch = c.epoch + 1 := by
  rcases reconcile_cases S registry c desired rnd with ⟨g, plan, hg, -, -, heq⟩ | ⟨-, heq, -⟩
  · simp only [heq, plan.outcome_controller]
    exact commitAndOrder_epoch hg plan.proposals rnd
  · exact .inl (congrArg epoch heq)

theorem Controller.reconcile_won (hwon : (c.reconcile S registry desired rnd).result.won = true) :
    ∃ g plan, c.g = some g ∧ c.planReconcile g desired = .ok (some plan) ∧
      plan.proposals ≠ [] ∧
      (c.commitAndOrder S registry g plan.proposals rnd).won = true ∧
      (c.commitAndOrder S registry g plan.proposals rnd).err = none ∧
      (c.reconcile S registry desired rnd).controller =
        (c.commitAndOrder S registry g plan.proposals rnd).controller := by
  rcases reconcile_cases S registry c desired rnd with
    ⟨g, plan, hg, hplan, hsome, heq⟩ | ⟨-, -, -, hlost⟩
  · refine ⟨g, plan, hg, hplan, hsome, ?_⟩
    rw [heq] at hwon ⊢
    rw [plan.outcome_controller]
    unfold ReconcilePlan.outcome at hwon
    split at hwon
    · cases hwon
    next herr => exact ⟨hwon, herr, rfl⟩
  · rw [hlost] at hwon
    cases hwon

theorem Controller.epoch_of_committed (herr : (c.reconcile S registry desired rnd).err = none)
    (hcommitted : (c.reconcile S registry desired rnd).result.committed = true) :
    (c.reconcile S registry desired rnd).controller.epoch = c.epoch + 1 := by
  have hwon : (c.reconcile S registry desired rnd).result.won = true := by
    rcases reconcile_cases S registry c desired rnd with ⟨g, plan, -, -, -, heq⟩ | ⟨-, -, hno, -⟩
    · rw [heq] at herr hcommitted ⊢
      unfold ReconcilePlan.outcome at herr hcommitted ⊢
      split at herr
      · cases herr
      · by_contra hlost
        simp [hlost] at herr
    · rw [hno] at hcommitted
      cases hcommitted
  obtain ⟨g, plan, hg, -, -, hwon, herr, hcontroller⟩ := reconcile_won hwon
  obtain ⟨res, sa, hcommit, -, hnext⟩ := commitAndOrder_won hwon herr
  rw [hcontroller, hnext, epoch_of_g hg]
  exact (EpochStep.commit _ rnd hcommit).epoch_eq

end MlsGo
