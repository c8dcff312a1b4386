import MlsGo.CommitConsensus
import MlsGo.ForkRecovery
import MlsGo.SenderAssociations

/-!
# Controllers that take up one commit

`controller.go`: a controller comes into the next epoch with a commit of its own that has won,
with one that it handles, by joining with an external commit, or by recovering onto another
branch with one.  Whoever takes up the same commit, in whichever of these ways, has the same
group state and the same keys for the data plane afterwards, and each of them has installed
what the others send with.
-/

namespace MlsGo

variable (S : Suite) (registry : UInt16 → Option Suite) {sa : SA} {vni : UInt32}

/-! ## Entering by an external commit -/

def errJoinSuperseded : Err := .text "ironcore: external-commit join superseded; refetch GroupInfo"

namespace Controller

/-- `JoinViaExternalCommit`: what it returns, and the controller it leaves.  `cred`,
`signer` and `lifetime` are fields of the configuration, and so is `S`. -/
def joinViaExternalCommit (c : Controller) (gi : Option GroupInfo) (cred : Credential)
    (signer : Option Signer) (lifetime : Lifetime) (rnd : ExternalRandomness) :
    Result Bytes × Controller :=
  match gi with
  | none => (fail "ironcore: JoinViaExternalCommit: GroupInfo is nil", c)
  | some gi =>
      match externalCommit S gi cred signer lifetime rnd with
      | .error fault =>
          (within "ironcore: JoinViaExternalCommit: ExternalCommit" (.error fault), c)
      | .ok (newGroup, commitMsg) =>
          let ref := c.cfg.suite.hash commitMsg
          match c.cfg.ordering c.groupID gi.groupContext.epoch ref with
          | .error error => (within "ironcore: JoinViaExternalCommit: AcceptCommit"
              (.error (.err error)), c)
          | .ok false => (.error (.err errJoinSuperseded), c)
          | .ok true =>
              let g := { newGroup with encryptHandshakes := !c.cfg.handshakePlaintext }
              match { c with g := some g }.deriveCur S registry g with
              | (.error fault, c) =>
                  (within "ironcore: JoinViaExternalCommit: deriveCur" (.error fault), c)
              | (.ok _, c) => (.ok commitMsg, c)

/-- What `AutoRecover` returns. -/
structure RecoverOutcome where
  controller : Controller
  commitMsg : Bytes
  err : Option Fault

def autoRecover (c : Controller) (candidates : List (Option Bytes))
    (fetchGI : Bytes → Except Err (Option GroupInfo)) (cred : Credential)
    (signer : Option Signer) (lifetime : Lifetime) (rnd : ExternalRandomness) :
    RecoverOutcome :=
  match c.g with
  | none => ⟨c, [], some (.err errNoGroup)⟩
  | some g =>
      match recoverViaExternalCommit S ⟨c.cfg.vni, g⟩ candidates fetchGI c.cfg.ordering
        cred signer lifetime rnd with
      | (.error fault, _) => ⟨c, [], some fault⟩
      | (.ok commitMsg, v) =>
          let g := { v.g with encryptHandshakes := !c.cfg.handshakePlaintext }
          match { c with g := some g }.rotateSA S registry g with
          | (.error fault, c) => ⟨c, commitMsg, some
              (withinFault "ironcore: AutoRecover: rotateSA" fault)⟩
          | (.ok _, c) => ⟨c, commitMsg, none⟩

/-- `InboundSAs`. -/
def inboundSAs (c : Controller) : Result (List InboundSA) :=
  match c.g with
  | none => fail "ironcore: no group"
  | some g =>
      match c.curSA with
      -- The zero value has no key, so the first leaf fails and no leaf gives nothing.
      | none => match g.activeLeaves with
          | [] => .ok []
          | _ :: _ => fail "ironcore: SA key not initialized (use DeriveSAKeys)"
      | some sa => sa.inboundSAs g.activeLeaves

end Controller

/-! ## Taking up a commit -/

/-- The ways in which a controller takes up a commit that was made in the epoch of `p`.
Whoever enters reads group information that `p` has published. -/
inductive Controller.TakesUp (c : Controller) (p : Group) (commitMsg : Bytes) :
    Controller → Prop where
  | commits (byValue : List Proposal) (rnd : CommitRandomness) (hg : c.g = some p)
      (hwon : (c.commitAndOrder S registry p byValue rnd).won = true)
      (herr : (c.commitAndOrder S registry p byValue rnd).err = none)
      (hmsg : (c.commitAndOrder S registry p byValue rnd).commitMsg = commitMsg) :
      TakesUp c p commitMsg (c.commitAndOrder S registry p byValue rnd).controller
  | handles {c' : Controller} (hg : c.g = some p)
      (hrun : c.handleCommit S registry commitMsg = (.ok (), c')) : TakesUp c p commitMsg c'
  | joins {c' : Controller} (gi : GroupInfo) (cred : Credential) (signer : Option Signer)
      (lifetime : Lifetime) (rnd : ExternalRandomness)
      (hpublish : p.publishGroupInfo S = .ok gi)
      (hrun : c.joinViaExternalCommit S registry (some gi) cred signer lifetime rnd =
        (.ok commitMsg, c')) : TakesUp c p commitMsg c'
  | recovers {c' : Controller} (candidates : List (Option Bytes))
      (fetchGI : Bytes → Except Err (Option GroupInfo)) (cred : Credential)
      (signer : Option Signer) (lifetime : Lifetime) (rnd : ExternalRandomness)
      (hpublish : ∀ ref gi, canonicalCommit S candidates = some ref →
        fetchGI ref = .ok (some gi) → p.publishGroupInfo S = .ok gi)
      (hrun : c.autoRecover S registry candidates fetchGI cred signer lifetime rnd =
        ⟨c', commitMsg, none⟩) : TakesUp c p commitMsg c'

variable {S registry} {c c' d d' : Controller} {p q g g' : Group} {commitMsg : Bytes}

/-- A recovery that goes through has entered with the group information of the canonical
commit. -/
theorem recoverViaExternalCommit_eq_ok {v v' : VniGroup} {candidates : List (Option Bytes)}
    {fetchGI : Bytes → Except Err (Option GroupInfo)} {ordering : AcceptCommit} {cred : Credential}
    {signer : Option Signer} {lifetime : Lifetime} {rnd : ExternalRandomness}
    (hrun : recoverViaExternalCommit S v candidates fetchGI ordering cred signer lifetime rnd =
    (.ok commitMsg, v')) :
    ∃ ref gi, canonicalCommit S candidates = some ref ∧ fetchGI ref = .ok (some gi) ∧
      externalCommit S gi cred signer lifetime rnd = .ok (v'.g, commitMsg) := by
  simp only [recoverViaExternalCommit] at hrun
  split at hrun
  next newGroup commitMsg' hattempt =>
    cases hrun
    cases hcanonical : canonicalCommit S candidates with
    | none =>
        simp only [hcanonical, bind_eq_ok] at hattempt
        obtain ⟨_, hnone, -⟩ := hattempt
        exact absurd hnone fail_ne_ok
    | some ref =>
        simp only [hcanonical, pure_eq_ok, ok_bind, bind_eq_ok, within_eq_ok,
          liftErr_eq_ok] at hattempt
        obtain ⟨info, hfetch, hrest⟩ := hattempt
        cases info with
        | none =>
            simp only [bind_eq_ok] at hrest
            obtain ⟨_, hpanic, -⟩ := hrest
            cases hpanic
        | some gi =>
            simp only [bind_eq_ok, within_eq_ok, liftErr_eq_ok] at hrest
            obtain ⟨⟨newGroup', commitMsg'⟩, henter, ok, -, hadopt⟩ := hrest
            split at hadopt
            · cases hadopt
              exact ⟨ref, gi, rfl, hfetch, henter⟩
            · cases hadopt
  · cases hrun

namespace Controller

/-- The controller holds the group, with the association derived from it. -/
structure Holds (S : Suite) (registry : UInt16 → Option Suite) (vni : UInt32) (c : Controller)
    (g : Group) : Prop where
  group_eq : c.g = some g
  current : ∃ sa, deriveSAKeys S registry g vni = .ok sa ∧ c.curSA = some sa

theorem holds_of_deriveCur
    (hderive : { c with g := some g }.deriveCur S registry g = (.ok (), c')) :
    c'.Holds S registry c.cfg.vni g := by
  simp only [deriveCur] at hderive
  split at hderive
  · cases hderive
  next sa hsa =>
    cases hderive
    exact ⟨rfl, sa, hsa, rfl⟩

theorem holds_of_rotateSA (hrotate : { c with g := some g }.rotateSA S registry g = (.ok (), c')) :
    c'.Holds S registry c.cfg.vni g := by
  obtain ⟨sa, hsa, rfl⟩ := rotateSA_eq_ok hrotate
  exact ⟨rfl, sa, hsa, rfl⟩

theorem within_error_ne_ok {α : Type} {message : String} {fault : Fault} {x : α}
    (hok : within message (.error fault) = .ok x) : False := by
  cases within_eq_ok.mp hok

/-- In each of the ways the group moves on with the commit, and the association with the
group. -/
theorem TakesUp.moves (htakes : c.TakesUp S registry p commitMsg c') :
    ∃ g v, MovesOn S p commitMsg g ∧
      c'.Holds S registry c.cfg.vni { g with encryptHandshakes := v } := by
  cases htakes with
  | commits byValue rnd hg hwon herr hmsg =>
      obtain ⟨res, sa, hcommit, hsa, hcontroller⟩ := commitAndOrder_won hwon herr
      have hbytes : (c.commitAndOrder S registry p byValue rnd).commitMsg = res.commit := by
        simp only [commitAndOrder, hcommit]
        split
        · rfl
        · rfl
        · split <;> rfl
      refine ⟨res.group, res.group.encryptHandshakes,
        .committer _ rnd hcommit (hbytes.symm.trans hmsg), ?_⟩
      rw [hcontroller]
      exact ⟨rfl, sa, hsa, rfl⟩
  | handles hg hrun =>
      simp only [handleCommit, hg] at hrun
      split at hrun
      · cases hrun
      · cases hrun
      · split at hrun
        · exact (within_error_ne_ok (Prod.mk.inj hrun).1).elim
        next g hprocess =>
          exact ⟨g, g.encryptHandshakes, .reader [] hprocess, holds_of_rotateSA hrun⟩
  | joins gi cred signer lifetime rnd hpublish hrun =>
      simp only [joinViaExternalCommit] at hrun
      split at hrun
      · exact (within_error_ne_ok (Prod.mk.inj hrun).1).elim
      next g commitMsg' henter =>
        split at hrun
        · exact (within_error_ne_ok (Prod.mk.inj hrun).1).elim
        · cases hrun
        · split at hrun
          · exact (within_error_ne_ok (Prod.mk.inj hrun).1).elim
          next c'' hderive =>
            cases hrun
            exact ⟨g, _, .entrant gi cred signer lifetime rnd hpublish henter,
              holds_of_deriveCur hderive⟩
  | recovers candidates fetchGI cred signer lifetime rnd hpublish hrun =>
      simp only [autoRecover] at hrun
      split at hrun
      · cases hrun
      · split at hrun
        · cases hrun
        next commitMsg' v hrecover =>
          obtain ⟨ref, gi, hcanonical, hfetch, henter⟩ := recoverViaExternalCommit_eq_ok hrecover
          split at hrun
          · cases hrun
          next c'' hrotate =>
            cases hrun
            exact ⟨v.g, _, .entrant gi cred signer lifetime rnd
              (hpublish ref gi hcanonical hfetch) henter, holds_of_rotateSA hrotate⟩

end Controller

/-! ## Associations -/

/-- What the members of an epoch derive alike: all but the fields for the own leaf. -/
def SA.Shared (sa sa' : SA) : Prop :=
  sa' = { sa with ownLeaf := sa'.ownLeaf, ownSalt := sa'.ownSalt, ownSPI := sa'.ownSPI }

theorem SameEpoch.shared {sa' : SA} (hsame : SameEpoch g g')
    (hderive : deriveSAKeys S registry g vni = .ok sa)
    (hderive' : deriveSAKeys S registry g' vni = .ok sa') : sa.Shared sa' := by
  rw [deriveSAKeys] at hderive hderive'
  rw [← hsame.groupContext_eq] at hderive'
  split at hderive
  · exact absurd hderive fail_ne_ok
  next suite hsuite =>
    rw [hsuite] at hderive'
    simp only [bind_eq_ok, within_eq_ok, pure_ok_iff, Group.exporter] at hderive hderive'
    obtain ⟨key, hkey, spi, hspi, mask, hmask, salt, -, own, -, rfl⟩ := hderive
    obtain ⟨key', hkey', spi', hspi', mask', hmask', salt', -, own', -, rfl⟩ := hderive'
    rw [← hsame.epoch_eq, hkey, Except.ok.injEq] at hkey'
    subst hkey'
    rw [hspi, Except.ok.injEq] at hspi'
    rw [hmask, Except.ok.injEq] at hmask'
    subst hspi' hmask'
    rfl

/-- The entry with which others receive from the holder of an association. -/
def SA.outbound (sa : SA) : InboundSA := ⟨sa.ownLeaf, sa.ownSPI, sa.key, sa.ownSalt⟩

theorem deriveSAKeys_own (hderive : deriveSAKeys S registry g vni = .ok sa) :
    sa.ownLeaf = g.ownLeaf ∧ InboundSA.Of sa sa.outbound := by
  rw [deriveSAKeys] at hderive
  split at hderive
  · exact absurd hderive fail_ne_ok
  · simp only [bind_eq_ok, within_eq_ok, pure_ok_iff] at hderive
    obtain ⟨key, -, spi, -, mask, -, salt, hsalt, own, hown, rfl⟩ := hderive
    exact ⟨rfl, hown, hsalt, rfl⟩

/-- With the indices apart, the entry that a sender uses is the only one under its
index. -/
theorem SA.Shared.outbound_mem {sa' : SA} (hshared : sa.Shared sa')
    (hown : InboundSA.Of sa sa.outbound) {leaves : List ℕ} {out : List InboundSA}
    (hout : sa'.inboundSAs leaves = .ok out) (hleaf : sa.ownLeaf ∈ leaves) :
    sa.outbound ∈ out ∧ ∀ e ∈ out, e.spi = sa.ownSPI → e = sa.outbound := by
  obtain ⟨hleaves, hof, -, hapart⟩ := inboundLoop_eq_ok hout
  rw [← hleaves] at hleaf
  obtain ⟨e, he, hsender⟩ := List.mem_map.mp hleaf
  have heq : e = sa.outbound := by
    obtain ⟨hspi, hsalt, hkey⟩ := hof e he
    rw [hshared] at hspi hsalt hkey
    obtain ⟨leaf, spi, key, salt⟩ := e
    subst hsender hkey
    cases hspi.symm.trans hown.spi
    cases hsalt.symm.trans hown.salt
    rfl
  refine ⟨heq ▸ he, fun e' he' hindex => ?_⟩
  rw [← heq]
  exact List.inj_on_of_nodup_map hapart he' he (by rw [hindex, heq]; rfl)

/-- Controllers in one state: they share the epoch and the keys of the data plane, and the
second has installed for the first, if it is an active member, what the first sends with, and
nothing else under its index. -/
def Controller.InStep (c c' : Controller) : Prop :=
  ∃ g g' sa sa', c.g = some g ∧ c'.g = some g' ∧ c.curSA = some sa ∧ c'.curSA = some sa' ∧
    SameEpoch g g' ∧ sa.Shared sa' ∧
    ∀ out, c'.inboundSAs = .ok out → g.ownLeaf ∈ g.activeLeaves →
      sa.outbound ∈ out ∧ ∀ e ∈ out, e.spi = sa.ownSPI → e = sa.outbound

theorem Controller.Holds.inStep (hc : c.Holds S registry vni g)
    (hd : d.Holds S registry vni g') (hsame : SameEpoch g g') : c.InStep d := by
  obtain ⟨hg, sa, hderive, hsa⟩ := hc
  obtain ⟨hg', sa', hderive', hsa'⟩ := hd
  obtain ⟨hleaf, hown⟩ := deriveSAKeys_own hderive
  have hshared := hsame.shared hderive hderive'
  refine ⟨g, g', sa, sa', hg, hg', hsa, hsa', hsame, hshared, fun out hout hactive => ?_⟩
  rw [inboundSAs, hg', hsa'] at hout
  refine hshared.outbound_mem hown hout ?_
  rw [hleaf]
  simpa only [Group.activeLeaves, hsame.tree_eq] using hactive

/-! ## Agreement -/

section Agreement

variable {past past' : List Group} {Q : Queries}

theorem Controller.TakesUp.membership (htakes : c.TakesUp S registry p commitMsg c')
    (hmember : Membership S p past) (hg : c'.g = some g) : ∃ past, Membership S g past := by
  obtain ⟨x, v, hmoves, hholds⟩ := htakes.moves
  obtain ⟨past, hx⟩ := hmoves.exists_membership hmember
  cases hholds.group_eq.symm.trans hg
  exact ⟨past, hx.sameEpoch (.setEncryptHandshakes v)⟩

/-- Controllers of one VNI that take up the same commit, made in an epoch that is the same
for both, are in step afterwards, whether they made it, handle it, join with it or recover
with it. -/
theorem takers_in_step (hmac : ∀ key data, (S.mac key data).length = S.hashLen)
    (haead : S.AeadInverts) (hfree : Q.CollisionFree S) (hmember : Membership S p past)
    (hmember' : Membership S q past') (hsame : SameEpoch p q) (hvni : c.cfg.vni = d.cfg.vni)
    (hc : c.TakesUp S registry p commitMsg c') (hd : d.TakesUp S registry q commitMsg d')
    (hrec : ∀ g, c'.g = some g → g.groupContext.epoch ≠ 0 ∧ Recorded S Q g)
    (hrec' : ∀ g, d'.g = some g → Recorded S Q g) : c'.InStep d' := by
  obtain ⟨g, v, hmoves, hholds⟩ := hc.moves
  obtain ⟨g', v', hmoves', hholds'⟩ := hd.moves
  obtain ⟨_, hnext⟩ := hc.membership hmember hholds.group_eq
  obtain ⟨_, hnext'⟩ := hd.membership hmember' hholds'.group_eq
  obtain ⟨hstarted, hrec⟩ := hrec _ hholds.group_eq
  have htag := hmoves.tag_eq hmac haead hsame hmoves'
  rw [← hvni] at hholds'
  exact hholds.inStep hholds' (hrec.sameEpoch_of_tag hfree (hrec' _ hholds'.group_eq)
    hnext.epochSound hnext'.epochSound hstarted htag)

end Agreement

/-! ### A member and a joiner -/

def entryRegistry : UInt16 → Option Suite := fun _ => some plainSuite

def entryConfig : ControllerConfig :=
  { silentConfig with suite := transparentSuite, ordering := fun _ _ _ => .ok true }

def entryController (g : Option Group) : Controller :=
  ⟨entryConfig, g, vniGroupID 7, none, none, false⟩

/-- `A` has committed once and publishes its group information. -/
def entryStart : Result (Group × CommitResult × GroupInfo) := do
  let a ← newGroup transparentSuite (vniGroupID 7) (.basic [1]) (some ⟨[1]⟩) ⟨0, 1⟩
    ⟨[1, 1], [1, 2]⟩
  let r ← a.commit transparentSuite ⟨[], []⟩ silentRandomness
  let gi ← r.group.publishGroupInfo transparentSuite
  return (a, r, gi)

/-- `B` joins with it. -/
def entryJoin (gi : GroupInfo) : Result Bytes × Controller :=
  (entryController none).joinViaExternalCommit transparentSuite entryRegistry (some gi)
    (.basic [2]) (some ⟨[2]⟩) ⟨0, 1⟩ ⟨[7], ⟨[2, 1], [2, 2]⟩, [12], fun _ _ => []⟩

/-- `A` handles the commit of `B`. -/
def entryHandle (r : CommitResult) (gi : GroupInfo) : Result Unit × Controller :=
  (entryController (some r.group)).handleCommit transparentSuite entryRegistry
    ((entryJoin gi).1.toOption.getD [])

theorem takers_in_step_member_and_joiner :
    ∃ a r gi, entryStart = .ok (a, r, gi) ∧ (entryJoin gi).1.isOk = true ∧
      (entryJoin gi).2.InStep (entryHandle r gi).2 := by
  obtain ⟨⟨a, r, gi⟩, hrun, hjoined, hhandled, b, hb, a', ha, hcall, hstarted⟩ :
      ∃ run, entryStart = .ok run ∧ (entryJoin run.2.2).1.isOk = true ∧
        (entryHandle run.2.1 run.2.2).1.isOk = true ∧ ∃ b ∈ (entryJoin run.2.2).2.g,
          ∃ a ∈ (entryHandle run.2.1 run.2.2).2.g, b.tagCall = a.tagCall ∧
            b.groupContext.epoch ≠ 0 := by decide +kernel
  have hsteps := hrun
  simp only [entryStart, bind_eq_ok, pure_ok_iff, Prod.mk.injEq] at hsteps
  obtain ⟨a, hnew, r, hcommit, gi, hpublish, rfl, rfl, rfl⟩ := hsteps
  have hmember := (Membership.newGroup _ _ _ _ _ hnew).nextEpoch (.commit _ _ hcommit)
  obtain ⟨commitMsg, hmsg⟩ := exists_of_isOk hjoined
  obtain ⟨⟨⟩, hdone⟩ := exists_of_isOk hhandled
  have hB : (entryController none).TakesUp transparentSuite entryRegistry r.group commitMsg
      (entryJoin gi).2 := .joins gi _ _ _ _ hpublish (Prod.ext hmsg rfl)
  have hA : (entryController (some r.group)).TakesUp transparentSuite entryRegistry r.group
      commitMsg (entryHandle r gi).2 := by
    refine .handles rfl ?_
    rw [entryHandle, hmsg] at hdone ⊢
    exact Prod.ext hdone rfl
  have hfree := Queries.allBut_collisionFree (show ([b.tagCall].map fun call =>
    transparentSuite.mac call.1 call.2).Nodup from List.nodup_singleton _)
  obtain ⟨_, hmemberB⟩ := hB.membership hmember hb
  obtain ⟨_, hmemberA⟩ := hA.membership hmember ha
  have haead : transparentSuite.AeadInverts :=
    @SuiteLaws.aeadOpen_aeadSeal plainSuite plainSuite_laws
  have hvni : (entryController none).cfg.vni = (entryController (some r.group)).cfg.vni := rfl
  refine ⟨a, r, gi, hrun, hjoined, takers_in_step (fun _ _ => rfl) haead hfree hmember hmember
    (.refl _) hvni hB hA (fun g hg => ?_) fun g hg => ?_⟩
  · cases hb.symm.trans hg
    exact ⟨hstarted, hmemberB.reached.recorded_allBut (by simp)⟩
  · cases ha.symm.trans hg
    exact hmemberA.reached.recorded_allBut (by simp [← hcall])

end MlsGo
