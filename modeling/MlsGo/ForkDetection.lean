import MlsGo.EpochBinding
import MlsGo.FencingSafety

/-!
# Detecting forks

`sequencer/fork.go`: members report the authenticator of their epoch, and the
registry raises a flag once two different ones were reported for one epoch of one
group.  An authenticator stands for the whole state of its epoch, so the flag is
raised exactly when two of the reporting members are on different branches.
-/

namespace MlsGo

variable {S : Suite}

namespace Sequencer

/-! ## The registry -/

structure EpochAuthenticatorRegistry where
  seen : GoMap Bytes (List Bytes)

def newEpochAuthenticatorRegistry : EpochAuthenticatorRegistry := ⟨[]⟩

namespace EpochAuthenticatorRegistry

/-- The authenticators reported for an epoch, in the order of their first
report. -/
def authenticators (r : EpochAuthenticatorRegistry) (g : Bytes) (epoch : UInt64) :
    List Bytes := (r.seen.get (seqKey g epoch)).getD []

/-- `Report`: the flag, and the registry afterwards. -/
def report (r : EpochAuthenticatorRegistry) (g : Bytes) (epoch : UInt64)
    (auth : Bytes) : Bool × EpochAuthenticatorRegistry :=
  let known := r.authenticators g epoch
  if auth ∈ known then (decide (1 < known.length), r)
  else (decide (1 < (known ++ [auth]).length), ⟨r.seen.set (seqKey g epoch) (known ++ [auth])⟩)

/-- `Divergent`. -/
def divergent (r : EpochAuthenticatorRegistry) (g : Bytes) (epoch : UInt64) : Bool :=
  decide (1 < (r.authenticators g epoch).length)

end EpochAuthenticatorRegistry

/-- One call of `Report`. -/
structure EpochReport where
  group : Bytes
  epoch : UInt64
  auth : Bytes

/-- The registry after a series of reports. -/
def registryAfter (reports : List EpochReport) : EpochAuthenticatorRegistry :=
  reports.foldl (fun r p => (r.report p.group p.epoch p.auth).2) newEpochAuthenticatorRegistry

theorem registryAfter_concat (reports : List EpochReport) (p : EpochReport) :
    registryAfter (reports ++ [p]) =
      ((registryAfter reports).report p.group p.epoch p.auth).2 := by
  rw [registryAfter, List.foldl_append]
  rfl

namespace EpochAuthenticatorRegistry

variable (r : EpochAuthenticatorRegistry) (g : Bytes) (epoch : UInt64) (auth : Bytes)

/-- A new authenticator is appended to those of its epoch, and nothing else
changes. -/
theorem authenticators_report (g' : Bytes) (epoch' : UInt64) :
    (r.report g epoch auth).2.authenticators g' epoch' =
      if (g' = g ∧ epoch' = epoch) ∧ auth ∉ r.authenticators g epoch then
        r.authenticators g epoch ++ [auth]
      else r.authenticators g' epoch' := by
  rw [report]
  split
  next hknown => simp [hknown]
  next hnew =>
    rw [authenticators, GoMap.get_set]
    by_cases hsame : g' = g ∧ epoch' = epoch
    · rw [if_pos (seqKey_inj.mpr hsame), if_pos ⟨hsame, hnew⟩]
      rfl
    · rw [if_neg (mt seqKey_inj.mp hsame), if_neg (fun h => hsame h.1)]
      rfl

theorem report_eq_divergent :
    (r.report g epoch auth).1 = (r.report g epoch auth).2.divergent g epoch := by
  rw [divergent, authenticators_report, report]
  split
  next hknown => simp [hknown]
  next hnew => simp [hnew]

end EpochAuthenticatorRegistry

theorem registry_spec (reports : List EpochReport) (g : Bytes) (epoch : UInt64) :
    ((registryAfter reports).authenticators g epoch).Nodup ∧
      ∀ auth, auth ∈ (registryAfter reports).authenticators g epoch ↔
        ⟨g, epoch, auth⟩ ∈ reports := by
  induction reports using List.reverseRecOn with
  | nil => exact ⟨List.nodup_nil, fun auth => by simp [registryAfter,
      newEpochAuthenticatorRegistry, EpochAuthenticatorRegistry.authenticators, GoMap.get]⟩
  | append_singleton reports p ih =>
      obtain ⟨hnodup, hmem⟩ := ih
      rw [registryAfter_concat, EpochAuthenticatorRegistry.authenticators_report]
      split
      next hnew =>
        obtain ⟨⟨rfl, rfl⟩, hnew⟩ := hnew
        refine ⟨List.nodup_append.mpr ⟨hnodup, List.nodup_singleton _, ?_⟩, fun auth => ?_⟩
        · rintro a ha b hb rfl
          exact hnew (List.mem_singleton.mp hb ▸ ha)
        · obtain ⟨group, epoch, reported⟩ := p
          simp [hmem]
      next hold =>
        refine ⟨hnodup, fun auth => ?_⟩
        rw [hmem, List.mem_append, List.mem_singleton]
        constructor
        · exact .inl
        · -- a report that changes nothing was made before
          rintro (hmade | rfl)
          · exact hmade
          · exact (hmem auth).mp (by_contra fun hnew => hold ⟨⟨rfl, rfl⟩, hnew⟩)

theorem divergent_iff (reports : List EpochReport) (g : Bytes) (epoch : UInt64) :
    (registryAfter reports).divergent g epoch = true ↔
      ∃ auth auth', ⟨g, epoch, auth⟩ ∈ reports ∧ ⟨g, epoch, auth'⟩ ∈ reports ∧ auth ≠ auth' := by
  obtain ⟨hnodup, hmem⟩ := registry_spec reports g epoch
  rw [EpochAuthenticatorRegistry.divergent, decide_eq_true_eq,
    ← List.toFinset_card_of_nodup hnodup, Finset.one_lt_card]
  simp only [List.mem_toFinset, hmem]
  constructor
  · rintro ⟨auth, hauth, auth', hauth', hne⟩
    exact ⟨auth, auth', hauth, hauth', hne⟩
  · rintro ⟨auth, auth', hauth, hauth', hne⟩
    exact ⟨auth, hauth, auth', hauth', hne⟩

end Sequencer

/-! ## Reports of members -/

open Sequencer

/-- What a member reports. -/
def Group.epochReport (g : Group) : EpochReport :=
  ⟨g.groupContext.groupID, g.groupContext.epoch, g.epoch.epochAuthenticator⟩

/-- Two of the members are in one epoch of one group, on different branches. -/
def Forked (members : List Group) (groupID : Bytes) (epoch : UInt64) : Prop :=
  ∃ a ∈ members, ∃ b ∈ members,
    (a.groupContext.groupID = groupID ∧ a.groupContext.epoch = epoch) ∧
    (b.groupContext.groupID = groupID ∧ b.groupContext.epoch = epoch) ∧ ¬ SameEpoch a b

/-- Members report their authenticators in any order and any number of times.  The
registry answers the next report with a fork, and `Divergent` says so from then on,
exactly if two of the members that have reported for this epoch are on different
branches. -/
theorem fork_flag_exact {Q : Queries} (hfree : Q.CollisionFree S) (reporters : List Group)
    (hmember : ∀ g ∈ reporters, (∃ past, Membership S g past) ∧ Recorded S Q g)
    (groupID : Bytes) (epoch : UInt64) (hstarted : epoch ≠ 0) :
    ((registryAfter (reporters.map Group.epochReport)).divergent groupID epoch = true ↔
      Forked reporters groupID epoch) ∧
    ∀ earlier last, reporters = earlier ++ [last] →
      last.groupContext.groupID = groupID → last.groupContext.epoch = epoch →
      (((registryAfter (earlier.map Group.epochReport)).report groupID epoch
        last.epoch.epochAuthenticator).1 = true ↔ Forked reporters groupID epoch) := by
  have hflag : (registryAfter (reporters.map Group.epochReport)).divergent groupID epoch =
      true ↔ Forked reporters groupID epoch := by
    rw [divergent_iff]
    constructor
    · rintro ⟨auth, auth', hauth, hauth', hne⟩
      obtain ⟨a, ha, hreport⟩ := List.mem_map.mp hauth
      obtain ⟨b, hb, hreport'⟩ := List.mem_map.mp hauth'
      cases hreport
      simp only [Group.epochReport, EpochReport.mk.injEq] at hreport'
      obtain ⟨hgroup, hepoch, rfl⟩ := hreport'
      exact ⟨a, ha, b, hb, ⟨rfl, rfl⟩, ⟨hgroup, hepoch⟩, fun hsame => hne (by rw [hsame.epoch_eq])⟩
    · rintro ⟨a, ha, b, hb, ⟨rfl, rfl⟩, ⟨hgroup, hepoch⟩, hforked⟩
      obtain ⟨⟨pastA, hmemberA⟩, hrecA⟩ := hmember a ha
      obtain ⟨⟨pastB, hmemberB⟩, hrecB⟩ := hmember b hb
      refine ⟨a.epoch.epochAuthenticator, b.epoch.epochAuthenticator,
        List.mem_map.mpr ⟨a, ha, rfl⟩, List.mem_map.mpr ⟨b, hb, ?_⟩, fun hauth => hforked ?_⟩
      · rw [Group.epochReport, hgroup, hepoch]
      · exact hrecA.sameEpoch_of_authenticator hfree hrecB hmemberA.epochSound
          hmemberB.epochSound hstarted hauth
  refine ⟨hflag, ?_⟩
  rintro earlier last rfl rfl rfl
  rw [EpochAuthenticatorRegistry.report_eq_divergent, ← hflag, List.map_append]
  simp only [List.map_cons, List.map_nil, registryAfter_concat]
  rfl

/-! ### Two branches -/

/-- `A` creates a group and commits twice in its first epoch, with different leaf
secrets. -/
def twoBranches : Result (Group × CommitResult × CommitResult) := do
  let a ← newGroup transparentSuite [9] (.basic [1]) (some ⟨[1]⟩) ⟨0, 1⟩ ⟨[1, 1], [1, 2]⟩
  let left ← a.commit transparentSuite ⟨[], []⟩ ⟨[2], fun _ _ => [], ⟨0, 0, 0, 0⟩, fun _ => []⟩
  let right ← a.commit transparentSuite ⟨[], []⟩ ⟨[3, 3], fun _ _ => [], ⟨0, 0, 0, 0⟩, fun _ => []⟩
  return (a, left, right)

/-- Two members on the left branch raise no flag, and one on the right does. -/
theorem fork_flag_exact_two_branches :
    ∃ a left right, twoBranches = .ok (a, left, right) ∧
      (registryAfter ([left.group, left.group].map Group.epochReport)).divergent [9] 1 = false ∧
      ((registryAfter ([left.group, left.group].map Group.epochReport)).report [9] 1
        right.group.epoch.epochAuthenticator).1 = true := by
  obtain ⟨⟨a, left, right⟩, hrun, hgroupL, hepochL, hgroupR, hepochR, htree, htags⟩ :
      ∃ run, twoBranches = .ok run ∧ run.2.1.group.groupContext.groupID = [9] ∧
        run.2.1.group.groupContext.epoch = 1 ∧ run.2.2.group.groupContext.groupID = [9] ∧
        run.2.2.group.groupContext.epoch = 1 ∧ run.2.1.group.tree ≠ run.2.2.group.tree ∧
        ([run.2.1.group.tagCall, run.2.2.group.tagCall].map fun call =>
          transparentSuite.mac call.1 call.2).Nodup := by decide +kernel
  have hbranches : Membership transparentSuite left.group [a] ∧
      Membership transparentSuite right.group [a] := by
    simp only [twoBranches, bind_eq_ok, pure_ok_iff, Prod.mk.injEq] at hrun
    obtain ⟨a, hnew, left, hleft, right, hright, rfl, rfl, rfl⟩ := hrun
    exact ⟨.nextEpoch (.newGroup _ _ _ _ _ hnew) (.commit _ _ hleft),
      .nextEpoch (.newGroup _ _ _ _ _ hnew) (.commit _ _ hright)⟩
  have hfree := Queries.allBut_collisionFree htags
  have hmemberL : (∃ past, Membership transparentSuite left.group past) ∧
      Recorded transparentSuite
        (.allBut {call | call ∈ [left.group.tagCall, right.group.tagCall]}) left.group :=
    ⟨⟨_, hbranches.1⟩, hbranches.1.reached.recorded_allBut List.mem_cons_self⟩
  have hmemberR : (∃ past, Membership transparentSuite right.group past) ∧
      Recorded transparentSuite
        (.allBut {call | call ∈ [left.group.tagCall, right.group.tagCall]}) right.group :=
    ⟨⟨_, hbranches.2⟩, hbranches.2.reached.recorded_allBut
      (List.mem_cons_of_mem _ List.mem_cons_self)⟩
  obtain ⟨hquiet, -⟩ := fork_flag_exact hfree [left.group, left.group]
    (List.forall_mem_cons.mpr ⟨hmemberL, List.forall_mem_singleton.mpr hmemberL⟩) [9] 1 (by decide)
  obtain ⟨-, hraised⟩ := fork_flag_exact hfree
    ([left.group, left.group] ++ [right.group])
    (List.forall_mem_cons.mpr ⟨hmemberL, List.forall_mem_cons.mpr
      ⟨hmemberL, List.forall_mem_singleton.mpr hmemberR⟩⟩)
    [9] 1 (by decide)
  refine ⟨a, left, right, hrun, ?_, (hraised _ _ rfl hgroupR hepochR).mpr ?_⟩
  · rw [← Bool.not_eq_true, hquiet]
    rintro ⟨x, hx, y, hy, -, -, hforked⟩
    simp only [List.mem_cons, List.not_mem_nil, or_false, or_self] at hx hy
    subst hx hy
    exact hforked (.refl _)
  · exact ⟨left.group, by simp, right.group, by simp, ⟨hgroupL, hepochL⟩,
      ⟨hgroupR, hepochR⟩, fun hsame => htree hsame.tree_eq⟩

end MlsGo
