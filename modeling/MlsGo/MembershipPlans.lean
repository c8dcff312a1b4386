import MlsGo.OrderingFailures

/-!
# Who acts on a reconcile

Every member of a group is given the same list of desired identities and decides
on its own whether to commit.  The tree, the validator and the list determine a
map from identities to leaves, from it the leaves to remove, and from those the
one leaf whose member acts: the lowest that stays.  Exempting the own leaf
afterwards does not change who that is.
-/

namespace MlsGo

variable {g : Group} {validate : Credential → Bytes → Except Err Bytes} {leaf : ℕ}
    {leaves : List ℕ} {id : Bytes} {desired : List Bytes} {c : Controller} {plan : ReconcilePlan}
    {m : GoMap Bytes ℕ}

/-! ## Active leaves and their identities -/

theorem Group.mem_activeLeaves :
    leaf ∈ g.activeLeaves ↔ leaf < g.tree.leafCount ∧ ∃ ln, g.tree.leafNodeAt leaf = .ok ln := by
  rw [Group.activeLeaves, List.mem_filter, List.mem_range]
  refine and_congr_right fun _ => ⟨exists_of_isOk, ?_⟩
  rintro ⟨ln, hln⟩
  rw [hln]
  rfl

theorem Group.activeLeaves_sorted (g : Group) : g.activeLeaves.Pairwise (· < ·) :=
  List.pairwise_lt_range.filter _

theorem leafCount_lt (t : RatchetTree) : t.leafCount < 2 ^ 31 := by
  rw [RatchetTree.leafCount, u32]
  omega

theorem Group.lt_of_activeLeaf (hactive : leaf ∈ g.activeLeaves) : leaf < 2 ^ 31 :=
  (Group.mem_activeLeaves.mp hactive).1.trans (leafCount_lt g.tree)

def Group.identityAt (g : Group)
    (validate : Credential → Bytes → Except Err Bytes) (leaf : ℕ) :
    Option Bytes :=
  match g.tree.leafNodeAt leaf with
  | .ok ln => (validate ln.credential ln.signatureKey).toOption
  | .error _ => none

def Group.noteIdentity (g : Group)
    (validate : Credential → Bytes → Except Err Bytes) (m : GoMap Bytes ℕ)
    (leaf : ℕ) : GoMap Bytes ℕ :=
  match g.identityAt validate leaf with
  | some id => m.set id leaf
  | none => m

theorem Group.identityToLeaf_eq (hactive : ∀ leaf ∈ leaves, ∃ ln, g.tree.leafNodeAt leaf = .ok ln)
    (m : GoMap Bytes ℕ) :
    g.identityToLeaf validate leaves m = .ok (leaves.foldl (g.noteIdentity validate) m) := by
  induction leaves generalizing m with
  | nil => rfl
  | cons leaf rest ih =>
      obtain ⟨ln, hln⟩ := hactive leaf List.mem_cons_self
      have hrest := fun m => ih (fun l hl => hactive l (List.mem_cons_of_mem _ hl)) m
      simp only [Group.identityToLeaf, Group.leafCredential, hln, ok_bind, pure_eq_ok,
        within_ok]
      cases hid : validate ln.credential ln.signatureKey with
      | error _ => simp [hrest, Group.noteIdentity, Group.identityAt, hln, hid, Except.toOption]
      | ok id => simp [hrest, Group.noteIdentity, Group.identityAt, hln, hid, Except.toOption]

def Group.identityMap (g : Group)
    (validate : Credential → Bytes → Except Err Bytes) : GoMap Bytes ℕ :=
  g.activeLeaves.foldl (g.noteIdentity validate) []

theorem Group.identityToLeaf_active (g : Group)
    (validate : Credential → Bytes → Except Err Bytes) :
    g.identityToLeaf validate g.activeLeaves [] = .ok (g.identityMap validate) :=
  Group.identityToLeaf_eq (fun _ hleaf => (Group.mem_activeLeaves.mp hleaf).2) []

theorem Group.get_noteIdentity (m : GoMap Bytes ℕ) (leaf : ℕ) (id : Bytes) :
    (g.noteIdentity validate m leaf).get id =
      if g.identityAt validate leaf = some id then some leaf else m.get id := by
  cases hid : g.identityAt validate leaf with
  | none => simp [Group.noteIdentity, hid]
  | some found => simp [Group.noteIdentity, hid, GoMap.get_set, eq_comm]

theorem Group.foldl_noteIdentity_get
    (hget : (leaves.foldl (g.noteIdentity validate) m).get id = some leaf) :
    (leaf ∈ leaves ∧ g.identityAt validate leaf = some id) ∨ m.get id = some leaf := by
  induction leaves generalizing m with
  | nil => exact .inr hget
  | cons head rest ih =>
      rcases ih hget with ⟨hmem, hid⟩ | hnoted
      · exact .inl ⟨List.mem_cons_of_mem _ hmem, hid⟩
      · rw [Group.get_noteIdentity] at hnoted
        split at hnoted
        next hid =>
          cases hnoted
          exact .inl ⟨List.mem_cons_self, hid⟩
        · exact .inr hnoted

theorem Group.foldl_noteIdentity_isSome (hknown : (m.get id).isSome ∨
      ∃ leaf ∈ leaves, g.identityAt validate leaf = some id) :
    ((leaves.foldl (g.noteIdentity validate) m).get id).isSome := by
  induction leaves generalizing m with
  | nil => simpa using hknown
  | cons head rest ih =>
      refine ih ?_
      rw [Group.get_noteIdentity]
      rcases hknown with hsome | ⟨leaf, hleaf, hid⟩
      · left
        split
        · rfl
        · exact hsome
      · rcases List.mem_cons.mp hleaf with rfl | hrest
        · left
          rw [if_pos hid]
          rfl
        · exact .inr ⟨leaf, hrest, hid⟩

theorem Group.identityMap_get (hget : (g.identityMap validate).get id = some leaf) :
    leaf ∈ g.activeLeaves ∧ g.identityAt validate leaf = some id := by
  rcases Group.foldl_noteIdentity_get hget with hfound | hnil
  · exact hfound
  · cases hnil

theorem Group.identityMap_isSome :
    ((g.identityMap validate).get id).isSome ↔
      ∃ leaf ∈ g.activeLeaves, g.identityAt validate leaf = some id := by
  constructor
  · intro hsome
    obtain ⟨leaf, hget⟩ := Option.isSome_iff_exists.mp hsome
    exact ⟨leaf, Group.identityMap_get hget⟩
  · exact fun hexists => Group.foldl_noteIdentity_isSome (.inr hexists)

/-! ## The plan -/

def Group.scheduled (g : Group)
    (validate : Credential → Bytes → Except Err Bytes) (desired : List Bytes) :
    List ℕ :=
  (((g.identityMap validate).map Prod.fst).dedup.filter fun id =>
    !desired.contains id).filterMap (g.identityMap validate).get

def Group.missing (g : Group)
    (validate : Credential → Bytes → Except Err Bytes) (desired : List Bytes) :
    List Bytes := desired.filter fun id => ((g.identityMap validate).get id).isNone

theorem Group.mem_scheduled :
    leaf ∈ g.scheduled validate desired ↔
      ∃ id, (g.identityMap validate).get id = some leaf ∧ id ∉ desired := by
  simp only [Group.scheduled, List.mem_filterMap, List.mem_filter, List.mem_dedup,
    Bool.not_eq_true', List.contains_eq_mem, decide_eq_false_iff_not]
  constructor
  · rintro ⟨id, ⟨-, hout⟩, hget⟩
    exact ⟨id, hget, hout⟩
  · rintro ⟨id, hget, hout⟩
    exact ⟨id, ⟨List.mem_map_of_mem (GoMap.mem_of_get hget), hout⟩, hget⟩

structure Planned (c : Controller) (g : Group)
    (validate : Credential → Bytes → Except Err Bytes) (desired : List Bytes)
    (plan : ReconcilePlan) : Prop where
  elected : g.ownLeaf = committerElect g.activeLeaves (g.scheduled validate desired)
  removed_eq : plan.removed = ((g.scheduled validate desired).filter
    (· ≠ g.ownLeaf)).insertionSort (· ≤ ·)
  resolved : ∃ adds, resolveAdds c.cfg.resolve (g.missing validate desired) =
      .ok (adds, plan.added, plan.pending) ∧
    plan.proposals = plan.removed.map (fun leaf => .remove (UInt32.ofNat leaf)) ++ adds

theorem planned_of_planReconcile (hvalidator : c.cfg.validator = some validate)
    (hplan : c.planReconcile g desired = .ok (some plan)) :
    Planned c g validate desired plan := by
  simp only [Controller.planReconcile, hvalidator, Group.identityToLeaf_active,
    within_ok, ok_bind] at hplan
  split at hplan
  · cases hplan
  next helected =>
    simp only [bind_eq_ok, pure_ok_iff, Option.some.injEq] at hplan
    obtain ⟨⟨adds, added, pending⟩, hadds, rfl⟩ := hplan
    exact ⟨not_not.mp helected, rfl, adds, hadds, rfl⟩

theorem resolveAdds_adds {resolve : Option (Bytes → Option Bytes)} {ids added pending : List Bytes}
    {adds : List Proposal} (hrun : resolveAdds resolve ids = .ok (adds, added, pending)) :
    ∀ p ∈ adds, ∃ kp, p = .add kp := by
  induction ids generalizing adds added pending with
  | nil =>
      cases hrun
      simp
  | cons id rest ih =>
      simp only [resolveAdds] at hrun
      split at hrun
      · simp only [bind_eq_ok, pure_ok_iff] at hrun
        obtain ⟨⟨adds', added', pending'⟩, hrest, heq⟩ := hrun
        cases heq
        exact ih hrest
      · simp only [bind_eq_ok, pure_ok_iff] at hrun
        obtain ⟨kp, -, ⟨adds', added', pending'⟩, hrest, heq⟩ := hrun
        cases heq
        intro p hp
        rcases List.mem_cons.mp hp with rfl | hp
        · exact ⟨kp, rfl⟩
        · exact ih hrest p hp

/-! ## The elected leaf -/

theorem committerElect_cons (first : ℕ) (rest removeSet : List ℕ) :
    committerElect (first :: rest) removeSet = if removeSet.contains first then
        ((first :: rest).find? fun l => !removeSet.contains l).getD noCommitter
      else first := rfl

theorem committerElect_spec {removeSet : List ℕ} (hsorted : leaves.Pairwise (· < ·))
    (hlow : ∀ l ∈ leaves, l < noCommitter) {own : ℕ} (hown : own ∈ leaves)
    (helected : own = committerElect leaves removeSet) :
    own ∉ removeSet ∧ ∀ l ∈ leaves, l ∉ removeSet → own ≤ l := by
  obtain ⟨first, rest, rfl⟩ := List.exists_cons_of_ne_nil (List.ne_nil_of_mem hown)
  rw [committerElect_cons] at helected
  by_cases hremoved : removeSet.contains first = true
  · rw [if_pos hremoved] at helected
    cases hfind : (first :: rest).find? fun l => !removeSet.contains l with
    | none =>
        rw [hfind, Option.getD_none] at helected
        exact absurd (hlow own hown) (by omega)
    | some found =>
        rw [hfind, Option.getD_some] at helected
        subst helected
        obtain ⟨hstays, before, after, hsplit, hbefore⟩ := List.find?_eq_some_iff_append.mp hfind
        refine ⟨by simpa using hstays, fun l hl hkept => ?_⟩
        rw [hsplit] at hl hsorted
        rcases List.mem_append.mp hl with hl | hl
        · exact absurd (hbefore l hl) (by simpa using hkept)
        · rcases List.mem_cons.mp hl with rfl | hl
          · exact le_rfl
          · exact ((List.pairwise_cons.mp (List.pairwise_append.mp hsorted).2.1).1 l hl).le
  · rw [if_neg hremoved] at helected
    subst helected
    refine ⟨by simpa using hremoved, fun l hl _ => ?_⟩
    rcases List.mem_cons.mp hl with rfl | hl
    · exact le_rfl
    · exact ((List.pairwise_cons.mp hsorted).1 l hl).le

theorem Planned.lowest (hplanned : Planned c g validate desired plan)
    (hactive : g.ownLeaf ∈ g.activeLeaves) :
    g.ownLeaf ∉ g.scheduled validate desired ∧
      ∀ l ∈ g.activeLeaves, l ∉ g.scheduled validate desired → g.ownLeaf ≤ l :=
  committerElect_spec g.activeLeaves_sorted (fun _ hl =>
    (Group.lt_of_activeLeaf hl).trans (by decide)) hactive hplanned.elected

theorem Planned.keeps_own (hplanned : Planned c g validate desired plan)
    (hactive : g.ownLeaf ∈ g.activeLeaves) :
    .remove (UInt32.ofNat g.ownLeaf) ∉ plan.proposals := by
  obtain ⟨adds, hadds, hproposals⟩ := hplanned.resolved
  rw [hproposals, hplanned.removed_eq]
  intro hmem
  rcases List.mem_append.mp hmem with hremove | hadd
  · obtain ⟨leaf, hleaf, heq⟩ := List.mem_map.mp hremove
    rw [List.mem_insertionSort, List.mem_filter, decide_eq_true_eq] at hleaf
    obtain ⟨id, hget, -⟩ := Group.mem_scheduled.mp hleaf.1
    have hlt := Group.lt_of_activeLeaf (Group.identityMap_get hget).1
    have hltOwn := Group.lt_of_activeLeaf hactive
    have hnat := congrArg UInt32.toNat (Proposal.remove.inj heq)
    rw [UInt32.toNat_ofNat', UInt32.toNat_ofNat'] at hnat
    exact hleaf.2 (by omega)
  · obtain ⟨kp, hkp⟩ := resolveAdds_adds hadds _ hadd
    cases hkp

/-! ## All members at once -/

/-- A member of the group with the given tree, whose controller validates
credentials as all others do. -/
structure MemberOf (t : RatchetTree)
    (validate : Credential → Bytes → Except Err Bytes) (c : Controller)
    (g : Group) : Prop where
  group : c.g = some g
  tree : g.tree = t
  validator : c.cfg.validator = some validate
  active : g.ownLeaf ∈ g.activeLeaves

def Controller.Issues (c : Controller) (desired : List Bytes)
    (rnd : CommitRandomness) (byValue : List Proposal) : Prop :=
  ∃ g rnd', c.g = some g ∧ c.proposes g (.reconcile desired rnd) = some (byValue, rnd')

section Issues

variable {c : Controller} {desired : List Bytes} {rnd : CommitRandomness} {byValue : List Proposal}

theorem Controller.issues_iff :
    c.Issues desired rnd byValue ↔ ∃ g plan, c.g = some g ∧
      c.planReconcile g desired = .ok (some plan) ∧ plan.proposals ≠ [] ∧
      byValue = plan.proposals := by
  constructor
  · rintro ⟨g, rnd', hg, hproposes⟩
    simp only [Controller.proposes] at hproposes
    split at hproposes
    next plan hplan =>
      split at hproposes
      · cases hproposes
      next hsome =>
        cases hproposes
        exact ⟨g, plan, hg, hplan, fun hnil => hsome (by rw [hnil]; rfl), rfl⟩
    · cases hproposes
  · rintro ⟨g, plan, hg, hplan, hsome, rfl⟩
    exact ⟨g, rnd, hg, by simp [Controller.proposes, hplan, hsome]⟩

theorem Controller.Issues.planned (hissues : c.Issues desired rnd byValue) (hg : c.g = some g)
    (hvalidator : c.cfg.validator = some validate) :
    ∃ plan, Planned c g validate desired plan ∧ byValue = plan.proposals ∧
      plan.proposals ≠ [] := by
  obtain ⟨g', plan, hg', hplan, hsome, rfl⟩ := issues_iff.mp hissues
  cases hg.symm.trans hg'
  exact ⟨plan, planned_of_planReconcile hvalidator hplan, rfl, hsome⟩

/-- `Reconcile` calls `commitAndOrder` with the proposals it issues, and does nothing if it
issues none. -/
theorem Controller.reconcile_issues (S : Suite) (registry : UInt16 → Option Suite)
    (c : Controller) (desired : List Bytes) (rnd : CommitRandomness) :
    (∃ g byValue plan, c.g = some g ∧ c.Issues desired rnd byValue ∧
      c.reconcile S registry desired rnd =
        ReconcilePlan.outcome plan (c.commitAndOrder S registry g byValue rnd)) ∨
    (∀ byValue, ¬c.Issues desired rnd byValue) ∧
      (c.reconcile S registry desired rnd).controller = c ∧
      (c.reconcile S registry desired rnd).result.committed = false := by
  rcases c.reconcile_cases S registry desired rnd with
    ⟨g, plan, hg, hplan, hsome, heq⟩ | ⟨hidle, hc, hcommitted, -⟩
  · exact .inl ⟨g, _, plan, hg, issues_iff.mpr ⟨g, plan, hg, hplan, hsome, rfl⟩, heq⟩
  · refine .inr ⟨fun byValue hissues => ?_, hc, hcommitted⟩
    obtain ⟨g, plan, hg, hplan, hsome, -⟩ := issues_iff.mp hissues
    exact hsome (hidle g plan hg hplan)

end Issues

section Members

variable {ι : Type} {members : ι → Controller} {groups : ι → Group} {t : RatchetTree}

theorem Group.activeLeaves_of_tree {g g' : Group} (htree : g.tree = g'.tree) :
    g.activeLeaves = g'.activeLeaves := by
  rw [Group.activeLeaves, Group.activeLeaves, htree]

theorem Group.scheduled_of_tree {g g' : Group} (htree : g.tree = g'.tree) :
    g.scheduled validate desired = g'.scheduled validate desired := by
  have hnote : g.noteIdentity validate = g'.noteIdentity validate := by
    funext m leaf
    simp only [Group.noteIdentity, Group.identityAt, htree]
  simp only [Group.scheduled, Group.identityMap, hnote, Group.activeLeaves_of_tree htree]

/-- Given the same list, at most one member of a group issues a commit.  It is
the lowest active leaf that is not scheduled for removal, its commit does not
remove it, and when all leaves are scheduled nobody commits. -/
theorem one_member_reconciles (desired : List Bytes) (rnd : ι → CommitRandomness)
    (hmembers : ∀ i, MemberOf t validate (members i) (groups i))
    (hleaves : Function.Injective fun i => (groups i).ownLeaf) :
    (∀ i j byValue byValue', (members i).Issues desired (rnd i) byValue →
      (members j).Issues desired (rnd j) byValue' → i = j) ∧
    (∀ i byValue, (members i).Issues desired (rnd i) byValue →
      (groups i).ownLeaf ∉ (groups i).scheduled validate desired ∧
      (∀ leaf ∈ (groups i).activeLeaves,
        leaf ∉ (groups i).scheduled validate desired → (groups i).ownLeaf ≤ leaf) ∧
      .remove (UInt32.ofNat (groups i).ownLeaf) ∉ byValue) ∧
    ∀ i, (∀ leaf ∈ (groups i).activeLeaves, leaf ∈ (groups i).scheduled validate desired) →
      ∀ j byValue, ¬(members j).Issues desired (rnd j) byValue := by
  have hlowest : ∀ i byValue, (members i).Issues desired (rnd i) byValue →
      (groups i).ownLeaf ∉ (groups i).scheduled validate desired ∧
      (∀ leaf ∈ (groups i).activeLeaves,
        leaf ∉ (groups i).scheduled validate desired → (groups i).ownLeaf ≤ leaf) ∧
      .remove (UInt32.ofNat (groups i).ownLeaf) ∉ byValue := by
    intro i byValue hissues
    obtain ⟨hgroup, -, hvalidator, hactive⟩ := hmembers i
    obtain ⟨plan, hplanned, rfl, -⟩ := hissues.planned hgroup hvalidator
    obtain ⟨hstays, hleast⟩ := hplanned.lowest hactive
    exact ⟨hstays, hleast, hplanned.keeps_own hactive⟩
  have htrees : ∀ i j, (groups i).tree = (groups j).tree := fun i j =>
    (hmembers i).tree.trans (hmembers j).tree.symm
  refine ⟨fun i j byValue byValue' hi hj => hleaves ?_, hlowest, ?_⟩
  · obtain ⟨hstaysi, hleasti, -⟩ := hlowest i byValue hi
    obtain ⟨hstaysj, hleastj, -⟩ := hlowest j byValue' hj
    have hactivei := (hmembers i).active
    have hactivej := (hmembers j).active
    rw [Group.activeLeaves_of_tree (htrees i j), Group.scheduled_of_tree (htrees i j)] at *
    exact le_antisymm (hleasti _ hactivej hstaysj) (hleastj _ hactivei hstaysi)
  · intro i hall j byValue hissues
    rw [Group.activeLeaves_of_tree (htrees i j), Group.scheduled_of_tree (htrees i j)] at hall
    exact (hlowest j byValue hissues).1 (hall _ (hmembers j).active)

end Members

/-! ### A founder that is to leave -/

def basicIdentity : Credential → Bytes → Except Err Bytes
  | .basic id, _ => .ok id
  | _, _ => .error (.text "not a basic credential")

def pairedMembers : Result (Group × Group) := do
  let a ← newGroup plainSuite (vniGroupID 7) (.basic [1]) (some ⟨[1]⟩) ⟨0, 1⟩ ⟨[1, 1], [1, 2]⟩
  let (kp, initPriv, leafPriv) ← newKeyPackage plainSuite (.basic [2]) (some ⟨[2]⟩)
    ⟨0, 1⟩ ⟨[2, 1], [2, 2]⟩
  let r ← a.commit plainSuite ⟨[.add kp], []⟩ silentRandomness
  let kpBytes ← encodeKeyPackageMessage kp
  let b ← joinFromWelcome plainSuite (r.welcome.getD [])
    ⟨kpBytes, initPriv, leafPriv, some ⟨[2]⟩, [], []⟩
  return (r.group, b)

def basicController (g : Group) : Controller where
  cfg := { silentConfig with
    ordering := fun _ _ _ => .ok true
    validator := some basicIdentity }
  g := some g
  groupID := vniGroupID 7
  curSA := none
  prevSA := none
  hasPrev := false

/-- With the founder gone from the list, its member stands back and the joiner
commits. -/
theorem one_member_reconciles_handover :
    ∃ founder joiner byValue, pairedMembers = .ok (founder, joiner) ∧ founder.ownLeaf = 0 ∧
      joiner.ownLeaf = 1 ∧ (basicController joiner).Issues [[2]] silentRandomness byValue ∧
      .remove (UInt32.ofNat joiner.ownLeaf) ∉ byValue ∧
      ∀ byValue', ¬(basicController founder).Issues [[2]] silentRandomness byValue' := by
  obtain ⟨⟨founder, joiner⟩, hpair, hfounder, hjoiner, htree, hactive, hproposes⟩ :
      ∃ pair, pairedMembers = .ok pair ∧ pair.1.ownLeaf = 0 ∧ pair.2.ownLeaf = 1 ∧
        pair.2.tree = pair.1.tree ∧ pair.1.activeLeaves = [0, 1] ∧
        ((basicController pair.2).proposes pair.2
          (.reconcile [[2]] silentRandomness)).isSome = true := by decide +kernel
  dsimp only at hfounder hjoiner
  obtain ⟨⟨byValue, rnd⟩, hbyValue⟩ := Option.isSome_iff_exists.mp hproposes
  have hissues : (basicController joiner).Issues [[2]] silentRandomness byValue :=
    ⟨joiner, rnd, rfl, hbyValue⟩
  have hactive' : joiner.activeLeaves = [0, 1] := (Group.activeLeaves_of_tree htree).trans hactive
  have hmembers : ∀ i : Bool, MemberOf founder.tree basicIdentity
      (basicController (if i then joiner else founder)) (if i then joiner else founder) := by
    rintro (_ | _)
    · exact ⟨rfl, rfl, rfl, by simp [hactive, hfounder]⟩
    · exact ⟨rfl, htree, rfl, by simp [hactive', hjoiner]⟩
  have hleaves : Function.Injective fun i : Bool => (if i then joiner else founder).ownLeaf := by
    rintro (_ | _) (_ | _) heq <;> simp_all
  obtain ⟨hone, hlowest, -⟩ := one_member_reconciles [[2]]
    (fun _ => silentRandomness) hmembers hleaves
  exact ⟨founder, joiner, byValue, hpair, hfounder, hjoiner, hissues,
    (hlowest true byValue hissues).2.2,
    fun byValue' hissues' => Bool.noConfusion (hone false true _ _ hissues' hissues)⟩

end MlsGo
