import MlsGo.MembershipPlans
import MlsGo.WelcomeEntry
import MlsGo.JoinerIdentity
import MlsGo.ProposalOrder

/-!
# What a won reconcile leaves

`Reconcile` goes from identities to leaves and its commit from leaves back to
identities.  The map on the way keeps one leaf for each identity, and the list of
additions repeats what the desired list repeats.  So the members afterwards are
the desired ones, each once, exactly if no identity stands twice in the tree and
no missing identity twice in the list.
-/

namespace MlsGo

variable {S : Suite} {g : Group} {leaf : ℕ} {c : Controller} {id : Bytes} {desired : List Bytes}
    {res : CommitResult} {rnd : CommitRandomness} {ids : List Bytes}

/-! ## Whose leaf it is -/

def LeafNode.holder (ln : LeafNode) : Credential × Bytes := (ln.credential, ln.signatureKey)

namespace RatchetTree

variable {t t' : RatchetTree} {L : ℕ}

def holder (t : RatchetTree) (L : ℕ) : Option (Credential × Bytes) :=
  match t.slot 0 L with
  | some (.leaf ln) => some ln.holder
  | _ => none

theorem holder_of_slot {ln : LeafNode} (hslot : t.slot 0 L = some (.leaf ln)) :
    t.holder L = some ln.holder := by
  rw [holder, hslot]

theorem holder_congr (hslot : t'.slot 0 L = t.slot 0 L) : t'.holder L = t.holder L := by
  rw [holder, holder, hslot]

theorem RepresentationInvariant.leaf_of_member (hinv : t.RepresentationInvariant)
    (hmember : L ∈ t.members) : ∃ ln, t.slot 0 L = some (.leaf ln) := by
  obtain ⟨n, hn⟩ := Option.ne_none_iff_exists'.mp hmember
  obtain ⟨ln, rfl⟩ := hinv.wellFormed.leaf_slot L n hn
  exact ⟨ln, hn⟩

theorem RepresentationInvariant.mem_members (hinv : t.RepresentationInvariant) :
    L ∈ t.members ↔ t.holder L ≠ none := by
  constructor
  · intro hmember
    obtain ⟨ln, hslot⟩ := hinv.leaf_of_member hmember
    simp [holder_of_slot hslot]
  · intro hheld hnone
    exact hheld (by rw [holder, hnone])

theorem holder_of_generateUpdatePath (hinv : t.RepresentationInvariant) {senderLeaf : ℕ}
    {leafSecret groupID : Bytes} {signer : Option Signer} {newlyAdded : List ℕ}
    {mkGroupContext : Bytes → Result Bytes} {seeds : ℕ → ℕ → Bytes} {gp : GeneratedPath}
    (hrun : t.generateUpdatePath S senderLeaf leafSecret signer groupID newlyAdded mkGroupContext
    seeds = .ok gp) (L : ℕ) :
    gp.tree.holder L = t.holder L := by
  obtain ⟨h, hf, -⟩ := hinv.full
  obtain ⟨r⟩ := pathRun_of_generateUpdatePath hrun
  obtain ⟨entries, -, hinstalled⟩ := r.installed_tree hf
  have hslot := hinstalled.slot_eq 0 L
  rw [pow_zero, Nat.div_one] at hslot
  by_cases hown : senderLeaf % 2 ^ 31 = L
  · rw [if_pos hown, if_pos rfl] at hslot
    obtain ⟨sig, hsigned⟩ := signLeafNode_ok r.leaf_eq
    rw [holder_of_slot hslot, ← hown, holder_of_slot (r.sender_slot hf).2, hsigned]
    rfl
  · rw [if_neg hown] at hslot
    exact holder_congr hslot

end RatchetTree

/-! ## What a commit does to the leaves -/

section Reseating

variable {t t' : RatchetTree} {resolved : List Resolved}

theorem applyRemoves_slot (hinv : t.RepresentationInvariant) {L : ℕ}
    (hkept : L ∉ removedBy resolved) (hrun : applyRemoves t resolved = .ok t') :
    t'.slot 0 L = t.slot 0 L := by
  have hboth : t'.RepresentationInvariant ∧ t'.slot 0 L = t.slot 0 L := by
    refine applyRemoves_keeps (P := fun s =>
      s.RepresentationInvariant ∧ s.slot 0 L = t.slot 0 L) ?_ ⟨hinv, rfl⟩ hrun
    rintro s s' removed sender hmem ⟨hinv, hsame⟩ hremove
    refine ⟨RatchetTree.removeLeaf_invariant hinv hremove, ?_⟩
    obtain ⟨h, hf, -⟩ := hinv.full
    obtain ⟨-, -, -, -, hslots, -⟩ := hf.removeLeaf_ok hremove
    rw [hslots, pow_zero, Nat.div_one, if_neg, hsame]
    exact fun heq => hkept ⟨removed, sender, hmem, heq⟩
  exact hboth.2

theorem applyAdds_slot {added : List (ℕ × KeyPackage)} (hinv : t.RepresentationInvariant)
    (hrun : applyAdds t resolved = .ok (t', added)) :
    (∀ L, L ∉ added.map Prod.fst → t'.slot 0 L = t.slot 0 L) ∧
      ∀ a ∈ added, t'.slot 0 a.1 = some (.leaf a.2.leafNode) := by
  revert hinv
  refine applyAdds_induction (motive := fun t t' added => t.RepresentationInvariant →
    (∀ L, L ∉ added.map Prod.fst → t'.slot 0 L = t.slot 0 L) ∧
      ∀ a ∈ added, t'.slot 0 a.1 = some (.leaf a.2.leafNode)) ?done ?add hrun
  case done => simp
  case add =>
    intro t s t' li kp rest others hstep hothers ih hinv
    have hinv' := RatchetTree.addLeaf_invariant hinv hstep
    obtain ⟨hsame, hseated⟩ := ih hinv'
    -- the leaf is taken now, so no later Add gets it
    have hnew : li ∉ others.map Prod.fst := by
      intro hmem
      obtain ⟨-, hmembers⟩ := RatchetTree.addLeaf_members hinv hstep
      refine (applyAdds_spec hinv' hothers).2.2.1 li hmem ?_
      rw [hmembers]
      exact .inl rfl
    obtain ⟨h, hf, -⟩ := hinv.full
    obtain ⟨-, -, -, hslots⟩ := hf.addLeaf_ok hstep
    constructor
    · intro L hL
      rw [List.map_cons, List.mem_cons, not_or] at hL
      rw [hsame L hL.2, hslots, pow_zero, Nat.div_one, if_neg (Ne.symm hL.1)]
    · rw [List.forall_mem_cons]
      refine ⟨?_, hseated⟩
      rw [hsame li hnew, hslots, pow_zero, Nat.div_one, if_pos rfl, if_pos rfl]

/-- From `t` to `t'`, the given leaves are gone, the given key packages have leaves
of their own, and all other leaves have their holders. -/
structure Reseated (t t' : RatchetTree) (removed : Set ℕ)
    (added : List (ℕ × KeyPackage)) : Prop where
  members_eq : t'.members = t.members \ removed ∪ {L | L ∈ added.map Prod.fst}
  fresh : ∀ L ∈ added.map Prod.fst, L ∉ t.members \ removed
  nodup : (added.map Prod.fst).Nodup
  kept : ∀ L ∈ t.members \ removed, t'.holder L = t.holder L
  seated : ∀ a ∈ added, t'.holder a.1 = some a.2.leafNode.holder

theorem applyUpdates_of_none (hnone : ∀ ln sender, ⟨.update ln, sender⟩ ∉ resolved) :
    applyUpdates t resolved = .ok t := by
  induction resolved with
  | nil => rfl
  | cons r rest ih =>
      obtain ⟨p, sender⟩ := r
      have hrest := ih fun ln sender hmem => hnone ln sender (List.mem_cons_of_mem _ hmem)
      cases p with
      | update ln => exact absurd List.mem_cons_self (hnone ln sender)
      | _ => exact hrest

theorem Reseated.of_applyProposals {cm : Commit} {cache : ProposalCache}
    {currentExt : List Extension} {externalPSKs : GoMap Bytes Bytes} {resumptionPSKs :
    GoMap UInt64 Bytes} {groupID : Bytes} {committerLeaf : ℕ} {applied : AppliedProposals}
    (a : ApplyRun t cm cache currentExt externalPSKs resumptionPSKs groupID committerLeaf applied)
    (hinv : t.RepresentationInvariant) (hnone : ∀ ln sender, ⟨.update ln, sender⟩ ∉ a.resolved) :
    Reseated t applied.tree (removedBy a.resolved) applied.added := by
  have hupdated := a.updated_eq
  rw [applyUpdates_of_none hnone, Except.ok.injEq] at hupdated
  have hremoved := a.removed_eq
  rw [← hupdated] at hremoved
  obtain ⟨hinvR, hleft⟩ := applyRemoves_spec hinv hremoved
  obtain ⟨-, hall, hfresh, hnodup⟩ := applyAdds_spec hinvR a.added_eq
  obtain ⟨hsame, hseated⟩ := applyAdds_slot hinvR a.added_eq
  rw [hleft] at hall hfresh
  refine ⟨hall, hfresh, hnodup, fun L hL => ?_, fun entry hentry => ?_⟩
  · have hother : L ∉ applied.added.map Prod.fst := fun hmem => hfresh L hmem hL
    exact RatchetTree.holder_congr ((hsame L hother).trans (applyRemoves_slot hinv hL.2 hremoved))
  · exact RatchetTree.holder_of_slot (hseated entry hentry)

def removedIn (byValue : List Proposal) : Set ℕ :=
  {L | ∃ removed, .remove removed ∈ byValue ∧ removed.toNat % 2 ^ 31 = L}

def addedIn (byValue : List Proposal) : List KeyPackage :=
  byValue.filterMap fun p => match p with
    | .add kp => some kp
    | _ => none

theorem reseated_of_commit {byValue : List Proposal} (hinv : g.tree.RepresentationInvariant)
    (hnone : ∀ ln, .update ln ∉ byValue) (hrun : g.commit S ⟨byValue, []⟩ rnd = .ok res) :
    res.group.tree.RepresentationInvariant ∧ res.group.ownLeaf = g.ownLeaf ∧
      ∃ added, added.map Prod.snd = addedIn byValue ∧
        Reseated g.tree res.group.tree (removedIn byValue) added := by
  obtain ⟨d, ⟨a⟩, ⟨b⟩⟩ := runs_of_commit hrun
  have happlied := a.applied_eq
  have hrefs : ([], []) = (a.refs, a.cache) := Except.ok.inj a.cache_eq
  rw [hinv.eq_of_clone a.wt_eq, ← (Prod.mk.inj hrefs).1] at happlied
  obtain ⟨run⟩ := applyRun_of_applyProposals happlied
  have hinvA := run.invariant hinv
  have hresolved : resolvedFrom g.ownLeaf byValue = run.resolved :=
    Except.ok.inj ((resolveProposals_byValue _ _ byValue).symm.trans run.resolved_eq)
  have hseats := Reseated.of_applyProposals run hinv (by
    rw [← hresolved]
    simpa [resolvedFrom] using hnone)
  have hremoved : removedBy run.resolved = removedIn byValue := by
    rw [← hresolved]
    ext L
    simp [removedBy, removedIn, resolvedFrom]
  have hadded : addedPackages run.resolved = addedIn byValue := by
    rw [← hresolved, addedPackages, resolvedFrom, List.filterMap_map]
    rfl
  have htree : res.group.tree = d.path.tree := by
    rw [b.group_eq]
    rfl
  have hinvP := generateUpdatePath_invariant hinvA a.path_eq
  have hholders := RatchetTree.holder_of_generateUpdatePath hinvA a.path_eq
  have hmembers : d.path.tree.members = d.applied.tree.members := by
    ext L
    rw [hinvP.mem_members, hinvA.mem_members, hholders]
  rw [htree]
  refine ⟨hinvP, by rw [b.group_eq]; rfl, d.applied.added,
    (applyAdds_packages run.added_eq).trans hadded, ?_⟩
  rw [← hremoved]
  exact ⟨hmembers.trans hseats.members_eq, hseats.fresh, hseats.nodup,
    fun L hL => (hholders L).trans (hseats.kept L hL),
    fun entry hentry => (hholders entry.1).trans (hseats.seated entry hentry)⟩

end Reseating

/-! ## Identities before and after -/

section Identities

variable {g g' : Group} {validate : Credential → Bytes → Except Err Bytes}

theorem Group.mem_activeLeaves_iff (hinv : g.tree.RepresentationInvariant) :
    leaf ∈ g.activeLeaves ↔ leaf ∈ g.tree.members := by
  obtain ⟨h, hf, -⟩ := hinv.full
  rw [Group.mem_activeLeaves, hf.leafCount_eq]
  constructor
  · rintro ⟨hlt, ln, hln⟩ hnone
    rw [slot_of_leafNodeAt hf hlt hln] at hnone
    cases hnone
  · intro hmember
    obtain ⟨ln, hslot⟩ := hinv.leaf_of_member hmember
    exact ⟨hf.member_lt hmember, ln, leafNodeAt_of_slot hf hslot⟩

def identityOf (validate : Credential → Bytes → Except Err Bytes)
    (who : Credential × Bytes) : Option Bytes := (validate who.1 who.2).toOption

theorem Group.identityAt_eq (hinv : g.tree.RepresentationInvariant)
    (hactive : leaf ∈ g.activeLeaves) :
    g.identityAt validate leaf = (g.tree.holder leaf).bind (identityOf validate) := by
  obtain ⟨h, hf, -⟩ := hinv.full
  obtain ⟨ln, hslot⟩ := hinv.leaf_of_member ((Group.mem_activeLeaves_iff hinv).mp hactive)
  rw [Group.identityAt, leafNodeAt_of_slot hf hslot, RatchetTree.holder_of_slot hslot]
  rfl

theorem Group.activeLeaves_nodup (g : Group) : g.activeLeaves.Nodup := List.nodup_range.filter _

namespace Reseated

variable {gone : List ℕ} {added : List (ℕ × KeyPackage)}

theorem activeLeaves_perm (hinv : g.tree.RepresentationInvariant)
    (hinv' : g'.tree.RepresentationInvariant)
    (hseats : Reseated g.tree g'.tree {L | L ∈ gone} added) :
    g'.activeLeaves.Perm (g.activeLeaves.filter (· ∉ gone) ++ added.map Prod.fst) := by
  rw [List.perm_ext_iff_of_nodup g'.activeLeaves_nodup]
  · intro leaf
    simp [Group.mem_activeLeaves_iff hinv', Group.mem_activeLeaves_iff hinv, hseats.members_eq]
  · refine List.nodup_append'.mpr ⟨g.activeLeaves_nodup.filter _, hseats.nodup, ?_⟩
    intro leaf hkept hadded
    rw [List.mem_filter, Group.mem_activeLeaves_iff hinv, decide_eq_true_eq] at hkept
    exact hseats.fresh leaf hadded hkept

theorem identities_perm (hinv : g.tree.RepresentationInvariant)
    (hinv' : g'.tree.RepresentationInvariant)
    (hseats : Reseated g.tree g'.tree {L | L ∈ gone} added) :
    (g'.activeLeaves.map (g'.identityAt validate)).Perm
      ((g.activeLeaves.filter (· ∉ gone)).map (g.identityAt validate) ++
        added.map fun a => identityOf validate a.2.leafNode.holder) := by
  have hperm := hseats.activeLeaves_perm hinv hinv'
  have hactive : ∀ leaf ∈ g.activeLeaves.filter (· ∉ gone) ++ added.map Prod.fst,
      leaf ∈ g'.activeLeaves := fun leaf hleaf => hperm.mem_iff.mpr hleaf
  refine (hperm.map _).trans (List.Perm.of_eq ?_)
  rw [List.map_append, List.map_map]
  congr 1
  · refine List.map_congr_left fun leaf hleaf => ?_
    rw [Group.identityAt_eq hinv' (hactive leaf (List.mem_append_left _ hleaf))]
    rw [List.mem_filter, decide_eq_true_eq] at hleaf
    rw [Group.identityAt_eq hinv hleaf.1, hseats.kept leaf
      ⟨(Group.mem_activeLeaves_iff hinv).mp hleaf.1, hleaf.2⟩]
  · refine List.map_congr_left fun a ha => ?_
    have hleaf : a.1 ∈ added.map Prod.fst := List.mem_map_of_mem ha
    rw [Function.comp_apply, Group.identityAt_eq hinv'
      (hactive a.1 (List.mem_append_right _ hleaf)), hseats.seated a ha]
    rfl

end Reseated

def Controller.Supplies (c : Controller)
    (validate : Credential → Bytes → Except Err Bytes) (ids : List Bytes) : Prop :=
  ∀ id ∈ ids, ∃ kpMsg kp, (c.cfg.resolve >>= fun resolve => resolve id) = some kpMsg ∧
    decodeKeyPackageMessage kpMsg = .ok kp ∧
    validate kp.leafNode.credential kp.leafNode.signatureKey = .ok id

theorem identities_of_resolveAdds {added pending : List Bytes}
    {adds : List Proposal} (hsupplies : c.Supplies validate ids)
    (hrun : resolveAdds c.cfg.resolve ids = .ok (adds, added, pending)) :
    (addedIn adds).map (fun kp => identityOf validate kp.leafNode.holder) = ids.map some := by
  induction ids generalizing adds added pending with
  | nil =>
      cases hrun
      rfl
  | cons id rest ih =>
      obtain ⟨kpMsg, kp, hresolve, hdecode, hid⟩ := hsupplies id List.mem_cons_self
      simp only [resolveAdds, hresolve, hdecode, within_ok, ok_bind, bind_eq_ok,
        pure_ok_iff] at hrun
      obtain ⟨⟨adds', added', pending'⟩, hrest, heq⟩ := hrun
      cases heq
      have hadds : addedIn (.add kp :: adds') = kp :: addedIn adds' := rfl
      have htail := ih (fun id hid => hsupplies id (List.mem_cons_of_mem _ hid)) hrest
      rw [hadds, List.map_cons, List.map_cons, htail, identityOf, LeafNode.holder, hid]
      rfl

namespace Planned

variable {c : Controller} {desired : List Bytes} {plan : ReconcilePlan}

theorem removedIn_eq (hplanned : Planned c g validate desired plan)
    (hactive : g.ownLeaf ∈ g.activeLeaves) :
    removedIn plan.proposals = {L | L ∈ g.scheduled validate desired} := by
  obtain ⟨adds, hadds, hproposals⟩ := hplanned.resolved
  have hremoves : ∀ removed, .remove removed ∉ adds := fun removed hmem => by
    obtain ⟨kp, hkp⟩ := resolveAdds_adds hadds _ hmem
    cases hkp
  have hlow : ∀ leaf ∈ g.scheduled validate desired, leaf < 2 ^ 31 := by
    intro leaf hleaf
    obtain ⟨id, hget, -⟩ := Group.mem_scheduled.mp hleaf
    exact Group.lt_of_activeLeaf (Group.identityMap_get hget).1
  have hstays := (hplanned.lowest hactive).1
  ext L
  rw [removedIn, Set.mem_ofPred_eq, Set.mem_ofPred_eq, hproposals, hplanned.removed_eq]
  constructor
  · rintro ⟨removed, hmem, rfl⟩
    rcases List.mem_append.mp hmem with hmem | hmem
    · obtain ⟨leaf, hleaf, heq⟩ := List.mem_map.mp hmem
      rw [List.mem_insertionSort, List.mem_filter] at hleaf
      have hlt := hlow leaf hleaf.1
      rw [← Proposal.remove.inj heq, UInt32.toNat_ofNat', Nat.mod_mod_of_dvd, Nat.mod_eq_of_lt hlt]
      · exact hleaf.1
      · exact ⟨2, rfl⟩
    · exact absurd hmem (hremoves removed)
  · intro hleaf
    have hlt := hlow L hleaf
    refine ⟨UInt32.ofNat L, List.mem_append_left _ (List.mem_map_of_mem ?_), ?_⟩
    · rw [List.mem_insertionSort, List.mem_filter, decide_eq_true_eq]
      exact ⟨hleaf, fun hown => hstays (hown ▸ hleaf)⟩
    · rw [UInt32.toNat_ofNat']
      omega

theorem addedIn_eq (hplanned : Planned c g validate desired plan) :
    ∃ adds, resolveAdds c.cfg.resolve (g.missing validate desired) =
        .ok (adds, plan.added, plan.pending) ∧
      addedIn plan.proposals = addedIn adds := by
  obtain ⟨adds, hadds, hproposals⟩ := hplanned.resolved
  refine ⟨adds, hadds, ?_⟩
  rw [hproposals, addedIn, List.filterMap_append, List.filterMap_map]
  simp [addedIn]

theorem no_update (hplanned : Planned c g validate desired plan) (ln : LeafNode) :
    .update ln ∉ plan.proposals := by
  obtain ⟨adds, hadds, hproposals⟩ := hplanned.resolved
  rw [hproposals]
  intro hmem
  rcases List.mem_append.mp hmem with hmem | hmem
  · obtain ⟨leaf, -, heq⟩ := List.mem_map.mp hmem
    cases heq
  · obtain ⟨kp, hkp⟩ := resolveAdds_adds hadds _ hmem
    cases hkp

theorem identities_perm (hplanned : Planned c g validate desired plan)
    (hinv : g.tree.RepresentationInvariant) (hactive : g.ownLeaf ∈ g.activeLeaves)
    (hsupplies : c.Supplies validate (g.missing validate desired))
    (hrun : g.commit S ⟨plan.proposals, []⟩ rnd = .ok res) :
    (res.group.activeLeaves.map (res.group.identityAt validate)).Perm
      ((g.activeLeaves.filter (· ∉ g.scheduled validate desired)).map
        (g.identityAt validate) ++ (g.missing validate desired).map some) := by
  obtain ⟨hinv', -, added, hpackages, hseats⟩ := reseated_of_commit hinv hplanned.no_update hrun
  obtain ⟨adds, hadds, hadded⟩ := hplanned.addedIn_eq
  rw [hplanned.removedIn_eq hactive] at hseats
  have hnew : added.map (fun a => identityOf validate a.2.leafNode.holder) =
      (g.missing validate desired).map some := by
    rw [← identities_of_resolveAdds hsupplies hadds, ← hadded, ← hpackages, List.map_map]
    rfl
  rw [← hnew]
  exact hseats.identities_perm hinv hinv'

end Planned

/-! ## Convergence -/

theorem Group.identityMap_some :
    ((g.identityMap validate).get id).isSome ↔
      some id ∈ g.activeLeaves.map (g.identityAt validate) := by
  rw [Group.identityMap_isSome, List.mem_map]

theorem Group.mem_missing :
    id ∈ g.missing validate desired ↔
      id ∈ desired ∧ some id ∉ g.activeLeaves.map (g.identityAt validate) := by
  rw [Group.missing, List.mem_filter, ← Group.identityMap_some]
  simp

theorem Group.get_of_mem_scheduled (hleaf : leaf ∈ g.scheduled validate desired)
    (hid : g.identityAt validate leaf = some id) :
    (g.identityMap validate).get id = some leaf ∧ id ∉ desired := by
  obtain ⟨found, hget, hout⟩ := Group.mem_scheduled.mp hleaf
  obtain ⟨-, hfound⟩ := Group.identityMap_get hget
  rw [hid, Option.some.injEq] at hfound
  exact hfound ▸ ⟨hget, hout⟩

theorem Group.mem_scheduled_of_nodup (hnodup : (g.activeLeaves.map (g.identityAt validate)).Nodup)
    (hactive : leaf ∈ g.activeLeaves) (hid : g.identityAt validate leaf = some id) :
    leaf ∈ g.scheduled validate desired ↔ id ∉ desired := by
  refine ⟨fun hleaf => (Group.get_of_mem_scheduled hleaf hid).2, fun hout => ?_⟩
  have hsome : ((g.identityMap validate).get id).isSome :=
    Group.identityMap_isSome.mpr ⟨leaf, hactive, hid⟩
  obtain ⟨other, hget⟩ := Option.isSome_iff_exists.mp hsome
  obtain ⟨hother, hsame⟩ := Group.identityMap_get hget
  have heq : other = leaf := List.inj_on_of_nodup_map hnodup hother hactive (hsame.trans hid.symm)
  exact Group.mem_scheduled.mpr ⟨id, heq ▸ hget, hout⟩

/-- What stays and what is added is the desired list without repetitions, exactly
if neither the tree nor the add list repeats an identity. -/
theorem Group.planned_identities_iff
    (hvalid : ∀ leaf ∈ g.activeLeaves, ∃ id, g.identityAt validate leaf = some id) :
    ((g.activeLeaves.filter (· ∉ g.scheduled validate desired)).map
        (g.identityAt validate) ++ (g.missing validate desired).map some).Perm
        (desired.dedup.map some) ↔
      (g.activeLeaves.map (g.identityAt validate)).Nodup ∧ (g.missing validate desired).Nodup := by
  have hdedup : (desired.dedup.map some).Nodup := desired.nodup_dedup.map (Option.some_injective _)
  constructor
  · intro hperm
    obtain ⟨hkept, hmissing, -⟩ := List.nodup_append'.mp (hperm.nodup_iff.mpr hdedup)
    have hdesired : ∀ leaf ∈ g.activeLeaves, leaf ∉ g.scheduled validate desired →
        ∀ id, g.identityAt validate leaf = some id → id ∈ desired := by
      intro leaf hleaf hstays id hid
      have hmem : some id ∈ desired.dedup.map some := by
        refine hperm.mem_iff.mp (List.mem_append_left _ (List.mem_map.mpr ⟨leaf, ?_, hid⟩))
        simpa using ⟨hleaf, hstays⟩
      simpa using hmem
    refine ⟨g.activeLeaves_nodup.map_on fun leaf hleaf other hother hsame => ?_, hmissing.of_map _⟩
    obtain ⟨id, hid⟩ := hvalid leaf hleaf
    have hid' : g.identityAt validate other = some id := hsame.symm.trans hid
    -- an undesired identity goes from one leaf only, so a second one would stay
    by_cases hgoes : leaf ∈ g.scheduled validate desired
    · obtain ⟨hget, hout⟩ := Group.get_of_mem_scheduled hgoes hid
      by_cases hgoes' : other ∈ g.scheduled validate desired
      · have hget' := (Group.get_of_mem_scheduled hgoes' hid').1
        exact Option.some.inj (hget.symm.trans hget')
      · exact absurd (hdesired other hother hgoes' id hid') hout
    · have hin := hdesired leaf hleaf hgoes id hid
      have hstays' : other ∉ g.scheduled validate desired :=
        fun hgoes' => (Group.get_of_mem_scheduled hgoes' hid').2 hin
      refine List.inj_on_of_nodup_map hkept ?_ ?_ hsame
      · simpa using ⟨hleaf, hgoes⟩
      · simpa using ⟨hother, hstays'⟩
  · rintro ⟨hnodup, hmissing⟩
    rw [List.perm_ext_iff_of_nodup _ hdedup]
    · intro x
      rw [List.mem_append]
      constructor
      · rintro (hx | hx)
        · obtain ⟨leaf, hleaf, rfl⟩ := List.mem_map.mp hx
          rw [List.mem_filter, decide_eq_true_eq] at hleaf
          obtain ⟨id, hid⟩ := hvalid leaf hleaf.1
          have hin := not_not.mp fun hout => hleaf.2
            ((Group.mem_scheduled_of_nodup hnodup hleaf.1 hid).mpr hout)
          simpa [hid] using hin
        · obtain ⟨id, hid, rfl⟩ := List.mem_map.mp hx
          simpa using (Group.mem_missing.mp hid).1
      · intro hx
        obtain ⟨id, hid, rfl⟩ := List.mem_map.mp hx
        rw [List.mem_dedup] at hid
        by_cases hthere : some id ∈ g.activeLeaves.map (g.identityAt validate)
        · obtain ⟨leaf, hleaf, hfound⟩ := List.mem_map.mp hthere
          refine .inl (List.mem_map.mpr ⟨leaf, ?_, hfound⟩)
          rw [List.mem_filter, decide_eq_true_eq]
          exact ⟨hleaf, fun hgoes => (Group.get_of_mem_scheduled hgoes hfound).2 hid⟩
        · exact .inr (List.mem_map_of_mem (Group.mem_missing.mpr ⟨hid, hthere⟩))
    · refine List.nodup_append'.mpr ⟨hnodup.sublist (List.filter_sublist.map _),
        hmissing.map (Option.some_injective _), ?_⟩
      intro x hx hx'
      obtain ⟨leaf, hleaf, rfl⟩ := List.mem_map.mp hx
      obtain ⟨id, hid, heq⟩ := List.mem_map.mp hx'
      rw [List.mem_filter] at hleaf
      exact (Group.mem_missing.mp hid).2 (heq ▸ List.mem_map_of_mem hleaf.1)

/-- The members are the desired ones, each once, and the next reconcile proposes
nothing. -/
def Controller.Converged (c : Controller)
    (validate : Credential → Bytes → Except Err Bytes) (desired : List Bytes) :
    Prop :=
  ∃ g, c.g = some g ∧
    (g.activeLeaves.map (g.identityAt validate)).Perm (desired.dedup.map some) ∧
    ∀ rnd byValue, ¬c.Issues desired rnd byValue

theorem Controller.not_issues_of_identities
    (hg : c.g = some g) (hvalidator : c.cfg.validator = some validate)
    (hsame : ∀ id, some id ∈ g.activeLeaves.map (g.identityAt validate) ↔ id ∈ desired)
    (rnd : CommitRandomness) (byValue : List Proposal) :
    ¬c.Issues desired rnd byValue := by
  intro hissues
  obtain ⟨plan, hplanned, -, hsome⟩ := hissues.planned hg hvalidator
  have hscheduled : g.scheduled validate desired = [] := by
    refine List.eq_nil_iff_forall_not_mem.mpr fun leaf hleaf => ?_
    obtain ⟨id, hget, hout⟩ := Group.mem_scheduled.mp hleaf
    exact hout ((hsame id).mp (Group.identityMap_some.mp (by rw [hget]; rfl)))
  have hmissing : g.missing validate desired = [] := by
    refine List.eq_nil_iff_forall_not_mem.mpr fun id hid => ?_
    obtain ⟨hin, hout⟩ := Group.mem_missing.mp hid
    exact hout ((hsame id).mpr hin)
  obtain ⟨adds, hadds, hproposals⟩ := hplanned.resolved
  rw [hmissing] at hadds
  have hnil : [] = adds := (Prod.mk.inj (Except.ok.inj hadds)).1
  rw [hproposals, hplanned.removed_eq, hscheduled, ← hnil] at hsome
  exact hsome rfl

/-- A won reconcile that keeps the acting member, with a key package for each
missing identity, converges exactly if the tree has no identity twice and the list
no missing one twice. -/
theorem reconcile_converges_iff (S : Suite) (registry : UInt16 → Option Suite)
    {c : Controller} (desired : List Bytes) (rnd : CommitRandomness)
    (hg : c.g = some g) (hvalidator : c.cfg.validator = some validate)
    (hinv : g.tree.RepresentationInvariant) (hactive : g.ownLeaf ∈ g.activeLeaves)
    (hvalid : ∀ leaf ∈ g.activeLeaves, ∃ id, g.identityAt validate leaf = some id)
    (hsupplies : c.Supplies validate (g.missing validate desired))
    (hwon : (c.reconcile S registry desired rnd).result.won = true) :
    (c.reconcile S registry desired rnd).controller.Converged validate desired ↔
      (g.activeLeaves.map (g.identityAt validate)).Nodup ∧ (g.missing validate desired).Nodup := by
  obtain ⟨g₀, plan, hg₀, hplan, -, hwon, herr, hcontroller⟩ := Controller.reconcile_won hwon
  obtain rfl := Option.some.inj (hg.symm.trans hg₀)
  have hplanned := planned_of_planReconcile hvalidator hplan
  obtain ⟨res, sa, hcommit, -, hafter⟩ := Controller.commitAndOrder_won hwon herr
  have hperm := hplanned.identities_perm hinv hactive hsupplies hcommit
  rw [hcontroller, hafter, ← Group.planned_identities_iff hvalid]
  constructor
  · rintro ⟨g', hg', hidentities, -⟩
    obtain rfl := Option.some.inj hg'
    exact hperm.symm.trans hidentities
  · intro hidentities
    have hfinal := hperm.trans hidentities
    refine ⟨res.group, rfl, hfinal,
      Controller.not_issues_of_identities rfl hvalidator fun id => ?_⟩
    rw [hfinal.mem_iff]
    simp

end Identities

/-! ### A founder and one key package -/

def founderAndPackage : Result (Group × Bytes) := do
  let g ← newGroup plainSuite (vniGroupID 7) (.basic [1]) (some ⟨[1]⟩) ⟨0, 1⟩ ⟨[1, 1], [1, 2]⟩
  let (kp, _, _) ← newKeyPackage plainSuite (.basic [2]) (some ⟨[2]⟩) ⟨0, 1⟩ ⟨[2, 1], [2, 2]⟩
  let kpMsg ← encodeKeyPackageMessage kp
  return (g, kpMsg)

theorem founderAndPackage_invariant {kpMsg : Bytes}
    (hrun : founderAndPackage = .ok (g, kpMsg)) : g.tree.RepresentationInvariant := by
  simp only [founderAndPackage, bind_eq_ok, pure_ok_iff, Prod.mk.injEq] at hrun
  obtain ⟨_, hnew, _, -, _, -, rfl, -⟩ := hrun
  exact (Membership.newGroup _ _ _ _ _ hnew).invariant.1

def resolvingController (g : Group) (kpMsg : Bytes) : Controller :=
  { basicController g with
    cfg := { (basicController g).cfg with resolve := some fun _ => some kpMsg } }

theorem resolvingController_supplies {kpMsg : Bytes}
    (hpackage : ∃ kp, decodeKeyPackageMessage kpMsg = .ok kp ∧
      basicIdentity kp.leafNode.credential kp.leafNode.signatureKey = .ok [2])
    (hids : ∀ id ∈ ids, id = [2]) : (resolvingController g kpMsg).Supplies basicIdentity ids := by
  intro id hid
  obtain ⟨kp, hdecode, htwo⟩ := hpackage
  refine ⟨kpMsg, kp, rfl, hdecode, ?_⟩
  rw [hids id hid, htwo]

/-- With the list `[1], [2]` the founder's reconcile converges. -/
theorem reconcile_converges_pair :
    ∃ g kpMsg, founderAndPackage = .ok (g, kpMsg) ∧
      ((resolvingController g kpMsg).reconcile plainSuite (fun _ => some plainSuite)
        [[1], [2]] silentRandomness).controller.Converged basicIdentity [[1], [2]] := by
  obtain ⟨⟨g, kpMsg⟩, hrun, hown, hactive, hid, hmissing, hpackage, hwon⟩ :
      ∃ pair, founderAndPackage = .ok pair ∧ pair.1.ownLeaf = 0 ∧ pair.1.activeLeaves = [0] ∧
        pair.1.identityAt basicIdentity 0 = some [1] ∧
        pair.1.missing basicIdentity [[1], [2]] = [[2]] ∧
        (∃ kp, decodeKeyPackageMessage pair.2 = .ok kp ∧
          basicIdentity kp.leafNode.credential kp.leafNode.signatureKey = .ok [2]) ∧
        ((resolvingController pair.1 pair.2).reconcile plainSuite (fun _ => some plainSuite)
          [[1], [2]] silentRandomness).result.won = true := by decide +kernel
  dsimp only at hown
  refine ⟨g, kpMsg, hrun, (reconcile_converges_iff plainSuite _ (g := g) _ _ rfl rfl
    (founderAndPackage_invariant hrun) ?_ ?_ ?_ hwon).mpr ⟨?_, ?_⟩⟩
  · simp [hactive, hown]
  · simp [hactive, hid]
  · rw [hmissing]
    exact resolvingController_supplies hpackage (by simp)
  · simp [hactive]
  · simp [hmissing]

def Controller.identities (c : Controller)
    (validate : Credential → Bytes → Except Err Bytes) : Option (List (Option Bytes)) :=
  c.g.map fun g => g.activeLeaves.map (g.identityAt validate)

theorem Controller.Converged.identities_perm {validate : Credential → Bytes → Except Err Bytes}
    (hconverged : c.Converged validate desired) {identities : List (Option Bytes)}
    (hidentities : c.identities validate = some identities) :
    identities.Perm (desired.dedup.map some) := by
  obtain ⟨g, hg, hperm, -⟩ := hconverged
  rw [Controller.identities, hg, Option.map_some, Option.some.injEq] at hidentities
  rwa [hidentities] at hperm

/-- A list that names a newcomer twice adds it twice; a list without it then takes
one of the two away. -/
theorem repeated_identity_diverges :
    ∃ g kpMsg, founderAndPackage = .ok (g, kpMsg) ∧
      g.tree.RepresentationInvariant ∧ g.activeLeaves = [g.ownLeaf] ∧
      g.identityAt basicIdentity g.ownLeaf = some [1] ∧
      (resolvingController g kpMsg).Supplies basicIdentity
        (g.missing basicIdentity [[1], [2], [2]]) ∧
      let first := (resolvingController g kpMsg).reconcile plainSuite
        (fun _ => some plainSuite) [[1], [2], [2]] silentRandomness
      let second := first.controller.reconcile plainSuite
        (fun _ => some plainSuite) [[1]] silentRandomness
      first.result.won = true ∧
      first.controller.identities basicIdentity = some [some [1], some [2], some [2]] ∧
      ¬first.controller.Converged basicIdentity [[1], [2], [2]] ∧
      second.result.won = true ∧
      second.controller.identities basicIdentity = some [some [1], some [2]] ∧
      ¬second.controller.Converged basicIdentity [[1]] := by
  obtain ⟨⟨g, kpMsg⟩, hrun, hactive, hid, hmissing, hpackage, hfirst, hwon, hsecond, hwon'⟩ :
      ∃ pair, founderAndPackage = .ok pair ∧ pair.1.activeLeaves = [pair.1.ownLeaf] ∧
        pair.1.identityAt basicIdentity pair.1.ownLeaf = some [1] ∧
        pair.1.missing basicIdentity [[1], [2], [2]] = [[2], [2]] ∧
        (∃ kp, decodeKeyPackageMessage pair.2 = .ok kp ∧
          basicIdentity kp.leafNode.credential kp.leafNode.signatureKey = .ok [2]) ∧
        let first := (resolvingController pair.1 pair.2).reconcile plainSuite
          (fun _ => some plainSuite) [[1], [2], [2]] silentRandomness
        let second := first.controller.reconcile plainSuite
          (fun _ => some plainSuite) [[1]] silentRandomness
        first.controller.identities basicIdentity = some [some [1], some [2], some [2]] ∧
          first.result.won = true ∧
          second.controller.identities basicIdentity = some [some [1], some [2]] ∧
          second.result.won = true := by decide +kernel
  refine ⟨g, kpMsg, hrun, founderAndPackage_invariant hrun, hactive, hid, ?_, hwon,
    hfirst, fun hconverged => ?_, hwon', hsecond, fun hconverged => ?_⟩
  · rw [hmissing]
    exact resolvingController_supplies hpackage (by simp)
  · exact absurd (hconverged.identities_perm hfirst).length_eq (by decide)
  · exact absurd (hconverged.identities_perm hsecond).length_eq (by decide)

end MlsGo
