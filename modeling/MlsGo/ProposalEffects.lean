import MlsGo.GroupState
import MlsGo.RepresentationInvariant

/-!
# What proposals do to the tree

The members of a tree are its populated leaves.  Updates keep them, Removes
erase the named leaf, Adds insert the least missing one; the representation
invariant survives all three.
-/

namespace MlsGo

namespace RatchetTree

variable {t t' : RatchetTree} {L : ℕ}

def members (t : RatchetTree) : Set ℕ := {L | t.slot 0 L ≠ none}

theorem updateLeaf_members (hinv : t.RepresentationInvariant) {leaf : ℕ}
    {ln : LeafNode} (hupdate : t.updateLeaf leaf ln = .ok t') :
    t'.members = insert (leaf % 2 ^ 31) t.members := by
  obtain ⟨h, hf, -⟩ := hinv.full
  obtain ⟨-, -, hslots⟩ := hf.updateLeaf_ok hupdate
  ext M
  simp only [members, Set.mem_ofPred_eq, Set.mem_insert_iff, hslots, pow_zero, Nat.div_one]
  generalize leaf % 2 ^ 31 = L
  rcases eq_or_ne L M with rfl | hM
  · simp
  · simp [hM, hM.symm]

theorem removeLeaf_members (hinv : t.RepresentationInvariant) {leaf : ℕ}
    (hremove : t.removeLeaf leaf = .ok t') :
    t'.members = t.members \ {leaf % 2 ^ 31} := by
  obtain ⟨h, hf, -⟩ := hinv.full
  obtain ⟨h', -, -, -, hslots, -⟩ := hf.removeLeaf_ok hremove
  ext M
  simp only [members, Set.mem_ofPred_eq, Set.mem_sdiff, Set.mem_singleton_iff,
    hslots, pow_zero, Nat.div_one]
  generalize leaf % 2 ^ 31 = L
  rcases eq_or_ne L M with rfl | hM
  · simp
  · simp [hM, hM.symm]

theorem addLeaf_members (hinv : t.RepresentationInvariant) {ln : LeafNode}
    (hadd : t.addLeaf ln = .ok (L, t')) :
    (L ∉ t.members ∧ ∀ M < L, M ∈ t.members) ∧ t'.members = insert L t.members := by
  obtain ⟨h, hf, -⟩ := hinv.full
  obtain ⟨⟨hblank, hfirst⟩, -, -, hslots⟩ := hf.addLeaf_ok hadd
  refine ⟨⟨by simpa [members] using hblank, hfirst⟩, ?_⟩
  ext M
  simp only [members, Set.mem_ofPred_eq, Set.mem_insert_iff, hslots, pow_zero, Nat.div_one]
  rcases eq_or_ne L M with rfl | hM
  · simp
  · simp [hM, hM.symm]

theorem RepresentationInvariant.member_lt (hinv : t.RepresentationInvariant)
    (hmember : L ∈ t.members) : L < 2 ^ 30 := by
  obtain ⟨h, hf, -⟩ := hinv.full
  exact (hf.member_lt hmember).trans_le hf.two_pow_le

theorem RepresentationInvariant.populated (hinv : t.RepresentationInvariant)
    (hmember : L ∈ t.members) : t.Populated L := by
  obtain ⟨h, hf, -⟩ := hinv.full
  exact (hf.populated_iff_of_lt (hf.member_lt hmember)).mpr hmember

end RatchetTree

/-! ## Lists of proposals -/

variable {t t' : RatchetTree} {resolved : List Resolved} {added : List (ℕ × KeyPackage)}

def removedBy (resolved : List Resolved) : Set ℕ :=
  {L | ∃ removed sender, ⟨.remove removed, sender⟩ ∈ resolved ∧ removed.toNat % 2 ^ 31 = L}

def resolvedFrom (L : ℕ) (props : List Proposal) : List Resolved := props.map fun p => ⟨p, L⟩

theorem resolveProposals_byValue (cache : ProposalCache) (L : ℕ) (props : List Proposal) :
    resolveProposals cache L (props.map .proposal) = .ok (resolvedFrom L props) := by
  induction props with
  | nil => rfl
  | cons p rest ih =>
      rw [List.map_cons, resolveProposals, ih]
      rfl

theorem applyUpdates_spec (hinv : t.RepresentationInvariant)
    (hrun : applyUpdates t resolved = .ok t') :
    t'.RepresentationInvariant ∧ t.members ⊆ t'.members := by
  induction resolved generalizing t with
  | nil =>
      cases hrun
      exact ⟨hinv, subset_rfl⟩
  | cons r rest ih =>
      obtain ⟨p, sender⟩ := r
      cases p with
      | update ln =>
          obtain ⟨s, hstep, hrest⟩ := bind_eq_ok.mp hrun
          rw [within_eq_ok] at hstep
          obtain ⟨hinv', hsub⟩ := ih (RatchetTree.updateLeaf_invariant hinv hstep) hrest
          refine ⟨hinv', fun M hM => hsub ?_⟩
          rw [RatchetTree.updateLeaf_members hinv hstep]
          exact .inr hM
      | _ => exact ih hinv hrun

theorem applyRemoves_spec (hinv : t.RepresentationInvariant)
    (hrun : applyRemoves t resolved = .ok t') :
    t'.RepresentationInvariant ∧ t'.members = t.members \ removedBy resolved := by
  induction resolved generalizing t with
  | nil =>
      cases hrun
      simpa [removedBy] using hinv
  | cons r rest ih =>
      obtain ⟨p, sender⟩ := r
      cases p with
      | remove removed =>
          obtain ⟨s, hstep, hrest⟩ := bind_eq_ok.mp hrun
          rw [within_eq_ok] at hstep
          obtain ⟨hinv', hmembers⟩ := ih (RatchetTree.removeLeaf_invariant hinv hstep) hrest
          refine ⟨hinv', ?_⟩
          rw [hmembers, RatchetTree.removeLeaf_members hinv hstep]
          ext M
          simp only [Set.mem_sdiff, Set.mem_singleton_iff, removedBy,
            Set.mem_ofPred_eq, List.mem_cons]
          grind
      | _ =>
          obtain ⟨hinv', hmembers⟩ := ih hinv hrun
          refine ⟨hinv', hmembers.trans ?_⟩
          simp [removedBy]

theorem applyAdds_induction {motive : RatchetTree → RatchetTree → List (ℕ × KeyPackage) → Prop}
    (done : ∀ t, motive t t []) (add : ∀ t s t' li kp rest others, t.addLeaf kp.leafNode =
    .ok (li, s) → applyAdds s rest = .ok (t', others) → motive s t' others →
    motive t t' ((li, kp) :: others)) (hrun : applyAdds t resolved = .ok (t', added)) :
    motive t t' added := by
  induction resolved generalizing t added with
  | nil =>
      cases hrun
      exact done _
  | cons r rest ih =>
      obtain ⟨p, sender⟩ := r
      cases p with
      | add kp =>
          obtain ⟨⟨li, s⟩, hstep, hrest⟩ := bind_eq_ok.mp hrun
          obtain ⟨⟨s', others⟩, hothers, hresult⟩ := bind_eq_ok.mp hrest
          cases hresult
          exact add t s _ li kp rest others (within_eq_ok.mp hstep) hothers (ih hothers)
      | _ => exact ih hrun

theorem applyAdds_spec (hinv : t.RepresentationInvariant)
    (hrun : applyAdds t resolved = .ok (t', added)) :
    t'.RepresentationInvariant ∧ t'.members = t.members ∪ {L | L ∈ added.map Prod.fst} ∧
      (∀ L ∈ added.map Prod.fst, L ∉ t.members) ∧ (added.map Prod.fst).Nodup := by
  revert hinv
  refine applyAdds_induction (motive := fun t t' added => t.RepresentationInvariant →
    t'.RepresentationInvariant ∧ t'.members = t.members ∪ {L | L ∈ added.map Prod.fst} ∧
      (∀ L ∈ added.map Prod.fst, L ∉ t.members) ∧ (added.map Prod.fst).Nodup) ?done ?add hrun
  case done =>
    intro t hinv
    simpa using hinv
  case add =>
    intro t s t' li kp rest others hstep _ ih hinv
    obtain ⟨⟨hblank, -⟩, hmembers⟩ := RatchetTree.addLeaf_members hinv hstep
    obtain ⟨hinv', hall, hfresh, hnodup⟩ := ih (RatchetTree.addLeaf_invariant hinv hstep)
    rw [hmembers] at hall hfresh
    refine ⟨hinv', ?_, ?_, ?_⟩
    · rw [hall]
      ext M
      simp only [Set.mem_union, Set.mem_insert_iff, Set.mem_ofPred_eq,
        List.map_cons, List.mem_cons]
      tauto
    · rw [List.map_cons, List.forall_mem_cons]
      exact ⟨hblank, fun M hM hmem => hfresh M hM (.inr hmem)⟩
    · rw [List.map_cons, List.nodup_cons]
      exact ⟨fun hmem => hfresh li hmem (.inl rfl), hnodup⟩

/-! ## Properties of every step -/

section Keeps

variable {P : RatchetTree → Prop}

theorem applyUpdates_keeps
    (hstep : ∀ t t' ln sender, ⟨.update ln, sender⟩ ∈ resolved → P t →
      t.updateLeaf sender ln = .ok t' → P t')
    (ht : P t) (hrun : applyUpdates t resolved = .ok t') : P t' := by
  induction resolved generalizing t with
  | nil =>
      cases hrun
      exact ht
  | cons r rest ih =>
      obtain ⟨p, sender⟩ := r
      have hlater := fun t t' ln sender hmem => hstep t t' ln sender (List.mem_cons_of_mem _ hmem)
      cases p with
      | update ln =>
          obtain ⟨s, hs, hrun⟩ := bind_eq_ok.mp hrun
          exact ih hlater (hstep t s ln sender List.mem_cons_self ht (within_eq_ok.mp hs)) hrun
      | _ => exact ih hlater ht hrun

theorem applyRemoves_keeps
    (hstep : ∀ t t' removed sender, ⟨.remove removed, sender⟩ ∈ resolved → P t →
      t.removeLeaf removed.toNat = .ok t' → P t')
    (ht : P t) (hrun : applyRemoves t resolved = .ok t') : P t' := by
  induction resolved generalizing t with
  | nil =>
      cases hrun
      exact ht
  | cons r rest ih =>
      obtain ⟨p, sender⟩ := r
      have hlater := fun t t' removed sender hmem =>
        hstep t t' removed sender (List.mem_cons_of_mem _ hmem)
      cases p with
      | remove removed =>
          obtain ⟨s, hs, hrun⟩ := bind_eq_ok.mp hrun
          exact ih hlater (hstep t s removed sender List.mem_cons_self ht
            (within_eq_ok.mp hs)) hrun
      | _ => exact ih hlater ht hrun

theorem applyAdds_keeps
    (hstep : ∀ t t' L kp sender, ⟨.add kp, sender⟩ ∈ resolved → P t →
      t.addLeaf kp.leafNode = .ok (L, t') → P t')
    (ht : P t) (hrun : applyAdds t resolved = .ok (t', added)) : P t' := by
  induction resolved generalizing t added with
  | nil =>
      cases hrun
      exact ht
  | cons r rest ih =>
      obtain ⟨p, sender⟩ := r
      have hlater := fun t t' L kp sender hmem =>
        hstep t t' L kp sender (List.mem_cons_of_mem _ hmem)
      cases p with
      | add kp =>
          obtain ⟨⟨li, s⟩, hs, hrun⟩ := bind_eq_ok.mp hrun
          obtain ⟨⟨s', others⟩, hothers, hresult⟩ := bind_eq_ok.mp hrun
          cases hresult
          exact ih hlater (hstep t s li kp sender List.mem_cons_self ht
            (within_eq_ok.mp hs)) hothers
      | _ => exact ih hlater ht hrun

end Keeps

/-! ## A whole commit -/

structure ApplyRun (wt : RatchetTree) (cm : Commit) (cache : ProposalCache)
    (currentExt : List Extension) (externalPSKs : GoMap Bytes Bytes)
    (resumptionPSKs : GoMap UInt64 Bytes) (groupID : Bytes)
    (committerLeaf : ℕ) (applied : AppliedProposals) where
  resolved : List Resolved
  updated : RatchetTree
  removed : RatchetTree
  resolved_eq : resolveProposals cache committerLeaf cm.proposals = .ok resolved
  updated_eq : applyUpdates wt resolved = .ok updated
  removed_eq : applyRemoves updated resolved = .ok removed
  added_eq : applyAdds removed resolved = .ok (applied.tree, applied.added)
  psks_eq : collectPSKs externalPSKs resumptionPSKs groupID resolved = .ok applied.psks
  extensions_eq : applied.provisionalExt = applyExtensions currentExt resolved
  pathRequired_eq : applied.pathRequired = resolved.any fun r => requiresPath r.proposal

section Applied

variable {wt : RatchetTree} {cm : Commit} {cache : ProposalCache} {currentExt : List Extension}
  {externalPSKs : GoMap Bytes Bytes} {resumptionPSKs : GoMap UInt64 Bytes} {groupID : Bytes}
  {committerLeaf : ℕ} {applied : AppliedProposals}

theorem applyRun_of_applyProposals (hrun : applyProposals wt cm cache currentExt externalPSKs
    resumptionPSKs groupID committerLeaf = .ok applied) :
    Nonempty (ApplyRun wt cm cache currentExt externalPSKs resumptionPSKs
      groupID committerLeaf applied) := by
  simp only [applyProposals, bind_eq_ok, pure_ok_iff] at hrun
  obtain ⟨resolved, hresolved, updated, hupdated, removed, hremoved,
    ⟨tree, added⟩, hadded, psks, hpsks, rfl⟩ := hrun
  exact ⟨resolved, updated, removed, hresolved, hupdated, hremoved, hadded, hpsks, rfl, rfl⟩

namespace ApplyRun

variable (a : ApplyRun wt cm cache currentExt externalPSKs resumptionPSKs
  groupID committerLeaf applied)

include a

theorem keeps {P : RatchetTree → Prop}
    (hupdate : ∀ t t' ln sender, ⟨.update ln, sender⟩ ∈ a.resolved → P t →
      t.updateLeaf sender ln = .ok t' → P t')
    (hremove : ∀ t t' removed sender, ⟨.remove removed, sender⟩ ∈ a.resolved →
      P t → t.removeLeaf removed.toNat = .ok t' → P t')
    (hadd : ∀ t t' L kp sender, ⟨.add kp, sender⟩ ∈ a.resolved → P t →
      t.addLeaf kp.leafNode = .ok (L, t') → P t')
    (hwt : P wt) : P applied.tree :=
  applyAdds_keeps hadd (applyRemoves_keeps hremove
    (applyUpdates_keeps hupdate hwt a.updated_eq) a.removed_eq) a.added_eq

theorem invariant (hinv : wt.RepresentationInvariant) : applied.tree.RepresentationInvariant :=
  a.keeps (fun _ _ _ _ _ => RatchetTree.updateLeaf_invariant) (fun _ _ _ _ _ =>
    RatchetTree.removeLeaf_invariant) (fun _ _ _ _ _ _ => RatchetTree.addLeaf_invariant) hinv

theorem apply_eq {cm' : Commit} {externalPSKs' : GoMap Bytes Bytes}
    {resumptionPSKs' : GoMap UInt64 Bytes} (hcm : cm'.proposals = cm.proposals)
    (hpsks : collectPSKs externalPSKs' resumptionPSKs' groupID a.resolved =
    collectPSKs externalPSKs resumptionPSKs groupID a.resolved) :
    applyProposals wt cm' cache currentExt externalPSKs' resumptionPSKs' groupID
      committerLeaf = .ok applied := by
  simp only [applyProposals, hcm, a.resolved_eq, a.updated_eq, a.removed_eq, a.added_eq, hpsks,
    a.psks_eq, ok_bind, ← a.extensions_eq, ← a.pathRequired_eq, pure_eq_ok]

theorem member_kept (hinv : wt.RepresentationInvariant) {L : ℕ}
    (hmember : L ∈ wt.members) (hkept : L ∉ removedBy a.resolved) :
    L ∈ applied.tree.members ∧ L ∉ applied.newlyAdded := by
  obtain ⟨hinv, hsub⟩ := applyUpdates_spec hinv a.updated_eq
  obtain ⟨hinv, hmembers⟩ := applyRemoves_spec hinv a.removed_eq
  obtain ⟨-, hall, hfresh, -⟩ := applyAdds_spec hinv a.added_eq
  have hleft : L ∈ a.removed.members := by
    rw [hmembers]
    exact ⟨hsub hmember, hkept⟩
  constructor
  · rw [hall]
    exact .inl hleft
  · exact fun hadded => hfresh L hadded hleft

theorem newlyAdded_lt (hinv : wt.RepresentationInvariant) {L : ℕ}
    (hadded : L ∈ applied.newlyAdded) : L < 2 ^ 30 := by
  have hfinal := a.invariant hinv
  obtain ⟨hinv, -⟩ := applyUpdates_spec hinv a.updated_eq
  obtain ⟨hinv, -⟩ := applyRemoves_spec hinv a.removed_eq
  obtain ⟨-, hall, -⟩ := applyAdds_spec hinv a.added_eq
  apply hfinal.member_lt
  rw [hall]
  exact .inr hadded

end ApplyRun

end Applied

end MlsGo
