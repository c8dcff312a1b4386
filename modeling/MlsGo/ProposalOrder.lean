import MlsGo.LeafPlacement
import MlsGo.ProposalEffects

/-!
# The order of the proposals in a commit

Updates and Removes rewrite the path of one leaf each, and rewritings at distinct
leaves commute as functions on the slots.  The width of a tree with the
representation invariant follows from its slots, so truncation cannot tell the
orders apart.  Adds are applied to the common result in their own order.
-/

namespace MlsGo

namespace RatchetTree

variable {t t' : RatchetTree}

theorem RepresentationInvariant.ext_slots (hinv : t.RepresentationInvariant)
    (hinv' : t'.RepresentationInvariant) (hslots : t.slot = t'.slot) : t = t' := by
  obtain ⟨h, hf, hright⟩ := hinv.full
  obtain ⟨h', hf', hright'⟩ := hinv'.full
  -- a populated leaf in the right half of one tree is a leaf of the other
  have hle : ∀ {s s' : RatchetTree} {a b : ℕ}, s'.Full b → s.slot = s'.slot →
      (0 < a → ∃ L, 2 ^ (a - 1) ≤ L ∧ s.slot 0 L ≠ none) → a ≤ b := by
    intro s s' a b hb heq hhalf
    by_contra hlt
    obtain ⟨L, hL, hne⟩ := hhalf (by omega)
    rw [heq] at hne
    have hlt' := hb.member_lt hne
    have := Nat.pow_le_pow_right (show 0 < 2 by omega) (show b ≤ a - 1 by omega)
    omega
  obtain rfl : h = h' := Nat.le_antisymm (hle hf' hslots hright) (hle hf hslots.symm hright')
  exact hf.ext_slots hf' fun k j => by rw [hslots]

def rewriteLeaf (slots : ℕ → ℕ → Option Node) (L : ℕ) (x : Option Node)
    (k j : ℕ) : Option Node := if L / 2 ^ k = j then (if k = 0 then x else none) else slots k j

theorem rewriteLeaf_comm (slots : ℕ → ℕ → Option Node) {L M : ℕ} (hne : L ≠ M)
    (x y : Option Node) :
    rewriteLeaf (rewriteLeaf slots L x) M y = rewriteLeaf (rewriteLeaf slots M y) L x := by
  funext k j
  unfold rewriteLeaf
  rcases Nat.eq_zero_or_pos k with rfl | hk
  · simp only [pow_zero, Nat.div_one, if_true]
    by_cases hL : L = j
    · have hM : M ≠ j := hL ▸ hne.symm
      simp [hL, hM]
    · simp [hL]
  · simp only [hk.ne', if_false]
    split <;> split <;> rfl

theorem foldl_rewriteLeaf_perm {ops ops' : List (ℕ × Option Node)} (hperm : ops.Perm ops')
    (hnodup : (ops.map Prod.fst).Nodup) (slots : ℕ → ℕ → Option Node) :
    ops.foldl (fun s op => rewriteLeaf s op.1 op.2) slots =
      ops'.foldl (fun s op => rewriteLeaf s op.1 op.2) slots := by
  refine hperm.foldl_eq' (fun a ha b hb s => ?_) slots
  rcases eq_or_ne a b with rfl | hne
  · rfl
  · refine rewriteLeaf_comm s (fun heq => hne ?_) a.2 b.2
    exact List.inj_on_of_nodup_map hnodup ha hb heq

theorem updateLeaf_slots (hinv : t.RepresentationInvariant) {leaf : ℕ}
    (hmember : leaf % 2 ^ 31 ∈ t.members) (ln : LeafNode) :
    ∃ t', t.updateLeaf leaf ln = .ok t' ∧
      t'.slot = rewriteLeaf t.slot (leaf % 2 ^ 31) (some (.leaf ln)) := by
  obtain ⟨h, hf, -⟩ := hinv.full
  obtain ⟨t', hrun, -, hslots⟩ := hf.updateLeaf_spec rfl (hf.member_lt hmember) ln
  exact ⟨t', hrun, funext fun k => funext fun j => hslots k j⟩

theorem removeLeaf_slots (hinv : t.RepresentationInvariant) {leaf : ℕ}
    (hmember : leaf % 2 ^ 31 ∈ t.members) :
    ∃ t', t.removeLeaf leaf = .ok t' ∧ t'.slot = rewriteLeaf t.slot (leaf % 2 ^ 31) none := by
  obtain ⟨h, hf, -⟩ := hinv.full
  obtain ⟨t', -, -, hrun, -, hslots, -⟩ := hf.removeLeaf_spec rfl (hf.member_lt hmember)
  refine ⟨t', hrun, funext fun k => funext fun j => ?_⟩
  rw [hslots, rewriteLeaf]
  simp

end RatchetTree

open RatchetTree

variable {t t' : RatchetTree} {resolved resolved' : List Resolved}

/-! ## Proposals by type -/

def Resolved.update? (r : Resolved) : Option (ℕ × LeafNode) :=
  match r.proposal with
  | .update ln => some (r.sender, ln)
  | _ => none

def Resolved.remove? (r : Resolved) : Option ℕ :=
  match r.proposal with
  | .remove removed => some removed.toNat
  | _ => none

def Resolved.add? (r : Resolved) : Option KeyPackage :=
  match r.proposal with
  | .add kp => some kp
  | _ => none

def Resolved.psk? (r : Resolved) : Option PreSharedKeyID :=
  match r.proposal with
  | .preSharedKey id => some id
  | _ => none

def updateOps (resolved : List Resolved) : List (ℕ × Option Node) :=
  (resolved.filterMap Resolved.update?).map fun u => (u.1 % 2 ^ 31, some (.leaf u.2))

def removeOps (resolved : List Resolved) : List (ℕ × Option Node) :=
  (resolved.filterMap Resolved.remove?).map fun leaf => (leaf % 2 ^ 31, none)

theorem applyUpdates_slots (hinv : t.RepresentationInvariant)
    (hmembers : ∀ op ∈ updateOps resolved, op.1 ∈ t.members) :
    ∃ t', applyUpdates t resolved = .ok t' ∧ t'.RepresentationInvariant ∧ t'.members = t.members ∧
      t'.slot = (updateOps resolved).foldl (fun s op => rewriteLeaf s op.1 op.2) t.slot := by
  induction resolved generalizing t with
  | nil => exact ⟨t, rfl, hinv, rfl, rfl⟩
  | cons r rest ih =>
      obtain ⟨p, sender⟩ := r
      cases p with
      | update ln =>
          have hops : updateOps (⟨.update ln, sender⟩ :: rest) =
              (sender % 2 ^ 31, some (.leaf ln)) :: updateOps rest := rfl
          rw [hops, List.forall_mem_cons] at hmembers
          obtain ⟨s, hrun, hslots⟩ := updateLeaf_slots hinv hmembers.1 ln
          have hsame : s.members = t.members := by
            rw [updateLeaf_members hinv hrun]
            exact Set.insert_eq_of_mem hmembers.1
          obtain ⟨t', hrest, hinv', hmembers', hslots'⟩ :=
            ih (updateLeaf_invariant hinv hrun) (by rw [hsame]; exact hmembers.2)
          refine ⟨t', ?_, hinv', hmembers'.trans hsame, ?_⟩
          · rw [applyUpdates, hrun, within_ok, ok_bind, hrest]
          · rw [hslots', hops, List.foldl_cons, hslots]
      | _ => exact ih hinv hmembers

theorem applyRemoves_slots (hinv : t.RepresentationInvariant)
    (hmembers : ∀ op ∈ removeOps resolved, op.1 ∈ t.members)
    (hnodup : ((removeOps resolved).map Prod.fst).Nodup) :
    ∃ t', applyRemoves t resolved = .ok t' ∧ t'.RepresentationInvariant ∧
      t'.slot = (removeOps resolved).foldl (fun s op => rewriteLeaf s op.1 op.2) t.slot := by
  induction resolved generalizing t with
  | nil => exact ⟨t, rfl, hinv, rfl⟩
  | cons r rest ih =>
      obtain ⟨p, sender⟩ := r
      cases p with
      | remove removed =>
          have hops : removeOps (⟨.remove removed, sender⟩ :: rest) =
              (removed.toNat % 2 ^ 31, none) :: removeOps rest := rfl
          rw [hops, List.forall_mem_cons] at hmembers
          rw [hops, List.map_cons, List.nodup_cons] at hnodup
          obtain ⟨s, hrun, hslots⟩ := removeLeaf_slots hinv hmembers.1
          -- the other removed leaves are still there
          have hkept : ∀ op ∈ removeOps rest, op.1 ∈ s.members := by
            intro op hop
            rw [removeLeaf_members hinv hrun]
            refine ⟨hmembers.2 op hop, ?_⟩
            rintro heq
            exact hnodup.1 (List.mem_map.mpr ⟨op, hop, heq⟩)
          obtain ⟨t', hrest, hinv', hslots'⟩ := ih (removeLeaf_invariant hinv hrun) hkept hnodup.2
          refine ⟨t', ?_, hinv', ?_⟩
          · rw [applyRemoves, hrun, within_ok, ok_bind, hrest]
          · rw [hslots', hops, List.foldl_cons, hslots]
      | _ => exact ih hinv hmembers hnodup

def addKeyPackages (t : RatchetTree) :
    List KeyPackage → Result (RatchetTree × List (ℕ × KeyPackage))
  | [] => .ok (t, [])
  | kp :: rest => do
      let (li, t) ← within "group: applyProposals: AddLeaf" (t.addLeaf kp.leafNode)
      let (t, added) ← addKeyPackages t rest
      return (t, (li, kp) :: added)

theorem applyAdds_eq (t : RatchetTree) (resolved : List Resolved) :
    applyAdds t resolved = addKeyPackages t (resolved.filterMap Resolved.add?) := by
  induction resolved generalizing t with
  | nil => rfl
  | cons r rest ih =>
      obtain ⟨p, sender⟩ := r
      cases p with
      | add kp =>
          have hadds : (⟨.add kp, sender⟩ :: rest).filterMap Resolved.add? =
              kp :: rest.filterMap Resolved.add? := rfl
          rw [hadds, applyAdds, addKeyPackages]
          simp only [ih]
      | _ => exact ih t

theorem RatchetTree.RepresentationInvariant.members_subset
    (hinv : t.RepresentationInvariant) : t.members ⊆ Set.Iio (2 ^ 30) :=
  fun _ hM => hinv.member_lt hM

theorem RatchetTree.RepresentationInvariant.members_finite
    (hinv : t.RepresentationInvariant) : t.members.Finite :=
  (Set.finite_Iio _).subset hinv.members_subset

theorem RatchetTree.RepresentationInvariant.exists_free_iff (hinv : t.RepresentationInvariant) :
    (∃ M < 2 ^ 30, ¬ t.Populated M) ↔ t.members.ncard < 2 ^ 30 := by
  obtain ⟨h, hf, -⟩ := hinv.full
  have hpopulated : ∀ M < 2 ^ 30, t.Populated M ↔ M ∈ t.members := by
    intro M hM
    rw [hf.populated_iff, Nat.mod_eq_of_lt (by omega)]
    rfl
  have hcard : (Set.Iio (2 ^ 30)).ncard = 2 ^ 30 := by
    rw [← Finset.coe_Iio, Set.ncard_coe_finset, Nat.card_Iio]
  constructor
  · rintro ⟨M, hM, hfree⟩
    rw [← hcard]
    refine Set.ncard_lt_ncard ⟨hinv.members_subset, fun hsub => hfree ?_⟩
    exact (hpopulated M hM).mpr (hsub hM)
  · intro hlt
    by_contra! hall
    have hsub : Set.Iio (2 ^ 30) ⊆ t.members := fun M hM => (hpopulated M hM).mp (hall M hM)
    have hle := Set.ncard_le_ncard hsub hinv.members_finite
    omega

theorem RatchetTree.RepresentationInvariant.addLeaf_card (hinv : t.RepresentationInvariant)
    (hroom : t.members.ncard < 2 ^ 30) (ln : LeafNode) :
    ∃ L t', t.addLeaf ln = .ok (L, t') ∧ t'.RepresentationInvariant ∧
      t'.members.ncard = t.members.ncard + 1 := by
  obtain ⟨L, t', hrun, -⟩ := hinv.addLeaf_inserted (hinv.exists_free_iff.mpr hroom) ln
  obtain ⟨⟨hblank, -⟩, hmembers⟩ := addLeaf_members hinv hrun
  refine ⟨L, t', hrun, addLeaf_invariant hinv hrun, ?_⟩
  rw [hmembers, Set.ncard_insert_of_notMem hblank hinv.members_finite]

theorem addKeyPackages_ok {kps : List KeyPackage} (hinv : t.RepresentationInvariant)
    (hroom : t.members.ncard + kps.length ≤ 2 ^ 30) :
    ∃ t' added, addKeyPackages t kps = .ok (t', added) := by
  induction kps generalizing t with
  | nil => exact ⟨t, [], rfl⟩
  | cons kp rest ih =>
      rw [List.length_cons] at hroom
      obtain ⟨L, s, hrun, hinv', hcard⟩ := hinv.addLeaf_card (by omega) kp.leafNode
      obtain ⟨t', added, hrest⟩ := ih hinv' (by omega)
      refine ⟨t', (L, kp) :: added, ?_⟩
      simp only [addKeyPackages, hrun, within_ok, ok_bind, hrest, pure_eq_ok]

section PSKs

variable {externalPSKs : GoMap Bytes Bytes} {resumptionPSKs : GoMap UInt64 Bytes} {groupID : Bytes}

theorem collectPSKs_ok (hknown : ∀ id ∈ resolved.filterMap Resolved.psk?, ∃ psk,
    resolvePSK externalPSKs resumptionPSKs groupID id = .ok psk) :
    ∃ psks, collectPSKs externalPSKs resumptionPSKs groupID resolved = .ok psks := by
  induction resolved with
  | nil => exact ⟨[], rfl⟩
  | cons r rest ih =>
      obtain ⟨p, sender⟩ := r
      cases p with
      | preSharedKey id =>
          have hids : (⟨.preSharedKey id, sender⟩ :: rest).filterMap
              Resolved.psk? = id :: rest.filterMap Resolved.psk? := rfl
          rw [hids, List.forall_mem_cons] at hknown
          obtain ⟨psk, hpsk⟩ := hknown.1
          obtain ⟨psks, hpsks⟩ := ih hknown.2
          exact ⟨psk :: psks, by
            simp only [collectPSKs, hpsk, hpsks, ok_bind, pure_eq_ok]⟩
      | _ => exact ih hknown

end PSKs

/-! ## Permuted commits -/

section Permuted

variable {cache : ProposalCache} {committerLeaf : ℕ}

def ProposalOrRef.resolve? (cache : ProposalCache) (committerLeaf : ℕ) :
    ProposalOrRef → Option Resolved
  | .proposal p => some ⟨p, committerLeaf⟩
  | .reference ref => cache.get ref

theorem resolveProposals_eq {proposals : List ProposalOrRef}
    (hresolves : ∀ por ∈ proposals, por.resolve? cache committerLeaf ≠ none) :
    resolveProposals cache committerLeaf proposals =
      .ok (proposals.filterMap fun por => por.resolve? cache committerLeaf) := by
  induction proposals with
  | nil => rfl
  | cons por rest ih =>
      rw [List.forall_mem_cons] at hresolves
      cases por with
      | proposal p =>
          rw [resolveProposals, ih hresolves.2, ok_bind]
          rfl
      | reference ref =>
          obtain ⟨cp, hcp⟩ := Option.ne_none_iff_exists'.mp hresolves.1
          rw [List.filterMap_cons_some hcp]
          rw [ProposalOrRef.resolve?] at hcp
          simp only [resolveProposals, hcp, ih hresolves.2, ok_bind, pure_eq_ok]

def ProposalOrRef.isAdd (cache : ProposalCache) (committerLeaf : ℕ)
    (por : ProposalOrRef) : Bool := ((por.resolve? cache committerLeaf).bind Resolved.add?).isSome

theorem adds_of_filter (proposals : List ProposalOrRef) :
    (proposals.filterMap fun por => por.resolve? cache committerLeaf).filterMap Resolved.add? =
      (proposals.filter (ProposalOrRef.isAdd cache committerLeaf)).filterMap
        fun por => (por.resolve? cache committerLeaf).bind Resolved.add? := by
  rw [List.filterMap_filterMap, List.filterMap_filter]
  congr 1
  funext por
  rw [ProposalOrRef.isAdd]
  cases (por.resolve? cache committerLeaf).bind Resolved.add? <;> rfl

structure DistinctLeaves (t : RatchetTree) (resolved : List Resolved) : Prop where
  updates_member : ∀ u ∈ resolved.filterMap Resolved.update?, t.Populated u.1
  updates_distinct : ((resolved.filterMap Resolved.update?).map fun u => u32 (2 * u.1)).Nodup
  removes_member : ∀ leaf ∈ resolved.filterMap Resolved.remove?, t.Populated leaf
  removes_distinct : ((resolved.filterMap Resolved.remove?).map fun leaf => u32 (2 * leaf)).Nodup

theorem DistinctLeaves.updateOps_ok (hd : DistinctLeaves t resolved)
    (hinv : t.RepresentationInvariant) :
    (∀ op ∈ updateOps resolved, op.1 ∈ t.members) ∧ ((updateOps resolved).map Prod.fst).Nodup := by
  obtain ⟨h, hf, -⟩ := hinv.full
  constructor
  · intro op hop
    obtain ⟨u, hu, rfl⟩ := List.mem_map.mp hop
    exact hf.populated_iff.mp (hd.updates_member u hu)
  · apply List.Nodup.of_map (fun L => 2 * L)
    have hnodes := hd.updates_distinct
    simpa [updateOps, List.map_map, Function.comp_def, u32_double] using hnodes

theorem DistinctLeaves.removeOps_ok (hd : DistinctLeaves t resolved)
    (hinv : t.RepresentationInvariant) :
    (∀ op ∈ removeOps resolved, op.1 ∈ t.members) ∧ ((removeOps resolved).map Prod.fst).Nodup := by
  obtain ⟨h, hf, -⟩ := hinv.full
  constructor
  · intro op hop
    obtain ⟨leaf, hleaf, rfl⟩ := List.mem_map.mp hop
    exact hf.populated_iff.mp (hd.removes_member leaf hleaf)
  · apply List.Nodup.of_map (fun L => 2 * L)
    have hnodes := hd.removes_distinct
    simpa [removeOps, List.map_map, Function.comp_def, u32_double] using hnodes

theorem applyUpdates_perm (hinv : t.RepresentationInvariant) (hd : DistinctLeaves t resolved) :
    ∃ updated, updated.RepresentationInvariant ∧ updated.members = t.members ∧
      ∀ resolved', resolved'.Perm resolved → applyUpdates t resolved' = .ok updated := by
  obtain ⟨hmembers, hnodup⟩ := hd.updateOps_ok hinv
  obtain ⟨s, -, hs, hsame, hslots⟩ := applyUpdates_slots hinv hmembers
  refine ⟨s, hs, hsame, fun resolved' hperm => ?_⟩
  have hops : (updateOps resolved').Perm (updateOps resolved) := (hperm.filterMap _).map _
  have hmembers' : ∀ op ∈ updateOps resolved', op.1 ∈ t.members :=
    fun op hop => hmembers op (hops.mem_iff.mp hop)
  obtain ⟨s', hrun, hs', -, hslots'⟩ := applyUpdates_slots hinv hmembers'
  rw [hs.ext_slots hs' (by rw [hslots, hslots', foldl_rewriteLeaf_perm hops.symm hnodup])]
  exact hrun

theorem applyRemoves_perm (hinv : t.RepresentationInvariant)
    (hmembers : ∀ op ∈ removeOps resolved, op.1 ∈ t.members)
    (hnodup : ((removeOps resolved).map Prod.fst).Nodup) :
    ∃ removed, removed.RepresentationInvariant ∧ removed.members = t.members \ removedBy resolved ∧
      ∀ resolved', resolved'.Perm resolved → applyRemoves t resolved' = .ok removed := by
  obtain ⟨s, hrun, hs, hslots⟩ := applyRemoves_slots hinv hmembers hnodup
  refine ⟨s, hs, (applyRemoves_spec hinv hrun).2, fun resolved' hperm => ?_⟩
  have hops : (removeOps resolved').Perm (removeOps resolved) := (hperm.filterMap _).map _
  have hmembers' : ∀ op ∈ removeOps resolved', op.1 ∈ t.members :=
    fun op hop => hmembers op (hops.mem_iff.mp hop)
  obtain ⟨s', hrun', hs', hslots'⟩ := applyRemoves_slots hinv hmembers'
    ((hops.map Prod.fst).nodup_iff.mpr hnodup)
  rw [hs.ext_slots hs' (by rw [hslots, hslots', foldl_rewriteLeaf_perm hops.symm hnodup])]
  exact hrun'

theorem stages_perm (hinv : t.RepresentationInvariant) (hd : DistinctLeaves t resolved)
    (hroom : (t.members \ removedBy resolved).ncard + (resolved.filterMap Resolved.add?).length ≤
    2 ^ 30) :
    ∃ tree added, ∀ resolved', resolved'.Perm resolved →
      resolved'.filterMap Resolved.add? = resolved.filterMap Resolved.add? →
      ∃ updated removed, applyUpdates t resolved' = .ok updated ∧
        applyRemoves updated resolved' = .ok removed ∧
        applyAdds removed resolved' = .ok (tree, added) := by
  obtain ⟨updated, hinvu, hsame, hupdated⟩ := applyUpdates_perm hinv hd
  obtain ⟨hmembers, hnodup⟩ := hd.removeOps_ok hinv
  rw [← hsame] at hmembers
  obtain ⟨removed, hinvr, hleft, hremoved⟩ := applyRemoves_perm hinvu hmembers hnodup
  rw [hsame] at hleft
  obtain ⟨tree, added, hadded⟩ := addKeyPackages_ok hinvr (hleft ▸ hroom)
  refine ⟨tree, added, fun resolved' hperm hadds => ⟨updated, removed,
    hupdated resolved' hperm, hremoved resolved' hperm, ?_⟩⟩
  rw [applyAdds_eq, hadds, hadded]

variable {externalPSKs : GoMap Bytes Bytes} {resumptionPSKs : GoMap UInt64 Bytes} {groupID : Bytes}

/-- What a commit needs besides distinct leaves: references and pre-shared keys
that can be resolved, and no more than `2 ^ 30` members in the end. -/
structure Applicable (t : RatchetTree) (proposals : List ProposalOrRef)
    (cache : ProposalCache) (committerLeaf : ℕ)
    (externalPSKs : GoMap Bytes Bytes) (resumptionPSKs : GoMap UInt64 Bytes)
    (groupID : Bytes) (resolved : List Resolved) : Prop where
  resolves : ∀ por ∈ proposals, por.resolve? cache committerLeaf ≠ none
  psks_known : ∀ id ∈ resolved.filterMap Resolved.psk?,
    ∃ psk, resolvePSK externalPSKs resumptionPSKs groupID id = .ok psk
  room : (t.members \ removedBy resolved).ncard +
    (resolved.filterMap Resolved.add?).length ≤ 2 ^ 30

/-- Every order of the proposals that keeps the order of the Adds gives the same
tree and the same new members. -/
theorem proposal_order_irrelevant {S : Suite} (cm : Commit) (hreach : Reachable S t)
    {resolved : List Resolved} (hresolved : resolved = cm.proposals.filterMap fun por =>
      por.resolve? cache committerLeaf)
    (hd : DistinctLeaves t resolved)
    (happ : Applicable t cm.proposals cache committerLeaf externalPSKs
      resumptionPSKs groupID resolved)
    (currentExt : List Extension) :
    ∃ tree newlyAdded, ∀ proposals : List ProposalOrRef,
      proposals.Perm cm.proposals →
      proposals.filter (ProposalOrRef.isAdd cache committerLeaf) =
        cm.proposals.filter (ProposalOrRef.isAdd cache committerLeaf) →
      ∃ applied, applyProposals t { cm with proposals := proposals } cache
          currentExt externalPSKs resumptionPSKs groupID committerLeaf =
          .ok applied ∧
        applied.tree = tree ∧ applied.newlyAdded = newlyAdded := by
  obtain ⟨tree, added, hstages⟩ := stages_perm hreach.invariant hd happ.room
  refine ⟨tree, added.map Prod.fst, fun proposals hperm hadds => ?_⟩
  have hresolves : ∀ por ∈ proposals, por.resolve? cache committerLeaf ≠ none :=
    fun por hpor => happ.resolves por (hperm.mem_iff.mp hpor)
  have hresolve := resolveProposals_eq hresolves
  have hperm' : (proposals.filterMap fun por => por.resolve? cache committerLeaf).Perm resolved :=
    hresolved ▸ hperm.filterMap _
  have hadds' : (proposals.filterMap fun por =>
        por.resolve? cache committerLeaf).filterMap Resolved.add? =
      resolved.filterMap Resolved.add? := by
    rw [adds_of_filter, hadds, ← adds_of_filter, ← hresolved]
  generalize (proposals.filterMap fun por =>
    por.resolve? cache committerLeaf) = permuted at hresolve hperm' hadds'
  obtain ⟨updated, removed, hupdated, hremoved, hadded⟩ := hstages permuted hperm' hadds'
  have hknown : ∀ id ∈ permuted.filterMap Resolved.psk?,
      ∃ psk, resolvePSK externalPSKs resumptionPSKs groupID id = .ok psk :=
    fun id hid => happ.psks_known id ((hperm'.filterMap _).mem_iff.mp hid)
  obtain ⟨psks, hpsks⟩ := collectPSKs_ok hknown
  refine ⟨{ tree := tree
            provisionalExt := applyExtensions currentExt permuted
            psks := psks
            pathRequired := permuted.any fun r => requiresPath r.proposal
            added := added }, ?_, rfl, rfl⟩
  simp only [applyProposals, hresolve, ok_bind, hupdated, hremoved, hadded, hpsks, pure_eq_ok]

/-- The first of two members updates its leaf and removes the second. -/
theorem proposal_order_irrelevant_two_members :
    ∃ tree newlyAdded, ∀ proposals : List ProposalOrRef,
      proposals.Perm [.proposal (.update (sampleLeaf 3)), .proposal (.remove 1)] →
      proposals.filter (ProposalOrRef.isAdd [] 0) = [] →
      ∃ applied, applyProposals twoMembers ⟨proposals, none⟩ [] [] [] [] [] 0 = .ok applied ∧
        applied.tree = tree ∧ applied.newlyAdded = newlyAdded := by
  have hinv := twoMembers_reachable.invariant
  refine proposal_order_irrelevant ⟨[.proposal (.update (sampleLeaf 3)),
    .proposal (.remove 1)], none⟩ twoMembers_reachable rfl ?_ ?_ []
  · exact ⟨by decide, by decide, by decide, by decide⟩
  · refine ⟨by decide, by simp [ProposalOrRef.resolve?, Resolved.psk?], ?_⟩
    refine (Set.ncard_le_ncard (Set.sdiff_subset.trans hinv.members_subset)
      (Set.finite_Iio _)).trans ?_
    rw [← Finset.coe_Iio, Set.ncard_coe_finset, Nat.card_Iio]

/-- Neither an unknown pre-shared key nor an Add to the largest tree is applied
in any order. -/
theorem inapplicable_commits :
    (∃ proposals : List ProposalOrRef, Reachable plainSuite twoMembers ∧
      DistinctLeaves twoMembers (proposals.filterMap fun por => por.resolve? [] 0) ∧
      ∀ applied, applyProposals twoMembers ⟨proposals, none⟩ [] [] [] [] [] 0 ≠ .ok applied) ∧
    ∃ t : RatchetTree, Reachable plainSuite t ∧ ∀ kp, DistinctLeaves t [⟨.add kp, 0⟩] ∧
      applyProposals t ⟨[.proposal (.add kp)], none⟩ [] [] [] [] [] 0 = .error .diverge := by
  constructor
  · refine ⟨[.proposal (.preSharedKey ⟨.external [7], []⟩)],
      twoMembers_reachable, ⟨by decide, by decide, by decide, by decide⟩, ?_⟩
    intro applied happlied
    cases happlied
  · obtain ⟨t, hreach, hdiverges⟩ := exists_full_crowd plainSuite
    refine ⟨t, hreach, fun kp => ⟨⟨?_, ?_, ?_, ?_⟩, ?_⟩⟩
    · simp [Resolved.update?]
    · exact List.nodup_nil
    · simp [Resolved.remove?]
    · exact List.nodup_nil
    · have hadds : applyAdds t [⟨.add kp, 0⟩] = .error .diverge := by
        rw [applyAdds, hdiverges]
        rfl
      simp only [applyProposals, resolveProposals, applyUpdates, applyRemoves,
        ok_bind, pure_eq_ok, hadds, error_bind]

end Permuted

end MlsGo
