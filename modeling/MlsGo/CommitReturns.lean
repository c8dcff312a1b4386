import MlsGo.GroupCoherence
import MlsGo.PathReturns
import MlsGo.ProposalOrder

/-!
# When commits return

`Commit` and `ProcessCommit` walk up from two leaves, the committer's and the
receiver's, in a tree that the proposals of the same commit may have truncated.
They return exactly if these leaves are still inside the array when they are
used, if the Adds fit into the largest tree, and if a signer is there when a
leaf is to be signed.  Nothing else in them can loop or panic.
-/

namespace MlsGo

open RatchetTree InOrderLayout

variable {S : Suite} {g : Group} {t : RatchetTree} {resolved : List Resolved} {h committerLeaf : ℕ}
    {groupID : Bytes} {opt : CommitOptions} {applied : AppliedProposals} {rnd : CommitRandomness}
    {cache : ProposalCache} {currentExt : List Extension} {externalPSKs : GoMap Bytes Bytes}
    {resumptionPSKs : GoMap UInt64 Bytes} {wt : RatchetTree} {workingPriv : TreeKEMPrivate}

/-! ## Proposals -/

theorem RatchetTree.Full.updateLeaf_returns (hf : t.Full h) (leaf : ℕ)
    (ln : LeafNode) : Returns (t.updateLeaf leaf ln) := by
  rcases Nat.lt_or_ge (leaf % 2 ^ 31) (2 ^ h) with hin | hout
  · obtain ⟨t', hrun, -⟩ := hf.updateLeaf_spec rfl hin ln
    rw [hrun]
    exact returns_ok _
  · rw [hf.updateLeaf_outside hout]
    exact returns_fail _

theorem RatchetTree.Full.removeLeaf_returns (hf : t.Full h) (leaf : ℕ) :
    Returns (t.removeLeaf leaf) := by
  rcases Nat.lt_or_ge (leaf % 2 ^ 31) (2 ^ h) with hin | hout
  · obtain ⟨t', h', -, hrun, -⟩ := hf.removeLeaf_spec rfl hin
    rw [hrun]
    exact returns_ok _
  · rw [hf.removeLeaf_outside hout]
    exact returns_fail _

theorem applyUpdates_returns (hinv : t.RepresentationInvariant) :
    Returns (applyUpdates t resolved) := by
  induction resolved generalizing t with
  | nil => exact returns_ok _
  | cons r rest ih =>
      obtain ⟨p, sender⟩ := r
      cases p with
      | update ln =>
          obtain ⟨h, hf, -⟩ := hinv.full
          refine (returns_within.mpr (hf.updateLeaf_returns sender ln)).bind ?_
          intro t' ht'
          exact ih (updateLeaf_invariant hinv (within_eq_ok.mp ht'))
      | _ => exact ih hinv

theorem applyRemoves_returns (hinv : t.RepresentationInvariant) :
    Returns (applyRemoves t resolved) := by
  induction resolved generalizing t with
  | nil => exact returns_ok _
  | cons r rest ih =>
      obtain ⟨p, sender⟩ := r
      cases p with
      | remove removed =>
          obtain ⟨h, hf, -⟩ := hinv.full
          refine (returns_within.mpr (hf.removeLeaf_returns removed.toNat)).bind ?_
          intro t' ht'
          exact ih (removeLeaf_invariant hinv (within_eq_ok.mp ht'))
      | _ => exact ih hinv

theorem RatchetTree.RepresentationInvariant.addLeaf_diverges (hinv : t.RepresentationInvariant)
    (hcard : 2 ^ 30 ≤ t.members.ncard) (ln : LeafNode) : t.addLeaf ln = .error .diverge := by
  obtain ⟨h, hf, -⟩ := hinv.full
  have hall : ∀ M < 2 ^ 30, t.slot 0 M ≠ none := by
    intro M hM
    have hfree : ¬ ∃ M < 2 ^ 30, ¬ t.Populated M := by
      rw [hinv.exists_free_iff]
      omega
    have hpopulated : t.Populated M := by
      by_contra hblank
      exact hfree ⟨M, hM, hblank⟩
    rwa [hf.populated_iff, Nat.mod_eq_of_lt (by omega)] at hpopulated
  have hh : h = 30 := by
    have hlast := hf.member_lt (hall (2 ^ 30 - 1) (by omega))
    have hle := hf.le_thirty
    by_contra hne
    have hpow : 2 ^ h ≤ 2 ^ 29 := Nat.pow_le_pow_right (by norm_num) (by omega)
    omega
  subst hh
  exact hf.addLeaf_diverges hall ln

theorem addKeyPackages_returns_iff {kps : List KeyPackage} (hinv : t.RepresentationInvariant) :
    Returns (addKeyPackages t kps) ↔ t.members.ncard + kps.length ≤ 2 ^ 30 := by
  constructor
  · intro hreturns
    induction kps generalizing t with
    | nil =>
        have hle := Set.ncard_le_ncard hinv.members_subset (Set.finite_Iio _)
        rw [← Finset.coe_Iio, Set.ncard_coe_finset, Nat.card_Iio] at hle
        simpa using hle
    | cons kp rest ih =>
        rcases Nat.lt_or_ge t.members.ncard (2 ^ 30) with hroom | hfull
        · obtain ⟨L, s, hrun, hinv', hcard⟩ := hinv.addLeaf_card hroom kp.leafNode
          rw [addKeyPackages, hrun, within_ok, ok_bind, returns_bind] at hreturns
          have hrest := ih hinv' hreturns.1
          rw [List.length_cons]
          omega
        · rw [addKeyPackages, hinv.addLeaf_diverges hfull] at hreturns
          exact absurd hreturns not_returns_diverge
  · intro hroom
    obtain ⟨t', added, hrun⟩ := addKeyPackages_ok hinv hroom
    rw [hrun]
    exact returns_ok _

theorem resolveProposals_returns (cache : ProposalCache) (committerLeaf : ℕ)
    (proposals : List ProposalOrRef) :
    Returns (resolveProposals cache committerLeaf proposals) := by
  induction proposals with
  | nil => exact returns_ok _
  | cons por rest ih =>
      cases por with
      | proposal p => simp [resolveProposals, ih]
      | reference ref =>
          rw [resolveProposals]
          cases cache.get ref with
          | none => exact returns_fail _
          | some cp => simp [ih]

theorem resolvePSK_returns (externalPSKs : GoMap Bytes Bytes) (resumptionPSKs : GoMap UInt64 Bytes)
    (groupID : Bytes) (id : PreSharedKeyID) :
    Returns (resolvePSK externalPSKs resumptionPSKs groupID id) := by
  unfold resolvePSK
  split
  · split <;> simp
  · split
    · exact returns_fail _
    · split <;> simp

theorem collectPSKs_returns (externalPSKs : GoMap Bytes Bytes)
    (resumptionPSKs : GoMap UInt64 Bytes) (groupID : Bytes) (resolved : List Resolved) :
    Returns (collectPSKs externalPSKs resumptionPSKs groupID resolved) := by
  induction resolved with
  | nil => exact returns_ok _
  | cons r rest ih =>
      obtain ⟨p, sender⟩ := r
      cases p with
      | preSharedKey id => simp [collectPSKs, resolvePSK_returns, ih]
      | _ => exact ih

theorem resolveOwnUpdatePriv_returns (cache : ProposalCache)
    (committerLeaf : ℕ) (proposals : List ProposalOrRef) :
    Returns (g.resolveOwnUpdatePriv cache committerLeaf proposals) := by
  induction proposals with
  | nil => exact returns_ok _
  | cons por rest ih =>
      unfold Group.resolveOwnUpdatePriv
      dsimp only
      split
      · split
        · exact ih
        · split <;> simp
      · exact ih

def AddsFit (wt : RatchetTree) (proposals : List ProposalOrRef)
    (cache : ProposalCache) (committerLeaf : ℕ) : Prop :=
  ∀ resolved updated removed,
    resolveProposals cache committerLeaf proposals = .ok resolved →
    applyUpdates wt resolved = .ok updated →
    applyRemoves updated resolved = .ok removed →
    removed.members.ncard + (resolved.filterMap Resolved.add?).length ≤ 2 ^ 30

theorem applyProposals_returns_iff {cm : Commit} (hinv : wt.RepresentationInvariant) :
    Returns (applyProposals wt cm cache currentExt externalPSKs resumptionPSKs
        groupID committerLeaf) ↔
      AddsFit wt cm.proposals cache committerLeaf := by
  have hadds : ∀ {resolved updated removed},
      applyUpdates wt resolved = .ok updated →
      applyRemoves updated resolved = .ok removed →
      (Returns (applyAdds removed resolved) ↔ removed.members.ncard +
        (resolved.filterMap Resolved.add?).length ≤ 2 ^ 30) := by
    intro resolved updated removed hupdated hremoved
    rw [applyAdds_eq]
    exact addKeyPackages_returns_iff
      (applyRemoves_spec (applyUpdates_spec hinv hupdated).1 hremoved).1
  rw [applyProposals, returns_bind]
  constructor
  · rintro ⟨-, hreturns⟩ resolved updated removed hresolved hupdated hremoved
    have hrest := hreturns resolved hresolved
    rw [hupdated, ok_bind, hremoved, ok_bind, returns_bind] at hrest
    exact (hadds hupdated hremoved).mp hrest.1
  · intro hfits
    refine ⟨resolveProposals_returns _ _ _, fun resolved hresolved => ?_⟩
    refine (applyUpdates_returns hinv).bind fun updated hupdated => ?_
    have hinv' := (applyUpdates_spec hinv hupdated).1
    refine (applyRemoves_returns hinv').bind fun removed hremoved => ?_
    refine ((hadds hupdated hremoved).mpr
      (hfits _ _ _ hresolved hupdated hremoved)).bind fun added _ => ?_
    simp [collectPSKs_returns]

/-! ## Sending -/

def Group.applyOptions (S : Suite) (g : Group) (opt : CommitOptions) :
    Result (List Bytes × AppliedProposals) := do
  let wt ← within "group: Commit: clone tree" g.tree.clone
  let (refs, cache) ← g.cacheProposals S "group: Commit: by-reference" opt.byReference 0 []
  let applied ← within "group: Commit: applyProposals"
    (applyProposals wt ⟨commitProposals refs opt.byValue, none⟩ cache
      g.groupContext.extensions g.externalPSKs g.resumptionPSKs
      g.groupContext.groupID g.ownLeaf)
  return (refs, applied)

structure Group.CommitFits (S : Suite) (g : Group) (opt : CommitOptions)
    (leafSecret : Bytes) : Prop where
  adds_fit : ∀ wt refs cache, g.tree.clone = .ok wt →
    g.cacheProposals S "group: Commit: by-reference" opt.byReference 0 [] = .ok (refs, cache) →
    AddsFit wt (commitProposals refs opt.byValue) cache g.ownLeaf
  leaf_held : ∀ refs applied, g.applyOptions S opt = .ok (refs, applied) →
    applied.tree.Holds g.ownLeaf
  signed : g.signer = none → ∀ refs applied d,
    g.applyOptions S opt = .ok (refs, applied) →
    draftPath S applied.tree g.ownLeaf leafSecret applied.newlyAdded = .ok d →
    ¬ d.Signable g.groupContext.groupID g.ownLeaf

theorem applyOptions_returns_iff (hguard : S.GuardFits) (hinv : g.tree.RepresentationInvariant) :
    Returns (g.applyOptions S opt) ↔ ∀ wt refs cache, g.tree.clone = .ok wt →
      g.cacheProposals S "group: Commit: by-reference" opt.byReference 0 [] = .ok (refs, cache) →
      AddsFit wt (commitProposals refs opt.byValue) cache g.ownLeaf := by
  have happly : ∀ {wt refs cache}, g.tree.clone = .ok wt →
      (Returns (applyProposals wt ⟨commitProposals refs opt.byValue, none⟩ cache
        g.groupContext.extensions g.externalPSKs g.resumptionPSKs g.groupContext.groupID
        g.ownLeaf) ↔ AddsFit wt (commitProposals refs opt.byValue) cache g.ownLeaf) := by
    intro wt refs cache hclone
    exact applyProposals_returns_iff (hinv.eq_of_clone hclone ▸ hinv)
  rw [Group.applyOptions]
  constructor
  · intro hreturns wt refs cache hclone hcache
    simp only [hclone, hcache, within_ok, ok_bind, returns_bind, returns_within] at hreturns
    exact (happly hclone).mp hreturns.1
  · intro hfits
    refine Returns.bind (by simp) fun wt hclone => ?_
    refine (cacheProposals_returns hguard g _ _ _ _).bind ?_
    rintro ⟨refs, cache⟩ hcache
    have hclone := within_eq_ok.mp hclone
    simp [(happly hclone).mpr (hfits wt refs cache hclone hcache)]

theorem invariant_of_applyOptions (hinv : g.tree.RepresentationInvariant) {refs : List Bytes}
    (hrun : g.applyOptions S opt = .ok (refs, applied)) :
    applied.tree.RepresentationInvariant := by
  simp only [Group.applyOptions, bind_eq_ok, within_eq_ok, pure_ok_iff, Prod.mk.injEq] at hrun
  obtain ⟨wt, hclone, ⟨refs', cache⟩, -, applied', happlied, rfl, rfl⟩ := hrun
  exact applyProposals_invariant (hinv.eq_of_clone hclone ▸ hinv) happlied

theorem draftCommit_eq : g.draftCommit S opt rnd = (do
      let (refs, applied) ← g.applyOptions S opt
      let path ← within "group: Commit: GenerateUpdatePath"
        (applied.tree.generateUpdatePath S g.ownLeaf rnd.leafSecret g.signer
          g.groupContext.groupID applied.newlyAdded
          (fun treeHash => (g.groupContext.next treeHash g.groupContext.confirmedTranscriptHash
            applied.provisionalExt).marshal)
          rnd.pathSeeds)
      let cm : Commit := ⟨commitProposals refs opt.byValue, some path.updatePath⟩
      let commitBody ← within "group: Commit: marshal Commit body" cm.marshal
      let fc : FramedContent := ⟨g.groupContext.groupID, g.groupContext.epoch,
        .member (UInt32.ofNat g.ownLeaf), [], contentTypeCommit, commitBody⟩
      let (confirmedInput, sig) ← within "group: Commit: SignCommit"
        (signCommit S g.signer g.groupContext fc g.wireFormat)
      let confirmed := confirmedTranscriptHash S g.interim confirmedInput
      let newTreeHash ← within "group: Commit: RootTreeHash" (path.tree.rootTreeHash S)
      let newGC := g.groupContext.next newTreeHash confirmed applied.provisionalExt
      let newGCBytes ← within "group: Commit: marshal newGC" newGC.marshal
      let psk ← within "group: Commit: PSKSecret" (pskSecret S applied.psks)
      let es ← within "group: Commit: DeriveEpochSecrets"
        (deriveEpochSecrets S g.initSecret (some path.commitSecret) (some psk) newGCBytes)
      return ⟨applied, path, fc, sig, confirmed, newGC, es,
        confirmationTag S es.confirmationKey confirmed⟩) := by
  simp only [Group.draftCommit, Group.applyOptions, bind_assoc, pure_bind]

theorem signer_of_generateUpdatePath {senderLeaf : ℕ} {leafSecret : Bytes} {signer : Option Signer}
    {newlyAdded : List ℕ} {mkGroupContext : Bytes → Result Bytes} {seeds : ℕ → ℕ → Bytes}
    {gp : GeneratedPath} (hrun : t.generateUpdatePath S senderLeaf leafSecret signer groupID
    newlyAdded mkGroupContext seeds = .ok gp) :
    ∃ key, signer = some key := by
  obtain ⟨r⟩ := pathRun_of_generateUpdatePath hrun
  have hleaf := r.leaf_eq
  cases signer with
  | some key => exact ⟨key, rfl⟩
  | none => simp [signLeafNode, Suite.signWithLabel, bind_eq_ok] at hleaf

theorem draftCommit_returns_iff (hguard : S.GuardFits) (hinv : g.tree.RepresentationInvariant) :
    Returns (g.draftCommit S opt rnd) ↔ g.CommitFits S opt rnd.leafSecret := by
  have hpath : ∀ {refs applied}, g.applyOptions S opt = .ok (refs, applied) →
      (Returns (applied.tree.generateUpdatePath S g.ownLeaf rnd.leafSecret
          g.signer g.groupContext.groupID applied.newlyAdded
          (fun treeHash => (g.groupContext.next treeHash g.groupContext.confirmedTranscriptHash
            applied.provisionalExt).marshal) rnd.pathSeeds) ↔
        applied.tree.Holds g.ownLeaf ∧ (g.signer = none → ∀ d,
          draftPath S applied.tree g.ownLeaf rnd.leafSecret applied.newlyAdded =
            .ok d → ¬ d.Signable g.groupContext.groupID g.ownLeaf)) := by
    intro refs applied hrun
    have hinv' := invariant_of_applyOptions hinv hrun
    obtain ⟨h, hf, -⟩ := hinv'.full
    exact hf.generateUpdatePath_returns_iff hinv'.wellFormed fun _ => by simp
  rw [draftCommit_eq]
  constructor
  · intro hreturns
    rw [returns_bind] at hreturns
    have hgenerates := fun refs applied hrun =>
      (hpath hrun).mp (returns_within.mp (returns_bind.mp (hreturns.2 (refs, applied) hrun)).1)
    exact ⟨(applyOptions_returns_iff hguard hinv).mp hreturns.1,
      fun refs applied hrun => (hgenerates refs applied hrun).1,
      fun hnone refs applied d hrun => (hgenerates refs applied hrun).2 hnone d⟩
  · intro hfits
    refine ((applyOptions_returns_iff hguard hinv).mpr hfits.adds_fit).bind ?_
    rintro ⟨refs, applied⟩ hrun
    have hinv' := invariant_of_applyOptions hinv hrun
    refine (returns_within.mpr ((hpath hrun).mpr ⟨hfits.leaf_held _ _ hrun,
      fun hnone d => hfits.signed hnone _ _ d hrun⟩)).bind fun path hpath => ?_
    have hgenerated := within_eq_ok.mp hpath
    obtain ⟨key, hkey⟩ := signer_of_generateUpdatePath hgenerated
    obtain ⟨h, hf, -⟩ := (generateUpdatePath_invariant hinv' hgenerated).full
    simp [hkey, hf.rootTreeHash_stops]

/-! ### Welcomes -/

theorem welcomeSecrets_returns (hf : t.Full h) (hcommitter : t.Holds committerLeaf)
    (es : EpochSecrets) (pathSecretByNode : GoMap ℕ Bytes) (pskIDs : List PreSharedKeyID)
    (encGI : Bytes) (seeds : ℕ → Bytes) (added : List (ℕ × KeyPackage)) :
    (∀ e ∈ added, t.Holds e.1) → ∀ i, Returns (welcomeSecrets S es t.leafCount
      committerLeaf pathSecretByNode pskIDs encGI seeds i added) := by
  have hh := hf.le_thirty
  induction added with
  | nil => exact fun _ _ => returns_ok _
  | cons entry rest ih =>
      obtain ⟨addedLeaf, kp⟩ := entry
      intro hheld i
      rw [List.forall_mem_cons] at hheld
      obtain ⟨k, -, hmeet⟩ := commonAncestor_inside (by omega)
        (hf.holds_iff.mp hcommitter) (hf.holds_iff.mp hheld.1)
      rw [welcomeSecrets, u32_double, u32_double, hf.leafCount_eq, hmeet, ok_bind]
      cases pathSecretByNode.get (inorder k (addedLeaf % 2 ^ 31 / 2 ^ k)) with
      | none => exact returns_err _
      | some ps =>
          have hrest := ih hheld.2 (i + 1)
          rw [hf.leafCount_eq] at hrest
          simp [KeyPackage.ref, hrest]

theorem buildWelcome_returns (hf : t.Full h) (hcommitter : t.Holds committerLeaf)
    (es : EpochSecrets) (newGC : GroupContext) (key : Signer) {added : List (ℕ × KeyPackage)}
    (hadded : ∀ e ∈ added, t.Holds e.1) (pathSecretByNode : GoMap ℕ Bytes) (confTag : Bytes)
    (pskIDs : List PreSharedKeyID) (seeds : ℕ → Bytes) :
    Returns (buildWelcome S es newGC t committerLeaf (some key) added
      pathSecretByNode confTag pskIDs seeds) := by
  simp [buildWelcome, GroupInfo.sign, welcomeSecrets_returns hf hcommitter _ _ _ _ _ _ hadded]

theorem addPathSecrets_returns (nodeText : ℕ → String) (priv : TreeKEMPrivate)
    (secrets : List (ℕ × Bytes)) :
    Returns (addPathSecrets S nodeText priv secrets) := by
  induction secrets generalizing priv with
  | nil => exact returns_ok _
  | cons entry rest ih => simp [addPathSecrets, ih]

theorem added_held {cm : Commit} (hinv : wt.RepresentationInvariant)
    (hrun : applyProposals wt cm cache currentExt externalPSKs resumptionPSKs groupID
    committerLeaf = .ok applied) (hf : applied.tree.Full h) :
    ∀ e ∈ applied.added, e.1 < 2 ^ h := by
  intro e he
  obtain ⟨a⟩ := applyRun_of_applyProposals hrun
  obtain ⟨hinv, -⟩ := applyUpdates_spec hinv a.updated_eq
  obtain ⟨hinv, -⟩ := applyRemoves_spec hinv a.removed_eq
  obtain ⟨-, hall, -⟩ := applyAdds_spec hinv a.added_eq
  have hmember : e.1 ∈ applied.tree.members := by
    rw [hall]
    exact .inr (List.mem_map_of_mem he)
  exact hf.member_lt hmember

theorem finishCommit_returns (hguard : S.GuardFits) (hinv : g.tree.RepresentationInvariant)
    {d : CommitDraft} (hdraft : g.draftCommit S opt rnd = .ok d) :
    Returns (g.finishCommit S d rnd) := by
  obtain ⟨a⟩ := draftRun_of_draftCommit hdraft
  have hwt : a.wt.RepresentationInvariant := hinv.eq_of_clone a.wt_eq ▸ hinv
  have happlied := applyProposals_invariant hwt a.applied_eq
  obtain ⟨h, hf, -⟩ := happlied.full
  have hh := hf.le_thirty
  obtain ⟨r⟩ := pathRun_of_generateUpdatePath a.path_eq
  obtain ⟨entries, -, hi⟩ := r.installed_tree hf
  obtain ⟨key, hkey⟩ := signer_of_generateUpdatePath a.path_eq
  have hcommitter : d.path.tree.Holds g.ownLeaf := hi.full.holds_iff.mpr (r.sender_slot hf).1
  have hadded : ∀ e ∈ d.applied.added, d.path.tree.Holds e.1 := by
    intro e he
    have hlt := added_held hwt a.applied_eq hf e he
    have hle : 2 ^ h ≤ 2 ^ 30 := Nat.pow_le_pow_right (by norm_num) hh
    rw [hi.full.holds_iff, Nat.mod_eq_of_lt (by omega)]
    exact hlt
  have hwelcome : Returns (g.commitWelcome S d rnd) := by
    rw [Group.commitWelcome, hkey]
    split
    · exact returns_ok _
    · simp [buildWelcome_returns hi.full hcommitter _ _ key hadded]
  have hsecret := newSecretTree_returns (S := S) hi.full.leafCount_pos
    hi.full.leafCount_le d.secrets.encryptionSecret
  simp [Group.finishCommit, assembleCommit_returns hguard, hwelcome, hsecret,
    senderPriv, addPathSecrets_returns]

theorem commit_returns_iff (hguard : S.GuardFits) (hinv : g.tree.RepresentationInvariant) :
    Returns (g.commit S opt rnd) ↔ g.CommitFits S opt rnd.leafSecret := by
  rw [Group.commit, returns_bind, draftCommit_returns_iff hguard hinv]
  exact and_iff_left fun d hd => finishCommit_returns hguard hinv hd

/-! ## Receiving -/

theorem receivePath_returns_iff (hinv : t.RepresentationInvariant) {caller : String}
    {senderLeaf : ℕ} {path : UpdatePath} {priv : TreeKEMPrivate} {encGC : Bytes → GroupContext}
    {newlyAdded : List ℕ} :
    Returns (receivePath S caller t senderLeaf path priv encGC newlyAdded) ↔
      ∀ copy, t.clone = .ok copy → t.Holds senderLeaf := by
  obtain ⟨h, hf, -⟩ := hinv.full
  rw [receivePath, returns_bind]
  simp only [returns_within, tree_clone_returns, true_and, within_eq_ok]
  refine forall_congr' fun copy => imp_congr_right fun hclone => ?_
  rw [hinv.eq_of_clone hclone, returns_bind, returns_within, hf.merge_returns_iff]
  refine and_iff_left_iff_imp.mpr fun hheld merged hmerged => ?_
  have hmerged := within_eq_ok.mp hmerged
  obtain ⟨entries, hi⟩ := hf.merge_installed rfl (hf.lt_of_merge hmerged) hmerged
  simp [hi.full.rootTreeHash_stops, hf.processUpdatePath_returns hheld,
    hf.merge_returns_iff, hheld]

theorem full_of_receiveCommitPath (hinv : applied.tree.RepresentationInvariant)
    {path : Option UpdatePath} {out : PathOutcome} (hrun : g.receiveCommitPath S applied
    committerLeaf workingPriv path = .ok out) :
    ∃ h, out.tree.Full h ∧ (out.pathSecret ≠ [] → out.tree.Holds committerLeaf) := by
  obtain ⟨h, hf, -⟩ := hinv.full
  refine ⟨h, ?_⟩
  cases path with
  | none =>
      simp only [Group.receiveCommitPath, bind_eq_ok, pure_ok_iff] at hrun
      obtain ⟨treeHash, -, rfl⟩ := hrun
      exact ⟨hf, fun hne => absurd rfl hne⟩
  | some path =>
      simp only [Group.receiveCommitPath, receivePath, bind_eq_ok, within_eq_ok,
        pure_ok_iff] at hrun
      obtain ⟨copy, -, merged, -, hash, -, gcBytes, -, ⟨ps, cs⟩, -, tree, hmerge, rfl⟩ := hrun
      have hL := hf.lt_of_merge hmerge
      obtain ⟨entries, hi⟩ := hf.merge_installed rfl hL hmerge
      exact ⟨hi.full, fun _ => hi.full.holds_iff.mpr hL⟩

theorem rebuildPriv_returns_iff (hf : t.Full h) {caller : String} {ownLeaf : ℕ}
    {pathSecret : Bytes} (hcommitter : pathSecret ≠ [] → t.Holds committerLeaf) :
    Returns (rebuildPriv S caller ownLeaf committerLeaf t.leafCount workingPriv pathSecret) ↔
      (pathSecret ≠ [] → workingPriv.privateKey (u32 (2 * ownLeaf)) ≠ none → t.Holds ownLeaf) := by
  rw [rebuildPriv]
  by_cases hnil : pathSecret = []
  · simp [hnil]
  · rw [if_neg hnil]
    cases workingPriv.privateKey (u32 (2 * ownLeaf)) with
    | none => simp
    | some key => simp [hnil, installJoinerPriv_returns_iff hf (hcommitter hnil)]

structure CommitSetup where
  applied : AppliedProposals
  workingPriv : TreeKEMPrivate
  confirmedInput : Bytes
  confTag : Bytes

def Group.setUpCommit (S : Suite) (g : Group) (cache : ProposalCache)
    (ac : AuthenticatedContent) (cm : Commit) : Result CommitSetup := do
  let committerLeaf := ac.content.sender.leafIndex
  let wt ← within "group: ProcessCommit: clone tree" g.tree.clone
  let applied ← within "group: ProcessCommit: applyProposals"
    (applyProposals wt cm cache g.groupContext.extensions g.externalPSKs
      g.resumptionPSKs g.groupContext.groupID committerLeaf)
  let ownUpdatePriv ← within "group: ProcessCommit"
    (g.resolveOwnUpdatePriv cache committerLeaf cm.proposals)
  let acBytes ← within "group: ProcessCommit: marshal AuthenticatedContent" ac.marshal
  let (confirmedInput, confTag) ←
    within "group: ProcessCommit: SplitAuthenticatedContent" (splitAuthenticatedContent S acBytes)
  return ⟨applied, g.workingPriv ownUpdatePriv, confirmedInput, confTag⟩

structure CommitEntry where
  out : PathOutcome
  newGC : GroupContext
  secrets : EpochSecrets
  interim : Bytes

def Group.enterEpoch (S : Suite) (g : Group) (ac : AuthenticatedContent)
    (cm : Commit) (setup : CommitSetup) : Result CommitEntry := do
  let confirmed := confirmedTranscriptHash S g.interim setup.confirmedInput
  let out ← g.receiveCommitPath S setup.applied ac.content.sender.leafIndex
    setup.workingPriv cm.path
  let newGC := g.groupContext.next out.treeHash confirmed setup.applied.provisionalExt
  let newGCBytes ← within "group: ProcessCommit: marshal newGC" newGC.marshal
  let psk ← within "group: ProcessCommit: PSKSecret" (pskSecret S setup.applied.psks)
  let es ← within "group: ProcessCommit: DeriveEpochSecrets"
    (deriveEpochSecrets S g.initSecret out.commitSecret (some psk) newGCBytes)
  check (confirmationTag S es.confirmationKey confirmed = setup.confTag)
    "group: ProcessCommit: confirmation_tag mismatch"
  let interim ← within "group: ProcessCommit: InterimTranscriptHash"
    (interimTranscriptHash S confirmed setup.confTag)
  return ⟨out, newGC, es, interim⟩

section Receiving

variable {cache : ProposalCache} {ac : AuthenticatedContent} {cm : Commit}

theorem processMemberCommit_eq : g.processMemberCommit S cache ac cm = (do
      let setup ← g.setUpCommit S cache ac cm
      let entry ← g.enterEpoch S ac cm setup
      let newPriv ← rebuildPriv S "group: ProcessCommit" g.ownLeaf ac.content.sender.leafIndex
        entry.out.tree.leafCount setup.workingPriv entry.out.pathSecret
      let st ← within "group: ProcessCommit: NewSecretTree"
        (newSecretTree S entry.out.tree.leafCount entry.secrets.encryptionSecret)
      return { g.advance entry.out.tree entry.newGC entry.secrets entry.interim
        newPriv st with handshakeGeneration := 0 }) := by
  simp only [Group.processMemberCommit, Group.setUpCommit, Group.enterEpoch, bind_assoc, pure_bind]

structure Group.ReceiptFits (S : Suite) (g : Group) (cache : ProposalCache)
    (ac : AuthenticatedContent) (cm : Commit) : Prop where
  adds_fit : ∀ wt, g.tree.clone = .ok wt →
    AddsFit wt cm.proposals cache ac.content.sender.leafIndex
  committer_held : ∀ setup path copy,
    g.setUpCommit S cache ac cm = .ok setup → cm.path = some path →
    setup.applied.tree.clone = .ok copy →
    setup.applied.tree.Holds ac.content.sender.leafIndex
  receiver_held : ∀ setup entry, g.setUpCommit S cache ac cm = .ok setup →
    g.enterEpoch S ac cm setup = .ok entry → entry.out.pathSecret ≠ [] →
    setup.workingPriv.privateKey (u32 (2 * g.ownLeaf)) ≠ none →
    entry.out.tree.Holds g.ownLeaf

theorem setUpCommit_returns_iff (hinv : g.tree.RepresentationInvariant) :
    Returns (g.setUpCommit S cache ac cm) ↔ ∀ wt, g.tree.clone = .ok wt →
      AddsFit wt cm.proposals cache ac.content.sender.leafIndex := by
  rw [Group.setUpCommit, returns_bind]
  simp only [returns_within, tree_clone_returns, true_and, within_eq_ok]
  refine forall_congr' fun wt => imp_congr_right fun hclone => ?_
  rw [returns_bind, returns_within, applyProposals_returns_iff (hinv.eq_of_clone hclone ▸ hinv)]
  refine and_iff_left fun applied _ => ?_
  simp [resolveOwnUpdatePriv_returns]

variable {setup : CommitSetup}

theorem invariant_of_setUpCommit (hinv : g.tree.RepresentationInvariant)
    (hrun : g.setUpCommit S cache ac cm = .ok setup) :
    setup.applied.tree.RepresentationInvariant := by
  simp only [Group.setUpCommit, bind_eq_ok, within_eq_ok, pure_ok_iff] at hrun
  obtain ⟨wt, hclone, applied, happlied, own, -, acBytes, -, split, -, rfl⟩ := hrun
  exact applyProposals_invariant (hinv.eq_of_clone hclone ▸ hinv) happlied

theorem enterEpoch_returns_iff (hinv : setup.applied.tree.RepresentationInvariant) :
    Returns (g.enterEpoch S ac cm setup) ↔ ∀ path copy, cm.path = some path →
      setup.applied.tree.clone = .ok copy →
      setup.applied.tree.Holds ac.content.sender.leafIndex := by
  obtain ⟨h, hf, -⟩ := hinv.full
  have hpath : Returns (g.receiveCommitPath S setup.applied
      ac.content.sender.leafIndex setup.workingPriv cm.path) ↔
      ∀ path copy, cm.path = some path → setup.applied.tree.clone = .ok copy →
        setup.applied.tree.Holds ac.content.sender.leafIndex := by
    cases cm.path with
    | none => simp [Group.receiveCommitPath, hf.rootTreeHash_stops]
    | some path =>
        rw [Group.receiveCommitPath, receivePath_returns_iff hinv]
        exact ⟨fun hheld _ copy _ => hheld copy, fun hheld copy => hheld path copy rfl⟩
  rw [Group.enterEpoch, returns_bind, hpath]
  exact and_iff_left fun out _ => by simp

theorem processMemberCommit_returns_iff (hinv : g.tree.RepresentationInvariant) :
    Returns (g.processMemberCommit S cache ac cm) ↔ g.ReceiptFits S cache ac cm := by
  have hrest : ∀ {setup entry}, g.setUpCommit S cache ac cm = .ok setup →
      g.enterEpoch S ac cm setup = .ok entry → ∃ h, entry.out.tree.Full h ∧
        (entry.out.pathSecret ≠ [] → entry.out.tree.Holds ac.content.sender.leafIndex) := by
    intro setup entry hsetup hentry
    simp only [Group.enterEpoch, bind_eq_ok, pure_ok_iff] at hentry
    obtain ⟨out, hout, gcBytes, -, psk, -, es, -, _, -, interim, -, rfl⟩ := hentry
    exact full_of_receiveCommitPath (invariant_of_setUpCommit hinv hsetup) hout
  rw [processMemberCommit_eq]
  constructor
  · intro hreturns
    rw [returns_bind, setUpCommit_returns_iff hinv] at hreturns
    obtain ⟨hadds, hreturns⟩ := hreturns
    refine ⟨hadds, fun setup path copy hsetup => ?_, fun setup entry hsetup hentry => ?_⟩
    · have hentry := (returns_bind.mp (hreturns setup hsetup)).1
      exact (enterEpoch_returns_iff (invariant_of_setUpCommit hinv hsetup)).mp hentry path copy
    · obtain ⟨h, hf, hcommitter⟩ := hrest hsetup hentry
      have hpriv := (returns_bind.mp (hreturns setup hsetup)).2 entry hentry
      exact (rebuildPriv_returns_iff hf hcommitter).mp (returns_bind.mp hpriv).1
  · intro hfits
    refine ((setUpCommit_returns_iff hinv).mpr hfits.adds_fit).bind ?_
    intro setup hsetup
    refine ((enterEpoch_returns_iff (invariant_of_setUpCommit hinv hsetup)).mpr
      fun path copy => hfits.committer_held setup path copy hsetup).bind ?_
    intro entry hentry
    obtain ⟨h, hf, hcommitter⟩ := hrest hsetup hentry
    refine ((rebuildPriv_returns_iff hf hcommitter).mpr
      (hfits.receiver_held setup entry hsetup hentry)).bind fun newPriv _ => ?_
    have hsecret := newSecretTree_returns (S := S) hf.leafCount_pos hf.leafCount_le
      entry.secrets.encryptionSecret
    simp [hsecret]

end Receiving

/-- `Commit` returns on every call and `ProcessCommit` on every member commit,
except where a walk starts at a leaf that the proposals have cut off, the Adds
overflow the largest tree, or a leaf is to be signed without a signer. -/
theorem commit_handling_returns_iff (hguard : S.GuardFits) {past : List Group}
    (hrun : Membership S g past) :
    (∀ opt rnd, Returns (g.commit S opt rnd) ↔ g.CommitFits S opt rnd.leafSecret) ∧
    ∀ proposals commit,
      (∀ m, unmarshalMLSMessage commit = .ok m → m.isExternalCommit = false) →
      (Returns (g.processCommit S proposals commit) ↔
        ∀ o : OpenedCommit S g proposals commit, g.ReceiptFits S o.cache o.ac o.cm) := by
  obtain ⟨hinv, -⟩ := hrun.invariant
  refine ⟨fun opt rnd => commit_returns_iff hguard hinv, ?_⟩
  intro proposals commit hmember
  constructor
  · intro hreturns o
    rw [o.processCommit_eq] at hreturns
    exact (processMemberCommit_returns_iff hinv).mp hreturns
  · intro hfits
    rw [Group.processCommit]
    refine (cacheProposals_returns hguard g _ _ _ _).bind ?_
    rintro ⟨refs, cache⟩ hcache
    refine Returns.bind (by simp) fun m hm => ?_
    have hm := within_eq_ok.mp hm
    rw [hmember m hm, if_neg Bool.false_ne_true]
    refine (openMemberCommit_returns hguard g m).bind ?_
    rintro ⟨ac, cm⟩ hopen
    exact (processMemberCommit_returns_iff hinv).mpr
      (hfits ⟨refs, cache, m, ac, cm, hcache, hm, hmember m hm, hopen⟩)

/-! ## A commit that removes its sender -/

def faultedWith {α : Type} (fault : Fault) : Result α → Bool
  | .error f => f = fault
  | .ok _ => false

theorem faultedWith_iff {α : Type} {fault : Fault} {r : Result α} :
    faultedWith fault r = true ↔ r = .error fault := by
  cases r <;> simp [faultedWith]

/-- What a member can send without going through `Commit`: the removal of its
own leaf, with an empty path. -/
def Group.sendSelfRemoval (S : Suite) (g : Group) : Result Bytes := do
  let leaf ← g.tree.leafNodeAt g.ownLeaf
  let cm : Commit := ⟨[.proposal (.remove (UInt32.ofNat g.ownLeaf))], some ⟨leaf, []⟩⟩
  let body ← cm.marshal
  let fc : FramedContent := ⟨g.groupContext.groupID, g.groupContext.epoch,
    .member (UInt32.ofNat g.ownLeaf), [], contentTypeCommit, body⟩
  let (_, sig) ← signCommit S g.signer g.groupContext fc .publicMessage
  let pm ← assembleCommitPublic S g.groupContext g.epoch.membershipKey fc sig [0]
  MLSMessage.marshal ⟨1, .publicMessage pm⟩

def selfRemoval : Result (Group × Group × Bytes) := do
  let signer (key : UInt8) : Option Signer := some ⟨[key]⟩
  let a ← newGroup plainSuite [9] (.basic [1]) (signer 1) ⟨0, 1⟩ ⟨[1, 1], [1, 2]⟩
  let (kpB, initB, leafB) ← newKeyPackage plainSuite (.basic [2]) (signer 2)
    ⟨0, 1⟩ ⟨[2, 1], [2, 2]⟩
  let r ← a.commit plainSuite ⟨[.add kpB], []⟩ ⟨[11], fun _ _ => [], ⟨0, 0, 0, 0⟩, fun _ => []⟩
  let kpBytes ← encodeKeyPackageMessage kpB
  let b ← joinFromWelcome plainSuite (r.welcome.getD []) ⟨kpBytes, initB, leafB, signer 2, [], []⟩
  let commit ← b.sendSelfRemoval plainSuite
  return (r.group, b, commit)

theorem selfRemoval_membership {a b : Group} {commit : Bytes}
    (hrun : selfRemoval = .ok (a, b, commit)) (htree : b.tree = a.tree) :
    (∃ past, Membership plainSuite a past) ∧ Membership plainSuite b [] := by
  simp only [selfRemoval, bind_eq_ok, pure_ok_iff, Prod.mk.injEq] at hrun
  obtain ⟨a₀, hnew, ⟨kpB, initB, leafB⟩, -, r, hcommit, kpBytes, -, b₀, hjoin,
    commit', -, rfl, rfl, -⟩ := hrun
  have ha : Membership plainSuite r.group [a₀] :=
    .nextEpoch (.newGroup _ _ _ _ _ hnew) (.commit _ _ hcommit)
  exact ⟨⟨_, ha⟩, .joinFromWelcome _ _ ha hjoin htree⟩

/-- `A` never returns from processing the commit of `B`, a current member, and
`B` panics when it asks `Commit` for the same removal. -/
theorem self_removal_never_processed :
    ∃ a b commit, selfRemoval = .ok (a, b, commit) ∧
      (∃ past, Membership plainSuite a past) ∧ Membership plainSuite b [] ∧
      (∃ o : OpenedCommit plainSuite a [] commit, a.tree.Populated o.ac.content.sender.leafIndex) ∧
      a.processCommit plainSuite [] commit = .error .diverge ∧
      b.commit plainSuite ⟨[.remove 1], []⟩
        ⟨[12], fun _ _ => [], ⟨0, 0, 0, 0⟩, fun _ => []⟩ = .error .panic := by
  obtain ⟨⟨a, b, commit⟩, hrun, htree, hdiverge, hpanic, m, hm, hmember, ⟨ac, cm⟩, hopen,
      hsender⟩ : ∃ run, selfRemoval = .ok run ∧ run.2.1.tree = run.1.tree ∧
      faultedWith .diverge (run.1.processCommit plainSuite [] run.2.2) = true ∧
      faultedWith .panic (run.2.1.commit plainSuite ⟨[.remove 1], []⟩
        ⟨[12], fun _ _ => [], ⟨0, 0, 0, 0⟩, fun _ => []⟩) = true ∧
      ∃ m, unmarshalMLSMessage run.2.2 = .ok m ∧ m.isExternalCommit = false ∧
        ∃ o, run.1.openMemberCommit plainSuite m = .ok o ∧
          run.1.tree.Populated o.1.content.sender.leafIndex := by decide +kernel
  obtain ⟨ha, hb⟩ := selfRemoval_membership hrun htree
  exact ⟨a, b, commit, hrun, ha, hb, ⟨⟨[], [], m, ac, cm, rfl, hm, hmember, hopen⟩, hsender⟩,
    faultedWith_iff.mp hdiverge, faultedWith_iff.mp hpanic⟩

theorem plainSuite_guardFits : plainSuite.GuardFits := by
  rintro secret info nonce ⟨⟩
  simp [plainSuite]

theorem commit_handling_returns_iff_selfRemoval :
    ∃ a b commit, selfRemoval = .ok (a, b, commit) ∧
      ((∀ opt rnd, Returns (a.commit plainSuite opt rnd) ↔
        a.CommitFits plainSuite opt rnd.leafSecret) ∧
      (Returns (a.processCommit plainSuite [] commit) ↔
        ∀ o : OpenedCommit plainSuite a [] commit,
          a.ReceiptFits plainSuite o.cache o.ac o.cm)) := by
  obtain ⟨⟨a, b, commit⟩, hrun, htree, m, hm, hmember⟩ : ∃ run, selfRemoval = .ok run ∧
      run.2.1.tree = run.1.tree ∧
      ∃ m, unmarshalMLSMessage run.2.2 = .ok m ∧ m.isExternalCommit = false := by decide +kernel
  obtain ⟨⟨past, ha⟩, -⟩ := selfRemoval_membership hrun htree
  obtain ⟨hcommit, hprocess⟩ := commit_handling_returns_iff plainSuite_guardFits ha
  refine ⟨a, b, commit, hrun, hcommit, hprocess [] commit fun m' hm' => ?_⟩
  cases hm.symm.trans hm'
  exact hmember

end MlsGo
