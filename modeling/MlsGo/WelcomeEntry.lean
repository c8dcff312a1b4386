import MlsGo.LimitErrors
import MlsGo.WelcomeAgreement
import MlsGo.WireLimit

/-!
# Entering by a Welcome

A commit that adds members never lacks a path secret for one of them, and what
each of them reads leads to the committer's epoch, unless the copath of the
committer carries a parent hash of the new path.  In an honest run with fresh keys
only a collision of the hash can put one there.
-/

namespace MlsGo

open InOrderLayout RatchetTree

variable {S : Suite} {cache : ProposalCache} {refs : List Bytes} {resolved : List Resolved}

/-! ## Honest runs through a commit -/

section Continued

variable {start : RatchetTree} {trees : List RatchetTree} {keys : List Bytes}

/-- Proposals of honest members: an Update comes from a member and is marked as
one, and a new leaf comes from a key package. -/
structure HonestProposals (t : RatchetTree) (resolved : List Resolved) : Prop where
  updates : ∀ ln sender, ⟨.update ln, sender⟩ ∈ resolved →
    t.Populated sender ∧ ln.leafNodeSource = .update
  adds : ∀ kp sender, ⟨.add kp, sender⟩ ∈ resolved →
    ∃ lifetime, kp.leafNode.leafNodeSource = .keyPackage lifetime

variable {cm : Commit} {cache : ProposalCache} {currentExt : List Extension}
  {externalPSKs : GoMap Bytes Bytes} {resumptionPSKs : GoMap UInt64 Bytes} {groupID : Bytes}
  {committerLeaf : ℕ} {applied : AppliedProposals}

theorem ApplyRun.continues (a : ApplyRun start cm cache currentExt externalPSKs resumptionPSKs
    groupID committerLeaf applied) (hinv : start.RepresentationInvariant)
    (hhonest : HonestRun S (start :: trees) keys) (hproposals : HonestProposals start a.resolved)
    {L : ℕ} (hmember : L ∈ start.members) (hspares : ∀ r ∈ a.resolved, r.Spares L) :
    Continues S start trees keys applied.tree := by
  -- Updates keep all members, Removes and Adds the spared one
  obtain ⟨hinv₁, hmembers₁, hcontinues₁⟩ := applyUpdates_keeps
    (P := fun t => t.RepresentationInvariant ∧ start.members ⊆ t.members ∧
      Continues S start trees keys t)
    (by
      rintro t t' ln sender hmem ⟨hinvT, hsub, hcontinues⟩ hrun
      obtain ⟨hsender, hsource⟩ := hproposals.updates ln sender hmem
      obtain ⟨h, hf, -⟩ := hinv.full
      obtain ⟨hT, hfT, -⟩ := hinvT.full
      have hpopulated : t.Populated sender :=
        hfT.populated_iff.mpr (hsub (hf.populated_iff.mp hsender))
      refine ⟨updateLeaf_invariant hinvT hrun, ?_, hcontinues.push fun rest hrest =>
        .updateLeaf sender ln hrest hpopulated hsource hrun⟩
      rw [updateLeaf_members hinvT hrun]
      exact hsub.trans (Set.subset_insert _ _))
    ⟨hinv, subset_rfl, .refl hhonest⟩ a.updated_eq
  obtain ⟨hinv₂, hmember₂, hcontinues₂⟩ := applyRemoves_keeps (P := fun t =>
    t.RepresentationInvariant ∧ L ∈ t.members ∧ Continues S start trees keys t) (by
      rintro t t' removed sender hmem ⟨hinvT, hL, hcontinues⟩ hrun
      have hinv' := removeLeaf_invariant hinvT hrun
      have hL' : L ∈ t'.members := by
        rw [removeLeaf_members hinvT hrun]
        exact ⟨hL, fun heq => hspares _ hmem heq.symm⟩
      exact ⟨hinv', hL', hcontinues.push fun rest hrest =>
        .removeLeaf removed.toNat hrest hrun ⟨L, hinv'.populated hL'⟩⟩)
    ⟨hinv₁, hmembers₁ hmember, hcontinues₁⟩ a.removed_eq
  exact (applyAdds_keeps (P := fun t => t.RepresentationInvariant ∧ Continues S start trees keys t)
    (by
      rintro t t' li kp sender hmem ⟨hinvT, hcontinues⟩ hrun
      obtain ⟨lifetime, hsource⟩ := hproposals.adds kp sender hmem
      exact ⟨addLeaf_invariant hinvT hrun, hcontinues.push fun rest hrest =>
        .addLeaf kp.leafNode hrest hsource hrun⟩)
    ⟨hinv₂, hcontinues₂⟩ a.added_eq).2

end Continued

variable {c : Group} {opt : CommitOptions} {rnd : CommitRandomness}
  {d : CommitDraft} {res : CommitResult} {past : List Group}

theorem Group.Resolves.unique {refs' : List Bytes} {cache' : ProposalCache}
    {resolved' : List Resolved}
    (hresolves : c.Resolves S opt refs cache resolved)
    (hcache : c.cacheProposals S "group: Commit: by-reference" opt.byReference 0 [] =
      .ok (refs', cache'))
    (hresolved : resolveProposals cache' c.ownLeaf
      (commitProposals refs' opt.byValue) = .ok resolved') : resolved' = resolved := by
  cases hresolves.cache_eq.symm.trans hcache
  exact Except.ok.inj (hresolved.symm.trans hresolves.resolved_eq)

theorem DraftRun.copathUnmatched_of_honestRun (a : DraftRun S c opt rnd d)
    (hinv : c.tree.RepresentationInvariant) (hmember : c.ownLeaf ∈ c.tree.members)
    (hspares : SparesCommitter S c opt) (hvalid : c.tree.verifyParentHashes S = .ok true)
    {trees : List RatchetTree} {keys : List Bytes} (hhonest : HonestRun S (c.tree :: trees) keys)
    (hresolves : c.Resolves S opt refs cache resolved)
    (hproposals : HonestProposals c.tree resolved)
    (hfresh : FreshPathKeys d.path.tree c.ownLeaf keys) :
    ∃ steps keys', HonestRun S (d.path.tree :: (steps ++ c.tree :: trees)) keys' ∧
      (Set.InjOn S.hash (runInputs S (d.path.tree :: (steps ++ c.tree :: trees))) →
        (∀ input, S.hash input ≠ []) → CopathUnmatched S d.path.tree c.ownLeaf) := by
  obtain ⟨run⟩ := applyRun_of_applyProposals a.applied_eq
  have hwt := hinv.eq_of_clone a.wt_eq
  have hsame : run.resolved = resolved := hresolves.unique a.cache_eq run.resolved_eq
  have hcontinues := run.continues (hwt ▸ hinv) (hwt ▸ hhonest)
    (by rw [hsame, hwt]; exact hproposals) (hwt ▸ hmember)
    (by rw [hsame]; exact hspares refs cache resolved hresolves)
  rw [hwt] at hcontinues
  obtain ⟨hinvA, hslot, -⟩ := a.places hinv hmember hspares
  obtain ⟨p⟩ := pathRun_of_generateUpdatePath a.path_eq
  have hown : c.ownLeaf ∈ d.applied.tree.members := by
    rw [members, Set.mem_ofPred_eq, hslot]
    exact hmember
  obtain ⟨steps, keys', hrun⟩ := hcontinues.generateUpdatePath
    (hinvA.populated hown) a.path_eq (nodeKeys_of_freshPathKeys p hinvA hfresh)
  refine ⟨steps, keys', hrun, fun hinj hdigest => ?_⟩
  obtain ⟨hrep, hmatched⟩ := hrun.invariant _ _ rfl
  exact (a.verifyParentHashes_iff hinv hmember hspares hvalid).mp
    (hmatched.verify hrep hinj (parentHashInputs_subset _ _) hdigest)

/-! ## Agreement -/

def addedPackages (resolved : List Resolved) : List KeyPackage :=
  resolved.filterMap fun r => match r.proposal with
    | .add kp => some kp
    | _ => none

theorem applyAdds_packages {t t' : RatchetTree}
    {added : List (ℕ × KeyPackage)} (hrun : applyAdds t resolved = .ok (t', added)) :
    added.map Prod.snd = addedPackages resolved := by
  induction resolved generalizing t added with
  | nil =>
      cases hrun
      rfl
  | cons r rest ih =>
      obtain ⟨p, sender⟩ := r
      cases p with
      | add kp =>
          obtain ⟨⟨li, s⟩, -, hrest⟩ := bind_eq_ok.mp hrun
          obtain ⟨⟨s', others⟩, hothers, hresult⟩ := bind_eq_ok.mp hrest
          cases hresult
          rw [List.map_cons, ih hothers]
          rfl
      | _ => exact ih hrun

theorem DraftRun.addedPackages_eq (a : DraftRun S c opt rnd d)
    (hresolves : c.Resolves S opt refs cache resolved) :
    d.applied.added.map Prod.snd = addedPackages resolved := by
  obtain ⟨run⟩ := applyRun_of_applyProposals a.applied_eq
  rw [applyAdds_packages run.added_eq, hresolves.unique a.cache_eq run.resolved_eq]

def EntersBy (S : Suite) (welcome : Bytes) (jopt : JoinOptions) (leaf : ℕ)
    (g : Group) : Prop :=
  ∃ g', joinFromWelcome S welcome jopt = .ok g' ∧ g'.ownLeaf = leaf ∧ SameEpoch g g'

theorem WelcomeRun.entersBy_iff {welcome : Bytes} (a : DraftRun S c opt rnd d)
    (w : WelcomeRun S c d rnd welcome) (b : FinishRun S c d rnd res) (hlaws : SuiteLaws S)
    (hkdf : KdfLaws S) (hinv : c.tree.RepresentationInvariant)
    (hmember : c.ownLeaf ∈ c.tree.members) (hspares : SparesCommitter S c opt)
    (hsigns : c.SignsAsLeaf S) (hvalid : TreeValid S c.groupContext.groupID c.tree)
    (hwelcoming : Welcoming S c opt d) {leaf : ℕ} {kp : KeyPackage} {jopt : JoinOptions}
    (hmem : (leaf, kp) ∈ d.applied.added) (hjoins : JoinsWith S d kp jopt) :
    EntersBy S welcome jopt leaf res.group ↔ CopathUnmatched S d.path.tree c.ownLeaf := by
  constructor
  · rintro ⟨g', hjoin, -, -⟩
    obtain ⟨jr⟩ := joinRun_of_joinFromWelcome hjoin
    exact w.copathUnmatched_of_joinRun a hinv hmember hspares hlaws hsigns hvalid
      hwelcoming hmem hjoins jr
  · intro hcopath
    obtain ⟨jr, hleaf, hsame⟩ := w.exists_joinRun a hinv hmember hspares hlaws hsigns
      hvalid hwelcoming hkdf b hmem hjoins hcopath
    exact ⟨jr.result, jr.joinFromWelcome_eq, hleaf, hsame⟩

/-- Entry by a Welcome, from a member state with a valid tree.  The commit never
lacks a path secret.  If it succeeds and adds members, then each of them enters
the committer's epoch at its assigned leaf, exactly if no parent hash on the
committer's copath interferes; and with fresh keys only a collision of the hash can
interfere. -/
theorem welcome_agrees (hlaws : SuiteLaws S) (hkdf : KdfLaws S)
    (hrun : Membership S c past) (hmember : c.ownLeaf ∈ c.tree.members)
    (hsigns : c.SignsAsLeaf S) (hvalid : TreeValid S c.groupContext.groupID c.tree)
    (hspares : SparesCommitter S c opt) (rnd : CommitRandomness) :
    ¬ WantsPathSecret (c.commit S opt rnd) ∧
    ∀ refs cache resolved d res, c.Resolves S opt refs cache resolved →
      addedPackages resolved ≠ [] → c.draftCommit S opt rnd = .ok d →
      c.commit S opt rnd = .ok res → Welcoming S c opt d →
      d.applied.added.map Prod.snd = addedPackages resolved ∧
      (∃ welcome, res.welcome = some welcome ∧
        ∀ leaf kp jopt, (leaf, kp) ∈ d.applied.added → JoinsWith S d kp jopt →
          (EntersBy S welcome jopt leaf res.group ↔ CopathUnmatched S res.group.tree c.ownLeaf)) ∧
      ∀ trees keys, HonestRun S (c.tree :: trees) keys →
        HonestProposals c.tree resolved →
        FreshPathKeys res.group.tree c.ownLeaf keys →
        ∃ steps keys',
          HonestRun S (res.group.tree :: (steps ++ c.tree :: trees)) keys' ∧
          (Set.InjOn S.hash (runInputs S (res.group.tree :: (steps ++ c.tree :: trees))) →
            (∀ input, S.hash input ≠ []) → CopathUnmatched S res.group.tree c.ownLeaf) := by
  have hinv := hrun.invariant.1
  refine ⟨commit_not_wantsPathSecret hinv hmember hspares, ?_⟩
  intro refs cache resolved d res hresolves hadds hdraft hcommit hwelcoming
  obtain ⟨a⟩ := draftRun_of_draftCommit hdraft
  rw [Group.commit, hdraft, ok_bind] at hcommit
  obtain ⟨b⟩ := finishRun_of_finishCommit hcommit
  have htree : res.group.tree = d.path.tree := by
    rw [b.group_eq]
    rfl
  have hpackages := a.addedPackages_eq hresolves
  have hadded : d.applied.added ≠ [] := by
    intro hnil
    rw [hnil] at hpackages
    exact hadds hpackages.symm
  obtain ⟨welcome, hwelcome, ⟨w⟩⟩ := welcomeRun_of_commitWelcome b.welcome_eq hadded
  rw [htree]
  refine ⟨hpackages, ⟨welcome, hwelcome, fun leaf kp jopt hmem hjoins => ?_⟩,
    fun trees keys hhonest hproposals hfresh => ?_⟩
  · exact w.entersBy_iff a b hlaws hkdf hinv hmember hspares hsigns hvalid hwelcoming hmem hjoins
  · exact a.copathUnmatched_of_honestRun hinv hmember hspares hvalid.parentHashes
      hhonest hresolves hproposals hfresh

/-! ### A run -/

structure TwoJoiners where
  a : Group
  d : CommitDraft
  res : CommitResult
  kpB : KeyPackage
  kpC : KeyPackage
  joinB : JoinOptions
  joinC : JoinOptions

def TwoJoiners.adds (run : TwoJoiners) : CommitOptions := ⟨[.add run.kpB, .add run.kpC], []⟩

def admitTwo (seedC : Bytes) : Result TwoJoiners := do
  let a ← newGroup plainSuite [9] (.basic [1]) (some ⟨[1]⟩) ⟨0, 1⟩ ⟨[1, 1], [1, 2]⟩
  let (kpB, initB, leafB) ← newKeyPackage plainSuite (.basic [2]) (some ⟨[2]⟩) ⟨0, 1⟩
    ⟨[2, 1], [2, 2]⟩
  let (kpC, initC, leafC) ← newKeyPackage plainSuite (.basic [3]) (some ⟨[3]⟩) ⟨0, 1⟩
    ⟨seedC, [3, 2]⟩
  let d ← a.draftCommit plainSuite ⟨[.add kpB, .add kpC], []⟩ noRandomness
  let res ← a.commit plainSuite ⟨[.add kpB, .add kpC], []⟩ noRandomness
  let bytesB ← encodeKeyPackageMessage kpB
  let bytesC ← encodeKeyPackageMessage kpC
  return ⟨a, d, res, kpB, kpC, ⟨bytesB, initB, leafB, some ⟨[2]⟩, [], []⟩,
    ⟨bytesC, initC, leafC, some ⟨[3]⟩, [], []⟩⟩

theorem LeafNode.verifySignature_keyPackage {l : LeafNode} {lifetime : Lifetime}
    (hsource : l.leafNodeSource = .keyPackage lifetime) (groupID groupID' : Bytes) (L M : ℕ) :
    l.verifySignature S groupID L = l.verifySignature S groupID' M := by
  simp only [LeafNode.verifySignature, LeafNode.tbs, hsource]

structure TwoJoiners.Sound (run : TwoJoiners) : Prop where
  membership : Membership plainSuite run.a []
  member : run.a.ownLeaf ∈ run.a.tree.members
  signs : run.a.SignsAsLeaf plainSuite
  valid : TreeValid plainSuite run.a.groupContext.groupID run.a.tree
  draft_eq : run.a.draftCommit plainSuite run.adds noRandomness = .ok run.d
  commit_eq : run.a.commit plainSuite run.adds noRandomness = .ok run.res
  signed : ∀ kp ∈ [run.kpB, run.kpC], ∀ L,
    kp.leafNode.verifySignature plainSuite run.a.groupContext.groupID L = .ok true
  distinct : ∀ L M l l', L ≠ M → run.d.path.tree.slot 0 L = some (.leaf l) →
    run.d.path.tree.slot 0 M = some (.leaf l') → KeysDiffer l l'
  psks : run.d.applied.psks = []
  added : run.d.applied.added = [(1, run.kpB), (2, run.kpC)]
  joinsB : JoinsWith plainSuite run.d run.kpB run.joinB
  joinsC : JoinsWith plainSuite run.d run.kpC run.joinC

def TwoJoiners.check (run : TwoJoiners) : Bool :=
  decide (run.a.tree.slot 0 run.a.ownLeaf ≠ none) &&
  (((run.a.tree.leafNodeAt run.a.ownLeaf).toOption.any fun ln =>
    decide (plainSuite.publicKeyOf run.a.signer = .ok ln.signatureKey)) &&
  (decide (run.a.tree.verifyParentHashes plainSuite = .ok true) &&
  (decide (run.a.tree.verifyLeafSignatures plainSuite run.a.groupContext.groupID = .ok ()) &&
  (decide (run.d.path.tree.verifyLeafSignatures plainSuite run.a.groupContext.groupID = .ok ()) &&
  (decide (run.kpB.leafNode.verifySignature plainSuite [] 0 = .ok true) &&
  (decide (run.kpC.leafNode.verifySignature plainSuite [] 0 = .ok true) &&
  (decide (run.d.applied.psks = []) &&
  decide (run.d.applied.added = [(1, run.kpB), (2, run.kpC)]))))))))

theorem admitTwo_sound {seedC : Bytes} {run : TwoJoiners}
    (hrun : admitTwo seedC = .ok run) (htest : run.check = true) : run.Sound := by
  simp only [TwoJoiners.check, Bool.and_eq_true, decide_eq_true_eq] at htest
  obtain ⟨hmember, hsigns, hparents, hleaves, hpath, hsignedB, hsignedC, hpsks, hadded⟩ := htest
  simp only [admitTwo, bind_eq_ok, pure_ok_iff] at hrun
  obtain ⟨a, hnew, ⟨kpB, initB, leafB⟩, hkpB, ⟨kpC, initC, leafC⟩, hkpC, d, hdraft,
    res, hcommit, bytesB, hbytesB, bytesC, hbytesC, rfl⟩ := hrun
  obtain ⟨ln, hln, hpub⟩ := exists_of_test hsigns
  have hnone : ∀ {P : PSK → Prop}, ∀ p ∈ d.applied.psks, P p := by
    have : d.applied.psks = [] := hpsks
    simp [this]
  refine ⟨.newGroup _ _ _ _ _ hnew, hmember, ⟨ln, hln, of_decide_eq_true hpub⟩,
    ⟨hparents, hleaves⟩, hdraft, hcommit, ?_, (verifyLeafSignatures_eq_ok.mp hpath).distinct,
    hpsks, hadded, ⟨hbytesB, (newKeyPackage_ok hkpB).2.2.1, .inl rfl, hnone⟩,
    ⟨hbytesC, (newKeyPackage_ok hkpC).2.2.1, .inl rfl, hnone⟩⟩
  intro kp hmem L
  simp only [List.mem_cons, List.not_mem_nil, or_false] at hmem
  rcases hmem with rfl | rfl
  · rw [LeafNode.verifySignature_keyPackage (newKeyPackage_ok hkpB).2.1 _ [] L 0]
    exact hsignedB
  · rw [LeafNode.verifySignature_keyPackage (newKeyPackage_ok hkpC).2.1 _ [] L 0]
    exact hsignedC

namespace TwoJoiners

variable {run : TwoJoiners} {refs : List Bytes} {cache : ProposalCache} {resolved : List Resolved}

theorem resolves_self (run : TwoJoiners) :
    run.a.Resolves plainSuite run.adds [] []
      [⟨.add run.kpB, run.a.ownLeaf⟩, ⟨.add run.kpC, run.a.ownLeaf⟩] := ⟨rfl, rfl⟩

theorem resolved_eq (hresolves : run.a.Resolves plainSuite run.adds refs cache resolved) :
    resolved = [⟨.add run.kpB, run.a.ownLeaf⟩, ⟨.add run.kpC, run.a.ownLeaf⟩] :=
  run.resolves_self.unique hresolves.cache_eq hresolves.resolved_eq

theorem sparesCommitter (run : TwoJoiners) : SparesCommitter plainSuite run.a run.adds := by
  intro refs cache resolved hresolves r hmem
  simp only [resolved_eq hresolves, List.mem_cons, List.not_mem_nil, or_false] at hmem
  rcases hmem with rfl | rfl <;> trivial

theorem Sound.signed_carried (h : run.Sound) :
    ∀ refs cache resolved, run.a.Resolves plainSuite run.adds refs cache resolved →
      ∀ L l, Carried resolved none l → run.d.applied.tree.slot 0 L = some (.leaf l) →
        l.verifySignature plainSuite run.a.groupContext.groupID L = .ok true := by
  intro refs cache resolved hresolves L l hcarried _
  rw [resolved_eq hresolves] at hcarried
  rcases hcarried with ⟨sender, hmem⟩ | ⟨kp, sender, hmem, rfl⟩ | ⟨up, hup, -⟩
  · simp at hmem
  · refine h.signed kp ?_ L
    simp only [List.mem_cons, List.not_mem_nil, or_false, Resolved.mk.injEq,
      Proposal.add.injEq] at hmem ⊢
    exact hmem.imp (·.1) (·.1)
  · cases hup

theorem Sound.welcoming (h : run.Sound)
    (hrefs : ([run.kpB, run.kpC].map (·.ref plainSuite)).Nodup) :
    Welcoming plainSuite run.a run.adds run.d where
  signed := h.signed_carried
  distinct := h.distinct
  refs := by rw [h.added]; exact hrefs
  external := by simp [h.psks]

end TwoJoiners

/-- `B` and `C` both enter. -/
theorem welcome_agrees_two :
    ∃ run welcome, admitTwo [3, 1] = .ok run ∧ run.res.welcome = some welcome ∧
      EntersBy plainSuite welcome run.joinB 1 run.res.group ∧
      EntersBy plainSuite welcome run.joinC 2 run.res.group := by
  obtain ⟨run, hrun, hcheck, hrefs, hpath, hfirst, hsecond⟩ :
      ∃ run, admitTwo [3, 1] = .ok run ∧ run.check = true ∧
        ([run.kpB, run.kpC].map (·.ref plainSuite)).Nodup ∧
        run.res.group.tree.filteredDirectPath run.a.ownLeaf = .ok [1, 3] ∧
        run.res.group.tree.copathMatch plainSuite run.a.ownLeaf 1 = .ok false ∧
        run.res.group.tree.copathMatch plainSuite run.a.ownLeaf 3 = .ok false := by decide +kernel
  have h := admitTwo_sound hrun hcheck
  have hcopath : CopathUnmatched plainSuite run.res.group.tree run.a.ownLeaf := by
    intro path hpath' p hp
    cases hpath.symm.trans hpath'
    simp only [List.mem_cons, List.not_mem_nil, or_false] at hp
    rcases hp with rfl | rfl
    · exact hfirst
    · exact hsecond
  obtain ⟨-, hagrees⟩ := welcome_agrees plainSuite_laws plainSuite_kdfLaws h.membership
    h.member h.signs h.valid run.sparesCommitter noRandomness
  obtain ⟨-, ⟨welcome, hwelcome, henters⟩, -⟩ := hagrees _ _ _ _ _ run.resolves_self
    (by simp [addedPackages]) h.draft_eq h.commit_eq (h.welcoming hrefs)
  exact ⟨run, welcome, hrun, hwelcome,
    (henters 1 run.kpB run.joinB (by simp [h.added]) h.joinsB).mpr hcopath,
    (henters 2 run.kpC run.joinC (by simp [h.added]) h.joinsC).mpr hcopath⟩

/-- The references of the key packages of `B` and `C` collide: `C` opens what was
made for `B`. -/
theorem colliding_reference_cannot_enter :
    SuiteLaws plainSuite ∧ KdfLaws plainSuite ∧
    ∃ run welcome, admitTwo [171] = .ok run ∧ Membership plainSuite run.a [] ∧
      run.a.ownLeaf ∈ run.a.tree.members ∧ run.a.SignsAsLeaf plainSuite ∧
      TreeValid plainSuite run.a.groupContext.groupID run.a.tree ∧
      SparesCommitter plainSuite run.a run.adds ∧
      run.a.draftCommit plainSuite run.adds noRandomness = .ok run.d ∧
      run.a.commit plainSuite run.adds noRandomness = .ok run.res ∧
      (∀ kp ∈ [run.kpB, run.kpC], ∀ L, kp.leafNode.verifySignature plainSuite
        run.a.groupContext.groupID L = .ok true) ∧
      (∀ L M l l', L ≠ M → run.d.path.tree.slot 0 L = some (.leaf l) →
        run.d.path.tree.slot 0 M = some (.leaf l') → KeysDiffer l l') ∧
      (run.d.path.tree.nodes.filterMap (Option.map Node.encryptionKey)).Nodup ∧
      run.d.applied.psks = [] ∧ (2, run.kpC) ∈ run.d.applied.added ∧
      JoinsWith plainSuite run.d run.kpC run.joinC ∧
      run.res.welcome = some welcome ∧
      ∀ g', joinFromWelcome plainSuite welcome run.joinC ≠ .ok g' := by
  obtain ⟨run, hrun, hcheck, hkeys, welcome, hwelcome, hfails⟩ :
      ∃ run, admitTwo [171] = .ok run ∧ run.check = true ∧
        (run.d.path.tree.nodes.filterMap (Option.map Node.encryptionKey)).Nodup ∧
        ∃ welcome ∈ run.res.welcome,
          ∀ g', joinFromWelcome plainSuite welcome run.joinC ≠ .ok g' := by decide +kernel
  have h := admitTwo_sound hrun hcheck
  exact ⟨plainSuite_laws, plainSuite_kdfLaws, run, welcome, hrun, h.membership,
    h.member, h.signs, h.valid, run.sparesCommitter, h.draft_eq, h.commit_eq, h.signed,
    h.distinct, hkeys, h.psks, by simp [h.added], h.joinsC, hwelcome, hfails⟩

end MlsGo
