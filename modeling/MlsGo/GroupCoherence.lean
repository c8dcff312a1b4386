import MlsGo.CommitAtomicity
import MlsGo.GroupRuns
import MlsGo.SuiteLaws
import MlsGo.WireCopies

/-!
# Coherence of the group state

The parts of a group that describe one epoch are set by one call: the context,
the tree, the secrets, the secret tree and the history of resumption keys.  In
every state that goes back to `NewGroup` they belong together, because the tree
satisfies the representation invariant and so the clone that is hashed is the
tree that is kept.
-/

namespace MlsGo

open RatchetTree

variable {S : Suite} {g g' : Group} {past : List Group} {t t' : RatchetTree} {out : PathOutcome}
    {priv : TreeKEMPrivate} {wt : RatchetTree} {applied : AppliedProposals} {cache : ProposalCache}

/-! ## The tree of the next epoch -/

theorem applyExternalRemoves_invariant {removed : List UInt32} (hinv : t.RepresentationInvariant)
    (hrun : applyExternalRemoves t removed = .ok t') :
    t'.RepresentationInvariant := by
  induction removed generalizing t with
  | nil =>
      cases hrun
      exact hinv
  | cons r rest ih =>
      obtain ⟨s, hstep, hrest⟩ := bind_eq_ok.mp hrun
      rw [within_eq_ok] at hstep
      exact ih (removeLeaf_invariant hinv hstep) hrest

theorem merge_invariant {leaf : ℕ} {up : UpdatePath}
    (hinv : t.RepresentationInvariant) (hmerge : t.merge S leaf up = .ok t') :
    t'.RepresentationInvariant := by
  obtain ⟨h, hf, -⟩ := hinv.full
  obtain ⟨entries, hi⟩ := hf.merge_installed rfl (hf.lt_of_merge hmerge) hmerge
  exact hi.invariant hf hinv

theorem generateUpdatePath_invariant {gp : GeneratedPath}
    {sender : ℕ} {leafSecret : Bytes} {signer : Option Signer} {groupID : Bytes}
    {newlyAdded : List ℕ} {mkGroupContext : Bytes → Result Bytes}
    {seeds : ℕ → ℕ → Bytes} (hinv : t.RepresentationInvariant)
    (hrun : t.generateUpdatePath S sender leafSecret signer groupID newlyAdded
      mkGroupContext seeds = .ok gp) : gp.tree.RepresentationInvariant := by
  obtain ⟨h, hf, -⟩ := hinv.full
  obtain ⟨r⟩ := pathRun_of_generateUpdatePath hrun
  obtain ⟨entries, -, hi⟩ := r.installed_tree hf
  exact hi.invariant hf hinv

theorem receivePath_coherent {caller : String} {senderLeaf : ℕ} {path : UpdatePath}
    {encGC : Bytes → GroupContext} {newlyAdded : List ℕ} (hinv : wt.RepresentationInvariant)
    (hrun : receivePath S caller wt senderLeaf path priv encGC newlyAdded = .ok out) :
    out.tree.RepresentationInvariant ∧ out.tree.rootTreeHash S = .ok out.treeHash := by
  simp only [receivePath, bind_eq_ok, within_eq_ok, pure_ok_iff] at hrun
  obtain ⟨ct, hclone, merged, hmerged, treeHash, hhash, encGCBytes, -, secrets, -,
    tree, hmerge, rfl⟩ := hrun
  obtain rfl := hinv.eq_of_clone hclone
  rw [hmerged, Except.ok.injEq] at hmerge
  subst hmerge
  exact ⟨merge_invariant hinv hmerged, hhash⟩

theorem receiveCommitPath_coherent
    {committerLeaf : ℕ} {path : Option UpdatePath} (hinv : applied.tree.RepresentationInvariant)
    (hrun : g.receiveCommitPath S applied committerLeaf priv path = .ok out) :
    out.tree.RepresentationInvariant ∧ out.tree.rootTreeHash S = .ok out.treeHash := by
  cases path with
  | some path => exact receivePath_coherent hinv hrun
  | none =>
      obtain ⟨treeHash, hhash, hout⟩ := bind_eq_ok.mp hrun
      cases hout
      exact ⟨hinv, within_eq_ok.mp hhash⟩

theorem applyProposals_invariant {cm : Commit} {currentExt : List Extension}
    {externalPSKs : GoMap Bytes Bytes} {resumptionPSKs : GoMap UInt64 Bytes} {groupID : Bytes}
    {committerLeaf : ℕ} (hinv : wt.RepresentationInvariant) (hrun : applyProposals wt cm cache
    currentExt externalPSKs resumptionPSKs groupID committerLeaf = .ok applied) :
    applied.tree.RepresentationInvariant := by
  obtain ⟨a⟩ := applyRun_of_applyProposals hrun
  exact a.invariant hinv

/-! ## One step -/

def Group.epochKey (g : Group) : UInt64 × Bytes := (g.groupContext.epoch, g.epoch.resumptionPSK)

structure EpochFields (S : Suite) (g : Group) : Prop where
  treeHash_eq : g.tree.rootTreeHash S = .ok g.groupContext.treeHash
  initSecret_eq : g.initSecret = g.epoch.initSecret
  secretTree_eq : newSecretTree S g.tree.leafCount g.epoch.encryptionSecret = .ok g.secretTree

structure NextEpoch (S : Suite) (g g' : Group) : Prop where
  invariant : g'.tree.RepresentationInvariant
  fields : EpochFields S g'
  epoch_eq : g'.groupContext.epoch = g.groupContext.epoch + 1
  history_eq : g'.resumptionPSKHistory = (g.resumptionPSKHistory.set
    g.epochKey.1 g.epochKey.2).set g'.epochKey.1 g'.epochKey.2

theorem MemberRun.nextEpoch {ac : AuthenticatedContent}
    {cm : Commit} (run : MemberRun S g cache ac cm)
    (hinv : g.tree.RepresentationInvariant) : NextEpoch S g run.result := by
  have hwt : run.wt.RepresentationInvariant := by
    rwa [hinv.eq_of_clone run.wt_eq]
  obtain ⟨htree, hhash⟩ := receiveCommitPath_coherent
    (applyProposals_invariant hwt run.applied_eq) run.out_eq
  exact ⟨htree, ⟨hhash, rfl, run.secretTree_eq⟩, rfl, rfl⟩

theorem ExternalRun.nextEpoch {m : MLSMessage} (run : ExternalRun S g m)
    (hinv : g.tree.RepresentationInvariant) : NextEpoch S g run.result := by
  have hplaced := run.placed_eq
  simp only [Group.placeExternalJoiner, bind_eq_ok, within_eq_ok, check_eq_ok,
    pure_ok_iff, Prod.mk.injEq] at hplaced
  obtain ⟨wt, hclone, vacated, hremoves, added, hadd, _, -, _, -, -, hwt⟩ := hplaced
  obtain rfl := hinv.eq_of_clone hclone
  have hadded : run.wt.RepresentationInvariant := by
    rw [← hwt]
    exact addLeaf_invariant (applyExternalRemoves_invariant hinv hremoves) hadd
  obtain ⟨htree, hhash⟩ := receivePath_coherent hadded run.out_eq
  exact ⟨htree, ⟨hhash, rfl, run.secretTree_eq⟩, rfl, rfl⟩

theorem EpochStep.nextEpoch (hstep : EpochStep S g g')
    (hinv : g.tree.RepresentationInvariant) : NextEpoch S g g' := by
  have hepoch := hstep.epoch_eq
  rcases hstep.runs with ⟨opt, rnd, d, res, ⟨draft⟩, ⟨finish⟩, rfl⟩ |
    ⟨cache, ac, cm, run, rfl⟩ | ⟨m, run, rfl⟩
  · have hwt : draft.wt.RepresentationInvariant := by
      rwa [hinv.eq_of_clone draft.wt_eq]
    have htree := generateUpdatePath_invariant
      (applyProposals_invariant hwt draft.applied_eq) draft.path_eq
    rw [finish.group_eq] at hepoch ⊢
    refine ⟨htree, ⟨?_, rfl, finish.secretTree_eq⟩, hepoch, rfl⟩
    simpa [Group.advance, draft.newGC_eq, GroupContext.next] using draft.treeHash_eq
  · exact run.nextEpoch hinv
  · exact run.nextEpoch hinv

/-! ## Whole runs -/

/-- A member's state with the states in which it left its earlier epochs, the
latest first.  A member that did not create the group joined from the tree of a
state that is itself reachable. -/
inductive Membership (S : Suite) : Group → List Group → Prop where
  | newGroup {g : Group} (groupID : Bytes) (cred : Credential)
      (signer : Option Signer) (lifetime : Lifetime) (seeds : KeyPackageSeeds)
      (hrun : newGroup S groupID cred signer lifetime seeds = .ok g) :
      Membership S g []
  | joinFromWelcome {g member : Group} {past : List Group} (welcome : Bytes)
      (opt : JoinOptions) (hsource : Membership S member past)
      (hrun : joinFromWelcome S welcome opt = .ok g)
      (htree : g.tree = member.tree) : Membership S g []
  | externalCommit {g member : Group} {past : List Group} {commit : Bytes}
      (gi : GroupInfo) (cred : Credential) (signer : Option Signer)
      (lifetime : Lifetime) (rnd : ExternalRandomness)
      (hsource : Membership S member past)
      (htree : openPublishedTree S gi = .ok member.tree)
      (hrun : externalCommit S gi cred signer lifetime rnd = .ok (g, commit)) :
      Membership S g []
  | sameEpoch {g g' : Group} {past : List Group} (hrun : Membership S g past)
      (hstep : LocalStep S g g') : Membership S g' past
  | nextEpoch {g g' : Group} {past : List Group} (hrun : Membership S g past)
      (hstep : EpochStep S g g') : Membership S g' (g :: past)

/-- The history holds the key of every epoch since the member joined.  Epoch
numbers are 64-bit and may come round; then the latest epoch of a number
counts. -/
def HistoryComplete (g : Group) (past : List Group) : Prop :=
  ∀ epoch, g.resumptionPSKHistory.get epoch = GoMap.get ((g :: past).map Group.epochKey) epoch

theorem NextEpoch.historyComplete (hnext : NextEpoch S g g')
    (hhistory : HistoryComplete g past) : HistoryComplete g' (g :: past) := by
  intro epoch
  have hget : ∀ (key : UInt64 × Bytes) (rest : GoMap UInt64 Bytes),
      GoMap.get (key :: rest) epoch = if epoch = key.1 then some key.2 else rest.get epoch :=
    fun key rest => GoMap.get_set rest key.1 epoch key.2
  have hold := hhistory epoch
  rw [List.map_cons, hget] at hold
  rw [hnext.history_eq, GoMap.get_set, GoMap.get_set, hold, List.map_cons,
    List.map_cons, hget, hget]
  split
  · rfl
  · split <;> rfl

theorem removePriorLeaf_invariant {sigPub : Bytes} {oldLeaf : Option ℕ}
    (hinv : t.RepresentationInvariant) (hrun : removePriorLeaf t sigPub = .ok (t', oldLeaf)) :
    t'.RepresentationInvariant := by
  rw [removePriorLeaf] at hrun
  split at hrun
  · cases hrun
    exact hinv
  · obtain ⟨s, hstep, hout⟩ := bind_eq_ok.mp hrun
    cases hout
    exact removeLeaf_invariant hinv (within_eq_ok.mp hstep)

theorem Membership.invariant (hrun : Membership S g past) :
    g.tree.RepresentationInvariant ∧ HistoryComplete g past := by
  induction hrun with
  | newGroup groupID cred signer lifetime seeds hnew =>
      simp only [MlsGo.newGroup, bind_eq_ok, pure_ok_iff] at hnew
      obtain ⟨⟨kp, _, leafPriv⟩, -, treeHash, -, gcBytes, -, es, -, st, -, rfl⟩ := hnew
      exact ⟨newRatchetTree_invariant kp.leafNode, fun epoch => rfl⟩
  | joinFromWelcome welcome opt _ hjoin htree ih =>
      refine ⟨htree ▸ ih.1, ?_⟩
      obtain ⟨run, rfl⟩ := joinRun_of_joinFromWelcome hjoin
      exact fun epoch => rfl
  | externalCommit gi cred signer lifetime rnd _ htree henter ih =>
      obtain ⟨run, rfl, -⟩ := entryRun_of_externalCommit henter
      have hpublished := run.published_eq
      rw [htree, Except.ok.injEq] at hpublished
      have hvacated := removePriorLeaf_invariant (hpublished ▸ ih.1) run.vacated_eq
      have hwt := addLeaf_invariant hvacated run.wt_eq
      exact ⟨generateUpdatePath_invariant hwt run.path_eq, fun epoch => rfl⟩
  | sameEpoch _ hstep ih =>
      obtain ⟨app, handshake, encrypt, pending, rfl⟩ := hstep.eq_update
      exact ih
  | nextEpoch _ hstep ih =>
      have hnext := hstep.nextEpoch ih.1
      exact ⟨hnext.invariant, hnext.historyComplete ih.2⟩

/-- The state `g'` that a call on `g` leads to, `past` being the epochs before
`g`. -/
structure Coherent (S : Suite) (g g' : Group) (past : List Group) : Prop where
  epoch_eq : g'.groupContext.epoch = g.groupContext.epoch + 1
  fields : EpochFields S g'
  history : HistoryComplete g' (g :: past)

theorem Membership.coherent (hrun : Membership S g past)
    (hstep : EpochStep S g g') : Coherent S g g' past := by
  obtain ⟨hinv, hhistory⟩ := hrun.invariant
  have hnext := hstep.nextEpoch hinv
  exact ⟨hnext.epoch_eq, hnext.fields, hnext.historyComplete hhistory⟩

/-- A successful `Commit` or `ProcessCommit` leaves a coherent state; a
`ProcessCommit` that fails leaves every object in memory as it was, and so the
group that it holds. -/
theorem group_state_coherent (hrun : Membership S g past) :
    (∀ opt rnd res, g.commit S opt rnd = .ok res → Coherent S g res.group past) ∧
    ∀ (m : Memory) (proposals : List Bytes) (commit : Bytes), GoProg.Holds m g →
      (∀ m', GoProg.processCommit S proposals commit m = (.ok (), m') →
        ∃ g', GoProg.Holds m' g' ∧ Coherent S g g' past) ∧
      ∀ fault m', GoProg.processCommit S proposals commit m = (.error fault, m') →
        m.Keeps m' ∧ GoProg.Holds m' g := by
  refine ⟨fun opt rnd res hcommit => hrun.coherent (.commit opt rnd hcommit),
    fun m proposals commit hm => ?_⟩
  obtain ⟨hvalid, rfl⟩ := hm
  have hsim := GoProg.processCommit_simulates (S := S) hvalid proposals commit
  refine ⟨fun m' hout => ?_, fun fault m' hout => ?_⟩
  · obtain ⟨g', hvalue, hholds⟩ := hsim.of_ok hout
    exact ⟨g', hholds, hrun.coherent (.processCommit _ _ hvalue)⟩
  · obtain ⟨-, hkeep⟩ := hsim.of_error hout
    exact ⟨hkeep, hkeep.valid hvalid, hkeep.view_eq hvalid⟩

theorem exists_holds (g : Group) : ∃ m, GoProg.Holds m g := by
  let start : Memory := ⟨[], [], [g.priv], ⟨g.groupContext, 0, 0, g.epoch, g.secretTree, g.interim,
    g.initSecret, g.ownLeaf, g.signer, g.externalPSKs, g.resumptionPSKHistory, g.appGeneration,
    g.handshakeGeneration, g.encryptHandshakes, g.pendingUpdates⟩⟩
  obtain ⟨slots, m, -, hnew⟩ := GoProg.newSlots_spec g.tree.nodes start
  have hgroup : m.group = start.group := hnew.kept.group
  have hpriv : m.priv 0 = g.priv := hnew.kept.priv_eq (b := 0) (by simp [start])
  have hprivs := hnew.kept.privs.length_le
  refine ⟨{ m with trees := [slots] }, ⟨⟨?_, ?_⟩, ?_⟩, ?_⟩
  · show m.group.tree < 1
    rw [hgroup]
    exact Nat.one_pos
  · intro q hq
    refine (hnew.range q ?_).2
    simpa [Memory.slots, hgroup, start] using hq
  · show m.group.priv < m.privs.length
    rw [hgroup]
    exact hprivs
  · simp only [Memory.view, hgroup, start]
    show { g with tree := ⟨slots.map m.load⟩, priv := m.priv 0 } = g
    rw [hnew.map_load, hpriv]

/-- `A` adds `B` to its group and commits once more: `B` as it joined, and the
second commit. -/
def commitAfterJoin : Result (Group × Group × Bytes) := do
  let signer (key : UInt8) : Option Signer := some ⟨[key]⟩
  let a ← newGroup plainSuite [9] (.basic [1]) (signer 1) ⟨0, 1⟩ ⟨[1, 1], [1, 2]⟩
  let (kpB, initB, leafB) ← newKeyPackage plainSuite (.basic [2]) (signer 2)
    ⟨0, 1⟩ ⟨[2, 1], [2, 2]⟩
  let r ← a.commit plainSuite ⟨[.add kpB], []⟩ ⟨[11], fun _ _ => [], ⟨0, 0, 0, 0⟩, fun _ => []⟩
  let kpBytes ← encodeKeyPackageMessage kpB
  let b ← joinFromWelcome plainSuite (r.welcome.getD []) ⟨kpBytes, initB, leafB, signer 2, [], []⟩
  let r' ← r.group.commit plainSuite ⟨[], []⟩ ⟨[12], fun _ _ => [], ⟨0, 0, 0, 0⟩, fun _ => []⟩
  return (r.group, b, r'.commit)

/-- `B` processes the commit in place and enters the next epoch. -/
theorem group_state_coherent_joiner :
    ∃ a b commit, commitAfterJoin = .ok (a, b, commit) ∧
      ∃ m m', GoProg.Holds m b ∧ GoProg.processCommit plainSuite [] commit m = (.ok (), m') ∧
        ∃ b', GoProg.Holds m' b' ∧ Coherent plainSuite b b' [] := by
  obtain ⟨⟨a, b, commit⟩, hrun, htree, b', hb'⟩ : ∃ run, commitAfterJoin = .ok run ∧
      run.2.1.tree = run.1.tree ∧
      ∃ b', run.2.1.processCommit plainSuite [] run.2.2 = .ok b' := by decide +kernel
  have hmember : Membership plainSuite b [] := by
    simp only [commitAfterJoin, bind_eq_ok, pure_ok_iff, Prod.mk.injEq] at hrun
    obtain ⟨a₀, hnew, ⟨kpB, initB, leafB⟩, -, r, hcommit, kpBytes, -, b₀, hjoin, r', -,
      rfl, rfl, -⟩ := hrun
    exact .joinFromWelcome _ _
      (.nextEpoch (.newGroup _ _ _ _ _ hnew) (.commit _ _ hcommit)) hjoin htree
  obtain ⟨m, hm⟩ := exists_holds b
  have hsim := GoProg.processCommit_simulates (S := plainSuite) hm.1 [] commit
  rw [hm.2, hb'] at hsim
  obtain ⟨⟨⟩, m', hout, -⟩ := hsim.exists_run
  exact ⟨a, b, commit, hrun, m, m', hm, hout,
    ((group_state_coherent hmember).2 m [] commit hm).1 m' hout⟩

end MlsGo
