import MlsGo.GroupHistories
import MlsGo.PathSecrecy

/-!
# Removed members

In every history of honest members with fresh secrets, the keys of the tree that a
member can compute are keys of its own path, from the time when it was in the group.
So after a commit has removed it, neither that commit nor a later one encrypts
anything to a key that it can compute, unless it is added again.
-/

namespace MlsGo

open InOrderLayout RatchetTree SymbolicKnowledge

variable {S : Suite} {creator : LeafNode}

/-! ## What proposals do to keys -/

namespace RatchetTree

variable {t t' t'' : RatchetTree} {h : ℕ} {R R' : Set ℕ}

def KeepsBut (R : Set ℕ) (t t' : RatchetTree) : Prop :=
  ∀ k j n, t'.slot k j = some n →
    k = 0 ∧ j ∈ R ∨ ∃ n', t.slot k j = some n' ∧ n'.encryptionKey = n.encryptionKey

theorem KeepsBut.refl (R : Set ℕ) (t : RatchetTree) : KeepsBut R t t :=
  fun _ _ n hn => .inr ⟨n, hn, rfl⟩

theorem KeepsBut.trans (hfirst : KeepsBut R t t') (hsecond : KeepsBut R' t' t'') :
    KeepsBut (R ∪ R') t t'' := by
  intro k j n'' hn''
  rcases hsecond k j n'' hn'' with ⟨hk, hj⟩ | ⟨n', hn', hkey'⟩
  · exact .inl ⟨hk, .inr hj⟩
  · rcases hfirst k j n' hn' with ⟨hk, hj⟩ | ⟨n, hn, hkey⟩
    · exact .inl ⟨hk, .inl hj⟩
    · exact .inr ⟨n, hn, hkey.trans hkey'⟩

theorem KeepsBut.mono (hkeeps : KeepsBut R t t') (hsub : R ⊆ R') : KeepsBut R' t t' := by
  intro k j n hn
  rcases hkeeps k j n hn with ⟨hk, hj⟩ | hold
  · exact .inl ⟨hk, hsub hj⟩
  · exact .inr hold

theorem KeepsBut.eq_none (hkeeps : KeepsBut ∅ t t') {k j : ℕ} (hnone : t.slot k j = none) :
    t'.slot k j = none := by
  refine Option.eq_none_iff_forall_ne_some.mpr fun n hn => ?_
  rcases hkeeps k j n hn with ⟨-, hj⟩ | ⟨n', hn', -⟩
  · exact hj
  · cases hnone.symm.trans hn'

theorem Full.keepsBut_updateLeaf (hf : t.Full h) {sender : ℕ} {ln : LeafNode}
    (hrun : t.updateLeaf sender ln = .ok t') : KeepsBut {sender % 2 ^ 31} t t' := by
  intro k j n hn
  rcases hf.slot_of_updateLeaf hrun hn with hnew | hold
  · exact .inl hnew
  · exact .inr ⟨n, hold, rfl⟩

theorem Full.keepsBut_removeLeaf (hf : t.Full h) {removed : ℕ}
    (hrun : t.removeLeaf removed = .ok t') :
    KeepsBut ∅ t t' ∧ ∀ k, t'.slot k (removed % 2 ^ 31 / 2 ^ k) = none := by
  refine ⟨fun k j n hn => .inr ⟨n, (hf.slot_of_removeLeaf hrun hn).2, rfl⟩, fun k => ?_⟩
  exact Option.eq_none_iff_forall_ne_some.mpr fun n hn => (hf.slot_of_removeLeaf hrun hn).1 rfl

theorem Full.keepsBut_addLeaf (hf : t.Full h) {L : ℕ} {ln : LeafNode}
    (hrun : t.addLeaf ln = .ok (L, t')) : KeepsBut {L} t t' := by
  intro k j n hn
  rcases hf.slot_of_addLeaf hrun hn with hnew | ⟨n', hn', hkey, -⟩
  · exact .inl hnew
  · exact .inr ⟨n', hn', hkey⟩

end RatchetTree

section Proposals

variable {t t' : RatchetTree} {resolved : List Resolved}

def updatedBy (resolved : List Resolved) : List ℕ :=
  resolved.filterMap fun r =>
    match r.proposal with
    | .update _ => some (r.sender % 2 ^ 31)
    | _ => none

theorem applyUpdates_keepsBut (hinv : t.RepresentationInvariant)
    (hrun : applyUpdates t resolved = .ok t') :
    KeepsBut {L | L ∈ updatedBy resolved} t t' := by
  refine (applyUpdates_keeps (P := fun u => u.RepresentationInvariant ∧
    KeepsBut {L | L ∈ updatedBy resolved} t u) ?_ ⟨hinv, .refl _ t⟩ hrun).2
  rintro u u' ln sender hmem ⟨hinv, hkeeps⟩ hstep
  obtain ⟨h, hf, -⟩ := hinv.full
  refine ⟨updateLeaf_invariant hinv hstep, (hkeeps.trans (hf.keepsBut_updateLeaf hstep)).mono ?_⟩
  rintro L (hL | rfl)
  · exact hL
  · exact List.mem_filterMap.mpr ⟨_, hmem, rfl⟩

theorem applyRemoves_keepsBut (hinv : t.RepresentationInvariant)
    (hrun : applyRemoves t resolved = .ok t') : KeepsBut ∅ t t' := by
  refine (applyRemoves_keeps (P := fun u => u.RepresentationInvariant ∧
    KeepsBut ∅ t u) ?_ ⟨hinv, .refl _ t⟩ hrun).2
  rintro u u' removed sender - ⟨hinv, hkeeps⟩ hstep
  obtain ⟨h, hf, -⟩ := hinv.full
  refine ⟨removeLeaf_invariant hinv hstep, ?_⟩
  simpa using hkeeps.trans (hf.keepsBut_removeLeaf hstep).1

theorem applyRemoves_blank (hinv : t.RepresentationInvariant)
    (hrun : applyRemoves t resolved = .ok t') {X : ℕ} (hX : X ∈ removedBy resolved)
    (k : ℕ) : t'.slot k (X / 2 ^ k) = none := by
  induction resolved generalizing t with
  | nil =>
      obtain ⟨removed, sender, hmem, -⟩ := hX
      cases hmem
  | cons r rest ih =>
      obtain ⟨p, sender⟩ := r
      obtain ⟨removed, sender', hmem, rfl⟩ := hX
      cases p with
      | remove removed' =>
          obtain ⟨u, hstep, hrest⟩ := bind_eq_ok.mp hrun
          rw [within_eq_ok] at hstep
          obtain ⟨h, hf, -⟩ := hinv.full
          have hinv' := removeLeaf_invariant hinv hstep
          rcases List.mem_cons.mp hmem with heq | hmem
          · cases heq
            exact (applyRemoves_keepsBut hinv' hrest).eq_none ((hf.keepsBut_removeLeaf hstep).2 k)
          · exact ih hinv' hrest ⟨removed, sender', hmem, rfl⟩
      | _ =>
          refine ih hinv hrun ⟨removed, sender', ?_, rfl⟩
          simpa using hmem

theorem applyAdds_keepsBut {added : List (ℕ × KeyPackage)} (hinv : t.RepresentationInvariant)
    (hrun : applyAdds t resolved = .ok (t', added)) :
    KeepsBut {L | L ∈ added.map Prod.fst} t t' := by
  revert hinv
  refine applyAdds_induction (motive := fun t t' added => t.RepresentationInvariant →
    KeepsBut {L | L ∈ added.map Prod.fst} t t') ?done ?add hrun
  case done => exact fun _ _ => .refl _ _
  case add =>
    intro t s t' li kp rest others hstep _ ih hinv
    obtain ⟨h, hf, -⟩ := hinv.full
    refine ((hf.keepsBut_addLeaf hstep).trans (ih (addLeaf_invariant hinv hstep))).mono ?_
    rintro L (rfl | hL)
    · exact List.mem_cons_self
    · exact List.mem_cons_of_mem _ hL

variable {wt : RatchetTree} {cm : Commit} {cache : ProposalCache} {currentExt : List Extension}
  {externalPSKs : GoMap Bytes Bytes} {resumptionPSKs : GoMap UInt64 Bytes} {groupID : Bytes}
  {committerLeaf : ℕ} {applied : AppliedProposals}

theorem ApplyRun.keepsBut (a : ApplyRun wt cm cache currentExt externalPSKs resumptionPSKs groupID
    committerLeaf applied) (hinv : wt.RepresentationInvariant) :
    KeepsBut {L | L ∈ updatedBy a.resolved ++ applied.added.map Prod.fst} wt applied.tree ∧
      ∀ X ∈ removedBy a.resolved, ∀ k n, applied.tree.slot k (X / 2 ^ k) = some n →
        k = 0 ∧ X ∈ applied.added.map Prod.fst := by
  obtain ⟨hinvU, -⟩ := applyUpdates_spec hinv a.updated_eq
  obtain ⟨hinvR, -⟩ := applyRemoves_spec hinvU a.removed_eq
  have hupdates := applyUpdates_keepsBut hinv a.updated_eq
  have hremoves := applyRemoves_keepsBut hinvU a.removed_eq
  have hadds := applyAdds_keepsBut hinvR a.added_eq
  constructor
  · refine ((hupdates.trans hremoves).trans hadds).mono ?_
    rintro L ((hL | hL) | hL)
    · exact List.mem_append_left _ hL
    · cases hL
    · exact List.mem_append_right _ hL
  · intro X hX k n hn
    rcases hadds k _ n hn with ⟨rfl, hmem⟩ | ⟨n', hn', -⟩
    · exact ⟨rfl, by simpa using hmem⟩
    · rw [applyRemoves_blank hinvU a.removed_eq hX] at hn'
      cases hn'

end Proposals

/-! ## Steps of honest members -/

namespace MemberCommit

variable {world : World}

def pathStep (w : MemberCommit S world) : PathStep where
  tree := w.d.applied.tree
  path := w.d.path
  sender := w.c.ownLeaf
  leafSecret := w.rnd.leafSecret
  entering := false
  updated := updatedBy w.resolved
  vacated := removedBy w.resolved
  added := w.d.applied.added

theorem valid (w : MemberCommit S world) (hsynced : world.Synced S) :
    w.pathStep.Valid S w.c.tree := by
  obtain ⟨a⟩ := w.draftRun
  have hc := (w.committer_seated hsynced).consistent
  have hlt := hc.tree_invariant.member_lt hc.own_member
  obtain ⟨e⟩ := a.applyRun hc
  obtain ⟨-, -, hresolved⟩ := w.resolved_unique ⟨a.cache_eq, e.resolved_eq⟩
  obtain ⟨hkeeps, hcleared⟩ := e.keepsBut hc.tree_invariant
  rw [hresolved] at hkeeps hcleared
  refine ⟨⟨_, _, _, _, pathRun_of_generateUpdatePath a.path_eq⟩,
    w.applied_invariant hsynced, show w.c.ownLeaf < 2 ^ 31 by omega, ?_, ?_⟩
  · intro k j n _ hn
    rcases hkeeps k j n hn with ⟨hk, hj⟩ | hold
    · exact .inl ⟨hk, List.mem_dedup.mpr hj⟩
    · exact .inr hold
  · intro X hX k n _ hn
    obtain ⟨hk, hadded⟩ := hcleared X hX k n hn
    exact ⟨hk, List.mem_dedup.mpr (List.mem_append_right _ hadded)⟩

/-- The path secret that the Welcome has for a new member is sent in the history. -/
theorem sent_welcome (w : MemberCommit S world) (hsynced : world.Synced S)
    {past steps : List PathStep} (hs : w.pathStep :: past <:+ steps) {encGI : Bytes} {leaf : ℕ}
    {kp : KeyPackage} {egs : EncryptedGroupSecrets} (hadded : (leaf, kp) ∈ w.d.applied.added)
    (greeting : Greeting S w.d w.c encGI leaf kp egs) :
    ∃ content, Sent creator steps (.fresh (.initKey kp.initKey)) content ∧
      Evaluates S content greeting.pathSecret := by
  obtain ⟨a⟩ := w.draftRun
  obtain ⟨p⟩ := pathRun_of_generateUpdatePath a.path_eq
  have hc := (w.committer_seated hsynced).consistent
  obtain ⟨_, f, secret, m⟩ := a.exists_meeting hc.tree_invariant hc.own_member
    w.sparesCommitter hadded
  obtain ⟨h, hf, -⟩ := (w.applied_invariant hsynced).full
  have hsecret := greeting.pathSecret_eq
  rw [Except.ok.inj (greeting.node_eq.symm.trans m.node_eq), ← w.committer_mod hsynced] at hsecret
  obtain ⟨f', hlevel, heq, hratchet, -⟩ := p.secret_spec hf hsecret
  obtain rfl := pathNode_injective _ heq
  rw [w.committer_mod hsynced] at hlevel hratchet
  exact ⟨_, .welcome hs hadded m.fork (mem_pathLevels.mp hlevel).2,
    Evaluates.chain (.leafSecret _) hratchet⟩

end MemberCommit

namespace HonestEntry

variable {world : World}

def pathStep (w : HonestEntry S world) : PathStep where
  tree := w.placed
  path := w.run.path
  sender := w.run.liC
  leafSecret := w.rnd.leafSecret
  entering := true
  updated := []
  vacated := {L | w.displaced = some L}
  added := []

theorem valid (w : HonestEntry S world) (hsynced : world.Synced S) :
    w.pathStep.Valid S w.g.tree := by
  have hp := w.isPlaced hsynced
  have hinv := (hsynced.seated _ _ w.publisher_eq).consistent.tree_invariant
  have hpub := publishes_of_publishGroupInfo w.gi_eq
  have hlt := hp.liC_lt
  obtain ⟨h, hf, -⟩ := hinv.full
  obtain ⟨h', hf', -⟩ := hp.vacated_invariant.full
  have hadd := hf'.keepsBut_addLeaf hp.added_eq
  -- off the joiner's path all is as it was after the removal
  have hvacated : KeepsBut ∅ w.g.tree w.run.vacated ∧
      ∀ X, w.displaced = some X → ∀ k, w.run.vacated.slot k (X / 2 ^ k) = none := by
    obtain ⟨hfind, ⟨hnone, heq⟩ | ⟨L, hsome, hremove⟩⟩ :=
      removePriorLeaf_eq_ok.mp (EntryRun.vacated_eq_members hpub hinv hp)
    · rw [heq]
      refine ⟨.refl _ _, fun X hX => ?_⟩
      rw [displaced, ← hfind, hnone] at hX
      cases hX
    · obtain ⟨hkeeps, hblank⟩ := hf.keepsBut_removeLeaf hremove
      refine ⟨hkeeps, fun X hX => ?_⟩
      obtain ⟨l, hslot, -⟩ := findLeafBySignatureKey_eq_some hX
      have hX' : X < 2 ^ 30 := hinv.member_lt (by simp [members, hslot])
      rw [displaced, ← hfind, hsome, Option.some.injEq] at hX
      subst hX
      rwa [Nat.mod_eq_of_lt (by omega)] at hblank
  have hoff : ∀ k j n, w.run.liC / 2 ^ k ≠ j → w.placed.slot k j = some n →
      ∃ n', w.run.vacated.slot k j = some n' ∧ n'.encryptionKey = n.encryptionKey := by
    intro k j n hne hn
    refine (hadd k j n hn).resolve_left ?_
    rintro ⟨rfl, rfl⟩
    simp at hne
  refine ⟨⟨_, _, _, _, hp.pathRun⟩, hp.invariant, show w.run.liC < 2 ^ 31 by omega, ?_, ?_⟩
  · intro k j n hne hn
    obtain ⟨n', hn', hkey⟩ := hoff k j n hne hn
    obtain ⟨n'', hn'', hkey'⟩ := (hvacated.1 k j n' hn').resolve_left (by simp)
    exact .inr ⟨n'', hn'', hkey'.trans hkey⟩
  · intro X hX k n hne hn
    obtain ⟨n', hn', -⟩ := hoff k _ n hne hn
    rw [hvacated.2 X hX] at hn'
    cases hn'

end HonestEntry

/-! ## Histories -/

/-- The commit has been read by those members that go on, and the new members that are
there have joined. -/
structure MemberCommit.Reached {world : World} (w : MemberCommit S world)
    (next : World) : Prop where
  committer : next w.c.ownLeaf = some w.res.group
  others : ∀ L g, next L = some g → L ≠ w.c.ownLeaf →
    (∃ r, world L = some r ∧ L ∉ removedBy w.resolved ∧
      r.processCommit S w.opt.byReference w.res.commit = .ok g) ∨
      ∃ kp jopt welcome, w.Joins L kp jopt welcome g

structure HonestEntry.Reached {world : World} (w : HonestEntry S world)
    (next : World) : Prop where
  joiner : next w.run.liC = some w.run.result
  others : ∀ L g, next L = some g → L ≠ w.run.liC →
    ∃ r, world L = some r ∧ w.displaced ≠ some L ∧ r.processCommit S [] w.run.commitBytes = .ok g

/-- A group is created; its members commit and others enter, and whoever goes on is in
the epoch of the commit.  A member that cannot read a commit stays behind. -/
inductive SecretHistory (S : Suite) : LeafNode → World → List PathStep → Prop where
  | newGroup {g : Group} {creator : LeafNode} (groupID : Bytes) (cred : Credential)
      (signer : Option Signer) (lifetime : Lifetime) (seeds : KeyPackageSeeds)
      (hrun : newGroup S groupID cred signer lifetime seeds = .ok g)
      (hcreator : g.tree = newRatchetTree creator) :
      SecretHistory S creator (Function.update (fun _ => none) g.ownLeaf (some g)) []
  | sameEpoch {creator : LeafNode} {world : World} {steps : List PathStep} {L : ℕ}
      {g g' : Group} (hrun : SecretHistory S creator world steps)
      (hmember : world L = some g) (hstep : LocalStep S g g') :
      SecretHistory S creator (Function.update world L (some g')) steps
  | commit {creator : LeafNode} {world next : World} {steps : List PathStep}
      (hrun : SecretHistory S creator world steps) (w : MemberCommit S world)
      (hreached : w.Reached next) (hsynced : next.Synced S) :
      SecretHistory S creator next (w.pathStep :: steps)
  | externalCommit {creator : LeafNode} {world next : World} {steps : List PathStep}
      (hrun : SecretHistory S creator world steps) (w : HonestEntry S world)
      (hreached : w.Reached next) (hsynced : next.Synced S) :
      SecretHistory S creator next (w.pathStep :: steps)

namespace SecretHistory

variable {world : World} {steps : List PathStep}

theorem synced (hrun : SecretHistory S creator world steps) : world.Synced S := by
  induction hrun with
  | newGroup groupID cred signer lifetime seeds hnew _ =>
      obtain ⟨hseated, hholds⟩ := newGroup_sound hnew
      exact (World.alone_sound hseated hholds).1
  | sameEpoch _ hmember hstep ih => exact hstep.synced hmember ih
  | commit _ _ _ hsynced _ => exact hsynced
  | externalCommit _ _ _ hsynced _ => exact hsynced

theorem tree_eq (hrun : SecretHistory S creator world steps) {L : ℕ} {g : Group}
    (hg : world L = some g) : g.tree = treeAfter creator steps := by
  induction hrun generalizing L g with
  | @newGroup g' creator groupID cred signer lifetime seeds _ hcreator =>
      by_cases hL : L = g'.ownLeaf
      · rw [hL, Function.update_self, Option.some.injEq] at hg
        rw [← hg, hcreator, treeAfter]
      · rw [Function.update_of_ne hL] at hg
        cases hg
  | sameEpoch _ hmember hstep ih =>
      obtain ⟨x, _, _, _, _, hx, rfl⟩ := hstep.exists_member hmember hg
      show x.tree = _
      exact ih hx
  | commit _ w hreached hsynced _ =>
      obtain ⟨b⟩ := w.finishRun
      rw [← (hsynced.same _ _ _ _ hreached.committer hg).tree_eq, b.group_eq]
      rfl
  | externalCommit _ w hreached hsynced _ =>
      rw [← (hsynced.same _ _ _ _ hreached.joiner hg).tree_eq]
      rfl

theorem valid (hrun : SecretHistory S creator world steps) : ValidSteps S creator steps := by
  induction hrun with
  | newGroup => trivial
  | sameEpoch _ _ _ ih => exact ih
  | commit hpast w _ _ ih =>
      refine ⟨?_, ih⟩
      rw [← hpast.tree_eq w.committer_eq]
      exact w.valid hpast.synced
  | externalCommit hpast w _ _ ih =>
      refine ⟨?_, ih⟩
      rw [← hpast.tree_eq w.publisher_eq]
      exact w.valid hpast.synced

end SecretHistory

/-- In a history with fresh secrets, let `M` be members, given by the times when they
came and their leaves.  Every key that was ever in the tree has a term, and if `M` can
compute it then somebody of `M` was there then, at a leaf below the node of the key.
Every ciphertext of an UpdatePath is for such a key, and when nobody of `M` is there
after the commit, `M` cannot compute it.  A member is not there any more from the commit
on that removes it. -/
theorem removed_members_shut_out {world : World} {steps : List PathStep}
    (hrun : SecretHistory S creator world steps) (hfresh : Fresh creator steps) (M : Set (ℕ × ℕ)) :
    (∀ T, T <:+ steps → ∀ k j n, (treeAfter creator T).slot k j = some n →
      ∃ key, keyTerm creator T k j = some key ∧ KeyOf S key n.encryptionKey ∧
        (Computes creator steps M key → ∃ a X, (a, X) ∈ M ∧ Stays a X T ∧ X / 2 ^ k = j)) ∧
    (∀ s past, s :: past <:+ steps → ∀ pub secret, s.EncryptsTo S pub secret →
      ∃ k j n key content, (treeAfter creator (s :: past)).slot k j = some n ∧
        n.encryptionKey = pub ∧ keyTerm creator (s :: past) k j = some key ∧
        Sent creator steps key content ∧ Evaluates S content secret ∧
        ((∀ a X, (a, X) ∈ M → ¬ Stays a X (s :: past)) → ¬ Computes creator steps M key)) ∧
    ∀ s past T, s :: past <:+ T → ∀ a X, X ∈ s.vacated → a ≤ past.length → ¬ Stays a X T := by
  have hvalid := hrun.valid
  refine ⟨fun T hT k j n hn => ?_, fun s past hs pub secret hencrypts => ?_,
    fun s past T hsuffix a X hX ha => not_stays_of_vacated hsuffix hX ha⟩
  · obtain ⟨key, hkey, hkeyOf⟩ := keyOf_keyTerm (hvalid.suffix hT) hn
    exact ⟨key, hkey, hkeyOf, fun hcomputes => hcomputes.covered hvalid hfresh hT hkey⟩
  · have hstep := (hvalid.suffix hs).1
    obtain ⟨f, k, j, n, hreaches, hn, hpub, hsecret⟩ := hstep.reaches hencrypts
    have hslot : (treeAfter creator (s :: past)).slot k j = some n := by
      rw [treeAfter, hstep.slot_off (hstep.off_path hreaches), hn]
    obtain ⟨key, hkey, -⟩ := keyOf_keyTerm (hvalid.suffix hs) hslot
    refine ⟨k, j, n, key, _, hslot, hpub, hkey, .path hs hreaches hkey, hsecret,
      fun hgone hcomputes => ?_⟩
    obtain ⟨a, X, hmem, hstays, -⟩ := hcomputes.covered hvalid hfresh hs hkey
    exact hgone a X hmem hstays

/-! ### A member of three is removed -/

theorem MemberCommit.Delivered.reached {world next : World} {w : MemberCommit S world}
    (hdelivered : w.Delivered next) : w.Reached next := by
  refine ⟨hdelivered.committer, fun L g hg hother => ?_⟩
  rcases hdelivered.others L g hg hother with ⟨r, hr, hkept⟩ | hjoins
  · obtain ⟨r', hrun, hr'⟩ := hdelivered.reader L r hr hother hkept
    cases hg.symm.trans hr'
    exact .inl ⟨r, hr, hkept, hrun⟩
  · exact .inr hjoins

def PathStep.hasRecipient (s : PathStep) : Bool :=
  (s.tree.filteredDirectPath s.sender).toOption.any fun path =>
    (s.tree.copathRecipients (u32 (2 * s.sender)) (addedNodes (s.added.map Prod.fst))
      path).toOption.any fun resPubs => resPubs.any fun pubs => !pubs.isEmpty

theorem PathStep.Valid.exists_encryptsTo {before : RatchetTree} {s : PathStep}
    (hs : s.Valid S before) (hrecipient : s.hasRecipient = true) :
    ∃ pub secret, s.EncryptsTo S pub secret := by
  obtain ⟨signer, groupID, mkGroupContext, seeds, ⟨p⟩⟩ := hs.generated
  obtain ⟨path, hpath, hrecipient⟩ := exists_of_test hrecipient
  cases p.path_eq.symm.trans hpath
  obtain ⟨resPubs, hresPubs, hany⟩ := exists_of_test hrecipient
  cases p.resPubs_eq.symm.trans hresPubs
  obtain ⟨pubs, hpubs, hnonempty⟩ := List.any_eq_true.mp hany
  obtain ⟨pub, hpub⟩ := List.exists_mem_of_ne_nil pubs (by simpa using hnonempty)
  obtain ⟨i, hi⟩ := List.mem_iff_getElem?.mp hpubs
  have hlt : i < p.path.length := by
    rw [← copathRecipients_length p.resPubs_eq]
    exact (List.getElem?_eq_some_iff.mp hi).1
  have hsecrets : i < p.pathSecrets.length := by
    rwa [pathSecretsFrom_length p.pathSecrets_eq]
  have hnodes : i < p.nodePubs.length := by
    rwa [nodePublicKeys_length p.nodePubs_eq]
  exact ⟨pub, p.pathSecrets[i], signer, groupID, mkGroupContext, seeds, p, p.nodePubs[i],
    pubs, List.mem_iff_getElem?.mpr ⟨i, List.getElem?_zip_eq_some.mpr
      ⟨List.getElem?_eq_getElem hnodes, List.getElem?_zip_eq_some.mpr
        ⟨List.getElem?_eq_getElem hsecrets, hi⟩⟩⟩, hpub⟩

structure ThirdRemoved where
  before : ThreeMembers
  creator : LeafNode
  d : CommitDraft
  res : CommitResult
  b' : Group

def removeThird : Result ThirdRemoved := do
  let before ← threeMembers
  let a := before.run.res.group
  let creator ← before.run.a.tree.leafNodeAt 0
  let d ← a.draftCommit plainSuite ⟨[.remove 2], []⟩ (withLeafSecret [9])
  let res ← a.commit plainSuite ⟨[.remove 2], []⟩ (withLeafSecret [9])
  let b' ← before.b.processCommit plainSuite [] res.commit
  return ⟨before, creator, d, res, b'⟩

namespace ThirdRemoved

variable {r : ThirdRemoved}

def admits (r : ThirdRemoved) : PathStep where
  tree := r.before.run.d.applied.tree
  path := r.before.run.d.path
  sender := r.before.run.a.ownLeaf
  leafSecret := noRandomness.leafSecret
  entering := false
  updated := []
  vacated := removedBy [⟨.add r.before.run.kpB, r.before.run.a.ownLeaf⟩,
    ⟨.add r.before.run.kpC, r.before.run.a.ownLeaf⟩]
  added := r.before.run.d.applied.added

def removes (r : ThirdRemoved) : PathStep where
  tree := r.d.applied.tree
  path := r.d.path
  sender := r.before.run.res.group.ownLeaf
  leafSecret := [9]
  entering := false
  updated := []
  vacated := removedBy [⟨.remove 2, r.before.run.res.group.ownLeaf⟩]
  added := r.d.applied.added

def after (r : ThirdRemoved) : World := .ofList [r.res.group, r.b']

def check (r : ThirdRemoved) : Bool :=
  r.before.check &&
  (r.before.straight &&
  (decide (r.before.run.a.tree = newRatchetTree r.creator) &&
  (decide (Fresh r.creator [r.removes, r.admits]) &&
  (!r.admits.tree.copathEmpty r.admits.sender 1 &&
  r.removes.hasRecipient))))

structure Sound (r : ThirdRemoved) : Prop where
  before : r.before.Sound
  straight : r.before.straight = true
  creator_eq : r.before.run.a.tree = newRatchetTree r.creator
  fresh : Fresh r.creator [r.removes, r.admits]
  level : ¬ r.admits.tree.copathEmpty r.admits.sender 1
  hasRecipient : r.removes.hasRecipient = true
  draft_eq : r.before.run.res.group.draftCommit plainSuite ⟨[.remove 2], []⟩
    (withLeafSecret [9]) = .ok r.d
  commit_eq : r.before.run.res.group.commit plainSuite ⟨[.remove 2], []⟩
    (withLeafSecret [9]) = .ok r.res
  read_eq : r.before.b.processCommit plainSuite [] r.res.commit = .ok r.b'

theorem removeThird_sound (hrun : removeThird = .ok r) (htest : r.check = true) : r.Sound := by
  simp only [check, Bool.and_eq_true, decide_eq_true_eq, Bool.not_eq_true'] at htest
  obtain ⟨hcheck, hstraight, hcreator, hfresh, hlevel, hrecipient⟩ := htest
  simp only [removeThird, bind_eq_ok, pure_ok_iff] at hrun
  obtain ⟨before, hbefore, creator, -, d, hd, res, hres, b', hb', rfl⟩ := hrun
  exact ⟨threeMembers_sound hbefore hcheck, hstraight, hcreator, hfresh, by simp [hlevel],
    hrecipient, hd, hres, hb'⟩

theorem Sound.ownLeaf_eq (h : r.Sound) : r.before.run.res.group.ownLeaf = 0 :=
  (EpochStep.commit _ _ h.before.run.commit_eq).ownLeaf_eq.trans h.before.ownLeaf_a

def Sound.second (h : r.Sound) : HonestCommit plainSuite r.before.joined where
  c := r.before.run.res.group
  opt := ⟨[.remove 2], []⟩
  rnd := withLeafSecret [9]
  refs := []
  cache := []
  resolved := [⟨.remove 2, r.before.run.res.group.ownLeaf⟩]
  d := r.d
  res := r.res
  committer_eq := by rw [h.ownLeaf_eq]; rfl
  draft_eq := h.draft_eq
  commit_eq := h.commit_eq
  resolves := ⟨rfl, rfl⟩
  spares := by
    refine List.forall_mem_singleton.mpr ?_
    show (2 : UInt32).toNat % 2 ^ 31 ≠ r.before.run.res.group.ownLeaf
    rw [h.ownLeaf_eq]
    decide
  updates := by simp
  single := by simp [ownUpdates]
  psks := fun _ _ _ _ => rfl

theorem Sound.second_delivered (h : r.Sound) : h.second.Delivered r.after := by
  have hremoved : ∀ L, L ∈ removedBy h.second.resolved ↔ L = 2 := by
    intro L
    constructor
    · rintro ⟨removed, sender, hmem, rfl⟩
      cases List.mem_singleton.mp hmem
      rfl
    · rintro rfl
      exact ⟨2, _, List.mem_cons_self, rfl⟩
  have hown : h.second.c.ownLeaf = 0 := h.ownLeaf_eq
  refine ⟨?_, fun L g hg hother hkept => ?_, fun L g hg hother => .inl ?_⟩
  · rw [hown]
    rfl
  · rw [hremoved] at hkept
    obtain ⟨rfl, -⟩ | ⟨rfl, rfl⟩ | ⟨rfl, -⟩ := World.ofList_three hg
    · exact absurd hown.symm hother
    · exact ⟨r.b', h.read_eq, rfl⟩
    · exact absurd rfl hkept
  · obtain ⟨rfl, -⟩ | ⟨rfl, -⟩ := World.ofList_two hg
    · exact absurd hown.symm hother
    · exact ⟨_, rfl, by rw [hremoved]; decide⟩

theorem Sound.history (h : r.Sound) :
    SecretHistory plainSuite r.creator r.after [r.removes, r.admits] := by
  obtain ⟨hsynced, hholds⟩ := h.before.alone_sound
  have hfirst := h.before.first.outcome plainSuite_laws plainSuite_kdfLaws (by decide)
    hsynced hholds h.before.first_delivered
  have hjoined : r.before.joined.HoldsKeys plainSuite :=
    hfirst.holdsKeys (hfirst.keysComplete_iff.mpr (h.before.first_keepsKeys h.straight))
  have hsecond := h.second.outcome plainSuite_laws plainSuite_kdfLaws (by decide)
    hfirst.synced hjoined h.second_delivered
  exact ((SecretHistory.newGroup _ _ _ _ _ h.before.newGroup_eq h.creator_eq).commit
    h.before.first.toMemberCommit h.before.first_delivered.reached hfirst.synced).commit
    h.second.toMemberCommit h.second_delivered.reached hsecond.synced

theorem Sound.computes_root (h : r.Sound) :
    ∃ key, keyTerm r.creator [r.admits] 2 0 = some key ∧
      Computes r.creator [r.removes, r.admits] {(1, 2)} key := by
  have hsuffix : [r.admits] <:+ [r.removes, r.admits] := List.suffix_cons _ _
  have hadded : (2, r.before.run.kpC) ∈ r.admits.added := by
    simp [admits, h.before.run.added]
  have hsender : r.admits.sender = 0 := h.before.ownLeaf_a
  have howns : Drawn.initKey r.before.run.kpC.initKey ∈
      Owns r.creator [r.removes, r.admits] {(1, 2)} := by
    refine .inl ⟨[r.admits], 2, 1, hsuffix, ?_, rfl, .inl ⟨rfl, .inl ?_⟩⟩
    · exact List.mem_cons_of_mem _ (List.mem_append_right _ (List.mem_map.mpr ⟨_, hadded, rfl⟩))
    · exact List.mem_map.mpr ⟨_, hadded, rfl⟩
  have hsent : Sent r.creator [r.removes, r.admits]
      (.fresh (.initKey r.before.run.kpC.initKey)) (r.admits.levelSecret 1) :=
    .welcome hsuffix hadded (by rw [hsender]; decide) h.level
  refine ⟨.derive "node" (r.admits.levelSecret 1), ?_, .derive "node" (.opens hsent (.own howns))⟩
  rw [keyTerm, if_pos (by rw [hsender]; rfl)]
  exact if_neg h.level

end ThirdRemoved

/-- `C` could compute the root key while it was there.  The commit that removes it has
a ciphertext, and none for a key that `C` can compute. -/
theorem removed_third_shut_out :
    ∃ r : ThirdRemoved, removeThird = .ok r ∧
      SecretHistory plainSuite r.creator r.after [r.removes, r.admits] ∧
      Fresh r.creator [r.removes, r.admits] ∧
      (∃ key, keyTerm r.creator [r.admits] 2 0 = some key ∧
        Computes r.creator [r.removes, r.admits] {(1, 2)} key) ∧
      2 ∈ r.removes.vacated ∧
      (∃ pub secret, r.removes.EncryptsTo plainSuite pub secret) ∧
      ∀ pub secret, r.removes.EncryptsTo plainSuite pub secret →
        ∃ k j n key, (treeAfter r.creator [r.removes, r.admits]).slot k j = some n ∧
          n.encryptionKey = pub ∧ keyTerm r.creator [r.removes, r.admits] k j = some key ∧
          ¬ Computes r.creator [r.removes, r.admits] {(1, 2)} key := by
  obtain ⟨r, hrun, htest⟩ : ∃ r, removeThird = .ok r ∧ r.check = true := by decide +kernel
  have h := ThirdRemoved.removeThird_sound hrun htest
  have hremoved : 2 ∈ r.removes.vacated := ⟨2, _, List.mem_cons_self, rfl⟩
  obtain ⟨-, hciphertexts, hgone⟩ := removed_members_shut_out h.history h.fresh {(1, 2)}
  refine ⟨r, hrun, h.history, h.fresh, h.computes_root, hremoved,
    h.history.valid.1.exists_encryptsTo h.hasRecipient, fun pub secret hencrypts => ?_⟩
  obtain ⟨k, j, n, key, -, hn, hpub, hkey, -, -, hlocked⟩ :=
    hciphertexts _ _ (List.suffix_refl _) pub secret hencrypts
  refine ⟨k, j, n, key, hn, hpub, hkey, hlocked ?_⟩
  rintro a X ⟨rfl, rfl⟩
  exact hgone _ _ _ (List.suffix_refl _) _ _ hremoved le_rfl

end MlsGo
