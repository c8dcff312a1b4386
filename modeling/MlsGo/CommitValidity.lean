import MlsGo.GroupCoherence
import MlsGo.UpdatePathFit

/-!
# Which commits keep the tree valid

`ProcessCommit` compares neither signatures nor keys of the leaves a commit
brings in, and not the parent hash of the new leaf of the committer.  The seats
say who sits at which leaf: they follow from the seats before the commit and its
proposals alone.  The new tree is valid exactly when the leaves that were brought
in are signed for their seats and share no key with anybody, and the path fits
its leaf and its copath; all other parents of a reachable tree stay matched.
-/

namespace MlsGo

open RatchetTree InOrderLayout

/-! ## Seats -/

abbrev Seats := ℕ → Option Node

namespace Seats

def update (seats : Seats) : List Resolved → Seats
  | [] => seats
  | ⟨.update ln, sender⟩ :: rest =>
      update (Function.update seats (sender % 2 ^ 31) (some (.leaf ln))) rest
  | _ :: rest => update seats rest

def remove (seats : Seats) : List Resolved → Seats
  | [] => seats
  | ⟨.remove removed, _⟩ :: rest =>
      remove (Function.update seats (removed.toNat % 2 ^ 31) none) rest
  | _ :: rest => remove seats rest

noncomputable def firstFree (seats : Seats) : ℕ := sInf {L | seats L = none}

noncomputable def add (seats : Seats) : List Resolved → Seats
  | [] => seats
  | ⟨.add kp, _⟩ :: rest =>
      add (Function.update seats seats.firstFree (some (.leaf kp.leafNode))) rest
  | _ :: rest => add seats rest

def takePath (seats : Seats) (committerLeaf : ℕ) : Option UpdatePath → Seats
  | none => seats
  | some up => Function.update seats (committerLeaf % 2 ^ 31) (some (.leaf up.leafNode))

noncomputable def commit (seats : Seats) (resolved : List Resolved)
    (committerLeaf : ℕ) (path : Option UpdatePath) : Seats :=
  (((seats.update resolved).remove resolved).add resolved).takePath committerLeaf path

end Seats

def Carried (resolved : List Resolved) (path : Option UpdatePath)
    (l : LeafNode) : Prop :=
  (∃ sender, ⟨.update l, sender⟩ ∈ resolved) ∨
    (∃ kp sender, ⟨.add kp, sender⟩ ∈ resolved ∧ kp.leafNode = l) ∨
    ∃ up, path = some up ∧ up.leafNode = l

/-- The leaf nodes brought in are signed for their seats, and share no key with
another member. -/
def LeavesFit (S : Suite) (groupID : Bytes) (seats : Seats)
    (carried : LeafNode → Prop) : Prop :=
  ∀ L l, carried l → seats L = some (.leaf l) →
    l.verifySignature S groupID L = .ok true ∧
      ∀ M l', M ≠ L → seats M = some (.leaf l') → KeysDiffer l l'

section Kept

variable {seats : Seats} {resolved : List Resolved} {L : ℕ} {l : LeafNode}

theorem update_eq_some {M : ℕ} {n : Option Node}
    (hseat : Function.update seats M n L = some (.leaf l)) :
    n = some (.leaf l) ∨ seats L = some (.leaf l) := by
  rcases eq_or_ne L M with rfl | hne
  · rw [Function.update_self] at hseat
    exact .inl hseat
  · rw [Function.update_of_ne hne] at hseat
    exact .inr hseat

theorem Seats.update_kept (hseat : seats.update resolved L = some (.leaf l)) :
    (∃ sender, ⟨.update l, sender⟩ ∈ resolved) ∨ seats L = some (.leaf l) := by
  induction resolved generalizing seats with
  | nil => exact .inr hseat
  | cons r rest ih =>
      obtain ⟨p, sender⟩ := r
      cases p with
      | update ln =>
          rcases ih hseat with ⟨sender', hmem⟩ | hkept
          · exact .inl ⟨sender', by simp [hmem]⟩
          · rcases update_eq_some hkept with hnew | hkept
            · cases hnew
              exact .inl ⟨sender, by simp⟩
            · exact .inr hkept
      | _ =>
          rcases ih hseat with ⟨sender', hmem⟩ | hkept
          · exact .inl ⟨sender', by simp [hmem]⟩
          · exact .inr hkept

theorem Seats.remove_kept (hseat : seats.remove resolved L = some (.leaf l)) :
    seats L = some (.leaf l) := by
  induction resolved generalizing seats with
  | nil => exact hseat
  | cons r rest ih =>
      obtain ⟨p, sender⟩ := r
      cases p with
      | remove removed =>
          rcases update_eq_some (ih hseat) with hnew | hkept
          · cases hnew
          · exact hkept
      | _ => exact ih hseat

theorem Seats.add_kept (hseat : seats.add resolved L = some (.leaf l)) :
    (∃ kp sender, ⟨.add kp, sender⟩ ∈ resolved ∧ kp.leafNode = l) ∨ seats L = some (.leaf l) := by
  induction resolved generalizing seats with
  | nil => exact .inr hseat
  | cons r rest ih =>
      obtain ⟨p, sender⟩ := r
      cases p with
      | add kp =>
          rcases ih hseat with ⟨kp', sender', hmem, hl⟩ | hkept
          · exact .inl ⟨kp', sender', by simp [hmem], hl⟩
          · rcases update_eq_some hkept with hnew | hkept
            · cases hnew
              exact .inl ⟨kp, sender, by simp, rfl⟩
            · exact .inr hkept
      | _ =>
          rcases ih hseat with ⟨kp', sender', hmem, hl⟩ | hkept
          · exact .inl ⟨kp', sender', by simp [hmem], hl⟩
          · exact .inr hkept

variable {path : Option UpdatePath}

theorem Seats.commit_kept {committerLeaf : ℕ}
    (hseat : seats.commit resolved committerLeaf path L = some (.leaf l)) :
    Carried resolved path l ∨ seats L = some (.leaf l) := by
  have hproposals : ((seats.update resolved).remove resolved).add resolved L =
      some (.leaf l) → Carried resolved path l ∨ seats L = some (.leaf l) := by
    intro hseat
    rcases Seats.add_kept hseat with hadded | hseat
    · exact .inl (.inr (.inl hadded))
    · rcases Seats.update_kept (Seats.remove_kept hseat) with hupdated | hkept
      · exact .inl (.inl hupdated)
      · exact .inr hkept
  cases path with
  | none => exact hproposals hseat
  | some up =>
      rcases update_eq_some hseat with hnew | hseat
      · cases hnew
        exact .inl (.inr (.inr ⟨up, rfl, rfl⟩))
      · exact hproposals hseat

end Kept

/-! ## Seats of a tree -/

section Trees

variable {S : Suite} {t t' : RatchetTree} {h : ℕ} {resolved : List Resolved}

theorem slot_zero_ite (seats : Seats) (M : ℕ) (n : Option Node) :
    (fun L => if M / 2 ^ 0 = L then n else seats L) = Function.update seats M n := by
  funext L
  simp [Function.update_apply, eq_comm]

theorem applyUpdates_seats (hf : t.Full h) (hrun : applyUpdates t resolved = .ok t') :
    t'.Full h ∧ t'.slot 0 = Seats.update (t.slot 0) resolved := by
  induction resolved generalizing t with
  | nil =>
      cases hrun
      exact ⟨hf, rfl⟩
  | cons r rest ih =>
      obtain ⟨p, sender⟩ := r
      cases p with
      | update ln =>
          obtain ⟨s, hstep, hrest⟩ := bind_eq_ok.mp hrun
          obtain ⟨-, hfs, hslots⟩ := hf.updateLeaf_ok (within_eq_ok.mp hstep)
          obtain ⟨hf', hseats⟩ := ih hfs hrest
          refine ⟨hf', hseats.trans ?_⟩
          rw [Seats.update, ← slot_zero_ite]
          congr 1
          funext L
          simp [hslots]
      | _ => exact ih hf hrun

theorem applyRemoves_seats (hf : t.Full h) (hrun : applyRemoves t resolved = .ok t') :
    (∃ h', t'.Full h') ∧ t'.slot 0 = Seats.remove (t.slot 0) resolved := by
  induction resolved generalizing t h with
  | nil =>
      cases hrun
      exact ⟨⟨h, hf⟩, rfl⟩
  | cons r rest ih =>
      obtain ⟨p, sender⟩ := r
      cases p with
      | remove removed =>
          obtain ⟨s, hstep, hrest⟩ := bind_eq_ok.mp hrun
          obtain ⟨h', -, -, hfs, hslots, -⟩ := hf.removeLeaf_ok (within_eq_ok.mp hstep)
          obtain ⟨hf', hseats⟩ := ih hfs hrest
          refine ⟨hf', hseats.trans ?_⟩
          rw [Seats.remove, ← slot_zero_ite]
          congr 1
          funext L
          rw [hslots]
      | _ => exact ih hf hrun

theorem firstFree_eq {seats : Seats} {L : ℕ} (hfree : seats L = none)
    (htaken : ∀ M < L, seats M ≠ none) : seats.firstFree = L := by
  refine le_antisymm (Nat.sInf_le hfree) (le_csInf ⟨L, hfree⟩ fun M hM => ?_)
  by_contra hlt
  exact htaken M (not_le.mp hlt) hM

theorem applyAdds_seats {added : List (ℕ × KeyPackage)} (hf : t.Full h)
    (hrun : applyAdds t resolved = .ok (t', added)) :
    (∃ h', t'.Full h') ∧ t'.slot 0 = Seats.add (t.slot 0) resolved := by
  induction resolved generalizing t h added with
  | nil =>
      cases hrun
      exact ⟨⟨h, hf⟩, rfl⟩
  | cons r rest ih =>
      obtain ⟨p, sender⟩ := r
      cases p with
      | add kp =>
          obtain ⟨⟨li, s⟩, hstep, hrest⟩ := bind_eq_ok.mp hrun
          obtain ⟨⟨s', others⟩, hothers, hresult⟩ := bind_eq_ok.mp hrest
          cases hresult
          obtain ⟨⟨hblank, hfirst⟩, -, hfs, hslots⟩ := hf.addLeaf_ok (within_eq_ok.mp hstep)
          obtain ⟨hf', hseats⟩ := ih hfs hothers
          refine ⟨hf', hseats.trans ?_⟩
          rw [Seats.add, firstFree_eq hblank hfirst, ← slot_zero_ite]
          congr 1
          funext L
          simp [hslots]
      | _ => exact ih hf hrun

end Trees

section Applied

variable {S : Suite} {wt : RatchetTree} {cm : Commit} {cache : ProposalCache}
  {currentExt : List Extension} {externalPSKs : GoMap Bytes Bytes}
  {resumptionPSKs : GoMap UInt64 Bytes} {groupID : Bytes} {committerLeaf : ℕ}
  {applied : AppliedProposals}

namespace ApplyRun

variable (a : ApplyRun wt cm cache currentExt externalPSKs resumptionPSKs
  groupID committerLeaf applied)

theorem seats {h : ℕ} (hf : wt.Full h) :
    (∃ h', applied.tree.Full h') ∧
      applied.tree.slot 0 =
        ((Seats.update (wt.slot 0) a.resolved).remove a.resolved).add a.resolved := by
  obtain ⟨hf₁, hseats₁⟩ := applyUpdates_seats hf a.updated_eq
  obtain ⟨⟨h₂, hf₂⟩, hseats₂⟩ := applyRemoves_seats hf₁ a.removed_eq
  obtain ⟨hf₃, hseats₃⟩ := applyAdds_seats hf₂ a.added_eq
  exact ⟨hf₃, by rw [hseats₃, hseats₂, hseats₁]⟩

include a in
theorem allMatched (hinv : wt.RepresentationInvariant)
    (hall : AllMatched S wt) : AllMatched S applied.tree := by
  refine (a.keeps (P := fun t => t.RepresentationInvariant ∧ AllMatched S t)
    ?_ ?_ ?_ ⟨hinv, hall⟩).2
  · rintro t t' ln sender - ⟨hinv, hall⟩ hrun
    obtain ⟨h, hf, -⟩ := hinv.full
    obtain ⟨-, -, hslots⟩ := hf.updateLeaf_ok hrun
    exact ⟨updateLeaf_invariant hinv hrun, hall.blank hslots⟩
  · rintro t t' removed sender - ⟨hinv, hall⟩ hrun
    obtain ⟨h, hf, -⟩ := hinv.full
    obtain ⟨h', -, -, -, hslots, -⟩ := hf.removeLeaf_ok hrun
    refine ⟨removeLeaf_invariant hinv hrun,
      hall.blank (L := removed.toNat % 2 ^ 31) (x := none) fun k j => ?_⟩
    rw [hslots]
    simp
  · rintro t t' L kp sender - ⟨hinv, hall⟩ hrun
    obtain ⟨h, hf, -⟩ := hinv.full
    exact ⟨addLeaf_invariant hinv hrun, hall.add hf hinv.wellFormed (hf.added_of_addLeaf hrun)⟩

end ApplyRun

end Applied

/-! ## Accepted commits -/

structure TreeValid (S : Suite) (groupID : Bytes) (t : RatchetTree) : Prop where
  parentHashes : t.verifyParentHashes S = .ok true
  leafSignatures : t.verifyLeafSignatures S groupID = .ok ()

variable {S : Suite} {g : Group} {proposals : List Bytes} {commit : Bytes}

def ValidityPreserved (S : Suite) (g : Group) (proposals : List Bytes)
    (commit : Bytes) : Prop :=
  TreeValid S g.groupContext.groupID g.tree →
    ∀ g' m, g.processCommit S proposals commit = .ok g' →
      unmarshalMLSMessage commit = .ok m → m.isExternalCommit = false →
      TreeValid S g.groupContext.groupID g'.tree

section Fits

variable {cache : ProposalCache} {ac : AuthenticatedContent} {cm : Commit}

noncomputable def Group.seatsAfter (g : Group) (ac : AuthenticatedContent)
    (cm : Commit) (resolved : List Resolved) : Seats :=
  Seats.commit (g.tree.slot 0) resolved ac.content.sender.leafIndex cm.path

/-- The tree after the proposals, with the leaf of the path at the seat of the
committer. -/
def MemberRun.seated (run : MemberRun S g cache ac cm) : RatchetTree :=
  match cm.path with
  | none => run.applied.tree
  | some up => run.applied.tree.setSlot 0 (ac.content.sender.leafIndex % 2 ^ 31)
      (some (.leaf up.leafNode))

structure MemberRun.Fits (run : MemberRun S g cache ac cm) : Prop where
  leaves : ∀ resolved,
    resolveProposals cache ac.content.sender.leafIndex cm.proposals = .ok resolved →
    LeavesFit S g.groupContext.groupID (g.seatsAfter ac cm resolved) (Carried resolved cm.path)
  /-- The path fits its leaf and its copath. -/
  path : ∀ up, cm.path = some up → run.seated.TakesPath S (ac.content.sender.leafIndex % 2 ^ 31) up
  /-- Parents elsewhere are matched after the proposals; if the tree had the
  representation invariant they always are. -/
  elsewhere : g.tree.RepresentationInvariant ∨
    ∀ i, run.seated.HoldsParent i →
      (cm.path ≠ none → subtreeContains i (u32 (2 * ac.content.sender.leafIndex)) = false) →
      run.seated.OneSideMatches S i

theorem receiveCommitPath_tree {applied : AppliedProposals} {committerLeaf : ℕ}
    {priv : TreeKEMPrivate} {out : PathOutcome}
    (hrun : g.receiveCommitPath S applied committerLeaf priv path = .ok out) :
    (path = none ∧ out.tree = applied.tree) ∨
      ∃ up, path = some up ∧ applied.tree.merge S committerLeaf up = .ok out.tree := by
  cases path with
  | none =>
      obtain ⟨treeHash, -, hout⟩ := bind_eq_ok.mp hrun
      cases hout
      exact .inl ⟨rfl, rfl⟩
  | some up =>
      simp only [Group.receiveCommitPath, receivePath, bind_eq_ok, within_eq_ok,
        pure_ok_iff] at hrun
      obtain ⟨-, -, -, -, -, -, -, -, -, -, tree, hmerge, rfl⟩ := hrun
      exact .inr ⟨up, rfl, hmerge⟩

theorem MemberRun.seats_eq (run : MemberRun S g cache ac cm) {resolved : List Resolved}
    (hresolved : resolveProposals cache ac.content.sender.leafIndex cm.proposals = .ok resolved) :
    run.out.tree.slot 0 = g.seatsAfter ac cm resolved := by
  obtain ⟨a⟩ := applyRun_of_applyProposals run.applied_eq
  cases hresolved.symm.trans a.resolved_eq
  have hwt : run.wt.slot 0 = g.tree.slot 0 := funext fun L => slot_clone run.wt_eq 0 L
  obtain ⟨h₀, hf₀⟩ := clone_full run.wt_eq
  obtain ⟨⟨h, hf⟩, hseats⟩ := a.seats hf₀
  rw [hwt] at hseats
  unfold Group.seatsAfter Seats.commit
  rw [← hseats]
  rcases receiveCommitPath_tree run.out_eq with ⟨hpath, htree⟩ | ⟨up, hpath, hmerge⟩
  · rw [hpath, htree]
    rfl
  · obtain ⟨entries, hi⟩ := hf.merge_installed rfl (hf.lt_of_merge hmerge) hmerge
    rw [hpath, Seats.takePath, ← slot_zero_ite]
    funext L
    rw [hi.slot_eq]
    simp

theorem MemberRun.installed (run : MemberRun S g cache ac cm) {up : UpdatePath}
    (hpath : cm.path = some up) :
    ∃ h entries, ac.content.sender.leafIndex % 2 ^ 31 < 2 ^ h ∧
      run.applied.tree.merge S ac.content.sender.leafIndex up = .ok run.out.tree ∧
      Installed S run.applied.tree h (ac.content.sender.leafIndex % 2 ^ 31)
        (up.nodes.map (·.encryptionKey)) entries up.leafNode run.out.tree ∧
      Installed S run.seated h (ac.content.sender.leafIndex % 2 ^ 31)
        (up.nodes.map (·.encryptionKey)) entries up.leafNode run.out.tree ∧
      run.seated.slot 0 (ac.content.sender.leafIndex % 2 ^ 31) = some (.leaf up.leafNode) ∧
      run.seated.Full h := by
  obtain ⟨a⟩ := applyRun_of_applyProposals run.applied_eq
  obtain ⟨h₀, hf₀⟩ := clone_full run.wt_eq
  obtain ⟨⟨h, hf⟩, -⟩ := a.seats hf₀
  obtain ⟨hnone, -⟩ | ⟨up', hup', hmerge⟩ := receiveCommitPath_tree run.out_eq
  · cases hpath.symm.trans hnone
  cases hpath.symm.trans hup'
  have hL := hf.lt_of_merge hmerge
  obtain ⟨entries, hi⟩ := hf.merge_installed rfl hL hmerge
  have hseated : run.seated = run.applied.tree.setSlot 0
      (ac.content.sender.leafIndex % 2 ^ 31) (some (.leaf up.leafNode)) := by
    rw [seated, hpath]
  have hin : Inside h 0 (ac.content.sender.leafIndex % 2 ^ 31) :=
    ⟨Nat.zero_le h, by simpa using hL⟩
  rw [hseated]
  refine ⟨h, entries, hL, hmerge, hi, hi.seated (hf.sameButLeaf hL _), ?_, hf.setSlot _ _ _⟩
  rw [hf.slot_setSlot hin, if_pos ⟨rfl, rfl⟩]

theorem MemberRun.parentHashes_iff (run : MemberRun S g cache ac cm) :
    run.out.tree.verifyParentHashes S = .ok true ↔
      (∀ up, cm.path = some up →
        run.seated.TakesPath S (ac.content.sender.leafIndex % 2 ^ 31) up) ∧
      ∀ i, run.seated.HoldsParent i →
        (cm.path ≠ none → subtreeContains i (u32 (2 * ac.content.sender.leafIndex)) = false) →
        run.seated.OneSideMatches S i := by
  cases hpath : cm.path with
  | none =>
      obtain ⟨-, htree⟩ | ⟨up, hup, -⟩ := receiveCommitPath_tree run.out_eq
      · simp [verifyParentHashes_eq_true, htree, seated, hpath]
      · cases hpath.symm.trans hup
  | some up =>
      obtain ⟨h, entries, hL, -, -, hi, hseat, hf⟩ := run.installed hpath
      have hentries := hi.entries_eq
      rw [← Nat.log2_two_pow (n := h), ← hf.leafCount_eq] at hentries
      rw [hi.verifyParentHashes_seated hseat hf rfl hL, u32_double]
      simp only [Option.some.injEq, forall_eq', TakesPath, hentries, Except.ok.injEq,
        exists_eq_left', ne_eq, reduceCtorEq, not_false_eq_true, forall_const]

theorem MemberRun.elsewhere_matched (run : MemberRun S g cache ac cm)
    (hinv : g.tree.RepresentationInvariant) (hvalid : g.tree.verifyParentHashes S = .ok true) :
    ∀ i, run.seated.HoldsParent i →
      (cm.path ≠ none → subtreeContains i (u32 (2 * ac.content.sender.leafIndex)) = false) →
      run.seated.OneSideMatches S i := by
  obtain ⟨a⟩ := applyRun_of_applyProposals run.applied_eq
  have hwt := hinv.eq_of_clone run.wt_eq
  have hwtInv : run.wt.RepresentationInvariant := hwt ▸ hinv
  have hall : AllMatched S run.applied.tree :=
    a.allMatched hwtInv (hwtInv.allMatched (by rw [hwt, hvalid]))
  have hinvApplied := a.invariant hwtInv
  intro i hparent hoff
  cases hpath : cm.path with
  | none =>
      have hseated : run.seated = run.applied.tree := by rw [seated, hpath]
      rw [hseated] at hparent ⊢
      exact hinvApplied.oneSideMatches (fun k j p hp _ => hall k j p hp) hparent List.not_mem_nil
  | some up =>
      obtain ⟨h, entries, hL, hmerge, hiApplied, hi, hseat, hf⟩ := run.installed hpath
      have hoff := hoff (by simp [hpath])
      rw [u32_double] at hoff
      obtain ⟨hparent', hiff⟩ := (hi.agreeOff hseat hf).symm.holdsParent hoff hparent
      refine hiff.mpr ((merge_invariant hinvApplied hmerge).oneSideMatches
        (fun k j p hp hout => hiApplied.matched_off hall hp hout) hparent' ?_)
      rw [hi.mem_path_iff_above hparent', hoff]
      simp

theorem MemberRun.leavesValid_iff (run : MemberRun S g cache ac cm)
    (hvalid : LeavesValid S g.groupContext.groupID g.tree) :
    LeavesValid S g.groupContext.groupID run.out.tree ↔
      ∀ resolved,
        resolveProposals cache ac.content.sender.leafIndex cm.proposals = .ok resolved →
        LeavesFit S g.groupContext.groupID (g.seatsAfter ac cm resolved)
          (Carried resolved cm.path) := by
  obtain ⟨a⟩ := applyRun_of_applyProposals run.applied_eq
  constructor
  · intro hnew resolved hresolved
    rw [← run.seats_eq hresolved]
    intro L l _ hseat
    exact ⟨hnew.signed L l hseat,
      fun M l' hne hseat' => hnew.distinct L M l l' hne.symm hseat hseat'⟩
  · intro hcarried
    have hcarried := hcarried a.resolved a.resolved_eq
    rw [← run.seats_eq a.resolved_eq] at hcarried
    have hkept : ∀ L l, run.out.tree.slot 0 L = some (.leaf l) →
        Carried a.resolved cm.path l ∨ g.tree.slot 0 L = some (.leaf l) := by
      intro L l hl
      rw [run.seats_eq a.resolved_eq] at hl
      exact Seats.commit_kept hl
    constructor
    · intro L l hl
      rcases hkept L l hl with hnew | hold
      · exact (hcarried L l hnew hl).1
      · exact hvalid.signed L l hold
    · intro L M l l' hne hl hl'
      rcases hkept L l hl with hnew | hold
      · exact (hcarried L l hnew hl).2 M l' hne.symm hl'
      · rcases hkept M l' hl' with hnew' | hold'
        · exact ((hcarried M l' hnew' hl').2 L l hne hl).symm
        · exact hvalid.distinct L M l l' hne hold hold'

theorem MemberRun.treeValid_iff (run : MemberRun S g cache ac cm)
    (hvalid : TreeValid S g.groupContext.groupID g.tree) :
    TreeValid S g.groupContext.groupID run.result.tree ↔ run.Fits := by
  have hleaves := run.leavesValid_iff (verifyLeafSignatures_eq_ok.mp hvalid.leafSignatures)
  constructor
  · rintro ⟨hhashes, hsigned⟩
    obtain ⟨hpath, helsewhere⟩ := run.parentHashes_iff.mp hhashes
    exact ⟨hleaves.mp (verifyLeafSignatures_eq_ok.mp hsigned), hpath, .inr helsewhere⟩
  · rintro ⟨hcarried, hpath, helsewhere⟩
    refine ⟨run.parentHashes_iff.mpr ⟨hpath, ?_⟩,
      verifyLeafSignatures_eq_ok.mpr (hleaves.mpr hcarried)⟩
    rcases helsewhere with hinv | helsewhere
    · exact run.elsewhere_matched hinv hvalid.parentHashes
    · exact helsewhere

/-- Accepted member commits keep a valid tree valid exactly when the leaves they
bring in and the path they install fit. -/
theorem validityPreserved_iff :
    ValidityPreserved S g proposals commit ↔
      (TreeValid S g.groupContext.groupID g.tree →
        ∀ (o : OpenedCommit S g proposals commit)
          (run : MemberRun S g o.cache o.ac o.cm), run.Fits) := by
  constructor
  · intro hpreserved hvalid o run
    exact (run.treeValid_iff hvalid).mp (hpreserved hvalid run.result o.message
      (processCommit_eq_ok.mpr (.inl ⟨o, run, rfl⟩)) o.message_eq o.member)
  · intro hfits hvalid g' m hok hm hmember
    rcases processCommit_eq_ok.mp hok with ⟨o, run, rfl⟩ | hexternal
    · exact (run.treeValid_iff hvalid).mpr (hfits hvalid o run)
    · obtain ⟨-, m', -, -, hm', hext, -⟩ := hexternal
      cases hm.symm.trans hm'
      rw [hmember] at hext
      cases hext

end Fits

/-! ## A member without a valid signature -/

/-- Members `A` and `B`; `A` commits the addition of a key package whose leaf
node has the signature `[0]`.  The state of `B`, and the commit. -/
def unsignedAddition : Result (Group × Bytes) := do
  let signer (key : UInt8) : Option Signer := some ⟨[key]⟩
  let a ← newGroup plainSuite [9] (.basic [1]) (signer 1) ⟨0, 1⟩ ⟨[1, 1], [1, 2]⟩
  let (kpB, initB, leafB) ← newKeyPackage plainSuite (.basic [2]) (signer 2)
    ⟨0, 1⟩ ⟨[2, 1], [2, 2]⟩
  let r ← a.commit plainSuite ⟨[.add kpB], []⟩ ⟨[11], fun _ _ => [], ⟨0, 0, 0, 0⟩, fun _ => []⟩
  let kpBytes ← encodeKeyPackageMessage kpB
  let b ← joinFromWelcome plainSuite (r.welcome.getD []) ⟨kpBytes, initB, leafB, signer 2, [], []⟩
  let (kpC, _, _) ← newKeyPackage plainSuite (.basic [3]) (signer 3) ⟨0, 1⟩ ⟨[3, 1], [3, 2]⟩
  let unsigned := { kpC with leafNode := { kpC.leafNode with signature := [0] } }
  let r ← r.group.commit plainSuite ⟨[.add unsigned], []⟩
    ⟨[12], fun _ _ => [], ⟨0, 0, 0, 0⟩, fun _ => []⟩
  return (b, r.commit)

/-- `B` accepts the commit, and its tree is not valid any more. -/
theorem unsigned_addition_accepted :
    ∃ b commit, unsignedAddition = .ok (b, commit) ∧
      ¬ ValidityPreserved plainSuite b [] commit := by
  obtain ⟨⟨b, commit⟩, hrun, hhashes, hsigned, ⟨m, hm, hmember⟩, b', hb', hinvalid⟩ :
      ∃ run, unsignedAddition = .ok run ∧
        run.1.tree.verifyParentHashes plainSuite = .ok true ∧
        run.1.tree.verifyLeafSignatures plainSuite run.1.groupContext.groupID = .ok () ∧
        (∃ m, unmarshalMLSMessage run.2 = .ok m ∧ m.isExternalCommit = false) ∧
        ∃ b', run.1.processCommit plainSuite [] run.2 = .ok b' ∧
          b'.tree.verifyLeafSignatures plainSuite run.1.groupContext.groupID ≠ .ok () := by
    decide +kernel
  refine ⟨b, commit, hrun, fun hpreserved => ?_⟩
  have hvalid := hpreserved ⟨hhashes, hsigned⟩ b' m hb' hm hmember
  exact hinvalid hvalid.leafSignatures

end MlsGo
