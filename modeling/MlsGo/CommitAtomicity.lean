import MlsGo.InPlaceTrees

/-!
# Atomicity of commits

`ProcessCommit` in place against `ProcessCommit` on values.  All writes before the
final assignments go to objects made during the call: the working tree, the clone
that is hashed, and the new private states.
-/

namespace MlsGo

open InPlacePrograms

namespace GoProg

variable {S : Suite} {m₀ m : Memory} {a : ℕ} {t : RatchetTree} {b wt : ℕ} {p : TreeKEMPrivate}

theorem inside_lift_bind {α β γ : Type} {keep : Memory → Prop} {r : Result γ} {f : γ → GoProg α}
    {g : γ → Result β} {post : α → β → Memory → Prop} (message : String) (hkeep : keep m)
    (hrest : ∀ c, r = .ok c → Simulates keep (f c) m (g c) post) :
    Simulates keep (inside message (Prog.lift r) >>= f) m (within message r >>= g) post := by
  have hlift : Simulates keep (Prog.lift r : GoProg γ) m r
      fun c d m' => c = d ∧ r = .ok c ∧ m' = m := Simulates.lift hkeep fun c hc => ⟨rfl, hc, rfl⟩
  refine (inside_simulates message hlift).bind ?_
  rintro c _ _ ⟨rfl, hc, rfl⟩
  exact hrest c hc

/-! ## Proposals -/

theorem applyUpdates_simulates (resolved : List Resolved) :
    ∀ m t, m₀.Owns m a t → Simulates m₀.Keeps (applyUpdates a resolved) m
      (MlsGo.applyUpdates t resolved) (Has m₀ a) := by
  induction resolved with
  | nil => exact fun m t ho => .ok ho
  | cons r rest ih =>
      intro m t ho
      obtain ⟨p, sender⟩ := r
      cases p with
      | update ln =>
          refine (inside_simulates _ (updateLeaf_simulates ho sender ln)).bind ?_
          exact fun _ t' m' ho' => ih m' t' ho'
      | _ => exact ih m t ho

theorem applyRemoves_simulates (resolved : List Resolved) :
    ∀ m t, m₀.Owns m a t → Simulates m₀.Keeps (applyRemoves a resolved) m
      (MlsGo.applyRemoves t resolved) (Has m₀ a) := by
  induction resolved with
  | nil => exact fun m t ho => .ok ho
  | cons r rest ih =>
      intro m t ho
      obtain ⟨p, sender⟩ := r
      cases p with
      | remove removed =>
          refine (inside_simulates _ (removeLeaf_simulates ho _)).bind ?_
          exact fun _ t' m' ho' => ih m' t' ho'
      | _ => exact ih m t ho

theorem applyAdds_simulates (resolved : List Resolved) :
    ∀ m t, m₀.Owns m a t → Simulates m₀.Keeps (applyAdds a resolved) m
      (MlsGo.applyAdds t resolved) fun added out m' => added = out.2 ∧ m₀.Owns m' a out.1 := by
  induction resolved with
  | nil => exact fun m t ho => .ok ⟨rfl, ho⟩
  | cons r rest ih =>
      intro m t ho
      obtain ⟨p, sender⟩ := r
      cases p with
      | add kp =>
          refine (inside_simulates _ (addLeaf_simulates ho kp.leafNode)).bind ?_
          rintro _ ⟨li, t₁⟩ m₁ ⟨rfl, ho₁⟩
          refine (ih m₁ t₁ ho₁).bind ?_
          rintro _ ⟨t₂, added⟩ m₂ ⟨rfl, ho₂⟩
          exact .ok ⟨rfl, ho₂⟩
      | _ => exact ih m t ho

def summary (applied : AppliedProposals) : ProposalSummary :=
  ⟨applied.provisionalExt, applied.psks, applied.pathRequired, applied.added⟩

theorem applyProposals_simulates (ho : m₀.Owns m a t) (cm : Commit) (cache : ProposalCache)
    (currentExt : List Extension) (externalPSKs : GoMap Bytes Bytes)
    (resumptionPSKs : GoMap UInt64 Bytes) (groupID : Bytes) (committerLeaf : ℕ) :
    Simulates m₀.Keeps
      (applyProposals a cm cache currentExt externalPSKs resumptionPSKs groupID committerLeaf) m
      (MlsGo.applyProposals t cm cache currentExt externalPSKs resumptionPSKs
        groupID committerLeaf)
      fun s applied m' => s = summary applied ∧ m₀.Owns m' a applied.tree := by
  refine Simulates.lift_bind ho.kept fun resolved _ => ?_
  refine (applyUpdates_simulates resolved m t ho).bind fun _ t₁ m₁ ho₁ => ?_
  refine (applyRemoves_simulates resolved m₁ t₁ ho₁).bind fun _ t₂ m₂ ho₂ => ?_
  refine (applyAdds_simulates resolved m₂ t₂ ho₂).bind ?_
  rintro _ ⟨t₃, added⟩ m₃ ⟨rfl, ho₃⟩
  refine Simulates.lift_bind ho₃.kept fun psks _ => ?_
  exact .ok ⟨rfl, ho₃⟩

theorem applyExternalRemoves_simulates (removed : List UInt32) :
    ∀ m t, m₀.Owns m a t → Simulates m₀.Keeps (applyExternalRemoves a removed) m
      (MlsGo.applyExternalRemoves t removed) (Has m₀ a) := by
  induction removed with
  | nil => exact fun m t ho => .ok ho
  | cons r rest ih =>
      intro m t ho
      refine (inside_simulates _ (removeLeaf_simulates ho _)).bind ?_
      exact fun _ t' m' ho' => ih m' t' ho'

/-! ## Private states -/

structure HoldsPriv (m₀ : Memory) (b : ℕ) (p : TreeKEMPrivate)
    (m : Memory) : Prop where
  kept : m₀.Keeps m
  lt : b < m.privs.length
  priv_eq : m.priv b = p

def addPriv (m : Memory) (p : TreeKEMPrivate) : Memory := { m with privs := m.privs ++ [p] }

theorem newPriv_eq (m : Memory) (p : TreeKEMPrivate) :
    newPriv p m = (.ok m.privs.length, addPriv m p) := rfl

theorem holdsPriv_addPriv (m : Memory) (p : TreeKEMPrivate) :
    HoldsPriv m m.privs.length p (addPriv m p) := by
  refine ⟨⟨List.prefix_rfl, List.prefix_rfl, List.prefix_append _ _, rfl⟩, by simp [addPriv], ?_⟩
  simp [Memory.priv, addPriv]

theorem addPathSecret_simulates (hpriv : HoldsPriv m₀ b p m) (hfresh : m₀.privs.length ≤ b)
    (node : ℕ) (pathSecret : Bytes) :
    Simulates m₀.Keeps (addPathSecret S b node pathSecret) m
      (p.addPathSecret S node pathSecret) fun _ p' m' => HoldsPriv m₀ b p' m' := by
  refine Simulates.lift_bind hpriv.kept ?_
  rintro ⟨priv, pub⟩ -
  have hprivs := isPrefix_set hpriv.kept.privs hfresh
  refine .ok ⟨⟨hpriv.kept.nodes, hpriv.kept.trees, hprivs _, hpriv.kept.group⟩,
    by simpa using hpriv.lt, ?_⟩
  simp [Memory.priv, hpriv.lt, ← hpriv.priv_eq]

theorem installJoinerLoop_simulates {nLeaves : ℕ} (hfresh : m₀.privs.length ≤ b) :
    ∀ fuel node sec p m, HoldsPriv m₀ b p m →
      Simulates m₀.Keeps (installJoinerLoop S b nLeaves fuel node sec) m
        (MlsGo.installJoinerLoop S nLeaves fuel node sec p)
        fun _ p' m' => HoldsPriv m₀ b p' m' := by
  intro fuel
  induction fuel with
  | zero => exact fun node sec p m hpriv => .error hpriv.kept
  | succ fuel ih =>
      intro node sec p m hpriv
      refine (addPathSecret_simulates hpriv hfresh node sec).bind ?_
      intro _ p₁ m₁ hpriv₁
      split
      · exact .ok hpriv₁
      · refine Simulates.lift_bind hpriv₁.kept fun sec _ => ?_
        refine Simulates.lift_bind hpriv₁.kept ?_
        rintro ⟨node, ok⟩ -
        exact ih node sec p₁ m₁ hpriv₁

theorem installJoinerPriv_simulates (hpriv : HoldsPriv m₀ b p m) (hfresh : m₀.privs.length ≤ b)
    (pathSecret : Bytes) (ownLeaf senderLeaf nLeaves : ℕ) :
    Simulates m₀.Keeps (installJoinerPriv S b pathSecret ownLeaf senderLeaf nLeaves) m
      (MlsGo.installJoinerPriv S p pathSecret ownLeaf senderLeaf nLeaves) fun _ p' m' =>
      HoldsPriv m₀ b p' m' := by
  refine Simulates.lift_bind hpriv.kept fun node _ => ?_
  exact installJoinerLoop_simulates hfresh 34 node pathSecret p m hpriv

theorem rebuildPriv_simulates (hb : b < m.privs.length) (caller : String)
    (ownLeaf committerLeaf nLeaves : ℕ) (pathSecret : Bytes) :
    Simulates m.Keeps (rebuildPriv S caller ownLeaf committerLeaf nLeaves b pathSecret) m
      (MlsGo.rebuildPriv S caller ownLeaf committerLeaf nLeaves (m.priv b) pathSecret) fun b' p m'
      => HoldsPriv m b' p m' := by
  rw [rebuildPriv, MlsGo.rebuildPriv]
  split
  · exact .ok ⟨Memory.Keeps.refl m, hb, rfl⟩
  · refine Simulates.read_bind ?_
    cases hheld : (m.priv b).privateKey (u32 (2 * ownLeaf)) with
    | none => exact .error (Memory.Keeps.refl m)
    | some ownKey =>
        refine Simulates.step (newPriv_eq m _) ?_
        refine (inside_simulates _ (installJoinerPriv_simulates (holdsPriv_addPriv m _) le_rfl
          pathSecret ownLeaf committerLeaf nLeaves)).map_value ?_
        exact fun _ p m' hpriv' => hpriv'

/-! ## Paths -/

structure HasPath (m₀ : Memory) (wt : ℕ) (secrets : PathSecrets)
    (out : PathOutcome) (m : Memory) : Prop where
  owns : m₀.Owns m wt out.tree
  treeHash_eq : secrets.treeHash = out.treeHash
  pathSecret_eq : secrets.pathSecret = out.pathSecret
  commitSecret_eq : secrets.commitSecret = out.commitSecret

/-- The hash clone is made after the working tree, which it therefore leaves
alone; the private state is older than both. -/
theorem receivePath_simulates (ho : m₀.Owns m wt t) (hb : b < m₀.privs.length)
    (hpriv : m₀.priv b = p) (caller : String) (senderLeaf : ℕ) (path : UpdatePath)
    (encGC : Bytes → GroupContext) (newlyAdded : List ℕ) :
    Simulates m₀.Keeps (receivePath S caller wt senderLeaf path b encGC newlyAdded) m
      (MlsGo.receivePath S caller t senderLeaf path p encGC newlyAdded) (HasPath m₀ wt) := by
  have hweaken : ∀ m', m.Keeps m' → m₀.Keeps m' := fun m' => ho.kept.trans
  refine ((inside_simulates _ (clone_simulates ho.tree_eq)).mono hweaken
    fun _ _ _ h => h).bind fun ct t₁ m₁ hct => ?_
  refine ((inside_simulates _ (merge_simulates hct senderLeaf path)).mono hweaken
    fun _ _ _ h => h).bind fun _ t₂ m₂ hct₂ => ?_
  refine ((inside_simulates _ (onTree_simulates hct₂)).mono hweaken fun _ _ _ h => h).bind ?_
  rintro treeHash _ m₂ ⟨rfl, rfl⟩
  have ho₂ := ho.of_keeps hct₂.kept
  refine inside_lift_bind _ ho₂.kept fun encGCBytes _ => ?_
  have hread : (m₂.tree wt).processUpdatePath S senderLeaf path (m₂.priv b) encGCBytes newlyAdded =
      t.processUpdatePath S senderLeaf path p encGCBytes newlyAdded := by
    rw [ho₂.tree_eq, ho₂.kept.priv_eq hb, hpriv]
  refine (inside_simulates _ (Simulates.ask hread ho₂.kept)).bind ?_
  rintro ⟨pathSecret, commitSecret⟩ _ _ ⟨rfl, rfl⟩
  refine (inside_simulates _ (merge_simulates ho₂ senderLeaf path)).bind ?_
  intro _ t₃ m₃ ho₃
  exact .ok ⟨ho₃, rfl, rfl, rfl⟩

theorem sealPrivs (ho : m₀.Owns m a t) :
    Memory.Keeps m₀ { m₀ with privs := m.privs } ∧
      Memory.Owns { m₀ with privs := m.privs } m a t :=
  ⟨⟨List.prefix_rfl, List.prefix_rfl, ho.kept.privs, rfl⟩, ⟨ho.kept.nodes, ho.kept.trees,
    List.prefix_rfl, ho.kept.group⟩, ho.fresh, ho.lt, ho.tree_eq, ho.range, ho.distinct⟩

theorem receiveCommitPath_simulates {g : Group} {applied : AppliedProposals}
    (ho : m₀.Owns m wt applied.tree) (hb : b < m₀.privs.length) (hpriv : m₀.priv b = p)
    (committerLeaf : ℕ) (path : Option UpdatePath) :
    Simulates m₀.Keeps (receiveCommitPath S g wt (summary applied) committerLeaf b path) m
      (g.receiveCommitPath S applied committerLeaf p path) (HasPath m₀ wt) := by
  cases path with
  | some path => exact receivePath_simulates ho hb hpriv _ _ _ _ _
  | none =>
      refine (inside_simulates _ (onTree_simulates ho)).bind ?_
      rintro treeHash _ _ ⟨rfl, rfl⟩
      exact .ok ⟨ho, rfl, rfl, rfl⟩

/-! ## Whole commits -/

def Holds (m : Memory) (g : Group) : Prop := m.Valid ∧ m.view = g

theorem advance_holds (hin : m.InBounds wt) (hb : b < m.privs.length)
    (newGC : GroupContext) (es : EpochSecrets) (interim : Bytes) (st : SecretTree) :
    Holds (advance wt newGC es interim b st m).2
      (m.view.advance (m.tree wt) newGC es interim (m.priv b) st) := ⟨⟨hin, hb⟩, rfl⟩

theorem resetGeneration_holds {g : Group} (hgroup : Holds m g) :
    Holds { m with group := { m.group with handshakeGeneration := 0 } }
      { g with handshakeGeneration := 0 } := by
  obtain ⟨hvalid, rfl⟩ := hgroup
  exact ⟨⟨hvalid.tree, hvalid.priv⟩, rfl⟩

theorem workingPriv_run (hvalid : m.Valid) (own : Option Bytes) :
    ∃ b m', workingPriv m.view.ownLeaf own m = (.ok b, m') ∧
      HoldsPriv m b (m.view.workingPriv own) m' := by
  cases own with
  | some priv => exact ⟨m.privs.length, addPriv m _, newPriv_eq m _, holdsPriv_addPriv m _⟩
  | none => exact ⟨m.group.priv, m, rfl, Memory.Keeps.refl m, hvalid.priv, rfl⟩

theorem processMemberCommit_simulates (hvalid : m.Valid) (cache : ProposalCache)
    (ac : AuthenticatedContent) (cm : Commit) :
    Simulates m.Keeps (processMemberCommit S cache ac cm) m
      (m.view.processMemberCommit S cache ac cm) fun _ g' m' => Holds m' g' := by
  refine Simulates.read_bind ?_
  refine (inside_simulates _ (clone_simulates rfl)).bind fun wt t₁ m₁ ho₁ => ?_
  refine Simulates.read_bind ?_
  rw [ho₁.kept.view_eq hvalid]
  refine (inside_simulates _ (applyProposals_simulates ho₁ _ _ _ _ _ _ _)).bind ?_
  rintro _ applied m₂ ⟨rfl, ho₂⟩
  refine Simulates.read_bind ?_
  have hview₂ := ho₂.kept.view_eq hvalid
  have hvalid₂ := ho₂.kept.valid hvalid
  rw [hview₂]
  refine inside_lift_bind _ ho₂.kept fun own _ => ?_
  obtain ⟨b, m₃, hrun, hpriv₃⟩ := workingPriv_run hvalid₂ own
  rw [hview₂] at hrun hpriv₃
  refine Simulates.step hrun ?_
  have ho₃ := ho₂.of_keeps hpriv₃.kept
  refine inside_lift_bind _ ho₃.kept fun acBytes _ => ?_
  refine inside_lift_bind _ ho₃.kept ?_
  rintro ⟨confirmedInput, confTag⟩ -
  obtain ⟨hsealed, hos⟩ := sealPrivs ho₃
  refine ((receiveCommitPath_simulates hos hpriv₃.lt hpriv₃.priv_eq _ _).mono
    (fun _ => hsealed.trans) fun _ _ _ h => h).bind fun secrets out m₄ hpath => ?_
  have hkept₄ := hsealed.trans hpath.owns.kept
  refine Simulates.read_bind ?_
  rw [hkept₄.view_eq hvalid, hpath.treeHash_eq, hpath.pathSecret_eq, hpath.commitSecret_eq]
  refine inside_lift_bind _ hkept₄ fun gcBytes _ => ?_
  refine inside_lift_bind _ hkept₄ fun psk _ => ?_
  refine inside_lift_bind _ hkept₄ fun es _ => ?_
  refine Simulates.lift_bind hkept₄ fun _ _ => ?_
  refine inside_lift_bind _ hkept₄ fun interim _ => ?_
  refine Simulates.read_bind ?_
  rw [hpath.owns.tree_eq]
  have hb₄ := hpriv₃.lt.trans_le hpath.owns.kept.privs.length_le
  have hpriv₄ : m₄.priv b = m.view.workingPriv own :=
    (hpath.owns.kept.priv_eq hpriv₃.lt).trans hpriv₃.priv_eq
  have hrebuild := rebuildPriv_simulates (S := S) hb₄ "group: ProcessCommit"
    m.view.ownLeaf ac.content.sender.leafIndex out.tree.leafCount out.pathSecret
  rw [hpriv₄] at hrebuild
  refine (hrebuild.mono (fun _ => hkept₄.trans) fun _ _ _ h => h).bind ?_
  intro b' newPriv m₅ hpriv₅
  have hkept₅ := hkept₄.trans hpriv₅.kept
  refine inside_lift_bind _ hkept₅ fun st _ => ?_
  have ho₅ := hpath.owns.of_keeps hpriv₅.kept
  have hgroup := advance_holds ho₅.inBounds hpriv₅.lt
    (m.view.groupContext.next out.treeHash (confirmedTranscriptHash S m.view.interim
      confirmedInput) applied.provisionalExt) es interim st
  rw [hkept₅.view_eq hvalid, ho₅.tree_eq, hpriv₅.priv_eq] at hgroup
  exact Simulates.update_bind (.ok (resetGeneration_holds hgroup))

theorem placeExternalJoiner_simulates (hvalid : m.Valid) (removed : List UInt32)
    (leaf : LeafNode) :
    Simulates m.Keeps (placeExternalJoiner S removed leaf) m
      (m.view.placeExternalJoiner S removed leaf)
      fun placed value m' => placed.1 = value.1 ∧ m.Owns m' placed.2 value.2 := by
  refine Simulates.read_bind ?_
  refine (inside_simulates _ (clone_simulates rfl)).bind fun wt t₁ m₁ ho₁ => ?_
  refine (applyExternalRemoves_simulates removed m₁ t₁ ho₁).bind fun _ t₂ m₂ ho₂ => ?_
  refine (inside_simulates _ (addLeaf_simulates ho₂ leaf)).bind ?_
  rintro _ ⟨liC, t₃⟩ m₃ ⟨rfl, ho₃⟩
  refine Simulates.read_bind ?_
  rw [ho₃.kept.view_eq hvalid]
  refine inside_lift_bind _ ho₃.kept fun signed _ => ?_
  refine Simulates.lift_bind ho₃.kept fun _ _ => ?_
  exact .ok ⟨rfl, ho₃⟩

/-- On values the new private state of an external commit is that of a member
commit whose working state holds the own key alone. -/
theorem rebuildExternalPriv_simulates (ownLeaf liC nLeaves : ℕ) (ownKey pathSecret : Bytes) :
    Simulates m.Keeps (rebuildExternalPriv S ownLeaf liC nLeaves ownKey pathSecret) m
      (MlsGo.rebuildPriv S "group: processExternalCommit" ownLeaf liC nLeaves
        (TreeKEMPrivate.new ownLeaf ownKey) pathSecret)
      fun b p m' => HoldsPriv m b p m' := by
  have hkey : (TreeKEMPrivate.new ownLeaf ownKey).privateKey (u32 (2 * ownLeaf)) =
      some ownKey := by
    simp [TreeKEMPrivate.new, TreeKEMPrivate.privateKey, GoMap.get]
  have hpriv := holdsPriv_addPriv m (TreeKEMPrivate.new ownLeaf ownKey)
  rw [MlsGo.rebuildPriv, hkey]
  refine Simulates.step (newPriv_eq m _) ?_
  split
  · exact .ok hpriv
  · refine (inside_simulates _ (installJoinerPriv_simulates hpriv le_rfl pathSecret
      ownLeaf liC nLeaves)).map_value ?_
    exact fun _ p m' hpriv' => hpriv'

theorem processExternalCommit_simulates (hvalid : m.Valid) (message : MLSMessage) :
    Simulates m.Keeps (processExternalCommit S message) m (m.view.processExternalCommit S message)
      fun _ g' m' => Holds m' g' := by
  have hself := Memory.Keeps.refl m
  refine Simulates.read_bind ?_
  refine Simulates.lift_bind hself fun content _ => ?_
  refine inside_lift_bind _ hself fun acBytes _ => ?_
  refine inside_lift_bind _ hself ?_
  rintro ⟨confirmedInput, confTag⟩ -
  refine inside_lift_bind _ hself ?_
  rintro ⟨extPriv, extPub⟩ -
  refine inside_lift_bind _ hself fun initSecret _ => ?_
  refine (placeExternalJoiner_simulates hvalid _ _).bind ?_
  rintro ⟨liC, wt⟩ ⟨_, t₁⟩ m₁ ⟨rfl, ho₁⟩
  refine Simulates.read_bind (Simulates.read_bind ?_)
  rw [ho₁.kept.group, ho₁.kept.view_eq hvalid]
  refine (receivePath_simulates ho₁ hvalid.priv rfl _ _ _ _ _).bind ?_
  intro secrets out m₂ hpath
  have hkept₂ := hpath.owns.kept
  refine (inside_simulates _ (onTree_simulates hpath.owns)).bind ?_
  rintro valid _ m₂ ⟨rfl, rfl⟩
  refine Simulates.lift_bind hkept₂ fun _ _ => ?_
  refine Simulates.read_bind ?_
  rw [hkept₂.view_eq hvalid, hpath.treeHash_eq, hpath.pathSecret_eq, hpath.commitSecret_eq]
  refine inside_lift_bind _ hkept₂ fun gcBytes _ => ?_
  refine inside_lift_bind _ hkept₂ fun es _ => ?_
  refine Simulates.lift_bind hkept₂ fun _ _ => ?_
  refine inside_lift_bind _ hkept₂ fun interim _ => ?_
  cases hheld : m.view.priv.privateKey (u32 (2 * m.view.ownLeaf)) with
  | none => exact .error hkept₂
  | some ownKey =>
      refine Simulates.read_bind ?_
      rw [hpath.owns.tree_eq]
      refine ((rebuildExternalPriv_simulates m.view.ownLeaf liC _ ownKey
        out.pathSecret).mono (fun _ => hkept₂.trans) fun _ _ _ h => h).bind ?_
      intro b' newPriv m₃ hpriv₃
      have hkept₃ := hkept₂.trans hpriv₃.kept
      refine inside_lift_bind _ hkept₃ fun st _ => ?_
      have ho₃ := hpath.owns.of_keeps hpriv₃.kept
      have hgroup := advance_holds ho₃.inBounds hpriv₃.lt
        (m.view.groupContext.next out.treeHash (confirmedTranscriptHash S m.view.interim
          confirmedInput) m.view.groupContext.extensions) es interim st
      rw [hkept₃.view_eq hvalid, ho₃.tree_eq, hpriv₃.priv_eq] at hgroup
      exact .ok hgroup

/-- `ProcessCommit` in place ends as `ProcessCommit` on values does: if it
succeeds the memory holds the new group, and if it fails every object that was
there is as it was. -/
theorem processCommit_simulates (hvalid : m.Valid) (proposals : List Bytes) (commit : Bytes) :
    Simulates m.Keeps (processCommit S proposals commit) m
      (m.view.processCommit S proposals commit) fun _ g' m' => Holds m' g' := by
  have hself := Memory.Keeps.refl m
  refine Simulates.read_bind ?_
  refine Simulates.lift_bind hself ?_
  rintro ⟨refs, cache⟩ -
  refine inside_lift_bind _ hself fun message _ => ?_
  split
  · exact processExternalCommit_simulates hvalid message
  · refine Simulates.read_bind ?_
    refine Simulates.lift_bind hself ?_
    rintro ⟨ac, cm⟩ -
    exact processMemberCommit_simulates hvalid cache ac cm

end GoProg

end MlsGo
