import MlsGo.ExternalEntry
import MlsGo.PathKeys
import MlsGo.WelcomeEntry

/-!
# All members of a group

One member commits, or somebody enters by an external commit; every other member
reads that commit, and those who were added read the Welcome.  If everybody held the
keys of its path before, then everybody is in one epoch afterwards, the sender of the
path holds the keys of its new path, and each reader holds what it has rebuilt.
-/

namespace MlsGo

open InOrderLayout RatchetTree

variable {S : Suite}

/-! ## Members -/

abbrev World := ℕ → Option Group

structure Seated (S : Suite) (L : ℕ) (g : Group) : Prop where
  own : g.ownLeaf = L
  consistent : g.Consistent S
  signs : g.SignsAsLeaf S

structure World.Synced (S : Suite) (world : World) : Prop where
  seated : ∀ L g, world L = some g → Seated S L g
  same : ∀ L M g g', world L = some g → world M = some g' → SameEpoch g g'

/-- Every member has the private key of every populated node of its path that does
not list it as unmerged. -/
def World.KeysComplete (S : Suite) (world : World) : Prop :=
  ∀ L g, world L = some g → RatchetTree.KeysComplete S g.tree L g.priv

def World.HoldsKeys (S : Suite) (world : World) : Prop :=
  ∀ L g, world L = some g → HoldsPathKeys S g.tree L g.priv

theorem World.HoldsKeys.complete {world : World} (hholds : world.HoldsKeys S) :
    world.KeysComplete S := fun L g hg => (hholds L g hg).complete

theorem SameEpoch.symm {g g' : Group} (hsame : SameEpoch g g') : SameEpoch g' g :=
  ⟨hsame.groupContext_eq.symm, hsame.tree_eq.symm, hsame.epoch_eq.symm,
    hsame.initSecret_eq.symm, hsame.interim_eq.symm, hsame.secretTree_eq.symm⟩

theorem SameEpoch.trans {g g' g'' : Group} (hfirst : SameEpoch g g')
    (hsecond : SameEpoch g' g'') : SameEpoch g g'' :=
  ⟨hfirst.groupContext_eq.trans hsecond.groupContext_eq, hfirst.tree_eq.trans hsecond.tree_eq,
    hfirst.epoch_eq.trans hsecond.epoch_eq, hfirst.initSecret_eq.trans hsecond.initSecret_eq,
    hfirst.interim_eq.trans hsecond.interim_eq, hfirst.secretTree_eq.trans hsecond.secretTree_eq⟩

theorem SameEpoch.refl (g : Group) : SameEpoch g g := ⟨rfl, rfl, rfl, rfl, rfl, rfl⟩

theorem Group.Consistent.exists_leaf {g : Group} (hg : g.Consistent S) :
    ∃ l, g.tree.slot 0 g.ownLeaf = some (.leaf l) ∧ g.tree.leafNodeAt g.ownLeaf = .ok l := by
  obtain ⟨h, hf, -⟩ := hg.tree_invariant.full
  obtain ⟨n, hn⟩ := Option.ne_none_iff_exists'.mp hg.own_member
  obtain ⟨l, rfl⟩ := hg.tree_invariant.wellFormed.leaf_slot _ n hn
  exact ⟨l, hn, leafNodeAt_of_slot hf hn⟩

/-! ## Delivery of a path -/

/-- A path that has been sent and read: the tree it was made for, its sender, and the
members afterwards. -/
structure Delivery where
  tree : RatchetTree
  path : GeneratedPath
  sender : ℕ
  after : World

/-- No reader needed a key below the point where it entered the path, and the keys
that it derives above belong to the path. -/
def Delivery.KeepsKeys (S : Suite) (e : Delivery) : Prop :=
  ∀ L, L ≠ e.sender → e.after L ≠ none →
    NoneDropped e.tree e.sender L ∧ Aligned S e.tree e.path e.sender L

/-- The sender `g₀` is in the tree with its path and holds the keys of the path; each
reader is in the epoch of the sender, with the keys it has rebuilt. -/
structure Delivery.Outcome (S : Suite) (e : Delivery) (g₀ : Group) : Prop where
  sender_eq : e.after e.sender = some g₀
  tree_eq : g₀.tree = e.path.tree
  seated : Seated S e.sender g₀
  holds : HoldsPathKeys S e.path.tree e.sender g₀.priv
  reader : ∀ L g, L ≠ e.sender → e.after L = some g →
    Seated S L g ∧ SameEpoch g₀ g ∧ Rebuilt S e.tree e.path e.sender L g.priv

namespace Delivery.Outcome

variable {e : Delivery} {g₀ : Group} (ho : e.Outcome S g₀)

include ho

theorem member {L : ℕ} {g : Group} (hg : e.after L = some g) : Seated S L g ∧ SameEpoch g₀ g := by
  by_cases hL : L = e.sender
  · subst hL
    cases ho.sender_eq.symm.trans hg
    exact ⟨ho.seated, .refl g₀⟩
  · obtain ⟨hseated, hsame, -⟩ := ho.reader L g hL hg
    exact ⟨hseated, hsame⟩

theorem synced : e.after.Synced S :=
  ⟨fun _ _ hg => (ho.member hg).1,
    fun _ _ _ _ hg hg' => (ho.member hg).2.symm.trans (ho.member hg').2⟩

theorem after_tree {L : ℕ} {g : Group} (hg : e.after L = some g) : g.tree = e.path.tree := by
  rw [← (ho.member hg).2.tree_eq, ho.tree_eq]

theorem keysComplete_iff : e.after.KeysComplete S ↔ e.KeepsKeys S := by
  constructor
  · intro hcomplete L hL hne
    obtain ⟨g, hg⟩ := Option.ne_none_iff_exists'.mp hne
    have hkeys := hcomplete L g hg
    rw [ho.after_tree hg] at hkeys
    exact (ho.reader L g hL hg).2.2.complete_iff.mp hkeys
  · intro hkeeps L g hg
    rw [ho.after_tree hg]
    by_cases hL : L = e.sender
    · subst hL
      cases ho.sender_eq.symm.trans hg
      exact ho.holds.complete
    · exact (ho.reader L g hL hg).2.2.complete_iff.mpr (hkeeps L hL (by simp [hg]))

theorem holdsKeys (hcomplete : e.after.KeysComplete S) : e.after.HoldsKeys S := by
  intro L g hg
  have hkeys := hcomplete L g hg
  rw [ho.after_tree hg] at hkeys ⊢
  by_cases hL : L = e.sender
  · subst hL
    cases ho.sender_eq.symm.trans hg
    exact ho.holds
  · exact (ho.reader L g hL hg).2.2.holds hkeys

end Delivery.Outcome

/-! ## Reading a path -/

structure ReadsWith (S : Suite) (t : RatchetTree) (r : Group)
    (priv : TreeKEMPrivate) : Prop where
  keys : HoldsPathKeys S t r.ownLeaf priv
  leaf : ∃ l, t.slot 0 r.ownLeaf = some (.leaf l) ∧ S.publicKeyOf r.signer = .ok l.signatureKey

theorem Seated.readsWith {L : ℕ} {r : Group} {t : RatchetTree} (hr : Seated S L r)
    (hholds : HoldsPathKeys S r.tree L r.priv) (hshrinks : PathShrinks L r.tree t)
    (hmember : L ∈ t.members) : ReadsWith S t r r.priv := by
  obtain ⟨rfl, hconsistent, ln, hln, hpub⟩ := hr
  obtain ⟨l, hslot, hl⟩ := hconsistent.exists_leaf
  cases hln.symm.trans hl
  exact ⟨hholds.shrink hshrinks, ln, (hshrinks.leaf hmember).trans hslot, hpub⟩

theorem ReadsWith.seated {t : RatchetTree} {r g : Group} {priv : TreeKEMPrivate}
    (hreads : ReadsWith S t r priv) {h sender : ℕ} (hf : t.Full h) {leafSecret : Bytes}
    {signer : Option Signer} {groupID : Bytes} {newlyAdded : List ℕ}
    {mkGroupContext : Bytes → Result Bytes} {seeds : ℕ → ℕ → Bytes} {gp : GeneratedPath}
    (p : PathRun S t sender leafSecret signer groupID newlyAdded mkGroupContext seeds gp)
    (hother : sender % 2 ^ 31 ≠ r.ownLeaf) (hinv : gp.tree.RepresentationInvariant)
    (htree : g.tree = gp.tree) (hown : g.ownLeaf = r.ownLeaf)
    (hsigner : g.signer = r.signer)
    (hst : newSecretTree S g.tree.leafCount g.epoch.encryptionSecret =
      .ok g.secretTree) : Seated S r.ownLeaf g := by
  obtain ⟨l, hl, hpub⟩ := hreads.leaf
  obtain ⟨h', hf', -⟩ := hinv.full
  have hslot : gp.tree.slot 0 r.ownLeaf = some (.leaf l) := by
    rw [p.slot_off hf (by simpa using hother), hl]
  refine ⟨hown, ⟨htree ▸ hinv, ?_, hst⟩, l, ?_, hsigner ▸ hpub⟩
  · simp [members, htree, hown, hslot]
  · rw [htree, hown]
    exact leafNodeAt_of_slot hf' hslot

/-! ## Commits of members -/

def Group.Proposed (S : Suite) (g : Group) (leaf : LeafNode) : Prop :=
  ∃ m leaves, Updating S m leaves g ∧ leaf ∈ leaves

theorem Group.Proposed.signs {g : Group} {leaf : LeafNode}
    (hproposed : g.Proposed S leaf) (hsigns : g.SignsAsLeaf S) :
    S.publicKeyOf g.signer = .ok leaf.signatureKey := by
  obtain ⟨m, leaves, hrun, hleaf⟩ := hproposed
  obtain ⟨cur, hcur, hpub⟩ := hsigns
  have hbefore : m.tree.leafNodeAt m.ownLeaf = .ok cur := by
    obtain ⟨_, _, _, _, rfl⟩ := hrun.eq_update
    exact hcur
  rw [hrun.signatureKey_eq hbefore leaf hleaf, hpub]

/-- A commit of a member, with the proposals it resolves: it neither updates nor
removes the committer, and an Update was created by the member it is from. -/
structure MemberCommit (S : Suite) (world : World) where
  c : Group
  opt : CommitOptions
  rnd : CommitRandomness
  refs : List Bytes
  cache : ProposalCache
  resolved : List Resolved
  d : CommitDraft
  res : CommitResult
  committer_eq : world c.ownLeaf = some c
  draft_eq : c.draftCommit S opt rnd = .ok d
  commit_eq : c.commit S opt rnd = .ok res
  resolves : c.Resolves S opt refs cache resolved
  spares : ∀ r ∈ resolved, r.Spares c.ownLeaf
  updates : ∀ leaf sender, ⟨.update leaf, sender⟩ ∈ resolved →
    ∃ r, world sender = some r ∧ r.Proposed S leaf

namespace MemberCommit

variable {world next : World}

/-- A new member enters at leaf `L` by the Welcome of the commit, with the private
keys of its key package. -/
structure Joins (w : MemberCommit S world) (L : ℕ) (kp : KeyPackage)
    (jopt : JoinOptions) (welcome : Bytes) (g : Group) : Prop where
  added : (L, kp) ∈ w.d.applied.added
  welcome_eq : w.res.welcome = some welcome
  welcoming : Welcoming S w.c w.opt w.d
  joinsWith : JoinsWith S w.d kp jopt
  encryptionPriv : S.Matching jopt.encryptionPriv kp.leafNode.encryptionKey
  signer : S.publicKeyOf jopt.signer = .ok kp.leafNode.signatureKey
  join_eq : joinFromWelcome S welcome jopt = .ok g

/-- The commit has reached everybody that stays, and those new members that are there
have joined. -/
structure Delivered (w : MemberCommit S world) (next : World) : Prop where
  committer : next w.c.ownLeaf = some w.res.group
  reader : ∀ L r, world L = some r → L ≠ w.c.ownLeaf → L ∉ removedBy w.resolved →
    ∃ r', r.processCommit S w.opt.byReference w.res.commit = .ok r' ∧ next L = some r'
  others : ∀ L g, next L = some g → L ≠ w.c.ownLeaf →
    (∃ r, world L = some r ∧ L ∉ removedBy w.resolved) ∨
      ∃ kp jopt welcome, w.Joins L kp jopt welcome g

def delivery (w : MemberCommit S world) (next : World) : Delivery :=
  ⟨w.d.applied.tree, w.d.path, w.c.ownLeaf, next⟩

theorem resolved_unique (w : MemberCommit S world) {refs : List Bytes} {cache : ProposalCache}
    {resolved : List Resolved} (hresolves : w.c.Resolves S w.opt refs cache resolved) :
    refs = w.refs ∧ cache = w.cache ∧ resolved = w.resolved := by
  have hcache := Except.ok.inj (hresolves.cache_eq.symm.trans w.resolves.cache_eq)
  obtain ⟨hrefs, hcache⟩ := Prod.mk.inj hcache
  exact ⟨hrefs, hcache, w.resolves.unique hresolves.cache_eq hresolves.resolved_eq⟩

theorem sparesCommitter (w : MemberCommit S world) : SparesCommitter S w.c w.opt := by
  intro refs cache resolved hresolves
  rw [(w.resolved_unique hresolves).2.2]
  exact w.spares

theorem draftRun (w : MemberCommit S world) : Nonempty (DraftRun S w.c w.opt w.rnd w.d) :=
  draftRun_of_draftCommit w.draft_eq

theorem finishRun (w : MemberCommit S world) : Nonempty (FinishRun S w.c w.d w.rnd w.res) := by
  have hcommit := w.commit_eq
  rw [Group.commit, w.draft_eq, ok_bind] at hcommit
  exact finishRun_of_finishCommit hcommit

section Reading

variable (w : MemberCommit S world) (hsynced : world.Synced S)

include hsynced

theorem committer_seated : Seated S w.c.ownLeaf w.c := hsynced.seated _ _ w.committer_eq

theorem applied_invariant : w.d.applied.tree.RepresentationInvariant := by
  obtain ⟨a⟩ := w.draftRun
  have hc := (w.committer_seated hsynced).consistent
  exact (a.places hc.tree_invariant hc.own_member w.sparesCommitter).1

theorem committer_mod : w.c.ownLeaf % 2 ^ 31 = w.c.ownLeaf := by
  have hc := (w.committer_seated hsynced).consistent
  have := hc.tree_invariant.member_lt hc.own_member
  exact Nat.mod_eq_of_lt (by omega)

theorem committer_after (hlaws : SuiteLaws S) :
    w.res.group.tree = w.d.path.tree ∧ Seated S w.c.ownLeaf w.res.group ∧
      HoldsPathKeys S w.d.path.tree w.c.ownLeaf w.res.group.priv := by
  obtain ⟨a⟩ := w.draftRun
  obtain ⟨b⟩ := w.finishRun
  obtain ⟨p⟩ := pathRun_of_generateUpdatePath a.path_eq
  obtain ⟨-, hc, hsigns⟩ := w.committer_seated hsynced
  have hinvA := w.applied_invariant hsynced
  obtain ⟨h, hf, -⟩ := hinvA.full
  have hinv := generateUpdatePath_invariant hinvA a.path_eq
  obtain ⟨h', hf', -⟩ := hinv.full
  have hslot : w.d.path.tree.slot 0 w.c.ownLeaf = some (.leaf w.d.path.updatePath.leafNode) := by
    rw [a.slot_path hc.tree_invariant hc.own_member w.sparesCommitter, if_pos rfl]
  have hholds := p.sender_holdsPathKeys hf b.newPriv_eq
  rw [w.committer_mod hsynced] at hholds
  rw [b.group_eq]
  refine ⟨rfl, ⟨rfl, ⟨hinv, ?_, b.secretTree_eq⟩, _, leafNodeAt_of_slot hf' hslot, ?_⟩, hholds⟩
  · show w.d.path.tree.slot 0 w.c.ownLeaf ≠ none
    simp [hslot]
  · exact (a.signs_path hc.tree_invariant hc.own_member w.sparesCommitter hlaws hsigns).1

theorem update_sender {leaf : LeafNode} {sender : ℕ}
    (hmem : ⟨.update leaf, sender⟩ ∈ w.resolved) : sender % 2 ^ 31 = sender := by
  obtain ⟨r, hr, -⟩ := w.updates leaf sender hmem
  obtain ⟨rfl, hconsistent, -⟩ := hsynced.seated sender r hr
  have := hconsistent.tree_invariant.member_lt hconsistent.own_member
  exact Nat.mod_eq_of_lt (by omega)

theorem joiner_after (hlaws : SuiteLaws S) {L : ℕ} {kp : KeyPackage} {jopt : JoinOptions}
    {welcome : Bytes} {g : Group} (hjoins : w.Joins L kp jopt welcome g) :
    Seated S L g ∧ SameEpoch w.res.group g ∧
      Rebuilt S w.d.applied.tree w.d.path w.c.ownLeaf L g.priv := by
  obtain ⟨a⟩ := w.draftRun
  obtain ⟨b⟩ := w.finishRun
  obtain ⟨p⟩ := pathRun_of_generateUpdatePath a.path_eq
  have hc := (w.committer_seated hsynced).consistent
  have hspares := w.sparesCommitter
  obtain ⟨welcome', hwelcome', ⟨v⟩⟩ := welcomeRun_of_commitWelcome b.welcome_eq
    (List.ne_nil_of_mem hjoins.added)
  cases hwelcome'.symm.trans hjoins.welcome_eq
  obtain ⟨jr, rfl⟩ := joinRun_of_joinFromWelcome hjoins.join_eq
  obtain ⟨hrt, rfl, hsame⟩ := v.joinRun_sameEpoch a hc.tree_invariant hc.own_member
    hspares hlaws hjoins.welcoming b hjoins.added hjoins.joinsWith jr
  obtain ⟨h, k, secret, m⟩ := a.exists_meeting hc.tree_invariant hc.own_member hspares hjoins.added
  obtain ⟨-, hgs, -, hgi⟩ := v.joinRun_inputs a hlaws hjoins.welcoming hjoins.added
    hjoins.joinsWith m jr
  obtain ⟨hslot, hne⟩ := (a.places hc.tree_invariant hc.own_member hspares).2.2
    jr.ownLeaf kp hjoins.added
  have hplaced : w.d.path.tree.slot 0 jr.ownLeaf = some (.leaf kp.leafNode) := by
    rw [a.slot_path hc.tree_invariant hc.own_member hspares, if_neg hne, hslot]
  have hinvA := w.applied_invariant hsynced
  have hinv := generateUpdatePath_invariant hinvA a.path_eq
  refine ⟨⟨rfl, ⟨?_, ?_, jr.secretTree_eq⟩, kp.leafNode, ?_, hjoins.signer⟩, hsame, ?_⟩
  · show jr.rt.RepresentationInvariant
    rw [hrt]
    exact hinv
  · show jr.rt.slot 0 jr.ownLeaf ≠ none
    simp [hrt, hplaced]
  · show jr.rt.leafNodeAt jr.ownLeaf = .ok kp.leafNode
    rw [hrt]
    exact leafNodeAt_of_slot m.full hplaced
  · obtain ⟨h', hf, -⟩ := hinvA.full
    obtain ⟨entries, -, hi⟩ := p.installed_tree hf
    obtain rfl := hi.full.height_unique m.full
    have hh := hf.le_thirtyOne
    have hlt : ∀ {M}, M < 2 ^ h' → M % 2 ^ 31 = M := fun hM =>
      Nat.mod_eq_of_lt (hM.trans_le (Nat.pow_le_pow_right (by norm_num) hh))
    have hpriv := jr.priv_eq
    rw [hgs, hgi, hrt, v.signer_eq hc.tree_invariant hc.own_member, m.full.leafCount_eq,
      CommitDraft.groupSecrets, joinerPriv] at hpriv
    have hkeys := installJoinerPriv_keys hh m.committer_lt m.leaf_lt m.level_lt m.fork
      (hlt m.leaf_lt) (hlt m.committer_lt) (within_eq_ok.mp hpriv)
    have hmod := w.committer_mod hsynced
    have hrebuilt := p.rebuilt hf m.leaf_lt (by rw [hmod]; exact m.fork) hslot
      hjoins.encryptionPriv (by rw [hmod]; exact m.secret_eq) hkeys
    rwa [hmod] at hrebuilt

theorem noneDropped_of_added {L : ℕ} {kp : KeyPackage} (hadded : (L, kp) ∈ w.d.applied.added) :
    NoneDropped w.d.applied.tree w.c.ownLeaf L := by
  obtain ⟨a⟩ := w.draftRun
  have hc := (w.committer_seated hsynced).consistent
  obtain ⟨e⟩ := a.applyRun hc
  exact (e.listedAbove hc.tree_invariant hadded).noneDropped

end Reading

end MemberCommit

/-- No leaf is updated twice, and the members that stay know the pre-shared keys. -/
structure HonestCommit (S : Suite) (world : World) extends MemberCommit S world where
  single : ∀ L, (ownUpdates L resolved).length ≤ 1
  psks : ∀ L r, world L = some r → L ∉ removedBy resolved →
    collectPSKs r.externalPSKs r.resumptionPSKs r.groupContext.groupID resolved =
      collectPSKs c.externalPSKs c.resumptionPSKs c.groupContext.groupID resolved

namespace HonestCommit

variable {world next : World}

section Reading

variable (w : HonestCommit S world) (hsynced : world.Synced S) (hholds : world.HoldsKeys S)
  {L : ℕ} {r : Group} (hr : world L = some r) (hkept : L ∉ removedBy w.resolved)

include hsynced hholds hr hkept

theorem readsWith :
    ∃ own, r.resolveOwnUpdatePriv w.cache w.c.ownLeaf
        (commitProposals w.refs w.opt.byValue) = .ok own ∧
      ReadsWith S w.d.applied.tree r (r.workingPriv own) := by
  obtain ⟨a⟩ := w.draftRun
  have hc := (w.committer_seated hsynced).consistent
  have hseated := hsynced.seated L r hr
  obtain ⟨rfl, hconsistent, hsigns⟩ := hseated
  have htree : w.c.tree = r.tree := (hsynced.same _ _ _ _ w.committer_eq hr).tree_eq
  obtain ⟨e⟩ := a.applyRun hc
  obtain ⟨-, -, hresolved⟩ := w.resolved_unique ⟨a.cache_eq, e.resolved_eq⟩
  have hmember : r.ownLeaf ∈ w.c.tree.members := htree ▸ hconsistent.own_member
  obtain ⟨hmember', -⟩ := e.member_kept hc.tree_invariant hmember (hresolved ▸ hkept)
  have hlt := hconsistent.tree_invariant.member_lt hconsistent.own_member
  rw [resolveOwnUpdatePriv_resolved w.resolves.resolved_eq]
  rcases hown : ownUpdates r.ownLeaf w.resolved with _ | ⟨leaf, others⟩
  · refine ⟨none, rfl, Seated.readsWith ⟨rfl, hconsistent, hsigns⟩
      (hholds _ _ hr) (htree ▸ e.pathShrinks hc.tree_invariant hmember ?_) hmember'⟩
    rw [hresolved]
    rintro ⟨p, sender⟩ hmem
    cases p with
    | update leaf =>
        intro heq
        rw [w.update_sender hsynced hmem] at heq
        have hleaf : leaf ∈ ownUpdates r.ownLeaf w.resolved :=
          List.mem_filterMap.mpr ⟨_, hmem, by simp [heq]⟩
        rw [hown] at hleaf
        cases hleaf
    | remove removed => exact fun heq => hkept ⟨removed, sender, hmem, heq⟩
    | _ => trivial
  · have hsingle := w.single r.ownLeaf
    rw [hown] at hsingle
    obtain rfl : others = [] := by simpa using hsingle
    have hmem := mem_ownUpdates (show leaf ∈ ownUpdates r.ownLeaf w.resolved by
      simp [hown])
    obtain ⟨r', hr', hproposed⟩ := w.updates leaf _ hmem
    cases hr.symm.trans hr'
    obtain ⟨m, leaves, hrun, hleaf⟩ := hproposed
    obtain ⟨priv, hpending, hmatch⟩ := hrun.tracks leaf hleaf
    obtain ⟨h, hf, -⟩ := hc.tree_invariant.full
    have hrefreshed : w.d.applied.tree.Refreshed r.ownLeaf leaf :=
      e.refreshed hf (by omega) (fun ln sender hmem heq => by
          rw [hresolved] at hmem
          rwa [w.update_sender hsynced hmem] at heq)
        (hresolved ▸ hkept) (by rw [hresolved, hown]; rfl)
    exact ⟨some priv, by simp [hpending], hrefreshed.holdsPathKeys hmatch, leaf,
      hrefreshed.leaf, Group.Proposed.signs ⟨m, leaves, hrun, hleaf⟩ hsigns⟩

variable (hother : L ≠ w.c.ownLeaf)

include hother

theorem canFollow : CanFollow S w.c r w.opt w.d.applied := by
  obtain ⟨own, hown, hreads⟩ := w.readsWith hsynced hholds hr hkept
  obtain ⟨rfl, -, -⟩ := hsynced.seated L r hr
  refine ⟨hother, fun refs cache resolved hresolves => ?_⟩
  obtain ⟨rfl, rfl, rfl⟩ := w.resolved_unique hresolves
  exact ⟨hkept, w.psks _ r hr hkept, own, hown, hreads.keys.toFits⟩

theorem processCommit_iff (hlaws : SuiteLaws S) (hkdf : KdfLaws S) :
    (∃ r', r.processCommit S w.opt.byReference w.res.commit = .ok r') ↔
      ∃ data, w.d.applied.tree.marshal = .ok data := by
  obtain ⟨a⟩ := w.draftRun
  obtain ⟨b⟩ := w.finishRun
  obtain ⟨-, hc, hsigns⟩ := w.committer_seated hsynced
  have hconsistent := (hsynced.seated L r hr).consistent
  have hsame := hsynced.same _ _ _ _ w.committer_eq hr
  have hfollow := w.canFollow hsynced hholds hr hkept hother
  constructor
  · rintro ⟨r', hrun⟩
    exact hsame.writable_of_processCommit hlaws hc hsigns a b hfollow hrun
  · intro hwrite
    obtain ⟨r', hrun, -⟩ := hsame.exists_processCommit hlaws hc hsigns a b hfollow hkdf
      hconsistent hwrite
    exact ⟨r', hrun⟩

theorem reader_after (hlaws : SuiteLaws S) (hkdf : KdfLaws S) (hpos : 0 < S.hashLen) {r' : Group}
    (hrun : r.processCommit S w.opt.byReference w.res.commit = .ok r') :
    Seated S L r' ∧ SameEpoch w.res.group r' ∧
      Rebuilt S w.d.applied.tree w.d.path w.c.ownLeaf L r'.priv := by
  obtain ⟨data, hwrite⟩ := (w.processCommit_iff hsynced hholds hr hkept hother hlaws
    hkdf).mp ⟨r', hrun⟩
  obtain ⟨a⟩ := w.draftRun
  obtain ⟨b⟩ := w.finishRun
  obtain ⟨p⟩ := pathRun_of_generateUpdatePath a.path_eq
  obtain ⟨-, hc, hsigns⟩ := w.committer_seated hsynced
  have hconsistent := (hsynced.seated L r hr).consistent
  have hsame := hsynced.same _ _ _ _ w.committer_eq hr
  have hinvA := w.applied_invariant hsynced
  obtain ⟨h, hf, -⟩ := hinvA.full
  obtain ⟨own, hown, hreads⟩ := w.readsWith hsynced hholds hr hkept
  obtain ⟨own', newPriv, node, secret, hown', hfollowed, hresult⟩ :=
    hsame.processMemberCommit_eq hlaws hkdf hc hconsistent a b
      (w.canFollow hsynced hholds hr hkept hother) hwrite
  rw [hsame.processCommit_eq_member hlaws hc hsigns a b, hresult, Except.ok.injEq] at hrun
  subst hrun
  obtain ⟨e⟩ := a.applyRun hc
  obtain ⟨hrefs, hcache, -⟩ := w.resolved_unique ⟨a.cache_eq, e.resolved_eq⟩
  rw [hrefs, hcache, hown, Except.ok.injEq] at hown'
  subst hown'
  obtain ⟨rfl, -, -⟩ := hsynced.seated L r hr
  obtain ⟨l, hl, -⟩ := hreads.leaf
  refine ⟨hreads.seated hf p (by rw [w.committer_mod hsynced]; exact hother.symm)
    (generateUpdatePath_invariant hinvA a.path_eq) rfl rfl rfl b.secretTree_eq, ?_, ?_⟩
  · rw [b.group_eq]
    exact ⟨rfl, rfl, rfl, rfl, rfl, rfl⟩
  · have hlt := hc.tree_invariant.member_lt hc.own_member
    exact p.rebuilt_of_read hkdf hpos hinvA (by omega) (by simp [members, hl])
      hreads.keys hfollowed.pathRead

end Reading

theorem outcome (w : HonestCommit S world) (hlaws : SuiteLaws S) (hkdf : KdfLaws S)
    (hpos : 0 < S.hashLen) (hsynced : world.Synced S) (hholds : world.HoldsKeys S)
    (hdelivered : w.Delivered next) : (w.delivery next).Outcome S w.res.group := by
  obtain ⟨htree, hseated, hkeys⟩ := w.committer_after hsynced hlaws
  refine ⟨hdelivered.committer, htree, hseated, hkeys, fun L g hother hg => ?_⟩
  rcases hdelivered.others L g hg hother with ⟨r, hr, hkept⟩ | ⟨kp, jopt, welcome, hjoins⟩
  · obtain ⟨r', hrun, hr'⟩ := hdelivered.reader L r hr hother hkept
    cases hg.symm.trans hr'
    exact w.reader_after hsynced hholds hr hkept hother hlaws hkdf hpos hrun
  · exact w.joiner_after hsynced hlaws hjoins

end HonestCommit

/-! ## External commits -/

/-- Somebody enters by an external commit, from the group information that member `g`
published.  It is not the first epoch of the group, whose interim hash cannot be
recomputed from that. -/
structure HonestEntry (S : Suite) (world : World) where
  g : Group
  gi : GroupInfo
  cred : Credential
  signer : Option Signer
  lifetime : Lifetime
  rnd : ExternalRandomness
  run : EntryRun S gi cred signer lifetime rnd
  placed : RatchetTree
  publisher_eq : world g.ownLeaf = some g
  gi_eq : g.publishGroupInfo S = .ok gi
  interim : InterimAgrees S g
  enter_eq : externalCommit S gi cred signer lifetime rnd = .ok (run.result, run.commitBytes)
  placed_eq : g.seatJoiner run.leaf = .ok (run.liC, placed)

namespace HonestEntry

variable {world next : World}

def displaced (w : HonestEntry S world) : Option ℕ :=
  findLeafBySignatureKey w.g.tree w.run.leaf.signatureKey

structure Delivered (w : HonestEntry S world) (next : World) : Prop where
  joiner : next w.run.liC = some w.run.result
  reader : ∀ L r, world L = some r → w.displaced ≠ some L →
    ∃ r', r.processCommit S [] w.run.commitBytes = .ok r' ∧ next L = some r'
  others : ∀ L g, next L = some g → L ≠ w.run.liC → ∃ r, world L = some r ∧ w.displaced ≠ some L

def delivery (w : HonestEntry S world) (next : World) : Delivery :=
  ⟨w.placed, w.run.path, w.run.liC, next⟩

section Reading

variable (w : HonestEntry S world) (hsynced : world.Synced S)

include w hsynced

theorem isPlaced : w.run.Placed w.placed := by
  have hinv := (hsynced.seated _ _ w.publisher_eq).consistent.tree_invariant
  have hpub := publishes_of_publishGroupInfo w.gi_eq
  obtain ⟨placed, hp⟩ := w.run.exists_placed (by rwa [(w.run.published_eq_tree hpub hinv).1])
  have hseat := w.placed_eq
  rw [EntryRun.seatJoiner_eq hpub hinv hp, Except.ok.injEq, Prod.mk.injEq] at hseat
  rwa [← hseat.2]

theorem joiner_after :
    Seated S w.run.liC w.run.result ∧ HoldsPathKeys S w.run.path.tree w.run.liC w.run.priv := by
  have hp := w.isPlaced hsynced
  obtain ⟨p⟩ := hp.pathRun
  obtain ⟨h, hf, -⟩ := hp.invariant.full
  have hmod : w.run.liC % 2 ^ 31 = w.run.liC := Nat.mod_eq_of_lt (by have := hp.liC_lt; omega)
  have hslot := p.slot_sender hf
  have hholds := p.sender_holdsPathKeys hf w.run.priv_eq
  rw [hmod] at hslot hholds
  refine ⟨⟨rfl, ⟨generateUpdatePath_invariant hp.wt_invariant w.run.path_eq, ?_,
    w.run.secretTree_eq⟩, w.run.leaf, EntryRun.leafNodeAt_eq hp, hp.key_eq⟩, hholds⟩
  show w.run.path.tree.slot 0 w.run.liC ≠ none
  simp [hslot]

variable {L : ℕ} {r : Group} (hr : world L = some r)

include hr

theorem publishes : Publishes S r w.gi := by
  have hsame := hsynced.same _ _ _ _ w.publisher_eq hr
  exact (publishes_of_publishGroupInfo w.gi_eq).of_sameEpoch hsame.groupContext_eq.symm
    hsame.tree_eq.symm hsame.epoch_eq.symm

theorem interimAgrees : InterimAgrees S r := by
  have hinterim := w.interim
  have hsame := hsynced.same _ _ _ _ w.publisher_eq hr
  unfold InterimAgrees Group.publishedInterim at hinterim ⊢
  rwa [← hsame.groupContext_eq, ← hsame.epoch_eq, ← hsame.interim_eq]

variable (hholds : world.HoldsKeys S) (hkept : w.displaced ≠ some L)

include hholds hkept

theorem readsWith : ReadsWith S w.placed r r.priv ∧ r.CanAdmit S w.run.leaf w.placed := by
  have hp := w.isPlaced hsynced
  have hpub := w.publishes hsynced hr
  have hseated := hsynced.seated L r hr
  obtain ⟨rfl, hconsistent, -⟩ := hseated
  have hinv := hconsistent.tree_invariant
  have htree := (hsynced.same _ _ _ _ w.publisher_eq hr).tree_eq
  rw [displaced, htree] at hkept
  have hvacated := EntryRun.vacated_eq_members hpub hinv hp
  have hleft := mem_vacated hinv hvacated hconsistent.own_member (by
    rw [(removePriorLeaf_eq_ok.mp hvacated).1]
    exact hkept)
  obtain ⟨h, hf, -⟩ := hinv.full
  obtain ⟨h', hf', -⟩ := hp.vacated_invariant.full
  have hremoved : PathShrinks r.ownLeaf r.tree w.run.vacated := by
    obtain ⟨-, ⟨-, heq⟩ | ⟨M, -, hremove⟩⟩ := removePriorLeaf_eq_ok.mp hvacated
    · rw [heq]
      exact .refl _ _
    · exact hf.pathShrinks_removeLeaf hremove
  have hshrinks := hremoved.trans (hf'.pathShrinks_addLeaf hleft hp.added_eq)
  have hmember : r.ownLeaf ∈ w.placed.members := by
    rw [(addLeaf_members hp.vacated_invariant hp.added_eq).2]
    exact Set.mem_insert_of_mem _ hleft
  have hreads := (hsynced.seated _ _ hr).readsWith (hholds _ _ hr) hshrinks hmember
  exact ⟨hreads, hconsistent.own_member, hkept, hreads.keys.toFits⟩

/-- A member that stays accepts the commit exactly if the tree with the joiner's leaf
has a wire form and the parent hashes of the tree with its path are valid. -/
theorem processCommit_iff (hlaws : SuiteLaws S) (hkdf : KdfLaws S) :
    (∃ r', r.processCommit S [] w.run.commitBytes = .ok r') ↔
      (∃ data, w.placed.marshal = .ok data) ∧ w.run.path.tree.verifyParentHashes S = .ok true := by
  have hp := w.isPlaced hsynced
  have hpub := w.publishes hsynced hr
  have hinv := (hsynced.seated L r hr).consistent.tree_invariant
  constructor
  · rintro ⟨r', hrun⟩
    obtain ⟨xr, -⟩ := EntryRun.processCommit_eq_ok_iff.mp hrun
    exact EntryRun.of_externalRun hpub hinv hlaws hp xr
  · rintro ⟨⟨data, hwrite⟩, hvalid⟩
    obtain ⟨xr, -⟩ := EntryRun.exists_externalRun hpub hinv hlaws hkdf
      (w.interimAgrees hsynced hr) hp (w.readsWith hsynced hr hholds hkept).2 hwrite hvalid
    exact ⟨xr.result, EntryRun.processCommit_eq_ok_iff.mpr ⟨xr, rfl⟩⟩

theorem reader_after (hlaws : SuiteLaws S) (hkdf : KdfLaws S) (hpos : 0 < S.hashLen)
    {r' : Group} (hrun : r.processCommit S [] w.run.commitBytes = .ok r') :
    Seated S L r' ∧ SameEpoch w.run.result r' ∧
      Rebuilt S w.placed w.run.path w.run.liC L r'.priv := by
  obtain ⟨⟨data, hwrite⟩, hvalid⟩ := (w.processCommit_iff hsynced hr hholds hkept hlaws
    hkdf).mp ⟨r', hrun⟩
  have hp := w.isPlaced hsynced
  have hpub := w.publishes hsynced hr
  have hinv := (hsynced.seated L r hr).consistent.tree_invariant
  obtain ⟨hreads, hcan⟩ := w.readsWith hsynced hr hholds hkept
  obtain ⟨p⟩ := hp.pathRun
  obtain ⟨h, hf, -⟩ := hp.invariant.full
  obtain ⟨xr, node, secret, hliC, hsame, hread⟩ := EntryRun.exists_externalRun hpub hinv
    hlaws hkdf (w.interimAgrees hsynced hr) hp hcan hwrite hvalid
  cases hrun.symm.trans (EntryRun.processCommit_eq_ok_iff.mpr ⟨xr, rfl⟩)
  have hlt := hp.liC_lt
  obtain ⟨hmember, hother⟩ := EntryRun.member_placed hpub hinv hp hcan
  obtain ⟨rfl, -, -⟩ := hsynced.seated L r hr
  refine ⟨hreads.seated hf p (by rwa [Nat.mod_eq_of_lt (by omega)]) (generateUpdatePath_invariant
    hp.wt_invariant w.run.path_eq) hsame.tree_eq.symm rfl rfl xr.secretTree_eq, hsame, ?_⟩
  exact p.rebuilt_of_read hkdf hpos hp.invariant (by omega) hmember hreads.keys hread

end Reading

theorem outcome (w : HonestEntry S world) (hlaws : SuiteLaws S) (hkdf : KdfLaws S)
    (hpos : 0 < S.hashLen) (hsynced : world.Synced S) (hholds : world.HoldsKeys S)
    (hdelivered : w.Delivered next) : (w.delivery next).Outcome S w.run.result := by
  obtain ⟨hseated, hkeys⟩ := w.joiner_after hsynced
  refine ⟨hdelivered.joiner, rfl, hseated, hkeys, fun L g hother hg => ?_⟩
  obtain ⟨r, hr, hkept⟩ := hdelivered.others L g hg hother
  obtain ⟨r', hrun, hr'⟩ := hdelivered.reader L r hr hkept
  cases hg.symm.trans hr'
  exact w.reader_after hsynced hr hholds hkept hlaws hkdf hpos hrun

end HonestEntry

end MlsGo
