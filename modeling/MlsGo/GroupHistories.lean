import MlsGo.GroupWorlds

/-!
# Histories of a group

A group is created, and then its members commit and others enter, in any order; every
commit is read by every member that stays.  A member has the keys of its path in every
world of such a history exactly as long as no delivered path costs a reader a key, and
that long it can read the next commit.
-/

namespace MlsGo

open InOrderLayout RatchetTree

variable {S : Suite} {worlds : List World} {es : List Delivery} {g a : Group} {L : ℕ}

/-- The worlds of a history and the paths that were delivered, the latest first. -/
inductive GroupHistory (S : Suite) : List World → List Delivery → Prop where
  | newGroup {g : Group} (groupID : Bytes) (cred : Credential)
      (signer : Option Signer) (lifetime : Lifetime) (seeds : KeyPackageSeeds)
      (hrun : newGroup S groupID cred signer lifetime seeds = .ok g) :
      GroupHistory S [Function.update (fun _ => none) g.ownLeaf (some g)] []
  | sameEpoch {world : World} {worlds : List World} {es : List Delivery} {L : ℕ}
      {g g' : Group} (hrun : GroupHistory S (world :: worlds) es)
      (hmember : world L = some g) (hstep : LocalStep S g g') :
      GroupHistory S (Function.update world L (some g') :: world :: worlds) es
  | commit {world next : World} {worlds : List World} {es : List Delivery}
      (hrun : GroupHistory S (world :: worlds) es) (w : HonestCommit S world)
      (hdelivered : w.Delivered next) :
      GroupHistory S (next :: world :: worlds) (w.delivery next :: es)
  | externalCommit {world next : World} {worlds : List World} {es : List Delivery}
      (hrun : GroupHistory S (world :: worlds) es) (w : HonestEntry S world)
      (hdelivered : w.Delivered next) :
      GroupHistory S (next :: world :: worlds) (w.delivery next :: es)

/-! ## What a history preserves -/

/-- Keys are complete in all worlds exactly if all paths keep them, and then every
world is in one epoch. -/
structure HistorySound (S : Suite) (worlds : List World) (es : List Delivery) :
    Prop where
  complete_iff : (∀ world ∈ worlds, world.KeysComplete S) ↔ ∀ e ∈ es, e.KeepsKeys S
  sound : (∀ world ∈ worlds, world.KeysComplete S) →
    ∀ world ∈ worlds, world.Synced S ∧ world.HoldsKeys S

theorem newGroup_sound {groupID : Bytes} {cred : Credential}
    {signer : Option Signer} {lifetime : Lifetime} {seeds : KeyPackageSeeds}
    (hrun : newGroup S groupID cred signer lifetime seeds = .ok g) :
    Seated S g.ownLeaf g ∧ HoldsPathKeys S g.tree g.ownLeaf g.priv := by
  simp only [newGroup, bind_eq_ok, pure_ok_iff] at hrun
  obtain ⟨⟨kp, initPriv, leafPriv⟩, hkp, treeHash, -, gcBytes, -, es, -, st, hst, rfl⟩ := hrun
  have hinv := newRatchetTree_invariant kp.leafNode
  have hf : (newRatchetTree kp.leafNode).Full 0 := ⟨rfl, by omega⟩
  have hslot : (newRatchetTree kp.leafNode).slot 0 0 = some (.leaf kp.leafNode) := rfl
  have hrefreshed : (newRatchetTree kp.leafNode).Refreshed 0 kp.leafNode :=
    ⟨⟨0, hf⟩, hslot, fun k => hf.slot_eq_none fun hin => by have := hin.1; omega⟩
  rw [← show (newRatchetTree kp.leafNode).leafCount = 1 by
    rw [hf.leafCount_eq, pow_zero]] at hst
  refine ⟨⟨rfl, ⟨hinv, by simp [members, hslot], hst⟩, kp.leafNode, leafNodeAt_of_slot hf hslot,
    (newKeyPackage_ok hkp).1⟩, hrefreshed.holdsPathKeys (newKeyPackage_ok hkp).2.2.2⟩

theorem World.alone_sound (hseated : Seated S g.ownLeaf g)
    (hholds : HoldsPathKeys S g.tree g.ownLeaf g.priv) :
    World.Synced S (Function.update (fun _ => none) g.ownLeaf (some g)) ∧
      World.HoldsKeys S (Function.update (fun _ => none) g.ownLeaf (some g)) := by
  have halone : ∀ {L g'}, Function.update (fun _ => none) g.ownLeaf (some g) L = some g' →
      L = g.ownLeaf ∧ g' = g := by
    intro L g' hg'
    by_cases hL : L = g.ownLeaf
    · subst hL
      rw [Function.update_self, Option.some.injEq] at hg'
      exact ⟨rfl, hg'.symm⟩
    · rw [Function.update_of_ne hL] at hg'
      cases hg'
  refine ⟨⟨fun L g' hg' => ?_, fun L M g' g'' hg' hg'' => ?_⟩, fun L g' hg' => ?_⟩
  · obtain ⟨rfl, rfl⟩ := halone hg'
    exact hseated
  · obtain ⟨-, rfl⟩ := halone hg'
    obtain ⟨-, rfl⟩ := halone hg''
    exact .refl _
  · obtain ⟨rfl, rfl⟩ := halone hg'
    exact hholds

theorem LocalStep.exists_member {world : World} {M : ℕ} {g' x' : Group} (hstep : LocalStep S g g')
    (hmember : world L = some g) (hx' : Function.update world L (some g') M = some x') :
    ∃ x app handshake encrypt pending, world M = some x ∧ x' = { x with
      appGeneration := app
      handshakeGeneration := handshake
      encryptHandshakes := encrypt
      pendingUpdates := pending } := by
  by_cases hM : M = L
  · subst hM
    rw [Function.update_self, Option.some.injEq] at hx'
    obtain ⟨app, handshake, encrypt, pending, heq⟩ := hstep.eq_update
    exact ⟨g, app, handshake, encrypt, pending, hmember, hx'.symm.trans heq⟩
  · rw [Function.update_of_ne hM] at hx'
    exact ⟨x', _, _, _, _, hx', rfl⟩

section Local

variable {world : World} {L : ℕ} {g g' : Group} (hstep : LocalStep S g g')
  (hmember : world L = some g)

include hstep hmember

theorem LocalStep.keysComplete (hcomplete : world.KeysComplete S) :
    World.KeysComplete S (Function.update world L (some g')) := by
  intro M x' hx'
  obtain ⟨x, _, _, _, _, hx, rfl⟩ := hstep.exists_member hmember hx'
  exact hcomplete M x hx

theorem LocalStep.holdsKeys (hholds : world.HoldsKeys S) :
    World.HoldsKeys S (Function.update world L (some g')) := by
  intro M x' hx'
  obtain ⟨x, _, _, _, _, hx, rfl⟩ := hstep.exists_member hmember hx'
  exact hholds M x hx

theorem LocalStep.synced (hsynced : world.Synced S) :
    World.Synced S (Function.update world L (some g')) := by
  constructor
  · intro M x' hx'
    obtain ⟨x, _, _, _, _, hx, rfl⟩ := hstep.exists_member hmember hx'
    obtain ⟨hown, hconsistent, hsigns⟩ := hsynced.seated M x hx
    exact ⟨hown, ⟨hconsistent.tree_invariant, hconsistent.own_member,
      hconsistent.secretTree_eq⟩, hsigns⟩
  · intro M M' x' y' hx' hy'
    obtain ⟨x, _, _, _, _, hx, rfl⟩ := hstep.exists_member hmember hx'
    obtain ⟨y, _, _, _, _, hy, rfl⟩ := hstep.exists_member hmember hy'
    obtain ⟨hcontext, htree, hepoch, hinit, hinterim, hst⟩ := hsynced.same M M' x y hx hy
    exact ⟨hcontext, htree, hepoch, hinit, hinterim, hst⟩

theorem HistorySound.sameEpoch (hs : HistorySound S (world :: worlds) es) :
    HistorySound S (Function.update world L (some g') :: world :: worlds) es := by
  refine ⟨⟨fun hall => hs.complete_iff.mp (List.forall_mem_cons.mp hall).2,
    fun hkeeps => ?_⟩, fun hall => ?_⟩
  · have hold := hs.complete_iff.mpr hkeeps
    exact List.forall_mem_cons.mpr
      ⟨hstep.keysComplete hmember (hold world List.mem_cons_self), hold⟩
  · have hsound := hs.sound (List.forall_mem_cons.mp hall).2
    obtain ⟨hsynced, hholds⟩ := hsound world List.mem_cons_self
    exact List.forall_mem_cons.mpr
      ⟨⟨hstep.synced hmember hsynced, hstep.holdsKeys hmember hholds⟩, hsound⟩

end Local

theorem HistorySound.deliver {world : World} {e : Delivery}
    (hs : HistorySound S (world :: worlds) es)
    (hout : world.Synced S → world.HoldsKeys S → ∃ g₀, e.Outcome S g₀) :
    HistorySound S (e.after :: world :: worlds) (e :: es) := by
  have hlast : (∀ world' ∈ world :: worlds, world'.KeysComplete S) → ∃ g₀, e.Outcome S g₀ := by
    intro hold
    obtain ⟨hsynced, hholds⟩ := hs.sound hold world List.mem_cons_self
    exact hout hsynced hholds
  constructor
  · rw [List.forall_mem_cons, List.forall_mem_cons (l := es), ← hs.complete_iff]
    constructor
    · rintro ⟨hnext, hold⟩
      obtain ⟨g₀, ho⟩ := hlast hold
      exact ⟨ho.keysComplete_iff.mp hnext, hold⟩
    · rintro ⟨hkeeps, hold⟩
      obtain ⟨g₀, ho⟩ := hlast hold
      exact ⟨ho.keysComplete_iff.mpr hkeeps, hold⟩
  · intro hall
    obtain ⟨hnext, hold⟩ := List.forall_mem_cons.mp hall
    obtain ⟨g₀, ho⟩ := hlast hold
    exact List.forall_mem_cons.mpr ⟨⟨ho.synced, ho.holdsKeys hnext⟩, hs.sound hold⟩

theorem GroupHistory.historySound (hlaws : SuiteLaws S) (hkdf : KdfLaws S)
    (hpos : 0 < S.hashLen) (hrun : GroupHistory S worlds es) :
    HistorySound S worlds es := by
  induction hrun with
  | newGroup groupID cred signer lifetime seeds hnew =>
      obtain ⟨hseated, hholds⟩ := newGroup_sound hnew
      obtain ⟨hsynced, hholds⟩ := World.alone_sound hseated hholds
      refine ⟨⟨fun _ => by simp, fun _ => ?_⟩, fun _ => ?_⟩
      · exact List.forall_mem_singleton.mpr hholds.complete
      · exact List.forall_mem_singleton.mpr ⟨hsynced, hholds⟩
  | sameEpoch _ hmember hstep ih => exact ih.sameEpoch hstep hmember
  | commit _ w hdelivered ih =>
      exact ih.deliver fun hsynced hholds =>
        ⟨_, w.outcome hlaws hkdf hpos hsynced hholds hdelivered⟩
  | externalCommit _ w hdelivered ih =>
      exact ih.deliver fun hsynced hholds =>
        ⟨_, w.outcome hlaws hkdf hpos hsynced hholds hdelivered⟩

/-- In every world of a history every member has the matching private key of every
populated node of its path that does not list it, exactly if no delivered path costs
a reader a key: none needed one below the point where it entered the path, and the
keys derived above belong to the path.  As long as that is so, every member reads the
next commit of a member, unless the tree after the proposals has no wire form, and the
next external commit, unless the tree with the joiner's leaf has none or the parent
hashes of the tree with the path are not valid. -/
theorem path_keys_complete_iff (hlaws : SuiteLaws S) (hkdf : KdfLaws S)
    (hpos : 0 < S.hashLen) (hrun : GroupHistory S worlds es) :
    ((∀ world ∈ worlds, world.KeysComplete S) ↔ ∀ e ∈ es, e.KeepsKeys S) ∧
    ((∀ e ∈ es, e.KeepsKeys S) → ∀ world ∈ worlds,
      (∀ (w : HonestCommit S world) L r, world L = some r → L ≠ w.c.ownLeaf →
        L ∉ removedBy w.resolved →
        ((∃ r', r.processCommit S w.opt.byReference w.res.commit = .ok r') ↔
          ∃ data, w.d.applied.tree.marshal = .ok data)) ∧
      ∀ (w : HonestEntry S world) L r, world L = some r → w.displaced ≠ some L →
        ((∃ r', r.processCommit S [] w.run.commitBytes = .ok r') ↔
          (∃ data, w.placed.marshal = .ok data) ∧
            w.run.path.tree.verifyParentHashes S = .ok true)) := by
  have hs := hrun.historySound hlaws hkdf hpos
  refine ⟨hs.complete_iff, fun hkeeps world hworld => ?_⟩
  obtain ⟨hsynced, hholds⟩ := hs.sound (hs.complete_iff.mpr hkeeps) world hworld
  constructor
  · intro w L r hr hother hkept
    exact w.processCommit_iff hsynced hholds hr hkept hother hlaws hkdf
  · intro w L r hr hkept
    exact w.processCommit_iff hsynced hr hholds hkept hlaws hkdf

/-! ### A history of three members -/

def World.ofList (members : List Group) : World := fun L => members[L]?

theorem World.ofList_cons {members : List Group} (hg : World.ofList (a :: members) L = some g) :
    L = 0 ∧ g = a ∨ ∃ M, L = M + 1 ∧ World.ofList members M = some g := by
  cases L with
  | zero => exact .inl ⟨rfl, (Option.some.inj hg).symm⟩
  | succ M => exact .inr ⟨M, rfl, hg⟩

theorem World.ofList_two {b : Group} (hg : World.ofList [a, b] L = some g) :
    L = 0 ∧ g = a ∨ L = 1 ∧ g = b := by
  rcases ofList_cons hg with ha | ⟨M, rfl, hg'⟩
  · exact .inl ha
  · rcases ofList_cons hg' with ⟨rfl, rfl⟩ | ⟨M, rfl, hg''⟩
    · exact .inr ⟨rfl, rfl⟩
    · cases hg''

theorem World.ofList_three {b c : Group} (hg : World.ofList [a, b, c] L = some g) :
    L = 0 ∧ g = a ∨ L = 1 ∧ g = b ∨ L = 2 ∧ g = c := by
  rcases ofList_cons hg with ha | ⟨M, rfl, hg'⟩
  · exact .inl ha
  · rcases ofList_two hg' with ⟨rfl, rfl⟩ | ⟨rfl, rfl⟩
    · exact .inr (.inl ⟨rfl, rfl⟩)
    · exact .inr (.inr ⟨rfl, rfl⟩)

/-- `A` has added `B` and `C`; `C` commits, `A` and `B` read it, and `C` commits
again. -/
structure ThreeMembers where
  run : TwoJoiners
  welcome : Bytes
  b : Group
  c : Group
  d : CommitDraft
  res : CommitResult
  a' : Group
  b' : Group
  d' : CommitDraft
  res' : CommitResult

def withLeafSecret (secret : Bytes) : CommitRandomness :=
  { noRandomness with leafSecret := secret }

def threeMembers : Result ThreeMembers := do
  let run ← admitTwo [3, 1]
  let welcome := run.res.welcome.getD []
  let b ← joinFromWelcome plainSuite welcome run.joinB
  let c ← joinFromWelcome plainSuite welcome run.joinC
  let d ← c.draftCommit plainSuite ⟨[], []⟩ (withLeafSecret [7])
  let res ← c.commit plainSuite ⟨[], []⟩ (withLeafSecret [7])
  let a' ← run.res.group.processCommit plainSuite [] res.commit
  let b' ← b.processCommit plainSuite [] res.commit
  let d' ← res.group.draftCommit plainSuite ⟨[], []⟩ (withLeafSecret [8])
  let res' ← res.group.commit plainSuite ⟨[], []⟩ (withLeafSecret [8])
  return ⟨run, welcome, b, c, d, res, a', b', d', res'⟩

def ThreeMembers.check (t : ThreeMembers) : Bool :=
  t.run.check &&
  (decide ([t.run.kpB, t.run.kpC].map (·.ref plainSuite)).Nodup &&
  (decide (t.run.res.welcome = some t.welcome) &&
  (decide (t.run.a.ownLeaf = 0) &&
  decide (t.c.ownLeaf = 2))))

structure ThreeMembers.Sound (t : ThreeMembers) : Prop where
  newGroup_eq : newGroup plainSuite [9] (.basic [1]) (some ⟨[1]⟩) ⟨0, 1⟩
    ⟨[1, 1], [1, 2]⟩ = .ok t.run.a
  run : t.run.Sound
  refs : ([t.run.kpB, t.run.kpC].map (·.ref plainSuite)).Nodup
  ownLeaf_a : t.run.a.ownLeaf = 0
  ownLeaf_c : t.c.ownLeaf = 2
  welcome_eq : t.run.res.welcome = some t.welcome
  joinB_eq : joinFromWelcome plainSuite t.welcome t.run.joinB = .ok t.b
  joinC_eq : joinFromWelcome plainSuite t.welcome t.run.joinC = .ok t.c
  encryptionPrivB : plainSuite.Matching t.run.joinB.encryptionPriv t.run.kpB.leafNode.encryptionKey
  encryptionPrivC : plainSuite.Matching t.run.joinC.encryptionPriv t.run.kpC.leafNode.encryptionKey
  signerB : plainSuite.publicKeyOf t.run.joinB.signer = .ok t.run.kpB.leafNode.signatureKey
  signerC : plainSuite.publicKeyOf t.run.joinC.signer = .ok t.run.kpC.leafNode.signatureKey
  draft_eq : t.c.draftCommit plainSuite ⟨[], []⟩ (withLeafSecret [7]) = .ok t.d
  commit_eq : t.c.commit plainSuite ⟨[], []⟩ (withLeafSecret [7]) = .ok t.res
  readA : t.run.res.group.processCommit plainSuite [] t.res.commit = .ok t.a'
  readB : t.b.processCommit plainSuite [] t.res.commit = .ok t.b'
  draft_eq' : t.res.group.draftCommit plainSuite ⟨[], []⟩ (withLeafSecret [8]) = .ok t.d'
  commit_eq' : t.res.group.commit plainSuite ⟨[], []⟩ (withLeafSecret [8]) = .ok t.res'

theorem threeMembers_sound {t : ThreeMembers} (hrun : threeMembers = .ok t)
    (htest : t.check = true) : t.Sound := by
  simp only [ThreeMembers.check, Bool.and_eq_true, decide_eq_true_eq] at htest
  obtain ⟨hcheck, hrefs, hwelcome, hownA, hownC⟩ := htest
  simp only [threeMembers, bind_eq_ok, pure_ok_iff] at hrun
  obtain ⟨run, hadmit, b, hb, c, hc, d, hd, res, hres, a', ha', b', hb', d', hd', res',
    hres', rfl⟩ := hrun
  have hnew := hadmit
  simp only [admitTwo, bind_eq_ok, pure_ok_iff] at hnew
  obtain ⟨a, hnew, ⟨kpB, privsB⟩, hkpB, ⟨kpC, privsC⟩, hkpC, _, -, _, -, _, -, _, -, rfl⟩ := hnew
  obtain ⟨hsignerB, -, -, hprivB⟩ := newKeyPackage_ok hkpB
  obtain ⟨hsignerC, -, -, hprivC⟩ := newKeyPackage_ok hkpC
  exact ⟨hnew, admitTwo_sound hadmit hcheck, hrefs, hownA, hownC, hwelcome, hb, hc,
    hprivB, hprivC, hsignerB, hsignerC, hd, hres, ha', hb', hd', hres'⟩

def HonestCommit.ofEmpty {world : World} {c : Group} {rnd : CommitRandomness}
    {d : CommitDraft} {res : CommitResult} (hc : world c.ownLeaf = some c)
    (hdraft : c.draftCommit S ⟨[], []⟩ rnd = .ok d)
    (hcommit : c.commit S ⟨[], []⟩ rnd = .ok res) : HonestCommit S world where
  c := c
  opt := ⟨[], []⟩
  rnd := rnd
  refs := []
  cache := []
  resolved := []
  d := d
  res := res
  committer_eq := hc
  draft_eq := hdraft
  commit_eq := hcommit
  resolves := ⟨rfl, rfl⟩
  spares := by simp
  updates := by simp
  single := by simp [ownUpdates]
  psks := fun _ _ _ _ => rfl

namespace ThreeMembers

variable {t : ThreeMembers}

def alone (t : ThreeMembers) : World :=
  Function.update (fun _ => none) t.run.a.ownLeaf (some t.run.a)

def joined (t : ThreeMembers) : World := .ofList [t.run.res.group, t.b, t.c]

def later (t : ThreeMembers) : World := .ofList [t.a', t.b', t.res.group]

def Sound.first (h : t.Sound) : HonestCommit plainSuite t.alone where
  c := t.run.a
  opt := t.run.adds
  rnd := noRandomness
  refs := []
  cache := []
  resolved := [⟨.add t.run.kpB, t.run.a.ownLeaf⟩, ⟨.add t.run.kpC, t.run.a.ownLeaf⟩]
  d := t.run.d
  res := t.run.res
  committer_eq := Function.update_self ..
  draft_eq := h.run.draft_eq
  commit_eq := h.run.commit_eq
  resolves := t.run.resolves_self
  spares := t.run.sparesCommitter _ _ _ t.run.resolves_self
  updates := by simp
  single := by simp [ownUpdates]
  psks := by
    intro L r hr _
    by_cases hL : L = t.run.a.ownLeaf
    · rw [alone, hL, Function.update_self, Option.some.injEq] at hr
      rw [hr]
    · rw [alone, Function.update_of_ne hL] at hr
      cases hr

theorem Sound.first_delivered (h : t.Sound) : h.first.Delivered t.joined := by
  have hwelcoming := h.run.welcoming h.refs
  refine ⟨?_, fun L r hr hother => ?_, fun L g hg hother => .inr ?_⟩
  · show t.joined t.run.a.ownLeaf = some t.run.res.group
    rw [h.ownLeaf_a]
    rfl
  · have hnone : t.alone L = none := Function.update_of_ne hother ..
    rw [hnone] at hr
    cases hr
  · obtain ⟨rfl, -⟩ | ⟨rfl, rfl⟩ | ⟨rfl, rfl⟩ := World.ofList_three hg
    · exact absurd h.ownLeaf_a.symm hother
    · exact ⟨t.run.kpB, t.run.joinB, t.welcome, by simp [first, h.run.added],
        h.welcome_eq, hwelcoming, h.run.joinsB, h.encryptionPrivB, h.signerB, h.joinB_eq⟩
    · exact ⟨t.run.kpC, t.run.joinC, t.welcome, by simp [first, h.run.added],
        h.welcome_eq, hwelcoming, h.run.joinsC, h.encryptionPrivC, h.signerC, h.joinC_eq⟩

theorem Sound.history_joined (h : t.Sound) :
    GroupHistory plainSuite [t.joined, t.alone] [h.first.delivery t.joined] :=
  (GroupHistory.newGroup _ _ _ _ _ h.newGroup_eq).commit h.first h.first_delivered

def Sound.second (h : t.Sound) : HonestCommit plainSuite t.joined :=
  .ofEmpty (by rw [h.ownLeaf_c]; rfl) h.draft_eq h.commit_eq

theorem Sound.second_delivered (h : t.Sound) : h.second.Delivered t.later := by
  have hnone : ∀ L, L ∉ removedBy h.second.resolved := by
    rintro L ⟨removed, sender, hmem, -⟩
    cases hmem
  refine ⟨?_, fun L r hr hother _ => ?_, fun L g hg hother => .inl ?_⟩
  · show t.later t.c.ownLeaf = some t.res.group
    rw [h.ownLeaf_c]
    rfl
  · obtain ⟨rfl, rfl⟩ | ⟨rfl, rfl⟩ | ⟨rfl, -⟩ := World.ofList_three hr
    · exact ⟨t.a', h.readA, rfl⟩
    · exact ⟨t.b', h.readB, rfl⟩
    · exact absurd h.ownLeaf_c.symm hother
  · obtain ⟨rfl, -⟩ | ⟨rfl, -⟩ | ⟨rfl, -⟩ := World.ofList_three hg
    · exact ⟨_, rfl, hnone _⟩
    · exact ⟨_, rfl, hnone _⟩
    · exact absurd h.ownLeaf_c.symm hother

theorem Sound.ownLeaf_res (h : t.Sound) : t.res.group.ownLeaf = 2 :=
  (EpochStep.commit _ _ h.commit_eq).ownLeaf_eq.trans h.ownLeaf_c

def Sound.third (h : t.Sound) : HonestCommit plainSuite t.later :=
  .ofEmpty (by rw [h.ownLeaf_res]; rfl) h.draft_eq' h.commit_eq'

theorem Sound.history_later (h : t.Sound) :
    GroupHistory plainSuite [t.later, t.joined, t.alone]
      [h.second.delivery t.later, h.first.delivery t.joined] :=
  h.history_joined.commit h.second h.second_delivered

def straight (t : ThreeMembers) : Bool :=
  decide (t.run.d.applied.tree.nodes.length = 7) &&
  ([(0, 0), (0, 1), (1, 1)].all fun levels =>
    decide (t.run.d.applied.tree.skippedBetween 0 (pathNode 0 levels.1) (pathNode 0 levels.2) = 0))

theorem Sound.alone_sound (h : t.Sound) :
    t.alone.Synced plainSuite ∧ t.alone.HoldsKeys plainSuite := by
  obtain ⟨hseated, hholds⟩ := newGroup_sound h.newGroup_eq
  exact World.alone_sound hseated hholds

theorem Sound.first_aligned (h : t.Sound) (hstraight : t.straight = true) (L : ℕ) :
    Aligned plainSuite t.run.d.applied.tree t.run.d.path t.run.a.ownLeaf L := by
  simp only [straight, Bool.and_eq_true, List.all_cons, List.all_nil, Bool.and_true,
    decide_eq_true_eq] at hstraight
  obtain ⟨hlen, hbottom, hbetween, htop⟩ := hstraight
  have hf : t.run.d.applied.tree.Full 2 := ⟨hlen, by omega⟩
  obtain ⟨a⟩ := h.first.draftRun
  obtain ⟨p⟩ := pathRun_of_generateUpdatePath a.path_eq
  have hmod : t.run.a.ownLeaf % 2 ^ 31 = t.run.a.ownLeaf := by rw [h.ownLeaf_a]; rfl
  rw [← hmod]
  refine p.aligned_of_none_skipped hf fun k hk f hfk => ?_
  show t.run.d.applied.tree.skippedBetween (t.run.a.ownLeaf % 2 ^ 31)
    (pathNode (t.run.a.ownLeaf % 2 ^ 31) f) (pathNode (t.run.a.ownLeaf % 2 ^ 31) k) = 0
  rw [hmod, h.ownLeaf_a]
  obtain ⟨rfl, rfl⟩ | ⟨rfl, rfl⟩ | ⟨rfl, rfl⟩ :
      f = 0 ∧ k = 0 ∨ f = 0 ∧ k = 1 ∨ f = 1 ∧ k = 1 := by omega
  · exact hbottom
  · exact hbetween
  · exact htop

theorem Sound.first_keepsKeys (h : t.Sound) (hstraight : t.straight = true) :
    (h.first.delivery t.joined).KeepsKeys plainSuite := by
  refine fun L hother hL => ⟨?_, h.first_aligned hstraight L⟩
  obtain ⟨g, hg⟩ := Option.ne_none_iff_exists'.mp hL
  rcases h.first_delivered.others L g hg hother with ⟨r, hr, -⟩ | ⟨kp, _, _, hjoins⟩
  · rw [alone, Function.update_of_ne (show L ≠ t.run.a.ownLeaf from hother)] at hr
    cases hr
  · exact h.first.noneDropped_of_added h.alone_sound.1 hjoins.added

end ThreeMembers

/-- The first commit keeps all keys, and so the second one is read. -/
theorem path_keys_complete_joined :
    ∃ t : ThreeMembers, threeMembers = .ok t ∧
      (∃ es, GroupHistory plainSuite [t.joined, t.alone] es ∧ ∀ e ∈ es, e.KeepsKeys plainSuite) ∧
      t.joined.KeysComplete plainSuite ∧
      ∃ a', t.run.res.group.processCommit plainSuite [] t.res.commit = .ok a' := by
  obtain ⟨t, hrun, hcheck, hstraight, hwrite⟩ : ∃ t, threeMembers = .ok t ∧ t.check = true ∧
      t.straight = true ∧ ∃ data, t.d.applied.tree.marshal = .ok data := by decide +kernel
  have h := threeMembers_sound hrun hcheck
  have hkeeps : ∀ e ∈ [h.first.delivery t.joined], e.KeepsKeys plainSuite :=
    List.forall_mem_singleton.mpr (h.first_keepsKeys hstraight)
  obtain ⟨hiff, hfollow⟩ := path_keys_complete_iff plainSuite_laws plainSuite_kdfLaws
    (by decide) h.history_joined
  obtain ⟨hcommits, -⟩ := hfollow hkeeps t.joined List.mem_cons_self
  exact ⟨t, hrun, ⟨_, h.history_joined, hkeeps⟩, hiff.mpr hkeeps _ List.mem_cons_self,
    (hcommits h.second 0 t.run.res.group rfl (by
      show 0 ≠ t.c.ownLeaf
      rw [h.ownLeaf_c]
      decide) (by
      rintro ⟨removed, sender, hmem, -⟩
      cases hmem)).mpr hwrite⟩

def Node.isMerged : Node → Bool
  | .leaf _ => false
  | .parent p => p.unmergedLeaves.isEmpty

theorem Node.not_lists_of_isMerged {n : Node} (hmerged : n.isMerged = true) (L : ℕ) :
    ¬ n.Lists L := by
  cases n with
  | leaf l => cases hmerged
  | parent p => simp [Node.Lists, List.isEmpty_iff.mp hmerged]

/-- In a group of three, after `C` commits, `A` and `B` no longer have the private key
of their parent, which is populated and does not list them; they cannot read the next
commit of `C`. -/
theorem readers_lose_path_key :
    SuiteLaws plainSuite ∧ KdfLaws plainSuite ∧ 0 < plainSuite.hashLen ∧
    ∃ world worlds es, GroupHistory plainSuite (world :: worlds) es ∧
      ∃ w : HonestCommit plainSuite world,
        (∃ data, w.d.applied.tree.marshal = .ok data) ∧
        ∀ L < 2, L ≠ w.c.ownLeaf ∧ L ∉ removedBy w.resolved ∧
          ∃ g n, world L = some g ∧ g.tree.slot 1 (L / 2 ^ 1) = some n ∧ ¬ n.Lists L ∧
            g.priv.privateKey (inorder 1 (L / 2 ^ 1)) = none ∧
            ∀ g', g.processCommit plainSuite w.opt.byReference w.res.commit ≠ .ok g' := by
  obtain ⟨t, hrun, hcheck, hwrite, hstuck⟩ : ∃ t, threeMembers = .ok t ∧ t.check = true ∧
      (∃ data, t.d'.applied.tree.marshal = .ok data) ∧
      ∀ g ∈ [t.a', t.b'], (∃ n ∈ g.tree.slot 1 0, n.isMerged = true) ∧
        g.priv.privateKey (inorder 1 0) = none ∧
        ∀ g', g.processCommit plainSuite [] t.res'.commit ≠ .ok g' := by decide +kernel
  have h := threeMembers_sound hrun hcheck
  obtain ⟨⟨nA, hnA, hmergedA⟩, hkeyA, hstuckA⟩ := hstuck t.a' (by simp)
  obtain ⟨⟨nB, hnB, hmergedB⟩, hkeyB, hstuckB⟩ := hstuck t.b' (by simp)
  refine ⟨plainSuite_laws, plainSuite_kdfLaws, by decide, t.later, _, _, h.history_later,
    h.third, hwrite, fun L hL => ⟨?_, ?_, ?_⟩⟩
  · show L ≠ t.res.group.ownLeaf
    rw [h.ownLeaf_res]
    omega
  · rintro ⟨removed, sender, hmem, -⟩
    cases hmem
  · obtain rfl | rfl : L = 0 ∨ L = 1 := by omega
    · exact ⟨t.a', nA, rfl, hnA, nA.not_lists_of_isMerged hmergedA 0, hkeyA, hstuckA⟩
    · exact ⟨t.b', nB, rfl, hnB, nB.not_lists_of_isMerged hmergedB 1, hkeyB, hstuckB⟩

end MlsGo
