import MlsGo.CommitAgreement

/-!
# Commits at the limit of the wire form

No vector on the wire is longer than `2 ^ 30 - 1` bytes.  A committer writes its
tree before it applies the proposals, a receiver also after it: a commit that
makes the tree too long is sent, but cannot be followed.  Below the limit every
commit is followed.
-/

namespace MlsGo

variable {S : Suite} {c r : Group} {opt : CommitOptions}
  {rnd : CommitRandomness} {d : CommitDraft} {res : CommitResult} {bytes bytes' : Bytes}

/-- The receiver copies the tree through its wire form before it reads the
path; a tree that is too long to be written stops it. -/
theorem SameEpoch.processMemberCommit_unwritable (hsame : SameEpoch c r) (hc : c.Consistent S)
    (a : DraftRun S c opt rnd d) (hfollow : CanFollow S c r opt d.applied) {fault : Fault}
    (hwrite : d.applied.tree.marshal = .error fault) (r' : Group) :
    r.processMemberCommit S a.cache (d.authenticated c.wireFormat)
      (opt.body a.refs (some d.path.updatePath)) ≠ .ok r' := by
  obtain ⟨e⟩ := a.applyRun hc
  obtain ⟨-, hpsks, -⟩ := hfollow.follows a.refs a.cache e.resolved ⟨a.cache_eq, e.resolved_eq⟩
  have happlied := hsame.applyProposals_eq a e hpsks
  intro hrun
  simp only [CommitOptions.body] at happlied
  simp only [Group.processMemberCommit, a.committerLeaf_eq hc,
    hsame.clone_eq hc a, within_ok, ok_bind, CommitOptions.body, happlied,
    bind_eq_ok, within_eq_ok, Group.receiveCommitPath, receivePath] at hrun
  obtain ⟨own, -, acBytes, -, split, -, out, ⟨ct, hct, -⟩, -⟩ := hrun
  rw [RatchetTree.clone, hwrite, error_bind] at hct
  cases hct

section Follow

variable (hlaws : SuiteLaws S) (hsame : SameEpoch c r) (hc : c.Consistent S)
  (hsigner : c.SignsAsLeaf S) (a : DraftRun S c opt rnd d) (b : FinishRun S c d rnd res)
  (hfollow : CanFollow S c r opt d.applied)

include hlaws hsame hc hsigner a b hfollow

theorem SameEpoch.writable_of_processCommit {r' : Group}
    (hrun : r.processCommit S opt.byReference res.commit = .ok r') :
    ∃ data, d.applied.tree.marshal = .ok data := by
  rw [hsame.processCommit_eq_member hlaws hc hsigner a b] at hrun
  cases hwrite : d.applied.tree.marshal with
  | ok data => exact ⟨data, rfl⟩
  | error fault => exact absurd hrun (hsame.processMemberCommit_unwritable hc a hfollow hwrite r')

theorem SameEpoch.exists_processCommit (hkdf : KdfLaws S) (hr : r.Consistent S)
    (hwrite : ∃ data, d.applied.tree.marshal = .ok data) :
    ∃ r', r.processCommit S opt.byReference res.commit = .ok r' ∧ SameEpoch res.group r' := by
  obtain ⟨data, hwrite⟩ := hwrite
  obtain ⟨own, newPriv, node, secret, -, -, hrun⟩ :=
    hsame.processMemberCommit_eq hlaws hkdf hc hr a b hfollow hwrite
  refine ⟨_, (hsame.processCommit_eq_member hlaws hc hsigner a b).trans hrun, ?_⟩
  rw [b.group_eq]
  exact ⟨rfl, rfl, rfl, rfl, rfl, rfl⟩

end Follow

/-- After a commit that succeeds, another member accepts it and reaches the
committer's epoch exactly when the tree after the proposals has a wire form. -/
theorem processCommit_agrees_iff (hlaws : SuiteLaws S) (hkdf : KdfLaws S) (hc : c.Consistent S)
    (hr : r.Consistent S) (hsigner : c.SignsAsLeaf S)
    (hgroupContext : c.groupContext = r.groupContext) (htree : c.tree = r.tree)
    (hepoch : c.epoch = r.epoch) (hinterim : c.interim = r.interim)
    (hinitSecret : c.initSecret = r.initSecret) (hcommit : c.commit S opt rnd = .ok res)
    (hdraft : c.draftCommit S opt rnd = .ok d) (hfollow : CanFollow S c r opt d.applied) :
    (∃ r', r.processCommit S opt.byReference res.commit = .ok r' ∧
      SameEpoch res.group r') ↔ ∃ data, d.applied.tree.marshal = .ok data := by
  have hst : c.secretTree = r.secretTree := by
    have hcst := hc.secretTree_eq
    rw [htree, hepoch, hr.secretTree_eq, Except.ok.injEq] at hcst
    exact hcst.symm
  have hsame : SameEpoch c r := ⟨hgroupContext, htree, hepoch, hinitSecret, hinterim, hst⟩
  obtain ⟨a⟩ := draftRun_of_draftCommit hdraft
  rw [Group.commit, hdraft, ok_bind] at hcommit
  obtain ⟨b⟩ := finishRun_of_finishCommit hcommit
  exact ⟨fun ⟨r', hrun, _⟩ => hsame.writable_of_processCommit hlaws hc hsigner a b hfollow hrun,
    hsame.exists_processCommit hlaws hc hsigner a b hfollow hkdf hr⟩

/-! ## A group of two -/

namespace RatchetTree

def wideSuite : Suite := { plainSuite with hash := fun _ => [0] }

theorem wideSuite_laws : SuiteLaws wideSuite := plainSuite_laws.withHash _

theorem wideSuite_kdfLaws : KdfLaws wideSuite := plainSuite_kdfLaws.withHash _

def wideLeaf (key : UInt8) (n : ℕ) : LeafNode :=
  { sampleLeaf key with credential := .basic (List.replicate n 0) }

def wideTree (first second : LeafNode) : RatchetTree :=
  ⟨[some (.leaf first), none, some (.leaf second)]⟩

def installedTree (first second : LeafNode) (pub : Bytes) : RatchetTree :=
  ⟨[some (.leaf first), some (.parent ⟨pub, [], []⟩), some (.leaf second)]⟩

theorem three_full (x y z : Option Node) : (RatchetTree.mk [x, y, z]).Full 1 := ⟨rfl, by omega⟩

theorem installedTree_full (first second : LeafNode) (pub : Bytes) :
    (installedTree first second pub).Full 1 := three_full _ _ _

theorem slot_three (x y z : Option Node) (k j : ℕ) :
    (RatchetTree.mk [x, y, z]).slot k j = if k = 0 ∧ j = 0 then x else if k = 0 ∧ j = 1 then z
      else if k = 1 ∧ j = 0 then y else none := by
  by_cases hin : Inside 1 k j
  · obtain ⟨hk, hj⟩ := hin
    interval_cases k
    · have hj : j < 2 := by simpa using hj
      interval_cases j <;> rfl
    · have hj : j < 1 := by simpa using hj
      interval_cases j
      rfl
  · have hout : ¬ (k = 0 ∧ j = 0) ∧ ¬ (k = 0 ∧ j = 1) ∧ ¬ (k = 1 ∧ j = 0) := by
      refine ⟨?_, ?_, ?_⟩ <;> rintro ⟨rfl, rfl⟩ <;> exact hin ⟨by omega, by norm_num⟩
    rw [(three_full x y z).slot_eq_none hin, if_neg hout.1, if_neg hout.2.1, if_neg hout.2.2]

variable {first second : LeafNode} {pub : Bytes}

theorem wideTree_invariant (first second : LeafNode) :
    (wideTree first second).RepresentationInvariant := by
  have hleaf : ∀ k j n, (wideTree first second).slot k j = some n → k = 0 ∧ ∃ l, n = .leaf l := by
    intro k j n hn
    rw [wideTree, slot_three] at hn
    grind
  refine ⟨⟨1, three_full _ _ _, fun _ => ⟨1, by simp, by simp [wideTree, slot_three]⟩⟩, ?_⟩
  constructor
  · intro j n hn
    exact (hleaf 0 j n hn).2
  · intro k j n hn
    exact absurd (hleaf (k + 1) j n hn).1 (by omega)
  · intro k j hne
    obtain ⟨n, hn⟩ := Option.ne_none_iff_exists'.mp hne
    exact absurd (hleaf (k + 1) j n hn).1 (by omega)
  all_goals
    intro k j p hp
    obtain ⟨-, l, hl⟩ := hleaf k j _ hp
    cases hl

/-! ### Lengths -/

theorem wideLeaf_marshal {n : ℕ} (key : UInt8) (hlong : 2 ^ 14 ≤ n) (hmax : n ≤ maxVarint) :
    ∃ data, (wideLeaf key n).marshal = .ok data ∧ data.length = n + 34 := by
  obtain ⟨cred, hcred, hlen⟩ := writeOpaqueV_long (p := List.replicate n 0)
    (by simpa using hlong) (by simpa using hmax)
  rw [List.length_replicate] at hlen
  have hone : writeOpaqueV [key] = .ok [1, key] := rfl
  have hnil : writeOpaqueV [] = .ok [0] := rfl
  refine ⟨_, by
    simp only [wideLeaf, sampleLeaf, LeafNode.marshal, LeafNode.marshalContents,
      Credential.marshal, Capabilities.marshal, writeUint16s, writeVectorV, DecoderLaws.encodeAll,
      LeafNodeSource.marshal, hcred, hone, hnil, ok_bind, pure_eq_ok]
    rfl, ?_⟩
  simp [hlen, writeUint8, writeUint16, writeUint64, Lifetime.marshal]
  omega

theorem wideTree_marshal (hfirst : first.marshal = .ok bytes)
    (hsecond : second.marshal = .ok bytes') :
    ∃ inner, (wideTree first second).marshal = writeOpaqueV inner ∧
      inner.length = bytes.length + bytes'.length + 5 := by
  have hnode : ∀ {l : LeafNode} {b : Bytes}, l.marshal = .ok b →
      writeOptional (some (Node.leaf l)) Node.marshal = .ok (1 :: 1 :: b) := by
    intro l b hl
    simp [writeOptional, Node.marshal, hl, writeUint8]
  refine ⟨1 :: 1 :: bytes ++ ([0] ++ (1 :: 1 :: bytes' ++ [])), ?_, by simp; omega⟩
  change (do
    let inner ← DecoderLaws.encodeAll (fun n => writeOptional n Node.marshal)
      [some (.leaf first), none, some (.leaf second)]
    writeOpaqueV inner) = _
  simp only [DecoderLaws.encodeAll, hnode hfirst, hnode hsecond]
  rfl

/-! ### The path of the first member -/

theorem writeOpaqueV_short {p : Bytes} (hp : p.length < 64) :
    writeOpaqueV p = .ok (UInt8.ofNat p.length :: p) := by
  simp [writeOpaqueV, writeVarint, hp]

theorem installedTree_hashes (hfirst : first.marshal = .ok bytes)
    (hsecond : second.marshal = .ok bytes') (hpub : pub.length < 64) :
    (installedTree first second pub).treeHashAt wideSuite [] 0 1 = .ok [0] ∧
      (installedTree first second pub).rootTreeHash wideSuite = .ok [0] := by
  have hleft : (installedTree first second pub).treeHashAt wideSuite [] 0 0 = .ok [0] := by
    change (do
      let input ← leafHashInput 0 (some first)
      return wideSuite.hash input) = _
    simp [leafHashInput, writeOptional, hfirst, wideSuite]
  have hright : (installedTree first second pub).treeHashAt wideSuite [] 0 1 = .ok [0] := by
    change (do
      let input ← leafHashInput 1 (some second)
      return wideSuite.hash input) = _
    simp [leafHashInput, writeOptional, hsecond, wideSuite]
  refine ⟨hright, ?_⟩
  have hf := installedTree_full first second pub
  rw [hf.rootTreeHash_eq, treeHashAt, hleft, ok_bind, hright, ok_bind]
  change (do
    let input ← parentHashInput (some ⟨pub, [], []⟩) [0] [0]
    return wideSuite.hash input) = _
  simp [parentHashInput, writeOptional, ParentNode.marshal, writeOpaqueV_short hpub, wideSuite]
  rfl

theorem leafParentHash_installedTree (hfirst : first.marshal = .ok bytes)
    (hsecond : second.marshal = .ok bytes') (hpub : pub.length < 64) :
    (installedTree first second pub).leafParentHash wideSuite 0 [1] = .ok [0] := by
  have hf := installedTree_full first second pub
  have hchild : (installedTree first second pub).pathChild 1 0 = .ok 0 := rfl
  have hsibling : sibling 0 (2 ^ 1) = .ok (2, true) := by decide +kernel
  have hof := hf.parentHashOf_eq wideSuite (i := 1) (j := 0) (k := 0) (s := 1)
    (p := ⟨pub, [], []⟩) rfl ⟨by omega, by norm_num⟩
  rw [parentHashVia, (installedTree_hashes hfirst hsecond hpub).1, ok_bind] at hof
  rw [leafParentHash, parentHashFor, show u32 (2 * 0) = 0 from rfl, hchild,
    ok_bind, hf.leafCount_eq, hsibling, ok_bind]
  refine hof.trans ?_
  simp [parentHashBytes, writeOpaqueV_short hpub, wideSuite]
  rfl

theorem filteredDirectPath_wideTree : (wideTree first second).filteredDirectPath 0 = .ok [1] := by
  with_unfolding_all rfl

theorem copathRecipients_wideTree :
    (wideTree first second).copathRecipients 0 [] [1] = .ok [[second.encryptionKey]] := by
  with_unfolding_all rfl

theorem installPath_wideTree :
    (wideTree first second).installPath wideSuite 0 [pub] =
      .ok (installedTree first second pub) := by
  have hblank : (wideTree first second).blankPath 0 = .ok (wideTree first second) := by
    with_unfolding_all rfl
  rw [installPath, filteredDirectPath_wideTree, ok_bind, if_neg (by simp),
    show u32 (2 * 0) = 0 from rfl, hblank, ok_bind]
  rfl

theorem generateUpdatePath_wideTree {second' : LeafNode} {bytes'' : Bytes} {leafSecret : Bytes}
    {signer : Option Signer} {groupID : Bytes} {mkGroupContext : Bytes → Result Bytes}
    {seeds : ℕ → ℕ → Bytes} {gp : GeneratedPath} (hfirst : first.marshal = .ok bytes)
    (hsecond : second.marshal = .ok bytes') (hsecond' : second'.marshal = .ok bytes'')
    (hkey : second'.encryptionKey = second.encryptionKey)
    (hrun : (wideTree first second).generateUpdatePath wideSuite 0 leafSecret signer groupID []
    mkGroupContext seeds = .ok gp) (hleaf : gp.updatePath.leafNode.marshal.isOk = true)
    (hnodes : (gp.updatePath.nodes.all fun n => n.encryptionKey.length < 64) = true) :
    ∃ pub, gp.tree = installedTree gp.updatePath.leafNode second pub ∧
      gp.tree.rootTreeHash wideSuite = .ok [0] ∧
      (installedTree gp.updatePath.leafNode second' pub).rootTreeHash wideSuite = .ok [0] ∧
      (wideTree first second').generateUpdatePath wideSuite 0 leafSecret
        signer groupID [] mkGroupContext seeds = .ok { gp with
            tree := installedTree gp.updatePath.leafNode second' pub } := by
  obtain ⟨r⟩ := pathRun_of_generateUpdatePath hrun
  obtain ⟨leafBytes, hleafBytes⟩ := exists_of_isOk hleaf
  have hpath := r.path_eq
  rw [filteredDirectPath_wideTree, Except.ok.injEq] at hpath
  have hlens := pathSecretsFrom_length r.pathSecrets_eq
  have hlenp := nodePublicKeys_length r.nodePubs_eq
  rw [hlens, ← hpath, List.length_singleton] at hlenp
  obtain ⟨pub, hpubs⟩ := List.length_eq_one_iff.mp hlenp
  have hpub : pub.length < 64 := by
    have hkeys := r.node_keys
    rw [hpubs] at hkeys
    obtain ⟨n, hn, hne⟩ := List.map_eq_singleton_iff.mp hkeys
    rw [hn] at hnodes
    simpa [← hne] using hnodes
  have hinstalled := r.installed_eq
  rw [hpubs, installPath_wideTree, Except.ok.injEq] at hinstalled
  have hph := r.parentHash_eq
  rw [← hinstalled, ← hpath, leafParentHash_installedTree hfirst hsecond hpub,
    Except.ok.injEq] at hph
  have htree := r.tree_eq
  rw [← hinstalled] at htree
  change Except.ok (installedTree gp.updatePath.leafNode second pub) = _ at htree
  rw [Except.ok.injEq] at htree
  have hhash := (installedTree_hashes hleafBytes hsecond hpub).2
  have hhash' := (installedTree_hashes hleafBytes hsecond' hpub).2
  have htreeHash := r.treeHash_eq
  rw [← htree, hhash, Except.ok.injEq] at htreeHash
  refine ⟨pub, htree.symm, by rw [← htree, hhash], hhash', ?_⟩
  have horig : some (Node.leaf first) = some (.leaf r.orig) := Except.ok.inj r.orig_eq
  simp only [Option.some.injEq, Node.leaf.injEq] at horig
  have hres := r.resPubs_eq
  rw [← hpath] at hres
  change (wideTree first second).copathRecipients 0 [] [1] = _ at hres
  rw [copathRecipients_wideTree, ← hkey] at hres
  have hsecrets := r.pathSecrets_eq
  have hleafNode := r.leaf_eq
  have hcontext := r.groupContext_eq
  have hencrypted := r.nodes_eq
  rw [← hpath] at hsecrets
  rw [← horig, ← hph] at hleafNode
  rw [← htreeHash] at hcontext
  rw [hpubs] at hencrypted
  have hindex : (wideTree first second').index (u32 (2 * 0)) = .ok (some (.leaf first)) := rfl
  have hset : ∀ l, (installedTree first second' pub).setNode 0
      (some (.leaf l)) = .ok (installedTree l second' pub) := fun l => rfl
  simp only [generateUpdatePath, hindex, filteredDirectPath_wideTree, ok_bind,
    hsecrets, r.commitSecret_eq, r.leafKeys_eq, r.nodePubs_eq, hpubs]
  simp only [show u32 (2 * 0) = 0 from rfl, addedNodes, List.map_nil, copathRecipients_wideTree,
    hres, ok_bind, installPath_wideTree, leafParentHash_installedTree hfirst hsecond' hpub,
    hleafNode, hset, hhash', hcontext, hencrypted, pure_eq_ok, r.pathSecretByNode_eq, ← hpath]

end RatchetTree

/-! ### The two members -/

open RatchetTree

/-- Member `leaf` of a group of two, with private key `key`; `second` is the
leaf of member 1. -/
def pairMember (second : LeafNode) (leaf : ℕ) (key : UInt8) : Group where
  groupContext := ⟨1, 1, [9], 1, [0], [], []⟩
  tree := wideTree (sampleLeaf 1) second
  priv := TreeKEMPrivate.new leaf [key]
  epoch := ⟨[1], [1], [1], [1], [5], [1], [1], [1], [1], [1], [1], [1]⟩
  secretTree := ⟨2, [(1, [158]), (0, [3])], [(1, [7]), (0, [44])]⟩
  interim := []
  initSecret := [1]
  ownLeaf := leaf
  signer := some ⟨[key]⟩
  externalPSKs := []
  resumptionPSKHistory := []
  appGeneration := 0
  handshakeGeneration := 0
  encryptHandshakes := false
  pendingUpdates := []

def widerLeaf : CommitOptions := ⟨[.update (wideLeaf 1 1)], []⟩

def noRandomness : CommitRandomness := ⟨[3], fun _ _ => [], ⟨0, 0, 0, 0⟩, fun _ => []⟩

theorem pairMember_consistent_of {S : Suite} (hst : newSecretTree S (2 ^ 1)
    [5] = .ok ⟨2, [(1, [158]), (0, [3])], [(1, [7]), (0, [44])]⟩) (second : LeafNode) {leaf : ℕ}
    (key : UInt8) (hleaf : leaf < 2) :
    (pairMember second leaf key).Consistent S := by
  refine ⟨wideTree_invariant _ _, ?_, ?_⟩
  · change (wideTree (sampleLeaf 1) second).slot 0 leaf ≠ none
    rw [wideTree, slot_three]
    interval_cases leaf <;> simp
  · have hf : (pairMember second leaf key).tree.Full 1 := three_full _ _ _
    rw [hf.leafCount_eq]
    exact hst

theorem pairMember_consistent (second : LeafNode) (leaf : ℕ) (key : UInt8)
    (hleaf : leaf < 2) : (pairMember second leaf key).Consistent wideSuite :=
  pairMember_consistent_of (by decide +kernel) second key hleaf

theorem pairMember_signs (second : LeafNode) : (pairMember second 0 1).SignsAsLeaf wideSuite :=
  ⟨sampleLeaf 1, by with_unfolding_all rfl, rfl⟩

theorem widerLeaf_applied (second : LeafNode)
    (resumptionPSKs : GoMap UInt64 Bytes) (path : Option UpdatePath) :
    applyProposals (wideTree (sampleLeaf 1) second) (widerLeaf.body [] path) [] []
      [] resumptionPSKs [9] 0 = .ok ⟨wideTree (wideLeaf 1 1) second, [], [], true, []⟩ := by
  have hupdate : (wideTree (sampleLeaf 1) second).updateLeaf 0 (wideLeaf 1 1) =
      .ok (wideTree (wideLeaf 1 1) second) := by
    with_unfolding_all rfl
  simp only [applyProposals, CommitOptions.body, widerLeaf, commitProposals, List.map_nil,
    List.map_cons, List.nil_append, resolveProposals, ok_bind, pure_eq_ok, applyUpdates, hupdate,
    within_ok, applyRemoves, applyAdds, collectPSKs, applyExtensions]
  rfl

theorem widerLeaf_canFollow {second : LeafNode} (hkey : second.encryptionKey = [2])
    {applied : AppliedProposals} (htree : applied.tree = wideTree (wideLeaf 1 1) second) :
    CanFollow wideSuite (pairMember second 0 1) (pairMember second 1 2) widerLeaf applied := by
  refine ⟨Nat.one_ne_zero, ?_⟩
  rintro refs cache resolved ⟨hcache, hresolved⟩
  cases hcache
  cases hresolved
  refine ⟨by simp [removedBy], rfl, none, rfl, ?_⟩
  rw [htree]
  constructor
  · intro node pub key hpub hpriv
    obtain ⟨rfl, rfl⟩ : node = 2 ∧ key = [2] := by
      have hmem := GoMap.mem_of_get hpriv
      simpa [pairMember, Group.workingPriv, TreeKEMPrivate.new, u32] using hmem
    have hnode : (wideTree (wideLeaf 1 1) second).nodePublicKey 2 = .ok second.encryptionKey := rfl
    rw [hnode, hkey, Except.ok.injEq] at hpub
    subst hpub
    exact .inl ⟨[2], rfl⟩
  · intro k n hn _
    rw [wideTree, slot_three] at hn
    have hk : k = 0 := by
      by_contra hne
      simp [hne] at hn
    subst hk
    have hown : (TreeKEMPrivate.new 1 [2]).privateKey 2 = some [2] := by decide
    exact ⟨[2], by simpa [pairMember, Group.workingPriv] using hown⟩

theorem widerLeaf_commits {second : LeafNode} {data : Bytes}
    (hkey : second.encryptionKey = [2]) (hsecond : second.marshal = .ok bytes)
    (hwrite : (wideTree (sampleLeaf 1) second).marshal = .ok data) :
    ∃ d res, (pairMember second 0 1).draftCommit wideSuite widerLeaf noRandomness = .ok d ∧
      (pairMember second 0 1).commit wideSuite widerLeaf noRandomness = .ok res ∧
      d.applied.tree = wideTree (wideLeaf 1 1) second := by
  -- a run with a short credential, from which the steps are taken over
  obtain ⟨d, hdraft, ⟨res, hfinish⟩, hleaf, hnodes⟩ :
      ∃ d, (pairMember (sampleLeaf 2) 0 1).draftCommit wideSuite widerLeaf noRandomness = .ok d ∧
        (∃ res, (pairMember (sampleLeaf 2) 0 1).finishCommit wideSuite d noRandomness = .ok res) ∧
        d.path.updatePath.leafNode.marshal.isOk = true ∧
        (d.path.updatePath.nodes.all fun n => n.encryptionKey.length < 64) = true := by
    decide +kernel
  obtain ⟨a⟩ := draftRun_of_draftCommit hdraft
  obtain ⟨b⟩ := finishRun_of_finishCommit hfinish
  obtain ⟨hrefs, hcache⟩ := Prod.mk.inj (Except.ok.inj a.cache_eq)
  have happlied : d.applied = ⟨wideTree (wideLeaf 1 1) (sampleLeaf 2), [], [], true, []⟩ := by
    have heq := a.applied_eq
    rw [a.wt_eq_tree (pairMember_consistent _ _ _ (by decide)), ← hrefs, ← hcache] at heq
    exact Except.ok.inj (heq.symm.trans (widerLeaf_applied (sampleLeaf 2) _ _))
  have hpath := a.path_eq
  rw [happlied] at hpath
  obtain ⟨firstBytes, hfirst⟩ : ∃ bytes, (wideLeaf 1 1).marshal = .ok bytes := by decide +kernel
  obtain ⟨smallBytes, hsmall⟩ : ∃ bytes, (sampleLeaf 2).marshal = .ok bytes := by decide +kernel
  obtain ⟨pub, htree, hhash, hhash', hgenerate⟩ := generateUpdatePath_wideTree
    hfirst hsmall hsecond (by rw [hkey]; rfl) hpath hleaf hnodes
  have hnewHash : a.newTreeHash = [0] := Except.ok.inj (a.treeHash_eq.symm.trans hhash)
  have hclone := (wideTree_invariant (sampleLeaf 1) second).clone_eq
    ⟨0, by simp [wideTree, slot_three]⟩ hwrite
  let d' : CommitDraft := { d with
    applied := ⟨wideTree (wideLeaf 1 1) second, [], [], true, []⟩
    path := { d.path with
      tree := installedTree d.path.updatePath.leafNode second pub } }
  have hdraft' : (pairMember second 0 1).draftCommit wideSuite widerLeaf
      noRandomness = .ok d' := by
    have hbody := a.commitBody_eq
    have hsign := a.signature_eq
    have hgc := a.newGC_eq
    have hgcBytes := a.newGCBytes_eq
    have hpsk := a.psk_eq
    rw [← hrefs] at hbody
    rw [a.content_eq] at hsign
    rw [hnewHash, a.confirmed_eq, happlied] at hgc
    rw [happlied] at hpsk
    simp only [Group.draftCommit, bind_eq_ok, within_eq_ok, pure_ok_iff]
    refine ⟨_, hclone, ([], []), rfl, _, widerLeaf_applied second _ none, _,
      hgenerate, a.commitBody, hbody, ⟨a.confirmedInput, d.signature⟩, hsign,
      [0], hhash', a.newGCBytes, ?_, a.psk, hpsk, d.secrets, a.secrets_eq, ?_⟩
    · rw [hgc] at hgcBytes
      exact hgcBytes
    · have htag := a.confTag_eq
      rw [a.confirmed_eq] at htag
      exact CommitDraft.mk.injEq .. |>.mpr ⟨rfl, rfl, a.content_eq.symm, rfl,
        a.confirmed_eq.symm, hgc.symm, rfl, htag.symm⟩
  have hf : d'.path.tree.Full 1 := installedTree_full _ _ _
  have hst := b.secretTree_eq
  rw [htree, (installedTree_full _ _ _).leafCount_eq] at hst
  have hfinish' : ∃ res', (pairMember second 0 1).finishCommit wideSuite d'
      noRandomness = .ok res' := by
    refine ⟨⟨{ (pairMember second 0 1).advance d'.path.tree d'.newGC d'.secrets b.interim b.newPriv
      b.secretTree with handshakeGeneration := 0 }, res.commit, none⟩, ?_⟩
    simp only [Group.finishCommit, bind_eq_ok, within_eq_ok, pure_ok_iff]
    exact ⟨b.message, b.message_eq, res.commit, b.commit_eq, none, rfl, b.interim, b.interim_eq,
      b.newPriv, b.newPriv_eq, b.secretTree, by rw [hf.leafCount_eq]; exact hst, rfl⟩
  obtain ⟨res', hfinish'⟩ := hfinish'
  exact ⟨d', res', hdraft', by rw [Group.commit, hdraft', ok_bind, hfinish'], rfl⟩

def longestCredential : ℕ := maxVarint - 70

/-- Member 1's credential fills the tree up to the limit; member 0 makes its own
leaf one byte longer.  Its commit succeeds, but member 1 cannot process it,
although it is in the same epoch and its keys fit. -/
theorem processCommit_stops_at_limit :
    SuiteLaws wideSuite ∧ KdfLaws wideSuite ∧
    ∃ c r : Group, c.Consistent wideSuite ∧ r.Consistent wideSuite ∧
      c.SignsAsLeaf wideSuite ∧ SameEpoch c r ∧
      ∃ d res, c.draftCommit wideSuite widerLeaf noRandomness = .ok d ∧
        c.commit wideSuite widerLeaf noRandomness = .ok res ∧
        CanFollow wideSuite c r widerLeaf d.applied ∧
        ∀ r', r.processCommit wideSuite widerLeaf.byReference res.commit ≠ .ok r' := by
  obtain ⟨bytes, hbytes, hlen⟩ := wideLeaf_marshal (n := longestCredential) 2
    (by decide) (by decide)
  obtain ⟨short, hshort, hshortLen⟩ : ∃ data, (sampleLeaf 1).marshal = .ok data ∧
      data.length = 31 := by decide +kernel
  obtain ⟨wider, hwider, hwiderLen⟩ : ∃ data, (wideLeaf 1 1).marshal = .ok data ∧
      data.length = 32 := by decide +kernel
  have hlimit : longestCredential + 70 = maxVarint := by decide
  obtain ⟨inner, hinner, hinnerLen⟩ := wideTree_marshal hshort hbytes
  obtain ⟨data, hdata, -⟩ := writeOpaqueV_long (p := inner)
    (by rw [hinnerLen, hlen]; have : 2 ^ 14 ≤ longestCredential := by decide
        omega) (by omega)
  obtain ⟨inner', hinner', hinnerLen'⟩ := wideTree_marshal hwider hbytes
  have hlong := writeOpaqueV_too_long (p := inner') (by omega)
  have hkey : (wideLeaf 2 longestCredential).encryptionKey = [2] := rfl
  obtain ⟨d, res, hdraft, hcommit, htree⟩ := widerLeaf_commits hkey hbytes (hinner.trans hdata)
  have hc := pairMember_consistent (wideLeaf 2 longestCredential) 0 1 (by omega)
  have hsame : SameEpoch (pairMember (wideLeaf 2 longestCredential) 0 1)
      (pairMember (wideLeaf 2 longestCredential) 1 2) := ⟨rfl, rfl, rfl, rfl, rfl, rfl⟩
  have hfollow := widerLeaf_canFollow hkey htree
  refine ⟨wideSuite_laws, wideSuite_kdfLaws, _, _, hc, pairMember_consistent _ 1 2 (by omega),
    pairMember_signs _, hsame, d, res, hdraft, hcommit, hfollow, fun r' => ?_⟩
  obtain ⟨a⟩ := draftRun_of_draftCommit hdraft
  rw [Group.commit, hdraft, ok_bind] at hcommit
  obtain ⟨b⟩ := finishRun_of_finishCommit hcommit
  rw [hsame.processCommit_eq_member wideSuite_laws hc (pairMember_signs _) a b]
  have hwrite : d.applied.tree.marshal = .error (.err (.varintTooLong inner'.length)) := by
    rw [htree, hinner', hlong]
  exact hsame.processMemberCommit_unwritable hc a hfollow hwrite r'

/-- Below the limit member 1 follows. -/
theorem processCommit_agrees_pair :
    ∃ d res, (pairMember (sampleLeaf 2) 0 1).draftCommit wideSuite widerLeaf noRandomness = .ok d ∧
      (pairMember (sampleLeaf 2) 0 1).commit wideSuite widerLeaf noRandomness = .ok res ∧
      ((∃ r', (pairMember (sampleLeaf 2) 1 2).processCommit wideSuite
          widerLeaf.byReference res.commit = .ok r' ∧ SameEpoch res.group r') ↔
        ∃ data, d.applied.tree.marshal = .ok data) ∧
      ∃ data, d.applied.tree.marshal = .ok data := by
  obtain ⟨bytes, hbytes⟩ : ∃ data, (sampleLeaf 2).marshal = .ok data := by decide +kernel
  obtain ⟨data, hdata⟩ : ∃ data, (wideTree (sampleLeaf 1) (sampleLeaf 2)).marshal = .ok data := by
    decide +kernel
  obtain ⟨d, res, hdraft, hcommit, htree⟩ := widerLeaf_commits rfl hbytes hdata
  refine ⟨d, res, hdraft, hcommit, ?_, ?_⟩
  · exact processCommit_agrees_iff wideSuite_laws wideSuite_kdfLaws
      (pairMember_consistent _ 0 1 (by omega)) (pairMember_consistent _ 1 2 (by omega))
      (pairMember_signs _) rfl rfl rfl rfl rfl hcommit hdraft (widerLeaf_canFollow rfl htree)
  · rw [htree]
    decide +kernel

end MlsGo
