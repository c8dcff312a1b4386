import MlsGo.JoinerKeys
import MlsGo.ScheduleReturns
import MlsGo.ValidationFaults

/-!
# When the operations on a path return

Every walk of the source climbs until it meets the root.  From a leaf inside the
array it does; from a leaf outside, already the first parent is never found:
all ancestors lie outside too, and at the top of the index range `parentStep`
stays where it is.  Inside the array generating, merging and reading a path
return, provided that unmerged leaves are populated leaves of the tree.
-/

namespace MlsGo

open InOrderLayout

namespace RatchetTree

variable {S : Suite} {t : RatchetTree} {h k j L M : ℕ}

def Holds (t : RatchetTree) (leaf : ℕ) : Prop := u32 (2 * leaf) < t.nodes.length

instance (t : RatchetTree) (leaf : ℕ) : Decidable (t.Holds leaf) :=
  inferInstanceAs (Decidable (_ < _))

variable {leaf : ℕ}

theorem Full.holds_iff (hf : t.Full h) : t.Holds leaf ↔ leaf % 2 ^ 31 < 2 ^ h := by
  rw [Holds, u32_double, hf.length_eq, ← inside_iff]
  simp [Inside]

/-! ## Walks from outside the array -/

theorem ancestor_outside (hM : 2 ^ h ≤ M) (k : ℕ) : treeWidth h ≤ inorder k (M / 2 ^ k) := by
  by_contra hlt
  obtain ⟨hk, hrank⟩ := inside_iff.mpr (not_le.mp hlt)
  rw [Nat.div_lt_iff_lt_mul (Nat.two_pow_pos k), ← pow_add, Nat.sub_add_cancel hk] at hrank
  omega

theorem parentStep_ancestor (hM : M < 2 ^ 31) (hk : k ≤ 32) :
    parentStep (inorder k (M / 2 ^ k)) = inorder (min (k + 1) 32) (M / 2 ^ min (k + 1) 32) := by
  rcases hk.eq_or_lt with rfl | hlt
  · rw [show min (32 + 1) 32 = 32 by rfl, Nat.div_eq_of_lt (by omega)]
    decide
  · have hin : inorder k (M / 2 ^ k) < 2 ^ 32 :=
      (inside_iff.mp (inside_ancestor hM (by omega))).trans (treeWidth_lt le_rfl)
    rw [parentStep_inorder hlt hin, ← ancestor_succ, min_eq_left (show k + 1 ≤ 32 by omega)]

theorem climbInside_outside (hM : M < 2 ^ 31) (hout : 2 ^ h ≤ M) :
    ∀ fuel k, k ≤ 32 →
      climbInside (treeWidth h) fuel (inorder k (M / 2 ^ k)) = .error .diverge := by
  intro fuel
  induction fuel with
  | zero => exact fun _ _ => rfl
  | succ fuel ih =>
      intro k hk
      have hge := ancestor_outside hout k
      rw [climbInside, if_neg (by omega), parentStep_ancestor hM hk]
      exact ih _ (min_le_right _ _)

theorem parent_outside (hh : h ≤ 30) (hM : M < 2 ^ 31) (hout : 2 ^ h ≤ M) :
    parent (inorder 0 M) (2 ^ h) = .error .diverge := by
  have hge := ancestor_outside hout 0
  have hroot := inside_iff.mp (inside_root (h := h))
  have hclimb := climbInside_outside hM hout 34 1 (by omega)
  have hstep := parentStep_ancestor hM (Nat.zero_le 32)
  rw [pow_zero, Nat.div_one] at hge hstep
  rw [parent, root_full (by omega), if_neg (by omega), hstep,
    nodeWidth_full (by omega), show min (0 + 1) 32 = 1 by rfl, hclimb]
  rfl

theorem Full.filteredDirectPath_outside (hf : t.Full h) (hout : ¬ t.Holds leaf) :
    t.filteredDirectPath leaf = .error .diverge := by
  rw [hf.holds_iff, not_lt] at hout
  have hne : inorder 0 (leaf % 2 ^ 31) ≠ inorder h 0 := by
    have hge := ancestor_outside hout 0
    have hroot := inside_iff.mp (inside_root (h := h))
    rw [pow_zero, Nat.div_one] at hge
    omega
  rw [filteredDirectPath, u32_double, hf.root_eq, walkFuel, walkUp, if_neg hne,
    hf.leafCount_eq, parent_outside hf.le_thirty (Nat.mod_lt _ (by norm_num)) hout]
  rfl

theorem Full.installPath_outside (hf : t.Full h) (hout : ¬ t.Holds leaf) (nodePubs : List Bytes) :
    t.installPath S leaf nodePubs = .error .diverge := by
  rw [installPath, hf.filteredDirectPath_outside hout, error_bind]

/-! ## Merging -/

@[simp] theorem parentHashVia_stops (p : ParentNode) (k s : ℕ) :
    StopsAtLimit (t.parentHashVia S p k s) := by
  simp [parentHashVia, parentHashBytes, treeHashAt_stops]

@[simp] theorem parentHashBelow_stops (L : ℕ) (entries : GoMap ℕ ParentNode) :
    StopsAtLimit (t.parentHashBelow S L entries) := by
  cases entries with
  | nil => exact stops_ok _
  | cons entry rest => exact parentHashVia_stops _ _ _

theorem pathEntries_stops (L : ℕ) (path : List (ℕ × Bytes)) :
    StopsAtLimit (t.pathEntries S L path) := by
  induction path with
  | nil => exact stops_ok _
  | cons entry rest ih =>
      obtain ⟨k, pub⟩ := entry
      simp [pathEntries_cons_eq, ih]

theorem Full.installPath_returns (hf : t.Full h)
    (hleaf : leaf % 2 ^ 31 = L) (hL : L < 2 ^ h) (nodePubs : List Bytes) :
    Returns (t.installPath S leaf nodePubs) := by
  by_cases hlen : nodePubs.length = (t.pathLevels h L).length
  · rw [hf.installPath_eq hleaf hL hlen]
    simp [pathEntries_stops]
  · rw [installPath, hf.filteredDirectPath_eq hleaf hL, ok_bind,
      if_pos (by simpa using Ne.symm hlen)]
    exact returns_fail _

theorem Full.merge_returns_iff (hf : t.Full h) {up : UpdatePath} :
    Returns (t.merge S leaf up) ↔ t.Holds leaf := by
  constructor
  · intro hreturns
    by_contra hout
    rw [merge, hf.installPath_outside hout, error_bind] at hreturns
    exact not_returns_diverge hreturns
  · intro hheld
    have hL := hf.holds_iff.mp hheld
    refine (hf.installPath_returns rfl hL _).bind fun s hs => ?_
    obtain ⟨entries, -, hset⟩ := hf.installed_of_installPath rfl hL hs
    rw [(hset up.leafNode).1]
    exact returns_ok _

/-! ## Reading a path -/

theorem Full.resolution_copath (hf : t.Full h) (hL : L < 2 ^ h) (hk : k < h) :
    t.copathChild (pathNode L k) (inorder 0 L) = .ok (inorder k (siblingRank (L / 2 ^ k))) ∧
      t.resolution (inorder k (siblingRank (L / 2 ^ k))) =
        .ok (t.resolutionAt k (siblingRank (L / 2 ^ k))) :=
  ⟨hf.copathChild_eq hL hk, hf.resolution_eq ((inside_ancestor hL hk.le).sibling hk)⟩

theorem Full.findPathSecret_returns (hf : t.Full h) (hL : L < 2 ^ h) (priv : TreeKEMPrivate)
    (groupContext : Bytes) (skipped : List ℕ) (levels : List ℕ) (hlevels : ∀ k ∈ levels, k < h)
    (nodes : List UpdatePathNode) :
    Returns (t.findPathSecret S (inorder 0 L) priv groupContext skipped
      ((levels.map (pathNode L)).zip nodes)) := by
  induction levels generalizing nodes with
  | nil => simp [findPathSecret]
  | cons k levels ih =>
      cases nodes with
      | nil => simp [findPathSecret]
      | cons n nodes =>
          obtain ⟨hchild, hres⟩ := hf.resolution_copath hL (hlevels k (by simp))
          rw [List.map_cons, List.zip_cons_cons, findPathSecret, hchild, ok_bind, hres, ok_bind]
          cases findCiphertext priv skipped n.encryptedPathSecret
              (t.resolutionAt k (siblingRank (L / 2 ^ k))) 0 with
          | none => exact ih (fun i hi => hlevels i (by simp [hi])) nodes
          | some found => simp

theorem climbPath_returns (cur : Bytes) (path : List (ℕ × UpdatePathNode)) :
    Returns (climbPath S cur path) := by
  induction path generalizing cur with
  | nil => simp [climbPath]
  | cons entry rest ih =>
      cases rest with
      | nil => simp [climbPath]
      | cons next rest =>
          rw [climbPath]
          simp [ih]

theorem Full.processUpdatePath_returns (hf : t.Full h) (hheld : t.Holds leaf) (up : UpdatePath)
    (priv : TreeKEMPrivate) (groupContext : Bytes) (newlyAdded : List ℕ) :
    Returns (t.processUpdatePath S leaf up priv groupContext newlyAdded) := by
  have hL := hf.holds_iff.mp hheld
  rw [processUpdatePath, hf.filteredDirectPath_eq rfl hL, ok_bind]
  split
  · exact returns_fail _
  · have hlevels : ∀ k ∈ t.pathLevels h (leaf % 2 ^ 31), k < h :=
      fun k hk => (mem_pathLevels.mp hk).1
    rw [u32_double]
    refine (hf.findPathSecret_returns hL priv groupContext _ _ hlevels _).bind ?_
    intro found _
    cases found with
    | none => exact returns_ok _
    | some entry => simp [climbPath_returns, commitSecretOf]

/-! ## Generating a path -/

theorem pathSecretsFrom_returns (src : Bytes) (n : ℕ) : Returns (pathSecretsFrom S src n) := by
  induction n generalizing src with
  | zero => simp [pathSecretsFrom]
  | succ n ih => simp [pathSecretsFrom, ih]

theorem nodePublicKeys_returns (secrets : List Bytes) : Returns (nodePublicKeys S secrets) := by
  induction secrets with
  | nil => simp [nodePublicKeys]
  | cons ps rest ih => simp [nodePublicKeys, ih]

theorem recipientKeys_returns (skipped : List ℕ) {nodes : List ℕ}
    (hnodes : ∀ d ∈ nodes, d < t.nodes.length) :
    Returns (t.recipientKeys skipped nodes) := by
  induction nodes with
  | nil => simp [recipientKeys]
  | cons d ds ih =>
      rw [List.forall_mem_cons] at hnodes
      have hkey : Returns (t.nodePublicKey d) := by
        rw [nodePublicKey, index, List.getElem?_eq_getElem hnodes.1, ok_bind]
        rcases t.nodes[d] with _ | (l | p) <;> simp
      simp [recipientKeys, hkey, ih hnodes.2]

theorem Full.copathRecipients_returns (hf : t.Full h) (hw : WellFormed t.slot)
    (hL : L < 2 ^ h) (skipped levels : List ℕ) (hlevels : ∀ k ∈ levels, k < h) :
    Returns (t.copathRecipients (inorder 0 L) skipped (levels.map (pathNode L))) := by
  induction levels with
  | nil => simp [copathRecipients]
  | cons k levels ih =>
      obtain ⟨hchild, hres⟩ := hf.resolution_copath hL (hlevels k (by simp))
      have hkeys : Returns (t.recipientKeys skipped
          (t.resolutionAt k (siblingRank (L / 2 ^ k)))) := by
        refine recipientKeys_returns skipped fun d hd => ?_
        obtain ⟨i, m, rfl, -, hne⟩ := hf.mem_resolutionAt hw _ _ d hd
        obtain ⟨n, hn⟩ := Option.ne_none_iff_exists'.mp hne
        exact hf.inorder_lt_length (hf.inside_of_slot hn)
      rw [List.map_cons, copathRecipients, hchild, ok_bind, hres, ok_bind]
      exact hkeys.bind fun pubs _ =>
        (ih fun i hi => hlevels i (by simp [hi])).bind fun _ _ => returns_ok _

theorem encryptPathSecret_returns (groupContext pathSecret : Bytes)
    (seeds : ℕ → Bytes) (pubs : List Bytes) :
    Returns (encryptPathSecret S groupContext pathSecret seeds pubs) := by
  induction pubs generalizing seeds with
  | nil => simp [encryptPathSecret]
  | cons pub pubs ih => simp [encryptPathSecret, ih]

theorem encryptPath_returns (groupContext : Bytes) (seeds : ℕ → ℕ → Bytes)
    (items : List (Bytes × Bytes × List Bytes)) :
    Returns (encryptPath S groupContext seeds items) := by
  induction items generalizing seeds with
  | nil => simp [encryptPath]
  | cons item rest ih => simp [encryptPath, encryptPathSecret_returns, ih]

/-- What `GenerateUpdatePath` has computed when it comes to sign the new
leaf. -/
structure PathDraft where
  path : List ℕ
  pathSecrets : List Bytes
  commitSecret : Bytes
  nodePubs : List Bytes
  resPubs : List (List Bytes)
  tree : RatchetTree
  leaf : LeafNode

def draftPath (S : Suite) (t : RatchetTree) (senderLeaf : ℕ)
    (leafSecret : Bytes) (newlyAdded : List ℕ) : Result PathDraft := do
  let senderNode := u32 (2 * senderLeaf)
  let origNode ← t.index senderNode
  match origNode with
  | some (.leaf orig) =>
      let fdp ← t.filteredDirectPath senderLeaf
      let pathSecrets ← pathSecretsFrom S leafSecret fdp.length
      let commitSecret ← commitSecretOf S (pathSecrets.getLast?.getD leafSecret)
      let (_, leafPub) ← nodeKeyPair S leafSecret
      let nodePubs ← nodePublicKeys S pathSecrets
      let resPubs ← t.copathRecipients senderNode (addedNodes newlyAdded) fdp
      let t ← t.installPath S senderLeaf nodePubs
      let ph ← t.leafParentHash S senderLeaf fdp
      return ⟨fdp, pathSecrets, commitSecret, nodePubs, resPubs, t, commitLeaf orig leafPub ph⟩
  | _ => fail s!"tree: sender leaf {senderLeaf} is blank"

section Generating

variable {senderLeaf : ℕ} {leafSecret : Bytes} {newlyAdded : List ℕ} {signer : Option Signer}
  {groupID : Bytes} {mkGroupContext : Bytes → Result Bytes} {seeds : ℕ → ℕ → Bytes}

theorem generateUpdatePath_eq :
    t.generateUpdatePath S senderLeaf leafSecret signer groupID newlyAdded
        mkGroupContext seeds = (do
      let d ← draftPath S t senderLeaf leafSecret newlyAdded
      let leaf ← signLeafNode S signer d.leaf groupID senderLeaf
      let t ← d.tree.setNode (u32 (2 * senderLeaf)) (some (.leaf leaf))
      let treeHash ← t.rootTreeHash S
      let groupContext ← mkGroupContext treeHash
      let nodes ← encryptPath S groupContext seeds (d.nodePubs.zip (d.pathSecrets.zip d.resPubs))
      return { updatePath := ⟨leaf, nodes⟩
               commitSecret := d.commitSecret
               pathSecretByNode := d.path.zip d.pathSecrets
               tree := t }) := by
  rw [generateUpdatePath, draftPath]
  simp only [bind_assoc]
  congr 1
  funext origNode
  rcases origNode with _ | (orig | p)
  · rfl
  · simp only [bind_assoc, pure_bind]
  · rfl

theorem Full.draftPath_returns_iff (hf : t.Full h) (hw : WellFormed t.slot) :
    Returns (draftPath S t senderLeaf leafSecret newlyAdded) ↔ t.Holds senderLeaf := by
  constructor
  · intro hreturns
    by_contra hout
    rw [Holds, not_lt] at hout
    rw [draftPath, index, List.getElem?_eq_none hout, error_bind] at hreturns
    exact not_returns_panic hreturns
  · intro hheld
    have hL := hf.holds_iff.mp hheld
    have hlevels : ∀ k ∈ t.pathLevels h (senderLeaf % 2 ^ 31), k < h :=
      fun k hk => (mem_pathLevels.mp hk).1
    rw [draftPath, index, List.getElem?_eq_getElem hheld, ok_bind]
    rcases t.nodes[u32 (2 * senderLeaf)] with _ | (orig | p)
    · exact returns_fail _
    · simp only [hf.filteredDirectPath_eq rfl hL, ok_bind]
      refine (pathSecretsFrom_returns _ _).bind fun secrets _ => ?_
      refine Returns.bind (by simp [commitSecretOf]) fun commitSecret _ => ?_
      refine (nodeKeyPair_returns _).bind fun pair _ => ?_
      refine (nodePublicKeys_returns _).bind fun pubs _ => ?_
      rw [u32_double]
      refine (hf.copathRecipients_returns hw hL _ _ hlevels).bind fun res _ => ?_
      refine (hf.installPath_returns rfl hL pubs).bind fun s hs => ?_
      obtain ⟨entries, rfl, hset⟩ := hf.installed_of_installPath rfl hL hs
      have hkeys := (hset orig).2.keys_eq
      rw [← hkeys, hf.leafParentHash_eq rfl hL (by rw [hkeys]; exact hlevels)]
      simp
    · exact returns_fail _

variable {d : PathDraft}

theorem Full.tree_of_draftPath (hf : t.Full h)
    (hrun : draftPath S t senderLeaf leafSecret newlyAdded = .ok d)
    (hheld : t.Holds senderLeaf) (ln : LeafNode) :
    ∃ s, d.tree.setNode (u32 (2 * senderLeaf)) (some (.leaf ln)) = .ok s ∧ s.Full h := by
  have hL := hf.holds_iff.mp hheld
  obtain ⟨origNode, -, hrun⟩ := bind_eq_ok.mp hrun
  rcases origNode with _ | (orig | p)
  · exact absurd hrun fail_ne_ok
  · simp only [bind_eq_ok, pure_ok_iff] at hrun
    obtain ⟨path, -, secrets, -, commitSecret, -, pair, -, pubs, -, res, -, s, hs,
      ph, -, rfl⟩ := hrun
    obtain ⟨entries, -, hset⟩ := hf.installed_of_installPath rfl hL hs
    exact ⟨_, (hset ln).1, (hset ln).2.full⟩
  · exact absurd hrun fail_ne_ok

def PathDraft.Signable (d : PathDraft) (groupID : Bytes) (senderLeaf : ℕ) :
    Prop :=
  ∃ tbs content, d.leaf.tbs groupID senderLeaf = .ok tbs ∧
    labeledContext "LeafNodeTBS" tbs = .ok content

theorem signLeafNode_returns_iff :
    Returns (signLeafNode S signer d.leaf groupID senderLeaf) ↔
      (signer = none → ¬ d.Signable groupID senderLeaf) := by
  cases signer with
  | some key => simp [signLeafNode]
  | none => simp [signLeafNode, Suite.signWithLabel, PathDraft.Signable]

theorem Full.generateUpdatePath_returns_iff (hf : t.Full h)
    (hw : WellFormed t.slot) (hcontext : ∀ hash, Returns (mkGroupContext hash)) :
    Returns (t.generateUpdatePath S senderLeaf leafSecret signer groupID
        newlyAdded mkGroupContext seeds) ↔
      t.Holds senderLeaf ∧ (signer = none →
        ∀ d, draftPath S t senderLeaf leafSecret newlyAdded = .ok d →
          ¬ d.Signable groupID senderLeaf) := by
  rw [generateUpdatePath_eq, returns_bind, hf.draftPath_returns_iff hw]
  refine and_congr_right fun hheld => ?_
  have hrest : ∀ d, draftPath S t senderLeaf leafSecret newlyAdded = .ok d → ∀ leaf, Returns (do
        let t ← d.tree.setNode (u32 (2 * senderLeaf)) (some (.leaf leaf))
        let treeHash ← t.rootTreeHash S
        let groupContext ← mkGroupContext treeHash
        let nodes ← encryptPath S groupContext seeds (d.nodePubs.zip (d.pathSecrets.zip d.resPubs))
        return ({ updatePath := ⟨leaf, nodes⟩
                  commitSecret := d.commitSecret
                  pathSecretByNode := d.path.zip d.pathSecrets
                  tree := t } : GeneratedPath)) := by
    intro d hd leaf
    obtain ⟨s, hs, hfs⟩ := hf.tree_of_draftPath hd hheld leaf
    simp [hs, hfs.rootTreeHash_stops, hcontext, encryptPath_returns]
  constructor
  · intro hreturns hnone d hd
    exact signLeafNode_returns_iff.mp (returns_bind.mp (hreturns d hd)).1 hnone
  · intro hsign d hd
    exact (signLeafNode_returns_iff.mpr fun hnone => hsign hnone d hd).bind
      fun leaf _ => hrest d hd leaf

end Generating

end RatchetTree

/-! ## Common ancestors -/

variable {S : Suite} {h L R : ℕ}

theorem commonAncestor_inside (hh : h ≤ 31) (hL : L < 2 ^ h) (hR : R < 2 ^ h) :
    ∃ k ≤ h, commonAncestor (inorder 0 R) (inorder 0 L) (2 ^ h) = .ok (inorder k (R / 2 ^ k)) := by
  obtain ⟨k, hk, hmeet, hapart⟩ := RatchetTree.exists_meet hL hR
  exact ⟨k, hk, commonAncestor_of_meet hh hL hR hk hmeet hapart⟩

theorem commonAncestor_outside (hh : h ≤ 30) (hL : L < 2 ^ h) (hR : R < 2 ^ 31)
    (hout : 2 ^ h ≤ R) :
    commonAncestor (inorder 0 R) (inorder 0 L) (2 ^ h) = .error .diverge := by
  have hle : 2 ^ h ≤ 2 ^ 31 := Nat.pow_le_pow_right (by norm_num) (by omega)
  have hne : inorder 0 R ≠ inorder 0 L := by
    simp only [inorder_zero]
    omega
  rw [commonAncestor_leaves (by omega) hR, climbTogether, if_neg hne,
    RatchetTree.parent_outside hh hR hout, error_bind]

theorem installJoinerLoop_returns (hh : h ≤ 31) (hR : R < 2 ^ h) :
    ∀ fuel k secret priv, k ≤ h → h < k + fuel →
      Returns (installJoinerLoop S (2 ^ h) fuel (inorder k (R / 2 ^ k)) secret priv) := by
  intro fuel
  induction fuel with
  | zero =>
      intro k secret priv hk hfuel
      omega
  | succ fuel ih =>
      intro k secret priv hk hfuel
      rw [installJoinerLoop, root_full hh]
      refine (addPathSecret_returns _ _ _).bind fun priv₁ _ => ?_
      rcases hk.eq_or_lt with rfl | hlt
      · rw [Nat.div_eq_of_lt hR, if_pos rfl]
        exact returns_ok _
      · have hne : inorder k (R / 2 ^ k) ≠ inorder h 0 := by
          rw [Ne, inorder_inj]
          omega
        rw [if_neg hne]
        refine (deriveSecret_returns _ _).bind fun next _ => ?_
        rw [parent_ancestor hh hR hlt, ok_bind]
        exact ih (k + 1) next priv₁ hlt (by omega)

theorem installJoinerPriv_returns_iff {t : RatchetTree} (hf : t.Full h) {ownLeaf senderLeaf : ℕ}
    (hsender : t.Holds senderLeaf) (priv : TreeKEMPrivate) (secret : Bytes) :
    Returns (installJoinerPriv S priv secret ownLeaf senderLeaf t.leafCount) ↔
      t.Holds ownLeaf := by
  have hh := hf.le_thirty
  have hL := hf.holds_iff.mp hsender
  rw [installJoinerPriv, RatchetTree.u32_double, RatchetTree.u32_double, hf.leafCount_eq]
  constructor
  · intro hreturns
    by_contra hout
    rw [hf.holds_iff, not_lt] at hout
    rw [commonAncestor_outside hh hL (Nat.mod_lt _ (by norm_num)) hout, error_bind] at hreturns
    exact not_returns_diverge hreturns
  · intro hheld
    have hR := hf.holds_iff.mp hheld
    obtain ⟨k, hk, hmeet⟩ := commonAncestor_inside (by omega) hL hR
    rw [hmeet, ok_bind]
    exact installJoinerLoop_returns (by omega) hR 34 k _ _ hk (by omega)

end MlsGo
