import MlsGo.HashSlots

/-!
# Successful path operations

`PathRun` names every intermediate value of a successful `GenerateUpdatePath`.
`Installed` is what it and `Merge` do to the tree: the ancestors of the sender
are replaced by the entries of the path, its leaf by the new leaf.
-/

namespace MlsGo

namespace RatchetTree

open InOrderLayout

variable {S : Suite} {t t' : RatchetTree} {h k j L : ℕ} {entries : GoMap ℕ ParentNode}
    {nodePubs : List Bytes} {leaf : ℕ} {path : List (ℕ × Bytes)} {up : UpdatePath}
    {secrets : List Bytes}

structure Installed (S : Suite) (t : RatchetTree) (h L : ℕ)
    (nodePubs : List Bytes) (entries : GoMap ℕ ParentNode) (leaf : LeafNode)
    (t' : RatchetTree) : Prop where
  length_eq : nodePubs.length = (t.pathLevels h L).length
  entries_eq : t.pathEntries S L ((t.pathLevels h L).zip nodePubs) = .ok entries
  full : t'.Full h
  slot_eq : ∀ k j, t'.slot k j =
    if L / 2 ^ k = j then
      (if k = 0 then some (.leaf leaf) else entrySlot entries (k - 1))
    else t.slot k j

namespace Installed

variable {nodePubs : List Bytes} {entries : GoMap ℕ ParentNode} {leaf : LeafNode}

theorem keys_eq (hi : Installed S t h L nodePubs entries leaf t') :
    entries.map Prod.fst = t.pathLevels h L := by
  rw [pathEntries_keys hi.entries_eq, List.map_fst_zip hi.length_eq.ge]

theorem entrySlot_ne_none_iff (hi : Installed S t h L nodePubs entries leaf t') :
    entrySlot entries k ≠ none ↔ k < h ∧ ¬ t.copathEmpty L k := by
  rw [Ne, entrySlot_eq_none_iff, not_not, hi.keys_eq, mem_pathLevels]

theorem slot_off (hi : Installed S t h L nodePubs entries leaf t')
    (hne : L / 2 ^ k ≠ j) : t'.slot k j = t.slot k j := by
  rw [hi.slot_eq, if_neg hne]

theorem slot_leaf (hi : Installed S t h L nodePubs entries leaf t') :
    t'.slot 0 L = some (.leaf leaf) := by
  rw [hi.slot_eq]
  simp

theorem slot_on (hi : Installed S t h L nodePubs entries leaf t') :
    t'.slot (k + 1) (L / 2 ^ (k + 1)) = entrySlot entries k := by
  rw [hi.slot_eq]
  simp

end Installed

/-- The rest of an installed path, from the node at level `a` up: its entries stand
above that node, and every level it leaves out has nobody on the copath. -/
structure PathAbove (S : Suite) (t t' : RatchetTree) (h L a : ℕ)
    (path : List (ℕ × Bytes)) (entries : GoMap ℕ ParentNode) : Prop where
  entries_eq : t.pathEntries S L path = .ok entries
  sorted : (path.map Prod.fst).Pairwise (· < ·)
  levels : ∀ e ∈ path, a ≤ e.1 ∧ e.1 < h
  left_out : ∀ k, a ≤ k → k < h → k ∉ path.map Prod.fst → t.copathEmpty L k
  slots : ∀ k, a ≤ k → k < h → t'.slot (k + 1) (L / 2 ^ (k + 1)) = entrySlot entries k

theorem Installed.pathAbove {leaf : LeafNode} (hi : Installed S t h L nodePubs entries leaf t') :
    PathAbove S t t' h L 0 ((t.pathLevels h L).zip nodePubs) entries := by
  have hfst : ((t.pathLevels h L).zip nodePubs).map Prod.fst = t.pathLevels h L :=
    List.map_fst_zip hi.length_eq.ge
  refine ⟨hi.entries_eq, ?_, ?_, ?_, fun k _ _ => hi.slot_on⟩
  · rw [hfst]
    exact t.pathLevels_sorted h L
  · exact fun e he => ⟨Nat.zero_le _, (mem_pathLevels.mp (List.of_mem_zip he).1).1⟩
  · intro k _ hk hnot
    rw [hfst, mem_pathLevels] at hnot
    by_contra hempty
    exact hnot ⟨hk, hempty⟩

theorem PathAbove.cons {a : ℕ} {pub : Bytes} {rest : List (ℕ × Bytes)}
    (hp : PathAbove S t t' h L a ((k, pub) :: rest) entries) :
    ∃ others parentHash, entries = (k, ⟨pub, parentHash, []⟩) :: others ∧
      a ≤ k ∧ k < h ∧ t.parentHashBelow S L others = .ok parentHash ∧
      t'.slot (k + 1) (L / 2 ^ (k + 1)) = some (.parent ⟨pub, parentHash, []⟩) ∧
      (∀ i, a ≤ i → i < k → t'.slot (i + 1) (L / 2 ^ (i + 1)) = none ∧ t.copathEmpty L i) ∧
      PathAbove S t t' h L (k + 1) rest others := by
  obtain ⟨hentries, hsorted, hlevels, hleft, hslots⟩ := hp
  obtain ⟨others, parentHash, hothers, hhash, rfl⟩ := pathEntries_cons hentries
  simp only [List.forall_mem_cons] at hlevels
  simp only [List.map_cons, List.pairwise_cons] at hsorted
  obtain ⟨⟨hak, hkh⟩, hrest⟩ := hlevels
  refine ⟨others, parentHash, rfl, hak, hkh, hhash, ?_, ?_, hothers, hsorted.2, ?_, ?_, ?_⟩
  · rw [hslots k hak hkh, entrySlot_cons, if_pos rfl]
  · intro i hai hik
    have hnot : i ∉ ((k, pub) :: rest).map Prod.fst := by
      simp only [List.map_cons, List.mem_cons, not_or]
      exact ⟨by omega, fun hmem => by have := hsorted.1 i hmem; omega⟩
    refine ⟨?_, hleft i hai (by omega) hnot⟩
    rw [hslots i hai (by omega), entrySlot_eq_none_iff, pathEntries_keys hentries]
    exact hnot
  · exact fun e he => ⟨hsorted.1 e.1 (List.mem_map_of_mem he), (hrest e he).2⟩
  · intro i hi hih hnot
    refine hleft i (by omega) hih ?_
    simp only [List.map_cons, List.mem_cons, not_or]
    exact ⟨by omega, hnot⟩
  · intro i hi hih
    rw [hslots i (by omega) hih, entrySlot_cons, if_neg (by omega)]

theorem pathEntries_unmerged (hrun : t.pathEntries S L path = .ok entries) :
    ∀ e ∈ entries, e.2.unmergedLeaves = [] := by
  induction path generalizing entries with
  | nil =>
      cases hrun
      simp
  | cons head rest ih =>
      obtain ⟨others, parentHash, hothers, -, rfl⟩ := pathEntries_cons hrun
      simpa using fun k p => ih hothers (k, p)

theorem entrySlot_eq_some {n : Node} (hslot : entrySlot entries k = some n) :
    ∃ p, n = .parent p ∧ (k, p) ∈ entries := by
  rw [entrySlot, Option.map_eq_some_iff] at hslot
  obtain ⟨p, hget, rfl⟩ := hslot
  exact ⟨p, rfl, GoMap.mem_of_get hget⟩

theorem Full.installed_of_installPath (hf : t.Full h) (hleaf : leaf % 2 ^ 31 = L) (hL : L < 2 ^ h)
    {s : RatchetTree} (hinstall : t.installPath S leaf nodePubs = .ok s) :
    ∃ entries,
      s = t.withAncestors L (entrySlot entries) h ∧
      ∀ ln, s.setNode (u32 (2 * leaf)) (some (.leaf ln)) = .ok (s.setSlot 0 L (some (.leaf ln))) ∧
        Installed S t h L nodePubs entries ln (s.setSlot 0 L (some (.leaf ln))) := by
  have hlen : nodePubs.length = (t.pathLevels h L).length := by
    by_contra hne
    rw [installPath, hf.filteredDirectPath_eq hleaf hL, ok_bind,
      if_pos (by simpa using Ne.symm hne)] at hinstall
    exact fail_ne_ok hinstall
  rw [hf.installPath_eq hleaf hL hlen] at hinstall
  obtain ⟨entries, hentries, hs⟩ := bind_eq_ok.mp hinstall
  rw [pure_ok_iff] at hs
  have hin : Inside h 0 L := ⟨Nat.zero_le _, by simpa using hL⟩
  have hfs := hf.withAncestors L (entrySlot entries) h
  have hout : ∀ k, h ≤ k → entrySlot entries k = none := by
    intro k hk
    rw [entrySlot_eq_none_iff, pathEntries_keys hentries, List.map_fst_zip hlen.ge, mem_pathLevels]
    omega
  subst hs
  refine ⟨entries, rfl, fun ln => ⟨?_, hlen, hentries, hfs.setSlot _ _ _, fun k j => ?_⟩⟩
  · rw [u32_double, hleaf, hfs.setNode_eq hin]
  · rw [hfs.slot_setSlot hin, hf.slot_withAncestors_all hL _ hout]
    rcases Nat.eq_zero_or_pos k with rfl | hk
    · simp [eq_comm]
    · simp [hk, hk.ne']

theorem Full.leafParentHash_eq (hf : t.Full h) (hleaf : leaf % 2 ^ 31 = L) (hL : L < 2 ^ h)
    (hkeys : ∀ k ∈ entries.map Prod.fst, k < h) :
    (t.withAncestors L (entrySlot entries) h).leafParentHash S leaf
        ((entries.map Prod.fst).map (pathNode L)) =
      t.parentHashBelow S L entries := by
  cases entries with
  | nil => rfl
  | cons entry rest =>
      obtain ⟨k, p⟩ := entry
      have hfor := hf.parentHashFor_eq (S := S) hL (f := entrySlot ((k, p) :: rest))
        (hkeys k (by simp)) (p := p) (by simp [entrySlot_cons]) (Nat.zero_le k)
      rw [pow_zero, Nat.div_one] at hfor
      simp only [List.map_cons, leafParentHash, u32_double, hleaf]
      rw [hfor, parentHashBelow]

theorem Full.merge_installed (hf : t.Full h) (hleaf : leaf % 2 ^ 31 = L) (hL : L < 2 ^ h)
    (hmerge : t.merge S leaf up = .ok t') :
    ∃ entries, Installed S t h L (up.nodes.map (·.encryptionKey)) entries up.leafNode t' := by
  obtain ⟨s, hinstall, hset⟩ := bind_eq_ok.mp hmerge
  obtain ⟨entries, -, hleafSet⟩ := hf.installed_of_installPath hleaf hL hinstall
  obtain ⟨hnode, hi⟩ := hleafSet up.leafNode
  rw [hnode, Except.ok.injEq] at hset
  subst hset
  exact ⟨entries, hi⟩

/-! ## Merging at a leaf outside the tree -/

theorem length_of_setNode {i : ℕ} {n : Option Node} (hset : t.setNode i n = .ok t') :
    i < t.nodes.length ∧ t'.nodes.length = t.nodes.length := by
  rw [setNode] at hset
  split at hset
  · next hlt =>
      cases hset
      simp [hlt]
  · cases hset

theorem length_of_walkUp {leaves top : ℕ} {visit : ℕ → ℕ → RatchetTree → Result RatchetTree}
    (hvisit : ∀ x p t t', visit x p t = .ok t' → t'.nodes.length = t.nodes.length) :
    ∀ fuel x t, walkUp leaves top visit fuel x t = .ok t' → t'.nodes.length = t.nodes.length := by
  intro fuel
  induction fuel with
  | zero =>
      intro x t hrun
      cases hrun
  | succ fuel ih =>
      intro x t hrun
      rw [walkUp] at hrun
      split at hrun
      · cases hrun
        rfl
      · obtain ⟨⟨p, ok⟩, -, hrun⟩ := bind_eq_ok.mp hrun
        obtain ⟨s, hs, hrun⟩ := bind_eq_ok.mp hrun
        exact (ih p s hrun).trans (hvisit x p t s hs)

theorem length_of_installKeys :
    ∀ t : RatchetTree, t.installKeys path = .ok t' → t'.nodes.length = t.nodes.length := by
  induction path with
  | nil =>
      intro t hrun
      cases hrun
      rfl
  | cons entry rest ih =>
      intro t hrun
      obtain ⟨s, hs, hrun⟩ := bind_eq_ok.mp hrun
      exact (ih s hrun).trans (length_of_setNode hs).2

theorem length_of_setParentHash {p : ℕ} {ph : Bytes} (hrun : t.setParentHash p ph = .ok t') :
    t'.nodes.length = t.nodes.length := by
  obtain ⟨node, -, hset⟩ := bind_eq_ok.mp hrun
  exact (length_of_setNode hset).2

theorem length_of_assignParentHashes (fdp : List ℕ) (hrun : t.assignParentHashes S fdp = .ok t') :
    t'.nodes.length = t.nodes.length := by
  induction fdp generalizing t' with
  | nil =>
      cases hrun
      rfl
  | cons p rest ih =>
      cases rest with
      | nil => exact length_of_setParentHash hrun
      | cons parent rest =>
          obtain ⟨s, hs, hrun⟩ := bind_eq_ok.mp hrun
          obtain ⟨ph, -, hset⟩ := bind_eq_ok.mp hrun
          exact (length_of_setParentHash hset).trans (ih hs)

theorem length_of_installPath (hrun : t.installPath S leaf nodePubs = .ok t') :
    t'.nodes.length = t.nodes.length := by
  obtain ⟨fdp, -, hrun⟩ := bind_eq_ok.mp hrun
  split at hrun
  · exact absurd hrun fail_ne_ok
  · obtain ⟨t₁, hblank, hrun⟩ := bind_eq_ok.mp hrun
    obtain ⟨t₂, hkeys, hrun⟩ := bind_eq_ok.mp hrun
    have hlen := length_of_walkUp (fun _ p t t' hset => (length_of_setNode hset).2)
      _ _ t hblank
    rw [length_of_assignParentHashes fdp hrun, length_of_installKeys t₁ hkeys, hlen]

theorem Full.lt_of_merge (hf : t.Full h)
    (hmerge : t.merge S leaf up = .ok t') : leaf % 2 ^ 31 < 2 ^ h := by
  obtain ⟨s, hinstall, hset⟩ := bind_eq_ok.mp hmerge
  have hlt := (length_of_setNode hset).1
  rw [length_of_installPath hinstall, u32_double, hf.length_eq, ← inside_iff] at hlt
  simpa using hlt.2

/-! ## Generating a path -/

structure PathRun (S : Suite) (t : RatchetTree) (senderLeaf : ℕ)
    (leafSecret : Bytes) (signer : Option Signer) (groupID : Bytes)
    (newlyAdded : List ℕ) (mkGroupContext : Bytes → Result Bytes)
    (seeds : ℕ → ℕ → Bytes) (gp : GeneratedPath) where
  orig : LeafNode
  path : List ℕ
  pathSecrets : List Bytes
  leafPriv : Bytes
  leafPub : Bytes
  nodePubs : List Bytes
  resPubs : List (List Bytes)
  installed : RatchetTree
  parentHash : Bytes
  treeHash : Bytes
  groupContext : Bytes
  orig_eq : t.index (u32 (2 * senderLeaf)) = .ok (some (.leaf orig))
  path_eq : t.filteredDirectPath senderLeaf = .ok path
  pathSecrets_eq : pathSecretsFrom S leafSecret path.length = .ok pathSecrets
  commitSecret_eq : commitSecretOf S (pathSecrets.getLast?.getD leafSecret) = .ok gp.commitSecret
  leafKeys_eq : nodeKeyPair S leafSecret = .ok (leafPriv, leafPub)
  nodePubs_eq : nodePublicKeys S pathSecrets = .ok nodePubs
  resPubs_eq : t.copathRecipients (u32 (2 * senderLeaf)) (addedNodes newlyAdded) path = .ok resPubs
  installed_eq : t.installPath S senderLeaf nodePubs = .ok installed
  parentHash_eq : installed.leafParentHash S senderLeaf path = .ok parentHash
  leaf_eq : signLeafNode S signer (commitLeaf orig leafPub parentHash) groupID
    senderLeaf = .ok gp.updatePath.leafNode
  tree_eq : installed.setNode (u32 (2 * senderLeaf))
    (some (.leaf gp.updatePath.leafNode)) = .ok gp.tree
  treeHash_eq : gp.tree.rootTreeHash S = .ok treeHash
  groupContext_eq : mkGroupContext treeHash = .ok groupContext
  nodes_eq : encryptPath S groupContext seeds
    (nodePubs.zip (pathSecrets.zip resPubs)) = .ok gp.updatePath.nodes
  pathSecretByNode_eq : gp.pathSecretByNode = path.zip pathSecrets

theorem signLeafNode_ok {signer : Option Signer} {ln signed : LeafNode} {groupID : Bytes}
    {leafIndex : ℕ} (hsign : signLeafNode S signer ln groupID leafIndex = .ok signed) :
    ∃ sig, signed = { ln with signature := sig } := by
  simp only [signLeafNode, bind_eq_ok, pure_ok_iff] at hsign
  obtain ⟨tbs, -, sig, -, rfl⟩ := hsign
  exact ⟨sig, rfl⟩

theorem pathSecretsFrom_length {n : ℕ} {src : Bytes}
    (hrun : pathSecretsFrom S src n = .ok secrets) : secrets.length = n := by
  induction n generalizing src secrets with
  | zero => cases hrun; rfl
  | succ n ih =>
      simp only [pathSecretsFrom, bind_eq_ok, pure_ok_iff] at hrun
      obtain ⟨ps, -, rest, hrest, rfl⟩ := hrun
      simp [ih hrest]

theorem nodePublicKeys_length {pubs : List Bytes} (hrun : nodePublicKeys S secrets = .ok pubs) :
    pubs.length = secrets.length := by
  induction secrets generalizing pubs with
  | nil => cases hrun; rfl
  | cons ps rest ih =>
      simp only [nodePublicKeys, bind_eq_ok, pure_ok_iff] at hrun
      obtain ⟨keys, -, others, hothers, rfl⟩ := hrun
      simp [ih hothers]

theorem copathRecipients_length {senderNode : ℕ} {skipped path : List ℕ} {pubs : List (List Bytes)}
    (hrun : t.copathRecipients senderNode skipped path = .ok pubs) :
    pubs.length = path.length := by
  induction path generalizing pubs with
  | nil => cases hrun; rfl
  | cons p rest ih =>
      simp only [copathRecipients, bind_eq_ok, pure_ok_iff] at hrun
      obtain ⟨cc, -, res, -, keys, -, others, hothers, rfl⟩ := hrun
      simp [ih hothers]

theorem encryptPath_keys {groupContext : Bytes} {items : List (Bytes × Bytes × List Bytes)}
    {seeds : ℕ → ℕ → Bytes} {nodes : List UpdatePathNode}
    (hrun : encryptPath S groupContext seeds items = .ok nodes) :
    nodes.map (·.encryptionKey) = items.map Prod.fst := by
  induction items generalizing seeds nodes with
  | nil => cases hrun; rfl
  | cons item rest ih =>
      obtain ⟨pub, pathSecret, recipients⟩ := item
      simp only [encryptPath, bind_eq_ok, pure_ok_iff] at hrun
      obtain ⟨cts, -, others, hothers, rfl⟩ := hrun
      simp [ih hothers]

section Generated

variable {senderLeaf : ℕ} {leafSecret : Bytes} {signer : Option Signer} {groupID : Bytes}
  {newlyAdded : List ℕ} {mkGroupContext : Bytes → Result Bytes} {seeds : ℕ → ℕ → Bytes}
  {gp : GeneratedPath}

theorem pathRun_of_generateUpdatePath (hrun : t.generateUpdatePath S senderLeaf leafSecret signer
    groupID newlyAdded mkGroupContext seeds = .ok gp) :
    Nonempty (PathRun S t senderLeaf leafSecret signer groupID newlyAdded
      mkGroupContext seeds gp) := by
  obtain ⟨origNode, horig, hrun⟩ := bind_eq_ok.mp hrun
  rcases origNode with _ | (orig | p)
  · exact absurd hrun fail_ne_ok
  · simp only [bind_eq_ok] at hrun
    obtain ⟨path, hpath, pathSecrets, hsecrets, commitSecret, hcommit,
      ⟨leafPriv, leafPub⟩, hleafKeys, nodePubs, hnodePubs, resPubs, hresPubs,
      installed, hinstalled, parentHash, hparentHash, leaf, hleaf, tree, htree,
      treeHash, htreeHash, groupContext, hcontext, nodes, hnodes, hgp⟩ := hrun
    rw [pure_ok_iff] at hgp
    subst hgp
    exact ⟨orig, path, pathSecrets, leafPriv, leafPub, nodePubs, resPubs, installed, parentHash,
      treeHash, groupContext, horig, hpath, hsecrets, hcommit, hleafKeys, hnodePubs, hresPubs,
      hinstalled, hparentHash, hleaf, htree, htreeHash, hcontext, hnodes, rfl⟩
  · exact absurd hrun fail_ne_ok

namespace PathRun

variable (r : PathRun S t senderLeaf leafSecret signer groupID newlyAdded mkGroupContext seeds gp)

include r

theorem sender_slot (hf : t.Full h) :
    senderLeaf % 2 ^ 31 < 2 ^ h ∧ t.slot 0 (senderLeaf % 2 ^ 31) = some (.leaf r.orig) := by
  have horig := r.orig_eq
  rw [u32_double] at horig
  have hin : Inside h 0 (senderLeaf % 2 ^ 31) := by
    rw [inside_iff, ← hf.length_eq]
    by_contra hout
    rw [index, List.getElem?_eq_none (by omega)] at horig
    cases horig
  rw [hf.index_eq hin, Except.ok.injEq] at horig
  exact ⟨by simpa using hin.2, horig⟩

theorem installed_tree (hf : t.Full h) :
    ∃ entries, r.installed = t.withAncestors (senderLeaf % 2 ^ 31) (entrySlot entries) h ∧
      Installed S t h (senderLeaf % 2 ^ 31) r.nodePubs entries gp.updatePath.leafNode gp.tree := by
  obtain ⟨entries, hs, hleafSet⟩ :=
    hf.installed_of_installPath rfl (r.sender_slot hf).1 r.installed_eq
  obtain ⟨hnode, hi⟩ := hleafSet gp.updatePath.leafNode
  have htree := r.tree_eq
  rw [hnode, Except.ok.injEq] at htree
  rw [htree] at hi
  exact ⟨entries, hs, hi⟩

theorem parentHash_below (hf : t.Full h) (hinstalled : r.installed =
    t.withAncestors (senderLeaf % 2 ^ 31) (entrySlot entries) h)
    (hkeys : entries.map Prod.fst = t.pathLevels h (senderLeaf % 2 ^ 31)) :
    t.parentHashBelow S (senderLeaf % 2 ^ 31) entries = .ok r.parentHash := by
  have hL := (r.sender_slot hf).1
  have hpath := r.path_eq
  rw [hf.filteredDirectPath_eq rfl hL, Except.ok.injEq, ← hkeys] at hpath
  have hbelow : ∀ k ∈ entries.map Prod.fst, k < h := by
    rw [hkeys]
    exact fun k hk => (mem_pathLevels.mp hk).1
  rw [← hf.leafParentHash_eq rfl hL hbelow, ← hinstalled, hpath]
  exact r.parentHash_eq

theorem node_keys : gp.updatePath.nodes.map (·.encryptionKey) = r.nodePubs := by
  have hsecrets := pathSecretsFrom_length r.pathSecrets_eq
  have hpubs := nodePublicKeys_length r.nodePubs_eq
  have hres := copathRecipients_length r.resPubs_eq
  rw [encryptPath_keys r.nodes_eq, List.map_fst_zip]
  rw [List.length_zip]
  omega

theorem merge_eq : t.merge S senderLeaf gp.updatePath = .ok gp.tree := by
  rw [merge, r.node_keys, r.installed_eq, ok_bind, r.tree_eq]

end PathRun

end Generated

end RatchetTree

end MlsGo
