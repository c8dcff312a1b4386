import MlsGo.JoinerKeys
import MlsGo.WireCopies

/-!
# Path secrets on both sides

The sender takes one ratchet step for every node of its filtered direct path.
`ProcessUpdatePath` follows the same list of nodes, so it arrives at the
sender's secrets.  `installJoinerPriv` follows the parents instead and takes a
surplus step for every ancestor that the filtered path leaves out.
-/

namespace MlsGo

open InOrderLayout

variable {s : Bytes} {i n : ℕ} {secrets : List Bytes} {entries : GoMap ℕ ParentNode}
    {priv : TreeKEMPrivate}

theorem ratchet_add {S : Suite} {a b : ℕ} {secret : Bytes} (ha : ratchet S secret a = .ok s) :
    ratchet S secret (a + b) = ratchet S s b := by
  induction a generalizing secret with
  | zero =>
      cases ha
      rw [Nat.zero_add]
  | succ a ih =>
      obtain ⟨next, hnext, ha⟩ := bind_eq_ok.mp ha
      rw [Nat.add_right_comm, ratchet, hnext, ok_bind]
      exact ih ha

namespace RatchetTree

variable {S : Suite} {t t' : RatchetTree} {h k f L R : ℕ}

theorem pathSecretsFrom_ratchet {src : Bytes}
    (hrun : pathSecretsFrom S src n = .ok secrets) (hs : secrets[i]? = some s) :
    ratchet S src (i + 1) = .ok s := by
  induction n generalizing src secrets i with
  | zero =>
      cases hrun
      simp at hs
  | succ n ih =>
      simp only [pathSecretsFrom, bind_eq_ok, pure_ok_iff] at hrun
      obtain ⟨next, hnext, rest, hrest, rfl⟩ := hrun
      cases i with
      | zero =>
          simp only [List.getElem?_cons_zero, Option.some.injEq] at hs
          simp [ratchet, hnext, hs]
      | succ i =>
          rw [List.getElem?_cons_succ] at hs
          rw [ratchet, hnext, ok_bind]
          exact ih hrest hs

theorem nodePublicKeys_getElem {pubs : List Bytes}
    (hrun : nodePublicKeys S secrets = .ok pubs) (hs : secrets[i]? = some s) :
    ∃ key pub, nodeKeyPair S s = .ok (key, pub) ∧ pubs[i]? = some pub := by
  induction secrets generalizing pubs i with
  | nil => simp at hs
  | cons secret rest ih =>
      simp only [nodePublicKeys, bind_eq_ok, pure_ok_iff] at hrun
      obtain ⟨⟨key, pub⟩, hpair, others, hothers, rfl⟩ := hrun
      cases i with
      | zero =>
          simp only [List.getElem?_cons_zero, Option.some.injEq] at hs
          exact ⟨key, pub, hs ▸ hpair, rfl⟩
      | succ i =>
          obtain ⟨key', pub', hpair', hpub'⟩ := ih hothers hs
          exact ⟨key', pub', hpair', by simpa using hpub'⟩

/-! ## Levels of the filtered path -/

theorem pathLevels_position (hk : (t.pathLevels h L)[i]? = some k) :
    (t.pathLevels k L).length = i := by
  induction h with
  | zero => simp [pathLevels] at hk
  | succ h ih =>
      by_cases hskip : t.copathEmpty L h
      · have hsame : t.pathLevels (h + 1) L = t.pathLevels h L := by
          simp [pathLevels, List.range_succ, hskip]
        exact ih (hsame ▸ hk)
      · have hsnoc : t.pathLevels (h + 1) L = t.pathLevels h L ++ [h] := by
          simp [pathLevels, List.range_succ, hskip]
        rw [hsnoc] at hk
        rcases Nat.lt_or_ge i (t.pathLevels h L).length with hlt | hge
        · rw [List.getElem?_append_left hlt] at hk
          exact ih hk
        · rw [List.getElem?_append_right hge, List.getElem?_singleton] at hk
          split at hk
          · cases hk
            omega
          · cases hk

/-- The ancestors of leaf `L` strictly between two of them that its filtered
path leaves out. -/
def skippedBetween (t : RatchetTree) (L low high : ℕ) : ℕ :=
  (List.range' (level low) (level high - 1 - level low)).countP (t.copathEmpty L)

theorem pathLevels_length_add (hfk : f ≤ k) :
    (t.pathLevels k L).length + (List.range' f (k - f)).countP (t.copathEmpty L) =
      (t.pathLevels f L).length + (k - f) := by
  induction k, hfk using Nat.le_induction with
  | base => simp
  | succ k hfk ih =>
      rw [show k + 1 - f = k - f + 1 by omega, List.range'_concat,
        List.countP_append, show f + 1 * (k - f) = k by omega]
      by_cases hskip : t.copathEmpty L k
      · have hsame : t.pathLevels (k + 1) L = t.pathLevels k L := by
          simp [pathLevels, List.range_succ, hskip]
        rw [hsame]
        simp only [List.countP_singleton, hskip, if_true]
        omega
      · have hsnoc : t.pathLevels (k + 1) L = t.pathLevels k L ++ [k] := by
          simp [pathLevels, List.range_succ, hskip]
        rw [hsnoc, List.length_append]
        simp only [List.countP_singleton, hskip, List.length_singleton]
        simp only [Bool.false_eq_true, if_false]
        omega

theorem pathNode_injective (L : ℕ) : Function.Injective (pathNode L) := by
  intro k k' heq
  have := (inorder_inj.mp heq).1
  omega

theorem level_pathNode (hL : L < 2 ^ h) (hh : h ≤ 31) (hk : k < h) :
    level (pathNode L k) = k + 1 :=
  level_inorder ((inside_iff.mp (inside_ancestor hL hk)).trans (treeWidth_lt hh))

theorem skippedBetween_eq (hL : L < 2 ^ h) (hh : h ≤ 31) (hfk : f ≤ k)
    (hk : k < h) (hf : ¬ t.copathEmpty L f) :
    t.skippedBetween L (pathNode L f) (pathNode L k) =
      (List.range' f (k - f)).countP (t.copathEmpty L) := by
  rw [skippedBetween, level_pathNode hL hh (by omega), level_pathNode hL hh hk]
  rcases hfk.eq_or_lt with rfl | hlt
  · simp
  · rw [show k - f = k + 1 - 1 - (f + 1) + 1 by omega, List.range'_succ,
      List.countP_cons_of_neg hf]

/-! ## Secrets and keys of the path nodes -/

theorem pathEntries_encryptionKey {path : List (ℕ × Bytes)} {pub : Bytes}
    (hrun : t.pathEntries S L path = .ok entries) (hmem : (k, pub) ∈ path) :
    ∃ p, (k, p) ∈ entries ∧ p.encryptionKey = pub := by
  induction path generalizing entries with
  | nil => simp at hmem
  | cons head rest ih =>
      obtain ⟨others, parentHash, hothers, -, rfl⟩ := pathEntries_cons hrun
      rcases List.mem_cons.mp hmem with rfl | hmem
      · exact ⟨_, List.mem_cons_self, rfl⟩
      · obtain ⟨p, hp, hpub⟩ := ih hothers hmem
        exact ⟨p, List.mem_cons_of_mem _ hp, hpub⟩

theorem Installed.nodePublicKey_eq {nodePubs : List Bytes} {leaf : LeafNode} {pub : Bytes}
    (hi : Installed S t h L nodePubs entries leaf t') (hL : L < 2 ^ h)
    (hk : (t.pathLevels h L)[i]? = some k) (hpub : nodePubs[i]? = some pub) :
    t'.nodePublicKey (pathNode L k) = .ok pub := by
  have hmem : (k, pub) ∈ (t.pathLevels h L).zip nodePubs :=
    List.mem_of_getElem? (List.getElem?_zip_eq_some.mpr ⟨hk, hpub⟩)
  obtain ⟨p, hp, hkey⟩ := pathEntries_encryptionKey hi.entries_eq hmem
  have hkh : k < h := (mem_pathLevels.mp (List.mem_of_getElem? hk)).1
  have hget : entries.get k = some p :=
    GoMap.get_of_mem (by rw [hi.keys_eq]; exact (pathLevels_sorted t h L).nodup) hp
  have hslot : t'.slot (k + 1) (L / 2 ^ (k + 1)) = some (.parent p) := by
    rw [hi.slot_eq]
    simp [entrySlot, hget]
  rw [nodePublicKey, pathNode, hi.full.index_eq (inside_ancestor hL hkh), hslot]
  simp [hkey]

section Generated

variable {senderLeaf : ℕ} {leafSecret : Bytes} {signer : Option Signer} {groupID : Bytes}
  {newlyAdded : List ℕ} {mkGroupContext : Bytes → Result Bytes} {seeds : ℕ → ℕ → Bytes}
  {gp : GeneratedPath}

namespace PathRun

variable (r : PathRun S t senderLeaf leafSecret signer groupID newlyAdded mkGroupContext seeds gp)

include r

theorem path_levels (hf : t.Full h) :
    r.path = (t.pathLevels h (senderLeaf % 2 ^ 31)).map (pathNode (senderLeaf % 2 ^ 31)) := by
  have hpath := r.path_eq
  rw [hf.filteredDirectPath_eq rfl (r.sender_slot hf).1, Except.ok.injEq] at hpath
  exact hpath.symm

theorem nodup_pathSecretByNode (hf : t.Full h) : (gp.pathSecretByNode.map Prod.fst).Nodup := by
  rw [r.pathSecretByNode_eq, List.map_fst_zip
    (pathSecretsFrom_length r.pathSecrets_eq).ge, r.path_levels hf]
  exact (pathLevels_sorted _ _ _).nodup.map (pathNode_injective _)

theorem get_of_mem_pathSecretByNode (hf : t.Full h) (hmem : (n, s) ∈ gp.pathSecretByNode) :
    gp.pathSecretByNode.get n = some s := GoMap.get_of_mem (r.nodup_pathSecretByNode hf) hmem

/-- The secret of a path node is one ratchet step above that of the path node
below it, and its key pair is the one installed. -/
theorem secret_spec (hf : t.Full h) (hget : gp.pathSecretByNode.get n = some s) :
    ∃ k ∈ t.pathLevels h (senderLeaf % 2 ^ 31), n = pathNode (senderLeaf % 2 ^ 31) k ∧
      ratchet S leafSecret ((t.pathLevels k (senderLeaf % 2 ^ 31)).length + 1) = .ok s ∧
      ∃ key pub, nodeKeyPair S s = .ok (key, pub) ∧ gp.tree.nodePublicKey n = .ok pub := by
  have hmem := GoMap.mem_of_get hget
  rw [r.pathSecretByNode_eq] at hmem
  obtain ⟨i, hi⟩ := List.mem_iff_getElem?.mp hmem
  obtain ⟨hn, hs⟩ := List.getElem?_zip_eq_some.mp hi
  rw [r.path_levels hf, List.getElem?_map, Option.map_eq_some_iff] at hn
  obtain ⟨k, hk, rfl⟩ := hn
  obtain ⟨key, pub, hpair, hpub⟩ := nodePublicKeys_getElem r.nodePubs_eq hs
  obtain ⟨entries, -, hinstalled⟩ := r.installed_tree hf
  refine ⟨k, List.mem_of_getElem? hk, rfl, ?_, key, pub, hpair, ?_⟩
  · rw [pathLevels_position hk]
    exact pathSecretsFrom_ratchet r.pathSecrets_eq hs
  · exact hinstalled.nodePublicKey_eq (r.sender_slot hf).1 hk hpub

theorem exists_secret (hf : t.Full h) (hk : k ∈ t.pathLevels h (senderLeaf % 2 ^ 31)) :
    ∃ s, gp.pathSecretByNode.get (pathNode (senderLeaf % 2 ^ 31) k) = some s := by
  refine Option.ne_none_iff_exists'.mp fun hnone => ?_
  rw [GoMap.get_eq_none_iff, r.pathSecretByNode_eq, List.map_fst_zip
    (pathSecretsFrom_length r.pathSecrets_eq).ge, r.path_levels hf] at hnone
  exact hnone (List.mem_map_of_mem hk)

/-- The secret of a path node, ratcheted once for each level up to another one, is
the secret of that one, ratcheted once more for every ancestor in between that the
filtered path leaves out. -/
theorem ratchet_above (hf : t.Full h) {f : ℕ} {low high s' : Bytes} (hfk : f ≤ k)
    (hlow : gp.pathSecretByNode.get (pathNode (senderLeaf % 2 ^ 31) f) = some low)
    (hhigh : gp.pathSecretByNode.get (pathNode (senderLeaf % 2 ^ 31) k) = some high)
    (hratchet : ratchet S low (k - f) = .ok s') :
    ratchet S high (t.skippedBetween (senderLeaf % 2 ^ 31)
      (pathNode (senderLeaf % 2 ^ 31) f) (pathNode (senderLeaf % 2 ^ 31) k)) = .ok s' := by
  have hh := hf.le_thirtyOne
  obtain ⟨hL, -⟩ := r.sender_slot hf
  obtain ⟨f', hf', heq, hsteps, -⟩ := r.secret_spec hf hlow
  obtain rfl := pathNode_injective _ heq
  obtain ⟨k', hk, heq, hsteps', -⟩ := r.secret_spec hf hhigh
  obtain rfl := pathNode_injective _ heq
  have hkh := (mem_pathLevels.mp hk).1
  have hskip := skippedBetween_eq hL hh hfk hkh (mem_pathLevels.mp hf').2
  have hcount := pathLevels_length_add (t := t) (L := senderLeaf % 2 ^ 31) hfk
  have htotal : (t.pathLevels k (senderLeaf % 2 ^ 31)).length + 1 +
        (List.range' f (k - f)).countP (t.copathEmpty (senderLeaf % 2 ^ 31)) =
      (t.pathLevels f (senderLeaf % 2 ^ 31)).length + 1 + (k - f) := by omega
  rw [hskip, ← ratchet_add hsteps', htotal, ratchet_add hsteps, ← hratchet]

/-- The tree of the sender is the result of merging its path, and the path
secrets are encrypted under a context made from that tree's hash. -/
theorem encrypted_under_treeHash :
    ∃ treeHash groupContext items, gp.tree.rootTreeHash S = .ok treeHash ∧
      mkGroupContext treeHash = .ok groupContext ∧
      encryptPath S groupContext seeds items = .ok gp.updatePath.nodes :=
  ⟨r.treeHash, r.groupContext, _, r.treeHash_eq, r.groupContext_eq, r.nodes_eq⟩

end PathRun

/-- `Merge` of a generated path, on the tree it was generated on or on a copy of
it, gives the sender's tree, whose hash is the one in the encryption context. -/
theorem merge_reproduces_sender_tree (hreach : Reachable S t) (hrun : t.generateUpdatePath S
    senderLeaf leafSecret signer groupID newlyAdded mkGroupContext seeds = .ok gp) :
    t.merge S senderLeaf gp.updatePath = .ok gp.tree ∧
    (∀ copy, t.clone = .ok copy → copy.merge S senderLeaf gp.updatePath = .ok gp.tree) ∧
    ∃ treeHash groupContext items, gp.tree.rootTreeHash S = .ok treeHash ∧
      mkGroupContext treeHash = .ok groupContext ∧
      encryptPath S groupContext seeds items = .ok gp.updatePath.nodes := by
  obtain ⟨r⟩ := pathRun_of_generateUpdatePath hrun
  refine ⟨r.merge_eq, fun copy hclone => ?_, r.encrypted_under_treeHash⟩
  rw [hreach.invariant.eq_of_clone hclone]
  exact r.merge_eq

/-! ## Reading the path -/

/-- The private state of the member at `leaf`: keys on its own path only, fitting
the tree. -/
structure HoldsPathKeys (S : Suite) (t : RatchetTree) (leaf : ℕ)
    (priv : TreeKEMPrivate) : Prop extends Fits S t leaf priv where
  own_path : ∀ d key, priv.privateKey d = some key → ∃ k, d = inorder k (leaf / 2 ^ k)

theorem fork_unique {k' : ℕ} (hfork : R / 2 ^ k = siblingRank (L / 2 ^ k))
    (hfork' : R / 2 ^ k' = siblingRank (L / 2 ^ k')) : k = k' := by
  have hbelow : ∀ {i j}, R / 2 ^ i = siblingRank (L / 2 ^ i) →
      R / 2 ^ j = siblingRank (L / 2 ^ j) → ¬ i < j := by
    intro i j hi hj hlt
    have hup : L / 2 ^ j = R / 2 ^ j := ancestor_congr (meet_of_fork hi) hlt
    rw [hj] at hup
    exact siblingRank_ne _ hup
  have hle := hbelow hfork hfork'
  have hge := hbelow hfork' hfork
  omega

theorem Full.fork_of_reaches (hf : t.Full h) (hw : WellFormed t.slot) {skipped : List ℕ}
    (hkeys : HoldsPathKeys S t R priv) (hL : L < 2 ^ h) (hk : k < h)
    (hreaches : t.Reaches (inorder 0 L) priv skipped (pathNode L k)) :
    R / 2 ^ k = siblingRank (L / 2 ^ k) := by
  obtain ⟨cc, res, hcc, hres, d, hd, -, hheld⟩ := hreaches
  have hin : Inside h k (siblingRank (L / 2 ^ k)) := (inside_ancestor hL hk.le).sibling hk
  rw [pathNode, hf.copathChild_eq hL hk, Except.ok.injEq] at hcc
  subst hcc
  rw [hf.resolution_eq hin, Except.ok.injEq] at hres
  subst hres
  obtain ⟨key, hkey⟩ := Option.ne_none_iff_exists'.mp hheld
  obtain ⟨i, rfl⟩ := hkeys.own_path d key hkey
  obtain ⟨i', m, heq, hbelow, -⟩ := hf.mem_resolutionAt hw _ _ _ hd
  obtain ⟨rfl, rfl⟩ := inorder_inj.mp heq
  exact hbelow.leaf rfl

/-- A receiver with the keys of its own path gets the sender's commit secret and
the path secret of the common ancestor. -/
theorem processUpdatePath_returns_sender_secrets (hopens : S.OpensSealed) (hreach : Reachable S t)
    (hrun : t.generateUpdatePath S senderLeaf leafSecret signer groupID newlyAdded mkGroupContext
    seeds = .ok gp) {receiver : ℕ} (hreceiver : receiver < t.leafCount)
    (hmember : t.Populated receiver) (hother : 2 * receiver ≠ u32 (2 * senderLeaf))
    (hnew : 2 * receiver ∉ addedNodes newlyAdded) {priv : TreeKEMPrivate}
    (hkeys : HoldsPathKeys S t receiver priv) :
    ∃ treeHash groupContext lca secret,
      gp.tree.rootTreeHash S = .ok treeHash ∧
      mkGroupContext treeHash = .ok groupContext ∧
      commonAncestor (2 * receiver) (u32 (2 * senderLeaf)) t.leafCount = .ok lca ∧
      gp.pathSecretByNode.get lca = some secret ∧
      t.processUpdatePath S senderLeaf gp.updatePath priv groupContext
        newlyAdded = .ok (secret, some gp.commitSecret) := by
  obtain ⟨r⟩ := pathRun_of_generateUpdatePath hrun
  obtain ⟨h, hf, -⟩ := hreach.invariant.full
  have hw := hreach.invariant.wellFormed
  have hh := hf.le_thirtyOne
  obtain ⟨hL, -⟩ := r.sender_slot hf
  rw [hf.leafCount_eq] at hreceiver
  have hslot := (hf.populated_iff_of_lt hreceiver).mp hmember
  rw [u32_double, ← inorder_zero, Ne, inorder_inj] at hother
  have hnew' : ∀ li ∈ newlyAdded, li % 2 ^ 31 ≠ receiver := by
    rintro li hli rfl
    refine hnew (List.mem_map.mpr ⟨li, hli, ?_⟩)
    rw [u32_double, inorder_zero]
  obtain ⟨p, secret, hmem, hreaches, hprocess⟩ := r.processUpdatePath_eq hopens
    hf hw hkeys.toFits hslot (fun heq => hother ⟨rfl, heq.symm⟩) hnew'
  obtain ⟨k, hk, rfl, -⟩ := r.secret_spec hf (r.get_of_mem_pathSecretByNode hf hmem)
  have hkh := (mem_pathLevels.mp hk).1
  rw [u32_double] at hreaches
  have hfork := hf.fork_of_reaches hw hkeys hL hkh hreaches
  have hmeet := meet_of_fork hfork
  refine ⟨r.treeHash, r.groupContext, _, secret, r.treeHash_eq, r.groupContext_eq,
    ?_, r.get_of_mem_pathSecretByNode hf hmem, hprocess⟩
  rw [hf.leafCount_eq, u32_double, ← inorder_zero,
    commonAncestor_eq hh hL hreceiver hkh hfork, pathNode, hmeet]

/-! ## Keys of a joiner -/

/-- From the common ancestor `lca` upwards, the private state holds the key of
every node of the sender's path: the one derived from the node's path secret,
whose public key is installed at the node. -/
def InstallsPathKeys (S : Suite) (gp : GeneratedPath) (lca : ℕ)
    (priv : TreeKEMPrivate) : Prop :=
  ∀ n s, gp.pathSecretByNode.get n = some s → subtreeContains n lca = true →
    ∃ key pub, nodeKeyPair S s = .ok (key, pub) ∧
      gp.tree.nodePublicKey n = .ok pub ∧ priv.privateKey n = some key

def NodeKeyRepeats (S : Suite) (s : Bytes) (steps : ℕ) : Prop :=
  ∃ s' key pub pub', ratchet S s steps = .ok s' ∧
    nodeKeyPair S s = .ok (key, pub) ∧ nodeKeyPair S s' = .ok (key, pub')

/-- Sender and joiner at one path node above the common ancestor: the joiner's
secret is the sender's, ratcheted once more for every ancestor in between that
the filtered path leaves out. -/
theorem PathRun.joiner_key (r : PathRun S t senderLeaf leafSecret signer groupID newlyAdded
    mkGroupContext seeds gp) (hf : t.Full h) {secret : Bytes} {priv' : TreeKEMPrivate}
    (hR : R < 2 ^ h) (hother : senderLeaf % 2 ^ 31 ≠ R) {lca : ℕ}
    (hlca : commonAncestor (inorder 0 R) (inorder 0 (senderLeaf % 2 ^ 31)) (2 ^ h) = .ok lca)
    (hsecret : gp.pathSecretByNode.get lca = some secret)
    (hinstall : installJoinerPriv S priv secret R senderLeaf (2 ^ h) = .ok priv')
    (hs : gp.pathSecretByNode.get n = some s) (hsub : subtreeContains n lca = true) :
    ∃ s' key pub key' pub', nodeKeyPair S s = .ok (key, pub) ∧ gp.tree.nodePublicKey n = .ok pub ∧
      ratchet S s (t.skippedBetween (senderLeaf % 2 ^ 31) lca n) = .ok s' ∧
      nodeKeyPair S s' = .ok (key', pub') ∧ priv'.privateKey n = some key' := by
  have hh := hf.le_thirtyOne
  obtain ⟨hL, -⟩ := r.sender_slot hf
  obtain ⟨f, hfh, hfork, hmeet⟩ := exists_fork hL hR hother
  have hlt : R < 2 ^ 31 := hR.trans_le (Nat.pow_le_pow_right (by norm_num) hh)
  have hjoiner := installJoinerPriv_keys hh hL hR hfh hfork (Nat.mod_eq_of_lt hlt) rfl hinstall
  rw [commonAncestor_eq hh hL hR hfh hfork, Except.ok.injEq, ← hmeet] at hlca
  -- the common ancestor is the path node of the fork
  obtain ⟨f', hf', hlca', hsteps, -⟩ := r.secret_spec hf hsecret
  obtain rfl : f' = f := by
    apply pathNode_injective (senderLeaf % 2 ^ 31)
    rw [← hlca', ← hlca, pathNode]
  obtain ⟨k, hk, rfl, hsteps', key, pub, hpair, hpub⟩ := r.secret_spec hf hs
  have hkh := (mem_pathLevels.mp hk).1
  have hfk : f' ≤ k := by
    rw [← hlca, pathNode, (inside_ancestor hL hkh).subtreeContains_iff hh] at hsub
    have := hsub.1
    omega
  obtain ⟨s', key', pub', hratchet, hpair', hheld⟩ := hjoiner.on_path (k + 1) (by omega) hkh
  rw [show k + 1 - (f' + 1) = k - f' by omega] at hratchet
  refine ⟨s', key, pub, key', pub', hpair, hpub, ?_, hpair', ?_⟩
  · rw [hlca']
    exact r.ratchet_above hf hfk (hlca' ▸ hsecret) hs hratchet
  · rwa [← ancestor_congr hmeet (show f' + 1 ≤ k + 1 by omega)] at hheld

/-- `installJoinerPriv` stores the keys of the path exactly if no ancestor
between the common ancestor and a path node is filtered out, or the surplus
ratchet steps do not change the key. -/
theorem installJoinerPriv_installs_iff (hreach : Reachable S t)
    (hrun : t.generateUpdatePath S senderLeaf leafSecret signer groupID newlyAdded mkGroupContext
    seeds = .ok gp) {receiver lca : ℕ} {secret : Bytes} {priv priv' : TreeKEMPrivate}
    (hreceiver : receiver < t.leafCount) (hother : 2 * receiver ≠ u32 (2 * senderLeaf))
    (hlca : commonAncestor (2 * receiver) (u32 (2 * senderLeaf)) t.leafCount = .ok lca)
    (hsecret : gp.pathSecretByNode.get lca = some secret) (hinstall :
    installJoinerPriv S priv secret receiver senderLeaf t.leafCount = .ok priv') :
    InstallsPathKeys S gp lca priv' ↔
      ∀ n s, gp.pathSecretByNode.get n = some s → subtreeContains n lca = true →
        t.skippedBetween (senderLeaf % 2 ^ 31) lca n = 0 ∨
        NodeKeyRepeats S s (t.skippedBetween (senderLeaf % 2 ^ 31) lca n) := by
  obtain ⟨r⟩ := pathRun_of_generateUpdatePath hrun
  obtain ⟨h, hf, -⟩ := hreach.invariant.full
  rw [hf.leafCount_eq] at hreceiver hlca hinstall
  rw [u32_double, ← inorder_zero] at hother hlca
  have hother' : senderLeaf % 2 ^ 31 ≠ receiver := fun heq => hother (by rw [heq])
  constructor
  · intro hkeys n s hs hsub
    obtain ⟨s', key, pub, key', pub', hpair, -, hratchet, hpair', hheld⟩ :=
      r.joiner_key hf hreceiver hother' hlca hsecret hinstall hs hsub
    obtain ⟨key₀, pub₀, hpair₀, -, hheld₀⟩ := hkeys n s hs hsub
    rw [hpair, Except.ok.injEq, Prod.mk.injEq] at hpair₀
    rw [hheld, ← hpair₀.1, Option.some.injEq] at hheld₀
    exact .inr ⟨s', key, pub, pub', hratchet, hpair, hheld₀ ▸ hpair'⟩
  · intro hcond n s hs hsub
    obtain ⟨s', key, pub, key', pub', hpair, hpub, hratchet, hpair', hheld⟩ :=
      r.joiner_key hf hreceiver hother' hlca hsecret hinstall hs hsub
    refine ⟨key, pub, hpair, hpub, ?_⟩
    rcases hcond n s hs hsub with hzero | ⟨s₁, key₁, pub₁, pub₁', hs₁, hk₁, hk₁'⟩
    · rw [hzero, ratchet, Except.ok.injEq] at hratchet
      subst hratchet
      rw [hpair, Except.ok.injEq, Prod.mk.injEq] at hpair'
      rw [hheld, hpair'.1]
    · rw [hratchet, Except.ok.injEq] at hs₁
      subst hs₁
      rw [hpair', Except.ok.injEq, Prod.mk.injEq] at hk₁'
      rw [hpair, Except.ok.injEq, Prod.mk.injEq] at hk₁
      rw [hheld, hk₁'.1, hk₁.1]

end Generated

/-! ## Sample trees -/

def gapTree : RatchetTree :=
  ⟨[some (.leaf (sampleLeaf 1)), none, some (.leaf (sampleLeaf 2)), none, none,
    none, none, none, some (.leaf (sampleLeaf 5)), none, none, none, none, none,
    none]⟩

theorem gapTree_reachable : Reachable plainSuite gapTree :=
  ⟨sampleLeaf 1, (((((Relation.ReflTransGen.refl.tail (.addLeaf (sampleLeaf 2) rfl)).tail
    (.addLeaf (sampleLeaf 3) rfl)).tail (.addLeaf (sampleLeaf 4) rfl)).tail
    (.addLeaf (sampleLeaf 5) rfl)).tail (.removeLeaf 2 rfl)).tail (.removeLeaf 3 rfl)⟩

def gapPath : Result GeneratedPath :=
  gapTree.generateUpdatePath plainSuite 0 [3] (some ⟨[1]⟩) [] [] pure fun _ _ => []

theorem gapPath_ok : ∃ gp, gapPath = .ok gp := by decide +kernel

theorem merge_reproduces_sender_tree_gap :
    ∃ gp, gapPath = .ok gp ∧ gapTree.merge plainSuite 0 gp.updatePath = .ok gp.tree := by
  obtain ⟨gp, hrun⟩ := gapPath_ok
  exact ⟨gp, hrun, (merge_reproduces_sender_tree gapTree_reachable hrun).1⟩

theorem gapTree_holdsPathKeys : HoldsPathKeys plainSuite gapTree 1 (TreeKEMPrivate.new 1 [2]) := by
  have honly : ∀ d key, (TreeKEMPrivate.new 1 [2]).privateKey d = some key →
      d = 2 ∧ key = [2] := by
    intro d key hkey
    have hmem := GoMap.mem_of_get hkey
    simpa [TreeKEMPrivate.new, u32] using hmem
  refine ⟨⟨fun d pub key hpub hkey => ?_, fun k n hslot _ => ?_⟩,
    fun d key hkey => ⟨0, (honly d key hkey).1⟩⟩
  · obtain ⟨rfl, rfl⟩ := honly d key hkey
    cases hpub
    exact .inr ⟨[2], rfl⟩
  · have hf : gapTree.Full 3 := ⟨rfl, by omega⟩
    have hk := (hf.inside_of_slot hslot).1
    interval_cases k
    · exact ⟨[2], rfl⟩
    all_goals cases hslot

theorem processUpdatePath_returns_sender_secrets_gap :
    ∃ gp treeHash lca secret, gapPath = .ok gp ∧
      gp.tree.rootTreeHash plainSuite = .ok treeHash ∧
      commonAncestor 2 0 8 = .ok lca ∧
      gp.pathSecretByNode.get lca = some secret ∧
      gapTree.processUpdatePath plainSuite 0 gp.updatePath
        (TreeKEMPrivate.new 1 [2]) treeHash [] = .ok (secret, some gp.commitSecret) := by
  obtain ⟨gp, hrun⟩ := gapPath_ok
  obtain ⟨treeHash, groupContext, lca, secret, hhash, hcontext, hlca, hsecret,
    hprocess⟩ := processUpdatePath_returns_sender_secrets
      plainSuite_laws.opensSealed gapTree_reachable hrun
      (show 1 < gapTree.leafCount by decide) (by decide) (by decide)
      (by simp [addedNodes])
      gapTree_holdsPathKeys
  cases hcontext
  exact ⟨gp, treeHash, lca, secret, hrun, hhash, hlca, hsecret, hprocess⟩

def gapKeys : Result (GeneratedPath × Bytes × TreeKEMPrivate) := do
  let gp ← gapPath
  match gp.pathSecretByNode.get 1 with
  | none => .error .panic
  | some secret =>
      let priv ← installJoinerPriv plainSuite (TreeKEMPrivate.new 1 [2]) secret 1 0 8
      return (gp, secret, priv)

theorem gapKeys_ok :
    ∃ gp secret priv, gapPath = .ok gp ∧
      gp.pathSecretByNode.get 1 = some secret ∧
      installJoinerPriv plainSuite (TreeKEMPrivate.new 1 [2]) secret 1 0
        gapTree.leafCount = .ok priv ∧
      gp.pathSecretByNode.get 7 = some [185] ∧
      priv.privateKey 7 = some [50] := by
  obtain ⟨⟨gp, secret, priv⟩, hkeys, hroot⟩ : ∃ x, gapKeys = .ok x ∧
      x.1.pathSecretByNode.get 7 = some [185] ∧ x.2.2.privateKey 7 = some [50] := by
    decide +kernel
  obtain ⟨gp', hpath, hkeys⟩ := bind_eq_ok.mp hkeys
  split at hkeys
  · cases hkeys
  · next secret' hsecret =>
      obtain ⟨priv', hinstall, hkeys⟩ := bind_eq_ok.mp hkeys
      cases hkeys
      exact ⟨gp, secret, priv, hpath, hsecret, hinstall, hroot⟩

theorem installJoinerPriv_installs_iff_gap :
    ∃ gp priv, gapPath = .ok gp ∧
      (InstallsPathKeys plainSuite gp 1 priv ↔
        ∀ n s, gp.pathSecretByNode.get n = some s → subtreeContains n 1 = true →
          gapTree.skippedBetween 0 1 n = 0 ∨
          NodeKeyRepeats plainSuite s (gapTree.skippedBetween 0 1 n)) := by
  obtain ⟨gp, secret, priv, hpath, hsecret, hinstall, -⟩ := gapKeys_ok
  exact ⟨gp, priv, hpath, installJoinerPriv_installs_iff gapTree_reachable hpath
    (by decide) (by decide) (by decide +kernel) hsecret hinstall⟩

/-- The node between the common ancestor and the root is filtered out; the key
stored at the root is not the one of the path. -/
theorem joiner_key_wrong_above_gap :
    ∃ gp secret priv, Reachable plainSuite gapTree ∧ gapPath = .ok gp ∧
      commonAncestor 2 0 gapTree.leafCount = .ok 1 ∧
      gp.pathSecretByNode.get 1 = some secret ∧
      installJoinerPriv plainSuite (TreeKEMPrivate.new 1 [2]) secret 1 0
        gapTree.leafCount = .ok priv ∧
      ¬ InstallsPathKeys plainSuite gp 1 priv := by
  obtain ⟨gp, secret, priv, hpath, hsecret, hinstall, hroot, hheld⟩ := gapKeys_ok
  refine ⟨gp, secret, priv, gapTree_reachable, hpath, by decide +kernel, hsecret,
    hinstall, fun hkeys => ?_⟩
  obtain ⟨key, pub, hpair, -, hkey⟩ := hkeys 7 [185] hroot (by decide)
  have hderived : nodeKeyPair plainSuite [185] = .ok ([215], [215]) := by
    decide +kernel
  rw [hderived, Except.ok.injEq, Prod.mk.injEq] at hpair
  rw [hheld, ← hpair.1] at hkey
  cases hkey

end RatchetTree

end MlsGo
