import MlsGo.PathRuns
import MlsGo.SuiteLaws
import MlsGo.RepresentationInvariant

/-!
# Reading an update path

A receiver whose private keys fit the tree on which a path was generated finds
a ciphertext it can open, ratchets the path secret up to the sender's last one
and ends with the sender's commit secret.  The node at which it enters the path
is one whose copath resolution holds a key of the receiver.
-/

namespace MlsGo

def Node.Lists (leaf : ℕ) : Node → Prop
  | .leaf _ => False
  | .parent p => ∃ u ∈ p.unmergedLeaves, u.toNat = leaf

@[simp] theorem TreeKEMPrivate.privateKey_new (leaf : ℕ) (key : Bytes) (d : ℕ) :
    (TreeKEMPrivate.new leaf key).privateKey d = if d = u32 (2 * leaf) then some key else none :=
  GoMap.get_set [] (u32 (2 * leaf)) d key

namespace RatchetTree

open InOrderLayout

variable {S : Suite} {t : RatchetTree} {h k L R : ℕ}

/-- The private keys of the member at `leaf` fit the tree: each belongs to the
node it is stored at, and there is one for every populated node of the member's
path that does not list it as unmerged. -/
structure Fits (S : Suite) (t : RatchetTree) (leaf : ℕ)
    (priv : TreeKEMPrivate) : Prop where
  matching : ∀ d pub key, t.nodePublicKey d = .ok pub →
    priv.privateKey d = some key → S.Matching key pub
  held : ∀ k n, t.slot k (leaf / 2 ^ k) = some n → ¬ n.Lists leaf →
    ∃ key, priv.privateKey (inorder k (leaf / 2 ^ k)) = some key

/-! ## Ciphertexts -/

def CanOpen (priv : TreeKEMPrivate) (skipped res : List ℕ) : Prop :=
  ∃ d ∈ res, d ∉ skipped ∧ priv.privateKey d ≠ none

section Ciphertexts

variable {priv : TreeKEMPrivate} {skipped : List ℕ} {groupContext : Bytes}

theorem findCiphertext_spec (hopens : S.OpensSealed)
    (hmatch : ∀ d pub key, t.nodePublicKey d = .ok pub → priv.privateKey d = some key →
    S.Matching key pub) {pathSecret : Bytes} :
    ∀ (res : List ℕ) (pubs : List Bytes) (seeds : ℕ → Bytes)
      (before cts : List HPKECiphertext),
      t.recipientKeys skipped res = .ok pubs →
      encryptPathSecret S groupContext pathSecret seeds pubs = .ok cts →
      (¬ CanOpen priv skipped res ∧
        findCiphertext priv skipped (before ++ cts) res before.length = none) ∨
      (CanOpen priv skipped res ∧ ∃ sk ct,
        findCiphertext priv skipped (before ++ cts) res before.length = some (sk, ct) ∧
        S.decryptWithLabel sk "UpdatePathNode" groupContext ct.kemOutput
          ct.ciphertext = .ok pathSecret) := by
  intro res
  induction res with
  | nil =>
      intro pubs seeds before cts _ _
      exact .inl ⟨by simp [CanOpen], rfl⟩
  | cons d ds ih =>
      intro pubs seeds before cts hpubs hcts
      by_cases hskip : d ∈ skipped
      · -- a newly added leaf takes no ciphertext
        simp only [recipientKeys, List.contains_iff_mem, hskip, if_true] at hpubs
        have hiff : CanOpen priv skipped (d :: ds) ↔ CanOpen priv skipped ds := by
          simp [CanOpen, hskip]
        simp only [findCiphertext, List.contains_iff_mem, hskip, if_true, hiff]
        exact ih pubs seeds before cts hpubs hcts
      · simp only [recipientKeys, List.contains_iff_mem, hskip, if_false,
          bind_eq_ok, pure_ok_iff] at hpubs
        obtain ⟨pub, hpub, rest, hrest, rfl⟩ := hpubs
        simp only [encryptPathSecret, bind_eq_ok, pure_ok_iff] at hcts
        obtain ⟨⟨kem, ct⟩, hseal, others, hothers, rfl⟩ := hcts
        simp only [findCiphertext, List.contains_iff_mem, hskip, if_false]
        cases hkey : priv.privateKey d with
        | none =>
            have hiff : CanOpen priv skipped (d :: ds) ↔ CanOpen priv skipped ds := by
              simp [CanOpen, hkey]
            have hnext := ih rest (fun i => seeds (i + 1))
              (before ++ [⟨kem, ct⟩]) others hrest hothers
            simp only [List.append_assoc, List.singleton_append,
              List.length_append, List.length_singleton] at hnext
            simp only [hiff]
            exact hnext
        | some sk =>
            refine .inr ⟨⟨d, by simp, hskip, by simp [hkey]⟩, sk, ⟨kem, ct⟩, ?_, ?_⟩
            · simp
            · obtain ⟨info, hinfo, hsealed⟩ := bind_eq_ok.mp hseal
              rw [Suite.decryptWithLabel, hinfo, ok_bind, liftErr_eq_ok]
              exact hopens (hmatch d pub sk hpub hkey) (liftErr_eq_ok.mp hsealed)

end Ciphertexts

/-! ## Ratcheting -/

/-- From the secret of the lowest of the remaining path nodes the top secret is
reached, and every public key on the way is the one sent. -/
theorem climbPath_eq :
    ∀ (path : List ℕ) (p : ℕ) (secret : Bytes) (secrets pubs : List Bytes)
      (nodes : List UpdatePathNode), pathSecretsFrom S secret path.length = .ok secrets →
      nodePublicKeys S (secret :: secrets) = .ok pubs → nodes.map (·.encryptionKey) = pubs →
      climbPath S secret ((p :: path).zip nodes) = .ok (secrets.getLast?.getD secret) := by
  intro path
  induction path with
  | nil =>
      intro p secret secrets pubs nodes hsecrets hpubs hkeys
      cases hsecrets
      simp only [nodePublicKeys, bind_eq_ok, pure_eq_ok, Except.ok.injEq] at hpubs
      obtain ⟨⟨priv, pub⟩, hpair, _, rfl, rfl⟩ := hpubs
      obtain ⟨n, rest, rfl, hn, -⟩ := List.map_eq_cons_iff.mp hkeys
      simp [climbPath, hpair, hn]
  | cons q path ih =>
      intro p secret secrets pubs nodes hsecrets hpubs hkeys
      simp only [List.length_cons, pathSecretsFrom, bind_eq_ok, pure_ok_iff] at hsecrets
      obtain ⟨next, hnext, above, habove, rfl⟩ := hsecrets
      rw [nodePublicKeys] at hpubs
      simp only [bind_eq_ok, pure_ok_iff] at hpubs
      obtain ⟨⟨priv, pub⟩, hpair, others, hothers, rfl⟩ := hpubs
      obtain ⟨n, rest, rfl, hn, hrest⟩ := List.map_eq_cons_iff.mp hkeys
      have hclimb := ih q next above others rest habove hothers hrest
      have hne : rest ≠ [] := by
        rintro rfl
        have hlen := nodePublicKeys_length hothers
        rw [← hrest] at hlen
        simp at hlen
      obtain ⟨n', rest', rfl⟩ := List.exists_cons_of_ne_nil hne
      simp only [List.zip_cons_cons] at hclimb ⊢
      rw [climbPath, hpair, ok_bind]
      simp only [hn, ne_eq, not_true_eq_false, if_false, hnext, ok_bind]
      rw [hclimb, List.getLast?_cons]
      rfl

def Reaches (t : RatchetTree) (senderNode : ℕ) (priv : TreeKEMPrivate)
    (skipped : List ℕ) (p : ℕ) : Prop :=
  ∃ cc res, t.copathChild p senderNode = .ok cc ∧ t.resolution cc = .ok res ∧
    CanOpen priv skipped res

variable {priv : TreeKEMPrivate} {newlyAdded : List ℕ}

theorem findPathSecret_spec (hopens : S.OpensSealed) {skipped : List ℕ} {groupContext : Bytes}
    {senderNode : ℕ} (hmatch : ∀ d pub key, t.nodePublicKey d = .ok pub →
    priv.privateKey d = some key → S.Matching key pub) :
    ∀ (path : List ℕ) (src : Bytes) (secrets pubs : List Bytes)
      (resPubs : List (List Bytes)) (seeds : ℕ → ℕ → Bytes)
      (nodes : List UpdatePathNode),
      pathSecretsFrom S src path.length = .ok secrets →
      nodePublicKeys S secrets = .ok pubs →
      t.copathRecipients senderNode skipped path = .ok resPubs →
      encryptPath S groupContext seeds (pubs.zip (secrets.zip resPubs)) = .ok nodes →
      ((∀ p ∈ path, ¬ t.Reaches senderNode priv skipped p) ∧
        t.findPathSecret S senderNode priv groupContext skipped (path.zip nodes) = .ok none) ∨
      ∃ p secret rest, (p, secret) ∈ path.zip secrets ∧
        t.Reaches senderNode priv skipped p ∧
        t.findPathSecret S senderNode priv groupContext skipped
          (path.zip nodes) = .ok (some (secret, rest)) ∧
        climbPath S secret rest = .ok (secrets.getLast?.getD src) := by
  intro path
  induction path with
  | nil =>
      intro src secrets pubs resPubs seeds nodes _ _ _ _
      exact .inl ⟨by simp, rfl⟩
  | cons p path ih =>
      intro src secrets pubs resPubs seeds nodes hsecrets hpubs hres hnodes
      have hkeys := encryptPath_keys hnodes
      simp only [List.length_cons, pathSecretsFrom, bind_eq_ok, pure_ok_iff] at hsecrets
      obtain ⟨secret, -, above, habove, rfl⟩ := hsecrets
      have hpubs' := hpubs
      rw [nodePublicKeys] at hpubs
      simp only [bind_eq_ok, pure_ok_iff] at hpubs
      obtain ⟨⟨keyPriv, pub⟩, -, others, hothers, rfl⟩ := hpubs
      simp only [copathRecipients, bind_eq_ok, pure_ok_iff] at hres
      obtain ⟨cc, hcc, res, hresolution, recipients, hrecipients, others', hothers', rfl⟩ := hres
      have hlens := pathSecretsFrom_length habove
      have hlenp := nodePublicKeys_length hothers
      have hlenr := copathRecipients_length hothers'
      rw [List.map_fst_zip (by simp [hlens, hlenp, hlenr])] at hkeys
      simp only [List.zip_cons_cons, encryptPath, bind_eq_ok, pure_ok_iff] at hnodes
      obtain ⟨cts, hcts, nodes', hnodes', rfl⟩ := hnodes
      have hlast : ((secret :: above).getLast?.getD src) = above.getLast?.getD secret := by
        rw [List.getLast?_cons]
        rfl
      have hreaches : t.Reaches senderNode priv skipped p ↔ CanOpen priv skipped res := by
        constructor
        · rintro ⟨cc', res', hcc', hres', hopen⟩
          rw [hcc, Except.ok.injEq] at hcc'
          subst hcc'
          rw [hresolution, Except.ok.injEq] at hres'
          subst hres'
          exact hopen
        · exact fun hopen => ⟨cc, res, hcc, hresolution, hopen⟩
      have hfind := findCiphertext_spec hopens hmatch res recipients (seeds 0) []
        cts hrecipients hcts
      simp only [List.nil_append, List.length_nil] at hfind
      simp only [List.zip_cons_cons, findPathSecret, hcc, hresolution, ok_bind, hlast]
      rcases hfind with ⟨hnone, hfind⟩ | ⟨hopen, sk, ct, hfind, hdecrypt⟩
      · rw [hfind]
        rcases ih secret above others others' (fun k => seeds (k + 1)) nodes'
          habove hothers hothers' hnodes' with ⟨hnot, hrest⟩ | hfound
        · refine .inl ⟨?_, hrest⟩
          rw [List.forall_mem_cons, hreaches]
          exact ⟨hnone, hnot⟩
        · obtain ⟨q, found, rest, hmem, hq, hrest, hclimb⟩ := hfound
          exact .inr ⟨q, found, rest, List.mem_cons_of_mem _ hmem, hq, hrest, hclimb⟩
      · rw [hfind]
        refine .inr ⟨p, secret, (p, ⟨pub, cts⟩) :: path.zip nodes',
          List.mem_cons_self, hreaches.mpr hopen, ?_, ?_⟩
        · simp [hdecrypt]
        · exact climbPath_eq path p secret above _ (⟨pub, cts⟩ :: nodes') habove hpubs' hkeys

/-! ## Where the paths of two leaves meet -/

theorem exists_meet (hL : L < 2 ^ h) (hR : R < 2 ^ h) :
    ∃ k ≤ h, L / 2 ^ k = R / 2 ^ k ∧ ∀ i < k, L / 2 ^ i ≠ R / 2 ^ i := by
  have htop : L / 2 ^ h = R / 2 ^ h := by
    rw [Nat.div_eq_of_lt hL, Nat.div_eq_of_lt hR]
  have hex : ∃ m, L / 2 ^ m = R / 2 ^ m := ⟨h, htop⟩
  exact ⟨Nat.find hex, Nat.find_min' hex htop, Nat.find_spec hex, fun i hi => Nat.find_min hex hi⟩

theorem exists_fork (hL : L < 2 ^ h) (hR : R < 2 ^ h) (hne : L ≠ R) :
    ∃ k < h, R / 2 ^ k = siblingRank (L / 2 ^ k) ∧ L / 2 ^ (k + 1) = R / 2 ^ (k + 1) := by
  obtain ⟨m, hm, hmeet, hapart⟩ := exists_meet hL hR
  cases m with
  | zero =>
      rw [pow_zero, Nat.div_one, Nat.div_one] at hmeet
      exact absurd hmeet hne
  | succ k =>
      refine ⟨k, hm, ?_, hmeet⟩
      have hbelow := hapart k (by omega)
      rw [ancestor_succ, ancestor_succ] at hmeet
      unfold siblingRank
      generalize L / 2 ^ k = a at hmeet hbelow ⊢
      generalize R / 2 ^ k = b at hmeet hbelow ⊢
      split <;> omega

theorem Full.canOpen_ancestor (hf : t.Full h) {skipped : List ℕ} (hfits : Fits S t R priv)
    (hw : WellFormed t.slot) (hmember : t.slot 0 R ≠ none)
    (hskipped : ∀ k j, inorder k j ∈ skipped → k = 0 ∧ j ≠ R) :
    ∀ k, CanOpen priv skipped (t.resolutionAt k (R / 2 ^ k)) := by
  have hleaf : ∃ key, priv.privateKey (inorder 0 R) = some key := by
    obtain ⟨n, hn⟩ := Option.ne_none_iff_exists'.mp hmember
    obtain ⟨l, rfl⟩ := hw.leaf_slot R n hn
    have hheld := hfits.held 0 (.leaf l) (by simpa using hn) (by simp [Node.Lists])
    simpa using hheld
  have hown : inorder 0 R ∉ skipped := fun hmem => (hskipped 0 R hmem).2 rfl
  intro k
  induction k with
  | zero =>
      obtain ⟨n, hn⟩ := Option.ne_none_iff_exists'.mp hmember
      obtain ⟨l, rfl⟩ := hw.leaf_slot R n hn
      rw [pow_zero, Nat.div_one, resolutionAt_of_some hn]
      obtain ⟨key, hkey⟩ := hleaf
      exact ⟨_, List.mem_singleton_self _, hown, by rw [hkey]; simp⟩
  | succ k ih =>
      cases hslot : t.slot (k + 1) (R / 2 ^ (k + 1)) with
      | none =>
          rw [resolutionAt_succ_of_none hslot]
          obtain ⟨d, hd, hrest⟩ := ih
          refine ⟨d, ?_, hrest⟩
          have hsucc := ancestor_succ R k
          rw [List.mem_append]
          rcases Nat.mod_two_eq_zero_or_one (R / 2 ^ k) with heven | hodd
          · left
            rwa [show 2 * (R / 2 ^ (k + 1)) = R / 2 ^ k by omega]
          · right
            rwa [show 2 * (R / 2 ^ (k + 1)) + 1 = R / 2 ^ k by omega]
      | some n =>
          obtain ⟨p, rfl⟩ := hw.parent_slot k _ n hslot
          rw [resolutionAt_of_some hslot]
          by_cases hlisted : (Node.parent p).Lists R
          · -- as an unmerged leaf the member is reached directly
            obtain ⟨u, hu, rfl⟩ := hlisted
            obtain ⟨key, hkey⟩ := hleaf
            refine ⟨inorder 0 u.toNat, ?_, hown, by rw [hkey]; simp⟩
            rw [nodeResolution, List.mem_cons, List.mem_map]
            exact .inr ⟨u, hu, hf.unmerged_index_eq hmember⟩
          · obtain ⟨key, hkey⟩ := hfits.held (k + 1) _ hslot hlisted
            refine ⟨_, List.mem_cons_self, fun hmem => ?_, by simp [hkey]⟩
            exact absurd (hskipped _ _ hmem).1 (by omega)

theorem mem_addedNodes {j : ℕ} (hmem : inorder k j ∈ addedNodes newlyAdded) :
    k = 0 ∧ ∃ li ∈ newlyAdded, li % 2 ^ 31 = j := by
  obtain ⟨li, hli, heq⟩ := List.mem_map.mp hmem
  rw [u32_double, inorder_inj] at heq
  exact ⟨heq.1.symm, li, hli, heq.2⟩

theorem Full.reaches_fork (hf : t.Full h) (hw : WellFormed t.slot) (hfits : Fits S t R priv)
    (hmember : t.slot 0 R ≠ none) (hnew : ∀ li ∈ newlyAdded, li % 2 ^ 31 ≠ R)
    (hL : L < 2 ^ h) (hk : k < h) (hfork : R / 2 ^ k = siblingRank (L / 2 ^ k)) :
    t.Reaches (inorder 0 L) priv (addedNodes newlyAdded) (pathNode L k) := by
  have hin : Inside h k (siblingRank (L / 2 ^ k)) := (inside_ancestor hL hk.le).sibling hk
  refine ⟨_, _, hf.copathChild_eq hL hk, hf.resolution_eq hin, ?_⟩
  rw [← hfork]
  refine hf.canOpen_ancestor hfits hw hmember (fun i j hmem => ?_) k
  obtain ⟨hi, li, hli, hj⟩ := mem_addedNodes hmem
  exact ⟨hi, hj ▸ hnew li hli⟩

theorem PathRun.processUpdatePath_eq (hopens : S.OpensSealed) (hf : t.Full h)
    (hw : WellFormed t.slot) {senderLeaf : ℕ} {leafSecret : Bytes} {signer : Option Signer}
    {groupID : Bytes} {mkGroupContext : Bytes → Result Bytes} {seeds : ℕ → ℕ → Bytes}
    {gp : GeneratedPath} (r : PathRun S t senderLeaf leafSecret signer groupID newlyAdded
    mkGroupContext seeds gp) (hfits : Fits S t R priv) (hmember : t.slot 0 R ≠ none)
    (hother : senderLeaf % 2 ^ 31 ≠ R) (hnew : ∀ li ∈ newlyAdded, li % 2 ^ 31 ≠ R) :
    ∃ p secret, (p, secret) ∈ gp.pathSecretByNode ∧
      t.Reaches (u32 (2 * senderLeaf)) priv (addedNodes newlyAdded) p ∧
      t.processUpdatePath S senderLeaf gp.updatePath priv r.groupContext
        newlyAdded = .ok (secret, some gp.commitSecret) := by
  obtain ⟨hL, -⟩ := r.sender_slot hf
  have hR := hf.member_lt hmember
  have hpath := r.path_eq
  rw [hf.filteredDirectPath_eq rfl hL, Except.ok.injEq] at hpath
  -- the fork is on the filtered path, because the receiver is below it
  obtain ⟨k, hk, hfork, -⟩ := exists_fork hL hR hother
  have hreach : t.Reaches (u32 (2 * senderLeaf)) priv (addedNodes newlyAdded)
      (pathNode (senderLeaf % 2 ^ 31) k) := by
    rw [u32_double]
    exact hf.reaches_fork hw hfits hmember hnew hL hk hfork
  have hon : pathNode (senderLeaf % 2 ^ 31) k ∈ r.path := by
    rw [← hpath]
    refine List.mem_map_of_mem (mem_pathLevels.mpr ⟨hk, ?_⟩)
    obtain ⟨d, hd, -⟩ := hf.canOpen_ancestor hfits hw hmember
      (by simp : ∀ i j, inorder i j ∈ ([] : List ℕ) → i = 0 ∧ j ≠ R) k
    rw [copathEmpty, ← hfork, List.isEmpty_iff]
    exact List.ne_nil_of_mem hd
  have hlens := pathSecretsFrom_length r.pathSecrets_eq
  have hlenp := nodePublicKeys_length r.nodePubs_eq
  have hlenn := congrArg List.length r.node_keys
  rw [List.length_map] at hlenn
  rcases findPathSecret_spec hopens hfits.matching r.path leafSecret r.pathSecrets r.nodePubs
    r.resPubs seeds gp.updatePath.nodes r.pathSecrets_eq r.nodePubs_eq r.resPubs_eq r.nodes_eq with
    ⟨hnone, -⟩ | ⟨p, secret, rest, hmem, hp, hfind, hclimb⟩
  · exact absurd hreach (hnone _ hon)
  · refine ⟨p, secret, by rwa [r.pathSecretByNode_eq], hp, ?_⟩
    rw [processUpdatePath, r.path_eq, ok_bind, if_neg (by omega), hfind, ok_bind]
    simp only [hclimb, ok_bind, r.commitSecret_eq, pure_eq_ok]

end RatchetTree

end MlsGo
