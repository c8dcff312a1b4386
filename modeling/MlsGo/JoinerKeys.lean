import MlsGo.GroupState
import MlsGo.PathDecryption

/-!
# Private keys derived from one path secret

`installJoinerPriv` enters the tree at the common ancestor of two leaves and
stores one key for every node from there to the root.  It takes one ratchet step
for each ancestor, whether or not that ancestor is on the sender's filtered
path.
-/

namespace MlsGo

open InOrderLayout

variable {S : Suite} {h k L R : ℕ}

/-! ## Totality of the derivations -/

theorem expandWithLabel_ok (hkdf : KdfLaws S) (secret : Bytes) (label : String) (context : Bytes)
    (hlabel : (mlsLabelStart ++ ascii label).length < 64) (hcontext : context.length < 64) :
    ∃ out, S.expandWithLabel secret label context S.hashLen = .ok out ∧
      out.length = S.hashLen := by
  have hwrite : ∀ {p : Bytes}, p.length < 64 → ∃ encoded, writeOpaqueV p = .ok encoded := by
    intro p hp
    simp [writeOpaqueV, writeVarint, hp]
  obtain ⟨lbl, hlbl⟩ := hwrite hlabel
  obtain ⟨ctx, hctx⟩ := hwrite hcontext
  obtain ⟨out, hout, hlen⟩ := hkdf.kdfExpand_ok secret (beBytes 2 S.hashLen ++ (lbl ++ ctx))
  have hle := hkdf.hashLen_le
  exact ⟨out, by simp [Suite.expandWithLabel, hlbl, hctx, hout, Nat.not_lt.mpr hle], hlen⟩

theorem deriveSecret_ok (hkdf : KdfLaws S) (secret : Bytes) (label : String)
    (hlabel : (mlsLabelStart ++ ascii label).length < 64) :
    ∃ out, S.deriveSecret secret label = .ok out ∧ out.length = S.hashLen :=
  expandWithLabel_ok hkdf secret label [] hlabel (by simp)

theorem nodeKeyPair_ok (hkdf : KdfLaws S) (pathSecret : Bytes) :
    ∃ key pub, nodeKeyPair S pathSecret = .ok (key, pub) := by
  obtain ⟨nodeSecret, hsecret, hlen⟩ := deriveSecret_ok hkdf pathSecret "node" (by decide)
  obtain ⟨⟨key, pub⟩, hkeys⟩ := hkdf.deriveKeyPair_ok nodeSecret hlen
  exact ⟨key, pub, by simp [nodeKeyPair, hsecret, hkeys]⟩

theorem nodeKeyPair_matching {pathSecret key pub : Bytes}
    (hpair : nodeKeyPair S pathSecret = .ok (key, pub)) :
    S.Matching key pub := by
  obtain ⟨nodeSecret, -, hkeys⟩ := bind_eq_ok.mp hpair
  exact .inl ⟨nodeSecret, liftErr_eq_ok.mp hkeys⟩

/-! ## Common ancestors -/

theorem parent_ancestor (hh : h ≤ 31) (hR : R < 2 ^ h) (hk : k < h) :
    parent (inorder k (R / 2 ^ k)) (2 ^ h) = .ok (inorder (k + 1) (R / 2 ^ (k + 1)), true) := by
  rw [parent_inorder hh hk (RatchetTree.inside_ancestor hR hk.le).2, RatchetTree.ancestor_succ]

theorem climbTogether_eq (hh : h ≤ 31) (hL : L < 2 ^ h) (hR : R < 2 ^ h)
    (hmeet : L / 2 ^ k = R / 2 ^ k) (hk : k ≤ h) (hapart : ∀ i < k, L / 2 ^ i ≠ R / 2 ^ i) :
    ∀ fuel i, i ≤ k → k < i + fuel →
      climbTogether (2 ^ h) fuel (inorder i (L / 2 ^ i))
        (inorder i (R / 2 ^ i)) = .ok (inorder k (R / 2 ^ k)) := by
  intro fuel
  induction fuel with
  | zero =>
      intro i hik hfuel
      omega
  | succ fuel ih =>
      intro i hik hfuel
      rw [climbTogether]
      rcases hik.eq_or_lt with rfl | hlt
      · rw [if_pos (by rw [hmeet]), hmeet]
      · have hne : inorder i (L / 2 ^ i) ≠ inorder i (R / 2 ^ i) := by
          rw [Ne, inorder_inj]
          exact fun heq => hapart i hlt heq.2
        simp only [if_neg hne, parent_ancestor hh hL (by omega : i < h),
          parent_ancestor hh hR (by omega : i < h), ok_bind]
        exact ih (i + 1) hlt (by omega)

theorem raiseToLevel_of_le {nLeaves x m fuel : ℕ} (hle : m ≤ level x) :
    raiseToLevel nLeaves m (fuel + 1) x = .ok x := by
  rw [raiseToLevel, if_neg (by omega)]

theorem commonAncestor_leaves (hL : L < 2 ^ 31) (hR : R < 2 ^ 31) (n : ℕ) :
    commonAncestor (inorder 0 R) (inorder 0 L) n =
      climbTogether n 34 (inorder 0 R) (inorder 0 L) := by
  have hlt : ∀ {M}, M < 2 ^ 31 → inorder 0 M < 2 ^ 32 := by
    intro M hM
    rw [inorder_zero]
    omega
  have hlevel : level (inorder 0 R) = level (inorder 0 L) := by
    rw [level_inorder (hlt hR), level_inorder (hlt hL)]
  rw [commonAncestor, raiseToLevel_of_le hlevel.ge, ok_bind, raiseToLevel_of_le hlevel.le, ok_bind]

theorem commonAncestor_of_meet (hh : h ≤ 31) (hL : L < 2 ^ h) (hR : R < 2 ^ h) (hk : k ≤ h)
    (hmeet : L / 2 ^ k = R / 2 ^ k) (hapart : ∀ i < k, L / 2 ^ i ≠ R / 2 ^ i) :
    commonAncestor (inorder 0 R) (inorder 0 L) (2 ^ h) = .ok (inorder k (R / 2 ^ k)) := by
  have hle : 2 ^ h ≤ 2 ^ 31 := Nat.pow_le_pow_right (by norm_num) hh
  have hclimb := climbTogether_eq hh hR hL hmeet.symm hk
    (fun i hi => (hapart i hi).symm) 34 0 (by omega) (by omega)
  rw [pow_zero, Nat.div_one, Nat.div_one] at hclimb
  rw [commonAncestor_leaves (by omega) (by omega), hclimb, hmeet]

theorem commonAncestor_eq (hh : h ≤ 31) (hL : L < 2 ^ h) (hR : R < 2 ^ h)
    (hk : k < h) (hfork : R / 2 ^ k = siblingRank (L / 2 ^ k)) :
    commonAncestor (inorder 0 R) (inorder 0 L) (2 ^ h) =
      .ok (inorder (k + 1) (R / 2 ^ (k + 1))) := by
  refine commonAncestor_of_meet hh hL hR hk (RatchetTree.meet_of_fork hfork) ?_
  intro i hi heq
  have hup : L / 2 ^ k = R / 2 ^ k := RatchetTree.ancestor_congr heq (show i ≤ k by omega)
  rw [hfork] at hup
  exact RatchetTree.siblingRank_ne _ hup

/-! ## Keys up to the root -/

def ratchet (S : Suite) (secret : Bytes) : ℕ → Result Bytes
  | 0 => .ok secret
  | n + 1 => do
      let next ← S.deriveSecret secret "path"
      ratchet S next n

/-- What the installing loop leaves in the private state, started with `secret`
at level `k` on the path of leaf `R`. -/
structure JoinerKeys (S : Suite) (h R k : ℕ) (secret : Bytes)
    (priv priv' : TreeKEMPrivate) : Prop where
  leafIndex_eq : priv'.leafIndex = priv.leafIndex
  on_path : ∀ i, k ≤ i → i ≤ h → ∃ s key pub,
    ratchet S secret (i - k) = .ok s ∧ nodeKeyPair S s = .ok (key, pub) ∧
      priv'.privateKey (inorder i (R / 2 ^ i)) = some key
  elsewhere : ∀ node, (∀ i, k ≤ i → i ≤ h → node ≠ inorder i (R / 2 ^ i)) →
    priv'.privateKey node = priv.privateKey node

theorem addPathSecret_keys {priv priv' : TreeKEMPrivate} {node : ℕ}
    {secret : Bytes} (hadd : priv.addPathSecret S node secret = .ok priv') :
    ∃ key pub, nodeKeyPair S secret = .ok (key, pub) ∧ priv'.leafIndex = priv.leafIndex ∧
      ∀ d, priv'.privateKey d = if d = node then some key else priv.privateKey d := by
  simp only [TreeKEMPrivate.addPathSecret, bind_eq_ok, pure_ok_iff] at hadd
  obtain ⟨⟨key, pub⟩, hpair, rfl⟩ := hadd
  exact ⟨key, pub, hpair, rfl, fun d => GoMap.get_set _ _ _ _⟩

theorem addPathSecret_ok (hkdf : KdfLaws S) (priv : TreeKEMPrivate) (node : ℕ) (secret : Bytes) :
    ∃ priv', priv.addPathSecret S node secret = .ok priv' := by
  obtain ⟨key, pub, hpair⟩ := nodeKeyPair_ok hkdf secret
  refine ⟨{ priv with privs := priv.privs.set node key }, ?_⟩
  simp only [TreeKEMPrivate.addPathSecret, hpair, ok_bind, pure_eq_ok]

theorem installJoinerLoop_keys (hh : h ≤ 31) (hR : R < 2 ^ h) :
    ∀ fuel k secret priv priv', k ≤ h →
      installJoinerLoop S (2 ^ h) fuel (inorder k (R / 2 ^ k)) secret priv = .ok priv' →
      JoinerKeys S h R k secret priv priv' := by
  intro fuel
  induction fuel with
  | zero =>
      intro k secret priv priv' _ hrun
      cases hrun
  | succ fuel ih =>
      intro k secret priv priv' hk hrun
      rw [installJoinerLoop] at hrun
      obtain ⟨priv₁, hadd, hrun⟩ := bind_eq_ok.mp hrun
      obtain ⟨key, pub, hpair, hindex, hprivs⟩ := addPathSecret_keys hadd
      rw [root_full hh] at hrun
      rcases hk.eq_or_lt with rfl | hlt
      · rw [if_pos (by rw [Nat.div_eq_of_lt hR])] at hrun
        cases hrun
        refine ⟨hindex, ?_, ?_⟩
        · intro i hki hik
          obtain rfl : i = k := by omega
          exact ⟨secret, key, pub, by simp [ratchet], hpair, by simp [hprivs]⟩
        · intro node hnode
          rw [hprivs, if_neg (hnode k le_rfl le_rfl)]
      · have hne : inorder k (R / 2 ^ k) ≠ inorder h 0 := by
          rw [Ne, inorder_inj]
          omega
        rw [if_neg hne] at hrun
        obtain ⟨next, hnext, hrun⟩ := bind_eq_ok.mp hrun
        rw [parent_ancestor hh hR hlt, ok_bind] at hrun
        have hkeys := ih (k + 1) next priv₁ priv' hlt hrun
        refine ⟨hkeys.leafIndex_eq.trans hindex, ?_, ?_⟩
        · intro i hki hih
          rcases hki.eq_or_lt with rfl | hki
          · refine ⟨secret, key, pub, by simp [ratchet], hpair, ?_⟩
            rw [hkeys.elsewhere, hprivs, if_pos rfl]
            intro i hi _ heq
            rw [inorder_inj] at heq
            omega
          · obtain ⟨s, key', pub', hs, hpair', hget⟩ := hkeys.on_path i hki hih
            refine ⟨s, key', pub', ?_, hpair', hget⟩
            rw [show i - k = i - (k + 1) + 1 by omega, ratchet, hnext, ok_bind]
            exact hs
        · intro node hnode
          rw [hkeys.elsewhere node fun i hi hih => hnode i (by omega) hih, hprivs,
            if_neg (hnode k le_rfl hk)]

theorem installJoinerLoop_ok (hkdf : KdfLaws S) (hh : h ≤ 31) (hR : R < 2 ^ h) :
    ∀ fuel k secret priv, k ≤ h → h < k + fuel →
      ∃ priv', installJoinerLoop S (2 ^ h) fuel (inorder k (R / 2 ^ k)) secret
        priv = .ok priv' := by
  intro fuel
  induction fuel with
  | zero =>
      intro k secret priv hk hfuel
      omega
  | succ fuel ih =>
      intro k secret priv hk hfuel
      obtain ⟨priv₁, hadd⟩ := addPathSecret_ok hkdf priv (inorder k (R / 2 ^ k)) secret
      rw [installJoinerLoop, hadd, ok_bind, root_full hh]
      rcases hk.eq_or_lt with rfl | hlt
      · exact ⟨priv₁, by rw [if_pos (by rw [Nat.div_eq_of_lt hR])]; rfl⟩
      · have hne : inorder k (R / 2 ^ k) ≠ inorder h 0 := by
          rw [Ne, inorder_inj]
          omega
        obtain ⟨next, hnext, -⟩ := deriveSecret_ok hkdf secret "path" (by decide)
        rw [if_neg hne, hnext, ok_bind, parent_ancestor hh hR hlt, ok_bind]
        exact ih (k + 1) next priv₁ hlt (by omega)

section Entering

variable {ownLeaf senderLeaf : ℕ} {priv priv' : TreeKEMPrivate} {secret : Bytes}

theorem installJoinerPriv_eq (hh : h ≤ 31) (hL : L < 2 ^ h) (hR : R < 2 ^ h)
    (hk : k < h) (hfork : R / 2 ^ k = siblingRank (L / 2 ^ k))
    (hown : ownLeaf % 2 ^ 31 = R) (hsender : senderLeaf % 2 ^ 31 = L) :
    installJoinerPriv S priv secret ownLeaf senderLeaf (2 ^ h) =
      installJoinerLoop S (2 ^ h) 34 (inorder (k + 1) (R / 2 ^ (k + 1))) secret priv := by
  rw [installJoinerPriv, RatchetTree.u32_double, RatchetTree.u32_double, hown,
    hsender, commonAncestor_eq hh hL hR hk hfork, ok_bind]

theorem installJoinerPriv_keys (hh : h ≤ 31) (hL : L < 2 ^ h) (hR : R < 2 ^ h)
    (hk : k < h) (hfork : R / 2 ^ k = siblingRank (L / 2 ^ k))
    (hown : ownLeaf % 2 ^ 31 = R) (hsender : senderLeaf % 2 ^ 31 = L)
    (hrun : installJoinerPriv S priv secret ownLeaf senderLeaf (2 ^ h) = .ok priv') :
    JoinerKeys S h R (k + 1) secret priv priv' := by
  rw [installJoinerPriv_eq hh hL hR hk hfork hown hsender] at hrun
  exact installJoinerLoop_keys hh hR 34 (k + 1) secret priv priv' hk hrun

theorem installJoinerPriv_spec (hkdf : KdfLaws S) (hh : h ≤ 31) (hL : L < 2 ^ h) (hR : R < 2 ^ h)
    (hk : k < h) (hfork : R / 2 ^ k = siblingRank (L / 2 ^ k)) (hown : ownLeaf % 2 ^ 31 = R)
    (hsender : senderLeaf % 2 ^ 31 = L) (priv : TreeKEMPrivate) (secret : Bytes) :
    ∃ priv', installJoinerPriv S priv secret ownLeaf senderLeaf (2 ^ h) =
        .ok priv' ∧ JoinerKeys S h R (k + 1) secret priv priv' := by
  obtain ⟨priv', hrun⟩ := installJoinerLoop_ok hkdf hh hR 34 (k + 1) secret priv hk (by omega)
  rw [← installJoinerPriv_eq hh hL hR hk hfork hown hsender] at hrun
  exact ⟨priv', hrun, installJoinerPriv_keys hh hL hR hk hfork hown hsender hrun⟩

end Entering

end MlsGo
