import MlsGo.LimitErrors

/-!
# The ratchets of the secret tree

File `secrettree.go`.  `NewSecretTree` hands a secret down from the root and
leaves two ratchets at every leaf; `KeyNonce` runs one of them up to a
generation.  In a tree of any width every leaf is visited once.  When the tree is
full all leaves are equally deep, and as long as no two of the derivations that
occur share their output, a key can be unwound: its generation, the secrets of
the ratchet before it, the kind of ratchet, and the path from the root.
-/

namespace MlsGo

open InOrderLayout

variable {S : Suite} {n h : ℕ} {enc : Bytes} {j leaf generation : ℕ} {st : SecretTree} {s : Bytes}
    {rt rt' : RatchetType} {st' : SecretTree}

def SecretTree.base (st : SecretTree) : RatchetType → GoMap ℕ Bytes
  | .handshake => st.handshakeBase
  | .application => st.applicationBase

def RatchetType.label : RatchetType → String
  | .handshake => "handshake"
  | .application => "application"

/-! ## Coverage -/

theorem deriveNode_leaf {fuel : ℕ} (hlt : inorder 0 j < 2 ^ 32) {secret : Bytes}
    (hrun : st.deriveNode S (fuel + 1) (inorder 0 j) secret = .ok st') (rt : RatchetType) :
    ∃ x, S.expandWithLabel secret rt.label [] S.hashLen = .ok x ∧
      st'.base rt = (st.base rt).set j x := by
  simp only [SecretTree.deriveNode, left_inorder_zero hlt, bind_eq_ok, pure_ok_iff] at hrun
  obtain ⟨hs, hhs, app, happ, rfl⟩ := hrun
  cases rt with
  | handshake => exact ⟨hs, hhs, by simp [SecretTree.base]⟩
  | application => exact ⟨app, happ, by simp [SecretTree.base]⟩

theorem deriveNode_node {fuel node l r : ℕ} (hleft : left node = (l, true)) {secret : Bytes}
    (hright : right node st.nLeaves = .ok (r, true))
    (hrun : st.deriveNode S (fuel + 1) node secret = .ok st') :
    ∃ ls rs st₁, S.expandWithLabel secret "tree" (ascii "left") S.hashLen = .ok ls ∧
      S.expandWithLabel secret "tree" (ascii "right") S.hashLen = .ok rs ∧
      st.deriveNode S fuel l ls = .ok st₁ ∧ st₁.deriveNode S fuel r rs = .ok st' := by
  simp only [SecretTree.deriveNode, hleft, hright, bind_eq_ok, ok_bind] at hrun
  obtain ⟨ls, hls, rs, hrs, st₁, hst₁, hst'⟩ := hrun
  exact ⟨ls, rs, st₁, hls, hrs, hst₁, hst'⟩

theorem bases_of_deriveNode (hpos : 0 < n) (hle : n ≤ 2 ^ 31) (rt : RatchetType) :
    ∀ k j, inorder k j < 2 * n - 1 → ∀ fuel secret (st st' : SecretTree),
      st.nLeaves = n → st.deriveNode S fuel (inorder k j) secret = .ok st' →
      (st'.base rt).map Prod.fst = (leafSpan n k j).reverse ++ (st.base rt).map Prod.fst := by
  refine truncated_induction hpos hle ?leaf ?node
  case leaf =>
    intro j hj fuel secret st st' _ hrun
    have hlt : inorder 0 j < 2 ^ 32 := by
      rw [inorder_zero]
      omega
    have hspan : leafSpan n 0 j = [j] := by
      rw [leafSpan, pow_zero, one_mul, one_mul, min_eq_left (by omega)]
      simp
    cases fuel with
    | zero => cases hrun
    | succ fuel =>
        obtain ⟨x, -, hbase⟩ := deriveNode_leaf hlt hrun rt
        rw [hbase, hspan]
        rfl
  case node =>
    intro k j k' j' _ hleft hright hspan ihleft ihright fuel secret st st' hleaves hrun
    cases fuel with
    | zero => cases hrun
    | succ fuel =>
        obtain ⟨ls, rs, st₁, -, -, hst₁, hst'⟩ :=
          deriveNode_node hleft (by rw [hleaves, hright]) hrun
        rw [ihright fuel rs st₁ st' ((nLeaves_of_deriveNode hst₁).trans hleaves) hst',
          ihleft fuel ls st st₁ hleaves hst₁, hspan, List.reverse_append, List.append_assoc]

theorem newSecretTree_bases (hpos : 0 < n) (hle : n ≤ 2 ^ 31)
    (hnew : newSecretTree S n enc = .ok st) (rt : RatchetType) :
    (st.base rt).map Prod.fst = (List.range n).reverse := by
  obtain ⟨height, hroot, hin, hcover, -⟩ := root_eq hpos hle
  rw [newSecretTree, if_neg hpos.ne', hroot] at hnew
  rw [bases_of_deriveNode hpos hle rt height 0 hin _ _ _ _ rfl hnew, leafSpan,
    mul_zero, zero_add, mul_one, min_eq_right hcover, ← List.range_eq_range']
  cases rt <;> simp [SecretTree.base]

/-! ## Where a secret comes from -/

/-- The secrets of the nodes of a full tree of height `h`, by level and rank. -/
inductive NodeSecret (S : Suite) (h : ℕ) (enc : Bytes) : ℕ → ℕ → Bytes → Prop
  | root : NodeSecret S h enc h 0 enc
  | left {k j : ℕ} {s x : Bytes} (hparent : NodeSecret S h enc (k + 1) j s)
      (hderive : S.expandWithLabel s "tree" (ascii "left") S.hashLen = .ok x) :
      NodeSecret S h enc k (2 * j) x
  | right {k j : ℕ} {s x : Bytes} (hparent : NodeSecret S h enc (k + 1) j s)
      (hderive : S.expandWithLabel s "tree" (ascii "right") S.hashLen = .ok x) :
      NodeSecret S h enc k (2 * j + 1) x

/-- The running secrets of the ratchets, by leaf, type and generation. -/
inductive RatchetSecret (S : Suite) (h : ℕ) (enc : Bytes) :
    ℕ → RatchetType → ℕ → Bytes → Prop
  | base {leaf : ℕ} {rt : RatchetType} {s x : Bytes}
      (hnode : NodeSecret S h enc 0 leaf s)
      (hderive : S.expandWithLabel s rt.label [] S.hashLen = .ok x) :
      RatchetSecret S h enc leaf rt 0 x
  | next {leaf generation : ℕ} {rt : RatchetType} {s x : Bytes}
      (hratchet : RatchetSecret S h enc leaf rt generation s)
      (hderive : S.deriveTreeSecret s "secret" generation S.hashLen = .ok x) :
      RatchetSecret S h enc leaf rt (generation + 1) x

theorem NodeSecret.level_le {k : ℕ} (hnode : NodeSecret S h enc k j s) : k ≤ h := by
  induction hnode with
  | root => exact le_rfl
  | left _ _ ih => omega
  | right _ _ ih => omega

theorem entries_of_deriveNode (hh : h ≤ 31) (rt : RatchetType) :
    ∀ k j fuel secret (st st' : SecretTree), NodeSecret S h enc k j secret →
      inorder k j < treeWidth h → st.nLeaves = 2 ^ h →
      st.deriveNode S fuel (inorder k j) secret = .ok st' →
      ∀ leaf x, (leaf, x) ∈ st'.base rt → (leaf, x) ∈ st.base rt ∨
        RatchetSecret S h enc leaf rt 0 x := by
  intro k
  induction k with
  | zero =>
      intro j fuel secret st st' hnode hin _ hrun leaf x hmem
      cases fuel with
      | zero => cases hrun
      | succ fuel =>
          obtain ⟨y, hderive, hbase⟩ := deriveNode_leaf (hin.trans (treeWidth_lt hh)) hrun rt
          rw [hbase] at hmem
          rcases List.mem_cons.mp hmem with heq | hold
          · cases heq
            exact .inr (.base hnode hderive)
          · exact .inl hold
  | succ k ih =>
      intro j fuel secret st st' hnode hin hleaves hrun leaf x hmem
      have hinside : RatchetTree.Inside h (k + 1) j := RatchetTree.inside_iff.mpr hin
      have hchild : ∀ i < 2, inorder k (2 * j + i) < treeWidth h :=
        fun i hi => RatchetTree.inside_iff.mp (hinside.child hi)
      cases fuel with
      | zero => cases hrun
      | succ fuel =>
          obtain ⟨ls, rs, st₁, hls, hrs, hst₁, hst'⟩ :=
            deriveNode_node (left_inorder (hin.trans (treeWidth_lt hh)))
              (by rw [hleaves, right_inorder hh hin]) hrun
          rcases ih (2 * j + 1) fuel rs st₁ st' (.right hnode hrs) (hchild 1 (by omega))
              ((nLeaves_of_deriveNode hst₁).trans hleaves) hst' leaf x hmem with hold | hnew
          · exact ih (2 * j) fuel ls st st₁ (.left hnode hls) (hchild 0 (by omega))
              hleaves hst₁ leaf x hold
          · exact .inr hnew

theorem base_of_newSecretTree (hh : h ≤ 31) (hnew : newSecretTree S (2 ^ h) enc = .ok st)
    {x : Bytes} (hget : (st.base rt).get leaf = some x) :
    RatchetSecret S h enc leaf rt 0 x := by
  rw [newSecretTree, if_neg (Nat.two_pow_pos h).ne', root_full hh] at hnew
  rcases entries_of_deriveNode hh rt h 0 34 enc _ st .root
      (RatchetTree.inside_iff.mp RatchetTree.inside_root) rfl hnew leaf x
      (GoMap.mem_of_get hget) with hold | hbase
  · cases rt <;> cases hold
  · exact hbase

theorem RatchetSecret.run {base : Bytes} (hbase : RatchetSecret S h enc leaf rt 0 base)
    (hrun : ratchetSecret S base generation = .ok s) :
    RatchetSecret S h enc leaf rt generation s := by
  induction generation generalizing s with
  | zero =>
      cases hrun
      exact hbase
  | succ generation ih =>
      obtain ⟨earlier, hearlier, hderive⟩ := bind_eq_ok.mp hrun
      exact .next (ih hearlier) hderive

theorem key_of_keyNonce (hh : h ≤ 31) (hnew : newSecretTree S (2 ^ h) enc = .ok st)
    {key nonce : Bytes} (hrun : st.keyNonce S leaf rt generation = .ok (key, nonce)) :
    ∃ s, RatchetSecret S h enc leaf rt generation s ∧
      S.deriveTreeSecret s "key" generation S.aeadKeySize = .ok key := by
  have hbase : ∃ base, (st.base rt).get leaf = some base ∧ ∃ s,
      ratchetSecret S base generation = .ok s ∧
        S.deriveTreeSecret s "key" generation S.aeadKeySize = .ok key := by
    cases rt <;> simp only [SecretTree.keyNonce] at hrun <;> split at hrun
    all_goals simp only [fail_ne_ok, bind_eq_ok, pure_ok_iff, Prod.mk.injEq] at hrun
    all_goals
      rename_i base hget
      obtain ⟨s, hs, key', hkey, nonce', -, rfl, rfl⟩ := hrun
      exact ⟨base, hget, s, hs, hkey⟩
  obtain ⟨base, hget, s, hs, hkey⟩ := hbase
  exact ⟨s, (base_of_newSecretTree hh hnew hget).run hs, hkey⟩

/-! ## Unwinding -/

structure KdfCall where
  secret : Bytes
  label : String
  context : Bytes
  length : ℕ

def KdfCall.output (S : Suite) (c : KdfCall) : Result Bytes :=
  S.expandWithLabel c.secret c.label c.context c.length

def InjectiveOn (S : Suite) (calls : KdfCall → Prop) : Prop :=
  ∀ c c' x, calls c → calls c' → c.length = c'.length →
    c.output S = .ok x → c'.output S = .ok x →
    c.secret = c'.secret ∧ c.label = c'.label ∧ c.context = c'.context

/-- The calls that a full secret tree and its ratchets make on the way to a key.
Generations are 32-bit numbers. -/
inductive KeyCall (S : Suite) (h : ℕ) (enc : Bytes) : KdfCall → Prop
  | left {k j : ℕ} {s : Bytes} (hnode : NodeSecret S h enc (k + 1) j s) :
      KeyCall S h enc ⟨s, "tree", ascii "left", S.hashLen⟩
  | right {k j : ℕ} {s : Bytes} (hnode : NodeSecret S h enc (k + 1) j s) :
      KeyCall S h enc ⟨s, "tree", ascii "right", S.hashLen⟩
  | base {leaf : ℕ} {s : Bytes} (rt : RatchetType)
      (hnode : NodeSecret S h enc 0 leaf s) :
      KeyCall S h enc ⟨s, rt.label, [], S.hashLen⟩
  | next {leaf generation : ℕ} {rt : RatchetType} {s : Bytes}
      (hratchet : RatchetSecret S h enc leaf rt generation s)
      (hgeneration : generation + 1 < 2 ^ 32) :
      KeyCall S h enc ⟨s, "secret", beBytes 4 generation, S.hashLen⟩
  | key {leaf generation : ℕ} {rt : RatchetType} {s : Bytes}
      (hratchet : RatchetSecret S h enc leaf rt generation s)
      (hgeneration : generation < 2 ^ 32) :
      KeyCall S h enc ⟨s, "key", beBytes 4 generation, S.aeadKeySize⟩

theorem ascii_left_ne_right : ascii "left" ≠ ascii "right" := by decide

theorem RatchetType.label_inj (hlabel : rt.label = rt'.label) : rt = rt' := by
  revert hlabel
  cases rt <;> cases rt' <;> decide

section Unwinding

variable (hinj : InjectiveOn S (KeyCall S h enc))

include hinj

theorem NodeSecret.unique {k j' : ℕ}
    (hnode : NodeSecret S h enc k j s) (hnode' : NodeSecret S h enc k j' s) :
    j = j' := by
  induction hnode generalizing j' with
  | root =>
      cases hnode' with
      | root => rfl
      | left hparent _ => exact absurd hparent.level_le (by omega)
      | right hparent _ => exact absurd hparent.level_le (by omega)
  | left hparent hderive ih =>
      cases hnode' with
      | root => exact absurd hparent.level_le (by omega)
      | left hparent' hderive' =>
          obtain ⟨hsecret, -, -⟩ :=
            hinj _ _ _ (.left hparent) (.left hparent') rfl hderive hderive'
          simp only at hsecret
          rw [ih (hsecret ▸ hparent')]
      | right hparent' hderive' =>
          obtain ⟨-, -, hside⟩ := hinj _ _ _ (.left hparent) (.right hparent') rfl hderive hderive'
          exact absurd hside ascii_left_ne_right
  | right hparent hderive ih =>
      cases hnode' with
      | root => exact absurd hparent.level_le (by omega)
      | left hparent' hderive' =>
          obtain ⟨-, -, hside⟩ := hinj _ _ _ (.right hparent) (.left hparent') rfl hderive hderive'
          exact absurd hside ascii_left_ne_right.symm
      | right hparent' hderive' =>
          obtain ⟨hsecret, -, -⟩ :=
            hinj _ _ _ (.right hparent) (.right hparent') rfl hderive hderive'
          simp only at hsecret
          rw [ih (hsecret ▸ hparent')]

theorem RatchetSecret.unique {leaf' : ℕ} (hratchet : RatchetSecret S h enc leaf rt generation s)
    (hratchet' : RatchetSecret S h enc leaf' rt' generation s)
    (hgeneration : generation < 2 ^ 32) : leaf = leaf' ∧ rt = rt' := by
  induction hratchet with
  | base hnode hderive =>
      cases hratchet' with
      | base hnode' hderive' =>
          obtain ⟨hsecret, hlabel, -⟩ :=
            hinj _ _ _ (.base _ hnode) (.base _ hnode') rfl hderive hderive'
          simp only at hsecret
          exact ⟨hnode.unique hinj (hsecret ▸ hnode'), RatchetType.label_inj hlabel⟩
  | next hratchet hderive ih =>
      cases hratchet' with
      | next hratchet' hderive' =>
          obtain ⟨hsecret, -, -⟩ :=
            hinj _ _ _ (.next hratchet hgeneration) (.next hratchet' hgeneration) rfl
              hderive hderive'
          simp only at hsecret
          exact ih (hsecret ▸ hratchet') (by omega)

theorem keyNonce_unique (hh : h ≤ 31) (hnew : newSecretTree S (2 ^ h) enc = .ok st)
    {leaf' generation' : ℕ} {key nonce nonce' : Bytes}
    (hrun : st.keyNonce S leaf rt generation = .ok (key, nonce))
    (hrun' : st.keyNonce S leaf' rt' generation' = .ok (key, nonce'))
    (hgeneration : generation < 2 ^ 32) (hgeneration' : generation' < 2 ^ 32) :
    (leaf, rt, generation) = (leaf', rt', generation') := by
  obtain ⟨s, hratchet, hkey⟩ := key_of_keyNonce hh hnew hrun
  obtain ⟨s', hratchet', hkey'⟩ := key_of_keyNonce hh hnew hrun'
  obtain ⟨hsecret, -, hcontext⟩ := hinj _ _ _ (.key hratchet hgeneration)
    (.key hratchet' hgeneration') rfl hkey hkey'
  simp only at hsecret hcontext
  have hsame : generation = generation' := by
    have hnat := congrArg beNat hcontext
    rw [beNat_beBytes, beNat_beBytes] at hnat
    omega
  subst hsame hsecret
  obtain ⟨rfl, rfl⟩ := hratchet.unique hinj hratchet' hgeneration
  rfl

end Unwinding

/-! ## Both together -/

/-- `NewSecretTree` returns and has a ratchet of each type at exactly the leaves
of the tree; it succeeds when the KDF does.  In a full tree keys are told apart
by leaf, ratchet type and generation, provided that no two of the derivations
leading to them collide. -/
theorem secret_tree_covers_and_separates (S : Suite) (enc : Bytes) (hpos : 1 ≤ n)
    (hle : n ≤ 2 ^ 31) :
    Returns (newSecretTree S n enc) ∧
    (KdfLaws S → ∃ st, newSecretTree S n enc = .ok st) ∧
    ∀ st, newSecretTree S n enc = .ok st →
      (∀ leaf, ((st.handshakeBase.get leaf).isSome ↔ leaf < n) ∧
        ((st.applicationBase.get leaf).isSome ↔ leaf < n)) ∧
      ∀ h, n = 2 ^ h → InjectiveOn S (KeyCall S h enc) →
        ∀ leaf leaf' rt rt' generation generation' key key' nonce nonce', generation < 2 ^ 32 →
          generation' < 2 ^ 32 → st.keyNonce S leaf rt generation = .ok (key, nonce) →
          st.keyNonce S leaf' rt' generation' = .ok (key', nonce') →
          (leaf, rt, generation) ≠ (leaf', rt', generation') → key ≠ key' := by
  refine ⟨newSecretTree_returns hpos hle enc,
    fun hkdf => newSecretTree_ok hkdf hpos hle enc, fun st hnew => ⟨?_, ?_⟩⟩
  · have hcover : ∀ rt leaf, ((st.base rt).get leaf).isSome ↔ leaf < n := by
      intro rt leaf
      rw [← not_iff_not, Bool.not_eq_true, Option.isSome_eq_false_iff, Option.isNone_iff_eq_none,
        GoMap.get_eq_none_iff, newSecretTree_bases hpos hle hnew rt]
      simp
    exact fun leaf => ⟨hcover .handshake leaf, hcover .application leaf⟩
  · rintro h rfl hinj leaf leaf' rt rt' generation generation' key key' nonce nonce'
      hgeneration hgeneration' hrun hrun' hne rfl
    have hh : h ≤ 31 := (Nat.pow_le_pow_iff_right (by norm_num)).mp hle
    exact hne (keyNonce_unique hinj hh hnew hrun hrun' hgeneration hgeneration')

/-! ### A suite whose derivations never collide -/

theorem ascii_injective : Function.Injective ascii := by
  intro a b heq
  have hdata : a.toUTF8.data = b.toUTF8.data := Array.toList_inj.mp heq
  exact String.toByteArray_inj.mp (ByteArray.ext hdata)

def markedInput (secret info : Bytes) : Bytes := secret.flatMap (fun b => [1, b]) ++ 0 :: info

theorem markedInput_inj : ∀ {secret secret' info info' : Bytes},
    markedInput secret info = markedInput secret' info' → secret = secret' ∧ info = info'
  | [], [], _, _, heq => by simpa [markedInput] using heq
  | [], _ :: _, _, _, heq => by simp [markedInput] at heq
  | _ :: _, [], _, _, heq => by simp [markedInput] at heq
  | b :: secret, b' :: secret', info, info', heq => by
      have htail : b = b' ∧ markedInput secret info = markedInput secret' info' := by
        simpa [markedInput] using heq
      obtain ⟨hsecret, hinfo⟩ := markedInput_inj htail.2
      exact ⟨by rw [htail.1, hsecret], hinfo⟩

def markedSuite : Suite :=
  { plainSuite with kdfExpand := fun secret info _ => .ok (markedInput secret info) }

theorem markedSuite_injectiveOn (calls : KdfCall → Prop) : InjectiveOn markedSuite calls := by
  rintro ⟨secret, label, context, length⟩ ⟨secret', label', context', length'⟩ x
    - - hlength hout hout'
  simp only at hlength
  subst hlength
  simp only [KdfCall.output, Suite.expandWithLabel] at hout hout'
  split at hout
  · cases hout
  next hrange =>
    rw [if_neg hrange] at hout'
    simp only [bind_eq_ok, liftErr_eq_ok, markedSuite, Except.ok.injEq] at hout hout'
    obtain ⟨lbl, hlbl, ctx, hctx, hx⟩ := hout
    obtain ⟨lbl', hlbl', ctx', hctx', hx'⟩ := hout'
    obtain ⟨hsecret, hinfo⟩ := markedInput_inj (hx.trans hx'.symm)
    -- both parts carry their length, so the reader finds the same ones
    have hread := roundTrips_opaqueV _ _ hlbl ctx
    rw [List.append_cancel_left hinfo, roundTrips_opaqueV _ _ hlbl' ctx'] at hread
    obtain ⟨hlabel, rfl⟩ := Prod.mk.inj (Except.ok.inj hread)
    have hcontext := roundTrips_opaqueV _ _ hctx []
    rw [roundTrips_opaqueV _ _ hctx' []] at hcontext
    exact ⟨hsecret, ascii_injective (List.append_cancel_left hlabel.symm),
      (Prod.mk.inj (Except.ok.inj hcontext)).1.symm⟩

/-- Two leaves: both have their ratchets, and the keys of the first generation
of their handshake ratchets differ. -/
theorem secret_tree_covers_and_separates_pair :
    Returns (newSecretTree markedSuite 2 [5]) ∧
    (∃ st, newSecretTree plainSuite 2 [5] = .ok st) ∧
    ∃ st key key' nonce nonce', newSecretTree markedSuite 2 [5] = .ok st ∧
      (∀ leaf, (st.handshakeBase.get leaf).isSome ↔ leaf < 2) ∧
      st.keyNonce markedSuite 0 .handshake 1 = .ok (key, nonce) ∧
      st.keyNonce markedSuite 1 .handshake 1 = .ok (key', nonce') ∧ key ≠ key' := by
  obtain ⟨st, hnew, ⟨⟨key, nonce⟩, hkey⟩, ⟨key', nonce'⟩, hkey'⟩ :
      ∃ st, newSecretTree markedSuite 2 [5] = .ok st ∧
        (∃ key, st.keyNonce markedSuite 0 .handshake 1 = .ok key) ∧
        ∃ key, st.keyNonce markedSuite 1 .handshake 1 = .ok key := by decide +kernel
  obtain ⟨hreturns, -, hmarked⟩ := secret_tree_covers_and_separates (n := 2)
    markedSuite [5] (by decide) (by decide)
  obtain ⟨-, hok, -⟩ := secret_tree_covers_and_separates (n := 2) plainSuite [5]
    (by decide) (by decide)
  obtain ⟨hcover, hseparate⟩ := hmarked st hnew
  exact ⟨hreturns, hok plainSuite_kdfLaws, st, key, key', nonce, nonce', hnew,
    fun leaf => (hcover leaf).1, hkey, hkey',
    hseparate 1 rfl (markedSuite_injectiveOn _) _ _ _ _ _ _ _ _ _ _ (by decide)
      (by decide) hkey hkey' (by decide)⟩

end MlsGo
