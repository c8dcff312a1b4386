import MlsGo.JoinerKeys
import MlsGo.PathReturns

/-!
# Calls that only the length limit stops

With primitives that do not fail on the keys they are given, nothing stops the
signing of a leaf, the key schedule or the generation of a path but a vector that
is too long for the wire form.
-/

namespace MlsGo

open InOrderLayout

variable {S : Suite} {fc : FramedContent}

structure TotalLaws (S : Suite) : Prop where
  extract_ok : ∀ salt ikm, ∃ out, S.extract salt ikm = .ok out
  publicKey_ok : ∀ signer, ∃ pub, S.signaturePublicKey signer = .ok pub
  sign_ok : ∀ signer message, ∃ sig, S.signClassical signer message = .ok sig
  generate_ok : ∀ seed, ∃ keys, S.generateHPKEKeyPair seed = .ok keys
  seal_ok : ∀ {priv pub} info plaintext seed, S.Matching priv pub →
    ∃ sealed, S.sealBase pub info plaintext seed = .ok sealed
  encap_ok : ∀ {priv pub} seed, S.Matching priv pub → ∃ out, S.externalInitEncap pub seed = .ok out

theorem plainSuite_totalLaws : TotalLaws plainSuite :=
  ⟨fun _ _ => ⟨_, rfl⟩, fun _ => ⟨_, rfl⟩, fun _ _ => ⟨_, rfl⟩, fun _ => ⟨_, rfl⟩,
    fun _ _ _ _ => ⟨_, rfl⟩, fun _ _ => ⟨_, rfl⟩⟩

theorem stops_of_exists {α : Type} {result : Result α}
    (hok : ∃ value, result = .ok value) : StopsAtLimit result := by
  obtain ⟨value, rfl⟩ := hok
  exact stops_ok value

theorem stops_liftErr {α : Type} {result : Except Err α}
    (hok : ∃ value, result = .ok value) : StopsAtLimit (liftErr result) := by
  obtain ⟨value, rfl⟩ := hok
  exact stops_ok value

/-! ## Key schedule -/

theorem expandWithLabel_stops (hkdf : KdfLaws S) (secret : Bytes)
    (label : String) (context : Bytes) :
    StopsAtLimit (S.expandWithLabel secret label context S.hashLen) := by
  have hexpand : ∀ info, StopsAtLimit (liftErr (S.kdfExpand secret info S.hashLen)) := by
    intro info
    obtain ⟨out, hout, -⟩ := hkdf.kdfExpand_ok secret info
    exact stops_liftErr ⟨out, hout⟩
  rw [Suite.expandWithLabel, if_neg (Nat.not_lt.mpr hkdf.hashLen_le)]
  simp [hexpand]

theorem deriveSecret_stops (hkdf : KdfLaws S) (secret : Bytes)
    (label : String) : StopsAtLimit (S.deriveSecret secret label) :=
  expandWithLabel_stops hkdf secret label []

theorem deriveEpochSecrets_stops (hkdf : KdfLaws S) (htotal : TotalLaws S) (initSecret : Bytes)
    (commitSecret psk : Option Bytes) (groupContext : Bytes) :
    StopsAtLimit (deriveEpochSecrets S initSecret commitSecret psk groupContext) := by
  have hextract : ∀ salt ikm, StopsAtLimit (liftErr (S.extract salt ikm)) :=
    fun salt ikm => stops_liftErr (htotal.extract_ok salt ikm)
  simp [deriveEpochSecrets, joinerSecretOf, epochSecretsFromJoiner, hextract,
    expandWithLabel_stops hkdf, deriveSecret_stops hkdf]

theorem deriveNode_ok (hkdf : KdfLaws S) {n : ℕ} (hpos : 0 < n) (hle : n ≤ 2 ^ 31) :
    ∀ k j, inorder k j < 2 * n - 1 → ∀ fuel secret (st : SecretTree), st.nLeaves = n → k < fuel →
      ∃ st', st.deriveNode S fuel (inorder k j) secret = .ok st' := by
  refine truncated_induction hpos hle ?leaf ?node
  case leaf =>
    intro j hj fuel secret st hleaves hfuel
    obtain ⟨fuel, rfl⟩ := Nat.exists_eq_succ_of_ne_zero hfuel.ne'
    have hlt : inorder 0 j < 2 ^ 32 := by
      rw [inorder_zero]
      omega
    obtain ⟨hs, hhs, -⟩ := expandWithLabel_ok hkdf secret "handshake" [] (by decide) (by simp)
    obtain ⟨app, happ, -⟩ := expandWithLabel_ok hkdf secret "application" [] (by decide) (by simp)
    simp only [SecretTree.deriveNode, left_inorder_zero hlt, hhs, happ, ok_bind]
    exact ⟨_, rfl⟩
  case node =>
    intro k j k' j' hk' hleft hright _ ihleft ihright fuel secret st hleaves hfuel
    obtain ⟨fuel, rfl⟩ := Nat.exists_eq_succ_of_ne_zero (show fuel ≠ 0 by omega)
    obtain ⟨ls, hls, -⟩ := expandWithLabel_ok hkdf secret "tree" (ascii "left")
      (by decide) (by decide)
    obtain ⟨rs, hrs, -⟩ := expandWithLabel_ok hkdf secret "tree" (ascii "right")
      (by decide) (by decide)
    obtain ⟨st₁, hst₁⟩ := ihleft fuel ls st hleaves (by omega)
    obtain ⟨st₂, hst₂⟩ := ihright fuel rs st₁
      ((nLeaves_of_deriveNode hst₁).trans hleaves) (by omega)
    simp only [SecretTree.deriveNode, hleft, hleaves, hright, hls, hrs, hst₁, hst₂, ok_bind]
    exact ⟨st₂, rfl⟩

theorem newSecretTree_ok (hkdf : KdfLaws S) {n : ℕ} (hpos : 0 < n)
    (hle : n ≤ 2 ^ 31) (secret : Bytes) :
    ∃ st, newSecretTree S n secret = .ok st := by
  obtain ⟨height, hroot, hin, -, hheight⟩ := root_eq hpos hle
  obtain ⟨st, hst⟩ := deriveNode_ok hkdf hpos hle height 0 hin 34 secret ⟨n, [], []⟩ rfl (by omega)
  exact ⟨st, by rw [newSecretTree, if_neg hpos.ne', hroot, hst]⟩

/-! ## Signatures -/

section Signing

variable (htotal : TotalLaws S) (signer : Signer)

include htotal

theorem signWithLabel_stops (label : String) (content : Bytes) :
    StopsAtLimit (S.signWithLabel (some signer) label content) := by
  simp only [Suite.signWithLabel, stops_bind, labeledContext_stops, true_and]
  exact fun tbs _ => stops_liftErr (htotal.sign_ok signer tbs)

theorem publicKeyOf_ok : ∃ pub, S.publicKeyOf (some signer) = .ok pub := by
  obtain ⟨pub, hpub⟩ := htotal.publicKey_ok signer
  exact ⟨pub, by rw [Suite.publicKeyOf, hpub]; rfl⟩

theorem signLeafNode_stops (ln : LeafNode) (groupID : Bytes) (leafIndex : ℕ) :
    StopsAtLimit (signLeafNode S (some signer) ln groupID leafIndex) := by
  simp [signLeafNode, signWithLabel_stops htotal]

theorem newKeyPackage_stops (cred : Credential) (lifetime : Lifetime) (seeds : KeyPackageSeeds) :
    StopsAtLimit (newKeyPackage S cred (some signer) lifetime seeds) := by
  have hgenerate : ∀ seed, StopsAtLimit (liftErr (S.generateHPKEKeyPair seed)) :=
    fun seed => stops_liftErr (htotal.generate_ok seed)
  simp [newKeyPackage, hgenerate, stops_of_exists (publicKeyOf_ok htotal signer),
    signLeafNode_stops htotal, KeyPackage.marshalTBS, writeExtensions, signWithLabel_stops htotal]

omit htotal in
theorem commitContent_marshal_stops
    (htype : fc.contentType = contentTypeCommit) : StopsAtLimit fc.marshal := by
  simp [FramedContent.marshal, marshalContent, htype, contentTypeCommit, contentTypeApplication]

theorem signCommit_stops (gc : GroupContext)
    (htype : fc.contentType = contentTypeCommit) (wf : WireFormat) :
    StopsAtLimit (signCommit S (some signer) gc fc wf) := by
  have htbs : StopsAtLimit (framedContentTBS wf fc gc) := by
    unfold framedContentTBS
    cases fc.sender <;> simp [commitContent_marshal_stops htype]
  simp [signCommit, signContent, htbs, signWithLabel_stops htotal,
    commitContent_marshal_stops htype]

end Signing

/-! ## Paths -/

def Node.encryptionKey : Node → Bytes
  | .leaf l => l.encryptionKey
  | .parent p => p.encryptionKey

namespace RatchetTree

variable {t t' : RatchetTree} {h L : ℕ}

def KeysPaired (S : Suite) (t : RatchetTree) : Prop :=
  ∀ d pub, t.nodePublicKey d = .ok pub → ∃ priv, S.Matching priv pub

theorem nodePublicKey_eq_ok {k j : ℕ} {pub : Bytes} :
    t.nodePublicKey (inorder k j) = .ok pub ↔
      ∃ n, t.slot k j = some n ∧ n.encryptionKey = pub := by
  rw [nodePublicKey, index, slot]
  rcases t.nodes[inorder k j]? with _ | _ | (l | p) <;> simp [Node.encryptionKey]

theorem keysPaired_iff :
    KeysPaired S t ↔ ∀ k j n, t.slot k j = some n → ∃ priv, S.Matching priv n.encryptionKey := by
  constructor
  · intro hpaired k j n hn
    exact hpaired _ _ (nodePublicKey_eq_ok.mpr ⟨n, hn, rfl⟩)
  · intro hslots d pub hpub
    obtain ⟨k, j, rfl⟩ := exists_inorder d
    obtain ⟨n, hn, rfl⟩ := nodePublicKey_eq_ok.mp hpub
    exact hslots k j n hn

theorem KeysPaired.removeLeaf (hpaired : KeysPaired S t) (hf : t.Full h)
    {leaf : ℕ} (hremove : t.removeLeaf leaf = .ok t') : KeysPaired S t' := by
  obtain ⟨h', -, -, -, hslots, -⟩ := hf.removeLeaf_ok hremove
  rw [keysPaired_iff]
  intro k j n hn
  rw [hslots] at hn
  split at hn
  · cases hn
  · exact keysPaired_iff.mp hpaired k j n hn

theorem KeysPaired.addLeaf (hpaired : KeysPaired S t) (hf : t.Full h)
    {ln : LeafNode} (hadd : t.addLeaf ln = .ok (L, t')) {priv : Bytes}
    (hmatch : S.Matching priv ln.encryptionKey) : KeysPaired S t' := by
  obtain ⟨-, -, -, hslots⟩ := hf.addLeaf_ok hadd
  rw [keysPaired_iff] at hpaired ⊢
  intro k j n hn
  rw [hslots] at hn
  split_ifs at hn
  · cases hn
    exact ⟨priv, hmatch⟩
  · -- the new leaf is noted in the parents above it, whose keys stay
    cases hslot : t.slot k j with
    | none => simp [hslot, addUnmerged] at hn
    | some m =>
        have hkey : n.encryptionKey = m.encryptionKey := by
          rw [hslot] at hn
          cases m <;> cases hn <;> rfl
        rw [hkey]
        exact hpaired k j m hslot
  · exact hpaired k j n hn

theorem pathSecretsFrom_ok (hkdf : KdfLaws S) (n : ℕ) (src : Bytes) :
    ∃ secrets, pathSecretsFrom S src n = .ok secrets := by
  induction n generalizing src with
  | zero => exact ⟨[], rfl⟩
  | succ n ih =>
      obtain ⟨ps, hps, -⟩ := deriveSecret_ok hkdf src "path" (by decide)
      obtain ⟨rest, hrest⟩ := ih ps
      exact ⟨ps :: rest, by simp [pathSecretsFrom, hps, hrest]⟩

theorem nodePublicKeys_ok (hkdf : KdfLaws S) (secrets : List Bytes) :
    ∃ pubs, nodePublicKeys S secrets = .ok pubs := by
  induction secrets with
  | nil => exact ⟨[], rfl⟩
  | cons ps rest ih =>
      obtain ⟨key, pub, hpair⟩ := nodeKeyPair_ok hkdf ps
      obtain ⟨pubs, hpubs⟩ := ih
      exact ⟨pub :: pubs, by simp [nodePublicKeys, hpair, hpubs]⟩

theorem recipientKeys_ok (hpaired : KeysPaired S t) (skipped : List ℕ)
    {nodes : List ℕ} (hnodes : ∀ d ∈ nodes, ∃ pub, t.nodePublicKey d = .ok pub) :
    ∃ pubs, t.recipientKeys skipped nodes = .ok pubs ∧
      ∀ pub ∈ pubs, ∃ priv, S.Matching priv pub := by
  induction nodes with
  | nil => exact ⟨[], rfl, by simp⟩
  | cons d ds ih =>
      rw [List.forall_mem_cons] at hnodes
      obtain ⟨⟨pub, hpub⟩, hds⟩ := hnodes
      obtain ⟨pubs, hpubs, hpairs⟩ := ih hds
      by_cases hskip : skipped.contains d = true
      · exact ⟨pubs, by rw [recipientKeys, if_pos hskip, hpubs], hpairs⟩
      · refine ⟨pub :: pubs, ?_, ?_⟩
        · rw [recipientKeys, if_neg hskip, hpub, ok_bind, hpubs, ok_bind, pure_eq_ok]
        rw [List.forall_mem_cons]
        exact ⟨hpaired d pub hpub, hpairs⟩

theorem Full.copathRecipients_ok (hf : t.Full h) (hw : WellFormed t.slot)
    (hpaired : KeysPaired S t) (hL : L < 2 ^ h) (skipped levels : List ℕ)
    (hlevels : ∀ k ∈ levels, k < h) :
    ∃ resPubs, t.copathRecipients (inorder 0 L) skipped (levels.map (pathNode L)) = .ok resPubs ∧
      ∀ pubs ∈ resPubs, ∀ pub ∈ pubs, ∃ priv, S.Matching priv pub := by
  induction levels with
  | nil => exact ⟨[], rfl, by simp⟩
  | cons k levels ih =>
      obtain ⟨hchild, hres⟩ := hf.resolution_copath hL (hlevels k (by simp))
      have hkeys : ∀ d ∈ t.resolutionAt k (siblingRank (L / 2 ^ k)),
          ∃ pub, t.nodePublicKey d = .ok pub := by
        intro d hd
        obtain ⟨i, m, rfl, -, hne⟩ := hf.mem_resolutionAt hw _ _ d hd
        obtain ⟨n, hn⟩ := Option.ne_none_iff_exists'.mp hne
        exact ⟨_, nodePublicKey_eq_ok.mpr ⟨n, hn, rfl⟩⟩
      obtain ⟨pubs, hpubs, hpairs⟩ := recipientKeys_ok hpaired skipped hkeys
      obtain ⟨others, hothers, hothersPairs⟩ := ih fun i hi => hlevels i (by simp [hi])
      refine ⟨pubs :: others, ?_, ?_⟩
      · rw [List.map_cons, copathRecipients, hchild, ok_bind, hres, ok_bind, hpubs,
          ok_bind, hothers, ok_bind, pure_eq_ok]
      · rw [List.forall_mem_cons]
        exact ⟨hpairs, hothersPairs⟩

theorem encryptPathSecret_stops (htotal : TotalLaws S) (groupContext pathSecret : Bytes)
    {pubs : List Bytes} (hpairs : ∀ pub ∈ pubs, ∃ priv, S.Matching priv pub) (seeds : ℕ → Bytes) :
    StopsAtLimit (encryptPathSecret S groupContext pathSecret seeds pubs) := by
  induction pubs generalizing seeds with
  | nil => simp [encryptPathSecret]
  | cons pub pubs ih =>
      rw [List.forall_mem_cons] at hpairs
      obtain ⟨⟨priv, hmatch⟩, hpubs⟩ := hpairs
      have hencrypt : StopsAtLimit (S.encryptWithLabel pub "UpdatePathNode"
          groupContext pathSecret (seeds 0)) := by
        simp only [Suite.encryptWithLabel, stops_bind, labeledContext_stops, true_and]
        exact fun info _ => stops_liftErr (htotal.seal_ok _ _ _ hmatch)
      simp [encryptPathSecret, hencrypt, ih hpubs]

theorem encryptPath_stops (htotal : TotalLaws S) (groupContext : Bytes)
    {items : List (Bytes × Bytes × List Bytes)}
    (hpairs : ∀ item ∈ items, ∀ pub ∈ item.2.2, ∃ priv, S.Matching priv pub)
    (seeds : ℕ → ℕ → Bytes) :
    StopsAtLimit (encryptPath S groupContext seeds items) := by
  induction items generalizing seeds with
  | nil => simp [encryptPath]
  | cons item rest ih =>
      rw [List.forall_mem_cons] at hpairs
      simp [encryptPath, encryptPathSecret_stops htotal _ _ hpairs.1, ih hpairs.2]

theorem Full.generateUpdatePath_stops (hkdf : KdfLaws S) (htotal : TotalLaws S) (hf : t.Full h)
    (hw : WellFormed t.slot) (hpaired : KeysPaired S t) {senderLeaf : ℕ}
    (hmember : t.slot 0 (senderLeaf % 2 ^ 31) ≠ none) {mkGroupContext : Bytes → Result Bytes}
    (hcontext : ∀ treeHash, StopsAtLimit (mkGroupContext treeHash)) (leafSecret : Bytes)
    (signer : Signer) (groupID : Bytes) (newlyAdded : List ℕ) (seeds : ℕ → ℕ → Bytes) :
    StopsAtLimit (t.generateUpdatePath S senderLeaf leafSecret (some signer)
      groupID newlyAdded mkGroupContext seeds) := by
  have hL := hf.member_lt hmember
  have hin : Inside h 0 (senderLeaf % 2 ^ 31) := ⟨Nat.zero_le _, by simpa using hL⟩
  obtain ⟨n, hn⟩ := Option.ne_none_iff_exists'.mp hmember
  obtain ⟨orig, rfl⟩ := hw.leaf_slot _ n hn
  have hlevels : ∀ k ∈ t.pathLevels h (senderLeaf % 2 ^ 31), k < h :=
    fun k hk => (mem_pathLevels.mp hk).1
  obtain ⟨secrets, hsecrets⟩ := pathSecretsFrom_ok hkdf
    (t.pathLevels h (senderLeaf % 2 ^ 31)).length leafSecret
  obtain ⟨commitSecret, hcommit, -⟩ := deriveSecret_ok hkdf
    (secrets.getLast?.getD leafSecret) "path" (by decide)
  obtain ⟨key, pub, hpair⟩ := nodeKeyPair_ok hkdf leafSecret
  obtain ⟨pubs, hpubs⟩ := nodePublicKeys_ok hkdf secrets
  obtain ⟨resPubs, hresPubs, hpairs⟩ := hf.copathRecipients_ok hw hpaired hL
    (addedNodes newlyAdded) _ hlevels
  have hlen : pubs.length = (t.pathLevels h (senderLeaf % 2 ^ 31)).length := by
    rw [nodePublicKeys_length hpubs, pathSecretsFrom_length hsecrets]
  simp only [generateUpdatePath, u32_double, hf.index_eq hin, hn, ok_bind, hf.filteredDirectPath_eq
    rfl hL, List.length_map, hsecrets, commitSecretOf, hcommit, hpair, hpubs, hresPubs]
  rw [stops_bind]
  constructor
  · rw [hf.installPath_eq rfl hL hlen]
    simp [pathEntries_stops]
  · intro installed hinstalled
    obtain ⟨entries, rfl, hset⟩ := hf.installed_of_installPath rfl hL hinstalled
    have hkeys := (hset orig).2.keys_eq
    rw [← hkeys, hf.leafParentHash_eq rfl hL (by rw [hkeys]; exact hlevels)]
    simp only [stops_bind, parentHashBelow_stops, signLeafNode_stops htotal, true_and]
    intro parentHash _ leaf _
    have hnode := (hset leaf).1
    rw [u32_double] at hnode
    rw [hnode]
    simp only [stops_ok, true_and, Except.ok.injEq, forall_eq', pure_eq_ok,
      (hset leaf).2.full.rootTreeHash_stops, hcontext]
    intro treeHash _ groupContext _
    refine ⟨encryptPath_stops htotal groupContext ?_ seeds, fun _ _ => trivial⟩
    rintro ⟨nodePub, pathSecret, recipients⟩ hmem
    exact hpairs recipients (List.of_mem_zip (List.of_mem_zip hmem).2).2

end RatchetTree

end MlsGo
