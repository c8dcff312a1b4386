import MlsGo.CommitValidity
import MlsGo.ExternalAgreement
import MlsGo.LimitErrors
import MlsGo.WireLimit

/-!
# Entry by an external commit

Whoever has the group information of a member can enter: nothing but the length
limit of the wire form stops `ExternalCommit`.  Every member of the epoch whose
keys fit then follows, unless the tree with the joiner's leaf has no wire form or
a parent hash on the copath interferes.
-/

namespace MlsGo

open InOrderLayout RatchetTree

variable {S : Suite} {g : Group} {gi : GroupInfo} {past : List Group} {t : RatchetTree}

theorem Membership.treeHash_eq (hrun : Membership S g past) :
    g.tree.rootTreeHash S = .ok g.groupContext.treeHash := by
  induction hrun with
  | newGroup groupID cred signer lifetime seeds hnew =>
      simp only [MlsGo.newGroup, bind_eq_ok, pure_ok_iff] at hnew
      obtain ⟨⟨kp, _, leafPriv⟩, -, treeHash, hhash, gcBytes, -, es, -, st, -, rfl⟩ := hnew
      exact hhash
  | joinFromWelcome welcome opt _ hjoin _ _ =>
      obtain ⟨run, rfl⟩ := joinRun_of_joinFromWelcome hjoin
      exact run.authenticated.1.treeHash
  | externalCommit gi cred signer lifetime rnd _ _ henter _ =>
      obtain ⟨run, rfl, -⟩ := entryRun_of_externalCommit henter
      exact run.newTreeHash_eq
  | sameEpoch _ hstep ih =>
      obtain ⟨app, handshake, encrypt, pending, rfl⟩ := hstep.eq_update
      exact ih
  | nextEpoch hprior hstep _ => exact (hstep.nextEpoch hprior.invariant.1).fields.treeHash_eq

/-! ## The joiner is stopped by the length limit only -/

section Stops

variable (hkdf : KdfLaws S)

include hkdf

theorem senderPriv_ok (secretText keyText : String) (nodeText : ℕ → String)
    (ownLeaf : ℕ) (leafSecret : Bytes) (pathSecretByNode : GoMap ℕ Bytes) :
    ∃ priv, senderPriv S secretText keyText nodeText ownLeaf leafSecret
      pathSecretByNode = .ok priv := by
  have hadd : ∀ (secrets : List (ℕ × Bytes)) (priv : TreeKEMPrivate),
      ∃ priv', addPathSecrets S nodeText priv secrets = .ok priv' := by
    intro secrets
    induction secrets with
    | nil => exact fun priv => ⟨priv, rfl⟩
    | cons entry rest ih =>
        intro priv
        obtain ⟨priv₁, hpriv₁⟩ := addPathSecret_ok hkdf priv entry.1 entry.2
        obtain ⟨priv₂, hpriv₂⟩ := ih priv₁
        exact ⟨priv₂, by simp [addPathSecrets, hpriv₁, hpriv₂]⟩
  obtain ⟨nodeSecret, hsecret, hlen⟩ := deriveSecret_ok hkdf leafSecret "node" (by decide)
  obtain ⟨keys, hkeys⟩ := hkdf.deriveKeyPair_ok nodeSecret hlen
  obtain ⟨priv, hpriv⟩ := hadd pathSecretByNode (TreeKEMPrivate.new ownLeaf keys.1)
  exact ⟨priv, by simp [senderPriv, hsecret, hkeys, hpriv]⟩

variable (htotal : TotalLaws S)

omit hkdf in
theorem openPublishedTree_eq (hpub : Publishes S g gi) (hinv : g.tree.RepresentationInvariant)
    (hmember : g.ownLeaf ∈ g.tree.members) (hvalid : TreeValid S g.groupContext.groupID g.tree)
    (hhash : g.tree.rootTreeHash S = .ok g.groupContext.treeHash) :
    openPublishedTree S gi = .ok g.tree ∧ ∃ h < 30, g.tree.Full h := by
  obtain ⟨rtree, hwrite, hext⟩ := hpub.tree
  have hparse := hinv.parse_marshal ⟨g.ownLeaf, hmember⟩ hwrite
  rw [openPublishedTree_eq_ok]
  refine ⟨⟨⟨rtree, hext, hparse⟩, hvalid.parentHashes, ?_, ?_⟩, parseRatchetTree_full hparse⟩
  · rw [hpub.groupContext_eq]
    exact verifyLeafSignatures_eq_ok.mp hvalid.leafSignatures
  · rw [hpub.groupContext_eq]
    exact hhash

omit hkdf in
theorem removePriorLeaf_ok {h : ℕ} (hf : t.Full h) (hpaired : KeysPaired S t) (sigPub : Bytes) :
    ∃ vacated oldLeaf, ∃ h' ≤ h,
      removePriorLeaf t sigPub = .ok (vacated, oldLeaf) ∧ vacated.Full h' ∧
        KeysPaired S vacated := by
  cases hfind : findLeafBySignatureKey t sigPub with
  | none => exact ⟨t, none, h, le_rfl, by simp [removePriorLeaf, hfind], hf, hpaired⟩
  | some L =>
      obtain ⟨l, hslot, -⟩ := findLeafBySignatureKey_eq_some hfind
      have hL : L < 2 ^ h := hf.member_lt (by simp [hslot])
      have hle := hf.two_pow_le
      obtain ⟨vacated, h', hh', hremove, hf', -⟩ := hf.removeLeaf_spec
        (Nat.mod_eq_of_lt (show L < 2 ^ 31 by omega)) hL
      exact ⟨vacated, some L, h', hh', by rw [removePriorLeaf, hfind]; simp [hremove], hf',
        hpaired.removeLeaf hf hremove⟩

omit hkdf in
theorem RatchetTree.Full.exists_addLeaf {h : ℕ} (hf : t.Full h)
    (hh : h < 30) (ln : LeafNode) : ∃ L t', t.addLeaf ln = .ok (L, t') := by
  have hex : ∃ M, t.slot 0 M = none := ⟨2 ^ h, hf.slot_eq_none fun hin => by simpa using hin.2⟩
  obtain ⟨t', hadd, -⟩ := hf.addLeaf_spec (Nat.find_spec hex)
    (fun M hM => Nat.find_min hex hM) (.inr hh) ln
  exact ⟨_, t', hadd⟩

include htotal

theorem externalCommit_stops (hpub : Publishes S g gi) (hinv : g.tree.RepresentationInvariant)
    (hmember : g.ownLeaf ∈ g.tree.members) (hvalid : TreeValid S g.groupContext.groupID g.tree)
    (hhash : g.tree.rootTreeHash S = .ok g.groupContext.treeHash) (hpaired : KeysPaired S g.tree)
    (cred : Credential) (signer : Signer) (lifetime : Lifetime) (rnd : ExternalRandomness) :
    StopsAtLimit (externalCommit S gi cred (some signer) lifetime rnd) := by
  obtain ⟨extPriv, extPub, hkeys, hext⟩ := hpub.externalPub
  obtain ⟨⟨kemOutput, initSecret⟩, hencap⟩ := htotal.encap_ok rnd.kemSeed
    (.inl ⟨_, liftErr_eq_ok.mp hkeys⟩)
  obtain ⟨hopen, h, hh, hf⟩ := openPublishedTree_eq hpub hinv hmember hvalid hhash
  obtain ⟨sigPub, hsigPub⟩ := publicKeyOf_ok htotal signer
  obtain ⟨vacated, oldLeaf, h', hle, hvacated, hf', hpaired'⟩ :=
    removePriorLeaf_ok hf hpaired sigPub
  have hinv' := removePriorLeaf_invariant hinv hvacated
  simp only [externalCommit, hext, hencap, hopen, hsigPub, hvacated, liftErr_ok,
    within_ok, pure_eq_ok, ok_bind]
  rw [stops_bind, stops_within]
  refine ⟨newKeyPackage_stops htotal signer cred lifetime _, ?_⟩
  rintro ⟨kp, privs⟩ hkp
  rw [within_eq_ok] at hkp
  obtain ⟨-, -, -, hmatch⟩ := newKeyPackage_ok hkp
  obtain ⟨liC, wt, hadd⟩ := hf'.exists_addLeaf (by omega) kp.leafNode
  have hwt := addLeaf_invariant hinv' hadd
  obtain ⟨hw, hfw, -⟩ := hwt.full
  have hseat : wt.slot 0 (liC % 2 ^ 31) ≠ none := by
    have hslot := (hf'.added_of_addLeaf hadd).slot_leaf
    have hlt := hwt.member_lt (L := liC) (by simp [members, hslot])
    rw [Nat.mod_eq_of_lt (by omega), hslot]
    simp
  simp only [hadd, within_ok, ok_bind]
  rw [stops_bind, stops_within]
  refine ⟨hfw.generateUpdatePath_stops hkdf htotal hwt.wellFormed
    (hpaired'.addLeaf hf' hadd hmatch) hseat (fun _ => groupContext_marshal_stops _)
    _ _ _ _ _, ?_⟩
  intro path hpath
  obtain ⟨hp, hfp, -⟩ := (generateUpdatePath_invariant hwt (within_eq_ok.mp hpath)).full
  have hsecretTree : ∀ secret, StopsAtLimit (newSecretTree S path.tree.leafCount secret) := by
    intro secret
    exact stops_of_exists (newSecretTree_ok hkdf hfp.leafCount_pos hfp.leafCount_le secret)
  have hpriv := fun text node => stops_of_exists (senderPriv_ok hkdf
    "group: ExternalCommit: DeriveSecret(node)" "group: ExternalCommit: DeriveKeyPair(leaf)" text
    liC node path.pathSecretByNode)
  simp [signCommit_stops htotal, deriveEpochSecrets_stops hkdf htotal, hfp.rootTreeHash_stops,
    MLSMessage.marshal, PublicMessage.marshal, commitContent_marshal_stops, hpriv, hsecretTree]

end Stops

/-! ## The members follow -/

/-- Member `r` accepts the commit of the joiner, gives it the leaf that the joiner
gave itself, and enters the joiner's epoch. -/
def FollowsJoiner (S : Suite) (r joiner : Group) (commit : Bytes) : Prop :=
  ∃ (m : MLSMessage) (run : ExternalRun S r m),
    unmarshalMLSMessage commit = .ok m ∧
      r.processCommit S [] commit = .ok run.result ∧
      run.liC = joiner.ownLeaf ∧ SameEpoch joiner run.result

theorem Publishes.of_sameEpoch (hpub : Publishes S g gi) {r : Group}
    (hcontext : r.groupContext = g.groupContext) (htree : r.tree = g.tree)
    (hepoch : r.epoch = g.epoch) : Publishes S r gi := by
  obtain ⟨hgc, htag, hrtree, hext⟩ := hpub
  exact ⟨by rw [hcontext, hgc], by rw [hcontext, hepoch, htag], by rwa [htree], by rwa [hepoch]⟩

namespace EntryRun

variable {cred : Credential} {signer : Option Signer} {lifetime : Lifetime}
  {rnd : ExternalRandomness} {run : EntryRun S gi cred signer lifetime rnd}
  {r : Group} {placed : RatchetTree}

theorem leafNodeAt_eq (hp : run.Placed placed) :
    run.path.tree.leafNodeAt run.liC = .ok run.leaf := by
  obtain ⟨h, hf, -⟩ := hp.invariant.full
  obtain ⟨p⟩ := hp.pathRun
  obtain ⟨entries, -, hi⟩ := p.installed_tree hf
  refine leafNodeAt_of_slot hi.full ?_
  rw [hi.slot_eq, Nat.mod_eq_of_lt (by have := hp.liC_lt; omega)]
  simp [leaf]

theorem processCommit_eq_ok_iff {r' : Group} :
    r.processCommit S [] run.commitBytes = .ok r' ↔
      ∃ xr : ExternalRun S r run.message, xr.result = r' := by
  rw [processCommit_eq_ok]
  constructor
  · rintro (⟨o, -, -⟩ | ⟨-, m, xr, -, hm, -, hresult⟩)
    · have hmember := o.member
      rw [← Except.ok.inj (run.unmarshal_commit.symm.trans o.message_eq)] at hmember
      cases hmember
    · cases run.unmarshal_commit.symm.trans hm
      exact ⟨xr, hresult⟩
  · rintro ⟨xr, hresult⟩
    exact .inr ⟨([], []), run.message, xr, rfl, run.unmarshal_commit, rfl, hresult⟩

variable (hpub : Publishes S r gi) (hinv : r.tree.RepresentationInvariant)

include hpub hinv

theorem followsJoiner_iff (hlaws : SuiteLaws S) (hkdf : KdfLaws S) (hinterim : InterimAgrees S r)
    (hp : run.Placed placed) (hvalid : r.tree.verifyParentHashes S = .ok true)
    (hcan : r.CanAdmit S run.leaf placed) :
    FollowsJoiner S r run.result run.commitBytes ↔
      (∃ data, placed.marshal = .ok data) ∧ CopathUnmatched S run.path.tree run.liC := by
  rw [← verifyParentHashes_iff hpub hinv hp hvalid]
  constructor
  · rintro ⟨m, xr, hm, -⟩
    rw [run.unmarshal_commit, Except.ok.injEq] at hm
    subst hm
    exact of_externalRun hpub hinv hlaws hp xr
  · rintro ⟨⟨data, hwrite⟩, htree⟩
    obtain ⟨xr, -, -, hliC, hsame, -⟩ := exists_externalRun hpub hinv hlaws hkdf hinterim
      hp hcan hwrite htree
    exact ⟨run.message, xr, run.unmarshal_commit, processCommit_eq_ok_iff.mpr ⟨xr, rfl⟩,
      hliC, hsame⟩

theorem copathUnmatched_of_honestRun (hp : run.Placed placed)
    (hvalid : r.tree.verifyParentHashes S = .ok true) (hcan : r.CanAdmit S run.leaf placed)
    {trees : List RatchetTree} {keys : List Bytes} (hhonest : HonestRun S (r.tree :: trees) keys)
    (hfresh : FreshPathKeys run.path.tree run.liC keys) :
    ∃ steps keys',
      HonestRun S (run.path.tree :: (steps ++ r.tree :: trees)) keys' ∧
      (Set.InjOn S.hash (runInputs S (run.path.tree :: (steps ++ r.tree :: trees))) →
        (∀ input, S.hash input ≠ []) → CopathUnmatched S run.path.tree run.liC) := by
  obtain ⟨p⟩ := hp.pathRun
  obtain ⟨steps, keys', hrun⟩ := exists_honestRun hpub hinv hp hcan hhonest
    (nodeKeys_of_freshPathKeys p hp.invariant hfresh)
  refine ⟨steps, keys', hrun, fun hinj hdigest => ?_⟩
  obtain ⟨hrep, hmatched⟩ := hrun.invariant _ _ rfl
  exact (verifyParentHashes_iff hpub hinv hp hvalid).mp
    (hmatched.verify hrep hinj (parentHashInputs_subset _ _) hdigest)

end EntryRun

/-- Entry by an external commit, from a member state with a valid tree and the
published interim hash.  The joiner is stopped by the length limit only; if it
enters, a member of the epoch whose keys fit the tree with the joiner's leaf
`leaf` follows exactly if that tree has a wire form and no parent hash on the
joiner's copath interferes; and with fresh keys only a collision of the hash can
interfere. -/
theorem external_join_agrees (hlaws : SuiteLaws S) (hkdf : KdfLaws S) (htotal : TotalLaws S)
    (hrun : Membership S g past) (hmember : g.ownLeaf ∈ g.tree.members)
    (hvalid : TreeValid S g.groupContext.groupID g.tree) (hinterim : InterimAgrees S g)
    (hpaired : KeysPaired S g.tree) (hgi : g.publishGroupInfo S = .ok gi) (cred : Credential)
    (signer : Signer) (lifetime : Lifetime) (rnd : ExternalRandomness) :
    StopsAtLimit (externalCommit S gi cred (some signer) lifetime rnd) ∧
    ∀ joiner commit,
      externalCommit S gi cred (some signer) lifetime rnd = .ok (joiner, commit) →
      ∃ leaf placed, joiner.tree.leafNodeAt joiner.ownLeaf = .ok leaf ∧
        g.seatJoiner leaf = .ok (joiner.ownLeaf, placed) ∧
        ∀ r : Group, r.groupContext = g.groupContext → r.tree = g.tree →
          r.epoch = g.epoch → r.interim = g.interim →
          r.CanAdmit S leaf placed →
          (FollowsJoiner S r joiner commit ↔
            (∃ data, placed.marshal = .ok data) ∧ CopathUnmatched S joiner.tree joiner.ownLeaf) ∧
          ∀ trees keys, HonestRun S (g.tree :: trees) keys →
            FreshPathKeys joiner.tree joiner.ownLeaf keys →
            ∃ steps keys',
              HonestRun S (joiner.tree :: (steps ++ g.tree :: trees)) keys' ∧
              (Set.InjOn S.hash (runInputs S (joiner.tree :: (steps ++ g.tree :: trees))) →
                (∀ input, S.hash input ≠ []) → CopathUnmatched S joiner.tree joiner.ownLeaf) := by
  have hpub := publishes_of_publishGroupInfo hgi
  have hinv := hrun.invariant.1
  refine ⟨externalCommit_stops hkdf htotal hpub hinv hmember hvalid hrun.treeHash_eq
    hpaired cred signer lifetime rnd, ?_⟩
  intro joiner commit henter
  obtain ⟨run, rfl, rfl⟩ := entryRun_of_externalCommit henter
  obtain ⟨placed, hp⟩ := run.exists_placed (by rwa [(run.published_eq_tree hpub hinv).1])
  refine ⟨run.leaf, placed, EntryRun.leafNodeAt_eq hp,
    EntryRun.seatJoiner_eq hpub hinv hp, fun r hcontext htree hepoch hin hcan => ?_⟩
  have hpub' := hpub.of_sameEpoch hcontext htree hepoch
  have hinterim' : InterimAgrees S r := by
    unfold InterimAgrees Group.publishedInterim at hinterim ⊢
    rwa [hcontext, hepoch, hin]
  rw [← htree] at hinv
  have hparents := hvalid.parentHashes
  rw [← htree] at hparents
  refine ⟨EntryRun.followsJoiner_iff hpub' hinv hlaws hkdf hinterim' hp hparents
    hcan, fun trees keys hhonest hfresh => ?_⟩
  rw [← htree] at hhonest ⊢
  exact EntryRun.copathUnmatched_of_honestRun hpub' hinv hp hparents hcan hhonest hfresh

/-! ### A run -/

def publishSecondEpoch : Result (Group × Group × GroupInfo) := do
  let first ← newGroup plainSuite [9] (.basic [1]) (some ⟨[1]⟩) ⟨0, 1⟩ ⟨[1, 1], [1, 2]⟩
  let res ← first.commit plainSuite ⟨[], []⟩ noRandomness
  let gi ← res.group.publishGroupInfo plainSuite
  return (first, res.group, gi)

theorem plainSuite_keysPaired (t : RatchetTree) : KeysPaired plainSuite t :=
  fun _ pub _ => ⟨pub, .inr ⟨pub, rfl⟩⟩

theorem publishSecondEpoch_ok :
    ∃ first a gi, Membership plainSuite a [first] ∧ a.groupContext.epoch = 1 ∧
      a.ownLeaf ∈ a.tree.members ∧ TreeValid plainSuite a.groupContext.groupID a.tree ∧
      InterimAgrees plainSuite a ∧ a.publishGroupInfo plainSuite = .ok gi ∧
      publishSecondEpoch = .ok (first, a, gi) := by
  obtain ⟨⟨first, a, gi⟩, hrun, hepoch, hmember, hparents, hleaves, hinterim⟩ :
      ∃ run, publishSecondEpoch = .ok run ∧ run.2.1.groupContext.epoch = 1 ∧
        run.2.1.tree.slot 0 run.2.1.ownLeaf ≠ none ∧
        run.2.1.tree.verifyParentHashes plainSuite = .ok true ∧
        run.2.1.tree.verifyLeafSignatures plainSuite run.2.1.groupContext.groupID = .ok () ∧
        InterimAgrees plainSuite run.2.1 := by decide +kernel
  have hsteps := hrun
  simp only [publishSecondEpoch, bind_eq_ok, pure_ok_iff, Prod.mk.injEq] at hsteps
  obtain ⟨first, hnew, res, hcommit, gi, hgi, rfl, rfl, rfl⟩ := hsteps
  exact ⟨first, res.group, gi, .nextEpoch (.newGroup _ _ _ _ _ hnew) (.commit _ _ hcommit),
    hepoch, hmember, ⟨hparents, hleaves⟩, hinterim, hgi, hrun⟩

theorem identity_length_le {cred : Credential} {identity : Bytes}
    {signer : Option Signer} {lifetime : Lifetime} {seeds : KeyPackageSeeds}
    {out : KeyPackage × Bytes × Bytes} (hcred : cred = .basic identity)
    (hrun : newKeyPackage S cred signer lifetime seeds = .ok out) :
    identity.length ≤ maxVarint := by
  subst hcred
  simp only [newKeyPackage, signLeafNode, LeafNode.tbs, LeafNode.marshalContents,
    Credential.marshal, bind_eq_ok] at hrun
  obtain ⟨_, -, _, -, _, -, _, ⟨_, ⟨_, ⟨_, -, _, -, _, ⟨_, hidentity, -⟩, -⟩, -⟩, -⟩, -⟩ := hrun
  exact writeOpaqueV_length_le hidentity

/-- The joiner with an identity of `2 ^ 30` bytes cannot enter. -/
theorem long_identity_cannot_enter :
    SuiteLaws plainSuite ∧ KdfLaws plainSuite ∧ TotalLaws plainSuite ∧
    ∃ g gi past, Membership plainSuite g past ∧ 1 ≤ g.groupContext.epoch ∧
      g.ownLeaf ∈ g.tree.members ∧
      TreeValid plainSuite g.groupContext.groupID g.tree ∧
      InterimAgrees plainSuite g ∧ KeysPaired plainSuite g.tree ∧
      g.publishGroupInfo plainSuite = .ok gi ∧
      ∀ signer lifetime rnd joiner commit,
        externalCommit plainSuite gi (.basic (List.replicate (2 ^ 30) 0)) signer
          lifetime rnd ≠ .ok (joiner, commit) := by
  obtain ⟨first, a, gi, hrun, hepoch, hmember, hvalid, hinterim, hgi, -⟩ := publishSecondEpoch_ok
  refine ⟨plainSuite_laws, plainSuite_kdfLaws, plainSuite_totalLaws, a, gi, [first],
    hrun, by rw [hepoch]; decide, hmember, hvalid, hinterim, plainSuite_keysPaired _, hgi, ?_⟩
  intro signer lifetime rnd joiner commit henter
  obtain ⟨run, -, -⟩ := entryRun_of_externalCommit henter
  have hle := identity_length_le rfl run.kp_eq
  rw [List.length_replicate, maxVarint] at hle
  omega

theorem canAdmit_beside {a : Group} {leaf l₀ l₁ : LeafNode} (hmember : a.ownLeaf ∈ a.tree.members)
    (hown : a.ownLeaf = 0) (hkept : findLeafBySignatureKey a.tree leaf.signatureKey = none)
    (hpriv : a.priv.privs = [(0, l₀.encryptionKey)]) :
    a.CanAdmit plainSuite leaf ⟨[some (.leaf l₀), none, some (.leaf l₁)]⟩ := by
  refine ⟨hmember, by simp [hkept], fun d pub priv hpub hheld => ?_, fun k n hn _ => ?_⟩
  · have hmem := GoMap.mem_of_get hheld
    simp only [hpriv, List.mem_singleton, Prod.mk.injEq] at hmem
    obtain ⟨rfl, rfl⟩ := hmem
    cases hpub
    exact .inr ⟨l₀.encryptionKey, rfl⟩
  · rw [slot_three] at hn
    have hk : k = 0 := by
      by_contra hne
      simp [hne] at hn
    subst hk
    refine ⟨l₀.encryptionKey, ?_⟩
    rw [hown, TreeKEMPrivate.privateKey, hpriv]
    rfl

def enterSecondEpoch :
    Result (Group × GroupInfo × (Group × Bytes) × LeafNode × LeafNode) := do
  let (_, a, gi) ← publishSecondEpoch
  let (b, commit) ← externalCommit plainSuite gi (.basic [2]) (some ⟨[2]⟩) ⟨0, 1⟩
    ⟨[5], ⟨[2, 1], [2, 2]⟩, [11], fun _ _ => []⟩
  let first ← a.tree.leafNodeAt 0
  let second ← b.tree.leafNodeAt b.ownLeaf
  return (a, gi, (b, commit), first, second)

/-- `A` follows. -/
theorem external_join_agrees_pair :
    ∃ a gi joiner commit, a.publishGroupInfo plainSuite = .ok gi ∧
      externalCommit plainSuite gi (.basic [2]) (some ⟨[2]⟩) ⟨0, 1⟩
        ⟨[5], ⟨[2, 1], [2, 2]⟩, [11], fun _ _ => []⟩ = .ok (joiner, commit) ∧
      FollowsJoiner plainSuite a joiner commit := by
  obtain ⟨founder, a, gi, hrun, -, hmember, hvalid, hinterim, hgi, hpublish⟩ :=
    publishSecondEpoch_ok
  obtain ⟨⟨a', gi', ⟨joiner, commit⟩, first, second⟩, henter, hown, hkept, hpriv, hseat, hwrite,
      hpath, hcopath⟩ : ∃ run, enterSecondEpoch = .ok run ∧ run.1.ownLeaf = 0 ∧
      findLeafBySignatureKey run.1.tree run.2.2.2.2.signatureKey = none ∧
      run.1.priv.privs = [(0, run.2.2.2.1.encryptionKey)] ∧
      run.1.seatJoiner run.2.2.2.2 =
        .ok (1, ⟨[some (.leaf run.2.2.2.1), none, some (.leaf run.2.2.2.2)]⟩) ∧
      (∃ data, (RatchetTree.mk [some (.leaf run.2.2.2.1), none,
        some (.leaf run.2.2.2.2)]).marshal = .ok data) ∧
      run.2.2.1.1.tree.filteredDirectPath run.2.2.1.1.ownLeaf = .ok [1] ∧
      run.2.2.1.1.tree.copathMatch plainSuite run.2.2.1.1.ownLeaf 1 = .ok false := by
    decide +kernel
  simp only [enterSecondEpoch, hpublish, ok_bind, bind_eq_ok, pure_ok_iff, Prod.mk.injEq] at henter
  obtain ⟨⟨joiner, commit⟩, henter, first, hfirst, second, hsecond, rfl, rfl,
    ⟨rfl, rfl⟩, rfl, rfl⟩ := henter
  obtain ⟨-, hfollow⟩ := external_join_agrees plainSuite_laws plainSuite_kdfLaws
    plainSuite_totalLaws hrun hmember hvalid hinterim (plainSuite_keysPaired _) hgi
    (.basic [2]) ⟨[2]⟩ ⟨0, 1⟩ ⟨[5], ⟨[2, 1], [2, 2]⟩, [11], fun _ _ => []⟩
  obtain ⟨leaf, placed, hleaf, hplaced, hmembers⟩ := hfollow joiner commit henter
  obtain rfl : second = leaf := Except.ok.inj (hsecond.symm.trans hleaf)
  obtain ⟨-, rfl⟩ := Prod.mk.inj (Except.ok.inj (hseat.symm.trans hplaced))
  refine ⟨a, gi, joiner, commit, hgi, henter, ?_⟩
  refine (hmembers a rfl rfl rfl rfl (canAdmit_beside hmember hown hkept hpriv)).1.mpr ⟨hwrite, ?_⟩
  intro path hpath' p hp
  cases hpath.symm.trans hpath'
  obtain rfl := List.mem_singleton.mp hp
  exact hcopath

end MlsGo
