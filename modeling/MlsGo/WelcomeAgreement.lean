import MlsGo.ExternalAgreement
import MlsGo.WelcomeRuns

/-!
# Committer and new members reach the same epoch

A new member reads everything from the Welcome and its own key package.  It is not
told its leaf: it looks for its encryption key in the tree.  Its epoch secrets are
derived from the joiner secret, not from the init secret of the old epoch.
-/

namespace MlsGo

open InOrderLayout RatchetTree

variable {S : Suite} {c : Group} {opt : CommitOptions} {rnd : CommitRandomness}
  {d : CommitDraft} {res : CommitResult} {welcome : Bytes} {past : List Group}
    {gi signed : GroupInfo} {signer : Option Signer}

/-! ## Group information -/

theorem GroupInfo.sign_ok (hsign : gi.sign S signer = .ok signed) :
    ∃ sig, signed = { gi with signature := sig } := by
  simp only [GroupInfo.sign, bind_eq_ok, pure_ok_iff] at hsign
  obtain ⟨tbs, -, sig, -, rfl⟩ := hsign
  exact ⟨sig, rfl⟩

theorem GroupInfo.verifySignature_of_sign (hlaws : SuiteLaws S) {pub : Bytes}
    (hpub : S.publicKeyOf signer = .ok pub) (hsign : gi.sign S signer = .ok signed) :
    signed.verifySignature S pub = .ok true := by
  simp only [GroupInfo.sign, bind_eq_ok, pure_ok_iff] at hsign
  obtain ⟨tbs, htbs, sig, hsig, rfl⟩ := hsign
  -- the signed bytes do not contain the signature
  have htbs' : GroupInfo.marshalTBS { gi with signature := sig } = .ok tbs := htbs
  rw [GroupInfo.verifySignature, htbs', ok_bind,
    verifyWithLabel_of_sign hlaws.signaturesVerify hpub hsig]
  rfl

/-! ## Secrets -/

theorem decryptWithLabel_of_encrypt (hlaws : SuiteLaws S) {priv pub : Bytes} {label : String}
    {context plaintext seed kem ct : Bytes} (hmatch : S.Matching priv pub)
    (hseal : S.encryptWithLabel pub label context plaintext seed = .ok (kem, ct)) :
    S.decryptWithLabel priv label context kem ct = .ok plaintext := by
  obtain ⟨info, hinfo, hsealed⟩ := bind_eq_ok.mp hseal
  rw [Suite.decryptWithLabel, hinfo, ok_bind,
    hlaws.openBase_sealBase hmatch (liftErr_eq_ok.mp hsealed)]
  rfl

theorem epochSecretsFromJoiner_ok {joiner psk groupContext : Bytes} {es : EpochSecrets}
    (hrun : epochSecretsFromJoiner S joiner (some psk) groupContext = .ok es) :
    es.joinerSecret = joiner ∧ ∃ member, S.extract joiner psk = .ok member ∧
      S.deriveSecret member "welcome" = .ok es.welcomeSecret := by
  simp only [epochSecretsFromJoiner, bind_eq_ok, liftErr_eq_ok, pure_ok_iff] at hrun
  obtain ⟨member, hmember, welcome, hwelcome, _, -, _, -, _, -, _, -, _, -, _, -, _, -,
    _, -, _, -, _, -, rfl⟩ := hrun
  exact ⟨rfl, member, hmember, hwelcome⟩

/-- What a new member knows: its key package, the private key of its init key and
the external pre-shared keys of the commit.  It may be given the tree. -/
structure JoinsWith (S : Suite) (d : CommitDraft) (kp : KeyPackage)
    (jopt : JoinOptions) : Prop where
  keyPackage_eq : encodeKeyPackageMessage kp = .ok jopt.keyPackage
  initPriv : S.Matching jopt.initPriv kp.initKey
  ratchetTree : jopt.ratchetTree = [] ∨ d.path.tree.marshal = .ok jopt.ratchetTree
  psks : ∀ p ∈ d.applied.psks, ∀ pskID, p.id.source = .external pskID →
    jopt.externalPSKs.get pskID = some p.psk

theorem resolveJoinPSKs_eq {externalPSKs : GoMap Bytes Bytes} {psks : List PSK}
    (hexternal : ∀ p ∈ psks, ∃ pskID, p.id.source = .external pskID)
    (hknown : ∀ p ∈ psks, ∀ pskID, p.id.source = .external pskID →
    externalPSKs.get pskID = some p.psk) :
    resolveJoinPSKs externalPSKs (psks.map (·.id)) = .ok psks := by
  induction psks with
  | nil => rfl
  | cons p rest ih =>
      rw [List.forall_mem_cons] at hexternal hknown
      obtain ⟨pskID, hsource⟩ := hexternal.1
      simp only [List.map_cons, resolveJoinPSKs, hsource, hknown.1 pskID hsource,
        ih hexternal.2 hknown.2, ok_bind, pure_eq_ok]

theorem findLeafByEncryptionKey_eq {t : RatchetTree} {L : ℕ} {l : LeafNode}
    (hslot : t.slot 0 L = some (.leaf l)) (hother : ∀ M l', M ≠ L → t.slot 0 M = some (.leaf l') →
    l'.encryptionKey ≠ l.encryptionKey) :
    t.findLeafByEncryptionKey l.encryptionKey = some L := by
  have hget : ∀ M l', (leafSlots t.nodes)[M]? = some (some (.leaf l')) →
      t.slot 0 M = some (.leaf l') := by
    intro M l' hM
    rw [slot_zero, hM]
    rfl
  rw [slot_zero] at hslot
  obtain ⟨hlt, hL⟩ : ∃ hlt : L < (leafSlots t.nodes).length,
      (leafSlots t.nodes)[L] = some (.leaf l) := by
    cases hget : (leafSlots t.nodes)[L]? with
    | none => simp [hget] at hslot
    | some slot =>
        obtain ⟨hlt, heq⟩ := List.getElem?_eq_some_iff.mp hget
        rw [hget] at hslot
        exact ⟨hlt, heq.trans hslot⟩
  rw [findLeafByEncryptionKey, List.findIdx?_eq_some_iff_getElem]
  refine ⟨hlt, by simp [hL, holdsEncryptionKey], fun M hM => ?_⟩
  cases hslotM : (leafSlots t.nodes)[M] with
  | none => simp [holdsEncryptionKey]
  | some n =>
      cases n with
      | leaf l' =>
          have hne := hother M l' hM.ne (hget M l' (List.getElem?_eq_some_iff.mpr ⟨_, hslotM⟩))
          simpa [holdsEncryptionKey] using hne
      | parent p => simp [holdsEncryptionKey]

/-! ## The new tree -/

/-- The premises of a Welcome: the leaves that the proposals bring in are signed for
their places, the leaves of the new tree have distinct keys, the key packages have
distinct references, and only external pre-shared keys are used. -/
structure Welcoming (S : Suite) (c : Group) (opt : CommitOptions)
    (d : CommitDraft) : Prop where
  signed : ∀ refs cache resolved, c.Resolves S opt refs cache resolved →
    ∀ L l, Carried resolved none l → d.applied.tree.slot 0 L = some (.leaf l) →
      l.verifySignature S c.groupContext.groupID L = .ok true
  distinct : ∀ L M l l', L ≠ M → d.path.tree.slot 0 L = some (.leaf l) →
    d.path.tree.slot 0 M = some (.leaf l') → KeysDiffer l l'
  refs : (d.applied.added.map fun entry => entry.2.ref S).Nodup
  external : ∀ p ∈ d.applied.psks, ∃ pskID, p.id.source = .external pskID

section Tree

variable (a : DraftRun S c opt rnd d) (hinv : c.tree.RepresentationInvariant)
  (hmember : c.ownLeaf ∈ c.tree.members) (hspares : SparesCommitter S c opt)

include a hinv hmember hspares

theorem DraftRun.slot_path (L : ℕ) : d.path.tree.slot 0 L = if L = c.ownLeaf then
      some (.leaf d.path.updatePath.leafNode) else d.applied.tree.slot 0 L := by
  obtain ⟨hinvA, -⟩ := a.places hinv hmember hspares
  obtain ⟨h, hf, -⟩ := hinvA.full
  obtain ⟨p⟩ := pathRun_of_generateUpdatePath a.path_eq
  obtain ⟨entries, -, hi⟩ := p.installed_tree hf
  have hown : c.ownLeaf % 2 ^ 31 = c.ownLeaf :=
    Nat.mod_eq_of_lt (by have := hinv.member_lt hmember; omega)
  rw [hi.slot_eq, hown]
  simp [eq_comm]

theorem DraftRun.signs_path (hlaws : SuiteLaws S) (hsigns : c.SignsAsLeaf S) :
    S.publicKeyOf c.signer = .ok d.path.updatePath.leafNode.signatureKey ∧
      d.path.updatePath.leafNode.verifySignature S c.groupContext.groupID
        c.ownLeaf = .ok true := by
  obtain ⟨hinvA, hslot, -⟩ := a.places hinv hmember hspares
  obtain ⟨h, hf, -⟩ := hinvA.full
  obtain ⟨hc, hfc, -⟩ := hinv.full
  obtain ⟨p⟩ := pathRun_of_generateUpdatePath a.path_eq
  obtain ⟨ln, hleaf, hpub⟩ := hsigns
  have hown : c.ownLeaf % 2 ^ 31 = c.ownLeaf :=
    Nat.mod_eq_of_lt (by have := hinv.member_lt hmember; omega)
  have horig := (p.sender_slot hf).2
  rw [hown, hslot] at horig
  have hsame := leafNodeAt_of_slot hfc horig
  rw [hleaf, Except.ok.injEq] at hsame
  have hkey : S.publicKeyOf c.signer = .ok p.orig.signatureKey := by
    rw [hpub, hsame]
  exact ⟨by rw [p.leaf_signatureKey, hkey], p.leaf_verifies hlaws hkey⟩

theorem DraftRun.leavesValid (hlaws : SuiteLaws S) (hsigns : c.SignsAsLeaf S)
    (hwelcoming : Welcoming S c opt d) (hvalid : LeavesValid S c.groupContext.groupID c.tree) :
    LeavesValid S c.groupContext.groupID d.path.tree := by
  refine ⟨fun L l hl => ?_, hwelcoming.distinct⟩
  rw [a.slot_path hinv hmember hspares] at hl
  split at hl
  · subst L
    cases hl
    exact (a.signs_path hinv hmember hspares hlaws hsigns).2
  · obtain ⟨run⟩ := applyRun_of_applyProposals a.applied_eq
    have hwt := hinv.eq_of_clone a.wt_eq
    obtain ⟨h, hf, -⟩ := hinv.full
    have hseats := (run.seats (hwt ▸ hf)).2
    have hold : a.wt.slot 0 = c.tree.slot 0 := by rw [hwt]
    have hkept : (Seats.commit (c.tree.slot 0) run.resolved c.ownLeaf none) L =
        some (.leaf l) := by
      rw [← hl, hseats, hold]
      rfl
    rcases Seats.commit_kept hkept with hcarried | hold
    · exact hwelcoming.signed a.refs a.cache run.resolved
        ⟨a.cache_eq, run.resolved_eq⟩ L l hcarried hl
    · exact hvalid.signed L l hold

theorem DraftRun.verifyParentHashes_iff (hvalid : c.tree.verifyParentHashes S = .ok true) :
    d.path.tree.verifyParentHashes S = .ok true ↔ CopathUnmatched S d.path.tree c.ownLeaf := by
  obtain ⟨hinvA, -⟩ := a.places hinv hmember hspares
  obtain ⟨run⟩ := applyRun_of_applyProposals a.applied_eq
  obtain ⟨p⟩ := pathRun_of_generateUpdatePath a.path_eq
  have hwt := hinv.eq_of_clone a.wt_eq
  refine p.verifyParentHashes_iff hinvA (run.allMatched (hwt ▸ hinv) ?_)
  rw [hwt]
  exact hinv.allMatched hvalid

end Tree

/-! ## Reading the Welcome -/

section Joiner

variable (a : DraftRun S c opt rnd d) (w : WelcomeRun S c d rnd welcome)
  {leaf : ℕ} {kp : KeyPackage} {jopt : JoinOptions}

def WelcomeRun.message (w : WelcomeRun S c d rnd welcome) : Welcome := ⟨S.id, w.secrets, w.encGI⟩

def CommitDraft.groupSecrets (d : CommitDraft) (pathSecret : Bytes) :
    GroupSecrets := ⟨d.secrets.joinerSecret, some pathSecret, d.applied.psks.map (·.id)⟩

theorem WelcomeRun.decode_eq : decodeWelcomeMessage welcome = .ok w.message :=
  decodeWelcomeMessage_encode w.welcome_eq

theorem WelcomeRun.openGroupSecrets_eq (hlaws : SuiteLaws S) (hwelcoming : Welcoming S c opt d)
    (hmem : (leaf, kp) ∈ d.applied.added) (hjoins : JoinsWith S d kp jopt) {h k : ℕ}
    {secret : Bytes} (m : Meeting c d leaf h k secret) :
    openGroupSecrets S w.message kp jopt.initPriv = .ok (d.groupSecrets secret) := by
  obtain ⟨egs, ⟨greeting⟩, hfind⟩ := find_welcomeSecrets w.secrets_eq hwelcoming.refs hmem
  have hsecret := greeting.pathSecret_eq
  rw [Except.ok.inj (greeting.node_eq.symm.trans m.node_eq), m.secret_eq,
    Option.some.injEq] at hsecret
  have hgs := greeting.gsBytes_eq
  rw [← hsecret] at hgs
  have hopen := decryptWithLabel_of_encrypt hlaws hjoins.initPriv greeting.sealed_eq
  simp only [openGroupSecrets, WelcomeRun.message, greeting.ref_eq, within_ok, ok_bind,
    hfind, hopen]
  exact within_eq_ok.mpr (unmarshalGroupSecrets_marshal hgs)

theorem WelcomeRun.openGroupInfo_eq (hlaws : SuiteLaws S) :
    openGroupInfo S w.message d.secrets.joinerSecret a.psk = .ok w.gi := by
  obtain ⟨joiner, -, hsecrets⟩ := bind_eq_ok.mp a.secrets_eq
  obtain ⟨hjoiner, member, hextract, hwelcome⟩ := epochSecretsFromJoiner_ok hsecrets
  have hopen := hlaws.aeadOpen_aeadSeal w.encGI_eq
  simp only [openGroupInfo, WelcomeRun.message, hjoiner, hextract, hwelcome,
    w.keyNonce_eq, hopen, liftErr_ok, within_ok, ok_bind]
  exact within_eq_ok.mpr (unmarshalGroupInfo_marshal w.giBytes_eq)

theorem WelcomeRun.treeData_eq (hjoins : JoinsWith S d kp jopt) :
    w.gi.treeData jopt.ratchetTree = some w.rtree := by
  obtain ⟨sig, hgi⟩ := GroupInfo.sign_ok w.gi_eq
  have hext : w.gi.ratchetTreeExtension = some w.rtree := by
    rw [hgi]
    rfl
  rcases hjoins.ratchetTree with hnone | hgiven
  · rw [hnone]
    exact hext
  · rw [Except.ok.inj (hgiven.symm.trans w.rtree_eq)]
    rw [GroupInfo.treeData.eq_def]
    split
    · exact hext
    · next hdata => rw [hdata]

theorem WelcomeRun.joinRun_inputs (hlaws : SuiteLaws S) (hwelcoming : Welcoming S c opt d)
    (hmem : (leaf, kp) ∈ d.applied.added) (hjoins : JoinsWith S d kp jopt) {h k : ℕ}
    {secret : Bytes} (m : Meeting c d leaf h k secret) (jr : JoinRun S welcome jopt) :
    jr.kp = kp ∧ jr.gs = d.groupSecrets secret ∧ jr.psk = a.psk ∧ jr.gi = w.gi := by
  have hw : jr.w = w.message := Except.ok.inj (jr.w_eq.symm.trans w.decode_eq)
  have hkp : jr.kp = kp := Except.ok.inj
    (jr.kp_eq.symm.trans (decodeKeyPackageMessage_encode hjoins.keyPackage_eq))
  have hgs := jr.gs_eq
  rw [hw, hkp, w.openGroupSecrets_eq hlaws hwelcoming hmem hjoins m, Except.ok.injEq] at hgs
  have hpsks := jr.psks_eq
  rw [← hgs, CommitDraft.groupSecrets,
    resolveJoinPSKs_eq hwelcoming.external hjoins.psks, Except.ok.injEq] at hpsks
  have hpsk := jr.psk_eq
  rw [← hpsks, a.psk_eq, Except.ok.injEq] at hpsk
  have hgi := jr.gi_eq
  rw [hw, ← hgs, ← hpsk, CommitDraft.groupSecrets, w.openGroupInfo_eq a hlaws,
    Except.ok.injEq] at hgi
  exact ⟨hkp, hgs.symm, hpsk.symm, hgi.symm⟩

section Member

variable (hinv : c.tree.RepresentationInvariant) (hmember : c.ownLeaf ∈ c.tree.members)
  (hspares : SparesCommitter S c opt) (hlaws : SuiteLaws S) (hsigns : c.SignsAsLeaf S)
  (hvalid : TreeValid S c.groupContext.groupID c.tree) (hwelcoming : Welcoming S c opt d)

include a w hinv hmember hspares

omit a hspares in
theorem WelcomeRun.signer_eq : w.gi.signer.toNat = c.ownLeaf := by
  obtain ⟨sig, hgi⟩ := GroupInfo.sign_ok w.gi_eq
  rw [hgi]
  exact UInt32.toNat_ofNat_of_lt' ((hinv.member_lt hmember).trans (by norm_num))

theorem WelcomeRun.signedIn (hlaws : SuiteLaws S) (hsigns : c.SignsAsLeaf S) :
    w.gi.SignedIn S d.path.tree := by
  have hpath := generateUpdatePath_invariant (a.places hinv hmember hspares).1 a.path_eq
  obtain ⟨h, hf, -⟩ := hpath.full
  refine ⟨d.path.updatePath.leafNode, ?_, GroupInfo.verifySignature_of_sign hlaws
    (a.signs_path hinv hmember hspares hlaws hsigns).1 w.gi_eq⟩
  rw [w.signer_eq hinv hmember]
  exact leafNodeAt_of_slot hf (by rw [a.slot_path hinv hmember hspares, if_pos rfl])

theorem WelcomeRun.parse_rtree : parseRatchetTree w.rtree = .ok d.path.tree :=
  (generateUpdatePath_invariant (a.places hinv hmember hspares).1
    a.path_eq).parse_marshal ⟨c.ownLeaf, by
      rw [a.slot_path hinv hmember hspares, if_pos rfl]; simp⟩ w.rtree_eq

theorem WelcomeRun.joinRun_sameEpoch (hlaws : SuiteLaws S) (hwelcoming : Welcoming S c opt d)
    (b : FinishRun S c d rnd res) (hmem : (leaf, kp) ∈ d.applied.added)
    (hjoins : JoinsWith S d kp jopt) (jr : JoinRun S welcome jopt) :
    jr.rt = d.path.tree ∧ jr.ownLeaf = leaf ∧ SameEpoch res.group jr.result := by
  obtain ⟨h, k, secret, m⟩ := a.exists_meeting hinv hmember hspares hmem
  obtain ⟨hkp, hgs, hpsk, hgi⟩ := w.joinRun_inputs a hlaws hwelcoming hmem hjoins m jr
  obtain ⟨sig, hsigned⟩ := GroupInfo.sign_ok w.gi_eq
  have hgc : jr.gi.groupContext = d.newGC := by rw [hgi, hsigned]; rfl
  have htag : jr.gi.confirmationTag = d.confTag := by rw [hgi, hsigned]; rfl
  have hrt : jr.rt = d.path.tree := by
    have hopen := jr.rt_eq
    rw [hgi, openRatchetTree_of_treeData (w.treeData_eq hjoins),
      w.parse_rtree a hinv hmember hspares, Except.ok.injEq] at hopen
    exact hopen.1.symm
  have hown : jr.ownLeaf = leaf := by
    obtain ⟨hslot, hne⟩ := (a.places hinv hmember hspares).2.2 leaf kp hmem
    have hplaced : d.path.tree.slot 0 leaf = some (.leaf kp.leafNode) := by
      rw [a.slot_path hinv hmember hspares, if_neg hne, hslot]
    have hfind := jr.ownLeaf_eq
    rw [hrt, hkp, findLeafByEncryptionKey_eq hplaced fun M l' hM hl' =>
      (hwelcoming.distinct M leaf l' kp.leafNode hM hl' hplaced).2] at hfind
    exact (Option.some.inj hfind).symm
  -- the key schedule from the joiner secret
  obtain ⟨joiner, -, hsecrets⟩ := bind_eq_ok.mp a.secrets_eq
  obtain ⟨hjoiner, -⟩ := epochSecretsFromJoiner_ok hsecrets
  have hgcBytes := jr.gcBytes_eq
  rw [hgc, a.newGCBytes_eq, Except.ok.injEq] at hgcBytes
  have hes := jr.es_eq
  rw [hgs, CommitDraft.groupSecrets, hjoiner, hpsk, ← hgcBytes, hsecrets, Except.ok.injEq] at hes
  have hconfirmed : d.newGC.confirmedTranscriptHash = d.confirmed := by
    rw [a.newGC_eq]; rfl
  have hinterim := jr.interim_eq
  rw [hgc, hconfirmed, htag, b.interim_eq, Except.ok.injEq] at hinterim
  have hst := jr.secretTree_eq
  rw [hrt, ← hes, b.secretTree_eq, Except.ok.injEq] at hst
  refine ⟨hrt, hown, ?_⟩
  rw [b.group_eq]
  exact ⟨hgc.symm, hrt.symm, hes, congrArg EpochSecrets.initSecret hes, hinterim, hst⟩

include hlaws hsigns hvalid hwelcoming

theorem WelcomeRun.openRatchetTree_eq_ok (hjoins : JoinsWith S d kp jopt) {rt : RatchetTree} :
    openRatchetTree S w.gi jopt.ratchetTree = .ok rt ↔
      rt = d.path.tree ∧ CopathUnmatched S d.path.tree c.ownLeaf := by
  have hparse := w.parse_rtree a hinv hmember hspares
  obtain ⟨sig, hgi⟩ := GroupInfo.sign_ok w.gi_eq
  have hgc : w.gi.groupContext = d.newGC := by rw [hgi]; rfl
  have hleaves := a.leavesValid hinv hmember hspares hlaws hsigns hwelcoming
    (verifyLeafSignatures_eq_ok.mp hvalid.leafSignatures)
  rw [openRatchetTree_of_treeData (w.treeData_eq hjoins), hparse, Except.ok.injEq,
    ← a.verifyParentHashes_iff hinv hmember hspares hvalid.parentHashes]
  constructor
  · rintro ⟨rfl, hbound, -⟩
    exact ⟨rfl, hbound.parentHashes⟩
  · rintro ⟨rfl, hverify⟩
    refine ⟨rfl, ⟨hverify, ?_, ?_⟩, w.signedIn a hinv hmember hspares hlaws hsigns⟩
    · rw [hgc, a.newGC_eq]
      exact hleaves
    · rw [hgc, a.newGC_eq]
      exact a.treeHash_eq

theorem WelcomeRun.exists_joinRun (hkdf : KdfLaws S) (b : FinishRun S c d rnd res)
    (hmem : (leaf, kp) ∈ d.applied.added) (hjoins : JoinsWith S d kp jopt)
    (hcopath : CopathUnmatched S d.path.tree c.ownLeaf) :
    ∃ jr : JoinRun S welcome jopt, jr.ownLeaf = leaf ∧ SameEpoch res.group jr.result := by
  obtain ⟨h, k, secret, m⟩ := a.exists_meeting hinv hmember hspares hmem
  obtain ⟨-, -, hadded⟩ := a.places hinv hmember hspares
  obtain ⟨hslot, hne⟩ := hadded leaf kp hmem
  have hh := m.full.le_thirtyOne
  have hlt : ∀ {M}, M < 2 ^ h → M % 2 ^ 31 = M := fun hM =>
    Nat.mod_eq_of_lt (hM.trans_le (Nat.pow_le_pow_right (by norm_num) hh))
  obtain ⟨sig, hgi⟩ := GroupInfo.sign_ok w.gi_eq
  have hgc : w.gi.groupContext = d.newGC := by rw [hgi]; rfl
  have htag : w.gi.confirmationTag = d.confTag := by rw [hgi]; rfl
  have hconfirmed : d.newGC.confirmedTranscriptHash = d.confirmed := by
    rw [a.newGC_eq]; rfl
  -- the leaf of the new member in the tree with the path
  have hplaced : d.path.tree.slot 0 leaf = some (.leaf kp.leafNode) := by
    rw [a.slot_path hinv hmember hspares, if_neg hne, hslot]
  have hfind := findLeafByEncryptionKey_eq hplaced fun M l' hM hl' =>
    (hwelcoming.distinct M leaf l' kp.leafNode hM hl' hplaced).2
  obtain ⟨priv, hpriv, -⟩ := installJoinerPriv_spec hkdf hh m.committer_lt m.leaf_lt
    m.level_lt m.fork (hlt m.leaf_lt) (hlt m.committer_lt)
    (TreeKEMPrivate.new leaf jopt.encryptionPriv) secret
  obtain ⟨joiner, -, hsecrets⟩ := bind_eq_ok.mp a.secrets_eq
  obtain ⟨hjoiner, -⟩ := epochSecretsFromJoiner_ok hsecrets
  let jr : JoinRun S welcome jopt :=
    { w := w.message
      kp := kp
      gs := d.groupSecrets secret
      psks := d.applied.psks
      psk := a.psk
      gi := w.gi
      rt := d.path.tree
      ownLeaf := leaf
      priv := priv
      gcBytes := a.newGCBytes
      es := d.secrets
      interim := b.interim
      secretTree := b.secretTree
      w_eq := w.decode_eq
      kp_eq := decodeKeyPackageMessage_encode hjoins.keyPackage_eq
      gs_eq := w.openGroupSecrets_eq hlaws hwelcoming hmem hjoins m
      psks_eq := resolveJoinPSKs_eq hwelcoming.external hjoins.psks
      psk_eq := a.psk_eq
      gi_eq := w.openGroupInfo_eq a hlaws
      rt_eq := (w.openRatchetTree_eq_ok a hinv hmember hspares hlaws hsigns hvalid
        hwelcoming hjoins).mpr ⟨rfl, hcopath⟩
      ownLeaf_eq := hfind
      priv_eq := by
        rw [w.signer_eq hinv hmember, m.full.leafCount_eq]
        exact within_eq_ok.mpr hpriv
      gcBytes_eq := by rw [hgc]; exact a.newGCBytes_eq
      es_eq := by
        rw [CommitDraft.groupSecrets, hjoiner]
        exact hsecrets
      confTag_eq := by rw [hgc, hconfirmed, htag, a.confTag_eq]
      interim_eq := by rw [hgc, hconfirmed, htag]; exact b.interim_eq
      secretTree_eq := b.secretTree_eq }
  refine ⟨jr, rfl, ?_⟩
  rw [b.group_eq]
  exact ⟨hgc.symm, rfl, rfl, rfl, rfl, rfl⟩

theorem WelcomeRun.copathUnmatched_of_joinRun (hmem : (leaf, kp) ∈ d.applied.added)
    (hjoins : JoinsWith S d kp jopt) (jr : JoinRun S welcome jopt) :
    CopathUnmatched S d.path.tree c.ownLeaf := by
  obtain ⟨h, k, secret, m⟩ := a.exists_meeting hinv hmember hspares hmem
  obtain ⟨-, -, -, hgi⟩ := w.joinRun_inputs a hlaws hwelcoming hmem hjoins m jr
  have hrt := jr.rt_eq
  rw [hgi] at hrt
  exact ((w.openRatchetTree_eq_ok a hinv hmember hspares hlaws hsigns hvalid
    hwelcoming hjoins).mp hrt).2

end Member

end Joiner

end MlsGo
