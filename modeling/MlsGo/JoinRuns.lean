import MlsGo.GroupJoining

/-!
# Successful joins

The intermediate values of a successful `JoinFromWelcome` and of a successful
`ExternalCommit`, one field for each step of the source.
-/

namespace MlsGo

variable {S : Suite} {opt : JoinOptions}

structure JoinRun (S : Suite) (welcome : Bytes) (opt : JoinOptions) where
  w : Welcome
  kp : KeyPackage
  gs : GroupSecrets
  psks : List PSK
  psk : Bytes
  gi : GroupInfo
  rt : RatchetTree
  ownLeaf : ℕ
  priv : TreeKEMPrivate
  gcBytes : Bytes
  es : EpochSecrets
  interim : Bytes
  secretTree : SecretTree
  w_eq : decodeWelcomeMessage welcome = .ok w
  kp_eq : decodeKeyPackageMessage opt.keyPackage = .ok kp
  gs_eq : openGroupSecrets S w kp opt.initPriv = .ok gs
  psks_eq : resolveJoinPSKs opt.externalPSKs gs.psks = .ok psks
  psk_eq : pskSecret S psks = .ok psk
  gi_eq : openGroupInfo S w gs.joinerSecret psk = .ok gi
  rt_eq : openRatchetTree S gi opt.ratchetTree = .ok rt
  ownLeaf_eq : rt.findLeafByEncryptionKey kp.leafNode.encryptionKey = some ownLeaf
  priv_eq : joinerPriv S ownLeaf opt.encryptionPriv gs.pathSecret
    gi.signer.toNat rt.leafCount = .ok priv
  gcBytes_eq : gi.groupContext.marshal = .ok gcBytes
  es_eq : epochSecretsFromJoiner S gs.joinerSecret (some psk) gcBytes = .ok es
  confTag_eq : confirmationTag S es.confirmationKey
    gi.groupContext.confirmedTranscriptHash = gi.confirmationTag
  interim_eq : interimTranscriptHash S gi.groupContext.confirmedTranscriptHash
    gi.confirmationTag = .ok interim
  secretTree_eq : newSecretTree S rt.leafCount es.encryptionSecret = .ok secretTree

namespace JoinRun

variable {welcome : Bytes} {opt : JoinOptions}

def result (run : JoinRun S welcome opt) : Group where
  groupContext := run.gi.groupContext
  tree := run.rt
  priv := run.priv
  epoch := run.es
  secretTree := run.secretTree
  interim := run.interim
  initSecret := run.es.initSecret
  ownLeaf := run.ownLeaf
  signer := opt.signer
  externalPSKs := opt.externalPSKs
  resumptionPSKHistory := [(run.gi.groupContext.epoch, run.es.resumptionPSK)]
  appGeneration := 0
  handshakeGeneration := 0
  encryptHandshakes := false
  pendingUpdates := []

end JoinRun

theorem joinRun_of_joinFromWelcome {welcome : Bytes}
    {g : Group} (hjoin : joinFromWelcome S welcome opt = .ok g) :
    ∃ run : JoinRun S welcome opt, run.result = g := by
  simp only [joinFromWelcome, bind_eq_ok, within_eq_ok] at hjoin
  obtain ⟨w, hw, kp, hkp, gs, hgs, psks, hpsks, psk, hpsk, gi, hgi, rt, hrt, hrest⟩ := hjoin
  split at hrest
  · simp at hrest
  · rename_i ownLeaf hown
    simp only [bind_eq_ok, within_eq_ok, check_eq_ok, pure_ok_iff] at hrest
    obtain ⟨priv, hpriv, gcBytes, hgcBytes, es, hes, _, htag, interim, hinterim,
      st, hst, rfl⟩ := hrest
    exact ⟨⟨w, kp, gs, psks, psk, gi, rt, ownLeaf, priv, gcBytes, es, interim, st, hw, hkp, hgs,
      hpsks, hpsk, hgi, hrt, hown, hpriv, hgcBytes, hes, htag, hinterim, hst⟩, rfl⟩

theorem JoinRun.joinFromWelcome_eq {welcome : Bytes} (run : JoinRun S welcome opt) :
    joinFromWelcome S welcome opt = .ok run.result := by
  have hpriv := run.priv_eq
  simp only [joinFromWelcome, run.w_eq, run.kp_eq, run.gs_eq, run.psks_eq, run.psk_eq, run.gi_eq,
    run.rt_eq, run.ownLeaf_eq, run.gcBytes_eq, run.es_eq, run.interim_eq, run.secretTree_eq,
    run.confTag_eq, hpriv, within_ok, ok_bind, check, if_true, pure_eq_ok]
  rfl

structure EntryRun (S : Suite) (gi : GroupInfo) (cred : Credential)
    (signer : Option Signer) (lifetime : Lifetime)
    (rnd : ExternalRandomness) where
  extPub : Bytes
  kemOutput : Bytes
  initSecret : Bytes
  published : RatchetTree
  sigPub : Bytes
  vacated : RatchetTree
  oldLeaf : Option ℕ
  kp : KeyPackage
  kpPrivs : Bytes × Bytes
  liC : ℕ
  wt : RatchetTree
  path : RatchetTree.GeneratedPath
  commitBody : Bytes
  confirmedInput : Bytes
  signature : Bytes
  interimN : Bytes
  newTreeHash : Bytes
  newGCBytes : Bytes
  es : EpochSecrets
  commitBytes : Bytes
  interim : Bytes
  priv : TreeKEMPrivate
  secretTree : SecretTree
  extPub_eq : gi.externalPubExtension = some extPub
  encap_eq : S.externalInitEncap extPub rnd.kemSeed = .ok (kemOutput, initSecret)
  published_eq : openPublishedTree S gi = .ok published
  sigPub_eq : S.publicKeyOf signer = .ok sigPub
  vacated_eq : removePriorLeaf published sigPub = .ok (vacated, oldLeaf)
  kp_eq : newKeyPackage S cred signer lifetime rnd.keyPackageSeeds = .ok (kp, kpPrivs)
  wt_eq : vacated.addLeaf kp.leafNode = .ok (liC, wt)
  path_eq : wt.generateUpdatePath S liC rnd.leafSecret signer
    gi.groupContext.groupID []
    (fun treeHash => (gi.groupContext.next treeHash
      gi.groupContext.confirmedTranscriptHash
      gi.groupContext.extensions).marshal)
    rnd.pathSeeds = .ok path
  commitBody_eq : Commit.marshal ⟨externalProposals kemOutput oldLeaf,
    some path.updatePath⟩ = .ok commitBody
  signature_eq : signCommit S signer gi.groupContext
    ⟨gi.groupContext.groupID, gi.groupContext.epoch, .newMemberCommit, [],
      contentTypeCommit, commitBody⟩ .publicMessage =
    .ok (confirmedInput, signature)
  interimN_eq : interimTranscriptHash S gi.groupContext.confirmedTranscriptHash
    gi.confirmationTag = .ok interimN
  newTreeHash_eq : path.tree.rootTreeHash S = .ok newTreeHash
  newGCBytes_eq : (gi.groupContext.next newTreeHash
    (confirmedTranscriptHash S interimN confirmedInput)
    gi.groupContext.extensions).marshal = .ok newGCBytes
  es_eq : deriveEpochSecrets S initSecret (some path.commitSecret) none newGCBytes = .ok es
  commitBytes_eq : MLSMessage.marshal ⟨1, .publicMessage
    ⟨⟨gi.groupContext.groupID, gi.groupContext.epoch, .newMemberCommit, [],
      contentTypeCommit, commitBody⟩,
      ⟨signature, confirmationTag S es.confirmationKey
        (confirmedTranscriptHash S interimN confirmedInput)⟩, []⟩⟩ =
    .ok commitBytes
  interim_eq : interimTranscriptHash S
    (confirmedTranscriptHash S interimN confirmedInput)
    (confirmationTag S es.confirmationKey
      (confirmedTranscriptHash S interimN confirmedInput)) = .ok interim
  priv_eq : senderPriv S "group: ExternalCommit: DeriveSecret(node)"
    "group: ExternalCommit: DeriveKeyPair(leaf)"
    (fun nodeIdx => s!"group: ExternalCommit: AddPathSecret({nodeIdx})")
    liC rnd.leafSecret path.pathSecretByNode = .ok priv
  secretTree_eq : newSecretTree S path.tree.leafCount es.encryptionSecret = .ok secretTree

namespace EntryRun

variable {gi : GroupInfo} {cred : Credential} {signer : Option Signer}
  {lifetime : Lifetime} {rnd : ExternalRandomness}

def confirmed (run : EntryRun S gi cred signer lifetime rnd) : Bytes :=
  confirmedTranscriptHash S run.interimN run.confirmedInput

def newGC (run : EntryRun S gi cred signer lifetime rnd) : GroupContext :=
  gi.groupContext.next run.newTreeHash run.confirmed gi.groupContext.extensions

def result (run : EntryRun S gi cred signer lifetime rnd) : Group where
  groupContext := run.newGC
  tree := run.path.tree
  priv := run.priv
  epoch := run.es
  secretTree := run.secretTree
  interim := run.interim
  initSecret := run.es.initSecret
  ownLeaf := run.liC
  signer := signer
  externalPSKs := []
  resumptionPSKHistory := [(run.newGC.epoch, run.es.resumptionPSK)]
  appGeneration := 0
  handshakeGeneration := 0
  encryptHandshakes := false
  pendingUpdates := []

end EntryRun

theorem entryRun_of_externalCommit {gi : GroupInfo} {cred : Credential} {signer : Option Signer}
    {lifetime : Lifetime} {rnd : ExternalRandomness} {g : Group} {commit : Bytes}
    (henter : externalCommit S gi cred signer lifetime rnd = .ok (g, commit)) :
    ∃ run : EntryRun S gi cred signer lifetime rnd, run.result = g ∧ run.commitBytes = commit := by
  obtain ⟨extPub, hpub⟩ : ∃ extPub, gi.externalPubExtension = some extPub := by
    cases hget : gi.externalPubExtension with
    | none => simp [externalCommit, hget, fail] at henter
    | some extPub => exact ⟨extPub, rfl⟩
  simp only [externalCommit, hpub, bind_eq_ok, within_eq_ok, liftErr_eq_ok,
    pure_eq_ok, ok_bind, Except.ok.injEq, Prod.mk.injEq] at henter
  obtain ⟨⟨kemOutput, initSecret⟩, hencap, published, hpublished, sigPub, hsigPub,
    ⟨vacated, oldLeaf⟩, hvacated, ⟨kp, kpPrivs⟩, hkp, ⟨liC, wt⟩, hwt, path, hpath,
    commitBody, hbody, ⟨confirmedInput, signature⟩, hsign, interimN, hinterimN,
    newTreeHash, htreeHash, newGCBytes, hgcBytes, es, hes, commitBytes, hbytes,
    interim, hinterim, priv, hpriv, st, hst, rfl, rfl⟩ := henter
  exact ⟨⟨extPub, kemOutput, initSecret, published, sigPub, vacated, oldLeaf, kp, kpPrivs, liC, wt,
    path, commitBody, confirmedInput, signature, interimN, newTreeHash, newGCBytes, es,
    commitBytes, interim, priv, st, hpub, hencap, hpublished, hsigPub, hvacated, hkp, hwt, hpath,
    hbody, hsign, hinterimN, htreeHash, hgcBytes, hes, hbytes, hinterim, hpriv, hst⟩, rfl, rfl⟩

end MlsGo
