import MlsGo.CommitSending

/-!
# Joining a group

Files `join.go`, `external_commit.go` and the publishing part of
`external_join.go`: joining from a Welcome, and joining by an external commit
from published group information.
-/

namespace MlsGo

variable (S : Suite)

/-! ## From a Welcome -/

structure JoinOptions where
  keyPackage : Bytes
  initPriv : Bytes
  encryptionPriv : Bytes
  signer : Option Signer
  ratchetTree : Bytes
  externalPSKs : GoMap Bytes Bytes

/-- Step 4 of `JoinFromWelcome`: only external PSKs can be resolved. -/
def resolveJoinPSKs (externalPSKs : GoMap Bytes Bytes) :
    List PreSharedKeyID → Result (List PSK)
  | [] => .ok []
  | id :: rest =>
      match id.source with
      | .resumption _ _ _ => fail "group: JoinFromWelcome: resumption PSKs not supported"
      | .external pskID =>
          match externalPSKs.get pskID with
          | none => fail s!"group: JoinFromWelcome: PSK {hexBytes pskID} not in ExternalPSKs"
          | some psk => do
              let others ← resolveJoinPSKs externalPSKs rest
              return ⟨id, psk⟩ :: others

/-- Steps 2 and 3: the group secrets addressed to the joiner's key package. -/
def openGroupSecrets (w : Welcome) (kp : KeyPackage) (initPriv : Bytes) :
    Result GroupSecrets := do
  let ref ← within "group: JoinFromWelcome: kp.Ref" (kp.ref S)
  match w.secrets.find? fun egs => egs.newMember = ref with
  | none => fail "group: JoinFromWelcome: no EncryptedGroupSecrets for our KeyPackageRef"
  | some egs =>
      let gsBytes ← within "group: JoinFromWelcome: decrypt GroupSecrets"
        (S.decryptWithLabel initPriv "Welcome" w.encryptedGroupInfo
          egs.encryptedGroupSecrets.kemOutput
          egs.encryptedGroupSecrets.ciphertext)
      within "group: JoinFromWelcome: unmarshal GroupSecrets" (unmarshalGroupSecrets gsBytes)

def openGroupInfo (w : Welcome) (joinerSecret psk : Bytes) :
    Result GroupInfo := do
  let member ← within "group: JoinFromWelcome: Extract(joiner,psk)"
    (liftErr (S.extract joinerSecret psk))
  let welcomeSecret ← within "group: JoinFromWelcome: DeriveSecret(member,welcome)"
    (S.deriveSecret member "welcome")
  let (wk, wn) ← within "group: JoinFromWelcome: WelcomeKeyNonce" (welcomeKeyNonce S welcomeSecret)
  let giBytes ← within "group: JoinFromWelcome: Open(GroupInfo)"
    (liftErr (S.aeadOpen wk wn [] w.encryptedGroupInfo))
  within "group: JoinFromWelcome: unmarshal GroupInfo" (unmarshalGroupInfo giBytes)

/-- Steps 6 to 8: the tree, validated and bound to the signed context. -/
def openRatchetTree (gi : GroupInfo) (provided : Bytes) :
    Result RatchetTree := do
  let rtreeData ← match provided, gi.ratchetTreeExtension with
    | _ :: _, _ => pure provided
    | [], some data => pure data
    | [], none => fail "group: JoinFromWelcome: no ratchet_tree in GroupInfo and none provided"
  let rt ← within "group: JoinFromWelcome: ParseRatchetTree"
    (RatchetTree.parseRatchetTree rtreeData)
  let valid ← within "group: JoinFromWelcome: VerifyParentHashes" (rt.verifyParentHashes S)
  check valid "group: JoinFromWelcome: parent hash verification failed"
  within "group: JoinFromWelcome: VerifyLeafSignatures"
    (rt.verifyLeafSignatures S gi.groupContext.groupID)
  let treeHash ← within "group: JoinFromWelcome: RootTreeHash" (rt.rootTreeHash S)
  check (treeHash = gi.groupContext.treeHash)
    s!"group: JoinFromWelcome: tree hash mismatch (got {hexBytes treeHash}, want {hexBytes gi.groupContext.treeHash})"
  let signerLeaf ← within s!"group: JoinFromWelcome: signer leaf {gi.signer}"
    (rt.leafNodeAt gi.signer.toNat)
  let signed ← within "group: JoinFromWelcome: VerifySignature"
    (gi.verifySignature S signerLeaf.signatureKey)
  check signed "group: JoinFromWelcome: GroupInfo signature invalid"
  return rt

def joinerPriv (ownLeaf : ℕ) (encryptionPriv : Bytes)
    (pathSecret : Option Bytes) (signerLeaf nLeaves : ℕ) :
    Result TreeKEMPrivate :=
  match pathSecret with
  | none => .ok (TreeKEMPrivate.new ownLeaf encryptionPriv)
  | some ps =>
      within "group: JoinFromWelcome: installJoinerPriv"
        (installJoinerPriv S (TreeKEMPrivate.new ownLeaf encryptionPriv) ps
          ownLeaf signerLeaf nLeaves)

def joinFromWelcome (welcome : Bytes) (opt : JoinOptions) : Result Group := do
  let w ← within "group: JoinFromWelcome: parse Welcome" (decodeWelcomeMessage welcome)
  let kp ← within "group: JoinFromWelcome: parse KeyPackage"
    (decodeKeyPackageMessage opt.keyPackage)
  let gs ← openGroupSecrets S w kp opt.initPriv
  let psks ← resolveJoinPSKs opt.externalPSKs gs.psks
  let psk ← within "group: JoinFromWelcome: PSKSecret" (pskSecret S psks)
  let gi ← openGroupInfo S w gs.joinerSecret psk
  let rt ← openRatchetTree S gi opt.ratchetTree
  match rt.findLeafByEncryptionKey kp.leafNode.encryptionKey with
  | none => fail "group: JoinFromWelcome: own encryption key not found in tree"
  | some ownLeaf =>
      let priv ← joinerPriv S ownLeaf opt.encryptionPriv gs.pathSecret gi.signer.toNat rt.leafCount
      let gcBytes ← within "group: JoinFromWelcome: marshal GroupContext" gi.groupContext.marshal
      let es ← within "group: JoinFromWelcome: EpochSecretsFromJoiner"
        (epochSecretsFromJoiner S gs.joinerSecret (some psk) gcBytes)
      check (confirmationTag S es.confirmationKey
          gi.groupContext.confirmedTranscriptHash = gi.confirmationTag)
        "group: JoinFromWelcome: confirmation_tag mismatch"
      let interim ← within "group: JoinFromWelcome: InterimTranscriptHash"
        (interimTranscriptHash S gi.groupContext.confirmedTranscriptHash gi.confirmationTag)
      let st ← within "group: JoinFromWelcome: NewSecretTree"
        (newSecretTree S rt.leafCount es.encryptionSecret)
      return { groupContext := gi.groupContext
               tree := rt
               priv := priv
               epoch := es
               secretTree := st
               interim := interim
               initSecret := es.initSecret
               ownLeaf := ownLeaf
               signer := opt.signer
               externalPSKs := opt.externalPSKs
               resumptionPSKHistory := [(gi.groupContext.epoch, es.resumptionPSK)]
               appGeneration := 0
               handshakeGeneration := 0
               encryptHandshakes := false
               pendingUpdates := [] }

/-! ## By an external commit -/

def Group.publishGroupInfo (g : Group) : Result GroupInfo := do
  check (g.signer.isSome) "group: PublishGroupInfo: no signer (pure receiver)"
  let rtree ← within "group: PublishGroupInfo: marshal tree" g.tree.marshal
  let (_, extPub) ← within "group: PublishGroupInfo: ExternalPub"
    (externalPub S g.epoch.externalSecret)
  let confTag := confirmationTag S g.epoch.confirmationKey g.groupContext.confirmedTranscriptHash
  let gi : GroupInfo := ⟨g.groupContext,
    [⟨extensionTypeRatchetTree, rtree⟩, ⟨extensionTypeExternalPub, extPub⟩],
    confTag, UInt32.ofNat g.ownLeaf, []⟩
  within "group: PublishGroupInfo: Sign" (gi.sign S g.signer)

def holdsSignatureKey (key : Bytes) : Option Node → Bool
  | some (.leaf l) => l.signatureKey = key
  | _ => false

/-- The first leaf with the given signature key.  The leaves of the tree are
its even slots, and a slot that holds no leaf is skipped. -/
def findLeafBySignatureKey (rt : RatchetTree) (sigKey : Bytes) : Option ℕ :=
  (RatchetTree.leafSlots rt.nodes).findIdx? (holdsSignatureKey sigKey)

/-- Everything one call of `ExternalCommit` draws at random. -/
structure ExternalRandomness where
  kemSeed : Bytes
  keyPackageSeeds : KeyPackageSeeds
  leafSecret : Bytes
  pathSeeds : ℕ → ℕ → Bytes

/-- Step 2: the published tree, validated as `JoinFromWelcome` does, except
that the signature of the group information is not checked. -/
def openPublishedTree (gi : GroupInfo) : Result RatchetTree :=
  match gi.ratchetTreeExtension with
  | none => fail "group: ExternalCommit: GroupInfo has no ratchet_tree extension"
  | some rtreeData => do
      let wt ← within "group: ExternalCommit: ParseRatchetTree"
        (RatchetTree.parseRatchetTree rtreeData)
      let valid ← within
        "group: ExternalCommit: parent hash verification failed"
        (wt.verifyParentHashes S)
      check valid "group: ExternalCommit: parent hash verification failed"
      within "group: ExternalCommit: VerifyLeafSignatures"
        (wt.verifyLeafSignatures S gi.groupContext.groupID)
      let th ← within "group: ExternalCommit: tree hash mismatch" (wt.rootTreeHash S)
      check (th = gi.groupContext.treeHash) "group: ExternalCommit: tree hash mismatch"
      return wt

/-- Step 3: the tree without a prior leaf of the signer, and that leaf. -/
def removePriorLeaf (wt : RatchetTree) (sigPub : Bytes) :
    Result (RatchetTree × Option ℕ) :=
  match findLeafBySignatureKey wt sigPub with
  | none => .ok (wt, none)
  | some oldLeaf => do
      let wt ← within s!"group: ExternalCommit: RemoveLeaf({oldLeaf})" (wt.removeLeaf oldLeaf)
      return (wt, some oldLeaf)

def externalProposals (kemOutput : Bytes) (oldLeaf : Option ℕ) :
    List ProposalOrRef :=
  .proposal (.externalInit kemOutput) ::
    oldLeaf.toList.map fun leaf => .proposal (.remove (UInt32.ofNat leaf))

def externalCommit (gi : GroupInfo) (cred : Credential)
    (signer : Option Signer) (lifetime : Lifetime) (rnd : ExternalRandomness) :
    Result (Group × Bytes) := do
  let extPub ← match gi.externalPubExtension with
    | some extPub => pure extPub
    | none => fail "group: ExternalCommit: GroupInfo has no external_pub extension"
  let (kemOutput, initSecret) ←
    within "group: ExternalCommit: ExternalInitEncap"
      (liftErr (S.externalInitEncap extPub rnd.kemSeed))
  let wt ← openPublishedTree S gi
  let gc := gi.groupContext
  let sigPub ← within "group: ExternalCommit: SignaturePublicKey" (S.publicKeyOf signer)
  let (wt, oldLeaf) ← removePriorLeaf wt sigPub
  let (kp, _, _) ← within "group: ExternalCommit: NewKeyPackage"
    (newKeyPackage S cred signer lifetime rnd.keyPackageSeeds)
  let (liC, wt) ← within "group: ExternalCommit: AddLeaf" (wt.addLeaf kp.leafNode)
  let path ← within "group: ExternalCommit: GenerateUpdatePath"
    (wt.generateUpdatePath S liC rnd.leafSecret signer gc.groupID []
      (fun treeHash => (gc.next treeHash gc.confirmedTranscriptHash gc.extensions).marshal)
      rnd.pathSeeds)
  let cm : Commit := ⟨externalProposals kemOutput oldLeaf, some path.updatePath⟩
  let commitBody ← within "group: ExternalCommit: marshal Commit body" cm.marshal
  let fc : FramedContent := ⟨gc.groupID, gc.epoch, .newMemberCommit, [],
    contentTypeCommit, commitBody⟩
  let (confirmedInput, sig) ← within "group: ExternalCommit: SignCommit"
    (signCommit S signer gc fc .publicMessage)
  let interimN ← within "group: ExternalCommit: InterimTranscriptHash"
    (interimTranscriptHash S gc.confirmedTranscriptHash gi.confirmationTag)
  let confirmed := confirmedTranscriptHash S interimN confirmedInput
  let newTreeHash ← within "group: ExternalCommit: RootTreeHash" (path.tree.rootTreeHash S)
  let newGC := gc.next newTreeHash confirmed gc.extensions
  let newGCBytes ← within "group: ExternalCommit: marshal newGC" newGC.marshal
  let es ← within "group: ExternalCommit: DeriveEpochSecrets"
    (deriveEpochSecrets S initSecret (some path.commitSecret) none newGCBytes)
  let confTag := confirmationTag S es.confirmationKey confirmed
  let commitBytes ← within "group: ExternalCommit: marshal MLSMessage"
    (MLSMessage.marshal ⟨1, .publicMessage ⟨fc, ⟨sig, confTag⟩, []⟩⟩)
  let interim ← within "group: ExternalCommit: InterimTranscriptHash(new)"
    (interimTranscriptHash S confirmed confTag)
  let priv ← senderPriv S "group: ExternalCommit: DeriveSecret(node)"
    "group: ExternalCommit: DeriveKeyPair(leaf)"
    (fun nodeIdx => s!"group: ExternalCommit: AddPathSecret({nodeIdx})")
    liC rnd.leafSecret path.pathSecretByNode
  let st ← within "group: ExternalCommit: NewSecretTree"
    (newSecretTree S path.tree.leafCount es.encryptionSecret)
  return ({ groupContext := newGC
            tree := path.tree
            priv := priv
            epoch := es
            secretTree := st
            interim := interim
            initSecret := es.initSecret
            ownLeaf := liC
            signer := signer
            externalPSKs := []
            resumptionPSKHistory := [(newGC.epoch, es.resumptionPSK)]
            appGeneration := 0
            handshakeGeneration := 0
            encryptHandshakes := false
            pendingUpdates := [] }, commitBytes)

end MlsGo
