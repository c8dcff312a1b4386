import MlsGo.CommitReceiving

/-!
# Sending proposals and commits

Files `commit_gen.go`, `welcome_gen.go` and `propose.go`.  Random draws are
explicit arguments.
-/

namespace MlsGo

variable (S : Suite)

structure CommitOptions where
  byValue : List Proposal
  byReference : List Bytes

structure CommitRandomness where
  leafSecret : Bytes
  pathSeeds : ℕ → ℕ → Bytes
  guard : ReuseGuard
  welcomeSeeds : ℕ → Bytes

/-! ## Welcomes -/

/-- The encrypted group secrets of the added members, from the `i`-th on. -/
def welcomeSecrets (es : EpochSecrets) (nLeaves committerLeaf : ℕ)
    (pathSecretByNode : GoMap ℕ Bytes) (pskIDs : List PreSharedKeyID)
    (encGI : Bytes) (seeds : ℕ → Bytes) :
    ℕ → List (ℕ × KeyPackage) → Result (List EncryptedGroupSecrets)
  | _, [] => .ok []
  | i, (addedLeaf, kp) :: rest => do
      let node ← commonAncestor (u32 (2 * addedLeaf)) (u32 (2 * committerLeaf)) nLeaves
      match pathSecretByNode.get node with
      | none => .error (.err (.noPathSecret node addedLeaf committerLeaf))
      | some ps =>
          let gs : GroupSecrets := ⟨es.joinerSecret, some ps, pskIDs⟩
          let gsBytes ← within s!"group: buildWelcome: marshal GroupSecrets[{i}]" gs.marshal
          let (kem, ct) ← within s!"group: buildWelcome: EncryptWithLabel[{i}]"
            (S.encryptWithLabel kp.initKey "Welcome" encGI gsBytes (seeds i))
          let ref ← within s!"group: buildWelcome: KP Ref[{i}]" (kp.ref S)
          let others ← welcomeSecrets es nLeaves committerLeaf pathSecretByNode
            pskIDs encGI seeds (i + 1) rest
          return ⟨ref, ⟨kem, ct⟩⟩ :: others

def buildWelcome (es : EpochSecrets) (newGC : GroupContext) (wt : RatchetTree)
    (committerLeaf : ℕ) (signer : Option Signer)
    (added : List (ℕ × KeyPackage)) (pathSecretByNode : GoMap ℕ Bytes)
    (confTag : Bytes) (pskIDs : List PreSharedKeyID) (seeds : ℕ → Bytes) :
    Result Bytes := do
  let rtreeData ← within "group: buildWelcome: MarshalMLS tree" wt.marshal
  let gi : GroupInfo := ⟨newGC, [⟨extensionTypeRatchetTree, rtreeData⟩],
    confTag, UInt32.ofNat committerLeaf, []⟩
  let gi ← within "group: buildWelcome: GroupInfo.Sign" (gi.sign S signer)
  let giBytes ← within "group: buildWelcome: GroupInfo.MarshalMLS" gi.marshal
  let (wk, wn) ← within "group: buildWelcome: WelcomeKeyNonce" (welcomeKeyNonce S es.welcomeSecret)
  let encGI ← within "group: buildWelcome: Seal(GroupInfo)" (liftErr (S.aeadSeal wk wn [] giBytes))
  let secrets ← welcomeSecrets S es wt.leafCount committerLeaf
    pathSecretByNode pskIDs encGI seeds 0 added
  encodeWelcomeMessage ⟨S.id, secrets, encGI⟩

/-! ## Commits -/

def addPathSecrets (nodeText : ℕ → String) (priv : TreeKEMPrivate) :
    List (ℕ × Bytes) → Result TreeKEMPrivate
  | [] => .ok priv
  | (nodeIdx, ps) :: rest => do
      let priv ← within (nodeText nodeIdx) (priv.addPathSecret S nodeIdx ps)
      addPathSecrets nodeText priv rest

/-- The private state of the sender of a path: the new leaf key and one key
for each path node.  The texts name the failing step. -/
def senderPriv (secretText keyText : String) (nodeText : ℕ → String)
    (ownLeaf : ℕ) (leafSecret : Bytes) (pathSecretByNode : GoMap ℕ Bytes) :
    Result TreeKEMPrivate := do
  let leafNodeSecret ← within secretText (S.deriveSecret leafSecret "node")
  let (newLeafPriv, _) ← within keyText (liftErr (S.deriveKeyPair leafNodeSecret))
  addPathSecrets S nodeText (TreeKEMPrivate.new ownLeaf newLeafPriv) pathSecretByNode

/-- Steps 1 to 4 of `Commit`: everything that is fixed before the message is
framed. -/
structure CommitDraft where
  applied : AppliedProposals
  path : RatchetTree.GeneratedPath
  content : FramedContent
  signature : Bytes
  confirmed : Bytes
  newGC : GroupContext
  secrets : EpochSecrets
  confTag : Bytes

def commitProposals (refs : List Bytes) (byValue : List Proposal) :
    List ProposalOrRef := refs.map .reference ++ byValue.map .proposal

def Group.wireFormat (g : Group) : WireFormat :=
  if g.encryptHandshakes then .privateMessage else .publicMessage

def Group.draftCommit (g : Group) (opt : CommitOptions)
    (rnd : CommitRandomness) : Result CommitDraft := do
  let wt ← within "group: Commit: clone tree" g.tree.clone
  let (refs, cache) ← g.cacheProposals S "group: Commit: by-reference" opt.byReference 0 []
  let proposals := commitProposals refs opt.byValue
  let applied ← within "group: Commit: applyProposals"
    (applyProposals wt ⟨proposals, none⟩ cache g.groupContext.extensions
      g.externalPSKs g.resumptionPSKs g.groupContext.groupID g.ownLeaf)
  let path ← within "group: Commit: GenerateUpdatePath"
    (applied.tree.generateUpdatePath S g.ownLeaf rnd.leafSecret g.signer
      g.groupContext.groupID applied.newlyAdded
      (fun treeHash => (g.groupContext.next treeHash
        g.groupContext.confirmedTranscriptHash
        applied.provisionalExt).marshal)
      rnd.pathSeeds)
  let cm : Commit := ⟨proposals, some path.updatePath⟩
  let commitBody ← within "group: Commit: marshal Commit body" cm.marshal
  let fc : FramedContent := ⟨g.groupContext.groupID, g.groupContext.epoch,
    .member (UInt32.ofNat g.ownLeaf), [], contentTypeCommit, commitBody⟩
  let (confirmedInput, sig) ← within "group: Commit: SignCommit"
    (signCommit S g.signer g.groupContext fc g.wireFormat)
  let confirmed := confirmedTranscriptHash S g.interim confirmedInput
  let newTreeHash ← within "group: Commit: RootTreeHash" (path.tree.rootTreeHash S)
  let newGC := g.groupContext.next newTreeHash confirmed applied.provisionalExt
  let newGCBytes ← within "group: Commit: marshal newGC" newGC.marshal
  let psk ← within "group: Commit: PSKSecret" (pskSecret S applied.psks)
  let es ← within "group: Commit: DeriveEpochSecrets"
    (deriveEpochSecrets S g.initSecret (some path.commitSecret) (some psk) newGCBytes)
  return ⟨applied, path, fc, sig, confirmed, newGC, es,
    confirmationTag S es.confirmationKey confirmed⟩

def Group.assembleCommit (g : Group) (d : CommitDraft) (guard : ReuseGuard) :
    Result MLSMessage :=
  match g.wireFormat with
  | .privateMessage => do
      let pm ← within "group: Commit: AssembleCommitPrivate"
        (assembleCommitPrivate S g.secretTree g.epoch.senderDataSecret
          d.content g.handshakeGeneration guard 0 d.signature d.confTag)
      return ⟨1, .privateMessage pm⟩
  | .publicMessage => do
      let pm ← within "group: Commit: AssembleCommitPublic"
        (assembleCommitPublic S g.groupContext g.epoch.membershipKey
          d.content d.signature d.confTag)
      return ⟨1, .publicMessage pm⟩

structure CommitResult where
  group : Group
  commit : Bytes
  welcome : Option Bytes

def Group.commitWelcome (g : Group) (d : CommitDraft)
    (rnd : CommitRandomness) : Result (Option Bytes) :=
  if d.applied.added.isEmpty then return none
  else do
    let welcome ← within "group: Commit: buildWelcome"
      (buildWelcome S d.secrets d.newGC d.path.tree g.ownLeaf g.signer
        d.applied.added d.path.pathSecretByNode d.confTag
        (d.applied.psks.map (·.id)) rnd.welcomeSeeds)
    return some welcome

/-- Steps 4 to 6 of `Commit`: framing, Welcome and the new state. -/
def Group.finishCommit (g : Group) (d : CommitDraft)
    (rnd : CommitRandomness) : Result CommitResult := do
  let message ← g.assembleCommit S d rnd.guard
  let commitBytes ← within "group: Commit: marshal commit MLSMessage" message.marshal
  let welcome ← g.commitWelcome S d rnd
  let interim ← within "group: Commit: InterimTranscriptHash"
    (interimTranscriptHash S d.confirmed d.confTag)
  let newPriv ← senderPriv S "group: Commit: DeriveSecret(leafNodeSecret)"
    "group: Commit: DeriveKeyPair(newLeaf)"
    (fun nodeIdx => s!"group: Commit: AddPathSecret(node {nodeIdx})")
    g.ownLeaf rnd.leafSecret d.path.pathSecretByNode
  let st ← within "group: Commit: NewSecretTree"
    (newSecretTree S d.path.tree.leafCount d.secrets.encryptionSecret)
  return { group := { g.advance d.path.tree d.newGC d.secrets interim newPriv
             st with handshakeGeneration := 0 }
           commit := commitBytes
           welcome := welcome }

def Group.commit (g : Group) (opt : CommitOptions) (rnd : CommitRandomness) :
    Result CommitResult := do
  let d ← g.draftCommit S opt rnd
  g.finishCommit S d rnd

/-! ## Proposals -/

/-- A fresh Update of the own leaf; its private key is kept as pending. -/
def Group.proposeUpdate (g : Group) (seed : Bytes) :
    Result (Proposal × Group) := do
  let (leafPriv, leafPub) ← liftErr (S.generateHPKEKeyPair seed)
  let cur ← g.tree.leafNodeAt g.ownLeaf
  let ln ← signLeafNode S g.signer
    { cur with encryptionKey := leafPub, leafNodeSource := .update }
    g.groupContext.groupID g.ownLeaf
  return (.update ln, { g with pendingUpdates := g.pendingUpdates.set leafPub leafPriv })

def Group.frameProposal (g : Group) (p : Proposal) (guard : ReuseGuard) :
    Result (Bytes × Group) := do
  let body ← p.marshal
  let fc : FramedContent := ⟨g.groupContext.groupID, g.groupContext.epoch,
    .member (UInt32.ofNat g.ownLeaf), [], contentTypeProposal, body⟩
  match g.wireFormat with
  | .privateMessage =>
      let pm ← protectPrivate S g.signer g.groupContext g.secretTree
        g.epoch.senderDataSecret fc g.handshakeGeneration guard 0 []
      let bytes ← MLSMessage.marshal ⟨1, .privateMessage pm⟩
      return (bytes, { g with handshakeGeneration := g.handshakeGeneration + 1 })
  | .publicMessage =>
      let pm ← protectPublic S g.signer g.groupContext g.epoch.membershipKey fc []
      let bytes ← MLSMessage.marshal ⟨1, .publicMessage pm⟩
      return (bytes, g)

/-! ## Application messages -/

/-- `ProtectApplication`.  The generation is used up as soon as the message is
sealed, even if its encoding fails. -/
def Group.protectApplication (g : Group) (plaintext authenticatedData : Bytes)
    (guard : ReuseGuard) : Result Bytes × Group :=
  let fc : FramedContent := ⟨g.groupContext.groupID, g.groupContext.epoch,
    .member (UInt32.ofNat g.ownLeaf), authenticatedData, contentTypeApplication,
    plaintext⟩
  match protectPrivate S g.signer g.groupContext g.secretTree
      g.epoch.senderDataSecret fc g.appGeneration guard 0 [] with
  | .error fault => (.error fault, g)
  | .ok pm => (MLSMessage.marshal ⟨1, .privateMessage pm⟩,
      { g with appGeneration := g.appGeneration + 1 })

/-- `UnprotectApplication`: plaintext and authenticated data. -/
def Group.unprotectApplication (g : Group) (msg : Bytes) :
    Result (Bytes × Bytes) := do
  let m ← unmarshalMLSMessage msg
  match m.body with
  | .publicMessage _ => fail "group: not a PrivateMessage"
  | .privateMessage pm =>
      check (pm.contentType = contentTypeApplication) "group: not an application message"
      let ac ← unprotectPrivate S g.sigPubByLeaf g.groupContext g.secretTree
        g.epoch.senderDataSecret pm
      return (ac.content.content, ac.content.authenticatedData)

end MlsGo
