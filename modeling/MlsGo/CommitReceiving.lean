import MlsGo.GroupState

/-!
# Receiving commits

The second half of `process.go` and the receiving part of `external_join.go`.
`ProcessCommit` assigns the new state only after every check, so it is a
function from the old group to the new one.
-/

namespace MlsGo

variable (S : Suite)

/-! ## Authentication -/

/-- Reference, proposal and sender of a proposal delivered before a commit. -/
def Group.authenticateProposalMessage (g : Group) (propBytes : Bytes) :
    Result (Bytes × Resolved) := do
  let m ← unmarshalMLSMessage propBytes
  let ac ← match m.body with
    | .publicMessage pm => do
        let leaf := pm.content.sender.leafIndex
        let ln ← within s!"leaf {leaf}" (g.tree.leafNodeAt leaf)
        unprotectPublic S ln.signatureKey g.groupContext g.epoch.membershipKey pm
    | .privateMessage pm =>
        unprotectPrivate S g.sigPubByLeaf g.groupContext g.secretTree g.epoch.senderDataSecret pm
  let acBytes ← ac.marshal
  let ref ← S.refHash "MLS 1.0 Proposal Reference" acBytes
  let prop ← unmarshalProposal ac.content.content
  return (ref, ⟨prop, ac.content.sender.leafIndex⟩)

/-- The references of the delivered proposals in order, and the cache they
fill.  `caller` is the function named in an error. -/
def Group.cacheProposals (g : Group) (caller : String) :
    List Bytes → ℕ → ProposalCache → Result (List Bytes × ProposalCache)
  | [], _, cache => return ([], cache)
  | propBytes :: rest, idx, cache => do
      let (ref, entry) ← within s!"{caller}[{idx}]" (g.authenticateProposalMessage S propBytes)
      let (refs, cache) ← g.cacheProposals caller rest (idx + 1) (cache.set ref entry)
      return (ref :: refs, cache)

/-- `UnprotectPrivate` always names a member as sender, so the check of the
source that follows it cannot fail. -/
def Group.authenticateCommit (g : Group) (m : MLSMessage) :
    Result AuthenticatedContent :=
  match m.body with
  | .publicMessage pm => do
      let leaf := pm.content.sender.leafIndex
      let ln ← within s!"committer leaf {leaf}" (g.tree.leafNodeAt leaf)
      unprotectPublic S ln.signatureKey g.groupContext g.epoch.membershipKey pm
  | .privateMessage pm =>
      unprotectPrivate S g.sigPubByLeaf g.groupContext g.secretTree g.epoch.senderDataSecret pm

/-! ## Moving to the next epoch -/

/-- The group context of the next epoch; both contexts of a commit are made
from it. -/
def GroupContext.next (gc : GroupContext) (treeHash confirmed : Bytes)
    (extensions : List Extension) : GroupContext :=
  { gc with
    epoch := gc.epoch + 1
    treeHash := treeHash
    confirmedTranscriptHash := confirmed
    extensions := extensions }

/-- The state assignments shared by the functions that advance an epoch. -/
def Group.advance (g : Group) (newTree : RatchetTree) (newGC : GroupContext)
    (es : EpochSecrets) (newInterim : Bytes) (newPriv : TreeKEMPrivate)
    (st : SecretTree) : Group :=
  { g with
    resumptionPSKHistory :=
      (g.resumptionPSKHistory.set g.groupContext.epoch
        g.epoch.resumptionPSK).set newGC.epoch es.resumptionPSK
    tree := newTree
    groupContext := newGC
    epoch := es
    initSecret := es.initSecret
    interim := newInterim
    priv := newPriv
    secretTree := st
    appGeneration := 0
    pendingUpdates := [] }

/-- Result of the path part of a commit: the new tree and its hash, the path
secret (empty if none was decrypted) and the commit secret. -/
structure PathOutcome where
  tree : RatchetTree
  treeHash : Bytes
  pathSecret : Bytes
  commitSecret : Option Bytes

/-- The path part shared by member and external commits.  `encGC` builds the
encryption context from the new tree hash. -/
def receivePath (caller : String) (wt : RatchetTree) (senderLeaf : ℕ)
    (path : UpdatePath) (priv : TreeKEMPrivate)
    (encGC : Bytes → GroupContext) (newlyAdded : List ℕ) :
    Result PathOutcome := do
  let ct ← within s!"{caller}: clone for tree hash" wt.clone
  let ct ← within s!"{caller}: Merge (hash clone)" (ct.merge S senderLeaf path)
  let newTreeHash ← within s!"{caller}: post-path RootTreeHash" (ct.rootTreeHash S)
  let encGCBytes ← within s!"{caller}: marshal encGC" (encGC newTreeHash).marshal
  let (pathSecret, commitSecret) ← within s!"{caller}: ProcessUpdatePath"
    (wt.processUpdatePath S senderLeaf path priv encGCBytes newlyAdded)
  let wt ← within s!"{caller}: Merge (working tree)" (wt.merge S senderLeaf path)
  return ⟨wt, newTreeHash, pathSecret, some (orZeros S commitSecret)⟩

def rebuildPriv (caller : String) (ownLeaf committerLeaf nLeaves : ℕ)
    (workingPriv : TreeKEMPrivate) (pathSecret : Bytes) :
    Result TreeKEMPrivate :=
  if pathSecret = [] then .ok workingPriv
  else
    match workingPriv.privateKey (u32 (2 * ownLeaf)) with
    | none => fail s!"{caller}: own leaf private key missing"
    | some ownKey =>
        within s!"{caller}: installJoinerPriv"
          (installJoinerPriv S (TreeKEMPrivate.new ownLeaf ownKey) pathSecret
            ownLeaf committerLeaf nLeaves)

/-! ## External commits -/

/-- The only ExternalInit of an external commit, and its path.  The loop
counts the ExternalInits and rejects what may not be in such a commit. -/
def validateExternalLoop :
    List ProposalOrRef → Option Bytes → ℕ → Result (Option Bytes × ℕ)
  | [], extInit, count => return (extInit, count)
  | .reference _ :: _, _, _ => fail
      "group: external commit: by-reference proposals not allowed (§12.4.3.2)"
  | .proposal p :: rest, extInit, count =>
      match p with
      | .externalInit kemOutput => validateExternalLoop rest (some kemOutput) (count + 1)
      | .remove _ | .preSharedKey _ | .groupContextExtensions _ =>
          validateExternalLoop rest extInit count
      | .add _ => fail "group: external commit: proposal type 1 not allowed (§12.4.3.2)"
      | .update _ => fail "group: external commit: proposal type 2 not allowed (§12.4.3.2)"
      | .reInit _ _ _ _ => fail "group: external commit: proposal type 5 not allowed (§12.4.3.2)"

def validateExternalCommit (cm : Commit) : Result (Bytes × UpdatePath) :=
  match cm.path with
  | none => fail "group: external commit: path is required (§12.4.3.2)"
  | some path => do
      let (extInit, count) ← validateExternalLoop cm.proposals none 0
      match extInit, count with
      | some kemOutput, 1 => return (kemOutput, path)
      | _, _ =>
          fail s!"group: external commit: must have exactly 1 ExternalInit proposal, got {count} (§12.4.3.2)"

def removedLeaves : List ProposalOrRef → List UInt32
  | [] => []
  | .proposal (.remove removed) :: rest => removed :: removedLeaves rest
  | _ :: rest => removedLeaves rest

def checkExternalRemoves (t : RatchetTree) (joinerSigKey : Bytes) :
    List UInt32 → Result Unit
  | [] => return ()
  | removed :: rest => do
      let ln ← within
        s!"group: processExternalCommit: Remove targets leaf {removed}"
        (t.leafNodeAt removed.toNat)
      check (ln.signatureKey = joinerSigKey)
        s!"group: processExternalCommit: Remove of leaf {removed} is not the joiner's own leaf (§12.4.3.2)"
      checkExternalRemoves t joinerSigKey rest

def applyExternalRemoves (t : RatchetTree) :
    List UInt32 → Result RatchetTree
  | [] => .ok t
  | removed :: rest => do
      let t ← within s!"group: processExternalCommit: RemoveLeaf({removed})"
        (t.removeLeaf removed.toNat)
      applyExternalRemoves t rest

def isCommitLeaf (l : LeafNode) : Bool :=
  match l.leafNodeSource with
  | .commit _ => true
  | _ => false

/-- An external commit that passed the checks made before the tree is
touched. -/
structure ExternalCommitContent where
  ac : AuthenticatedContent
  proposals : List ProposalOrRef
  kemOutput : Bytes
  path : UpdatePath

/-- Step 1 of `processExternalCommit`: shape, signature and authorization. -/
def Group.authenticateExternalCommit (g : Group) (m : MLSMessage) :
    Result ExternalCommitContent :=
  match m.body with
  | .privateMessage _ => fail "group: processExternalCommit: not a PublicMessage"
  | .publicMessage pm => do
      check (pm.content.sender = .newMemberCommit)
        s!"group: processExternalCommit: sender type {pm.content.sender.code}, want new_member_commit"
      check (pm.content.contentType = contentTypeCommit)
        s!"group: processExternalCommit: content type {pm.content.contentType}, want commit"
      let cm ← within "group: processExternalCommit: parse Commit body"
        (unmarshalCommit pm.content.content)
      let (kemOutput, path) ← validateExternalCommit cm
      let ac ← within "group: processExternalCommit: authenticate"
        (unprotectPublic S path.leafNode.signatureKey g.groupContext [] pm)
      check (ac.content.epoch = g.groupContext.epoch)
        s!"group: processExternalCommit: commit epoch {ac.content.epoch} != group epoch {g.groupContext.epoch}"
      check (isCommitLeaf path.leafNode)
        s!"group: processExternalCommit: joiner leaf_node_source {path.leafNode.leafNodeSource.code}, want commit (§7.6)"
      checkExternalRemoves g.tree path.leafNode.signatureKey (removedLeaves cm.proposals)
      return ⟨ac, cm.proposals, kemOutput, path⟩

/-- Step 3: the tree with the stale leaf removed and the joiner's leaf added,
at an index no message carries. -/
def Group.placeExternalJoiner (g : Group) (removed : List UInt32)
    (leaf : LeafNode) : Result (ℕ × RatchetTree) := do
  let wt ← within "group: processExternalCommit: clone tree" g.tree.clone
  let wt ← applyExternalRemoves wt removed
  let (liC, wt) ← within "group: processExternalCommit: AddLeaf" (wt.addLeaf leaf)
  let signed ←
    within "group: processExternalCommit: verify joiner leaf signature"
      (leaf.verifySignature S g.groupContext.groupID liC)
  check signed "group: processExternalCommit: joiner leaf signature invalid (§7.3)"
  return (liC, wt)

def Group.processExternalCommit (g : Group) (m : MLSMessage) :
    Result Group := do
  let content ← g.authenticateExternalCommit S m
  let acBytes ← within "group: processExternalCommit: marshal AC" content.ac.marshal
  let (confirmedInput, confTag) ←
    within "group: processExternalCommit: SplitAuthenticatedContent"
      (splitAuthenticatedContent S acBytes)
  let (extPriv, _) ← within "group: processExternalCommit: ExternalPub"
    (externalPub S g.epoch.externalSecret)
  let initSecret ← within "group: processExternalCommit: ExternalInitDecap"
    (liftErr (S.externalInitDecap extPriv content.kemOutput))
  let (liC, wt) ← g.placeExternalJoiner S (removedLeaves content.proposals) content.path.leafNode
  let out ← receivePath S "group: processExternalCommit" wt liC content.path
    g.priv
    (fun treeHash => g.groupContext.next treeHash
      g.groupContext.confirmedTranscriptHash g.groupContext.extensions)
    []
  let valid ← within "group: processExternalCommit: VerifyParentHashes"
    (out.tree.verifyParentHashes S)
  check valid "group: processExternalCommit: parent hash verification failed (§7.9.2)"
  let confirmed := confirmedTranscriptHash S g.interim confirmedInput
  let newGC := g.groupContext.next out.treeHash confirmed g.groupContext.extensions
  let newGCBytes ← within "group: processExternalCommit: marshal newGC" newGC.marshal
  let es ← within "group: processExternalCommit: DeriveEpochSecrets"
    (deriveEpochSecrets S initSecret out.commitSecret none newGCBytes)
  check (confirmationTag S es.confirmationKey confirmed = confTag)
    "group: processExternalCommit: confirmation_tag mismatch"
  let interim ← within "group: processExternalCommit: InterimTranscriptHash"
    (interimTranscriptHash S confirmed confTag)
  match g.priv.privateKey (u32 (2 * g.ownLeaf)) with
  | none => fail "group: processExternalCommit: own leaf private key missing"
  | some ownKey =>
      let newPriv ← rebuildPriv S "group: processExternalCommit" g.ownLeaf liC
        out.tree.leafCount (TreeKEMPrivate.new g.ownLeaf ownKey) out.pathSecret
      let st ← within "group: processExternalCommit: NewSecretTree"
        (newSecretTree S out.tree.leafCount es.encryptionSecret)
      return g.advance out.tree newGC es interim newPriv st

/-! ## Member commits -/

def MLSMessage.isExternalCommit (m : MLSMessage) : Bool :=
  match m.body with
  | .publicMessage pm => pm.content.sender = .newMemberCommit
  | .privateMessage _ => false

/-- The path part of a member commit.  Without a path only the tree hash is
computed and there is no commit secret. -/
def Group.receiveCommitPath (g : Group) (applied : AppliedProposals)
    (committerLeaf : ℕ) (workingPriv : TreeKEMPrivate) :
    Option UpdatePath → Result PathOutcome
  | some path =>
      receivePath S "group: ProcessCommit" applied.tree committerLeaf path
        workingPriv
        (fun treeHash => g.groupContext.next treeHash
          g.groupContext.confirmedTranscriptHash applied.provisionalExt)
        applied.newlyAdded
  | none => do
      let treeHash ← within "group: ProcessCommit: RootTreeHash (no path)"
        (applied.tree.rootTreeHash S)
      return ⟨applied.tree, treeHash, [], none⟩

/-- The private state with which the path of a commit is read: the pending key
alone if an own Update is committed. -/
def Group.workingPriv (g : Group) (ownUpdatePriv : Option Bytes) :
    TreeKEMPrivate :=
  match ownUpdatePriv with
  | some priv => TreeKEMPrivate.new g.ownLeaf priv
  | none => g.priv

/-- The part of `ProcessCommit` after authentication: `ac` is the
authenticated commit, `cm` its body. -/
def Group.processMemberCommit (g : Group) (cache : ProposalCache)
    (ac : AuthenticatedContent) (cm : Commit) : Result Group := do
  let committerLeaf := ac.content.sender.leafIndex
  let wt ← within "group: ProcessCommit: clone tree" g.tree.clone
  let applied ← within "group: ProcessCommit: applyProposals"
    (applyProposals wt cm cache g.groupContext.extensions g.externalPSKs
      g.resumptionPSKs g.groupContext.groupID committerLeaf)
  let ownUpdatePriv ← within "group: ProcessCommit"
    (g.resolveOwnUpdatePriv cache committerLeaf cm.proposals)
  let workingPriv := g.workingPriv ownUpdatePriv
  let acBytes ← within "group: ProcessCommit: marshal AuthenticatedContent" ac.marshal
  let (confirmedInput, confTag) ←
    within "group: ProcessCommit: SplitAuthenticatedContent" (splitAuthenticatedContent S acBytes)
  let confirmed := confirmedTranscriptHash S g.interim confirmedInput
  let out ← g.receiveCommitPath S applied committerLeaf workingPriv cm.path
  let newGC := g.groupContext.next out.treeHash confirmed applied.provisionalExt
  let newGCBytes ← within "group: ProcessCommit: marshal newGC" newGC.marshal
  let psk ← within "group: ProcessCommit: PSKSecret" (pskSecret S applied.psks)
  let es ← within "group: ProcessCommit: DeriveEpochSecrets"
    (deriveEpochSecrets S g.initSecret out.commitSecret (some psk) newGCBytes)
  check (confirmationTag S es.confirmationKey confirmed = confTag)
    "group: ProcessCommit: confirmation_tag mismatch"
  let interim ← within "group: ProcessCommit: InterimTranscriptHash"
    (interimTranscriptHash S confirmed confTag)
  let newPriv ← rebuildPriv S "group: ProcessCommit" g.ownLeaf committerLeaf
    out.tree.leafCount workingPriv out.pathSecret
  let st ← within "group: ProcessCommit: NewSecretTree"
    (newSecretTree S out.tree.leafCount es.encryptionSecret)
  return { g.advance out.tree newGC es interim newPriv st with
    handshakeGeneration := 0 }

/-- The authenticated commit and its body, or an error.  `ProcessCommit` does
not look at the content type. -/
def Group.openMemberCommit (g : Group) (m : MLSMessage) :
    Result (AuthenticatedContent × Commit) := do
  let ac ← within "group: ProcessCommit: authenticate commit" (g.authenticateCommit S m)
  check (ac.content.epoch = g.groupContext.epoch)
    s!"group: ProcessCommit: commit epoch {ac.content.epoch} != group epoch {g.groupContext.epoch}"
  let cm ← within "group: ProcessCommit: parse Commit body" (unmarshalCommit ac.content.content)
  return (ac, cm)

def Group.processCommit (g : Group) (proposals : List Bytes)
    (commit : Bytes) : Result Group := do
  let (_, cache) ← g.cacheProposals S "group: ProcessCommit: proposal" proposals 0 []
  let m ← within "group: ProcessCommit: parse commit" (unmarshalMLSMessage commit)
  if m.isExternalCommit then g.processExternalCommit S m
  else
    let (ac, cm) ← g.openMemberCommit S m
    g.processMemberCommit S cache ac cm

end MlsGo
