import MlsGo.CommitReceiving
import MlsGo.InPlacePrograms

/-!
# Processing a commit in place

`ProcessCommit` works on pointers: a tree is a slice of pointers to nodes, a
proposal or a path writes through them, and a group holds pointers to its tree
and to its private keys.  Here the receiving functions are translated a second
time, with the writes the source makes; a step that only reads calls the function
on values.  A failure leaves whatever was written so far.
-/

namespace MlsGo

open InPlacePrograms

variable (S : Suite)

/-- The struct `Group`; `tree` and `priv` are addresses. -/
structure GroupObject where
  groupContext : GroupContext
  tree : ℕ
  priv : ℕ
  epoch : EpochSecrets
  secretTree : SecretTree
  interim : Bytes
  initSecret : Bytes
  ownLeaf : ℕ
  signer : Option Signer
  externalPSKs : GoMap Bytes Bytes
  resumptionPSKHistory : GoMap UInt64 Bytes
  appGeneration : UInt32
  handshakeGeneration : UInt32
  encryptHandshakes : Bool
  pendingUpdates : GoMap Bytes Bytes

/-- The objects reachable from a group: nodes, trees (a slot is nil or the
address of a node) and private states, each allocated in order. -/
structure Memory where
  nodes : List Node
  trees : List (List (Option ℕ))
  privs : List TreeKEMPrivate
  group : GroupObject

namespace Memory

def load (m : Memory) (slot : Option ℕ) : Option Node := slot.bind fun q => m.nodes[q]?

def slots (m : Memory) (a : ℕ) : List (Option ℕ) := m.trees.getD a []

def tree (m : Memory) (a : ℕ) : RatchetTree := ⟨(m.slots a).map m.load⟩

def priv (m : Memory) (a : ℕ) : TreeKEMPrivate := m.privs.getD a ⟨0, []⟩

def view (m : Memory) : Group where
  groupContext := m.group.groupContext
  tree := m.tree m.group.tree
  priv := m.priv m.group.priv
  epoch := m.group.epoch
  secretTree := m.group.secretTree
  interim := m.group.interim
  initSecret := m.group.initSecret
  ownLeaf := m.group.ownLeaf
  signer := m.group.signer
  externalPSKs := m.group.externalPSKs
  resumptionPSKHistory := m.group.resumptionPSKHistory
  appGeneration := m.group.appGeneration
  handshakeGeneration := m.group.handshakeGeneration
  encryptHandshakes := m.group.encryptHandshakes
  pendingUpdates := m.group.pendingUpdates

end Memory

abbrev GoProg := Prog Fault Memory

def wrapFault (message : String) : Fault → Fault
  | .err error => .err (.wrap message error)
  | fault => fault

namespace GoProg

def inside {α : Type} (message : String) (p : GoProg α) : GoProg α :=
  p.mapFault (wrapFault message)

def group : GoProg Group := Prog.read Memory.view

def onTree {α : Type} (a : ℕ) (f : RatchetTree → Result α) : GoProg α :=
  Prog.ask fun m => f (m.tree a)

/-! ## Allocation and writes -/

def newNode (n : Node) : GoProg ℕ := do
  let q ← Prog.read fun m => m.nodes.length
  Prog.update fun m => { m with nodes := m.nodes ++ [n] }
  return q

def setSlots (a : ℕ) (slots : List (Option ℕ)) : GoProg Unit :=
  Prog.update fun m => { m with trees := m.trees.set a slots }

def setSlot (a i : ℕ) (slot : Option ℕ) : GoProg Unit := do
  let slots ← Prog.read fun m => m.slots a
  if i < slots.length then setSlots a (slots.set i slot)
  else Prog.lift (.error .panic)

def storeNode (a i : ℕ) (n : Node) : GoProg Unit := do
  let q ← newNode n
  setSlot a i (some q)

def slotAt (a i : ℕ) : GoProg (Option ℕ) :=
  Prog.ask fun m =>
    match (m.slots a)[i]? with
    | some slot => .ok slot
    | none => .error .panic

/-- The node at address `q`; every address comes from an allocation. -/
def nodeAt (q : ℕ) : GoProg Node :=
  Prog.ask fun m =>
    match m.nodes[q]? with
    | some n => .ok n
    | none => .error .panic

def setNode (q : ℕ) (n : Node) : GoProg Unit :=
  Prog.update fun m => { m with nodes := m.nodes.set q n }

/-! ## Trees -/

def newSlots : List (Option Node) → GoProg (List (Option ℕ))
  | [] => return []
  | none :: rest => do
      let slots ← newSlots rest
      return none :: slots
  | some n :: rest => do
      let q ← newNode n
      let slots ← newSlots rest
      return some q :: slots

def newTree (t : RatchetTree) : GoProg ℕ := do
  let slots ← newSlots t.nodes
  let a ← Prog.read fun m => m.trees.length
  Prog.update fun m => { m with trees := m.trees ++ [slots] }
  return a

def clone (a : ℕ) : GoProg ℕ := do
  let t ← onTree a RatchetTree.clone
  newTree t

/-- The loop to the root of `RatchetTree.walkUp`, for a visit that writes. -/
def walkUp (leaves root : ℕ) (visit : ℕ → GoProg Unit) : ℕ → ℕ → GoProg Unit
  | 0, _ => Prog.lift (.error .diverge)
  | fuel + 1, x =>
      if x = root then return ()
      else do
        let (p, _) ← Prog.lift (parent x leaves)
        visit p
        walkUp leaves root visit fuel p

def blankPath (a x : ℕ) : GoProg Unit := do
  let leaves ← Prog.read fun m => (m.tree a).leafCount
  walkUp leaves (root leaves) (fun p => setSlot a p none) RatchetTree.walkFuel x

def updateLeaf (a leaf : ℕ) (ln : LeafNode) : GoProg Unit := do
  let width ← Prog.read fun m => (m.tree a).width
  if width ≤ u32 (2 * leaf) then
    Prog.lift (fail s!"tree: UpdateLeaf: leaf {leaf} out of range")
  else
    storeNode a (u32 (2 * leaf)) (.leaf ln)
    blankPath a (u32 (2 * leaf))

def padSlots (slots : List (Option ℕ)) : List (Option ℕ) :=
  slots ++ List.replicate (RatchetTree.fullWidth (u32 slots.length) - u32 slots.length) none

/-- The truncating loop of `RemoveLeaf`, on the reversed slice. -/
def truncateSlots : List (Option ℕ) → List (Option ℕ)
  | none :: slot :: rest => truncateSlots (slot :: rest)
  | slots => slots

def removeLeaf (a leaf : ℕ) : GoProg Unit := do
  let width ← Prog.read fun m => (m.tree a).width
  if width ≤ u32 (2 * leaf) then
    Prog.lift (fail s!"tree: RemoveLeaf: leaf {leaf} out of range")
  else
    setSlot a (u32 (2 * leaf)) none
    blankPath a (u32 (2 * leaf))
    let slots ← Prog.read fun m => m.slots a
    setSlots a (padSlots (truncateSlots slots.reverse).reverse)

/-- `t.nodes[p].Parent.UnmergedLeaves = newUL` if there is a parent. -/
def addUnmerged (a p : ℕ) (leafIndex : UInt32) : GoProg Unit := do
  let slot ← slotAt a p
  match slot with
  | none => return ()
  | some q =>
      let n ← nodeAt q
      match n with
      | .leaf _ => return ()
      | .parent p => setNode q (.parent
          { p with
            unmergedLeaves := RatchetTree.insertLeaf leafIndex p.unmergedLeaves })

def placeLeaf (a : ℕ) (ln : LeafNode) (leafIndex : ℕ) : GoProg ℕ := do
  let newNode := 2 * leafIndex
  storeNode a newNode (.leaf ln)
  let leaves ← Prog.read fun m => (m.tree a).leafCount
  walkUp leaves (root leaves)
    (fun p => addUnmerged a p (UInt32.ofNat leafIndex)) RatchetTree.walkFuel
    newNode
  return leafIndex

def addLeaf (a : ℕ) (ln : LeafNode) : GoProg ℕ := do
  let found ← onTree a RatchetTree.firstBlankLeaf
  match found with
  | some leafIndex => placeLeaf a ln leafIndex
  | none =>
      let slots ← Prog.read fun m => m.slots a
      setSlots a (padSlots (slots ++ [none, none]))
      let found ← onTree a RatchetTree.firstBlankLeaf
      match found with
      | some leafIndex => placeLeaf a ln leafIndex
      | none => Prog.lift (fail "tree: AddLeaf: no blank slot after growing")

/-! ## Update paths -/

def installKeys (a : ℕ) : List (ℕ × Bytes) → GoProg Unit
  | [] => return ()
  | (p, pub) :: rest => do
      storeNode a p (.parent ⟨pub, [], []⟩)
      installKeys a rest

def setParentHash (a p : ℕ) (parentHash : Bytes) : GoProg Unit := do
  let slot ← slotAt a p
  match slot with
  | none => Prog.lift (.error .panic)
  | some q =>
      let n ← nodeAt q
      match n with
      | .leaf _ => Prog.lift (.error .panic)
      | .parent node => setNode q (.parent { node with parentHash })

def assignParentHashes (a : ℕ) : List ℕ → GoProg Unit
  | [] => return ()
  | [p] => setParentHash a p []
  | p :: parent :: rest => do
      assignParentHashes a (parent :: rest)
      let ph ← onTree a fun t => t.parentHashFor S p parent
      setParentHash a p ph

def installPath (a senderLeaf : ℕ) (nodePubs : List Bytes) : GoProg Unit := do
  let fdp ← onTree a fun t => t.filteredDirectPath senderLeaf
  if fdp.length ≠ nodePubs.length then
    Prog.lift (fail s!"tree: {nodePubs.length} public keys for filtered direct path of length {fdp.length}")
  else
    blankPath a (u32 (2 * senderLeaf))
    installKeys a (fdp.zip nodePubs)
    assignParentHashes S a fdp

def merge (a senderLeaf : ℕ) (up : UpdatePath) : GoProg Unit := do
  installPath S a senderLeaf (up.nodes.map (·.encryptionKey))
  storeNode a (u32 (2 * senderLeaf)) (.leaf up.leafNode)

/-! ## Private states -/

def newPriv (p : TreeKEMPrivate) : GoProg ℕ := do
  let b ← Prog.read fun m => m.privs.length
  Prog.update fun m => { m with privs := m.privs ++ [p] }
  return b

def addPathSecret (b node : ℕ) (pathSecret : Bytes) : GoProg Unit := do
  let (priv, _) ← Prog.lift (nodeKeyPair S pathSecret)
  Prog.update fun m => { m with
    privs := m.privs.set b { m.priv b with privs := (m.priv b).privs.set node priv } }

def installJoinerLoop (b nLeaves : ℕ) : ℕ → ℕ → Bytes → GoProg Unit
  | 0, _, _ => Prog.lift (.error .diverge)
  | fuel + 1, node, sec => do
      addPathSecret S b node sec
      if node = root nLeaves then return ()
      else
        let sec ← Prog.lift (S.deriveSecret sec "path")
        let (node, _) ← Prog.lift (parent node nLeaves)
        installJoinerLoop b nLeaves fuel node sec

def installJoinerPriv (b : ℕ) (pathSecret : Bytes)
    (ownLeaf senderLeaf nLeaves : ℕ) : GoProg Unit := do
  let node ← Prog.lift (commonAncestor (u32 (2 * ownLeaf)) (u32 (2 * senderLeaf)) nLeaves)
  installJoinerLoop S b nLeaves 34 node pathSecret

/-! ## Proposals -/

def applyUpdates (a : ℕ) : List Resolved → GoProg Unit
  | [] => return ()
  | ⟨.update ln, sender⟩ :: rest => do
      inside s!"group: applyProposals: UpdateLeaf({sender})" (updateLeaf a sender ln)
      applyUpdates a rest
  | _ :: rest => applyUpdates a rest

def applyRemoves (a : ℕ) : List Resolved → GoProg Unit
  | [] => return ()
  | ⟨.remove removed, _⟩ :: rest => do
      inside s!"group: applyProposals: RemoveLeaf({removed})" (removeLeaf a removed.toNat)
      applyRemoves a rest
  | _ :: rest => applyRemoves a rest

def applyAdds (a : ℕ) : List Resolved → GoProg (List (ℕ × KeyPackage))
  | [] => return []
  | ⟨.add kp, _⟩ :: rest => do
      let li ← inside "group: applyProposals: AddLeaf" (addLeaf a kp.leafNode)
      let added ← applyAdds a rest
      return (li, kp) :: added
  | _ :: rest => applyAdds a rest

/-- What `applyProposals` returns; the tree is changed in place. -/
structure ProposalSummary where
  provisionalExt : List Extension
  psks : List PSK
  pathRequired : Bool
  added : List (ℕ × KeyPackage)

def ProposalSummary.newlyAdded (s : ProposalSummary) : List ℕ := s.added.map (·.1)

def applyProposals (wt : ℕ) (cm : Commit) (cache : ProposalCache)
    (currentExt : List Extension) (externalPSKs : GoMap Bytes Bytes)
    (resumptionPSKs : GoMap UInt64 Bytes) (groupID : Bytes)
    (committerLeaf : ℕ) : GoProg ProposalSummary := do
  let allResolved ← Prog.lift (resolveProposals cache committerLeaf cm.proposals)
  applyUpdates wt allResolved
  applyRemoves wt allResolved
  let added ← applyAdds wt allResolved
  let psks ← Prog.lift (collectPSKs externalPSKs resumptionPSKs groupID allResolved)
  return { provisionalExt := applyExtensions currentExt allResolved
           psks := psks
           pathRequired := allResolved.any fun r => requiresPath r.proposal
           added := added }

/-! ## Commits -/

/-- The path part of a commit without the tree, which is changed in place. -/
structure PathSecrets where
  treeHash : Bytes
  pathSecret : Bytes
  commitSecret : Option Bytes

def receivePath (caller : String) (wt senderLeaf : ℕ) (path : UpdatePath)
    (priv : ℕ) (encGC : Bytes → GroupContext) (newlyAdded : List ℕ) :
    GoProg PathSecrets := do
  let ct ← inside s!"{caller}: clone for tree hash" (clone wt)
  inside s!"{caller}: Merge (hash clone)" (merge S ct senderLeaf path)
  let newTreeHash ← inside s!"{caller}: post-path RootTreeHash"
    (onTree ct fun t => t.rootTreeHash S)
  let encGCBytes ← inside s!"{caller}: marshal encGC" (Prog.lift (encGC newTreeHash).marshal)
  let (pathSecret, commitSecret) ← inside s!"{caller}: ProcessUpdatePath"
    (Prog.ask fun m => (m.tree wt).processUpdatePath S senderLeaf path
      (m.priv priv) encGCBytes newlyAdded)
  inside s!"{caller}: Merge (working tree)" (merge S wt senderLeaf path)
  return ⟨newTreeHash, pathSecret, some (orZeros S commitSecret)⟩

def rebuildPriv (caller : String) (ownLeaf committerLeaf nLeaves workingPriv : ℕ)
    (pathSecret : Bytes) : GoProg ℕ := do
  if pathSecret = [] then return workingPriv
  else
    let held ← Prog.read fun m => (m.priv workingPriv).privateKey (u32 (2 * ownLeaf))
    match held with
    | none => Prog.lift (fail s!"{caller}: own leaf private key missing")
    | some ownKey =>
        let b ← newPriv (TreeKEMPrivate.new ownLeaf ownKey)
        inside s!"{caller}: installJoinerPriv"
          (installJoinerPriv S b pathSecret ownLeaf committerLeaf nLeaves)
        return b

/-- The assignments at the end of `processExternalCommit`; `ProcessCommit` also
resets the handshake generation. -/
def advance (newTree : ℕ) (newGC : GroupContext) (es : EpochSecrets)
    (newInterim : Bytes) (newPriv : ℕ) (st : SecretTree) : GoProg Unit :=
  Prog.update fun m => { m with group := { m.group with
    resumptionPSKHistory :=
      (m.group.resumptionPSKHistory.set m.group.groupContext.epoch
        m.group.epoch.resumptionPSK).set newGC.epoch es.resumptionPSK
    tree := newTree
    groupContext := newGC
    epoch := es
    initSecret := es.initSecret
    interim := newInterim
    priv := newPriv
    secretTree := st
    appGeneration := 0
    pendingUpdates := [] } }

def receiveCommitPath (g : Group) (wt : ℕ) (applied : ProposalSummary)
    (committerLeaf workingPriv : ℕ) : Option UpdatePath → GoProg PathSecrets
  | some path =>
      receivePath S "group: ProcessCommit" wt committerLeaf path workingPriv
        (fun treeHash => g.groupContext.next treeHash
          g.groupContext.confirmedTranscriptHash applied.provisionalExt)
        applied.newlyAdded
  | none => do
      let treeHash ← inside "group: ProcessCommit: RootTreeHash (no path)"
        (onTree wt fun t => t.rootTreeHash S)
      return ⟨treeHash, [], none⟩

/-- `workingPriv := g.priv`, or a new private state for an own Update. -/
def workingPriv (ownLeaf : ℕ) : Option Bytes → GoProg ℕ
  | some priv => newPriv (TreeKEMPrivate.new ownLeaf priv)
  | none => Prog.read fun m => m.group.priv

def processMemberCommit (cache : ProposalCache) (ac : AuthenticatedContent)
    (cm : Commit) : GoProg Unit := do
  let committerLeaf := ac.content.sender.leafIndex
  let live ← Prog.read fun m => m.group.tree
  let wt ← inside "group: ProcessCommit: clone tree" (clone live)
  let g ← group
  let applied ← inside "group: ProcessCommit: applyProposals"
    (applyProposals wt cm cache g.groupContext.extensions g.externalPSKs
      g.resumptionPSKs g.groupContext.groupID committerLeaf)
  let g ← group
  let ownUpdatePriv ← inside "group: ProcessCommit"
    (Prog.lift (g.resolveOwnUpdatePriv cache committerLeaf cm.proposals))
  let working ← workingPriv g.ownLeaf ownUpdatePriv
  let acBytes ← inside "group: ProcessCommit: marshal AuthenticatedContent" (Prog.lift ac.marshal)
  let (confirmedInput, confTag) ←
    inside "group: ProcessCommit: SplitAuthenticatedContent"
      (Prog.lift (splitAuthenticatedContent S acBytes))
  let confirmed := confirmedTranscriptHash S g.interim confirmedInput
  let out ← receiveCommitPath S g wt applied committerLeaf working cm.path
  let g ← group
  let newGC := g.groupContext.next out.treeHash confirmed applied.provisionalExt
  let newGCBytes ← inside "group: ProcessCommit: marshal newGC" (Prog.lift newGC.marshal)
  let psk ← inside "group: ProcessCommit: PSKSecret" (Prog.lift (pskSecret S applied.psks))
  let es ← inside "group: ProcessCommit: DeriveEpochSecrets"
    (Prog.lift (deriveEpochSecrets S g.initSecret out.commitSecret (some psk) newGCBytes))
  Prog.lift (check (confirmationTag S es.confirmationKey confirmed = confTag)
    "group: ProcessCommit: confirmation_tag mismatch")
  let interim ← inside "group: ProcessCommit: InterimTranscriptHash"
    (Prog.lift (interimTranscriptHash S confirmed confTag))
  let leaves ← Prog.read fun m => (m.tree wt).leafCount
  let priv ← rebuildPriv S "group: ProcessCommit" g.ownLeaf committerLeaf leaves
    working out.pathSecret
  let st ← inside "group: ProcessCommit: NewSecretTree"
    (Prog.lift (newSecretTree S leaves es.encryptionSecret))
  advance wt newGC es interim priv st
  Prog.update fun m => { m with group := { m.group with
    handshakeGeneration := 0 } }

/-! ## External commits -/

def applyExternalRemoves (a : ℕ) : List UInt32 → GoProg Unit
  | [] => return ()
  | removed :: rest => do
      inside s!"group: processExternalCommit: RemoveLeaf({removed})" (removeLeaf a removed.toNat)
      applyExternalRemoves a rest

def placeExternalJoiner (removed : List UInt32) (leaf : LeafNode) :
    GoProg (ℕ × ℕ) := do
  let live ← Prog.read fun m => m.group.tree
  let wt ← inside "group: processExternalCommit: clone tree" (clone live)
  applyExternalRemoves wt removed
  let liC ← inside "group: processExternalCommit: AddLeaf" (addLeaf wt leaf)
  let g ← group
  let signed ← inside "group: processExternalCommit: verify joiner leaf signature"
    (Prog.lift (leaf.verifySignature S g.groupContext.groupID liC))
  Prog.lift (check signed "group: processExternalCommit: joiner leaf signature invalid (§7.3)")
  return (liC, wt)

def rebuildExternalPriv (ownLeaf liC nLeaves : ℕ) (ownKey pathSecret : Bytes) :
    GoProg ℕ := do
  let b ← newPriv (TreeKEMPrivate.new ownLeaf ownKey)
  if pathSecret = [] then return b
  else
    inside "group: processExternalCommit: installJoinerPriv"
      (installJoinerPriv S b pathSecret ownLeaf liC nLeaves)
    return b

def processExternalCommit (m : MLSMessage) : GoProg Unit := do
  let g ← group
  let content ← Prog.lift (g.authenticateExternalCommit S m)
  let acBytes ← inside "group: processExternalCommit: marshal AC" (Prog.lift content.ac.marshal)
  let (confirmedInput, confTag) ←
    inside "group: processExternalCommit: SplitAuthenticatedContent"
      (Prog.lift (splitAuthenticatedContent S acBytes))
  let (extPriv, _) ← inside "group: processExternalCommit: ExternalPub"
    (Prog.lift (externalPub S g.epoch.externalSecret))
  let initSecret ← inside "group: processExternalCommit: ExternalInitDecap"
    (Prog.lift (liftErr (S.externalInitDecap extPriv content.kemOutput)))
  let (liC, wt) ← placeExternalJoiner S (removedLeaves content.proposals) content.path.leafNode
  let live ← Prog.read fun m => m.group.priv
  let g ← group
  let out ← receivePath S "group: processExternalCommit" wt liC content.path live
    (fun treeHash => g.groupContext.next treeHash
      g.groupContext.confirmedTranscriptHash g.groupContext.extensions)
    []
  let valid ← inside "group: processExternalCommit: VerifyParentHashes"
    (onTree wt fun t => t.verifyParentHashes S)
  Prog.lift (check valid "group: processExternalCommit: parent hash verification failed (§7.9.2)")
  let g ← group
  let confirmed := confirmedTranscriptHash S g.interim confirmedInput
  let newGC := g.groupContext.next out.treeHash confirmed g.groupContext.extensions
  let newGCBytes ← inside "group: processExternalCommit: marshal newGC" (Prog.lift newGC.marshal)
  let es ← inside "group: processExternalCommit: DeriveEpochSecrets"
    (Prog.lift (deriveEpochSecrets S initSecret out.commitSecret none newGCBytes))
  Prog.lift (check (confirmationTag S es.confirmationKey confirmed = confTag)
    "group: processExternalCommit: confirmation_tag mismatch")
  let interim ← inside "group: processExternalCommit: InterimTranscriptHash"
    (Prog.lift (interimTranscriptHash S confirmed confTag))
  match g.priv.privateKey (u32 (2 * g.ownLeaf)) with
  | none => Prog.lift (fail "group: processExternalCommit: own leaf private key missing")
  | some ownKey =>
      let leaves ← Prog.read fun m => (m.tree wt).leafCount
      let priv ← rebuildExternalPriv S g.ownLeaf liC leaves ownKey out.pathSecret
      let st ← inside "group: processExternalCommit: NewSecretTree"
        (Prog.lift (newSecretTree S leaves es.encryptionSecret))
      advance wt newGC es interim priv st

def processCommit (proposals : List Bytes) (commit : Bytes) : GoProg Unit := do
  let g ← group
  let (_, cache) ← Prog.lift (g.cacheProposals S "group: ProcessCommit: proposal" proposals 0 [])
  let m ← inside "group: ProcessCommit: parse commit" (Prog.lift (unmarshalMLSMessage commit))
  if m.isExternalCommit then processExternalCommit S m
  else
    let g ← group
    let (ac, cm) ← Prog.lift (g.openMemberCommit S m)
    processMemberCommit S cache ac cm

end GoProg

end MlsGo
