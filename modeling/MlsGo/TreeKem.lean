import MlsGo.TreeSync

/-!
# Update paths

File `treekem.go`: the private keys a member holds, the path a committer
generates, its installation in the tree, and its decryption by a receiver.
The functions that work on the tree in place return the changed tree.
-/

namespace MlsGo

variable (S : Suite)

def commitSecretOf (lastPathSecret : Bytes) : Result Bytes := S.deriveSecret lastPathSecret "path"

def nodeKeyPair (pathSecret : Bytes) : Result (Bytes × Bytes) := do
  let nodeSecret ← S.deriveSecret pathSecret "node"
  liftErr (S.deriveKeyPair nodeSecret)

structure TreeKEMPrivate where
  leafIndex : ℕ
  privs : GoMap ℕ Bytes
  deriving DecidableEq, Repr

namespace TreeKEMPrivate

def new (leafIndex : ℕ) (leafPriv : Bytes) : TreeKEMPrivate :=
  ⟨leafIndex, [(u32 (2 * leafIndex), leafPriv)]⟩

def privateKey (p : TreeKEMPrivate) (node : ℕ) : Option Bytes := p.privs.get node

def addPathSecret (p : TreeKEMPrivate) (nodeIndex : ℕ) (pathSecret : Bytes) :
    Result TreeKEMPrivate := do
  let (priv, _) ← nodeKeyPair S pathSecret
  return { p with privs := p.privs.set nodeIndex priv }

end TreeKEMPrivate

namespace RatchetTree

def pathChild (t : RatchetTree) (p target : ℕ) : Result ℕ :=
  let (l, _) := left p
  if subtreeContains l target then .ok l
  else do
    let (r, _) ← right p t.leafCount
    return r

def copathChild (t : RatchetTree) (p senderNode : ℕ) : Result ℕ := do
  let pc ← t.pathChild p senderNode
  let (s, _) ← sibling pc t.leafCount
  return s

/-- Ancestors of the leaf whose copath child has a non-empty resolution,
bottom-up. -/
def filteredDirectPath (t : RatchetTree) (leafIndex : ℕ) : Result (List ℕ) :=
  walkUp t.leafCount (root t.leafCount)
    (fun x p path => do
      let (s, _) ← sibling x t.leafCount
      let res ← t.resolution s
      return if res.isEmpty then path else path ++ [p])
    walkFuel (u32 (2 * leafIndex)) []

def nodePublicKey (t : RatchetTree) (d : ℕ) : Result Bytes := do
  let n ← t.index d
  match n with
  | none => fail s!"tree: node {d} is blank"
  | some (.leaf l) => return l.encryptionKey
  | some (.parent p) => return p.encryptionKey

/-! ## Installing a path -/

/-- `t.nodes[p] = &Node{Parent: &ParentNode{EncryptionKey: pub}}` along the
path. -/
def installKeys (t : RatchetTree) : List (ℕ × Bytes) → Result RatchetTree
  | [] => .ok t
  | (p, pub) :: rest => do
      let t ← t.setNode p (some (.parent ⟨pub, [], []⟩))
      t.installKeys rest

def setParentHash (t : RatchetTree) (p : ℕ) (parentHash : Bytes) :
    Result RatchetTree := do
  let node ← t.parentAt p
  t.setNode p (some (.parent { node with parentHash }))

/-- The parent hash that the node or leaf `x` of a path carries, given the next
path node above it. -/
def parentHashFor (t : RatchetTree) (x parent : ℕ) : Result Bytes := do
  let pc ← t.pathChild parent x
  let (s, _) ← sibling pc t.leafCount
  t.parentHashOf S parent s

def assignParentHashes (t : RatchetTree) : List ℕ → Result RatchetTree
  | [] => .ok t
  | [p] => t.setParentHash p []
  | p :: parent :: rest => do
      let t ← t.assignParentHashes (parent :: rest)
      let ph ← t.parentHashFor S p parent
      t.setParentHash p ph

def installPath (t : RatchetTree) (senderLeaf : ℕ) (nodePubs : List Bytes) :
    Result RatchetTree := do
  let fdp ← t.filteredDirectPath senderLeaf
  if fdp.length ≠ nodePubs.length then
    fail s!"tree: {nodePubs.length} public keys for filtered direct path of length {fdp.length}"
  else
    let t ← t.blankPath (u32 (2 * senderLeaf))
    let t ← t.installKeys (fdp.zip nodePubs)
    t.assignParentHashes S fdp

def leafParentHash (t : RatchetTree) (senderLeaf : ℕ) (fdp : List ℕ) :
    Result Bytes :=
  match fdp with
  | [] => .ok []
  | parent :: _ => t.parentHashFor S (u32 (2 * senderLeaf)) parent

def merge (t : RatchetTree) (senderLeaf : ℕ) (up : UpdatePath) :
    Result RatchetTree := do
  let t ← t.installPath S senderLeaf (up.nodes.map (·.encryptionKey))
  t.setNode (u32 (2 * senderLeaf)) (some (.leaf up.leafNode))

/-! ## Receiving a path -/

/-- The inner search of `ProcessUpdatePath`: a resolution entry with a held
key, and the ciphertext with its index.  Newly added leaves have no
ciphertext. -/
def findCiphertext (priv : TreeKEMPrivate) (skipped : List ℕ)
    (cts : List HPKECiphertext) : List ℕ → ℕ → Option (Bytes × HPKECiphertext)
  | [], _ => none
  | d :: ds, ctIdx =>
      if skipped.contains d then findCiphertext priv skipped cts ds ctIdx
      else
        match priv.privateKey d with
        | none => findCiphertext priv skipped cts ds (ctIdx + 1)
        | some sk =>
            match cts[ctIdx]? with
            | none => none
            | some ct => some (sk, ct)

/-- The outer search: the lowest path node whose secret is readable, as the
decrypted secret and the path from that node up. -/
def findPathSecret (t : RatchetTree) (senderNode : ℕ) (priv : TreeKEMPrivate)
    (groupContext : Bytes) (skipped : List ℕ) :
    List (ℕ × UpdatePathNode) → Result (Option (Bytes × List (ℕ × UpdatePathNode)))
  | [] => return none
  | (p, n) :: rest => do
      let cc ← t.copathChild p senderNode
      let res ← t.resolution cc
      match findCiphertext priv skipped n.encryptedPathSecret res 0 with
      | none => t.findPathSecret senderNode priv groupContext skipped rest
      | some (sk, ct) =>
          let ps ← S.decryptWithLabel sk "UpdatePathNode" groupContext ct.kemOutput ct.ciphertext
          return some (ps, (p, n) :: rest)

/-- Ratchet a path secret to the top of the path, comparing each derived public
key with the one received. -/
def climbPath (cur : Bytes) : List (ℕ × UpdatePathNode) → Result Bytes
  | [] => .ok cur
  | (p, n) :: rest => do
      let (_, pub) ← nodeKeyPair S cur
      if pub ≠ n.encryptionKey then
        fail s!"tree: derived public key mismatch at node {p}"
      else
        match rest with
        | [] => return cur
        | _ :: _ =>
            let next ← S.deriveSecret cur "path"
            climbPath next rest

def addedNodes (newlyAdded : List ℕ) : List ℕ := newlyAdded.map fun li => u32 (2 * li)

/-- Path secret and commit secret.  A receiver without a usable key gets the
empty secret and no commit secret; an empty plaintext is a nil slice in Go and
is not told apart from a missing one by the callers. -/
def processUpdatePath (t : RatchetTree) (senderLeaf : ℕ) (up : UpdatePath)
    (priv : TreeKEMPrivate) (groupContext : Bytes) (newlyAdded : List ℕ) :
    Result (Bytes × Option Bytes) := do
  let fdp ← t.filteredDirectPath senderLeaf
  if fdp.length ≠ up.nodes.length then
    fail s!"tree: UpdatePath has {up.nodes.length} nodes, filtered direct path has {fdp.length}"
  else
    let found ← t.findPathSecret S (u32 (2 * senderLeaf)) priv groupContext
      (addedNodes newlyAdded) (fdp.zip up.nodes)
    match found with
    | none => return ([], none)
    | some (decrypted, rest) =>
        let last ← climbPath S decrypted rest
        let commitSecret ← commitSecretOf S last
        return (decrypted, some commitSecret)

/-! ## Generating a path -/

def pathSecretsFrom (src : Bytes) : ℕ → Result (List Bytes)
  | 0 => .ok []
  | n + 1 => do
      let ps ← S.deriveSecret src "path"
      let rest ← pathSecretsFrom ps n
      return ps :: rest

def nodePublicKeys : List Bytes → Result (List Bytes)
  | [] => .ok []
  | ps :: rest => do
      let (_, pub) ← nodeKeyPair S ps
      let pubs ← nodePublicKeys rest
      return pub :: pubs

def recipientKeys (t : RatchetTree) (skipped : List ℕ) :
    List ℕ → Result (List Bytes)
  | [] => .ok []
  | d :: ds =>
      if skipped.contains d then t.recipientKeys skipped ds
      else do
        let pk ← t.nodePublicKey d
        let pks ← t.recipientKeys skipped ds
        return pk :: pks

/-- The snapshot `resPubs`, one list for each path node. -/
def copathRecipients (t : RatchetTree) (senderNode : ℕ) (skipped : List ℕ) :
    List ℕ → Result (List (List Bytes))
  | [] => .ok []
  | p :: ps => do
      let cc ← t.copathChild p senderNode
      let res ← t.resolution cc
      let pubs ← t.recipientKeys skipped res
      let others ← t.copathRecipients senderNode skipped ps
      return pubs :: others

/-- Encrypt one path secret to each recipient; `seeds i` is the randomness of
the `i`-th encryption. -/
def encryptPathSecret (groupContext pathSecret : Bytes) :
    (ℕ → Bytes) → List Bytes → Result (List HPKECiphertext)
  | _, [] => .ok []
  | seeds, pub :: pubs => do
      let (kem, ct) ← S.encryptWithLabel pub "UpdatePathNode" groupContext pathSecret (seeds 0)
      let cts ← encryptPathSecret groupContext pathSecret (fun i => seeds (i + 1)) pubs
      return ⟨kem, ct⟩ :: cts

/-- The nodes of the update path from public keys, path secrets and
recipients; `seeds k i` is the randomness at path node `k`. -/
def encryptPath (groupContext : Bytes) :
    (ℕ → ℕ → Bytes) → List (Bytes × Bytes × List Bytes) → Result (List UpdatePathNode)
  | _, [] => .ok []
  | seeds, (pub, pathSecret, recipients) :: rest => do
      let cts ← encryptPathSecret S groupContext pathSecret (seeds 0) recipients
      let nodes ← encryptPath groupContext (fun k => seeds (k + 1)) rest
      return ⟨pub, cts⟩ :: nodes

def commitLeaf (orig : LeafNode) (encryptionKey parentHash : Bytes) :
    LeafNode :=
  { orig with
    encryptionKey := encryptionKey
    leafNodeSource := .commit parentHash
    signature := [] }

/-- What `GenerateUpdatePath` returns, with the changed tree. -/
structure GeneratedPath where
  updatePath : UpdatePath
  commitSecret : Bytes
  pathSecretByNode : GoMap ℕ Bytes
  tree : RatchetTree

def generateUpdatePath (t : RatchetTree) (senderLeaf : ℕ) (leafSecret : Bytes)
    (signer : Option Signer) (groupID : Bytes) (newlyAdded : List ℕ)
    (mkGroupContext : Bytes → Result Bytes) (seeds : ℕ → ℕ → Bytes) :
    Result GeneratedPath := do
  let senderNode := u32 (2 * senderLeaf)
  let origNode ← t.index senderNode
  match origNode with
  | some (.leaf orig) =>
      let fdp ← t.filteredDirectPath senderLeaf
      let pathSecrets ← pathSecretsFrom S leafSecret fdp.length
      let commitSecret ← commitSecretOf S (pathSecrets.getLast?.getD leafSecret)
      let (_, leafPub) ← nodeKeyPair S leafSecret
      let nodePubs ← nodePublicKeys S pathSecrets
      let resPubs ← t.copathRecipients senderNode (addedNodes newlyAdded) fdp
      let t ← t.installPath S senderLeaf nodePubs
      let ph ← t.leafParentHash S senderLeaf fdp
      let leaf ← signLeafNode S signer (commitLeaf orig leafPub ph) groupID senderLeaf
      let t ← t.setNode senderNode (some (.leaf leaf))
      let treeHash ← t.rootTreeHash S
      let groupContext ← mkGroupContext treeHash
      let nodes ← encryptPath S groupContext seeds (nodePubs.zip (pathSecrets.zip resPubs))
      return { updatePath := ⟨leaf, nodes⟩
               commitSecret := commitSecret
               pathSecretByNode := fdp.zip pathSecrets
               tree := t }
  | _ => fail s!"tree: sender leaf {senderLeaf} is blank"

end RatchetTree

end MlsGo
