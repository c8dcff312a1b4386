import MlsGo.RatchetTree
import MlsGo.CipherSuite

/-!
# Resolutions, tree hashes and tree validation

Files `treesync.go` and `validation.go`.  The recursions of the source descend
from a node to its children; an index has at most thirty-two levels, so the
fuel given at the top is never exhausted.
-/

namespace MlsGo

variable (S : Suite)

def LeafNode.verifySignature (l : LeafNode) (groupID : Bytes)
    (leafIndex : ℕ) : Result Bool := do
  let tbs ← l.tbs groupID leafIndex
  return S.verifyWithLabel l.signatureKey "LeafNodeTBS" tbs l.signature

def signLeafNode (signer : Option Signer) (ln : LeafNode) (groupID : Bytes)
    (leafIndex : ℕ) : Result LeafNode := do
  let tbs ← ln.tbs groupID leafIndex
  let sig ← S.signWithLabel signer "LeafNodeTBS" tbs
  return { ln with signature := sig }

namespace RatchetTree

def descentFuel : ℕ := 34

def resolutionFrom (t : RatchetTree) : ℕ → ℕ → Result (List ℕ)
  | 0, _ => .error .diverge
  | fuel + 1, i => do
      let n ← t.index i
      match n with
      | some (.leaf _) => return [i]
      | some (.parent p) => return i :: p.unmergedLeaves.map fun leaf => u32 (2 * leaf.toNat)
      | none =>
          match left i with
          | (_, false) => return []
          | (l, true) =>
              let (r, _) ← right i t.leafCount
              let resLeft ← t.resolutionFrom fuel l
              let resRight ← t.resolutionFrom fuel r
              return resLeft ++ resRight

def resolution (t : RatchetTree) (i : ℕ) : Result (List ℕ) := t.resolutionFrom descentFuel i

/-! ## Tree hashes -/

def filterLeaves (leaves excluded : List UInt32) : List UInt32 :=
  leaves.filter fun leaf => ¬ excluded.contains leaf

def leafHashInput (leafIndex : ℕ) (leaf : Option LeafNode) : Result Bytes := do
  let body ← writeOptional leaf LeafNode.marshal
  return writeUint8 1 ++ (beBytes 4 leafIndex ++ body)

def parentHashInput (parent : Option ParentNode)
    (leftHash rightHash : Bytes) : Result Bytes := do
  let body ← writeOptional parent ParentNode.marshal
  let l ← writeOpaqueV leftHash
  let r ← writeOpaqueV rightHash
  return writeUint8 2 ++ (body ++ (l ++ r))

/-- What the hash of a leaf slot covers: a parent found there counts as
blank. -/
def hashedLeaf (excluded : List UInt32) (leafIndex : ℕ) :
    Option Node → Option LeafNode
  | some (.leaf l) => if excluded.contains (UInt32.ofNat leafIndex) then none else some l
  | _ => none

/-- What the hash of a parent slot covers: a leaf found there counts as
blank. -/
def hashedParent (excluded : List UInt32) : Option Node → Option ParentNode
  | some (.parent p) => some { p with unmergedLeaves := filterLeaves p.unmergedLeaves excluded }
  | _ => none

def treeHashFrom (t : RatchetTree) (excluded : List UInt32) :
    ℕ → ℕ → Result Bytes
  | 0, _ => .error .diverge
  | fuel + 1, i =>
      match left i with
      | (_, false) => do
          let n ← t.index i
          let input ← leafHashInput (i / 2) (hashedLeaf excluded (i / 2) n)
          return S.hash input
      | (l, true) => do
          let (r, _) ← right i t.leafCount
          let leftHash ← t.treeHashFrom excluded fuel l
          let rightHash ← t.treeHashFrom excluded fuel r
          let n ← t.index i
          let input ← parentHashInput (hashedParent excluded n) leftHash rightHash
          return S.hash input

def treeHashExcept (t : RatchetTree) (i : ℕ) (excluded : List UInt32) :
    Result Bytes := t.treeHashFrom S excluded descentFuel i

def rootTreeHash (t : RatchetTree) : Result Bytes := t.treeHashExcept S (root t.leafCount) []

/-! ## Parent hashes -/

def parentAt (t : RatchetTree) (i : ℕ) : Result ParentNode := do
  let n ← t.index i
  match n with
  | some (.parent p) => return p
  | _ => .error .panic

def parentHashBytes (encryptionKey parentHash siblingHash : Bytes) :
    Result Bytes := do
  let key ← writeOpaqueV encryptionKey
  let parent ← writeOpaqueV parentHash
  let sibling ← writeOpaqueV siblingHash
  return key ++ (parent ++ sibling)

def parentHashOf (t : RatchetTree) (pi si : ℕ) : Result Bytes := do
  let p ← t.parentAt pi
  let origSibHash ← t.treeHashExcept S si p.unmergedLeaves
  let input ← parentHashBytes p.encryptionKey p.parentHash origSibHash
  return S.hash input

def nodeParentHash (t : RatchetTree) (i : ℕ) : Result (Option Bytes) := do
  let n ← t.index i
  match n with
  | none => return none
  | some (.leaf l) =>
      match l.leafNodeSource with
      | .commit parentHash => return some parentHash
      | _ => return none
  | some (.parent p) => return some p.parentHash

def sameSet (xs ys : List ℕ) : Bool :=
  xs.all (fun x => ys.contains x) && ys.all fun y => xs.contains y

/-- The loop of `hasParentHashMatch` over the candidates `ds` of `res`. -/
def parentHashMatchLoop (t : RatchetTree) (want : Bytes) (res expected : List ℕ) :
    List ℕ → Result Bool
  | [] => return false
  | d :: ds => do
      let ph ← t.nodeParentHash d
      if ph = some want ∧ sameSet (res.filter fun x => x ≠ d) expected then
        return true
      else t.parentHashMatchLoop want res expected ds

def hasParentHashMatch (t : RatchetTree) (pi ci si : ℕ) : Result Bool := do
  let want ← t.parentHashOf S pi si
  let res ← t.resolution ci
  let p ← t.parentAt pi
  let expected := (p.unmergedLeaves.map fun l => u32 (2 * l.toNat)).filter
    fun ni => subtreeContains ci ni
  t.parentHashMatchLoop want res expected res

/-- The loop of `VerifyParentHashes` over the slots from `i` on. -/
def verifyParentHashesLoop (t : RatchetTree) :
    List (Option Node) → ℕ → Result Bool
  | [], _ => return true
  | some (.parent _) :: rest, i => do
      let (l, _) := left i
      let (r, _) ← right i t.leafCount
      let okL ← t.hasParentHashMatch S i l r
      let okR ← t.hasParentHashMatch S i r l
      if okL = okR then return false
      else t.verifyParentHashesLoop rest (i + 1)
  | _ :: rest, i => t.verifyParentHashesLoop rest (i + 1)

def verifyParentHashes (t : RatchetTree) : Result Bool := t.verifyParentHashesLoop S t.nodes 0

/-! ## Leaf signatures -/

/-- The loop of `VerifyLeafSignatures` over the leaf slots from `leafIndex`
on, with the keys seen so far. -/
def verifyLeafSignaturesLoop (groupID : Bytes) :
    List (Option Node) → ℕ → List Bytes → List Bytes → Result Unit
  | [], _, _, _ => return ()
  | some (.leaf l) :: rest, leafIndex, sigKeys, encKeys => do
      let ok ← l.verifySignature S groupID leafIndex
      if ¬ ok then fail s!"tree: invalid signature on leaf {leafIndex}"
      else if sigKeys.contains l.signatureKey then
        fail s!"tree: duplicate signature_key at leaf {leafIndex}"
      else if encKeys.contains l.encryptionKey then
        fail s!"tree: duplicate encryption_key at leaf {leafIndex}"
      else
        verifyLeafSignaturesLoop groupID rest (leafIndex + 1)
          (l.signatureKey :: sigKeys) (l.encryptionKey :: encKeys)
  | _ :: rest, leafIndex, sigKeys, encKeys =>
      verifyLeafSignaturesLoop groupID rest (leafIndex + 1) sigKeys encKeys

def verifyLeafSignatures (t : RatchetTree) (groupID : Bytes) : Result Unit :=
  verifyLeafSignaturesLoop S groupID (leafSlots t.nodes) 0 [] []

end RatchetTree

end MlsGo
