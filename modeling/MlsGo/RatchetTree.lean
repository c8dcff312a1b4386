import MlsGo.TreeMath
import MlsGo.TreeNodes

/-!
# The ratchet tree: wire form, lookups and leaf changes

Files `node.go`, `generate.go` and `mutate.go`.  A tree is the array of its
slots; an access outside the array panics, as in Go.  Every loop that climbs
from a leaf to the root is an instance of `walkUp`.
-/

namespace MlsGo

open DecoderLaws

structure RatchetTree where
  nodes : List (Option Node)
  deriving DecidableEq, Repr

namespace RatchetTree

def width (t : RatchetTree) : ℕ := u32 t.nodes.length

/-- `(uint32(len(t.nodes)) + 1) / 2`; the sum is a `uint32` and wraps. -/
def leafCount (t : RatchetTree) : ℕ := u32 (t.width + 1) / 2

def index (t : RatchetTree) (i : ℕ) : Result (Option Node) :=
  match t.nodes[i]? with
  | some n => .ok n
  | none => .error .panic

def setNode (t : RatchetTree) (i : ℕ) (n : Option Node) : Result RatchetTree :=
  if i < t.nodes.length then .ok ⟨t.nodes.set i n⟩ else .error .panic

def newRatchetTree (leaf : LeafNode) : RatchetTree := ⟨[some (.leaf leaf)]⟩

/-! ## Wire form -/

/-- The loop of `fullWidth`: a `uint32` is covered after 32 doublings. -/
def fullWidthLoop (n : ℕ) : ℕ → ℕ → ℕ
  | 0, w => w
  | fuel + 1, w => if w < n then fullWidthLoop n fuel (u32 (2 * w + 1)) else w

def fullWidth (n : ℕ) : ℕ := fullWidthLoop n 32 1

def padToFullWidth (nodes : List (Option Node)) : List (Option Node) :=
  nodes ++ List.replicate (fullWidth (u32 nodes.length) - u32 nodes.length) none

def parseRatchetTree (data : Bytes) : Result RatchetTree := do
  let (nodes, rest) ← readVectorV (readOptional decodeNode) data
  if ¬ rest.isEmpty then fail "tree: trailing bytes after ratchet_tree"
  else
    match nodes.getLast? with
    | none => fail "tree: empty ratchet_tree"
    | some none => fail "tree: ratchet_tree must not end with a blank node"
    | some (some _) => return ⟨padToFullWidth nodes⟩

def dropTrailingBlanks (nodes : List (Option Node)) : List (Option Node) :=
  (nodes.reverse.dropWhile Option.isNone).reverse

def marshal (t : RatchetTree) : Result Bytes :=
  writeVectorV (dropTrailingBlanks t.nodes) fun n => writeOptional n Node.marshal

def clone (t : RatchetTree) : Result RatchetTree := do
  let data ← t.marshal
  parseRatchetTree data

/-! ## Lookups -/

def nodeAt (t : RatchetTree) (i : ℕ) : Option Node :=
  if t.width ≤ i then none else (t.nodes[i]?).join

def leafNodeAt (t : RatchetTree) (leaf : ℕ) : Result LeafNode :=
  match t.nodeAt (u32 (2 * leaf)) with
  | some (.leaf l) => .ok l
  | _ => fail s!"tree: leaf {leaf} is blank"

/-- The slots `0, 2, 4, …` that the loops over the leaves visit. -/
def leafSlots : List (Option Node) → List (Option Node)
  | [] => []
  | [slot] => [slot]
  | slot :: _ :: rest => slot :: leafSlots rest

def holdsEncryptionKey (key : Bytes) : Option Node → Bool
  | some (.leaf l) => l.encryptionKey = key
  | _ => false

def findLeafByEncryptionKey (t : RatchetTree) (key : Bytes) : Option ℕ :=
  (leafSlots t.nodes).findIdx? (holdsEncryptionKey key)

/-! ## Leaf changes -/

/-- `for x != root { p, _ := Parent(x, leaves); visit; x = p }`.  `Parent`
reports `ok = false` only at the root, so the `break` some of these loops have
is never taken. -/
def walkUp {σ : Type} (leaves root : ℕ) (visit : ℕ → ℕ → σ → Result σ) :
    ℕ → ℕ → σ → Result σ
  | 0, _, _ => .error .diverge
  | fuel + 1, x, s =>
      if x = root then .ok s
      else do
        let (p, _) ← parent x leaves
        let s ← visit x p s
        walkUp leaves root visit fuel p s

/-- Levels of a 32-bit index, and one more test of the loop condition. -/
def walkFuel : ℕ := 34

def blankPath (t : RatchetTree) (x : ℕ) : Result RatchetTree :=
  walkUp t.leafCount (root t.leafCount) (fun _ p s => s.setNode p none) walkFuel x t

def updateLeaf (t : RatchetTree) (leaf : ℕ) (ln : LeafNode) :
    Result RatchetTree :=
  if t.width ≤ u32 (2 * leaf) then
    fail s!"tree: UpdateLeaf: leaf {leaf} out of range"
  else do
    let t ← t.setNode (u32 (2 * leaf)) (some (.leaf ln))
    t.blankPath (u32 (2 * leaf))

/-- The truncating loop of `RemoveLeaf` on the reversed array: it keeps at
least one slot. -/
def truncateLoop : List (Option Node) → List (Option Node)
  | none :: slot :: rest => truncateLoop (slot :: rest)
  | slots => slots

def removeLeaf (t : RatchetTree) (leaf : ℕ) : Result RatchetTree :=
  if t.width ≤ u32 (2 * leaf) then
    fail s!"tree: RemoveLeaf: leaf {leaf} out of range"
  else do
    let t ← t.setNode (u32 (2 * leaf)) none
    let t ← t.blankPath (u32 (2 * leaf))
    return ⟨padToFullWidth (truncateLoop t.nodes.reverse).reverse⟩

/-- The scan of `AddLeaf` for a blank leaf, as a leaf index.  At width
`2 ^ 32 - 1` its counter wraps to zero instead of reaching the width, so a scan
that finds nothing never ends. -/
def firstBlankLeaf (t : RatchetTree) : Result (Option ℕ) :=
  match (leafSlots t.nodes).findIdx? Option.isNone with
  | some leafIndex => .ok (some leafIndex)
  | none => if t.width = 2 ^ 32 - 1 then .error .diverge else .ok none

def insertLeaf (leafIndex : UInt32) (ul : List UInt32) : List UInt32 :=
  ul.takeWhile (· < leafIndex) ++ leafIndex :: ul.dropWhile (· < leafIndex)

def addUnmerged (leafIndex : UInt32) : Option Node → Option Node
  | some (.parent p) => some (.parent
      { p with unmergedLeaves := insertLeaf leafIndex p.unmergedLeaves })
  | slot => slot

def placeLeaf (t : RatchetTree) (ln : LeafNode) (leafIndex : ℕ) :
    Result (ℕ × RatchetTree) := do
  let newNode := 2 * leafIndex
  let t ← t.setNode newNode (some (.leaf ln))
  let t ← walkUp t.leafCount (root t.leafCount)
    (fun _ p s => do
      let slot ← s.index p
      s.setNode p (addUnmerged (UInt32.ofNat leafIndex) slot))
    walkFuel newNode t
  return (leafIndex, t)

def addLeaf (t : RatchetTree) (ln : LeafNode) : Result (ℕ × RatchetTree) := do
  let found ← t.firstBlankLeaf
  match found with
  | some leafIndex => t.placeLeaf ln leafIndex
  | none =>
      let grown : RatchetTree := ⟨padToFullWidth (t.nodes ++ [none, none])⟩
      let found ← grown.firstBlankLeaf
      match found with
      | some leafIndex => grown.placeLeaf ln leafIndex
      | none => fail "tree: AddLeaf: no blank slot after growing"

end RatchetTree

end MlsGo
