import MlsGo.GroupObjects
import MlsGo.TreeKem

/-!
# A member's group state and the application of proposals

Files `group.go`, `create.go` and the first half of `process.go`.
-/

namespace MlsGo

variable (S : Suite)

structure Group where
  groupContext : GroupContext
  tree : RatchetTree
  priv : TreeKEMPrivate
  epoch : EpochSecrets
  secretTree : SecretTree
  interim : Bytes
  initSecret : Bytes
  ownLeaf : ℕ
  signer : Option Signer
  externalPSKs : GoMap Bytes Bytes
  resumptionPSKHistory : GoMap UInt64 Bytes
  appGeneration : UInt32
  handshakeGeneration : UInt32
  encryptHandshakes : Bool
  pendingUpdates : GoMap Bytes Bytes
  deriving DecidableEq, Repr

def Group.sigPubByLeaf (g : Group) (leaf : ℕ) : Result Bytes := do
  let ln ← g.tree.leafNodeAt leaf
  return ln.signatureKey

/-! ## Common ancestors -/

def raiseToLevel (nLeaves k : ℕ) : ℕ → ℕ → Result ℕ
  | 0, _ => .error .diverge
  | fuel + 1, x =>
      if level x < k then do
        let (p, _) ← parent x nLeaves
        raiseToLevel nLeaves k fuel p
      else .ok x

def climbTogether (nLeaves : ℕ) : ℕ → ℕ → ℕ → Result ℕ
  | 0, _, _ => .error .diverge
  | fuel + 1, x, y =>
      if x = y then .ok x
      else do
        let (px, _) ← parent x nLeaves
        let (py, _) ← parent y nLeaves
        climbTogether nLeaves fuel px py

def commonAncestor (x y nLeaves : ℕ) : Result ℕ := do
  let x ← raiseToLevel nLeaves (level y) 34 x
  let y ← raiseToLevel nLeaves (level x) 34 y
  climbTogether nLeaves 34 x y

/-- The loop of `installJoinerPriv`: one ratchet step for every ancestor. -/
def installJoinerLoop (nLeaves : ℕ) :
    ℕ → ℕ → Bytes → TreeKEMPrivate → Result TreeKEMPrivate
  | 0, _, _, _ => .error .diverge
  | fuel + 1, node, sec, priv => do
      let priv ← priv.addPathSecret S node sec
      if node = root nLeaves then return priv
      else
        let sec ← S.deriveSecret sec "path"
        let (node, _) ← parent node nLeaves
        installJoinerLoop nLeaves fuel node sec priv

def installJoinerPriv (priv : TreeKEMPrivate) (pathSecret : Bytes)
    (ownLeaf senderLeaf nLeaves : ℕ) : Result TreeKEMPrivate := do
  let node ← commonAncestor (u32 (2 * ownLeaf)) (u32 (2 * senderLeaf)) nLeaves
  installJoinerLoop S nLeaves 34 node pathSecret priv

/-! ## Applying proposals -/

/-- A proposal with the leaf that sent it: an entry of the proposal cache, or a
resolved entry of a commit. -/
structure Resolved where
  proposal : Proposal
  sender : ℕ
  deriving DecidableEq, Repr

abbrev ProposalCache := GoMap Bytes Resolved

def resolveProposals (cache : ProposalCache) (committerLeaf : ℕ) :
    List ProposalOrRef → Result (List Resolved)
  | [] => .ok []
  | .proposal p :: rest => do
      let others ← resolveProposals cache committerLeaf rest
      return ⟨p, committerLeaf⟩ :: others
  | .reference ref :: rest =>
      match cache.get ref with
      | none => fail s!"group: applyProposals: ProposalRef {hexBytes ref} not in cache"
      | some cp => do
          let others ← resolveProposals cache committerLeaf rest
          return cp :: others

def requiresPath : Proposal → Bool
  | .add _ | .update _ | .remove _ => true
  | _ => false

def applyUpdates (t : RatchetTree) : List Resolved → Result RatchetTree
  | [] => .ok t
  | ⟨.update ln, sender⟩ :: rest => do
      let t ← within s!"group: applyProposals: UpdateLeaf({sender})" (t.updateLeaf sender ln)
      applyUpdates t rest
  | _ :: rest => applyUpdates t rest

def applyRemoves (t : RatchetTree) : List Resolved → Result RatchetTree
  | [] => .ok t
  | ⟨.remove removed, _⟩ :: rest => do
      let t ← within s!"group: applyProposals: RemoveLeaf({removed})" (t.removeLeaf removed.toNat)
      applyRemoves t rest
  | _ :: rest => applyRemoves t rest

def applyAdds (t : RatchetTree) :
    List Resolved → Result (RatchetTree × List (ℕ × KeyPackage))
  | [] => .ok (t, [])
  | ⟨.add kp, _⟩ :: rest => do
      let (li, t) ← within "group: applyProposals: AddLeaf" (t.addLeaf kp.leafNode)
      let (t, added) ← applyAdds t rest
      return (t, (li, kp) :: added)
  | _ :: rest => applyAdds t rest

def applyExtensions (current : List Extension) : List Resolved → List Extension
  | [] => current
  | ⟨.groupContextExtensions extensions, _⟩ :: rest => applyExtensions extensions rest
  | _ :: rest => applyExtensions current rest

def resolvePSK (externalPSKs : GoMap Bytes Bytes)
    (resumptionPSKs : GoMap UInt64 Bytes) (groupID : Bytes)
    (id : PreSharedKeyID) : Result PSK :=
  match id.source with
  | .external pskID =>
      match externalPSKs.get pskID with
      | none => fail s!"group: applyProposals: external PSK {hexBytes pskID} not found"
      | some psk => .ok ⟨id, psk⟩
  | .resumption _ pskGroupID pskEpoch =>
      if pskGroupID ≠ groupID then fail
        s!"group: applyProposals: resumption PSK references foreign group {hexBytes pskGroupID}"
      else
        match resumptionPSKs.get pskEpoch with
        | none => fail
            s!"group: applyProposals: resumption PSK for epoch {pskEpoch} not in history"
        | some psk => .ok ⟨id, psk⟩

def collectPSKs (externalPSKs : GoMap Bytes Bytes)
    (resumptionPSKs : GoMap UInt64 Bytes) (groupID : Bytes) :
    List Resolved → Result (List PSK)
  | [] => .ok []
  | ⟨.preSharedKey id, _⟩ :: rest => do
      let psk ← resolvePSK externalPSKs resumptionPSKs groupID id
      let others ← collectPSKs externalPSKs resumptionPSKs groupID rest
      return psk :: others
  | _ :: rest => collectPSKs externalPSKs resumptionPSKs groupID rest

structure AppliedProposals where
  tree : RatchetTree
  provisionalExt : List Extension
  psks : List PSK
  pathRequired : Bool
  added : List (ℕ × KeyPackage)

def AppliedProposals.newlyAdded (a : AppliedProposals) : List ℕ := a.added.map (·.1)

def applyProposals (wt : RatchetTree) (cm : Commit) (cache : ProposalCache)
    (currentExt : List Extension) (externalPSKs : GoMap Bytes Bytes)
    (resumptionPSKs : GoMap UInt64 Bytes) (groupID : Bytes)
    (committerLeaf : ℕ) : Result AppliedProposals := do
  let allResolved ← resolveProposals cache committerLeaf cm.proposals
  let wt ← applyUpdates wt allResolved
  let wt ← applyRemoves wt allResolved
  let (wt, added) ← applyAdds wt allResolved
  let psks ← collectPSKs externalPSKs resumptionPSKs groupID allResolved
  return { tree := wt
           provisionalExt := applyExtensions currentExt allResolved
           psks := psks
           pathRequired := allResolved.any fun r => requiresPath r.proposal
           added := added }

def Group.resumptionPSKs (g : Group) : GoMap UInt64 Bytes :=
  g.resumptionPSKHistory.set g.groupContext.epoch g.epoch.resumptionPSK

def Group.resolveOwnUpdatePriv (g : Group) (cache : ProposalCache)
    (committerLeaf : ℕ) : List ProposalOrRef → Result (Option Bytes)
  | [] => return none
  | por :: rest =>
      let entry : Option Resolved := match por with
        | .proposal p => some ⟨p, committerLeaf⟩
        | .reference ref => cache.get ref
      match entry with
      | some ⟨.update ln, sender⟩ =>
          if sender ≠ g.ownLeaf then
            g.resolveOwnUpdatePriv cache committerLeaf rest
          else
            match g.pendingUpdates.get ln.encryptionKey with
            | none => fail "own Update committed but no pending leaf key tracked"
            | some priv => return some priv
      | _ => g.resolveOwnUpdatePriv cache committerLeaf rest

/-! ## Creating a group -/

def newGroup (groupID : Bytes) (cred : Credential) (signer : Option Signer)
    (lifetime : Lifetime) (seeds : KeyPackageSeeds) : Result Group := do
  let (kp, _, leafPriv) ← newKeyPackage S cred signer lifetime seeds
  let rt := RatchetTree.newRatchetTree kp.leafNode
  let treeHash ← rt.rootTreeHash S
  let gc : GroupContext := ⟨1, S.id, groupID, 0, treeHash, [], []⟩
  let gcBytes ← gc.marshal
  let es ← deriveEpochSecrets S (List.replicate S.hashLen 0) none none gcBytes
  let st ← newSecretTree S 1 es.encryptionSecret
  return { groupContext := gc
           tree := rt
           priv := TreeKEMPrivate.new 0 leafPriv
           epoch := es
           secretTree := st
           interim := []
           initSecret := es.initSecret
           ownLeaf := 0
           signer := signer
           externalPSKs := []
           resumptionPSKHistory := [(0, es.resumptionPSK)]
           appGeneration := 0
           handshakeGeneration := 0
           encryptHandshakes := false
           pendingUpdates := [] }

end MlsGo
