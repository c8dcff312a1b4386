import MlsGo.WireSyntax

/-!
# Nodes of the ratchet tree and their wire forms

Files `credential.go`, `leaf.go`, `parent.go`, `updatepath.go` and the node
part of `node.go`.  Where the source documents that exactly one of several
fields is set, the type here is a sum, so the other combinations do not exist.
Writers and readers are translated separately; the last part shows that each
reader undoes its writer in front of any suffix.
-/

namespace MlsGo

open DecoderLaws

/-! ## Credentials -/

inductive Credential where
  | basic (identity : Bytes)
  | x509 (certificates : List Bytes)
  deriving DecidableEq, Repr

def Credential.marshal : Credential → Result Bytes
  | .basic identity => do
      let body ← writeOpaqueV identity
      return writeUint16 1 ++ body
  | .x509 certificates => do
      let body ← writeVectorV certificates writeOpaqueV
      return writeUint16 2 ++ body

def decodeCredential : Cursor Credential := do
  let credentialType ← readUint16
  if credentialType = 1 then
    let identity ← readOpaqueV
    return .basic identity
  else if credentialType = 2 then
    let certificates ← readVectorV readOpaqueV
    return .x509 certificates
  else liftM (fail (α := Credential) s!"tree: unsupported credential type {credentialType}")

/-! ## Leaf nodes -/

structure Capabilities where
  versions : List UInt16
  cipherSuites : List UInt16
  extensions : List UInt16
  proposals : List UInt16
  credentials : List UInt16
  deriving DecidableEq, Repr

def writeUint16s (values : List UInt16) : Result Bytes :=
  writeVectorV values fun v => .ok (writeUint16 v)

def Capabilities.marshal (c : Capabilities) : Result Bytes := do
  let versions ← writeUint16s c.versions
  let cipherSuites ← writeUint16s c.cipherSuites
  let extensions ← writeUint16s c.extensions
  let proposals ← writeUint16s c.proposals
  let credentials ← writeUint16s c.credentials
  return versions ++ (cipherSuites ++ (extensions ++ (proposals ++ credentials)))

def decodeCapabilities : Cursor Capabilities := do
  let versions ← readVectorV readUint16
  let cipherSuites ← readVectorV readUint16
  let extensions ← readVectorV readUint16
  let proposals ← readVectorV readUint16
  let credentials ← readVectorV readUint16
  return ⟨versions, cipherSuites, extensions, proposals, credentials⟩

structure Lifetime where
  notBefore : UInt64
  notAfter : UInt64
  deriving DecidableEq, Repr

def Lifetime.marshal (l : Lifetime) : Bytes := writeUint64 l.notBefore ++ writeUint64 l.notAfter

def decodeLifetime : Cursor Lifetime := do
  let notBefore ← readUint64
  let notAfter ← readUint64
  return ⟨notBefore, notAfter⟩

structure Extension where
  extensionType : UInt16
  extensionData : Bytes
  deriving DecidableEq, Repr

def Extension.marshal (e : Extension) : Result Bytes := do
  let data ← writeOpaqueV e.extensionData
  return writeUint16 e.extensionType ++ data

def decodeExtension : Cursor Extension := do
  let extensionType ← readUint16
  let extensionData ← readOpaqueV
  return ⟨extensionType, extensionData⟩

/-- How a leaf entered the tree, with the field present for that source. -/
inductive LeafNodeSource where
  | keyPackage (lifetime : Lifetime)
  | update
  | commit (parentHash : Bytes)
  deriving DecidableEq, Repr

def LeafNodeSource.code : LeafNodeSource → UInt8
  | .keyPackage _ => 1
  | .update => 2
  | .commit _ => 3

def LeafNodeSource.marshal : LeafNodeSource → Result Bytes
  | .keyPackage lifetime => .ok (writeUint8 1 ++ lifetime.marshal)
  | .update => .ok (writeUint8 2)
  | .commit parentHash => do
      let body ← writeOpaqueV parentHash
      return writeUint8 3 ++ body

def decodeLeafNodeSource : Cursor LeafNodeSource := do
  let source ← readUint8
  if source = 1 then
    let lifetime ← decodeLifetime
    return .keyPackage lifetime
  else if source = 2 then return .update
  else if source = 3 then
    let parentHash ← readOpaqueV
    return .commit parentHash
  else liftM (fail (α := LeafNodeSource) s!"tree: invalid leaf_node_source {source}")

structure LeafNode where
  encryptionKey : Bytes
  signatureKey : Bytes
  credential : Credential
  capabilities : Capabilities
  leafNodeSource : LeafNodeSource
  extensions : List Extension
  signature : Bytes
  deriving DecidableEq, Repr

def LeafNode.marshalContents (l : LeafNode) : Result Bytes := do
  let encryptionKey ← writeOpaqueV l.encryptionKey
  let signatureKey ← writeOpaqueV l.signatureKey
  let credential ← l.credential.marshal
  let capabilities ← l.capabilities.marshal
  let source ← l.leafNodeSource.marshal
  let extensions ← writeVectorV l.extensions Extension.marshal
  return encryptionKey ++ (signatureKey ++ (credential ++ (capabilities ++
    (source ++ extensions))))

def LeafNode.marshal (l : LeafNode) : Result Bytes := do
  let contents ← l.marshalContents
  let signature ← writeOpaqueV l.signature
  return contents ++ signature

def decodeLeafNode : Cursor LeafNode := do
  let encryptionKey ← readOpaqueV
  let signatureKey ← readOpaqueV
  let credential ← decodeCredential
  let capabilities ← decodeCapabilities
  let leafNodeSource ← decodeLeafNodeSource
  let extensions ← readVectorV decodeExtension
  let signature ← readOpaqueV
  return ⟨encryptionKey, signatureKey, credential, capabilities,
    leafNodeSource, extensions, signature⟩

/-- The signed bytes: group and position are bound for update and commit
leaves only. -/
def LeafNode.tbs (l : LeafNode) (groupID : Bytes) (leafIndex : ℕ) :
    Result Bytes := do
  let contents ← l.marshalContents
  match l.leafNodeSource with
  | .keyPackage _ => return contents
  | .update | .commit _ =>
      let group ← writeOpaqueV groupID
      return contents ++ (group ++ beBytes 4 leafIndex)

/-! ## Parent nodes -/

structure ParentNode where
  encryptionKey : Bytes
  parentHash : Bytes
  unmergedLeaves : List UInt32
  deriving DecidableEq, Repr

def ParentNode.marshal (p : ParentNode) : Result Bytes := do
  let encryptionKey ← writeOpaqueV p.encryptionKey
  let parentHash ← writeOpaqueV p.parentHash
  let unmergedLeaves ← writeVectorV p.unmergedLeaves fun v => .ok (writeUint32 v)
  return encryptionKey ++ (parentHash ++ unmergedLeaves)

def decodeParentNode : Cursor ParentNode := do
  let encryptionKey ← readOpaqueV
  let parentHash ← readOpaqueV
  let unmergedLeaves ← readVectorV readUint32
  return ⟨encryptionKey, parentHash, unmergedLeaves⟩

inductive Node where
  | leaf (l : LeafNode)
  | parent (p : ParentNode)
  deriving DecidableEq, Repr

def Node.marshal : Node → Result Bytes
  | .leaf l => do
      let body ← l.marshal
      return writeUint8 1 ++ body
  | .parent p => do
      let body ← p.marshal
      return writeUint8 2 ++ body

def decodeNode : Cursor Node := do
  let nodeType ← readUint8
  if nodeType = 1 then
    let l ← decodeLeafNode
    return .leaf l
  else if nodeType = 2 then
    let p ← decodeParentNode
    return .parent p
  else liftM (fail (α := Node) s!"tree: invalid node type {nodeType}")

/-! ## Update paths -/

structure HPKECiphertext where
  kemOutput : Bytes
  ciphertext : Bytes
  deriving DecidableEq, Repr

def HPKECiphertext.marshal (h : HPKECiphertext) : Result Bytes := do
  let kemOutput ← writeOpaqueV h.kemOutput
  let ciphertext ← writeOpaqueV h.ciphertext
  return kemOutput ++ ciphertext

def decodeHPKECiphertext : Cursor HPKECiphertext := do
  let kemOutput ← readOpaqueV
  let ciphertext ← readOpaqueV
  return ⟨kemOutput, ciphertext⟩

structure UpdatePathNode where
  encryptionKey : Bytes
  encryptedPathSecret : List HPKECiphertext
  deriving DecidableEq, Repr

def UpdatePathNode.marshal (n : UpdatePathNode) : Result Bytes := do
  let encryptionKey ← writeOpaqueV n.encryptionKey
  let encryptedPathSecret ← writeVectorV n.encryptedPathSecret HPKECiphertext.marshal
  return encryptionKey ++ encryptedPathSecret

def decodeUpdatePathNode : Cursor UpdatePathNode := do
  let encryptionKey ← readOpaqueV
  let encryptedPathSecret ← readVectorV decodeHPKECiphertext
  return ⟨encryptionKey, encryptedPathSecret⟩

structure UpdatePath where
  leafNode : LeafNode
  nodes : List UpdatePathNode
  deriving DecidableEq, Repr

def UpdatePath.marshal (u : UpdatePath) : Result Bytes := do
  let leafNode ← u.leafNode.marshal
  let nodes ← writeVectorV u.nodes UpdatePathNode.marshal
  return leafNode ++ nodes

def decodeUpdatePath : Cursor UpdatePath := do
  let leafNode ← decodeLeafNode
  let nodes ← readVectorV decodeUpdatePathNode
  return ⟨leafNode, nodes⟩

/-! ## Round trips -/

theorem roundTrips_credential : RoundTrips Credential.marshal decodeCredential := by
  intro credential encoded hwrite
  cases credential with
  | basic identity =>
      simp only [Credential.marshal, bind_eq_ok, pure_ok_iff] at hwrite
      obtain ⟨body, hbody, rfl⟩ := hwrite
      exact (decodes_readUint16 1).bind (roundTrips_opaqueV _ _ hbody).last
  | x509 certificates =>
      simp only [Credential.marshal, bind_eq_ok, pure_ok_iff] at hwrite
      obtain ⟨body, hbody, rfl⟩ := hwrite
      have hcerts := roundTrips_vectorV roundTrips_opaqueV
        (fun _ _ => writeOpaqueV_ne_nil) certificates body hbody
      exact (decodes_readUint16 2).bind hcerts.last

theorem roundTrips_uint16s : RoundTrips writeUint16s (readVectorV readUint16) := by
  have htrip : RoundTrips (fun v => .ok (writeUint16 v)) readUint16 := by
    intro v encoded hwrite
    cases hwrite
    exact decodes_readUint16 v
  refine roundTrips_vectorV htrip ?_
  · intro v encoded hwrite
    cases hwrite
    simp [writeUint16, beBytes]

theorem roundTrips_capabilities : RoundTrips Capabilities.marshal decodeCapabilities := by
  intro c encoded hwrite
  simp only [Capabilities.marshal, bind_eq_ok, pure_ok_iff] at hwrite
  obtain ⟨versions, hversions, suites, hsuites, extensions, hextensions,
    proposals, hproposals, credentials, hcredentials, rfl⟩ := hwrite
  exact (roundTrips_uint16s _ _ hversions).bind <|
    (roundTrips_uint16s _ _ hsuites).bind <|
    (roundTrips_uint16s _ _ hextensions).bind <|
    (roundTrips_uint16s _ _ hproposals).bind
    (roundTrips_uint16s _ _ hcredentials).last

theorem roundTrips_extension : RoundTrips Extension.marshal decodeExtension := by
  intro e encoded hwrite
  simp only [Extension.marshal, bind_eq_ok, pure_ok_iff] at hwrite
  obtain ⟨data, hdata, rfl⟩ := hwrite
  exact (decodes_readUint16 e.extensionType).bind (roundTrips_opaqueV _ _ hdata).last

theorem Extension.marshal_ne_nil (e : Extension) (encoded : Bytes)
    (hwrite : e.marshal = .ok encoded) : encoded ≠ [] := by
  simp only [Extension.marshal, bind_eq_ok, pure_ok_iff] at hwrite
  obtain ⟨data, hdata, rfl⟩ := hwrite
  simp [writeUint16, beBytes]

theorem roundTrips_extensions :
    RoundTrips (fun es => writeVectorV es Extension.marshal) (readVectorV decodeExtension) :=
  roundTrips_vectorV roundTrips_extension Extension.marshal_ne_nil

theorem roundTrips_leafNodeSource : RoundTrips LeafNodeSource.marshal decodeLeafNodeSource := by
  intro source encoded hwrite
  cases source with
  | keyPackage lifetime =>
      cases hwrite
      have hlifetime : Decodes decodeLifetime lifetime.marshal lifetime :=
        (decodes_readUint64 lifetime.notBefore).bind (decodes_readUint64 lifetime.notAfter).last
      exact (decodes_readUint8 1).bind hlifetime.last
  | update =>
      cases hwrite
      exact (decodes_readUint8 2).bind (Decodes.pure LeafNodeSource.update)
  | commit parentHash =>
      simp only [LeafNodeSource.marshal, bind_eq_ok, pure_ok_iff] at hwrite
      obtain ⟨body, hbody, rfl⟩ := hwrite
      exact (decodes_readUint8 3).bind (roundTrips_opaqueV _ _ hbody).last

theorem roundTrips_leafNode : RoundTrips LeafNode.marshal decodeLeafNode := by
  intro l encoded hwrite
  simp only [LeafNode.marshal, LeafNode.marshalContents, bind_eq_ok, pure_ok_iff] at hwrite
  obtain ⟨_, ⟨encryptionKey, hencryption, signatureKey, hsignatureKey,
    credential, hcredential, capabilities, hcapabilities, source, hsource,
    extensions, hextensions, rfl⟩, signature, hsignature, rfl⟩ := hwrite
  simp only [List.append_assoc]
  exact (roundTrips_opaqueV _ _ hencryption).bind <|
    (roundTrips_opaqueV _ _ hsignatureKey).bind <|
    (roundTrips_credential _ _ hcredential).bind <|
    (roundTrips_capabilities _ _ hcapabilities).bind <|
    (roundTrips_leafNodeSource _ _ hsource).bind <|
    (roundTrips_extensions _ _ hextensions).bind
    (roundTrips_opaqueV _ _ hsignature).last

theorem roundTrips_uint32s :
    RoundTrips (fun vs => writeVectorV vs fun v => .ok (writeUint32 v))
      (readVectorV readUint32) := by
  have htrip : RoundTrips (fun v => .ok (writeUint32 v)) readUint32 := by
    intro v encoded hwrite
    cases hwrite
    exact decodes_readUint32 v
  refine roundTrips_vectorV htrip ?_
  · intro v encoded hwrite
    cases hwrite
    simp [writeUint32, beBytes]

theorem roundTrips_parentNode : RoundTrips ParentNode.marshal decodeParentNode := by
  intro p encoded hwrite
  simp only [ParentNode.marshal, bind_eq_ok, pure_ok_iff] at hwrite
  obtain ⟨key, hkey, hash, hhash, unmerged, hunmerged, rfl⟩ := hwrite
  exact (roundTrips_opaqueV _ _ hkey).bind <|
    (roundTrips_opaqueV _ _ hhash).bind (roundTrips_uint32s _ _ hunmerged).last

theorem roundTrips_node : RoundTrips Node.marshal decodeNode := by
  intro n encoded hwrite
  cases n with
  | leaf l =>
      simp only [Node.marshal, bind_eq_ok, pure_ok_iff] at hwrite
      obtain ⟨body, hbody, rfl⟩ := hwrite
      exact (decodes_readUint8 1).bind (roundTrips_leafNode _ _ hbody).last
  | parent p =>
      simp only [Node.marshal, bind_eq_ok, pure_ok_iff] at hwrite
      obtain ⟨body, hbody, rfl⟩ := hwrite
      exact (decodes_readUint8 2).bind (roundTrips_parentNode _ _ hbody).last

theorem roundTrips_hpkeCiphertext : RoundTrips HPKECiphertext.marshal decodeHPKECiphertext := by
  intro h encoded hwrite
  simp only [HPKECiphertext.marshal, bind_eq_ok, pure_ok_iff] at hwrite
  obtain ⟨kem, hkem, ct, hct, rfl⟩ := hwrite
  exact (roundTrips_opaqueV _ _ hkem).bind (roundTrips_opaqueV _ _ hct).last

theorem HPKECiphertext.marshal_ne_nil (h : HPKECiphertext) (encoded : Bytes)
    (hwrite : h.marshal = .ok encoded) : encoded ≠ [] := by
  simp only [HPKECiphertext.marshal, bind_eq_ok, pure_ok_iff] at hwrite
  obtain ⟨kem, hkem, ct, hct, rfl⟩ := hwrite
  simp [writeOpaqueV_ne_nil hkem]

theorem roundTrips_updatePathNode : RoundTrips UpdatePathNode.marshal decodeUpdatePathNode := by
  intro n encoded hwrite
  simp only [UpdatePathNode.marshal, bind_eq_ok, pure_ok_iff] at hwrite
  obtain ⟨key, hkey, cts, hcts, rfl⟩ := hwrite
  have hvector := roundTrips_vectorV roundTrips_hpkeCiphertext
    HPKECiphertext.marshal_ne_nil _ _ hcts
  exact (roundTrips_opaqueV _ _ hkey).bind hvector.last

theorem UpdatePathNode.marshal_ne_nil (n : UpdatePathNode) (encoded : Bytes)
    (hwrite : n.marshal = .ok encoded) : encoded ≠ [] := by
  simp only [UpdatePathNode.marshal, bind_eq_ok, pure_ok_iff] at hwrite
  obtain ⟨key, hkey, cts, hcts, rfl⟩ := hwrite
  simp [writeOpaqueV_ne_nil hkey]

theorem roundTrips_updatePath : RoundTrips UpdatePath.marshal decodeUpdatePath := by
  intro u encoded hwrite
  simp only [UpdatePath.marshal, bind_eq_ok, pure_ok_iff] at hwrite
  obtain ⟨leaf, hleaf, nodes, hnodes, rfl⟩ := hwrite
  have hvector := roundTrips_vectorV roundTrips_updatePathNode
    UpdatePathNode.marshal_ne_nil _ _ hnodes
  exact (roundTrips_leafNode _ _ hleaf).bind hvector.last

end MlsGo
