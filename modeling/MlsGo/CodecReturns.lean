import MlsGo.GroupObjects
import MlsGo.RatchetTree

/-!
# Writing and reading always return

No writer and no reader of the wire form panics or loops: a writer fails on a
vector that is too long and on nothing else, a reader on bytes of the wrong
shape.  For a reader of
vectors this needs that each element consumes at least one byte.
-/

namespace MlsGo

open DecoderLaws

variable {α β : Type} {p : Prop} {result : Result α} {enc : α → Result Bytes} {dec : Cursor α}
    {n : ℕ} {next : α → Result β}

@[simp] theorem returns_bind {first : Result α} :
    Returns (first >>= next) ↔
      Returns first ∧ ∀ value, first = .ok value → Returns (next value) := by
  cases first with
  | error fault => simp [Returns]
  | ok value => simp

@[simp] theorem returns_ite [Decidable p] {a b : Result α} :
    Returns (if p then a else b) ↔ (p → Returns a) ∧ (¬ p → Returns b) := by
  split <;> simp [*]

/-! ## The length limit -/

def Err.AtLimit : Err → Prop
  | .varintTooLong _ => True
  | .wrap _ cause => cause.AtLimit
  | .text _ | .noPathSecret _ _ _ => False

def StopsAtLimit (result : Result α) : Prop :=
  ∀ fault, result = .error fault → ∃ error, fault = .err error ∧ error.AtLimit

@[simp] theorem stops_ok (value : α) : StopsAtLimit (.ok value : Result α) := by
  simp [StopsAtLimit]

@[simp] theorem stops_bind {first : Result α} :
    StopsAtLimit (first >>= next) ↔ StopsAtLimit first ∧
      ∀ value, first = .ok value → StopsAtLimit (next value) := by
  cases first with
  | error fault => simp [StopsAtLimit]
  | ok value => simp

@[simp] theorem stops_ite [Decidable p] {a b : Result α} :
    StopsAtLimit (if p then a else b) ↔ (p → StopsAtLimit a) ∧ (¬ p → StopsAtLimit b) := by
  split <;> simp [*]

@[simp] theorem stops_within {message : String} :
    StopsAtLimit (within message result) ↔ StopsAtLimit result := by
  rcases result with (_ | _ | _) | _ <;> simp [within, StopsAtLimit, Err.AtLimit]

/-- The limit is reported as an error. -/
@[simp low] theorem returns_of_stops (hstops : StopsAtLimit result) : Returns result := by
  rcases result with (error | _ | _) | value
  · exact returns_err error
  · simpa using hstops _ rfl
  · simpa using hstops _ rfl
  · exact returns_ok value

/-! ## Writers -/

@[simp] theorem writeVarint_stops (v : ℕ) : StopsAtLimit (writeVarint v) := by
  unfold writeVarint
  split_ifs <;> simp [StopsAtLimit, Err.AtLimit]

@[simp] theorem writeOpaqueV_stops (p : Bytes) : StopsAtLimit (writeOpaqueV p) := by
  simp [writeOpaqueV]

theorem encodeAll_stops (henc : ∀ value, StopsAtLimit (enc value)) (items : List α) :
    StopsAtLimit (encodeAll enc items) := by
  induction items with
  | nil => simp [encodeAll]
  | cons item items ih => simp [encodeAll, henc, ih]

@[simp] theorem writeVectorV_stops (henc : ∀ value, StopsAtLimit (enc value)) (items : List α) :
    StopsAtLimit (writeVectorV items enc) := by
  simp [writeVectorV, encodeAll_stops henc]

@[simp] theorem writeOptional_stops (henc : ∀ value, StopsAtLimit (enc value)) (v : Option α) :
    StopsAtLimit (writeOptional v enc) := by
  cases v <;> simp [writeOptional, henc]

@[simp] theorem credential_marshal_stops (c : Credential) : StopsAtLimit c.marshal := by
  cases c <;> simp [Credential.marshal]

@[simp] theorem writeUint16s_stops (values : List UInt16) :
    StopsAtLimit (writeUint16s values) := by
  simp [writeUint16s]

@[simp] theorem capabilities_marshal_stops (c : Capabilities) : StopsAtLimit c.marshal := by
  simp [Capabilities.marshal]

@[simp] theorem extension_marshal_stops (e : Extension) : StopsAtLimit e.marshal := by
  simp [Extension.marshal]

@[simp] theorem leafNodeSource_marshal_stops (source : LeafNodeSource) :
    StopsAtLimit source.marshal := by
  cases source <;> simp [LeafNodeSource.marshal]

@[simp] theorem leafNode_marshalContents_stops (l : LeafNode) :
    StopsAtLimit l.marshalContents := by
  simp [LeafNode.marshalContents]

@[simp] theorem leafNode_marshal_stops (l : LeafNode) : StopsAtLimit l.marshal := by
  simp [LeafNode.marshal]

@[simp] theorem leafNode_tbs_stops (l : LeafNode) (groupID : Bytes)
    (leafIndex : ℕ) : StopsAtLimit (l.tbs groupID leafIndex) := by
  unfold LeafNode.tbs
  cases l.leafNodeSource <;> simp

@[simp] theorem parentNode_marshal_stops (p : ParentNode) : StopsAtLimit p.marshal := by
  simp [ParentNode.marshal]

@[simp] theorem node_marshal_stops (n : Node) : StopsAtLimit n.marshal := by
  cases n <;> simp [Node.marshal]

@[simp] theorem updatePath_marshal_stops (u : UpdatePath) : StopsAtLimit u.marshal := by
  simp [UpdatePath.marshal, UpdatePathNode.marshal, HPKECiphertext.marshal]

@[simp] theorem groupContext_marshal_stops (gc : GroupContext) : StopsAtLimit gc.marshal := by
  simp [GroupContext.marshal, writeExtensions]

@[simp] theorem preSharedKeyID_marshal_stops (p : PreSharedKeyID) : StopsAtLimit p.marshal := by
  obtain ⟨source, nonce⟩ := p
  cases source <;> simp [PreSharedKeyID.marshal, PskSource.marshal]

@[simp] theorem keyPackage_marshal_stops (kp : KeyPackage) : StopsAtLimit kp.marshal := by
  simp [KeyPackage.marshal, KeyPackage.marshalTBS, writeExtensions]

@[simp] theorem proposal_marshal_stops (p : Proposal) : StopsAtLimit p.marshal := by
  cases p <;> simp [Proposal.marshal, writeExtensions]

@[simp] theorem proposalOrRef_marshal_stops (p : ProposalOrRef) : StopsAtLimit p.marshal := by
  cases p <;> simp [ProposalOrRef.marshal]

@[simp] theorem commit_marshal_stops (cm : Commit) : StopsAtLimit cm.marshal := by
  unfold Commit.marshal
  cases cm.path <;> simp

@[simp] theorem groupInfo_marshalTBS_stops (gi : GroupInfo) : StopsAtLimit gi.marshalTBS := by
  simp [GroupInfo.marshalTBS, writeExtensions]

@[simp] theorem groupInfo_marshal_stops (gi : GroupInfo) : StopsAtLimit gi.marshal := by
  simp [GroupInfo.marshal]

@[simp] theorem groupSecrets_marshal_stops (gs : GroupSecrets) : StopsAtLimit gs.marshal := by
  simp [GroupSecrets.marshal]

@[simp] theorem encodeWelcomeMessage_stops (w : Welcome) :
    StopsAtLimit (encodeWelcomeMessage w) := by
  simp [encodeWelcomeMessage, Welcome.marshal, EncryptedGroupSecrets.marshal,
    HPKECiphertext.marshal]

@[simp] theorem framedContent_marshal_returns (fc : FramedContent) : Returns fc.marshal := by
  simp [FramedContent.marshal, marshalContent]

@[simp] theorem authData_marshal_stops (a : FramedContentAuthData)
    (contentType : UInt8) : StopsAtLimit (a.marshal contentType) := by
  simp [FramedContentAuthData.marshal]

@[simp] theorem authenticatedContent_marshal_returns
    (ac : AuthenticatedContent) : Returns ac.marshal := by
  simp [AuthenticatedContent.marshal]

@[simp] theorem mlsMessage_marshal_returns (m : MLSMessage) : Returns m.marshal := by
  unfold MLSMessage.marshal
  cases m.body <;> simp [PublicMessage.marshal, PrivateMessage.marshal]

@[simp] theorem tree_marshal_stops (t : RatchetTree) : StopsAtLimit t.marshal := by
  simp [RatchetTree.marshal]

/-! ## Readers -/

/-- The reader returns on every input, and a value costs at least `n` bytes. -/
structure Reads (dec : Cursor α) (n : ℕ) : Prop where
  returns : ∀ data, Returns (dec data)
  rest_le : ∀ {data value rest}, dec data = .ok (value, rest) → rest.length + n ≤ data.length

theorem Reads.bind {next : α → Cursor β} {m : ℕ}
    (hdec : Reads dec n) (hnext : ∀ value, Reads (next value) m) :
    Reads (dec >>= next) n := by
  constructor
  · intro data
    exact (hdec.returns data).bind fun read _ => (hnext read.1).returns read.2
  · intro data value rest hread
    obtain ⟨⟨first, middle⟩, hfirst, hsecond⟩ := bind_eq_ok.mp hread
    have hfront := hdec.rest_le hfirst
    have hback := (hnext first).rest_le hsecond
    omega

theorem reads_pure (value : α) : Reads (pure value : Cursor α) 0 := by
  constructor
  · intro data
    exact returns_ok _
  · intro data read rest hread
    cases hread
    rfl

theorem reads_lift (hresult : Returns result) : Reads (liftM result : Cursor α) 0 := by
  constructor
  · intro data
    exact hresult.bind fun _ _ => returns_ok _
  · intro data value rest hread
    obtain ⟨read, -, hpair⟩ := bind_eq_ok.mp hread
    cases hpair
    rfl

theorem reads_fail (message : String) : Reads (liftM (fail message : Result α) : Cursor α) 0 :=
  reads_lift (returns_fail message)

theorem Reads.weaken (hdec : Reads dec n) : Reads dec 0 :=
  ⟨hdec.returns, fun hread => (Nat.le_add_right _ _).trans (hdec.rest_le hread)⟩

theorem Reads.ite [Decidable p] {a b : Cursor α} {m : ℕ}
    (ha : Reads a n) (hb : Reads b m) : Reads (if p then a else b) 0 := by
  split
  · exact ha.weaken
  · exact hb.weaken

theorem reads_take (n : ℕ) : Reads (take n) n := by
  constructor
  · intro data
    simp [take]
  · intro data value rest hread
    unfold take at hread
    split at hread
    · exact absurd hread fail_ne_ok
    · cases hread
      simp
      omega

theorem reads_uint8 : Reads readUint8 1 := (reads_take 1).bind fun _ => reads_pure _

theorem reads_uint16 : Reads readUint16 2 := (reads_take 2).bind fun _ => reads_pure _

theorem reads_uint32 : Reads readUint32 4 := (reads_take 4).bind fun _ => reads_pure _

theorem reads_uint64 : Reads readUint64 8 := (reads_take 8).bind fun _ => reads_pure _

theorem reads_varint : Reads readVarint 1 := by
  constructor
  · intro data
    cases data <;> simp [readVarint]
  · intro data value rest hread
    cases data with
    | nil => exact absurd hread fail_ne_ok
    | cons first others =>
        simp only [readVarint] at hread
        split at hread
        · exact absurd hread fail_ne_ok
        split at hread
        · exact absurd hread fail_ne_ok
        split at hread
        · exact absurd hread fail_ne_ok
        cases hread
        have hpos := Nat.two_pow_pos (first >>> 6).toNat
        simp only [Nat.one_shiftLeft, List.length_drop, List.length_cons] at *
        omega

theorem reads_opaqueV : Reads readOpaqueV 1 := reads_varint.bind fun n => (reads_take n).weaken

theorem decodeAll_returns (hdec : Reads dec (n + 1)) :
    ∀ fuel data, data.length ≤ fuel → Returns (decodeAll Fault.diverge dec fuel data) := by
  intro fuel
  induction fuel with
  | zero =>
      intro data hlen
      obtain rfl : data = [] := by simpa using hlen
      exact returns_ok _
  | succ fuel ih =>
      intro data hlen
      cases data with
      | nil => exact returns_ok _
      | cons token tokens =>
          -- an element takes at least one byte, so the fuel stays sufficient
          refine (hdec.returns _).bind fun ⟨value, rest⟩ hread => ?_
          have hrest := hdec.rest_le hread
          refine (ih rest (by omega)).bind fun _ _ => returns_ok _

theorem Reads.vectorV (hdec : Reads dec (n + 1)) : Reads (readVectorV dec) 1 :=
  reads_opaqueV.bind fun body => reads_lift (decodeAll_returns hdec body.length body le_rfl)

end MlsGo
