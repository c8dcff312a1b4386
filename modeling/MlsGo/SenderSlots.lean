import MlsGo.GroupRuns
import MlsGo.MessageLaws
import MlsGo.TicketCounters

/-!
# The keys a sender uses

A private message is sealed under the key and nonce of its sender's leaf, a
ratchet and a generation in the current epoch.  Application messages, proposals
and commits draw generations from two counters of the group; calls may fail
before or after a message is sealed, and a commit seals in the epoch it leaves.
The counters are a ticket office, so no run of a group uses a slot twice.
-/

namespace MlsGo

open DecoderLaws TicketCounters

variable (S : Suite) {guard : ReuseGuard} {bytes : Bytes} {start : Group} {m : MLSMessage}

/-! ## Calls -/

inductive SenderCall where
  | protectApplication (plaintext authenticatedData : Bytes) (guard : ReuseGuard)
  | proposeUpdate (seed : Bytes)
  | frameProposal (p : Proposal) (guard : ReuseGuard)
  | commit (opt : CommitOptions) (rnd : CommitRandomness)
  | processCommit (proposals : List Bytes) (commit : Bytes)
  | setEncryptHandshakes (v : Bool)

def Group.ownContent (g : Group) (authenticatedData : Bytes) (contentType : UInt8)
    (content : Bytes) : FramedContent :=
  ⟨g.groupContext.groupID, g.groupContext.epoch,
    .member (UInt32.ofNat g.ownLeaf), authenticatedData, contentType, content⟩

/-- The private message a call seals, with its ratchet; the call may still fail
afterwards. -/
def Group.sealing (g : Group) : SenderCall → Option (RatchetType × PrivateMessage)
  | .protectApplication plaintext authenticatedData guard => do
      let pm ← (protectPrivate S g.signer g.groupContext g.secretTree
        g.epoch.senderDataSecret
        (g.ownContent authenticatedData contentTypeApplication plaintext)
        g.appGeneration guard 0 []).toOption
      return (.application, pm)
  | .frameProposal p guard =>
      if g.wireFormat = .privateMessage then do
        let body ← p.marshal.toOption
        let pm ← (protectPrivate S g.signer g.groupContext g.secretTree
          g.epoch.senderDataSecret (g.ownContent [] contentTypeProposal body)
          g.handshakeGeneration guard 0 []).toOption
        return (.handshake, pm)
      else none
  | .commit opt rnd => do
      let d ← (g.draftCommit S opt rnd).toOption
      let m ← (g.assembleCommit S d rnd.guard).toOption
      match m.body with
      | .privateMessage pm => return (.handshake, pm)
      | .publicMessage _ => none
  | .proposeUpdate _ | .processCommit _ _ | .setEncryptHandshakes _ => none

def Group.returned (g : Group) : SenderCall → Option Bytes
  | .protectApplication plaintext authenticatedData guard =>
      (g.protectApplication S plaintext authenticatedData guard).1.toOption
  | .frameProposal p guard => (g.frameProposal S p guard).toOption.map fun r => r.1
  | .commit opt rnd => (g.commit S opt rnd).toOption.map CommitResult.commit
  | .proposeUpdate _ | .processCommit _ _ | .setEncryptHandshakes _ => none

/-- The state in which a failing `FrameProposal` or `Commit` leaves the group:
the counter moves on as soon as the message is sealed. -/
def Group.spent (g : Group) (c : SenderCall) : Group :=
  if (g.sealing S c).isSome then
    { g with handshakeGeneration := g.handshakeGeneration + 1 }
  else g

def Group.after (g : Group) (c : SenderCall) : Group :=
  match c with
  | .protectApplication plaintext authenticatedData guard =>
      (g.protectApplication S plaintext authenticatedData guard).2
  | .proposeUpdate seed =>
      match g.proposeUpdate S seed with
      | .ok r => r.2
      | .error _ => g
  | .frameProposal p guard =>
      match g.frameProposal S p guard with
      | .ok r => r.2
      | .error _ => g.spent S c
  | .commit opt rnd =>
      match g.commit S opt rnd with
      | .ok res => res.group
      | .error _ => g.spent S c
  | .processCommit proposals commit =>
      match g.processCommit S proposals commit with
      | .ok g' => g'
      | .error _ => g
  | .setEncryptHandshakes v => { g with encryptHandshakes := v }

/-! ## Slots -/

structure KeySlot where
  epoch : UInt64
  leaf : ℕ
  ratchet : RatchetType
  generation : UInt32
  deriving DecidableEq, Repr

def Group.generation (g : Group) : RatchetType → UInt32
  | .application => g.appGeneration
  | .handshake => g.handshakeGeneration

def Group.keySlot (g : Group) (ratchet : RatchetType) : KeySlot :=
  ⟨g.groupContext.epoch, (UInt32.ofNat g.ownLeaf).toNat, ratchet, g.generation ratchet⟩

def Group.SealedAt (g : Group) (slot : KeySlot) (pm : PrivateMessage) : Prop :=
  ∃ (fc : FramedContent) (auth : FramedContentAuthData) (guard : ReuseGuard),
    fc.epoch = slot.epoch ∧ fc.sender.leafIndex = slot.leaf ∧
      ratchetTypeFor fc.contentType = slot.ratchet ∧
      sealPrivate S g.secretTree g.epoch.senderDataSecret fc auth slot.generation guard 0 = .ok pm

variable {S} {g : Group} {c : SenderCall} {ratchet : RatchetType} {pm : PrivateMessage}

theorem protectPrivate_sealed {signer : Option Signer} {gc : GroupContext} {st : SecretTree}
    {senderDataSecret tag : Bytes} {fc : FramedContent} {generation : UInt32} {paddingSize : ℕ}
    (hrun : protectPrivate S signer gc st senderDataSecret fc generation guard paddingSize tag =
    .ok pm) :
    ∃ auth, sealPrivate S st senderDataSecret fc auth generation guard paddingSize = .ok pm := by
  unfold protectPrivate at hrun
  split at hrun
  · exact absurd hrun fail_ne_ok
  · obtain ⟨signature, -, hseal⟩ := bind_eq_ok.mp hrun
    exact ⟨_, hseal⟩

theorem assembleCommit_eq_ok {d : CommitDraft} (hrun : g.assembleCommit S d guard = .ok m) :
    (∃ pm, m = ⟨1, .publicMessage pm⟩) ∨
      ∃ pm auth, m = ⟨1, .privateMessage pm⟩ ∧
        sealPrivate S g.secretTree g.epoch.senderDataSecret d.content auth
          g.handshakeGeneration guard 0 = .ok pm := by
  unfold Group.assembleCommit at hrun
  split at hrun
  · obtain ⟨pm, hseal, hm⟩ := bind_eq_ok.mp hrun
    cases hm
    rw [within_eq_ok, assembleCommitPrivate] at hseal
    split at hseal
    · exact absurd hseal fail_ne_ok
    · exact .inr ⟨pm, _, rfl, hseal⟩
  · obtain ⟨pm, -, hm⟩ := bind_eq_ok.mp hrun
    cases hm
    exact .inl ⟨pm, rfl⟩

theorem Group.sealedAt_of_sealing (hsealing : g.sealing S c = some (ratchet, pm)) :
    g.SealedAt S (g.keySlot ratchet) pm := by
  cases c with
  | protectApplication plaintext authenticatedData guard =>
      simp only [Group.sealing, Option.bind_eq_bind, Option.bind_eq_some_iff, toOption_eq_some,
        Option.pure_def, Option.some.injEq, Prod.mk.injEq] at hsealing
      obtain ⟨pm', hprotect, rfl, rfl⟩ := hsealing
      obtain ⟨auth, hseal⟩ := protectPrivate_sealed hprotect
      exact ⟨_, auth, guard, rfl, rfl, rfl, hseal⟩
  | frameProposal p guard =>
      rw [Group.sealing] at hsealing
      split at hsealing
      · simp only [Option.bind_eq_bind, Option.bind_eq_some_iff, toOption_eq_some, Option.pure_def,
          Option.some.injEq, Prod.mk.injEq] at hsealing
        obtain ⟨body, -, pm', hprotect, rfl, rfl⟩ := hsealing
        obtain ⟨auth, hseal⟩ := protectPrivate_sealed hprotect
        exact ⟨_, auth, guard, rfl, rfl, rfl, hseal⟩
      · cases hsealing
  | commit opt rnd =>
      simp only [Group.sealing, Option.bind_eq_bind, Option.bind_eq_some_iff,
        toOption_eq_some] at hsealing
      obtain ⟨d, hdraft, m, hassemble, hbody⟩ := hsealing
      obtain ⟨draft⟩ := draftRun_of_draftCommit hdraft
      rcases assembleCommit_eq_ok hassemble with ⟨pub, rfl⟩ | ⟨priv, auth, rfl, hseal⟩
      · cases hbody
      · cases hbody
        exact ⟨d.content, auth, rnd.guard, by rw [draft.content_eq]; rfl,
          by rw [draft.content_eq]; rfl, by rw [draft.content_eq]; rfl, hseal⟩
  | proposeUpdate seed | processCommit proposals commit
    | setEncryptHandshakes v => cases hsealing

theorem Group.generation_spend :
    { g with handshakeGeneration := g.handshakeGeneration + 1 }.generation =
      Function.update g.generation .handshake (g.generation .handshake + 1) := by
  funext ratchet
  cases ratchet <;> simp [Group.generation]

def Group.counted (g : Group) : Option (RatchetType × PrivateMessage) →
    RatchetType → UInt32
  | none => g.generation
  | some (ratchet, _) => Function.update g.generation ratchet (g.generation ratchet + 1)

/-- A call ends in the next epoch, or in the same epoch with its message
counted. -/
structure Group.Moves (g g' : Group)
    (sealed : Option (RatchetType × PrivateMessage)) : Prop where
  ownLeaf : g'.ownLeaf = g.ownLeaf
  epoch : g'.groupContext.epoch = g.groupContext.epoch + 1 ∨
    (g'.groupContext.epoch = g.groupContext.epoch ∧ g'.generation = g.counted sealed)

theorem EpochStep.moves {g' : Group} (hstep : EpochStep S g g')
    (sealed : Option (RatchetType × PrivateMessage)) : g.Moves g' sealed :=
  ⟨hstep.ownLeaf_eq, .inl hstep.epoch_eq⟩

theorem Group.moves_self : g.Moves g none := ⟨rfl, .inr ⟨rfl, rfl⟩⟩

theorem Group.moves_spent
    (hratchet : ∀ sealed, g.sealing S c = some sealed → sealed.1 = .handshake) :
    g.Moves (g.spent S c) (g.sealing S c) := by
  rw [Group.spent]
  cases hsealing : g.sealing S c with
  | none => exact Group.moves_self
  | some sealed =>
      obtain ⟨ratchet, pm⟩ := sealed
      obtain rfl : ratchet = .handshake := hratchet _ hsealing
      exact ⟨rfl, .inr ⟨rfl, Group.generation_spend⟩⟩

theorem frameProposal_eq_ok {p : Proposal}
    {g' : Group} (hrun : g.frameProposal S p guard = .ok (bytes, g')) :
    (∃ m, g.sealing S (.frameProposal p guard) = none ∧ g' = g ∧
        MLSMessage.marshal ⟨1, .publicMessage m⟩ = .ok bytes) ∨
      ∃ m, g.sealing S (.frameProposal p guard) = some (.handshake, m) ∧
        g' = { g with handshakeGeneration := g.handshakeGeneration + 1 } ∧
        MLSMessage.marshal ⟨1, .privateMessage m⟩ = .ok bytes := by
  obtain ⟨body, hbody, hrun⟩ := bind_eq_ok.mp hrun
  rw [Group.sealing]
  split at hrun
  next hwire =>
    simp only [bind_eq_ok, pure_ok_iff, Prod.mk.injEq] at hrun
    obtain ⟨m, hprotect, _, hmarshal, rfl, rfl⟩ := hrun
    refine .inr ⟨m, ?_, rfl, hmarshal⟩
    simp only [if_pos hwire, Option.bind_eq_bind, Option.bind_eq_some_iff, toOption_eq_some]
    exact ⟨body, hbody, m, hprotect, rfl⟩
  next hwire =>
    simp only [bind_eq_ok, pure_ok_iff, Prod.mk.injEq] at hrun
    obtain ⟨m, -, _, hmarshal, rfl, rfl⟩ := hrun
    exact .inl ⟨m, if_neg (by simp [hwire]), rfl, hmarshal⟩

theorem Group.handshake_of_sealing_frameProposal {p : Proposal}
    (sealed : RatchetType × PrivateMessage)
    (hsealing : g.sealing S (.frameProposal p guard) = some sealed) :
    sealed.1 = .handshake := by
  rw [Group.sealing] at hsealing
  split at hsealing
  · simp only [Option.bind_eq_bind, Option.bind_eq_some_iff, Option.pure_def,
      Option.some.injEq] at hsealing
    obtain ⟨_, -, _, -, rfl⟩ := hsealing
    rfl
  · cases hsealing

theorem Group.handshake_of_sealing_commit {opt : CommitOptions}
    {rnd : CommitRandomness} (sealed : RatchetType × PrivateMessage)
    (hsealing : g.sealing S (.commit opt rnd) = some sealed) :
    sealed.1 = .handshake := by
  simp only [Group.sealing, Option.bind_eq_bind, Option.bind_eq_some_iff] at hsealing
  obtain ⟨_, -, m, -, hbody⟩ := hsealing
  split at hbody <;> cases hbody
  rfl

theorem Group.moves_after (g : Group) (c : SenderCall) :
    g.Moves (g.after S c) (g.sealing S c) := by
  cases c with
  | protectApplication plaintext authenticatedData guard =>
      simp only [Group.after, Group.protectApplication, Group.sealing, Group.ownContent]
      cases protectPrivate S g.signer g.groupContext g.secretTree
        g.epoch.senderDataSecret _ g.appGeneration guard 0 [] with
      | error fault => exact Group.moves_self
      | ok pm =>
          refine ⟨rfl, .inr ⟨rfl, ?_⟩⟩
          funext ratchet
          cases ratchet <;> simp [Group.generation, Group.counted, Except.toOption]
  | proposeUpdate seed =>
      cases hrun : g.proposeUpdate S seed with
      | error fault =>
          simp only [Group.after, hrun]
          exact Group.moves_self
      | ok r =>
          simp only [Group.after, hrun]
          simp only [Group.proposeUpdate, bind_eq_ok, pure_ok_iff] at hrun
          obtain ⟨keys, -, cur, -, ln, -, rfl⟩ := hrun
          exact ⟨rfl, .inr ⟨rfl, by funext ratchet; cases ratchet <;> rfl⟩⟩
  | frameProposal p guard =>
      cases hrun : g.frameProposal S p guard with
      | error fault =>
          simp only [Group.after, hrun]
          exact Group.moves_spent Group.handshake_of_sealing_frameProposal
      | ok r =>
          simp only [Group.after, hrun]
          rcases frameProposal_eq_ok hrun with ⟨m, hsealing, hg, -⟩ | ⟨m, hsealing, hg, -⟩
          · rw [hsealing, hg]
            exact Group.moves_self
          · rw [hsealing, hg]
            exact ⟨rfl, .inr ⟨rfl, Group.generation_spend⟩⟩
  | commit opt rnd =>
      cases hrun : g.commit S opt rnd with
      | error fault =>
          simp only [Group.after, hrun]
          exact Group.moves_spent Group.handshake_of_sealing_commit
      | ok res =>
          simp only [Group.after, hrun]
          exact (EpochStep.commit opt rnd hrun).moves _
  | processCommit proposals commit =>
      cases hrun : g.processCommit S proposals commit with
      | error fault =>
          simp only [Group.after, hrun]
          exact Group.moves_self
      | ok g' =>
          simp only [Group.after, hrun]
          exact (EpochStep.processCommit proposals commit hrun).moves _
  | setEncryptHandshakes v =>
      refine ⟨rfl, .inr ⟨rfl, ?_⟩⟩
      funext ratchet
      cases ratchet <;> rfl

/-! ## Returned messages -/

theorem private_of_marshal_eq {pm : PrivateMessage} (hwrite : m.marshal = .ok bytes)
    (hprivate : MLSMessage.marshal ⟨1, .privateMessage pm⟩ = .ok bytes) :
    m.body = .privateMessage pm := by
  obtain ⟨version, body⟩ := m
  simp only [MLSMessage.marshal, bind_eq_ok, pure_ok_iff] at hprivate
  obtain ⟨data, hdata, rfl⟩ := hprivate
  cases body with
  | publicMessage m =>
      simp only [MLSMessage.marshal, bind_eq_ok, pure_ok_iff] at hwrite
      obtain ⟨data', -, heq⟩ := hwrite
      obtain ⟨-, heq⟩ := (decodes_readUint16 version).unique (decodes_readUint16 1) heq
      have hcode := (decodes_readUint16 1).unique (decodes_readUint16 2) heq
      exact absurd hcode.1 (by decide)
  | privateMessage m =>
      simp only [MLSMessage.marshal, bind_eq_ok, pure_ok_iff] at hwrite
      obtain ⟨data', hdata', heq⟩ := hwrite
      obtain ⟨-, heq⟩ := (decodes_readUint16 version).unique (decodes_readUint16 1) heq
      obtain ⟨-, rfl⟩ := (decodes_readUint16 2).unique (decodes_readUint16 2) heq
      rw [(roundTrips_privateMessage _ _ hdata').value_unique
        (roundTrips_privateMessage _ _ hdata)]

theorem Group.sealing_of_returned (hreturned : g.returned S c = some bytes)
    (hprivate : MLSMessage.marshal ⟨1, .privateMessage pm⟩ = .ok bytes) :
    ∃ ratchet, g.sealing S c = some (ratchet, pm) := by
  cases c with
  | protectApplication plaintext authenticatedData guard =>
      simp only [Group.returned, toOption_eq_some, Group.protectApplication] at hreturned
      split at hreturned
      · cases hreturned
      next pm' hprotect =>
        have hmarshal : MLSMessage.marshal ⟨1, .privateMessage pm'⟩ = .ok bytes := hreturned
        cases private_of_marshal_eq hmarshal hprivate
        refine ⟨.application, ?_⟩
        simp only [Group.sealing, Option.bind_eq_bind, Option.bind_eq_some_iff, toOption_eq_some]
        exact ⟨pm, hprotect, rfl⟩
  | frameProposal p guard =>
      simp only [Group.returned, Option.map_eq_some_iff, toOption_eq_some] at hreturned
      obtain ⟨r, hrun, rfl⟩ := hreturned
      rcases frameProposal_eq_ok hrun with ⟨m, -, -, hmarshal⟩ | ⟨m, hsealing, -, hmarshal⟩
      · exact absurd (private_of_marshal_eq hmarshal hprivate) (by simp)
      · cases private_of_marshal_eq hmarshal hprivate
        exact ⟨_, hsealing⟩
  | commit opt rnd =>
      simp only [Group.returned, Option.map_eq_some_iff, toOption_eq_some] at hreturned
      obtain ⟨res, hrun, rfl⟩ := hreturned
      obtain ⟨d, hdraft, hfinish⟩ := bind_eq_ok.mp hrun
      obtain ⟨finish⟩ := finishRun_of_finishCommit hfinish
      have hbody := private_of_marshal_eq finish.commit_eq hprivate
      refine ⟨.handshake, ?_⟩
      simp only [Group.sealing, Option.bind_eq_bind, Option.bind_eq_some_iff, toOption_eq_some]
      exact ⟨d, hdraft, finish.message, finish.message_eq, by rw [hbody]; rfl⟩
  | proposeUpdate seed | processCommit proposals commit
    | setEncryptHandshakes v => cases hreturned

/-! ## Runs -/

/-- A sealed message with the number of epochs the group has entered since the
run began. -/
structure SealedRecord where
  epochs : ℕ
  slot : KeySlot
  message : PrivateMessage
  deriving DecidableEq, Repr

structure SenderWorld where
  group : Group
  epochs : ℕ
  log : List SealedRecord

variable (S) in
def SenderWorld.step (w : SenderWorld) (c : SenderCall) : SenderWorld where
  group := w.group.after S c
  epochs :=
    if (w.group.after S c).groupContext.epoch = w.group.groupContext.epoch then
      w.epochs
    else w.epochs + 1
  log := w.log ++ ((w.group.sealing S c).map fun sealed =>
    ⟨w.epochs, w.group.keySlot sealed.1, sealed.2⟩).toList

variable (S) in
def SenderWorld.run (w : SenderWorld) (calls : List SenderCall) : SenderWorld :=
  calls.foldl (SenderWorld.step S) w

def Group.world (g : Group) : SenderWorld := ⟨g, 0, []⟩

def SealedRecord.ticket (r : SealedRecord) : Ticket RatchetType UInt32 :=
  ⟨r.epochs, r.slot.ratchet, r.slot.generation⟩

def SenderWorld.office (w : SenderWorld) : Office RatchetType UInt32 :=
  ⟨w.epochs, w.group.generation, w.log.map SealedRecord.ticket⟩

variable {w : SenderWorld}

theorem SenderWorld.step_consecutive (hw : w.office.Consecutive (· + 1)) (c : SenderCall) :
    (w.step S c).office.Consecutive (· + 1) := by
  -- The office once the sealed message is counted.
  have hissued : Office.Consecutive (· + 1)
      ⟨w.epochs, w.group.counted (w.group.sealing S c),
        (w.step S c).log.map SealedRecord.ticket⟩ := by
    cases hsealing : w.group.sealing S c with
    | none => simpa [SenderWorld.step, hsealing, Group.counted, SenderWorld.office] using hw
    | some sealed =>
        have hissue := hw.issue sealed.1
        simpa [SenderWorld.step, hsealing, Office.issue, SenderWorld.office,
          SealedRecord.ticket, Group.keySlot, Group.counted] using hissue
  rcases (w.group.moves_after (S := S) c).epoch with hnext | ⟨hsame, hcounted⟩
  · have hne : (w.group.after S c).groupContext.epoch ≠ w.group.groupContext.epoch := by
      rw [hnext]
      simp
    have hstep : (w.step S c).epochs = w.epochs + 1 := if_neg hne
    rw [SenderWorld.office, hstep]
    exact hissued.newEpoch _
  · have hstep : (w.step S c).epochs = w.epochs := if_pos hsame
    have hgeneration : (w.step S c).group.generation =
        w.group.counted (w.group.sealing S c) := hcounted
    rw [SenderWorld.office, hstep, hgeneration]
    exact hissued

theorem SenderWorld.run_consecutive (hw : w.office.Consecutive (· + 1))
    (calls : List SenderCall) : (w.run S calls).office.Consecutive (· + 1) := by
  induction calls generalizing w with
  | nil => exact hw
  | cons c calls ih => exact ih (step_consecutive hw c)

structure SenderWorld.Numbered (start : Group) (w : SenderWorld) : Prop where
  epoch : w.group.groupContext.epoch = start.groupContext.epoch + UInt64.ofNat w.epochs
  ownLeaf : w.group.ownLeaf = start.ownLeaf
  log : ∀ r ∈ w.log, r.epochs ≤ w.epochs ∧
    r.slot.epoch = start.groupContext.epoch + UInt64.ofNat r.epochs ∧
    r.slot.leaf = (UInt32.ofNat start.ownLeaf).toNat

theorem SenderWorld.step_numbered (hw : w.Numbered start)
    (c : SenderCall) : (w.step S c).Numbered start := by
  have hmoves := w.group.moves_after (S := S) c
  have hle : w.epochs ≤ (w.step S c).epochs := by
    simp only [SenderWorld.step]
    split <;> omega
  refine ⟨?_, hmoves.ownLeaf.trans hw.ownLeaf, ?_⟩
  · rcases hmoves.epoch with hnext | ⟨hsame, -⟩
    · have hne : (w.group.after S c).groupContext.epoch ≠ w.group.groupContext.epoch := by
        rw [hnext]
        simp
      have hstep : (w.step S c).epochs = w.epochs + 1 := if_neg hne
      calc (w.step S c).group.groupContext.epoch = w.group.groupContext.epoch + 1 := hnext
        _ = start.groupContext.epoch + UInt64.ofNat (w.epochs + 1) := by
          rw [hw.epoch, UInt64.ofNat_add, ← UInt64.add_assoc]
          rfl
        _ = _ := by rw [hstep]
    · have hstep : (w.step S c).epochs = w.epochs := if_pos hsame
      rw [hstep, ← hw.epoch]
      exact hsame
  · intro r hr
    rcases List.mem_append.mp hr with hr | hr
    · obtain ⟨hr, hslot⟩ := hw.log r hr
      exact ⟨hr.trans hle, hslot⟩
    · simp only [Option.mem_toList, Option.map_eq_some_iff] at hr
      obtain ⟨sealed, -, rfl⟩ := hr
      refine ⟨hle, hw.epoch, ?_⟩
      rw [← hw.ownLeaf]
      rfl

theorem SenderWorld.run_numbered (hw : w.Numbered start)
    (calls : List SenderCall) : (w.run S calls).Numbered start := by
  induction calls generalizing w with
  | nil => exact hw
  | cons c calls ih => exact ih (step_numbered hw c)

theorem Group.world_numbered (g : Group) : g.world.Numbered g where
  epoch := by simp [Group.world]
  ownLeaf := rfl
  log := by simp [Group.world]

theorem SenderWorld.log_run (w : SenderWorld) (calls : List SenderCall) :
    w.log <+: (w.run S calls).log := by
  induction calls generalizing w with
  | nil => exact List.prefix_refl _
  | cons c calls ih => exact (List.prefix_append _ _).trans (ih (w.step S c))

/-! ## No slot twice -/

theorem period_uint32 : Period (· + 1 : UInt32 → UInt32) (2 ^ 32) := by
  intro first i hi j hj heq
  have hiterate : ∀ n, (· + 1 : UInt32 → UInt32)^[n] first = first + UInt32.ofNat n := by
    intro n
    induction n with
    | zero => simp
    | succ n ih =>
        rw [Function.iterate_succ_apply', ih, UInt32.ofNat_add, ← UInt32.add_assoc]
        rfl
  rw [hiterate, hiterate] at heq
  have hsame : UInt32.ofNat i = UInt32.ofNat j := (UInt32.add_right_inj first).mp heq
  have hnat := congrArg UInt32.toNat hsame
  rwa [UInt32.toNat_ofNat', UInt32.toNat_ofNat', Nat.mod_eq_of_lt hi, Nat.mod_eq_of_lt hj] at hnat

def sealedOn (log : List SealedRecord) (epochs : ℕ) (ratchet : RatchetType) :
    List SealedRecord := log.filter fun r => r.epochs = epochs ∧ r.slot.ratchet = ratchet

theorem length_sealedOn (log : List SealedRecord) (epochs : ℕ) (ratchet : RatchetType) :
    (sealedOn log epochs ratchet).length =
      (Office.drawn (log.map SealedRecord.ticket) epochs ratchet).length := by
  rw [sealedOn, Office.drawn, List.length_map, List.filter_map, List.length_map]
  rfl

theorem SealedRecord.pairwise_of_nodup {log : List SealedRecord}
    (hnodup : (log.map SealedRecord.ticket).Nodup) :
    log.Pairwise fun r r' => (r.epochs, r.slot) ≠ (r'.epochs, r'.slot) := by
  have hpairwise := List.pairwise_map.mp hnodup
  refine hpairwise.imp fun hne heq => hne ?_
  rw [Prod.mk.injEq] at heq
  rw [SealedRecord.ticket, SealedRecord.ticket, heq.1, heq.2]

theorem SenderWorld.Numbered.epochs_eq (hw : w.Numbered start)
    (hfew : w.epochs < 2 ^ 64) {r r' : SealedRecord} (hr : r ∈ w.log)
    (hr' : r' ∈ w.log) (heq : r.slot = r'.slot) : r.epochs = r'.epochs := by
  obtain ⟨hle, hepoch, -⟩ := hw.log r hr
  obtain ⟨hle', hepoch', -⟩ := hw.log r' hr'
  rw [heq, hepoch', UInt64.add_right_inj] at hepoch
  have hnat := congrArg UInt64.toNat hepoch
  rw [UInt64.toNat_ofNat', UInt64.toNat_ofNat', Nat.mod_eq_of_lt (by omega),
    Nat.mod_eq_of_lt (by omega)] at hnat
  exact hnat.symm

theorem sealed_slots_distinct (S : Suite) (start : Group)
    (calls : List SenderCall)
    (hfew : ∀ epochs ratchet,
      (sealedOn (start.world.run S calls).log epochs ratchet).length < 2 ^ 32) :
    ((start.world.run S calls).log.Pairwise fun r r' =>
        (r.epochs, r.slot) ≠ (r'.epochs, r'.slot)) ∧
      ((start.world.run S calls).epochs < 2 ^ 64 →
        (start.world.run S calls).log.Pairwise fun r r' => r.slot ≠ r'.slot) ∧
      ∀ before c rest bytes pm, calls = before ++ c :: rest →
        (start.world.run S before).group.returned S c = some bytes →
        MLSMessage.marshal ⟨1, .privateMessage pm⟩ = .ok bytes →
        ∃ ratchet, (start.world.run S before).group.SealedAt S
            ((start.world.run S before).group.keySlot ratchet) pm ∧
          (start.world.run S before).log ++
            [⟨(start.world.run S before).epochs,
              (start.world.run S before).group.keySlot ratchet, pm⟩] <+:
            (start.world.run S calls).log := by
  have hpairwise : (start.world.run S calls).log.Pairwise fun r r' =>
      (r.epochs, r.slot) ≠ (r'.epochs, r'.slot) := by
    apply SealedRecord.pairwise_of_nodup
    refine Office.Consecutive.nodup (SenderWorld.run_consecutive
      (Office.consecutive_nil 0 start.generation) calls) period_uint32 ?_
    intro epochs ratchet
    have hlength := hfew epochs ratchet
    rw [length_sealedOn] at hlength
    exact hlength.le
  refine ⟨hpairwise, fun hepochs => ?_, ?_⟩
  · have hnumbered := SenderWorld.run_numbered (S := S) start.world_numbered calls
    refine hpairwise.imp_of_mem fun hr hr' hne heq => hne ?_
    rw [Prod.mk.injEq]
    exact ⟨hnumbered.epochs_eq hepochs hr hr' heq, heq⟩
  · rintro before c rest bytes pm rfl hreturned hprivate
    obtain ⟨ratchet, hsealing⟩ := Group.sealing_of_returned hreturned hprivate
    refine ⟨ratchet, Group.sealedAt_of_sealing hsealing, ?_⟩
    have hrun : start.world.run S (before ++ c :: rest) =
        ((start.world.run S before).step S c).run S rest := by
      simp [SenderWorld.run]
    have hlog : ((start.world.run S before).step S c).log =
        (start.world.run S before).log ++
          [⟨(start.world.run S before).epochs,
            (start.world.run S before).group.keySlot ratchet, pm⟩] := by
      simp [SenderWorld.step, hsealing]
    rw [hrun, ← hlog]
    exact SenderWorld.log_run _ rest

/-! ### Two epochs of a creator -/

/-- Two application messages around an encrypted proposal and commit; the last
call fails. -/
def encryptedCalls : List SenderCall :=
  [.setEncryptHandshakes true, .protectApplication [1] [] ⟨0, 0, 0, 0⟩,
    .frameProposal (.remove 1) ⟨0, 0, 0, 0⟩,
    .commit ⟨[], []⟩ ⟨[11], fun _ _ => [], ⟨0, 0, 0, 0⟩, fun _ => []⟩,
    .protectApplication [2] [] ⟨0, 0, 0, 0⟩, .processCommit [] []]

/-- The run seals four messages, at four slots. -/
theorem sealed_slots_distinct_creator :
    ∃ start, newGroup plainSuite [9] (.basic [1]) (some ⟨[1]⟩) ⟨0, 1⟩
        ⟨[1, 1], [1, 2]⟩ = .ok start ∧
      (start.world.run plainSuite encryptedCalls).log.length = 4 ∧
      (start.world.run plainSuite encryptedCalls).epochs = 1 ∧
      (start.world.run plainSuite encryptedCalls).log.Pairwise fun r r' => r.slot ≠ r'.slot := by
  obtain ⟨start, hstart, hlength, hepochs⟩ :
      ∃ start, newGroup plainSuite [9] (.basic [1]) (some ⟨[1]⟩) ⟨0, 1⟩ ⟨[1, 1], [1, 2]⟩ =
          .ok start ∧
        (start.world.run plainSuite encryptedCalls).log.length = 4 ∧
        (start.world.run plainSuite encryptedCalls).epochs = 1 := by decide +kernel
  have hdistinct := sealed_slots_distinct plainSuite start encryptedCalls (fun epochs ratchet => by
      have hle := List.length_filter_le (fun r : SealedRecord =>
        r.epochs = epochs ∧ r.slot.ratchet = ratchet)
        (start.world.run plainSuite encryptedCalls).log
      rw [sealedOn]
      omega)
  exact ⟨start, hstart, hlength, hepochs, hdistinct.2.1 (by omega)⟩

end MlsGo
