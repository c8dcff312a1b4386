import MlsGo.SimClient

/-!
# What a handler of a client may do

`sim/client.go`: whatever a client does, a channel it has joined stays joined until
it leaves, no epoch goes back, and a heartbeat carries the epoch its sender is in.
Entries for peers are heard, from a heartbeat of the peer, or guessed: a commit that
adds a member enters it at the epoch of the commit, and a client that joins enters
everyone one epoch before its own.
-/

namespace MlsGo

variable {κ ν : Type} [DecidableEq κ]

theorem GoMap.get_filter {map : GoMap κ ν} (keep : κ → Bool) {key : κ} {value : ν} :
    GoMap.get (map.filter fun entry => keep entry.1) key = some value ↔
      map.get key = some value ∧ keep key = true := by
  induction map with
  | nil => simp
  | cons entry rest ih =>
      obtain ⟨stored, held⟩ := entry
      change _ ↔ (GoMap.set rest stored held).get key = _ ∧ _
      rw [GoMap.get_set, List.filter_cons]
      by_cases hkey : key = stored
      · subst hkey
        cases hkeep : keep key with
        | false => simp [hkeep, ih]
        | true => simp [GoMap.get]
      · cases hkeep : keep stored with
        | false => simp [hkey, ih]
        | true =>
            rw [if_pos rfl, if_neg hkey, ← ih]
            change (GoMap.set _ stored held).get key = _ ↔ _
            rw [GoMap.get_set, if_neg hkey]

end MlsGo

namespace MlsGo.Sim

/-! ## One state -/

def lastEpoch : UInt64 := 0xFFFFFFFFFFFFFFFF

theorem le_of_advances {e e' : UInt64} (htop : e ≠ lastEpoch)
    (hstep : e' = e ∨ e' = e + 1) : e ≤ e' := by
  rcases hstep with rfl | rfl
  · exact UInt64.le_refl _
  · have hne : e.toNat ≠ 2 ^ 64 - 1 := fun heq => htop (UInt64.toNat_inj.mp heq)
    have hlt := e.toNat_lt
    rw [UInt64.le_iff_toNat_le, UInt64.toNat_add]
    simp only [UInt64.toNat_one]
    omega

/-- What a step puts down: an entry for a peer, or the epoch in which the client joins. -/
inductive Note where
  | peer (a : ActorID) (e : UInt64)
  | own (e : UInt64)

/-- A state of a client and a later one: joined stays joined, the epoch does not
go back, an entry for a peer was there or is put down, and so is the epoch of a client
that joins; one that still waits has the entries it had. -/
structure VniState.Later (notes : Note → Prop) (st st' : VniState) : Prop where
  joined : st.joined = true → st'.joined = true ∧ st.epoch ≤ st'.epoch
  entries : ∀ a e, st'.peerEpoch.get a = some e → st.peerEpoch.get a = some e ∨ notes (.peer a e)
  enters : st.joined = false → st'.joined = true → notes (.own st'.epoch)
  waiting : st'.joined = false → st'.peerEpoch = st.peerEpoch

structure VniState.Kept (st st' : VniState) : Prop where
  ctrl_eq : st'.ctrl = st.ctrl
  joined_eq : st'.joined = st.joined
  peerEpoch_eq : st'.peerEpoch = st.peerEpoch

namespace VniState

variable {notes : Note → Prop} {st st' : VniState}

theorem Later.refl (st : VniState) : st.Later notes st where
  joined := fun hjoined => ⟨hjoined, UInt64.le_refl _⟩
  entries := fun _ _ hget => .inl hget
  enters := fun hout hin => absurd hin (by simp [hout])
  waiting := fun _ => rfl

theorem Later.mono {notes' : Note → Prop} (hlater : st.Later notes st')
    (hnotes : ∀ note, notes note → notes' note) : st.Later notes' st' where
  joined := hlater.joined
  entries := fun a e hget => (hlater.entries a e hget).imp_right (hnotes _)
  enters := fun hout hin => hnotes _ (hlater.enters hout hin)
  waiting := hlater.waiting

theorem later_of_joined (hin : st.joined = true) (hin' : st'.joined = true)
    (hle : st.epoch ≤ st'.epoch) (hentries : ∀ a e, st'.peerEpoch.get a = some e →
      st.peerEpoch.get a = some e ∨ notes (.peer a e)) : st.Later notes st' where
  joined := fun _ => ⟨hin', hle⟩
  entries := hentries
  enters := fun hout => absurd hin (by simp [hout])
  waiting := fun hout => absurd hin' (by simp [hout])

theorem Kept.epoch_eq (hkept : st.Kept st') : st'.epoch = st.epoch :=
  congrArg Controller.epoch hkept.ctrl_eq

theorem Later.kept {st'' : VniState} (hlater : st.Later notes st') (hkept : st'.Kept st'') :
    st.Later notes st'' where
  joined := by
    rw [hkept.joined_eq, hkept.epoch_eq]
    exact hlater.joined
  entries := hkept.peerEpoch_eq ▸ hlater.entries
  enters := by
    rw [hkept.joined_eq, hkept.epoch_eq]
    exact hlater.enters
  waiting := by
    rw [hkept.joined_eq, hkept.peerEpoch_eq]
    exact hlater.waiting

theorem Kept.replicaMembers_eq (hkept : st.Kept st') : st'.replicaMembers = st.replicaMembers := by
  simp only [replicaMembers, leafIdentitySet, leafIdentities, hkept.ctrl_eq, hkept.joined_eq]

theorem Kept.pruneDepartedPeers (hkept : st.Kept st') :
    st.pruneDepartedPeers.Kept st'.pruneDepartedPeers := by
  simp only [VniState.pruneDepartedPeers, hkept.joined_eq, hkept.replicaMembers_eq,
    hkept.peerEpoch_eq]
  split
  · exact hkept
  · exact ⟨hkept.ctrl_eq, rfl, rfl⟩

theorem later_ctrl {ctrl : Controller} (hin : st.joined = true) (htop : st.epoch ≠ lastEpoch)
    (hepoch : ctrl.epoch = st.epoch ∨ ctrl.epoch = st.epoch + 1) :
    st.Later notes { st with ctrl } :=
  later_of_joined hin hin (le_of_advances htop hepoch) fun _ _ hget => .inl hget

@[simp] theorem pruneDepartedPeers_ctrl : st.pruneDepartedPeers.ctrl = st.ctrl := by
  rw [pruneDepartedPeers]
  split <;> rfl

@[simp] theorem pruneDepartedPeers_joined : st.pruneDepartedPeers.joined = st.joined := by
  rw [pruneDepartedPeers]
  split <;> rfl

/-! ### Entries -/

variable {own a : ActorID} {value e : UInt64} {identities : List Bytes}

/-- Seeding enters `a`: it belongs to the identities, it is not the client itself, and
there is no entry for it. -/
def Enters (st : VniState) (own : ActorID) (identities : List Bytes) (a : ActorID) : Prop :=
  a ≠ own ∧ a ∈ identities.filterMap actorIDFromIdentity ∧ st.peerEpoch.get a = none

theorem enters_congr (heq : st'.peerEpoch = st.peerEpoch) :
    st'.Enters own identities a ↔ st.Enters own identities a := by
  rw [Enters, heq]
  rfl

theorem seedPeers_get :
    (st.seedPeers own value identities).peerEpoch.get a = some e ↔
      st.peerEpoch.get a = some e ∨ st.Enters own identities a ∧ e = value := by
  induction identities generalizing st with
  | nil => simp [seedPeers, Enters]
  | cons identity rest ih =>
      have hstep : st.seedPeers own value (identity :: rest) = VniState.seedPeers
          { st with peerEpoch := seedPeer own value st.peerEpoch identity } own value rest := rfl
      rw [hstep, ih]
      simp only [Enters, seedPeer]
      cases hid : actorIDFromIdentity identity with
      | none => simp [hid]
      | some aid =>
          rw [List.filterMap_cons_some hid]
          by_cases haid : aid ≠ own ∧ (st.peerEpoch.get aid).isNone
          · simp only [if_pos haid, GoMap.get_set, List.mem_cons]
            obtain ⟨hown, hnone⟩ := haid
            by_cases heq : a = aid
            · subst heq
              simp [hown, Option.isNone_iff_eq_none.mp hnone, eq_comm]
            · simp [heq]
          · simp only [if_neg haid, List.mem_cons]
            by_cases heq : a = aid
            · subst heq
              simp only [Option.isNone_iff_eq_none] at haid
              tauto
            · simp [heq]

theorem pruneDepartedPeers_get (hin : st.joined = true) :
    st.pruneDepartedPeers.peerEpoch.get a = some e ↔
      st.peerEpoch.get a = some e ∧ a ∈ st.replicaMembers := by
  rw [pruneDepartedPeers, if_neg (by simp [hin])]
  dsimp only
  rw [GoMap.get_filter fun a => !_]
  refine and_congr_right fun hget => ?_
  have hkey : a ∈ st.peerEpoch.map Prod.fst :=
    List.mem_map_of_mem (f := Prod.fst) (GoMap.mem_of_get hget)
  simp [hkey]

theorem Kept.pruned {ctrl : Controller}
    (hkept : Kept (VniState.pruneDepartedPeers { st with ctrl }) st') (hin : st.joined = true)
    (hepoch : ctrl.epoch = value) : st'.joined = true ∧ st'.epoch = value ∧
      ∀ a e, st'.peerEpoch.get a = some e → st.peerEpoch.get a = some e := by
  refine ⟨hkept.joined_eq.trans (pruneDepartedPeers_joined.trans hin), ?_, fun a e hget => ?_⟩
  · exact hkept.epoch_eq.trans ((congrArg Controller.epoch pruneDepartedPeers_ctrl).trans hepoch)
  · rw [hkept.peerEpoch_eq, pruneDepartedPeers_get (by exact hin)] at hget
    exact hget.1

end VniState

section Commits

variable (S : Suite) (registry : UInt16 → Option Suite)

/-- The group after a commit. -/
def VniState.handled (st : VniState) (commitMsg : Bytes) : VniState :=
  { st with ctrl := (st.ctrl.handleCommit S registry commitMsg).2 }

/-- The members that a commit adds. -/
def VniState.newcomers (st : VniState) (commitMsg : Bytes) : List Bytes :=
  (st.handled S registry commitMsg).leafIdentities.filter fun identity =>
    !st.leafIdentitySet.contains identity

/-- The commits among the records that a client applies, each with the state it is
applied to; none if one of them removes the client. -/
def Client.applies (c : Client) (st : VniState) :
    List CommitRecord → Option (List (VniState × Bytes))
  | [] => some []
  | r :: rest =>
      if st.epoch ≠ r.base then c.applies st rest
      else
        match c.followCommit S registry st r.bytes with
        | .ok (.applied st') => (c.applies st' rest).map ((st, r.bytes) :: ·)
        | .ok (.ignored st') => c.applies st' rest
        | _ => none

/-- The members that a list of commits brings in and that no later one takes out, each
with the epoch of the commit that added it. -/
def Brings (own : ActorID) : List (VniState × Bytes) → ActorID → UInt64 → Prop
  | [], _, _ => False
  | (st, commitMsg) :: rest, a, e =>
      (st.Enters own (st.newcomers S registry commitMsg) a ∧ e = st.epoch + 1 ∧
        ∀ p ∈ rest, a ∈ (p.1.handled S registry p.2).replicaMembers) ∨
      Brings own rest a e

end Commits

/-! ## One client -/

namespace Client

variable {H : ContentHash} {S : Suite} {registry : UInt16 → Option Suite} {c c' : Client}
  {ch : UInt32} {st st' : VniState} {ops : List BusOp} {notes : UInt32 → Note → Prop}

theorem cacheCurrentSA_kept (hcache : c.cacheCurrentSA st = .ok st') : st.Kept st' := by
  unfold cacheCurrentSA at hcache
  split at hcache
  · cases hcache
    exact ⟨rfl, rfl, rfl⟩
  · split at hcache
    · cases hcache
      exact ⟨rfl, rfl, rfl⟩
    · simp only [bind_eq_ok, pure_ok_iff] at hcache
      obtain ⟨spis, -, rfl⟩ := hcache
      exact ⟨rfl, rfl, rfl⟩

/-- What a handler may do: the states it leaves are later ones of the states it
found, and a heartbeat it publishes carries an epoch it leaves. -/
structure Moves (c c' : Client) (ops : List BusOp)
    (notes : UInt32 → Note → Prop) : Prop where
  id_eq : c'.id = c.id
  states : ∀ ch st', c'.vnis.get ch = some st' →
    ∃ st, c.vnis.get ch = some st ∧ st.Later (notes ch) st'
  beats : ∀ env, .publish env ∈ ops → env.type = .heartbeat →
    env.src = c.id ∧ ∃ st, c'.vnis.get env.vni = some st ∧ st.joined = true ∧ st.epoch = env.base

def Silent (ops : List BusOp) : Prop := ∀ env, .publish env ∈ ops → env.type ≠ .heartbeat

theorem Silent.nil : Silent [] := fun _ hmem => absurd hmem List.not_mem_nil

theorem moves_self (hsilent : Silent ops) : c.Moves c ops notes where
  id_eq := rfl
  states := fun _ st hst => ⟨st, hst, .refl st⟩
  beats := fun env hmem hbeat => absurd hbeat (hsilent env hmem)

theorem get_put (ch' : UInt32) :
    (c.put ch st).vnis.get ch' = if ch' = ch then some st else c.vnis.get ch' :=
  GoMap.get_set _ _ _ _

theorem put_states (hst : c.vnis.get ch = some st) (hlater : st.Later (notes ch) st')
    (ch' : UInt32) (stch : VniState) (hget : (c.put ch st').vnis.get ch' = some stch) :
    ∃ old, c.vnis.get ch' = some old ∧ old.Later (notes ch') stch := by
  rw [get_put] at hget
  split at hget
  next heq =>
    cases hget
    subst heq
    exact ⟨st, hst, hlater⟩
  · exact ⟨stch, hget, .refl stch⟩

theorem moves_put (hst : c.vnis.get ch = some st) (hlater : st.Later (notes ch) st')
    (hsilent : Silent ops) : c.Moves (c.put ch st') ops notes where
  id_eq := rfl
  states := put_states hst hlater
  beats := fun env hmem hbeat => absurd hbeat (hsilent env hmem)

theorem moves_leaveVNI : c.Moves (c.leaveVNI ch).1 (c.leaveVNI ch).2 notes where
  id_eq := rfl
  states := fun _ st hst => ⟨st, ((GoMap.get_filter (· ≠ ch)).mp hst).1, .refl st⟩
  beats := by
    intro env hmem
    simp [leaveVNI] at hmem

/-! ### Messages that are not heartbeats -/

theorem silent_resendUnacked : Silent (c.resendUnacked H ch st) := by
  intro env hmem
  unfold resendUnacked at hmem
  split at hmem
  · cases hmem
  · rw [List.mem_append] at hmem
    rcases hmem with hhead | hwelcome
    · split at hhead
      · split at hhead
        · cases List.mem_singleton.mp hhead
          simp
        · cases hhead
      · cases hhead
    · obtain ⟨joiner, -, hsome⟩ := List.mem_filterMap.mp hwelcome
      obtain ⟨welcome, -, heq⟩ := Option.map_eq_some_iff.mp hsome
      cases heq
      simp

variable {env : Envelope} {out : Client × List BusOp} {dir : KpDirectory}

theorem heartbeat_beats (hmem : .publish env ∈ c.heartbeat H ch st)
    (hbeat : env.type = .heartbeat) :
    env.src = c.id ∧ env.vni = ch ∧ env.base = st.epoch ∧ st.joined = true := by
  unfold heartbeat at hmem
  split at hmem
  · cases hmem
  next hjoined =>
    rcases List.mem_cons.mp hmem with heq | hresend
    · cases heq
      exact ⟨rfl, rfl, rfl, by simpa using hjoined⟩
    · exact absurd hbeat (silent_resendUnacked env hresend)

theorem moves_emitHeartbeat : c.Moves c (c.emitHeartbeat H ch) notes where
  id_eq := rfl
  states := fun _ st hst => ⟨st, hst, .refl st⟩
  beats := by
    intro env hmem hbeat
    unfold emitHeartbeat at hmem
    split at hmem
    · cases hmem
    next st hst =>
      obtain ⟨hsrc, rfl, hbase, hjoined⟩ := heartbeat_beats hmem hbeat
      exact ⟨hsrc, st, hst, hjoined, hbase.symm⟩

/-! ### Committing -/

theorem joined_of_canCommit (hcan : canCommit st = true) : st.joined = true := by
  simp only [canCommit, Bool.and_eq_true] at hcan
  exact hcan.1.1.1

variable {rnd : CommitRandomness} {records : List CommitRecord}

theorem rekey_moves (htop : ∀ ch st, c.vnis.get ch = some st → st.epoch ≠ lastEpoch)
    (hrekey : c.rekey H S registry ch rnd = .ok out) :
    c.Moves out.1 out.2 fun _ _ => False := by
  unfold rekey at hrekey
  split at hrekey
  · cases hrekey
    exact moves_self .nil
  next st hst =>
    split at hrekey
    · cases hrekey
      exact moves_self .nil
    next hcan =>
      have hmoves : ∀ {st' ops}, VniState.Kept
          { st with ctrl := (st.ctrl.rekey S registry rnd).controller } st' →
          Silent ops → c.Moves (c.put ch st') ops fun _ _ => False :=
        fun hkept => moves_put hst ((VniState.later_ctrl (joined_of_canCommit (by simpa using hcan))
          (htop ch st hst) (Controller.rekey_epoch rnd)).kept hkept)
      dsimp only at hrekey
      split at hrekey
      · cases hrekey
        exact hmoves ⟨rfl, rfl, rfl⟩ .nil
      · cases hrekey
      · split at hrekey
        · cases hrekey
          exact hmoves ⟨rfl, rfl, rfl⟩ .nil
        · simp only [bind_eq_ok, pure_ok_iff] at hrekey
          obtain ⟨cached, hcache, rfl⟩ := hrekey
          obtain ⟨hctrl, hjoined, hpeers⟩ := cacheCurrentSA_kept hcache
          refine hmoves ⟨hctrl, hjoined, hpeers⟩ ?_
          intro env hmem
          cases List.mem_singleton.mp hmem
          simp

/-- A client that is joined has this entry, or is in this epoch. -/
def Shows (c : Client) (ch : UInt32) : Note → Prop
  | .peer a e => ∃ st, c.vnis.get ch = some st ∧ st.joined = true ∧ st.peerEpoch.get a = some e
  | .own e => ∃ st, c.vnis.get ch = some st ∧ st.joined = true ∧ st.epoch = e

/-- A handler that puts down these notes and no others. -/
def Acts (c c' : Client) (ops : List BusOp) (notes : UInt32 → Note → Prop) : Prop :=
  c.Moves c' ops notes ∧ ∀ ch note, notes ch note → c'.Shows ch note

theorem Moves.acts (hmoves : c.Moves c' ops notes) (hnone : ∀ ch note, ¬notes ch note) :
    c.Acts c' ops notes := ⟨hmoves, fun ch note hnote => absurd hnote (hnone ch note)⟩

variable (S registry) in
/-- What an own commit puts down: the members it adds are in the new epoch. -/
inductive ReconcileNotes (c : Client) (ch : UInt32) (desired : List Bytes)
    (rnd : CommitRandomness) : UInt32 → Note → Prop
  | adds {st : VniState} {out : ReconcileOutcome} {a : ActorID}
      (hst : c.vnis.get ch = some st) (hcan : canCommit st = true)
      (hout : st.ctrl.reconcile S registry desired rnd = out) (herr : out.err = none)
      (hcommitted : out.result.committed = true)
      (hwelcome : out.result.welcomeMsg.getD [] ≠ [])
      (henters : VniState.Enters (VniState.pruneDepartedPeers
        { st with ctrl := out.controller }) c.id out.result.added a) :
      ReconcileNotes c ch desired rnd ch (.peer a (st.epoch + 1))

theorem reconcile_spec {desired : List Bytes}
    (htop : ∀ ch st, c.vnis.get ch = some st → st.epoch ≠ lastEpoch)
    (hreconcile : c.reconcile H S registry ch desired rnd = .ok out) :
    c.Acts out.1 out.2 (c.ReconcileNotes S registry ch desired rnd) := by
  unfold reconcile at hreconcile
  split at hreconcile
  next hst =>
    cases hreconcile
    refine (moves_self .nil).acts ?_
    rintro _ _ ⟨hst', -⟩
    cases hst.symm.trans hst'
  next st hst =>
    split at hreconcile
    next hcan =>
      cases hreconcile
      refine (moves_self .nil).acts ?_
      rintro _ _ ⟨hst', hcan', -⟩
      cases hst.symm.trans hst'
      simp [hcan'] at hcan
    next hcan =>
      have hin : st.joined = true := joined_of_canCommit (by simpa using hcan)
      have hlater : ∀ {notes}, st.Later notes
          { st with ctrl := (st.ctrl.reconcile S registry desired rnd).controller } :=
        VniState.later_ctrl hin (htop ch st hst) (Controller.reconcile_epoch desired rnd)
      dsimp only at hreconcile
      split at hreconcile
      next herr =>
        cases hreconcile
        refine (moves_put hst hlater .nil).acts ?_
        rintro _ _ ⟨hst', -, rfl, herr', -⟩
        cases hst.symm.trans hst'
        cases herr.symm.trans herr'
      · cases hreconcile
      next herr =>
        split at hreconcile
        next hcommitted =>
          cases hreconcile
          refine (moves_put hst hlater .nil).acts ?_
          rintro _ _ ⟨hst', -, rfl, -, hcommitted', -⟩
          cases hst.symm.trans hst'
          simp [hcommitted'] at hcommitted
        next hcommitted =>
          simp only [bind_eq_ok, pure_eq_ok] at hreconcile
          obtain ⟨cached, hcache, hreconcile⟩ := hreconcile
          have hkept := (cacheCurrentSA_kept hcache).pruneDepartedPeers
          obtain ⟨hjoined, hepoch, hold⟩ := hkept.pruned hin
            (Controller.epoch_of_committed herr (by simpa using hcommitted))
          have hle : st.epoch ≤ cached.pruneDepartedPeers.epoch :=
            le_of_advances (htop ch st hst) (.inr hepoch)
          split at hreconcile
          next hempty =>
            cases hreconcile
            refine Moves.acts (moves_put hst (VniState.later_of_joined hin hjoined hle
              fun a e hget => .inl (hold a e hget)) ?_) ?_
            · intro env hmem
              cases List.mem_singleton.mp hmem
              simp
            · rintro _ _ ⟨hst', -, rfl, -, -, hwelcome, henters⟩
              cases hst.symm.trans hst'
              rcases Bool.or_eq_true_iff.mp hempty with hempty | hempty
              · exact hwelcome (List.isEmpty_iff.mp hempty)
              · simp [VniState.Enters, List.isEmpty_iff.mp hempty] at henters
          next hadds =>
            simp only [Bool.or_eq_true, not_or, List.isEmpty_iff] at hadds
            cases hreconcile
            constructor
            · refine moves_put hst (VniState.later_of_joined hin hjoined hle fun a e hget => ?_) ?_
              · rcases VniState.seedPeers_get.mp hget with hget | ⟨henters, rfl⟩
                · exact .inl (hold a e hget)
                · right
                  exact hepoch ▸ .adds hst (by simpa using hcan) rfl herr
                    (by simpa using hcommitted) hadds.1
                    ((VniState.enters_congr hkept.peerEpoch_eq).mp henters)
              · intro env hmem
                rcases List.mem_cons.mp hmem with heq | hwelcome
                · cases heq
                  simp
                · obtain ⟨joiner, -, heq⟩ := List.mem_map.mp hwelcome
                  cases heq
                  simp
            · rintro _ _ ⟨hst', -, rfl, -, -, -, henters⟩
              cases hst.symm.trans hst'
              exact ⟨_, (get_put ch).trans (if_pos rfl), hjoined, VniState.seedPeers_get.mpr
                (.inr ⟨(VniState.enters_congr hkept.peerEpoch_eq).mpr henters, hepoch.symm⟩)⟩

/-! ### Following commits -/

theorem followCommit_applied {commitMsg : Bytes} (hin : st.joined = true)
    (hfollow : c.followCommit S registry st commitMsg = .ok (.applied st')) :
    st'.joined = true ∧ st'.epoch = st.epoch + 1 ∧ ∀ a e, st'.peerEpoch.get a = some e ↔
      (st.peerEpoch.get a = some e ∧ a ∈ (st.handled S registry commitMsg).replicaMembers) ∨
      (st.Enters c.id (st.newcomers S registry commitMsg) a ∧ e = st.epoch + 1) := by
  unfold followCommit at hfollow
  dsimp only at hfollow
  split at hfollow
  next ctrl hhandle =>
    simp only [bind_eq_ok, pure_ok_iff] at hfollow
    obtain ⟨cached, hcache, heq⟩ := hfollow
    cases heq
    have hkept : (st.handled S registry commitMsg).Kept cached := by
      rw [VniState.handled, hhandle]
      exact cacheCurrentSA_kept hcache
    have hjoined : cached.joined = true := hkept.joined_eq.trans hin
    have hepoch : cached.epoch = st.epoch + 1 :=
      (cacheCurrentSA_kept hcache).epoch_eq.trans (Controller.epoch_of_handled hhandle)
    have hseed : cached.initPeerEpochForNewMembers c.id st.leafIdentitySet =
        cached.seedPeers c.id (st.epoch + 1) (st.newcomers S registry commitMsg) := by
      rw [VniState.initPeerEpochForNewMembers, if_neg (by simp [hjoined]), hepoch,
        VniState.newcomers, VniState.leafIdentities, hkept.ctrl_eq]
      rfl
    rw [hseed]
    refine ⟨VniState.pruneDepartedPeers_joined.trans hjoined,
      (congrArg Controller.epoch VniState.pruneDepartedPeers_ctrl).trans hepoch, fun a e => ?_⟩
    have hmembers : (cached.seedPeers c.id (st.epoch + 1)
        (st.newcomers S registry commitMsg)).replicaMembers =
        (st.handled S registry commitMsg).replicaMembers := hkept.replicaMembers_eq
    rw [VniState.pruneDepartedPeers_get (by exact hjoined), VniState.seedPeers_get, hmembers,
      show cached.peerEpoch = st.peerEpoch from hkept.peerEpoch_eq, VniState.enters_congr
      (show cached.peerEpoch = st.peerEpoch from hkept.peerEpoch_eq), or_and_right]
    refine or_congr_right (and_iff_left_of_imp fun henters => ?_)
    obtain ⟨identity, hmem, hid⟩ := List.mem_filterMap.mp henters.1.2.1
    refine List.mem_filterMap.mpr ⟨identity, ?_, hid⟩
    rw [VniState.leafIdentitySet, if_pos (by exact hin)]
    exact (List.mem_filter.mp hmem).1
  · split at hfollow <;> cases hfollow
  · cases hfollow

theorem followCommit_ignored {commitMsg : Bytes} (htop : st.epoch ≠ lastEpoch)
    (hfollow : c.followCommit S registry st commitMsg = .ok (.ignored st')) :
    st'.joined = st.joined ∧ st.epoch ≤ st'.epoch ∧ st'.peerEpoch = st.peerEpoch := by
  unfold followCommit at hfollow
  dsimp only at hfollow
  split at hfollow
  · simp only [bind_eq_ok, pure_ok_iff] at hfollow
    obtain ⟨cached, -, heq⟩ := hfollow
    cases heq
  next error ctrl hhandle =>
    split at hfollow
    · cases hfollow
    · cases hfollow
      have hepoch := @Controller.handleCommit_epoch S registry st.ctrl commitMsg
      rw [hhandle] at hepoch
      exact ⟨rfl, le_of_advances htop hepoch, rfl⟩
  · cases hfollow

theorem followRecords_applies (hin : st.joined = true) (hbases : ∀ r ∈ records, r.base ≠ lastEpoch)
    (hfollow : c.followRecords S registry st records = .ok (some st')) :
    st'.joined = true ∧ st.epoch ≤ st'.epoch ∧
      ∃ commits, c.applies S registry st records = some commits ∧
        ∀ a e, st'.peerEpoch.get a = some e ↔
          (st.peerEpoch.get a = some e ∧
            ∀ p ∈ commits, a ∈ (p.1.handled S registry p.2).replicaMembers) ∨
          Brings S registry c.id commits a e := by
  induction records generalizing st with
  | nil =>
      cases hfollow
      exact ⟨hin, UInt64.le_refl _, [], rfl, by simp [Brings]⟩
  | cons r rest ih =>
      have hrest := fun {mid} hmid => @ih mid hmid fun r hr => hbases r (List.mem_cons_of_mem _ hr)
      unfold followRecords at hfollow
      unfold applies
      split at hfollow
      next hskip =>
        rw [if_pos hskip]
        exact hrest hin hfollow
      next heq =>
        rw [if_neg heq]
        have htop : st.epoch ≠ lastEpoch := by
          rw [not_ne_iff.mp heq]
          exact hbases r List.mem_cons_self
        obtain ⟨followed, hcommit, hfollow⟩ := bind_eq_ok.mp hfollow
        rw [hcommit]
        cases followed with
        | applied mid =>
            obtain ⟨hmid, hepoch, hentries⟩ := followCommit_applied hin hcommit
            obtain ⟨hjoined, hle, commits, happlies, hget⟩ := hrest hmid hfollow
            refine ⟨hjoined, UInt64.le_trans (le_of_advances htop (.inr hepoch)) hle,
              _, congrArg (Option.map _) happlies, fun a e => ?_⟩
            rw [hget, hentries, Brings, List.forall_mem_cons]
            tauto
        | ignored mid =>
            obtain ⟨hmid, hle', hpeers⟩ := followCommit_ignored htop hcommit
            obtain ⟨hjoined, hle, hcommits⟩ := hrest (hmid.trans hin) hfollow
            rw [hpeers] at hcommits
            exact ⟨hjoined, UInt64.le_trans hle' hle, hcommits⟩
        | removed => cases hfollow

theorem applies_of_removed (hfollow : c.followRecords S registry st records = .ok none) :
    c.applies S registry st records = none := by
  induction records generalizing st with
  | nil => cases hfollow
  | cons r rest ih =>
      unfold followRecords at hfollow
      unfold applies
      split at hfollow
      next hskip =>
        rw [if_pos hskip]
        exact ih hfollow
      next heq =>
        rw [if_neg heq]
        obtain ⟨followed, hcommit, hfollow⟩ := bind_eq_ok.mp hfollow
        rw [hcommit]
        cases followed with
        | applied mid => exact congrArg (Option.map _) (ih hfollow)
        | ignored mid => exact ih hfollow
        | removed => rfl

theorem confirm_kept (env : Envelope) : st.Kept (c.confirm H st env) := by
  unfold confirm
  split <;> exact ⟨rfl, rfl, rfl⟩

variable (H) in
/-- The state in which a message finds a client, and the commits it carries. -/
def takesUp (c : Client) (st : VniState) (env : Envelope) : VniState × List CommitRecord :=
  match env.type with
  | .commit => (c.confirm H st env,
      if st.epoch = env.base then [⟨env.base, env.payload, env.hash⟩] else [])
  | .logReply => (st, env.records.insertionSort fun r s => r.base ≤ s.base)
  | _ => (st, [])

def afterRecords (c : Client) (ch : UInt32) (left : Option VniState) : Client × List BusOp :=
  left.elim (c.leaveVNI ch) fun st => (c.put ch st, [])

theorem map_eq_ok {α β : Type} {f : α → β} {result : Result α} {out : β} :
    f <$> result = .ok out ↔ ∃ value, result = .ok value ∧ f value = out := by
  cases result with
  | error fault => simp [Functor.map, Except.map]
  | ok value => simp [Functor.map, Except.map]

theorem idle_of_waiting (hidle : ∀ st, c.vnis.get env.vni = some st → st.joined = false) :
    c.onCommit H S registry env = .ok (c, []) ∧ c.onLogReply S registry env = .ok (c, []) := by
  unfold onCommit onLogReply
  cases hst : c.vnis.get env.vni with
  | none => exact ⟨rfl, rfl⟩
  | some st => simp [hidle st hst]

theorem onCommit_eq (hst : c.vnis.get env.vni = some st)
    (hin : st.joined = true) (htype : env.type = .commit) :
    c.onCommit H S registry env = c.afterRecords env.vni <$>
      c.followRecords S registry (c.takesUp H st env).1 (c.takesUp H st env).2 := by
  have hepoch : (c.confirm H st env).epoch = st.epoch := (confirm_kept env).epoch_eq
  simp only [onCommit, hst, hin, takesUp, htype, hepoch, Bool.not_true, Bool.false_eq_true,
    if_false]
  by_cases hbase : st.epoch = env.base
  · simp only [hbase, followRecords, hepoch, ne_eq, not_true_eq_false, if_true, if_false]
    cases c.followCommit S registry (c.confirm H st env) env.payload with
    | error fault => rfl
    | ok followed => cases followed <;> rfl
  · simp only [hbase, ne_eq, not_false_eq_true, if_true, if_false]
    rfl

theorem onLogReply_eq (hst : c.vnis.get env.vni = some st)
    (hin : st.joined = true) (htype : env.type = .logReply) :
    c.onLogReply S registry env = c.afterRecords env.vni <$>
      c.followRecords S registry (c.takesUp H st env).1 (c.takesUp H st env).2 := by
  simp only [onLogReply, hst, hin, takesUp, htype, Bool.not_true, Bool.false_eq_true, if_false]
  cases c.followRecords S registry st (env.records.insertionSort fun r s => r.base ≤ s.base) with
  | error fault => rfl
  | ok left => cases left <;> rfl

variable (S registry) in
/-- A message lets a client that waits join with this controller. -/
structure Joins (dir : KpDirectory) (c : Client) (env : Envelope) (st : VniState)
    (ctrl : Controller) : Prop where
  state : c.vnis.get env.vni = some st
  waits : st.joined = false
  addressed : env.type = .welcome ∧ env.joiner = c.identity
  accepted : let kp := (dir.get (c.identity, env.vni)).getD ⟨[], [], []⟩
    st.ctrl.joinViaWelcome S registry (some c.signer) env.payload kp.kpMsg kp.initPriv
      kp.leafPriv = (.ok (), ctrl)

variable (H S registry) in
/-- What a message makes its receiver put down, heartbeats apart: the members that its
commits bring in are in the epoch of the commit; and a client that joins is in the epoch
of the Welcome, with everyone else one epoch behind. -/
inductive MessageNotes (dir : KpDirectory) (c : Client) (env : Envelope) : UInt32 → Note → Prop
  | follows {st : VniState} {commits : List (VniState × Bytes)} {a : ActorID} {e : UInt64}
      (hst : c.vnis.get env.vni = some st) (hin : st.joined = true)
      (happlies : c.applies S registry (c.takesUp H st env).1 (c.takesUp H st env).2 =
        some commits)
      (hbrings : Brings S registry c.id commits a e) : MessageNotes dir c env env.vni (.peer a e)
  | joins {st : VniState} {ctrl : Controller} (hjoins : c.Joins S registry dir env st ctrl) :
      MessageNotes dir c env env.vni (.own ctrl.epoch)
  | behind {st : VniState} {ctrl : Controller} {a : ActorID}
      (hjoins : c.Joins S registry dir env st ctrl)
      (henters : st.Enters c.id (VniState.leafIdentities { st with ctrl }) a) :
      MessageNotes dir c env env.vni
        (.peer a (if 0 < ctrl.epoch then ctrl.epoch - 1 else ctrl.epoch))

/-- A message without commits that lets nobody join leaves nothing to put down. -/
theorem no_notes (hcommit : env.type ≠ .commit) (hreply : env.type ≠ .logReply)
    (hjoins : ∀ st ctrl, ¬c.Joins S registry dir env st ctrl) (ch : UInt32) (note : Note) :
    ¬c.MessageNotes H S registry dir env ch note := by
  rintro (⟨-, -, happlies, hbrings⟩ | hjoin | ⟨hjoin, -⟩)
  · unfold takesUp at happlies
    split at happlies
    next htype => exact hcommit htype
    next htype => exact hreply htype
    · cases happlies
      exact hbrings
  · exact hjoins _ _ hjoin
  · exact hjoins _ _ hjoin

theorem follow_spec {result : Result (Client × List BusOp)}
    (htop : ∀ ch st, c.vnis.get ch = some st → st.epoch ≠ lastEpoch)
    (hbases : ∀ r ∈ env.records, r.base ≠ lastEpoch)
    (hidle : (∀ st, c.vnis.get env.vni = some st → st.joined = false) → result = .ok (c, []))
    (hfollows : ∀ st, c.vnis.get env.vni = some st → st.joined = true →
    result = c.afterRecords env.vni <$> c.followRecords S registry (c.takesUp H st env).1
    (c.takesUp H st env).2) (htype : env.type ≠ .welcome) (hresult : result = .ok out) :
    c.Acts out.1 out.2 (c.MessageNotes H S registry dir env) := by
  by_cases hmember : ∃ st, c.vnis.get env.vni = some st ∧ st.joined = true
  · obtain ⟨st, hst, hin⟩ := hmember
    rw [hfollows st hst hin] at hresult
    obtain ⟨left, hfollow, rfl⟩ := map_eq_ok.mp hresult
    have hkept : st.Kept (c.takesUp H st env).1 := by
      unfold takesUp
      split
      · exact confirm_kept env
      · exact ⟨rfl, rfl, rfl⟩
      · exact ⟨rfl, rfl, rfl⟩
    cases left with
    | none =>
        refine moves_leaveVNI.acts ?_
        rintro _ _ (⟨hst', -, happlies, -⟩ | hjoins | ⟨hjoins, -⟩)
        · cases hst.symm.trans hst'
          rw [applies_of_removed hfollow] at happlies
          cases happlies
        · exact htype hjoins.addressed.1
        · exact htype hjoins.addressed.1
    | some st' =>
        have hrecords : ∀ r ∈ (c.takesUp H st env).2, r.base ≠ lastEpoch := by
          unfold takesUp
          split
          · dsimp only
            split
            next hbase => simpa [← hbase] using htop _ st hst
            · simp
          · intro r hr
            exact hbases r ((List.mem_insertionSort _).mp hr)
          · simp
        obtain ⟨hjoined, hle, commits, happlies, hget⟩ :=
          followRecords_applies (hkept.joined_eq.trans hin) hrecords hfollow
        rw [hkept.epoch_eq] at hle
        rw [hkept.peerEpoch_eq] at hget
        constructor
        · refine moves_put hst (VniState.later_of_joined hin hjoined hle fun a e hentry => ?_) .nil
          rcases (hget a e).mp hentry with ⟨hold, -⟩ | hbrings
          · exact .inl hold
          · exact .inr (.follows hst hin happlies hbrings)
        · rintro _ _ (⟨hst'', -, happlies', hbrings⟩ | hjoins | ⟨hjoins, -⟩)
          · cases hst.symm.trans hst''
            cases happlies.symm.trans happlies'
            exact ⟨st', (get_put _).trans (if_pos rfl), hjoined, (hget _ _).mpr (.inr hbrings)⟩
          · exact absurd hjoins.addressed.1 htype
          · exact absurd hjoins.addressed.1 htype
  · rw [hidle fun st hst => by
      by_contra hin
      exact hmember ⟨st, hst, by simpa using hin⟩] at hresult
    cases hresult
    refine (moves_self .nil).acts ?_
    rintro _ _ (⟨hst, hin, -⟩ | hjoins | ⟨hjoins, -⟩)
    · exact hmember ⟨_, hst, hin⟩
    · exact htype hjoins.addressed.1
    · exact htype hjoins.addressed.1

/-! ### Joining and hearing -/

theorem onWelcome_spec (haddressed : env.type = .welcome ∧ env.joiner = c.identity)
    (hwelcome : c.onWelcome H S registry dir env = .ok out) :
    c.Acts out.1 out.2 (c.MessageNotes H S registry dir env) := by
  have hnone : (∀ st ctrl, ¬c.Joins S registry dir env st ctrl) →
      ∀ ch note, ¬c.MessageNotes H S registry dir env ch note :=
    no_notes (by simp [haddressed.1]) (by simp [haddressed.1])
  unfold onWelcome at hwelcome
  split at hwelcome
  next hst =>
    cases hwelcome
    exact (moves_self .nil).acts (hnone fun st ctrl hjoins => by simpa [hst] using hjoins.state)
  next st hst =>
    split at hwelcome
    next hin =>
      cases hwelcome
      refine (moves_self .nil).acts (hnone fun st' ctrl hjoins => ?_)
      cases hst.symm.trans hjoins.state
      simpa [hin] using hjoins.waits
    next hout =>
      have hout : st.joined = false := by simpa using hout
      dsimp only at hwelcome
      split at hwelcome
      next herror =>
        cases hwelcome
        refine Moves.acts (moves_put hst ⟨fun hin => by simp [hout] at hin,
          fun _ _ hget => .inl hget, fun _ hin => by simp [hout] at hin, fun _ => rfl⟩ .nil)
          (hnone fun st' ctrl hjoins => ?_)
        cases hst.symm.trans hjoins.state
        cases herror.symm.trans hjoins.accepted
      · cases hwelcome
      next ctrl hjoin =>
        simp only [bind_eq_ok, pure_ok_iff] at hwelcome
        obtain ⟨cached, hcache, rfl⟩ := hwelcome
        have hkept := cacheCurrentSA_kept hcache
        have hjoined : cached.joined = true := hkept.joined_eq
        have hepoch : cached.epoch = ctrl.epoch := hkept.epoch_eq
        have hjoins : c.Joins S registry dir env st ctrl := ⟨hst, hout, haddressed, hjoin⟩
        have hsame : ∀ {st' ctrl'}, c.Joins S registry dir env st' ctrl' →
            st' = st ∧ ctrl' = ctrl := by
          intro st' ctrl' hjoins'
          cases hst.symm.trans hjoins'.state
          cases hjoin.symm.trans hjoins'.accepted
          exact ⟨rfl, rfl⟩
        have henters : ∀ a, cached.Enters c.id cached.leafIdentities a ↔
            st.Enters c.id (VniState.leafIdentities { st with ctrl }) a := by
          intro a
          rw [VniState.enters_congr hkept.peerEpoch_eq, VniState.leafIdentities, hkept.ctrl_eq]
          rfl
        refine ⟨⟨rfl, put_states hst ⟨fun hin => by simp [hout] at hin, fun a e hget => ?_,
          fun _ _ => ?_, fun hout => absurd (hout.symm.trans hjoined) (by simp)⟩, ?_⟩, ?_⟩
        · rcases VniState.seedPeers_get.mp hget with hget | ⟨hentered, rfl⟩
          · exact .inl (hkept.peerEpoch_eq ▸ hget)
          · rw [hepoch]
            exact .inr (.behind hjoins ((henters a).mp hentered))
        · exact hepoch ▸ MessageNotes.joins hjoins
        · intro env' hmem hbeat
          obtain ⟨hsrc, hvni, hbase, -⟩ := heartbeat_beats hmem hbeat
          exact ⟨hsrc, _, (get_put _).trans (if_pos hvni), hjoined, hbase.symm⟩
        · rintro _ _ (⟨hst', hin, -⟩ | hjoins' | ⟨hjoins', hentered⟩)
          · cases hst.symm.trans hst'
            simp [hout] at hin
          · obtain ⟨rfl, rfl⟩ := hsame hjoins'
            exact ⟨_, (get_put _).trans (if_pos rfl), hjoined, hepoch⟩
          · obtain ⟨rfl, rfl⟩ := hsame hjoins'
            refine ⟨_, (get_put _).trans (if_pos rfl), hjoined, VniState.seedPeers_get.mpr
              (.inr ⟨(henters _).mpr hentered, ?_⟩)⟩
            rw [hepoch]

theorem notePeer_later (hyes : st.joined = true) (src : ActorID) (base : UInt64) :
    st.Later (· = .peer src base) (notePeer st src base) := by
  have hkept : (notePeer st src base).joined = st.joined ∧
      (notePeer st src base).epoch = st.epoch ∧
      ((notePeer st src base).peerEpoch = st.peerEpoch ∨
        (notePeer st src base).peerEpoch = st.peerEpoch.set src base) := by
    unfold notePeer
    dsimp only
    split <;> split <;> simp [VniState.epoch]
  obtain ⟨hjoined, hepoch, hpeers⟩ := hkept
  refine VniState.later_of_joined hyes (hjoined.trans hyes) (hepoch ▸ UInt64.le_refl _) ?_
  intro a e hget
  rcases hpeers with hpeers | hpeers
  · rw [hpeers] at hget
    exact .inl hget
  · rw [hpeers, GoMap.get_set] at hget
    split at hget
    next heq =>
      cases hget
      exact .inr (heq ▸ rfl)
    · exact .inl hget

theorem onHeartbeat_moves (env : Envelope) :
    c.Moves (c.onHeartbeat env).1 (c.onHeartbeat env).2
      fun ch note => ch = env.vni ∧ note = .peer env.src env.base := by
  unfold onHeartbeat
  split
  · exact moves_self .nil
  next st hst =>
    split
    · exact moves_self .nil
    next hin =>
      refine moves_put hst
        ((notePeer_later (by simpa using hin) env.src env.base).mono fun _ h => ⟨rfl, h⟩) ?_
      intro env' hmem
      dsimp only at hmem
      split at hmem
      · cases List.mem_singleton.mp hmem
        simp
      · cases hmem

/-! ### The data plane -/

theorem onData_moves (env : Envelope) : c.Moves (c.onData env).1 [] notes := by
  unfold onData
  split
  · exact moves_self .nil
  next st hst =>
    split
    · exact moves_self .nil
    · dsimp only
      split
      · exact moves_self .nil
      · exact moves_put hst ((VniState.Later.refl st).kept ⟨rfl, rfl, rfl⟩) .nil

theorem Moves.put (hmoves : c.Moves c' ops notes) (hsilent : Silent ops)
    (hst : c'.vnis.get ch = some st) (hkept : st.Kept st') {ops' : List BusOp}
    (hsilent' : Silent ops') : c.Moves (c'.put ch st') (ops ++ ops') notes where
  id_eq := hmoves.id_eq
  states := by
    intro ch' stch hget
    rw [get_put] at hget
    split at hget
    next heq =>
      cases hget
      obtain ⟨old, hold, hlater⟩ := hmoves.states ch' st (heq ▸ hst)
      exact ⟨old, hold, hlater.kept hkept⟩
    · exact hmoves.states ch' stch hget
  beats := by
    intro env hmem hbeat
    rcases List.mem_append.mp hmem with hmem | hmem
    · exact absurd hbeat (hsilent env hmem)
    · exact absurd hbeat (hsilent' env hmem)

theorem sendToReceiver_moves {cands : List DataCand} {acc : Client × List BusOp}
    (hmoves : c.Moves acc.1 acc.2 notes) (hsilent : Silent acc.2) (rcv : ActorID) :
    c.Moves (sendToReceiver cands acc rcv).1 (sendToReceiver cands acc rcv).2 notes ∧
      Silent (sendToReceiver cands acc rcv).2 := by
  obtain ⟨c', ops⟩ := acc
  unfold sendToReceiver
  dsimp only
  split
  · exact ⟨hmoves, hsilent⟩
  · split
    · exact ⟨hmoves, hsilent⟩
    next cd _ _ st hst =>
      set packet : BusOp := .publish
        { vni := cd.ch, type := .data, src := c'.id, dst := rcv, base := cd.se,
          spi := cd.spi, dataSeq := (st.sendSeq.get cd.se).getD 0 } with hpacket
      have hdata : Silent [packet] := by
        intro env hmem
        cases hpacket ▸ List.mem_singleton.mp hmem
        simp
      have hkept : st.Kept { st with
          sendSeq := st.sendSeq.set cd.se ((st.sendSeq.get cd.se).getD 0 + 1) } := ⟨rfl, rfl, rfl⟩
      refine ⟨hmoves.put hsilent hst hkept hdata, ?_⟩
      intro env hmem
      rcases List.mem_append.mp hmem with hmem | hmem
      · exact hsilent env hmem
      · exact hdata env hmem

theorem sendData_moves (tenant : UInt32) :
    c.Moves (c.sendData tenant).1 (c.sendData tenant).2 notes := by
  unfold sendData
  dsimp only
  refine (List.foldlRecOn (motive := fun acc : Client × List BusOp =>
    c.Moves acc.1 acc.2 notes ∧ Silent acc.2) _ _ ⟨moves_self .nil, .nil⟩ ?_).1
  intro acc hacc rcv _
  exact sendToReceiver_moves hacc.1 hacc.2 rcv

/-! ### Every message -/

theorem Moves.mono {notes' : UInt32 → Note → Prop} (hmoves : c.Moves c' ops notes)
    (hnotes : ∀ ch note, notes ch note → notes' ch note) : c.Moves c' ops notes' where
  id_eq := hmoves.id_eq
  states := by
    intro ch st' hst'
    obtain ⟨st, hst, hlater⟩ := hmoves.states ch st' hst'
    exact ⟨st, hst, hlater.mono (hnotes ch)⟩
  beats := hmoves.beats

/-- What a heartbeat lets its receiver put down. -/
def Heard (env : Envelope) (ch : UInt32) (note : Note) : Prop :=
  env.type = .heartbeat ∧ ch = env.vni ∧ note = .peer env.src env.base

theorem onDeliver_spec {d : Delivery}
    (htop : ∀ ch st, c.vnis.get ch = some st → st.epoch ≠ lastEpoch)
    (hbases : ∀ r ∈ env.records, r.base ≠ lastEpoch)
    (hdeliver : c.onDeliver H S registry dir env = .ok d) :
    (c.Moves d.client d.ops fun ch note =>
      Heard env ch note ∨ c.MessageNotes H S registry dir env ch note) ∧
    ∀ ch note, c.MessageNotes H S registry dir env ch note → d.client.Shows ch note := by
  have hacts : ∀ {c' ops}, c.Acts c' ops (c.MessageNotes H S registry dir env) →
      (c.Moves c' ops fun ch note =>
        Heard env ch note ∨ c.MessageNotes H S registry dir env ch note) ∧
      ∀ ch note, c.MessageNotes H S registry dir env ch note → c'.Shows ch note :=
    fun hacts => ⟨hacts.1.mono fun _ _ hnote => .inr hnote, hacts.2⟩
  -- The other messages carry no commits and let nobody join.
  have hnone : env.type ≠ .commit → env.type ≠ .logReply →
      ¬(env.type = .welcome ∧ env.joiner = c.identity) →
      ∀ ch note, ¬c.MessageNotes H S registry dir env ch note := fun hcommit hreply hwelcome =>
    no_notes hcommit hreply fun _ _ hjoins => hwelcome hjoins.addressed
  unfold onDeliver at hdeliver
  split at hdeliver
  next htype =>
    simp only [bind_eq_ok, pure_ok_iff] at hdeliver
    obtain ⟨out, hcommit, rfl⟩ := hdeliver
    exact hacts (follow_spec htop hbases (fun hidle => (idle_of_waiting hidle).1)
      (fun st hst hin => onCommit_eq hst hin htype) (by simp [htype]) hcommit)
  next htype =>
    split at hdeliver
    next haddressed =>
      simp only [bind_eq_ok, pure_ok_iff] at hdeliver
      obtain ⟨out, hwelcome, rfl⟩ := hdeliver
      exact hacts (onWelcome_spec ⟨htype, haddressed⟩ hwelcome)
    next hother =>
      cases hdeliver
      exact hacts ((moves_self .nil).acts
        (hnone (by simp [htype]) (by simp [htype]) fun h => hother h.2))
  next htype =>
    cases hdeliver
    refine ⟨(onHeartbeat_moves env).mono fun _ _ hnote => .inl ⟨htype, hnote⟩,
      fun ch note hnote => ?_⟩
    exact absurd hnote (hnone (by simp [htype]) (by simp [htype]) (by simp [htype]) ch note)
  next htype =>
    simp only [bind_eq_ok, pure_ok_iff] at hdeliver
    obtain ⟨out, hreply, rfl⟩ := hdeliver
    exact hacts (follow_spec htop hbases (fun hidle => (@idle_of_waiting H _ _ _ _ hidle).2)
      (fun st hst hin => onLogReply_eq hst hin htype) (by simp [htype]) hreply)
  next htype =>
    cases hdeliver
    exact hacts ((onData_moves env).acts
      (hnone (by simp [htype]) (by simp [htype]) (by simp [htype])))
  next htype =>
    cases hdeliver
    exact hacts ((moves_self .nil).acts
      (hnone (by simp [htype]) (by simp [htype]) (by simp [htype])))

end Client

end MlsGo.Sim
