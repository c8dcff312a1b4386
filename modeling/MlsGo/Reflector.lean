import MlsGo.FencingSafety
import MlsGo.VniController

/-!
# The reflector and its log

`sim/ds.go`: a reflector asks its own register for every commit, keeps the
accepted ones in a log for each channel, sends them on to all subscribers and
answers requests from the log.  The register, the log and what was sent on are
three records of one history; they agree as far as the content hash tells
commits apart.
-/

namespace MlsGo

/-! ## The register of a reflector -/

namespace Sequencer

open FencingTokens

structure MemorySequencer where
  decided : GoMap Bytes Bytes

def newMemorySequencer : MemorySequencer := { decided := [] }

def MemorySequencer.acceptCommit (s : MemorySequencer) (call : Call) :
    Bool × MemorySequencer :=
  let key := seqKey call.group call.epoch
  match s.decided.get key with
  | some ex => (decide (ex = call.commit), s)
  | none => (true, { decided := s.decided.set key call.commit })

def MemorySequencer.decision (s : MemorySequencer) (g : Bytes) (epoch : UInt64) :
    Option Bytes := s.decided.get (seqKey g epoch)

def MemorySequencer.slots (s : MemorySequencer) : Bytes × UInt64 → Option Bytes :=
  fun slot => s.decision slot.1 slot.2

theorem MemorySequencer.acceptCommit_spec (s : MemorySequencer) (call : Call) :
    (s.acceptCommit call).1 = (propose s.slots call.slot call.commit).1 ∧
      (s.acceptCommit call).2.slots = (propose s.slots call.slot call.commit).2 := by
  cases hslot : s.slots call.slot with
  | some ex =>
      have hget : s.decided.get (seqKey call.group call.epoch) = some ex := hslot
      simp [acceptCommit, propose, hslot, hget]
  | none =>
      have hget : s.decided.get (seqKey call.group call.epoch) = none := hslot
      refine ⟨by simp [acceptCommit, propose, hslot, hget], ?_⟩
      funext slot
      simp only [acceptCommit, propose, hget, slots, decision, GoMap.get_set,
        seqKey_inj, Function.update_apply, Call.slot, Prod.ext_iff]

end Sequencer

namespace Sim

open Sequencer FencingTokens

/-! ## Messages -/

abbrev ActorID := ℤ

def broadcast : ActorID := -1

inductive MsgType where
  | commit
  | welcome
  | heartbeat
  | logRequest
  | logReply
  | data
  deriving DecidableEq, Repr

structure CommitRecord where
  base : UInt64
  bytes : Bytes
  hash : Bytes
  deriving DecidableEq, Repr

structure Envelope where
  vni : UInt32
  type : MsgType
  src : ActorID
  dst : ActorID
  base : UInt64 := 0
  payload : Bytes := []
  spi : UInt32 := 0
  dataSeq : UInt64 := 0
  records : List CommitRecord := []
  joiner : Bytes := []
  hash : Bytes := []
  deriving DecidableEq, Repr

/-- `contentHash`: SHA-256, of which only the length is used. -/
structure ContentHash where
  sum : Bytes → Bytes
  length_eq : ∀ b, (sum b).length = 32

/-! ## The reflector -/

structure DSMetrics where
  reflected : ℕ
  commitRejected : ℕ
  logRetransmits : ℕ
  plaintextHandshakeExposures : ℕ
  deriving DecidableEq, Repr

structure DS where
  id : ActorID
  seq : MemorySequencer
  logs : GoMap UInt32 (List CommitRecord)
  encryptHandshakes : Bool

def newDS (id : ActorID) (encryptHandshakes : Bool) : DS where
  id := id
  seq := newMemorySequencer
  logs := []
  encryptHandshakes := encryptHandshakes

namespace DS

def log (d : DS) (ch : UInt32) : List CommitRecord := (d.logs.get ch).getD []

def decision (d : DS) (ch : UInt32) (base : UInt64) : Option Bytes :=
  d.seq.decision (vniGroupID ch) base

def exposesHandshake (payload : Bytes) : Bool :=
  match unmarshalMLSMessage payload with
  | .error _ => false
  | .ok msg =>
      match msg.body with
      | .publicMessage pm => decide (pm.content.sender ≠ .newMemberCommit)
      | .privateMessage _ => false

def observeHandshakePrivacy (d : DS) (env : Envelope) (m : DSMetrics) : DSMetrics :=
  if !d.encryptHandshakes then m
  else if env.type ≠ .commit then m
  else if exposesHandshake env.payload then
    { m with plaintextHandshakeExposures := m.plaintextHandshakeExposures + 1 }
  else m

def appendLog (d : DS) (env : Envelope) : DS :=
  if (d.log env.vni).any fun r => r.hash = env.hash then d
  else
    let r : CommitRecord := ⟨env.base, env.payload, env.hash⟩
    { d with logs := d.logs.set env.vni (d.log env.vni ++ [r]) }

structure Reaction where
  ds : DS
  metrics : DSMetrics
  published : List Envelope

def reflect (d : DS) (env : Envelope) (m : DSMetrics) : Reaction where
  ds := d
  metrics := { m with reflected := m.reflected + 1 }
  published := [{ env with src := d.id, dst := broadcast }]

def onCommit (d : DS) (env : Envelope) (m : DSMetrics) : Reaction :=
  let m := d.observeHandshakePrivacy env m
  match d.seq.acceptCommit ⟨vniGroupID env.vni, env.base, env.hash⟩ with
  | (false, seq) => ⟨{ d with seq }, { m with commitRejected := m.commitRejected + 1 }, []⟩
  | (true, seq) => ({ d with seq }.appendLog env).reflect env m

def recordsFrom (log : List CommitRecord) (base : UInt64) : List CommitRecord :=
  (log.filter fun r => base ≤ r.base).insertionSort fun r s => r.base ≤ s.base

def serveCatchup (d : DS) (env : Envelope) (m : DSMetrics) : Reaction where
  ds := d
  metrics := { m with logRetransmits := m.logRetransmits + 1 }
  published := [{ vni := env.vni, type := .logReply, src := d.id, dst := env.src,
                  records := recordsFrom (d.log env.vni) env.base }]

def handle (d : DS) (down : Bool) (env : Envelope) (m : DSMetrics) : Reaction :=
  if down then ⟨d, m, []⟩
  else
    match env.type with
    | .commit => d.onCommit env m
    | .welcome => d.reflect env m
    | .logRequest => d.serveCatchup env m
    | _ => ⟨d, m, []⟩

/-- Envelopes handled one after the other, each with the state of the fault. -/
def handleAll (d : DS) (m : DSMetrics) : List (Bool × Envelope) → Reaction
  | [] => ⟨d, m, []⟩
  | (down, env) :: rest =>
      let r := d.handle down env m
      let later := r.ds.handleAll r.metrics rest
      { later with published := r.published ++ later.published }

/-! ## One step -/

variable {d : DS} {env : Envelope}

theorem vniGroupID_injective : Function.Injective vniGroupID := by
  intro ch ch' heq
  have hbytes := List.append_cancel_left heq
  have hnat := congrArg beNat hbytes
  rw [beNat_beBytes, beNat_beBytes, show 256 ^ 4 = 2 ^ 32 by norm_num,
    Nat.mod_eq_of_lt ch.toNat_lt, Nat.mod_eq_of_lt ch'.toNat_lt] at hnat
  exact UInt32.toNat_inj.mp hnat

def slots (d : DS) : UInt32 × UInt64 → Option Bytes := fun slot => d.decision slot.1 slot.2

theorem acceptCommit_slots (d : DS) (env : Envelope) :
    let call : Call := ⟨vniGroupID env.vni, env.base, env.hash⟩
    (d.seq.acceptCommit call).1 = (propose d.slots (env.vni, env.base) env.hash).1 ∧
      slots { d with seq := (d.seq.acceptCommit call).2 } =
        (propose d.slots (env.vni, env.base) env.hash).2 := by
  have hname : Function.Injective fun slot : UInt32 × UInt64 => (vniGroupID slot.1, slot.2) := by
    intro slot slot' heq
    obtain ⟨hch, hbase⟩ := Prod.mk.inj heq
    exact Prod.ext (vniGroupID_injective hch) hbase
  obtain ⟨hok, hslots⟩ := propose_comp hname d.seq.slots (env.vni, env.base) env.hash
  obtain ⟨hok', hslots'⟩ := d.seq.acceptCommit_spec ⟨vniGroupID env.vni, env.base, env.hash⟩
  exact ⟨hok'.trans hok.symm, (congrArg (· ∘ _) hslots').trans hslots.symm⟩

theorem appendLog_slots (d : DS) (env : Envelope) : (d.appendLog env).slots = d.slots := by
  unfold appendLog
  split <;> rfl

theorem log_set (d : DS) (ch ch' : UInt32) (records : List CommitRecord) :
    log { d with logs := d.logs.set ch' records } ch = if ch = ch' then records else d.log ch := by
  rw [log, GoMap.get_set]
  split <;> rfl

theorem appendLog_log (d : DS) (env : Envelope) (ch : UInt32) :
    (d.appendLog env).log ch = d.log ch ∧ (ch = env.vni → ∃ r ∈ d.log ch, r.hash = env.hash) ∨
      ch = env.vni ∧ (∀ r ∈ d.log ch, r.hash ≠ env.hash) ∧
        (d.appendLog env).log ch = d.log ch ++ [⟨env.base, env.payload, env.hash⟩] := by
  unfold appendLog
  by_cases hthere : (d.log env.vni).any fun r => decide (r.hash = env.hash)
  · rw [if_pos hthere]
    refine .inl ⟨rfl, ?_⟩
    rintro rfl
    simpa using hthere
  · rw [if_neg hthere, log_set]
    by_cases hch : ch = env.vni
    · subst hch
      exact .inr ⟨rfl, by simpa using hthere, if_pos rfl⟩
    · exact .inl ⟨if_neg hch, fun heq => absurd heq hch⟩

theorem appendLog_id (d : DS) (env : Envelope) : (d.appendLog env).id = d.id := by
  unfold appendLog
  split <;> rfl

theorem onCommit_cases (d : DS) (env : Envelope) (m : DSMetrics) :
    ((propose d.slots (env.vni, env.base) env.hash).1 = false ∧ (d.onCommit env m).ds.logs =
      d.logs ∧ (d.onCommit env m).ds.slots = d.slots ∧ (d.onCommit env m).published = []) ∨
    (propose d.slots (env.vni, env.base) env.hash).1 = true ∧
      ∃ d' : DS, d'.logs = d.logs ∧ d'.slots = (propose d.slots (env.vni, env.base) env.hash).2 ∧
        (d.onCommit env m).ds = d'.appendLog env ∧
        (d.onCommit env m).published = [{ env with src := d.id, dst := broadcast }] := by
  obtain ⟨hok, hslots⟩ := d.acceptCommit_slots env
  unfold onCommit
  rcases haccept : d.seq.acceptCommit ⟨vniGroupID env.vni, env.base, env.hash⟩ with
    ⟨_ | _, seq⟩
  · rw [haccept] at hok hslots
    exact .inl ⟨hok.symm, rfl, hslots.trans (propose_of_refused hok.symm), rfl⟩
  · rw [haccept] at hok hslots
    refine .inr ⟨hok.symm, { d with seq }, rfl, hslots, rfl, ?_⟩
    simp only [reflect, appendLog_id]

def Reflected (published : List Envelope) (env : Envelope) : Prop :=
  env ∈ published ∧ env.type = .commit

/-- The register, the logs and what was sent on are records of one history. -/
structure Faithful (d : DS) (published : List Envelope) : Prop where
  logged : ∀ ch, ∀ r ∈ d.log ch, d.decision ch r.base = some r.hash
  distinct : ∀ ch, ((d.log ch).map (·.hash)).Nodup
  decided : ∀ ch base ref, d.decision ch base = some ref →
    ∃ env, Reflected published env ∧ env.vni = ch ∧ env.base = base ∧ env.hash = ref
  reflected : ∀ env, Reflected published env →
    d.decision env.vni env.base = some env.hash ∧ ∃ r ∈ d.log env.vni, r.hash = env.hash

namespace Faithful

variable {published : List Envelope}

theorem append_other (hfaithful : Faithful d published) {others : List Envelope}
    (hother : ∀ env ∈ others, env.type ≠ .commit) :
    Faithful d (published ++ others) := by
  have hsame : ∀ env, Reflected (published ++ others) env ↔ Reflected published env := by
    intro env
    simp only [Reflected, List.mem_append]
    constructor
    · rintro ⟨hmem | hmem, hcommit⟩
      · exact ⟨hmem, hcommit⟩
      · exact absurd hcommit (hother env hmem)
    · exact fun ⟨hmem, hcommit⟩ => ⟨.inl hmem, hcommit⟩
  refine ⟨hfaithful.logged, hfaithful.distinct, fun ch base ref hdecided => ?_,
    fun env henv => hfaithful.reflected env ((hsame env).mp henv)⟩
  obtain ⟨env, henv, hfields⟩ := hfaithful.decided ch base ref hdecided
  exact ⟨env, (hsame env).mpr henv, hfields⟩

theorem rejected (hfaithful : Faithful d published) {d' : DS}
    (hlogs : d'.logs = d.logs) (hslots : d'.slots = d.slots) :
    Faithful d' published := by
  have hlog : ∀ ch, d'.log ch = d.log ch := fun ch => by rw [log, log, hlogs]
  have hdecision : ∀ ch base, d'.decision ch base = d.decision ch base :=
    fun ch base => congrFun hslots (ch, base)
  constructor
  · intro ch r hr
    rw [hlog] at hr
    rw [hdecision]
    exact hfaithful.logged ch r hr
  · intro ch
    rw [hlog]
    exact hfaithful.distinct ch
  · intro ch base ref hdecided
    rw [hdecision] at hdecided
    exact hfaithful.decided ch base ref hdecided
  · intro env henv
    rw [hdecision, hlog]
    exact hfaithful.reflected env henv

theorem accepted (hfaithful : Faithful d published) {d' : DS} {out : Envelope}
    (hlogs : d'.logs = d.logs)
    (hslots : d'.slots = (propose d.slots (env.vni, env.base) env.hash).2)
    (hok : (propose d.slots (env.vni, env.base) env.hash).1 = true)
    (hcommit : out.type = .commit) (hvni : out.vni = env.vni)
    (hbase : out.base = env.base) (hhash : out.hash = env.hash) :
    Faithful (d'.appendLog env) (published ++ [out]) := by
  have hlog : ∀ ch, d'.log ch = d.log ch := fun ch => by rw [log, log, hlogs]
  have hdecision : ∀ ch base, (d'.appendLog env).decision ch base = d'.slots (ch, base) :=
    fun ch base => congrFun (appendLog_slots d' env) (ch, base)
  have hnow : d'.slots (env.vni, env.base) = some env.hash := by
    rw [hslots]
    exact propose_answers.1.mp hok
  have hkeeps : ∀ ch base ref, d.decision ch base = some ref →
      (d'.appendLog env).decision ch base = some ref := by
    intro ch base ref hold
    rw [hdecision, hslots]
    exact propose_keeps hold
  have hsent : Reflected (published ++ [out]) out := ⟨by simp, hcommit⟩
  have hearlier : ∀ e, Reflected published e → Reflected (published ++ [out]) e :=
    fun e he => ⟨List.mem_append_left _ he.1, he.2⟩
  constructor
  · intro ch r hr
    rcases d'.appendLog_log env ch with ⟨hsame, -⟩ | ⟨rfl, -, hnew⟩
    · rw [hsame, hlog] at hr
      exact hkeeps ch _ _ (hfaithful.logged ch r hr)
    · rw [hnew, List.mem_append, List.mem_singleton, hlog] at hr
      rcases hr with hr | rfl
      · exact hkeeps _ _ _ (hfaithful.logged _ r hr)
      · exact (hdecision _ _).trans hnow
  · intro ch
    rcases d'.appendLog_log env ch with ⟨hsame, -⟩ | ⟨rfl, hfresh, hnew⟩
    · rw [hsame, hlog]
      exact hfaithful.distinct ch
    · rw [hnew, List.map_append, List.nodup_append']
      refine ⟨hlog _ ▸ hfaithful.distinct _, List.nodup_singleton _, ?_⟩
      intro hash hmem heq
      obtain ⟨r, hr, rfl⟩ := List.mem_map.mp hmem
      exact hfresh r hr (by simpa using heq)
  · intro ch base ref hdecided
    rw [hdecision] at hdecided
    by_cases hslot : (ch, base) = (env.vni, env.base)
    · obtain ⟨rfl, rfl⟩ := Prod.mk.inj hslot
      refine ⟨out, hsent, hvni, hbase, hhash.trans ?_⟩
      exact Option.some.inj (hnow.symm.trans hdecided)
    · rw [hslots, propose_of_ne hslot] at hdecided
      obtain ⟨e, he, hfields⟩ := hfaithful.decided ch base ref hdecided
      exact ⟨e, hearlier e he, hfields⟩
  · rintro e ⟨hmem, hetype⟩
    rcases List.mem_append.mp hmem with hmem | hmem
    · obtain ⟨hdecided, r, hr, hrhash⟩ := hfaithful.reflected e ⟨hmem, hetype⟩
      refine ⟨hkeeps _ _ _ hdecided, r, ?_, hrhash⟩
      rw [← hlog] at hr
      rcases d'.appendLog_log env e.vni with ⟨hsame, -⟩ | ⟨-, -, hnew⟩
      · rwa [hsame]
      · rw [hnew]
        exact List.mem_append_left _ hr
    · obtain rfl := List.mem_singleton.mp hmem
      rw [hvni, hbase, hhash]
      refine ⟨(hdecision _ _).trans hnow, ?_⟩
      rcases d'.appendLog_log env env.vni with ⟨hsame, hthere⟩ | ⟨-, -, hnew⟩
      · rw [hsame]
        exact hthere rfl
      · rw [hnew]
        exact ⟨_, List.mem_append_right _ (List.mem_singleton_self _), rfl⟩

theorem handle (hfaithful : Faithful d published) (down : Bool) (env : Envelope) (m : DSMetrics) :
    Faithful (d.handle down env m).ds (published ++ (d.handle down env m).published) := by
  have hquiet : Faithful d (published ++ []) := by rwa [List.append_nil]
  unfold DS.handle
  split
  · exact hquiet
  · cases htype : env.type with
    | commit =>
        rcases d.onCommit_cases env m with ⟨-, hlogs, hslots, hnone⟩ |
          ⟨hok, d', hlogs, hslots, hds, hsent⟩
        · simp only [hnone]
          exact hquiet.rejected hlogs hslots
        · simp only [hds, hsent]
          exact hfaithful.accepted hlogs hslots hok htype rfl rfl rfl
    | welcome => exact hfaithful.append_other (by simp [reflect, htype])
    | logRequest => exact hfaithful.append_other (by simp [serveCatchup])
    | heartbeat => exact hquiet
    | logReply => exact hquiet
    | data => exact hquiet

theorem new (id : ActorID) (encryptHandshakes : Bool) :
    Faithful (newDS id encryptHandshakes) [] := by
  have hlog : ∀ ch, (newDS id encryptHandshakes).log ch = [] := fun ch => rfl
  constructor
  · intro ch r hr
    cases hr
  · exact fun ch => List.nodup_nil
  · intro ch base ref hdecided
    cases hdecided
  · rintro env ⟨hmem, -⟩
    cases hmem

theorem handleAll (hfaithful : Faithful d published) (m : DSMetrics)
    (events : List (Bool × Envelope)) :
    Faithful (d.handleAll m events).ds (published ++ (d.handleAll m events).published) := by
  induction events generalizing d m published with
  | nil => simpa [DS.handleAll] using hfaithful
  | cons event rest ih =>
      have hlater := ih (hfaithful.handle event.1 event.2 m) (d.handle event.1 event.2 m).metrics
      rwa [List.append_assoc] at hlater

/-! ## What the records say -/

theorem bases_nodup (hfaithful : Faithful d published) (ch : UInt32) :
    ((d.log ch).map (·.base)).Nodup := by
  refine ((hfaithful.distinct ch).of_map _).map_on fun r hr r' hr' hbase => ?_
  -- one base has one decision, so two of its records have one hash
  have hdecided := hfaithful.logged ch r hr
  rw [hbase, hfaithful.logged ch r' hr', Option.some.injEq] at hdecided
  exact List.inj_on_of_nodup_map (hfaithful.distinct ch) hr hr' hdecided.symm

theorem complete_iff (hfaithful : Faithful d published) :
    (∀ ch base ref, d.decision ch base = some ref → ∃ r ∈ d.log ch, r.base = base ∧ r.hash = ref) ↔
      ∀ env env', Reflected published env → Reflected published env' →
        env.vni = env'.vni → env.hash = env'.hash → env.base = env'.base := by
  constructor
  · intro hcomplete env env' henv henv' hvni hhash
    obtain ⟨r, hr, hrbase, hrhash⟩ := hcomplete _ _ _ (hfaithful.reflected env henv).1
    obtain ⟨r', hr', hrbase', hrhash'⟩ := hcomplete _ _ _ (hfaithful.reflected env' henv').1
    rw [← hvni] at hr'
    have hsame : r = r' := List.inj_on_of_nodup_map (hfaithful.distinct env.vni) hr hr'
      (hrhash.trans (hhash.trans hrhash'.symm))
    rw [← hrbase, ← hrbase', hsame]
  · intro htells ch base ref hdecided
    obtain ⟨env, henv, rfl, rfl, rfl⟩ := hfaithful.decided ch base ref hdecided
    obtain ⟨-, r, hr, hrhash⟩ := hfaithful.reflected env henv
    obtain ⟨env', henv', hvni', hbase', hhash'⟩ :=
      hfaithful.decided _ _ _ (hfaithful.logged _ r hr)
    refine ⟨r, hr, ?_, hrhash⟩
    rw [← hbase']
    exact htells env' env henv' henv hvni' (hhash'.trans hrhash)

end Faithful

/-! ## Requests -/

theorem mem_recordsFrom {log : List CommitRecord} {base : UInt64} {r : CommitRecord} :
    r ∈ recordsFrom log base ↔ r ∈ log ∧ base ≤ r.base := by
  rw [recordsFrom, List.mem_insertionSort, List.mem_filter, decide_eq_true_eq]

theorem recordsFrom_increasing {log : List CommitRecord}
    (hnodup : (log.map (·.base)).Nodup) (base : UInt64) :
    (recordsFrom log base).Pairwise fun r s => r.base < s.base := by
  have htotal : Std.Total fun r s : CommitRecord => r.base ≤ s.base :=
    ⟨fun r s => UInt64.le_total r.base s.base⟩
  have htrans : IsTrans CommitRecord fun r s => r.base ≤ s.base := ⟨fun _ _ _ => UInt64.le_trans⟩
  have hsorted := List.pairwise_insertionSort (fun r s : CommitRecord => r.base ≤ s.base)
    (log.filter fun r => base ≤ r.base)
  have hbases : ((recordsFrom log base).map (·.base)).Nodup :=
    ((List.perm_insertionSort _ _).map _).nodup_iff.mpr
      (hnodup.sublist (List.filter_sublist.map _))
  refine (hsorted.and (List.pairwise_map.mp hbases)).imp fun hboth => ?_
  exact UInt64.lt_of_le_of_ne hboth.1 hboth.2

theorem reflected_of_handle {down : Bool} {out : Envelope} {m : DSMetrics}
    (hreflected : Reflected (d.handle down env m).published out) :
    env.type = .commit ∧ out = { env with src := d.id, dst := broadcast } := by
  obtain ⟨hmem, hcommit⟩ := hreflected
  unfold handle at hmem
  split at hmem
  · cases hmem
  · split at hmem
    next htype =>
      rcases d.onCommit_cases env m with ⟨-, -, -, hnone⟩ | ⟨-, d', -, -, -, hsent⟩
      · rw [hnone] at hmem
        cases hmem
      · rw [hsent] at hmem
        exact ⟨htype, List.mem_singleton.mp hmem⟩
    next htype =>
      obtain rfl := List.mem_singleton.mp hmem
      exact absurd hcommit (by simp [htype])
    · obtain rfl := List.mem_singleton.mp hmem
      cases hcommit
    · cases hmem

theorem reflected_of_handleAll {m : DSMetrics} {events : List (Bool × Envelope)}
    (hreflected : Reflected (d.handleAll m events).published env) :
    ∃ event ∈ events, event.2.type = .commit ∧ ∃ src dst, env = { event.2 with src, dst } := by
  induction events generalizing d m with
  | nil =>
      obtain ⟨hmem, -⟩ := hreflected
      cases hmem
  | cons event rest ih =>
      obtain ⟨hmem, hcommit⟩ := hreflected
      rcases List.mem_append.mp hmem with hmem | hmem
      · obtain ⟨htype, henv⟩ := reflected_of_handle ⟨hmem, hcommit⟩
        exact ⟨event, List.mem_cons_self, htype, _, _, henv⟩
      · obtain ⟨earlier, hearlier, hfields⟩ := ih ⟨hmem, hcommit⟩
        exact ⟨earlier, List.mem_cons_of_mem _ hearlier, hfields⟩

/-! ## The log is the decided history -/

/-- Commits carry the content hash of their payload, and on one channel a payload
belongs to one base. -/
structure Hashed (H : ContentHash) (events : List (Bool × Envelope)) : Prop where
  hash_eq : ∀ event ∈ events, event.2.type = .commit → event.2.hash = H.sum event.2.payload
  one_base : ∀ event ∈ events, ∀ event' ∈ events, event.2.type = .commit →
    event'.2.type = .commit → event.2.vni = event'.2.vni →
    event.2.payload = event'.2.payload → event.2.base = event'.2.base

/-- Two accepted commits of a channel, from different bases, whose payloads have
one hash. -/
def Collision (H : ContentHash) (published : List Envelope) : Prop :=
  ∃ env env', Reflected published env ∧ Reflected published env' ∧
    env.vni = env'.vni ∧ env.base ≠ env'.base ∧ env.payload ≠ env'.payload ∧
    H.sum env.payload = H.sum env'.payload

theorem Hashed.tells_iff {H : ContentHash} {events : List (Bool × Envelope)}
    (hhashed : Hashed H events) (m : DSMetrics) :
    (∀ env env', Reflected (d.handleAll m events).published env →
        Reflected (d.handleAll m events).published env' →
        env.vni = env'.vni → env.hash = env'.hash → env.base = env'.base) ↔
      ¬Collision H (d.handleAll m events).published := by
  constructor
  · rintro htells ⟨env, env', henv, henv', hvni, hbase, -, hsum⟩
    refine hbase (htells env env' henv henv' hvni ?_)
    obtain ⟨event, hevent, htype, _, _, rfl⟩ := reflected_of_handleAll henv
    obtain ⟨event', hevent', htype', _, _, rfl⟩ := reflected_of_handleAll henv'
    exact (hhashed.hash_eq event hevent htype).trans
      (hsum.trans (hhashed.hash_eq event' hevent' htype').symm)
  · intro hnone env env' henv henv' hvni hhash
    by_contra hbase
    refine hnone ⟨env, env', henv, henv', hvni, hbase, ?_⟩
    obtain ⟨event, hevent, htype, _, _, rfl⟩ := reflected_of_handleAll henv
    obtain ⟨event', hevent', htype', _, _, rfl⟩ := reflected_of_handleAll henv'
    refine ⟨fun hpayload => hbase (hhashed.one_base event hevent event' hevent' htype
      htype' hvni hpayload), ?_⟩
    exact (hhashed.hash_eq event hevent htype).symm.trans
      (hhash.trans (hhashed.hash_eq event' hevent' htype'))

/-- Whatever a reflector receives and whenever it is down: its logs have one record
for a base, the decided one; it sends on decided commits only; it answers a request
with the records from the requested base on, in order.  Every decided slot has its
record exactly if no content hashes of accepted commits collide. -/
theorem log_is_decided_history (H : ContentHash) (id : ActorID) (encryptHandshakes : Bool)
    (m : DSMetrics) (events : List (Bool × Envelope)) (hhashed : Hashed H events) :
    let run := (newDS id encryptHandshakes).handleAll m events
    (∀ ch, ((run.ds.log ch).map (·.base)).Nodup ∧
      ∀ r ∈ run.ds.log ch, run.ds.decision ch r.base = some r.hash) ∧
    (∀ env, Reflected run.published env → run.ds.decision env.vni env.base = some env.hash) ∧
    (∀ env m, env.type = .logRequest →
      ∃ reply, (run.ds.handle false env m).published = [reply] ∧
        reply.type = .logReply ∧ reply.vni = env.vni ∧ reply.dst = env.src ∧
        (reply.records.Pairwise fun r s => r.base < s.base) ∧
        ∀ r, r ∈ reply.records ↔ r ∈ run.ds.log env.vni ∧ env.base ≤ r.base) ∧
    ((∀ ch base ref, run.ds.decision ch base = some ref →
        ∃ r ∈ run.ds.log ch, r.base = base ∧ r.hash = ref) ↔
      ¬Collision H run.published) := by
  intro run
  have hfaithful : Faithful run.ds run.published :=
    (Faithful.new id encryptHandshakes).handleAll m events
  refine ⟨fun ch => ⟨hfaithful.bases_nodup ch, hfaithful.logged ch⟩,
    fun env henv => (hfaithful.reflected env henv).1, fun env m htype => ?_,
    hfaithful.complete_iff.trans (hhashed.tells_iff m)⟩
  refine ⟨{ vni := env.vni, type := .logReply, src := run.ds.id, dst := env.src,
            records := recordsFrom (run.ds.log env.vni) env.base }, ?_, rfl, rfl, rfl,
    recordsFrom_increasing (hfaithful.bases_nodup env.vni) env.base,
    fun r => mem_recordsFrom⟩
  simp [handle, htype, serveCatchup]

def commitTo (H : ContentHash) (base : UInt64) (payload : Bytes) : Bool × Envelope :=
  (false, { vni := 0, type := .commit, src := 0, dst := 1, base, payload, hash := H.sum payload })

def paddedHash : ContentHash where
  sum b := (b ++ List.replicate 32 0).take 32
  length_eq b := by simp

/-- A commit, a competing one, the first again, and one for the next base. -/
def competingCommits : List (Bool × Envelope) :=
  [commitTo paddedHash 0 [1], commitTo paddedHash 0 [2], commitTo paddedHash 0 [1],
    commitTo paddedHash 1 [3]]

theorem log_is_decided_history_competing :
    let run := (newDS 1 false).handleAll ⟨0, 0, 0, 0⟩ competingCommits
    (run.ds.log 0).map (·.bytes) = [[1], [3]] ∧
      run.published.map (·.payload) = [[1], [1], [3]] ∧
      ∀ ch base ref, run.ds.decision ch base = some ref →
        ∃ r ∈ run.ds.log ch, r.base = base ∧ r.hash = ref := by
  have hhashed : Hashed paddedHash competingCommits := ⟨by decide +kernel, by decide +kernel⟩
  have hpublished : ∀ env ∈ ((newDS 1 false).handleAll ⟨0, 0, 0, 0⟩ competingCommits).published,
      (env.base, env.payload) ∈ [((0 : UInt64), [(1 : UInt8)]), (1, [3])] := by
    decide +kernel
  refine ⟨by decide +kernel, by decide +kernel,
    (log_is_decided_history paddedHash 1 false ⟨0, 0, 0, 0⟩ competingCommits hhashed).2.2.2.mpr ?_⟩
  rintro ⟨env, env', ⟨henv, -⟩, ⟨henv', -⟩, -, hbase, hpayload, hsum⟩
  have hfirst := hpublished env henv
  have hsecond := hpublished env' henv'
  simp only [List.mem_cons, Prod.mk.injEq, List.not_mem_nil, or_false] at hfirst hsecond
  rcases hfirst with ⟨hb, hp⟩ | ⟨hb, hp⟩ <;> rcases hsecond with ⟨hb', hp'⟩ | ⟨hb', hp'⟩
  · exact hbase (hb.trans hb'.symm)
  · rw [hp, hp'] at hsum
    exact absurd hsum (by decide +kernel)
  · rw [hp, hp'] at hsum
    exact absurd hsum (by decide +kernel)
  · exact hbase (hb.trans hb'.symm)

/-- The hash that fills up with zeros does not tell `[1]` from `[1, 0]`. -/
theorem colliding_commit_not_logged :
    let events := [commitTo paddedHash 0 [1], commitTo paddedHash 1 [1, 0]]
    let run := (newDS 1 false).handleAll ⟨0, 0, 0, 0⟩ events
    Hashed paddedHash events ∧ run.ds.decision 0 1 = some (paddedHash.sum [1, 0]) ∧
      run.published.map (·.base) = [0, 1] ∧ (run.ds.log 0).map (·.base) = [0] :=
  ⟨⟨by decide +kernel, by decide +kernel⟩, by decide +kernel, by decide +kernel, by decide +kernel⟩

end DS

end Sim

end MlsGo
