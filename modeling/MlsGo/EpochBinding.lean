import MlsGo.ExternalEntry
import MlsGo.GroupWorlds
import MlsGo.SecretTreeKeys
import MlsGo.TranscriptChain

/-!
# What the secrets of an epoch commit to

The epoch secret is derived with the group context, the context holds the hash of
the tree and the transcript, and everything else that the members share is derived
from these.  So as long as none of the hashes, tags and derivations that were made
collide, one epoch authenticator belongs to one state of the group, and so does one
confirmation tag.  The evaluations that were made are kept in a record, since a hash
of fixed length cannot be injective on all inputs.
-/

namespace MlsGo

open DecoderLaws RatchetTree

variable {S : Suite} {g g' : Group} {past past' : List Group} {gcBytes : Bytes}
    {psk : Option Bytes} {t : RatchetTree}

/-! ## Records of evaluations -/

/-- The inputs on which the hash, the MAC and the two halves of the KDF were
evaluated. -/
structure Queries where
  hashed : Set Bytes
  tagged : Set (Bytes × Bytes)
  extracted : Set (Bytes × Bytes)
  expanded : KdfCall → Prop

structure Queries.CollisionFree (S : Suite) (Q : Queries) : Prop where
  hash : Set.InjOn S.hash Q.hashed
  mac : Set.InjOn (fun call : Bytes × Bytes => S.mac call.1 call.2) Q.tagged
  extract : ∀ call ∈ Q.extracted, ∀ call' ∈ Q.extracted, ∀ x,
    S.extract call.1 call.2 = .ok x → S.extract call'.1 call'.2 = .ok x → call = call'
  expand : InjectiveOn S Q.expanded

/-! ## The key schedule -/

structure EpochOrigin (S : Suite) (g : Group) where
  psk : Option Bytes
  member : Bytes
  gcBytes : Bytes
  member_eq : S.extract g.epoch.joinerSecret (orZeros S psk) = .ok member
  gcBytes_eq : g.groupContext.marshal = .ok gcBytes
  secrets_eq : epochSecretsFromJoiner S g.epoch.joinerSecret psk gcBytes = .ok g.epoch

theorem epochSecretsFromJoiner_joiner {joiner : Bytes} {es : EpochSecrets}
    (hrun : epochSecretsFromJoiner S joiner psk gcBytes = .ok es) :
    es.joinerSecret = joiner ∧ ∃ member, S.extract joiner (orZeros S psk) = .ok member := by
  simp only [epochSecretsFromJoiner, bind_eq_ok, liftErr_eq_ok, pure_ok_iff] at hrun
  obtain ⟨member, hmember, _, -, _, -, _, -, _, -, _, -, _, -, _, -, _, -, _, -, _, -,
    _, -, rfl⟩ := hrun
  exact ⟨rfl, member, hmember⟩

theorem exists_origin_of_joiner {joiner : Bytes} (hgc : g.groupContext.marshal = .ok gcBytes)
    (hrun : epochSecretsFromJoiner S joiner psk gcBytes = .ok g.epoch) :
    Nonempty (EpochOrigin S g) := by
  obtain ⟨hjoiner, member, hmember⟩ := epochSecretsFromJoiner_joiner hrun
  rw [← hjoiner] at hrun hmember
  exact ⟨⟨psk, member, gcBytes, hmember, hgc, hrun⟩⟩

theorem exists_origin_of_derived {initSecret : Bytes}
    {commitSecret : Option Bytes} (hgc : g.groupContext.marshal = .ok gcBytes)
    (hrun : deriveEpochSecrets S initSecret commitSecret psk gcBytes = .ok g.epoch) :
    Nonempty (EpochOrigin S g) := by
  obtain ⟨joiner, -, hjoined⟩ := bind_eq_ok.mp hrun
  exact exists_origin_of_joiner hgc hjoined

theorem EpochStep.exists_origin (hstep : EpochStep S g g') : Nonempty (EpochOrigin S g') := by
  rcases hstep.runs with ⟨opt, rnd, d, res, ⟨draft⟩, ⟨finish⟩, rfl⟩ |
    ⟨cache, ac, cm, run, rfl⟩ | ⟨m, run, rfl⟩
  · rw [finish.group_eq]
    exact exists_origin_of_derived draft.newGCBytes_eq draft.secrets_eq
  · exact exists_origin_of_derived run.gcBytes_eq run.es_eq
  · exact exists_origin_of_derived run.gcBytes_eq run.es_eq

theorem Reached.exists_origin (hrun : Reached S g) : Nonempty (EpochOrigin S g) := by
  induction hrun with
  | newGroup groupID cred signer lifetime seeds hnew =>
      simp only [MlsGo.newGroup, bind_eq_ok, pure_ok_iff] at hnew
      obtain ⟨⟨kp, _, leafPriv⟩, -, treeHash, -, gcBytes, hgc, es, hes, st, -, rfl⟩ := hnew
      exact exists_origin_of_derived hgc hes
  | joinFromWelcome welcome opt hjoin =>
      obtain ⟨run, rfl⟩ := joinRun_of_joinFromWelcome hjoin
      exact exists_origin_of_joiner run.gcBytes_eq run.es_eq
  | externalCommit gi cred signer lifetime rnd henter =>
      obtain ⟨run, rfl, -⟩ := entryRun_of_externalCommit henter
      exact exists_origin_of_derived run.newGCBytes_eq run.es_eq
  | sameEpoch _ hstep ih =>
      obtain ⟨app, handshake, encrypt, pending, rfl⟩ := hstep.eq_update
      obtain ⟨o⟩ := ih
      exact ⟨⟨o.psk, o.member, o.gcBytes, o.member_eq, o.gcBytes_eq, o.secrets_eq⟩⟩
  | nextEpoch _ hstep _ => exact hstep.exists_origin

namespace EpochOrigin

variable (o : EpochOrigin S g)

def call : KdfCall := ⟨o.member, "epoch", o.gcBytes, S.hashLen⟩

theorem schedule : o.call.output S = .ok g.epoch.epochSecret ∧
    S.deriveSecret g.epoch.epochSecret "confirm" = .ok g.epoch.confirmationKey ∧
    S.deriveSecret g.epoch.epochSecret "authentication" = .ok g.epoch.epochAuthenticator := by
  have hrun := o.secrets_eq
  simp only [epochSecretsFromJoiner, bind_eq_ok, liftErr_eq_ok, pure_ok_iff] at hrun
  obtain ⟨member, hmember, _, -, epoch, hepoch, _, -, _, -, _, -, _, -, confirm, hconfirm,
    _, -, _, -, auth, hauth, _, -, hes⟩ := hrun
  cases o.member_eq.symm.trans hmember
  rw [← hes]
  exact ⟨hepoch, hconfirm, hauth⟩

theorem epoch_eq (o' : EpochOrigin S g') (hjoiner : g.epoch.joinerSecret = g'.epoch.joinerSecret)
    (hmember : o.member = o'.member) (hgc : o.gcBytes = o'.gcBytes) :
    g.epoch = g'.epoch := by
  have hrun := o.secrets_eq
  have hrun' := o'.secrets_eq
  rw [epochSecretsFromJoiner, o.member_eq, liftErr_ok, ok_bind] at hrun
  rw [epochSecretsFromJoiner, o'.member_eq, liftErr_ok, ok_bind, ← hmember, ← hgc,
    ← hjoiner, hrun, Except.ok.injEq] at hrun'
  exact hrun'

structure RecordedIn (Q : Queries) : Prop where
  extracted : (g.epoch.joinerSecret, orZeros S o.psk) ∈ Q.extracted
  expanded : Q.expanded o.call
  secrets : ∀ label ∈ ["confirm", "authentication"],
    Q.expanded ⟨g.epoch.epochSecret, label, [], S.hashLen⟩
  tag : (g.epoch.confirmationKey, g.groupContext.confirmedTranscriptHash) ∈ Q.tagged
  tree : rootHashInputs S g.tree ⊆ Q.hashed

end EpochOrigin

def Recorded (S : Suite) (Q : Queries) (g : Group) : Prop := ∃ o : EpochOrigin S g, o.RecordedIn Q

/-! ## Binding -/

structure EpochSound (S : Suite) (g : Group) : Prop where
  tree_invariant : g.tree.RepresentationInvariant
  fields : EpochFields S g
  interim : g.groupContext.epoch ≠ 0 → InterimAgrees S g

theorem InitialEpoch.epoch_eq (hrun : InitialEpoch S g) : g.groupContext.epoch = 0 := by
  induction hrun with
  | newGroup groupID cred signer lifetime seeds hnew =>
      simp only [MlsGo.newGroup, bind_eq_ok, pure_ok_iff] at hnew
      obtain ⟨⟨kp, _, leafPriv⟩, -, treeHash, -, gcBytes, -, es, -, st, -, rfl⟩ := hnew
      rfl
  | sameEpoch _ hstep ih =>
      obtain ⟨app, handshake, encrypt, pending, rfl⟩ := hstep.eq_update
      exact ih

theorem Membership.reached (hrun : Membership S g past) : Reached S g := by
  induction hrun with
  | newGroup groupID cred signer lifetime seeds hnew => exact .newGroup _ _ _ _ _ hnew
  | joinFromWelcome welcome opt _ hjoin _ _ => exact .joinFromWelcome _ _ hjoin
  | externalCommit gi cred signer lifetime rnd _ _ henter _ =>
      exact .externalCommit _ _ _ _ _ henter
  | sameEpoch _ hstep ih => exact .sameEpoch ih hstep
  | nextEpoch _ hstep ih => exact .nextEpoch ih hstep

theorem Membership.fields (hrun : Membership S g past) : EpochFields S g := by
  induction hrun with
  | newGroup groupID cred signer lifetime seeds hnew =>
      have htree := (Membership.newGroup _ _ _ _ _ hnew).treeHash_eq
      simp only [MlsGo.newGroup, bind_eq_ok, pure_ok_iff] at hnew
      obtain ⟨⟨kp, _, leafPriv⟩, -, treeHash, -, gcBytes, -, es, -, st, hst, rfl⟩ := hnew
      have hf : (newRatchetTree kp.leafNode).Full 0 := ⟨rfl, by omega⟩
      rw [← show (newRatchetTree kp.leafNode).leafCount = 1 by
        rw [hf.leafCount_eq, pow_zero]] at hst
      exact ⟨htree, rfl, hst⟩
  | joinFromWelcome welcome opt hsource hjoin htree _ =>
      have hhash := (Membership.joinFromWelcome _ _ hsource hjoin htree).treeHash_eq
      obtain ⟨run, rfl⟩ := joinRun_of_joinFromWelcome hjoin
      exact ⟨hhash, rfl, run.secretTree_eq⟩
  | externalCommit gi cred signer lifetime rnd _ _ henter _ =>
      obtain ⟨run, rfl, -⟩ := entryRun_of_externalCommit henter
      exact ⟨run.newTreeHash_eq, rfl, run.secretTree_eq⟩
  | sameEpoch _ hstep ih =>
      obtain ⟨app, handshake, encrypt, pending, rfl⟩ := hstep.eq_update
      exact ⟨ih.treeHash_eq, ih.initSecret_eq, ih.secretTree_eq⟩
  | nextEpoch hprior hstep _ => exact (hstep.nextEpoch hprior.invariant.1).fields

theorem Membership.epochSound (hrun : Membership S g past) : EpochSound S g where
  tree_invariant := hrun.invariant.1
  fields := hrun.fields
  interim := fun hne => hrun.reached.initial_or_interimAgrees.resolve_left
    fun hinit => hne hinit.epoch_eq

theorem RatchetTree.RepresentationInvariant.dropMisplaced_eq
    (hinv : t.RepresentationInvariant) : t.dropMisplaced = t := by
  obtain ⟨h, hf, -⟩ := hinv.full
  apply hf.dropMisplaced.ext_slots hf
  intro k j
  rw [slot_dropMisplaced]
  cases hslot : t.slot k j with
  | none => rfl
  | some n =>
      cases k with
      | zero =>
          obtain ⟨l, rfl⟩ := hinv.wellFormed.leaf_slot j n hslot
          simp [placed]
      | succ k =>
          obtain ⟨p, rfl⟩ := hinv.wellFormed.parent_slot k j n hslot
          simp [placed, inorder_succ_odd]

theorem RatchetTree.RepresentationInvariant.eq_of_rootTreeHash {t' : RatchetTree}
    (hinv : t.RepresentationInvariant) (hinv' : t'.RepresentationInvariant) {digest : Bytes}
    (hhash : t.rootTreeHash S = .ok digest) (hhash' : t'.rootTreeHash S = .ok digest)
    (hinj : Set.InjOn S.hash (rootHashInputs S t ∪ rootHashInputs S t')) : t = t' := by
  obtain ⟨h, hf, -⟩ := hinv.full
  obtain ⟨h', hf', -⟩ := hinv'.full
  have heq := (rootTreeHash_eq_iff hf hf' hhash hhash' hinj).mp rfl
  rwa [hinv.dropMisplaced_eq, hinv'.dropMisplaced_eq] at heq

section Binding

variable {Q : Queries} (hfree : Q.CollisionFree S) (hrec : Recorded S Q g)
  (hrec' : Recorded S Q g')

include hfree hrec hrec'

theorem Recorded.eq_of_epochSecret (hsecret : g.epoch.epochSecret = g'.epoch.epochSecret) :
    g.groupContext = g'.groupContext ∧ g.epoch = g'.epoch := by
  obtain ⟨o, ho⟩ := hrec
  obtain ⟨o', ho'⟩ := hrec'
  obtain ⟨hout, -⟩ := o.schedule
  obtain ⟨hout', -⟩ := o'.schedule
  rw [← hsecret] at hout'
  obtain ⟨hmember, -, hgc⟩ := hfree.expand _ _ _ ho.expanded ho'.expanded rfl hout hout'
  replace hmember : o.member = o'.member := hmember
  replace hgc : o.gcBytes = o'.gcBytes := hgc
  have hjoiner := hfree.extract _ ho.extracted _ ho'.extracted _ o.member_eq
    (hmember ▸ o'.member_eq)
  have hcontext := roundTrips_groupContext _ _ o.gcBytes_eq
  rw [hgc] at hcontext
  exact ⟨hcontext.value_unique (roundTrips_groupContext _ _ o'.gcBytes_eq),
    o.epoch_eq o' (Prod.mk.inj hjoiner).1 hmember hgc⟩

variable (hsound : EpochSound S g) (hsound' : EpochSound S g')
  (hstarted : g.groupContext.epoch ≠ 0)

include hsound hsound' hstarted

theorem Recorded.sameEpoch_of_epochSecret
    (hsecret : g.epoch.epochSecret = g'.epoch.epochSecret) : SameEpoch g g' := by
  obtain ⟨hgc, hes⟩ := hrec.eq_of_epochSecret hfree hrec' hsecret
  have htree : g.tree = g'.tree := by
    obtain ⟨o, ho⟩ := hrec
    obtain ⟨o', ho'⟩ := hrec'
    have hhash := hsound'.fields.treeHash_eq
    rw [← hgc] at hhash
    exact hsound.tree_invariant.eq_of_rootTreeHash hsound'.tree_invariant
      hsound.fields.treeHash_eq hhash (hfree.hash.mono (Set.union_subset ho.tree ho'.tree))
  have hinterim : g.interim = g'.interim := by
    have hpublished := hsound.interim hstarted
    have hpublished' := hsound'.interim (hgc ▸ hstarted)
    rw [InterimAgrees, Group.publishedInterim] at hpublished hpublished'
    rw [← hgc, ← hes, hpublished, Except.ok.injEq] at hpublished'
    exact hpublished'
  have hst := hsound'.fields.secretTree_eq
  rw [← htree, ← hes, hsound.fields.secretTree_eq, Except.ok.injEq] at hst
  refine ⟨hgc, htree, hes, ?_, hinterim, hst⟩
  rw [hsound.fields.initSecret_eq, hsound'.fields.initSecret_eq, hes]

theorem Recorded.sameEpoch_of_derived {label : String} {x : Bytes}
    (hlabel : label ∈ ["confirm", "authentication"])
    (hderive : S.deriveSecret g.epoch.epochSecret label = .ok x)
    (hderive' : S.deriveSecret g'.epoch.epochSecret label = .ok x) : SameEpoch g g' := by
  have hsecret : g.epoch.epochSecret = g'.epoch.epochSecret := by
    obtain ⟨o, ho⟩ := hrec
    obtain ⟨o', ho'⟩ := hrec'
    exact (hfree.expand _ _ _ (ho.secrets label hlabel) (ho'.secrets label hlabel) rfl
      hderive hderive').1
  exact hrec.sameEpoch_of_epochSecret hfree hrec' hsound hsound' hstarted hsecret

theorem Recorded.sameEpoch_of_confirmationKey
    (hkey : g.epoch.confirmationKey = g'.epoch.confirmationKey) : SameEpoch g g' := by
  have hderive := hrec.elim fun o _ => o.schedule.2.1
  have hderive' := hrec'.elim fun o _ => o.schedule.2.1
  rw [← hkey] at hderive'
  exact hrec.sameEpoch_of_derived hfree hrec' hsound hsound' hstarted (by simp) hderive hderive'

theorem Recorded.sameEpoch_of_authenticator
    (hauth : g.epoch.epochAuthenticator = g'.epoch.epochAuthenticator) :
    SameEpoch g g' := by
  have hderive := hrec.elim fun o _ => o.schedule.2.2
  have hderive' := hrec'.elim fun o _ => o.schedule.2.2
  rw [← hauth] at hderive'
  exact hrec.sameEpoch_of_derived hfree hrec' hsound hsound' hstarted (by simp) hderive hderive'

theorem Recorded.sameEpoch_of_tag
    (htag : confirmationTag S g.epoch.confirmationKey g.groupContext.confirmedTranscriptHash =
      confirmationTag S g'.epoch.confirmationKey
        g'.groupContext.confirmedTranscriptHash) : SameEpoch g g' := by
  have hpair := hrec.elim fun o ho => hrec'.elim fun o' ho' => hfree.mac ho.tag ho'.tag htag
  exact hrec.sameEpoch_of_confirmationKey hfree hrec' hsound hsound' hstarted (Prod.mk.inj hpair).1

end Binding

/-! ### A suite without collisions -/

/-- The suite without secrecy, with outputs from which the inputs can be read
back, the tags excepted: these tell lengths apart only. -/
def transparentSuite : Suite :=
  { plainSuite with
    hash := fun p => 0 :: p
    mac := fun key data => [UInt8.ofNat (key.length + data.length)]
    extract := fun salt ikm => match writeOpaqueV salt with
      | .ok field => .ok (field ++ ikm)
      | .error _ => .error (.text "extract: salt")
    kdfExpand := fun secret info _ => .ok (info ++ secret) }

theorem transparentSuite_extract {call call' : Bytes × Bytes} {x : Bytes}
    (hout : transparentSuite.extract call.1 call.2 = .ok x)
    (hout' : transparentSuite.extract call'.1 call'.2 = .ok x) : call = call' := by
  simp only [transparentSuite] at hout hout'
  split at hout
  next field hfield =>
    split at hout'
    next field' hfield' =>
      cases hout
      obtain ⟨hsalt, hikm⟩ := roundTrips_opaqueV.injective hfield' hfield (Except.ok.inj hout')
      exact Prod.ext hsalt.symm hikm.symm
    · cases hout'
  · cases hout

theorem transparentSuite_injectiveOn (calls : KdfCall → Prop) :
    InjectiveOn transparentSuite calls := by
  rintro ⟨secret, label, context, length⟩ ⟨secret', label', context', length'⟩ x
    - - hlength hout hout'
  simp only at hlength
  subst hlength
  simp only [KdfCall.output, Suite.expandWithLabel] at hout hout'
  split at hout
  · cases hout
  next hrange =>
    rw [if_neg hrange] at hout'
    simp only [bind_eq_ok, liftErr_eq_ok, transparentSuite, Except.ok.injEq] at hout hout'
    obtain ⟨lbl, hlbl, ctx, hctx, rfl⟩ := hout
    obtain ⟨lbl', hlbl', ctx', hctx', heq⟩ := hout'
    simp only [List.append_assoc, List.append_cancel_left_eq] at heq
    obtain ⟨hlabel, hrest⟩ := roundTrips_opaqueV.injective hlbl' hlbl heq
    obtain ⟨hcontext, hsecret⟩ := roundTrips_opaqueV.injective hctx' hctx hrest
    exact ⟨hsecret.symm, ascii_injective (List.append_cancel_left hlabel.symm), hcontext.symm⟩

def Queries.allBut (tagged : Set (Bytes × Bytes)) : Queries :=
  ⟨Set.univ, tagged, Set.univ, fun _ => True⟩

def Group.tagCall (g : Group) : Bytes × Bytes :=
  (g.epoch.confirmationKey, g.groupContext.confirmedTranscriptHash)

theorem Queries.allBut_collisionFree {calls : List (Bytes × Bytes)}
    (htags : (calls.map fun call => transparentSuite.mac call.1 call.2).Nodup) :
    (Queries.allBut {call | call ∈ calls}).CollisionFree transparentSuite where
  hash := fun _ _ _ _ heq => (List.cons.inj heq).2
  mac := fun _ hcall _ hcall' heq => List.inj_on_of_nodup_map htags hcall hcall' heq
  extract := fun _ _ _ _ _ => transparentSuite_extract
  expand := transparentSuite_injectiveOn _

theorem Reached.recorded_allBut (hrun : Reached S g) {tagged : Set (Bytes × Bytes)}
    (htag : g.tagCall ∈ tagged) :
    Recorded S (.allBut tagged) g := by
  obtain ⟨o⟩ := hrun.exists_origin
  exact ⟨o, trivial, trivial, fun _ _ => trivial, htag, Set.subset_univ _⟩

end MlsGo
