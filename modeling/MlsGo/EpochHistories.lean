import MlsGo.EpochBinding

/-!
# Agreement about the past

The confirmed transcript hash of an epoch takes in the interim hash of the epoch
before, and that one the confirmation tag of its commit.  Two members that find
the same epoch authenticator can follow this chain down: in every epoch in which both were
members they were in the same state, whatever messages they were given.
-/

namespace MlsGo

variable {S : Suite} {Q : Queries} {g g' p p' : Group} {past past' rest rest' : List Group}
    {l l' : List Group}

/-! ## Links -/

theorem EpochStep.confirmed_eq (hstep : EpochStep S g g') :
    ∃ input, g'.groupContext.confirmedTranscriptHash =
      confirmedTranscriptHash S g.interim input := by
  rcases hstep.runs with ⟨opt, rnd, d, res, ⟨draft⟩, ⟨finish⟩, rfl⟩ |
    ⟨cache, ac, cm, run, rfl⟩ | ⟨m, run, rfl⟩
  · refine ⟨draft.confirmedInput, ?_⟩
    rw [finish.group_eq, ← draft.confirmed_eq]
    show d.newGC.confirmedTranscriptHash = d.confirmed
    rw [draft.newGC_eq]
    rfl
  · exact ⟨run.confirmedInput, rfl⟩
  · exact ⟨run.confirmedInput, rfl⟩

/-- The transcript hash that leads from `p` to `g` is on record. -/
def LinkRecorded (S : Suite) (Q : Queries) (p g : Group) : Prop :=
  ∃ input, g.groupContext.confirmedTranscriptHash =
    confirmedTranscriptHash S p.interim input ∧ p.interim ++ input ∈ Q.hashed

/-- So is the interim hash of `g`. -/
def InterimRecorded (S : Suite) (Q : Queries) (g : Group) : Prop :=
  ∀ field, writeOpaqueV (confirmationTag S g.epoch.confirmationKey
      g.groupContext.confirmedTranscriptHash) = .ok field →
    g.groupContext.confirmedTranscriptHash ++ field ∈ Q.hashed

/-- Everything that setting up the epochs of a member has evaluated is on
record. -/
structure HistoryRecorded (S : Suite) (Q : Queries) (g : Group) (past : List Group) :
    Prop where
  states : ∀ x ∈ g :: past, Recorded S Q x ∧ InterimRecorded S Q x
  links : (g :: past).IsChain fun later earlier => LinkRecorded S Q earlier later

theorem HistoryRecorded.tail (hrec : HistoryRecorded S Q g (p :: rest)) :
    HistoryRecorded S Q p rest :=
  ⟨fun x hx => hrec.states x (List.mem_cons_of_mem g hx), hrec.links.tail⟩

theorem LocalStep.sameEpoch (hstep : LocalStep S g g') : SameEpoch g g' := by
  obtain ⟨app, handshake, encrypt, pending, rfl⟩ := hstep.eq_update
  exact ⟨rfl, rfl, rfl, rfl, rfl, rfl⟩

theorem Membership.of_cons (hrun : Membership S g (p :: rest)) :
    Membership S p rest ∧ ∃ first, EpochStep S p first ∧ SameEpoch first g := by
  generalize hpast : p :: rest = past at hrun
  induction hrun with
  | newGroup | joinFromWelcome | externalCommit => cases hpast
  | sameEpoch _ hstep ih =>
      obtain ⟨hprior, first, hfirst, hsame⟩ := ih hpast
      exact ⟨hprior, first, hfirst, hsame.trans hstep.sameEpoch⟩
  | nextEpoch hprior hstep =>
      cases hpast
      exact ⟨hprior, _, hstep, .refl _⟩

theorem Membership.epoch_of_cons (hrun : Membership S g (p :: rest)) :
    g.groupContext.epoch = p.groupContext.epoch + 1 := by
  obtain ⟨-, first, hstep, hsame⟩ := hrun.of_cons
  rw [← hsame.groupContext_eq, hstep.epoch_eq]

/-! ## One link down -/

/-- The digests of the two states have one length. -/
def SameLengths (x x' : Group) : Prop :=
  x.interim.length = x'.interim.length ∧
    x.groupContext.confirmedTranscriptHash.length = x'.groupContext.confirmedTranscriptHash.length

theorem sameEpoch_of_interim (hfree : Q.CollisionFree S) (hsound : EpochSound S p)
    (hsound' : EpochSound S p') (hrec : Recorded S Q p ∧ InterimRecorded S Q p)
    (hrec' : Recorded S Q p' ∧ InterimRecorded S Q p') (hlength : SameLengths p p')
    (hstarted : p.groupContext.epoch ≠ 0) (hstarted' : p'.groupContext.epoch ≠ 0)
    (hinterim : p.interim = p'.interim) : SameEpoch p p' := by
  obtain ⟨field, hfield, hout⟩ := bind_eq_ok.mp (hsound.interim hstarted)
  obtain ⟨field', hfield', hout'⟩ := bind_eq_ok.mp (hsound'.interim hstarted')
  rw [pure_ok_iff] at hout hout'
  have hinput := hfree.hash (hrec.2 field hfield) (hrec'.2 field' hfield')
    (by rw [hout, hout', hinterim])
  obtain ⟨-, rfl⟩ := List.append_inj hinput hlength.2
  refine hrec.1.sameEpoch_of_tag hfree hrec'.1 hsound hsound' hstarted ?_
  exact (roundTrips_opaqueV _ _ hfield).value_unique (roundTrips_opaqueV _ _ hfield')

theorem sameEpoch_before (hfree : Q.CollisionFree S) (hrun : Membership S g (p :: rest))
    (hrun' : Membership S g' (p' :: rest')) (hrec : HistoryRecorded S Q g (p :: rest))
    (hrec' : HistoryRecorded S Q g' (p' :: rest')) (hlength : SameLengths p p')
    (hsame : SameEpoch g g') (hstarted : p.groupContext.epoch ≠ 0) : SameEpoch p p' := by
  obtain ⟨input, hconfirmed, hmem⟩ := (List.isChain_cons_cons.mp hrec.links).1
  obtain ⟨input', hconfirmed', hmem'⟩ := (List.isChain_cons_cons.mp hrec'.links).1
  have hhash : S.hash (p.interim ++ input) = S.hash (p'.interim ++ input') :=
    (hconfirmed.symm.trans (by rw [hsame.groupContext_eq])).trans hconfirmed'
  obtain ⟨hinterim, -⟩ := List.append_inj (hfree.hash hmem hmem' hhash) hlength.1
  have hepoch : p.groupContext.epoch = p'.groupContext.epoch := by
    have hnext := hrun.epoch_of_cons
    rw [hsame.groupContext_eq, hrun'.epoch_of_cons] at hnext
    exact (UInt64.add_left_inj 1).mp hnext.symm
  exact sameEpoch_of_interim hfree hrun.of_cons.1.epochSound hrun'.of_cons.1.epochSound
    (hrec.tail.states p List.mem_cons_self) (hrec'.tail.states p' List.mem_cons_self)
    hlength hstarted (hepoch ▸ hstarted) hinterim

/-! ## All the way down -/

/-- The epochs in which both were members, the latest first, down to the first epoch
of the group. -/
def sharedEpochs (l l' : List Group) : List (Group × Group) :=
  (l.zip l').takeWhile fun q => q.1.groupContext.epoch ≠ 0

theorem sharedEpochs_cons {x x' : Group} (hstarted : x.groupContext.epoch ≠ 0) :
    sharedEpochs (x :: l) (x' :: l') = (x, x') :: sharedEpochs l l' := by
  simp [sharedEpochs, hstarted]

theorem sharedEpochs_of_zero {x x' : Group}
    (hzero : x.groupContext.epoch = 0) : sharedEpochs (x :: l) (x' :: l') = [] := by
  simp [sharedEpochs, hzero]

theorem sameEpoch_back (hfree : Q.CollisionFree S) :
    ∀ {past past' : List Group} {g g' : Group}, Membership S g past →
      Membership S g' past' → HistoryRecorded S Q g past → HistoryRecorded S Q g' past' →
      (∀ q ∈ (g :: past).zip (g' :: past'), SameLengths q.1 q.2) →
      (g.groupContext.epoch ≠ 0 → SameEpoch g g') →
      ∀ q ∈ sharedEpochs (g :: past) (g' :: past'), SameEpoch q.1 q.2 := by
  intro past
  induction past with
  | nil =>
      intro past' g g' _ _ _ _ _ hsame q hq
      by_cases hstarted : g.groupContext.epoch = 0
      · rw [sharedEpochs_of_zero hstarted] at hq
        cases hq
      · rw [sharedEpochs_cons hstarted] at hq
        cases List.mem_singleton.mp hq
        exact hsame hstarted
  | cons p rest ih =>
      intro past' g g' hrun hrun' hrec hrec' hlength hsame q hq
      by_cases hstarted : g.groupContext.epoch = 0
      · rw [sharedEpochs_of_zero hstarted] at hq
        cases hq
      rw [sharedEpochs_cons hstarted] at hq
      rcases List.mem_cons.mp hq with rfl | hq
      · exact hsame hstarted
      cases past' with
      | nil => cases hq
      | cons p' rest' =>
          have hbelow := fun q hq => hlength q (List.mem_cons_of_mem (g, g') hq)
          exact ih hrun.of_cons.1 hrun'.of_cons.1 hrec.tail hrec'.tail hbelow
            (sameEpoch_before hfree hrun hrun' hrec hrec' (hbelow (p, p') List.mem_cons_self)
              (hsame hstarted)) q hq

theorem get_epochKey_shared : ∀ {l l' : List Group},
    (∀ q ∈ sharedEpochs l l', SameEpoch q.1 q.2) → ∀ q ∈ sharedEpochs l l',
      GoMap.get (l.map Group.epochKey) q.1.groupContext.epoch =
        GoMap.get (l'.map Group.epochKey) q.1.groupContext.epoch
  | [], _, _, q, hq => by cases hq
  | _ :: _, [], _, q, hq => by cases hq
  | x :: l, x' :: l', hsame, q, hq => by
      by_cases hstarted : x.groupContext.epoch = 0
      · rw [sharedEpochs_of_zero hstarted] at hq
        cases hq
      rw [sharedEpochs_cons hstarted] at hsame hq
      have hhead : x.epochKey = x'.epochKey := by
        have hx := hsame (x, x') List.mem_cons_self
        rw [Group.epochKey, Group.epochKey, hx.groupContext_eq, hx.epoch_eq]
      have hget : ∀ (key : UInt64 × Bytes) (map : GoMap UInt64 Bytes) epoch,
          GoMap.get (key :: map) epoch = if epoch = key.1 then some key.2 else map.get epoch :=
        fun key map epoch => GoMap.get_set map key.1 epoch key.2
      rw [List.map_cons, List.map_cons, hget, hget, hhead]
      split
      · rfl
      next hother =>
        rcases List.mem_cons.mp hq with rfl | hq
        · exact absurd (by rw [← hhead]; rfl) hother
        · exact get_epochKey_shared (fun q hq => hsame q (List.mem_cons_of_mem _ hq)) q hq

/-- Two members with the same epoch authenticator were in the same state in every
epoch, after the first of the group, in which both were members; and they have kept the same
resumption keys of these epochs. -/
theorem agreement_reaches_back (hfree : Q.CollisionFree S) (hrun : Membership S g past)
    (hrun' : Membership S g' past') (hrec : HistoryRecorded S Q g past)
    (hrec' : HistoryRecorded S Q g' past')
    (hlength : ∀ q ∈ (g :: past).zip (g' :: past'), SameLengths q.1 q.2)
    (hauth : g.epoch.epochAuthenticator = g'.epoch.epochAuthenticator) :
    ∀ q ∈ sharedEpochs (g :: past) (g' :: past'), SameEpoch q.1 q.2 ∧
      g.resumptionPSKHistory.get q.1.groupContext.epoch =
        g'.resumptionPSKHistory.get q.1.groupContext.epoch := by
  have hsame := sameEpoch_back hfree hrun hrun' hrec hrec' hlength fun hstarted =>
    (hrec.states g List.mem_cons_self).1.sameEpoch_of_authenticator hfree
      (hrec'.states g' List.mem_cons_self).1 hrun.epochSound hrun'.epochSound hstarted hauth
  intro q hq
  refine ⟨hsame q hq, ?_⟩
  rw [hrun.invariant.2, hrun'.invariant.2]
  exact get_epochKey_shared hsame q hq

/-! ### A founder and a joiner -/

/-- `A` founds a group, adds `B` and commits again; `B` follows.  The states of `A`
and of `B`, the latest first. -/
def twoHistories : Result (List Group × List Group) := do
  let signer (key : UInt8) : Option Signer := some ⟨[key]⟩
  let rnd (secret : UInt8) : CommitRandomness :=
    ⟨[secret], fun _ _ => [], ⟨0, 0, 0, 0⟩, fun _ => []⟩
  let a ← newGroup transparentSuite [9] (.basic [1]) (signer 1) ⟨0, 1⟩ ⟨[1, 1], [1, 2]⟩
  let (kpB, initB, leafB) ← newKeyPackage transparentSuite (.basic [2]) (signer 2)
    ⟨0, 1⟩ ⟨[2, 1], [2, 2]⟩
  let r ← a.commit transparentSuite ⟨[.add kpB], []⟩ (rnd 11)
  let kpBytes ← encodeKeyPackageMessage kpB
  let b ← joinFromWelcome transparentSuite (r.welcome.getD [])
    ⟨kpBytes, initB, leafB, signer 2, [], []⟩
  let r' ← r.group.commit transparentSuite ⟨[], []⟩ (rnd 12)
  let b' ← b.processCommit transparentSuite [] r'.commit
  return ([r'.group, r.group, a], [b', b])

theorem historyRecorded_allBut {tagged : Set (Bytes × Bytes)} :
    ∀ {past : List Group} {g : Group}, Membership S g past →
      (∀ x ∈ g :: past, x.tagCall ∈ tagged) → HistoryRecorded S (.allBut tagged) g past := by
  intro past
  induction past with
  | nil =>
      intro g hrun htag
      refine ⟨fun x hx => ⟨?_, fun _ _ => trivial⟩, .singleton g⟩
      cases List.mem_singleton.mp hx
      exact hrun.reached.recorded_allBut (htag g List.mem_cons_self)
  | cons p rest ih =>
      intro g hrun htag
      obtain ⟨hprior, first, hstep, hsame⟩ := hrun.of_cons
      obtain ⟨input, hconfirmed⟩ := hstep.confirmed_eq
      rw [hsame.groupContext_eq] at hconfirmed
      obtain ⟨hg, hbelow⟩ := List.forall_mem_cons.mp htag
      have hrec := ih hprior hbelow
      exact ⟨List.forall_mem_cons.mpr ⟨⟨hrun.reached.recorded_allBut hg, fun _ _ => trivial⟩,
        hrec.states⟩, .cons_cons ⟨input, hconfirmed, trivial⟩ hrec.links⟩

/-- What is evaluated about the two histories. -/
def historiesAgree (l l' : List Group) : Bool :=
  decide ((l.map Group.tagCall).map fun call => transparentSuite.mac call.1 call.2).Nodup &&
  ((l.zip l').all fun q => decide (q.1.tagCall = q.2.tagCall) &&
    (decide (q.1.interim.length = q.2.interim.length) &&
    (decide (q.1.groupContext.confirmedTranscriptHash.length =
      q.2.groupContext.confirmedTranscriptHash.length) &&
    (decide (q.1.groupContext.epoch ≠ 0) &&
    decide (q.1.epoch.epochAuthenticator = q.2.epoch.epochAuthenticator)))))

theorem exists_twoHistories :
    ∃ (a₀ b₁ b : Group) (r r' : CommitResult) (rnd : CommitRandomness),
      twoHistories = .ok ([r'.group, r.group, a₀], [b, b₁]) ∧
      Membership transparentSuite r.group [a₀] ∧ Membership transparentSuite b₁ [] ∧
      r.group.commit transparentSuite ⟨[], []⟩ rnd = .ok r' ∧
      b₁.processCommit transparentSuite [] r'.commit = .ok b ∧
      historiesAgree [r'.group, r.group, a₀] [b, b₁] = true := by
  obtain ⟨run, hrun, hagree, htree⟩ : ∃ run, twoHistories = .ok run ∧
      historiesAgree run.1 run.2 = true ∧
      run.1[1]?.map Group.tree = run.2[1]?.map Group.tree := by decide +kernel
  have hsteps := hrun
  simp only [twoHistories, bind_eq_ok, pure_ok_iff] at hsteps
  obtain ⟨a₀, hnew, ⟨kpB, initB, leafB⟩, -, r, hcommit, kpBytes, -, b₁, hjoin, r', hcommit',
    b, hfollow, rfl⟩ := hsteps
  simp only [List.getElem?_cons_succ, List.getElem?_cons_zero, Option.map_some,
    Option.some.injEq] at htree
  have hmember := (Membership.newGroup _ _ _ _ _ hnew).nextEpoch (.commit _ _ hcommit)
  exact ⟨a₀, b₁, b, r, r', _, hrun, hmember,
    .joinFromWelcome _ _ hmember hjoin htree.symm, hcommit', hfollow, hagree⟩

/-- `A` and `B` compare authenticators in the third epoch; they were in one state in
the second. -/
theorem agreement_reaches_back_joiner :
    ∃ a a₁ a₀ b b₁, twoHistories = .ok ([a, a₁, a₀], [b, b₁]) ∧
      a.epoch.epochAuthenticator = b.epoch.epochAuthenticator ∧ SameEpoch a₁ b₁ ∧
      a.resumptionPSKHistory.get a₁.groupContext.epoch =
        b.resumptionPSKHistory.get a₁.groupContext.epoch := by
  obtain ⟨a₀, b₁, b, r, r', rnd, hrun, hmemberA₁, hmemberB₁, hcommit, hfollow, hagree⟩ :=
    exists_twoHistories
  simp only [historiesAgree, Bool.and_eq_true, decide_eq_true_eq, List.all_eq_true] at hagree
  obtain ⟨htags, hpairs⟩ := hagree
  have hmemberA := hmemberA₁.nextEpoch (.commit _ _ hcommit)
  have hmemberB := hmemberB₁.nextEpoch (.processCommit _ _ hfollow)
  have hauth := (hpairs (r'.group, b) (by simp)).2.2.2.2
  have hback := agreement_reaches_back (Queries.allBut_collisionFree htags) hmemberA hmemberB
    (historyRecorded_allBut hmemberA fun x hx => List.mem_map_of_mem hx)
    (historyRecorded_allBut hmemberB (by
      simp [← (hpairs (r'.group, b) (by simp)).1, ← (hpairs (r.group, b₁) (by simp)).1]))
    (fun q hq => (hpairs q hq).2.imp_right And.left) hauth
  have hstarted := fun q hq => (hpairs q hq).2.2.2.1
  have hshared : (r.group, b₁) ∈ sharedEpochs [r'.group, r.group, a₀] [b, b₁] := by
    rw [sharedEpochs_cons (hstarted (r'.group, b) (by simp)),
      sharedEpochs_cons (hstarted (r.group, b₁) (by simp))]
    simp
  exact ⟨r'.group, r.group, a₀, b, b₁, hrun, hauth, hback _ hshared⟩

end MlsGo
