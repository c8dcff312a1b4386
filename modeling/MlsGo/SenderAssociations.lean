import MlsGo.OrderingFailures

/-!
# Separate senders and separate epochs

The associations of `sa.go` keep the data plane's streams apart in two ways.
Within an epoch every sender has its own index and its own salt: two equal
indices are an error, and a salt is the leaf under a mask.  Across the two epochs
that a controller holds at once, the low byte of every index is that of its
epoch, and consecutive epochs differ in it even where the counter wraps.
-/

namespace MlsGo

/-! ## The bits of an index -/

theorem markSPI_toNat (spi : UInt32) (epoch : UInt64) :
    (markSPI spi epoch).toNat =
      ((spi.toNat &&& 0xFFFFFF00) ||| epoch.toNat % 256) ||| 0x80000000 := by
  have hlow : (UInt32.ofNat (epoch.toNat % 256)).toNat = epoch.toNat % 256 := by
    rw [UInt32.toNat_ofNat']
    omega
  simp only [markSPI, UInt32.toNat_or, UInt32.toNat_and, hlow]
  rfl

theorem le_markSPI (spi : UInt32) (epoch : UInt64) : 2 ^ 31 ≤ (markSPI spi epoch).toNat := by
  rw [markSPI_toNat]
  exact Nat.right_le_or

theorem markSPI_mod (spi : UInt32) (epoch : UInt64) :
    (markSPI spi epoch).toNat % 2 ^ 8 = epoch.toNat % 2 ^ 8 := by
  rw [markSPI_toNat, Nat.or_mod_two_pow, Nat.or_mod_two_pow, Nat.and_mod_two_pow]
  simp

variable {leaf : ℕ} {sa : SA} {rnd : CommitRandomness} {out : List InboundSA}

theorem senderSPI_eq_ok {spi : UInt32}
    (hspi : sa.senderSPI leaf = .ok spi) : ∃ raw, spi = markSPI raw sa.epoch := by
  simp only [SA.senderSPI, deriveSenderSPI, bind_eq_ok, pure_ok_iff] at hspi
  obtain ⟨_, -, _, -, raw, -, rfl⟩ := hspi
  exact ⟨raw, rfl⟩

/-! ## The salts of one epoch -/

theorem zipWith_xor_inj {mask : Bytes} : ∀ {p q : Bytes},
    p.length = mask.length → q.length = mask.length →
    List.zipWith (· ^^^ ·) mask p = List.zipWith (· ^^^ ·) mask q → p = q := by
  induction mask with
  | nil =>
      intro p q hp hq _
      rw [List.length_eq_zero_iff.mp hp, List.length_eq_zero_iff.mp hq]
  | cons m mask ih =>
      intro p q hp hq heq
      match p, q, hp, hq, heq with
      | a :: p, b :: q, hp, hq, heq =>
          rw [List.zipWith_cons_cons, List.zipWith_cons_cons, List.cons.injEq] at heq
          have hhead : a = b := by
            have hcancel := congrArg (m ^^^ ·) heq.1
            simpa [← UInt8.xor_assoc] using hcancel
          rw [hhead, ih (by simpa using hp) (by simpa using hq) heq.2]

theorem senderSalt_length {salt : Bytes}
    (hsalt : sa.senderSalt leaf = .ok salt) : salt.length = saSaltLen := by
  simp only [SA.senderSalt, bind_eq_ok, check_eq_ok, pure_ok_iff] at hsalt
  obtain ⟨_, hmask, rfl⟩ := hsalt
  simp [hmask, saSaltLen]

theorem senderSPI_of_salt {leaf' : ℕ} {salt : Bytes} (hsalt : sa.senderSalt leaf = .ok salt)
    (hsalt' : sa.senderSalt leaf' = .ok salt) :
    sa.senderSPI leaf = sa.senderSPI leaf' := by
  simp only [SA.senderSalt, bind_eq_ok, check_eq_ok, pure_ok_iff] at hsalt hsalt'
  obtain ⟨_, hmask, rfl⟩ := hsalt
  obtain ⟨_, -, hsame⟩ := hsalt'
  have hbytes : beBytes 4 leaf' = beBytes 4 leaf :=
    zipWith_xor_inj (by simp [hmask, saSaltLen]) (by simp [hmask, saSaltLen]) hsame
  simp only [SA.senderSPI, deriveSenderSPI, spiContext, hbytes]

/-! ## The entries of `InboundSAs` -/

structure InboundSA.Of (sa : SA) (e : InboundSA) : Prop where
  spi : sa.senderSPI e.leaf = .ok e.spi
  salt : sa.senderSalt e.leaf = .ok e.salt
  key : e.key = sa.key

theorem inboundLoop_eq_ok {leaves : List ℕ} {seen : GoMap UInt32 ℕ}
    (hrun : sa.inboundLoop leaves seen = .ok out) :
    out.map InboundSA.leaf = leaves ∧ (∀ e ∈ out, InboundSA.Of sa e) ∧
      (∀ e ∈ out, seen.get e.spi = none) ∧ (out.map InboundSA.spi).Nodup := by
  induction leaves generalizing seen out with
  | nil =>
      cases hrun
      simp
  | cons leaf rest ih =>
      simp only [SA.inboundLoop, bind_eq_ok] at hrun
      obtain ⟨spi, hspi, hrun⟩ := hrun
      split at hrun
      · exact absurd hrun fail_ne_ok
      next hunseen =>
        simp only [bind_eq_ok, pure_ok_iff] at hrun
        obtain ⟨salt, hsalt, out, hout, rfl⟩ := hrun
        obtain ⟨hleaves, hof, hfresh, hnodup⟩ := ih hout
        have hlater : ∀ e ∈ out, e.spi ≠ spi ∧ seen.get e.spi = none := by
          intro e he
          have hget := hfresh e he
          rw [GoMap.get_set] at hget
          split at hget
          · cases hget
          next hne => exact ⟨hne, hget⟩
        refine ⟨by rw [List.map_cons, hleaves], ?_, ?_, ?_⟩
        · intro e he
          rcases List.mem_cons.mp he with rfl | he
          · exact ⟨hspi, hsalt, rfl⟩
          · exact hof e he
        · intro e he
          rcases List.mem_cons.mp he with rfl | he
          · exact hunseen
          · exact (hlater e he).2
        · refine List.nodup_cons.mpr ⟨?_, hnodup⟩
          rintro hmem
          obtain ⟨e, he, heq⟩ := List.mem_map.mp hmem
          exact (hlater e he).1 heq

/-- There is an entry for every leaf, with its own index outside the reserved range and
its own salt, and no two entries form one nonce, whatever initialisation vectors follow. -/
structure SendersApart (leaves : List ℕ) (out : List InboundSA) : Prop where
  leaves_eq : out.map InboundSA.leaf = leaves
  spi_nodup : (out.map InboundSA.spi).Nodup
  spi_high : ∀ e ∈ out, 2 ^ 31 ≤ e.spi.toNat
  salt_nodup : (out.map InboundSA.salt).Nodup
  nonces : out.Pairwise fun e e' => ∀ iv iv' : Bytes,
    (e.key, e.salt ++ iv) ≠ (e'.key, e'.salt ++ iv')

theorem inboundSAs_apart {leaves : List ℕ}
    (hrun : sa.inboundSAs leaves = .ok out) : SendersApart leaves out := by
  obtain ⟨hleaves, hof, -, hspis⟩ := inboundLoop_eq_ok hrun
  have hsalts : out.Pairwise fun e e' => e.salt ≠ e'.salt := by
    refine List.Pairwise.imp_of_mem ?_ (List.pairwise_map.mp hspis)
    intro e e' he he' hspi hsalt
    have hsame := senderSPI_of_salt (hof e he).salt (hsalt ▸ (hof e' he').salt)
    rw [(hof e he).spi, (hof e' he').spi, Except.ok.injEq] at hsame
    exact hspi hsame
  refine ⟨hleaves, hspis, ?_, List.pairwise_map.mpr hsalts, ?_⟩
  · intro e he
    obtain ⟨raw, hraw⟩ := senderSPI_eq_ok (hof e he).spi
    rw [hraw]
    exact le_markSPI raw sa.epoch
  · refine List.Pairwise.imp_of_mem ?_ hsalts
    intro e e' he he' hne iv iv' heq
    -- salts have one length, so they are where the two nonces differ
    have hlength : e.salt.length = e'.salt.length := by
      rw [senderSalt_length (hof e he).salt, senderSalt_length (hof e' he').salt]
    exact hne (List.append_inj (Prod.mk.inj heq).2 hlength).1

/-! ## Two epochs at once -/

def saEpoch : Option SA → UInt64
  | none => 0
  | some sa => sa.epoch

def senderSPIOf : Option SA → ℕ → Result UInt32
  | none, _ => fail "ironcore: SA key not initialized (use DeriveSAKeys)"
  | some sa, leaf => sa.senderSPI leaf

def Controller.EpochsApart (c : Controller) : Prop :=
  ∀ leaf leaf' spi spi', senderSPIOf c.prevSA leaf = .ok spi →
    senderSPIOf c.curSA leaf' = .ok spi' → spi ≠ spi'

theorem senderSPIOf_mod {sa : Option SA} {spi : UInt32} (hspi : senderSPIOf sa leaf = .ok spi) :
    spi.toNat % 2 ^ 8 = (saEpoch sa).toNat % 2 ^ 8 := by
  cases sa with
  | none => exact absurd hspi fail_ne_ok
  | some sa =>
      obtain ⟨raw, rfl⟩ := senderSPI_eq_ok hspi
      exact markSPI_mod raw sa.epoch

namespace Controller

variable {S : Suite} {registry : UInt16 → Option Suite} {c c' : Controller}

structure Rotated (c c' : Controller) : Prop where
  previous : c'.prevSA = c.curSA
  current : saEpoch c'.curSA = c'.epoch
  epoch : c'.epoch = c.epoch + 1

theorem Rotated.apart (hrotated : Rotated c c')
    (hcurrent : saEpoch c.curSA = c.epoch) : c'.EpochsApart := by
  rintro leaf leaf' spi spi' hspi hspi' rfl
  have hprevious := senderSPIOf_mod hspi
  have hnext := senderSPIOf_mod hspi'
  rw [hrotated.previous, hcurrent] at hprevious
  rw [hrotated.current, hrotated.epoch, UInt64.toNat_add] at hnext
  have hone : (1 : UInt64).toNat = 1 := rfl
  omega

theorem rotated_of_step {g g' : Group} (hg : c.g = some g) (hstep : EpochStep S g g')
    (hderive : deriveSAKeys S registry g' c.cfg.vni = .ok sa) :
    Rotated c { c with g := some g', prevSA := c.curSA, hasPrev := true, curSA := some sa } := by
  refine ⟨rfl, deriveSAKeys_epoch S registry hderive, ?_⟩
  simp only [epoch, hg, hstep.epoch_eq]

theorem rotated_of_handleCommit {commitMsg : Bytes}
    (hrun : c.handleCommit S registry commitMsg = (.ok (), c')) :
    Rotated c c' := by
  unfold handleCommit at hrun
  split at hrun
  · cases hrun
  next g hg =>
    split at hrun
    · cases hrun
    · cases hrun
    · split at hrun
      next fault _ =>
        have hfailed : within "ironcore: HandleCommit: ProcessCommit"
            (.error fault : Result Unit) = .ok () := congrArg Prod.fst hrun
        rw [within_eq_ok] at hfailed
        cases hfailed
      next g' hprocess =>
        obtain ⟨sa, hderive, rfl⟩ := rotateSA_eq_ok hrun
        exact rotated_of_step hg (.processCommit _ _ hprocess) hderive

theorem rotated_of_commitAndOrder {g : Group} (hg : c.g = some g) {byValue : List Proposal}
    (hwon : (c.commitAndOrder S registry g byValue rnd).won = true)
    (herr : (c.commitAndOrder S registry g byValue rnd).err = none) :
    Rotated c (c.commitAndOrder S registry g byValue rnd).controller := by
  obtain ⟨res, sa, hcommit, hderive, hcontroller⟩ := commitAndOrder_won hwon herr
  rw [hcontroller]
  exact rotated_of_step hg (.commit _ _ hcommit) hderive

theorem rotated_of_rekey (hwon : (c.rekey S registry rnd).won = true)
    (herr : (c.rekey S registry rnd).err = none) :
    Rotated c (c.rekey S registry rnd).controller := by
  unfold rekey at hwon herr ⊢
  split at hwon
  · cases hwon
  next g hg =>
    split at hwon
    next hcommitter =>
      simp only [hg, hcommitter, if_true] at herr ⊢
      exact rotated_of_commitAndOrder hg hwon herr
    · cases hwon

theorem rotated_of_reconcile {desired : List Bytes}
    (hwon : (c.reconcile S registry desired rnd).result.won = true) :
    Rotated c (c.reconcile S registry desired rnd).controller := by
  obtain ⟨g, plan, hg, -, -, hwon, herr, hcontroller⟩ := reconcile_won hwon
  rw [hcontroller]
  exact rotated_of_commitAndOrder hg hwon herr

end Controller

/-- Senders of one epoch are apart wherever their associations can be installed,
and so are the two epochs a controller holds after a commit it applied or won;
its current association is then again that of its epoch. -/
theorem senders_and_epochs_apart :
    (∀ (sa : SA) leaves out, sa.inboundSAs leaves = .ok out → SendersApart leaves out) ∧
    ∀ (S : Suite) (registry : UInt16 → Option Suite) (c : Controller),
      saEpoch c.curSA = c.epoch →
      (∀ commitMsg, (c.handleCommit S registry commitMsg).1 = .ok () →
        (c.handleCommit S registry commitMsg).2.EpochsApart ∧
        saEpoch (c.handleCommit S registry commitMsg).2.curSA =
          (c.handleCommit S registry commitMsg).2.epoch) ∧
      (∀ rnd, (c.rekey S registry rnd).won = true →
        (c.rekey S registry rnd).err = none →
        (c.rekey S registry rnd).controller.EpochsApart ∧
        saEpoch (c.rekey S registry rnd).controller.curSA =
          (c.rekey S registry rnd).controller.epoch) ∧
      ∀ desired rnd, (c.reconcile S registry desired rnd).result.won = true →
        (c.reconcile S registry desired rnd).controller.EpochsApart ∧
        saEpoch (c.reconcile S registry desired rnd).controller.curSA =
          (c.reconcile S registry desired rnd).controller.epoch := by
  refine ⟨fun sa leaves out hrun => inboundSAs_apart hrun, ?_⟩
  intro S registry c hcurrent
  refine ⟨fun commitMsg hok => ?_, fun rnd hwon herr => ?_, fun desired rnd hwon => ?_⟩
  · have hrotated := Controller.rotated_of_handleCommit (c := c)
      (Prod.ext hok rfl : c.handleCommit S registry commitMsg = (.ok (), _))
    exact ⟨hrotated.apart hcurrent, hrotated.current⟩
  · have hrotated := Controller.rotated_of_rekey hwon herr
    exact ⟨hrotated.apart hcurrent, hrotated.current⟩
  · have hrotated := Controller.rotated_of_reconcile hwon
    exact ⟨hrotated.apart hcurrent, hrotated.current⟩

/-! ### A founder that rekeys -/

def foundingController : Result Controller := do
  let g ← newGroup plainSuite (vniGroupID 7) (.basic [1]) (some ⟨[1]⟩) ⟨0, 1⟩ ⟨[1, 1], [1, 2]⟩
  newController plainSuite (fun _ => some plainSuite)
    { silentConfig with ordering := fun _ _ _ => .ok true } (some g)

theorem senders_and_epochs_apart_founder :
    ∃ c sa out, foundingController = .ok c ∧ saEpoch c.curSA = c.epoch ∧
      c.curSA = some sa ∧ sa.inboundSAs [0, 1] = .ok out ∧ SendersApart [0, 1] out ∧
      (c.rekey plainSuite (fun _ => some plainSuite) silentRandomness).won = true ∧
      (c.rekey plainSuite (fun _ => some plainSuite) silentRandomness).controller.EpochsApart := by
  obtain ⟨c, hc, hcurrent, ⟨sa, hsa, out, hout⟩, hwon, herr⟩ : ∃ c, foundingController = .ok c ∧
      saEpoch c.curSA = c.epoch ∧ (∃ sa ∈ c.curSA, ∃ out, sa.inboundSAs [0, 1] = .ok out) ∧
      (c.rekey plainSuite (fun _ => some plainSuite) silentRandomness).won = true ∧
      (c.rekey plainSuite (fun _ => some plainSuite) silentRandomness).err = none := by
    decide +kernel
  obtain ⟨hsenders, hepochs⟩ := senders_and_epochs_apart
  exact ⟨c, sa, out, hc, hcurrent, hsa, hout, hsenders sa _ out hout, hwon,
    ((hepochs _ _ c hcurrent).2.1 _ hwon herr).1⟩

end MlsGo
