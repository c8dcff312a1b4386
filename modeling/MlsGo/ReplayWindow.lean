import MlsGo.GoOutcome

/-!
# The anti-replay window of a receiver

`replayWin` of `sim/client.go` keeps the highest sequence number it accepted and
the accepted numbers of the last few, and forgets the rest.  A receiver that
remembered every number it ever accepted would give the same answers: what the
window forgets stays below it for ever, because its upper end never moves back.
-/

namespace MlsGo.Sim

def replayWindow : UInt64 := 64

/-- `replayWin`.  The map `seen` holds `true` only and is kept as its keys. -/
structure ReplayWin where
  high : UInt64
  seen : List UInt64
  deriving DecidableEq, Repr

def newReplayWin : ReplayWin := { high := 0, seen := [] }

/-- The range loop of `accept`: drop what lies below the window of `high`. -/
def pruneSeen (high : UInt64) (seen : List UInt64) : List UInt64 :=
  seen.filter fun s => !decide (replayWindow ≤ high ∧ s < high - replayWindow)

def ReplayWin.accept (w : ReplayWin) (seq : UInt64) : Bool × ReplayWin :=
  if replayWindow ≤ w.high ∧ seq ≤ w.high - replayWindow then (false, w)
  else if seq ∈ w.seen then (false, w)
  else
    let high := if w.high < seq then seq else w.high
    (true, { high, seen := pruneSeen high (seq :: w.seen) })

/-! ## The receiver that remembers everything -/

def highest : List UInt64 → ℕ
  | [] => 0
  | seq :: earlier => max seq.toNat (highest earlier)

/-- What a receiver that never forgets lets through: numbers it has not accepted
and that are not at or below the lower end of the window. -/
def Admits (accepted : List UInt64) (seq : UInt64) : Prop :=
  seq ∉ accepted ∧ ¬(64 ≤ highest accepted ∧ seq.toNat ≤ highest accepted - 64)

variable {seq high : UInt64} {accepted : List UInt64}

theorem le_highest (hmem : seq ∈ accepted) : seq.toNat ≤ highest accepted := by
  induction accepted with
  | nil => cases hmem
  | cons head earlier ih =>
      rcases List.mem_cons.mp hmem with rfl | hearlier
      · exact le_max_left _ _
      · exact (ih hearlier).trans (le_max_right _ _)

/-! ## Sixty-four bit comparisons -/

theorem replayWindow_le : replayWindow ≤ high ↔ 64 ≤ high.toNat := UInt64.le_iff_toNat_le

theorem toNat_sub_replayWindow (hfull : replayWindow ≤ high) :
    (high - replayWindow).toNat = high.toNat - 64 := UInt64.toNat_sub_of_le _ _ hfull

theorem tooOld_iff :
    (replayWindow ≤ high ∧ seq ≤ high - replayWindow) ↔ seq.toNat + 64 ≤ high.toNat := by
  have hsub : replayWindow ≤ high → (seq ≤ high - replayWindow ↔ seq.toNat ≤ high.toNat - 64) := by
    intro hfull
    rw [UInt64.le_iff_toNat_le, toNat_sub_replayWindow hfull]
  rw [and_congr_right hsub, replayWindow_le]
  omega

theorem pruned_iff {s : UInt64} :
    (replayWindow ≤ high ∧ s < high - replayWindow) ↔ s.toNat + 64 < high.toNat := by
  have hsub : replayWindow ≤ high → (s < high - replayWindow ↔ s.toNat < high.toNat - 64) := by
    intro hfull
    rw [UInt64.lt_iff_toNat_lt, toNat_sub_replayWindow hfull]
  rw [and_congr_right hsub, replayWindow_le]
  omega

theorem mem_pruneSeen {s : UInt64} {seen : List UInt64} :
    s ∈ pruneSeen high seen ↔ s ∈ seen ∧ high.toNat ≤ s.toNat + 64 := by
  rw [pruneSeen, List.mem_filter, Bool.not_eq_true', decide_eq_false_iff_not, pruned_iff, not_lt]

theorem admits_iff : Admits accepted seq ↔ seq ∉ accepted ∧ highest accepted < seq.toNat + 64 := by
  unfold Admits
  constructor
  · rintro ⟨hnew, hold⟩
    exact ⟨hnew, by omega⟩
  · rintro ⟨hnew, hyoung⟩
    exact ⟨hnew, by omega⟩

/-! ## The window and the history -/

/-- The window knows the highest accepted number, and of the accepted numbers
those no further than its width below it. -/
structure ReplayWin.Tracks (w : ReplayWin) (accepted : List UInt64) : Prop where
  high : w.high.toNat = highest accepted
  seen : ∀ s, s ∈ w.seen ↔ s ∈ accepted ∧ highest accepted ≤ s.toNat + 64
  nodup : w.seen.Nodup
  once : accepted.Nodup

namespace ReplayWin

variable {w : ReplayWin} {accepted : List UInt64}

theorem tracks_new : newReplayWin.Tracks [] where
  high := rfl
  seen s := by simp [newReplayWin]
  nodup := List.nodup_nil
  once := List.nodup_nil

theorem accept_refused (htracks : w.Tracks accepted)
    (hrefused : ¬Admits accepted seq) : w.accept seq = (false, w) := by
  rw [admits_iff, ← htracks.high] at hrefused
  unfold ReplayWin.accept
  split
  next => rfl
  next hyoung =>
    rw [tooOld_iff] at hyoung
    -- inside the window nothing was forgotten, so a duplicate is still stored
    have hdup : seq ∈ accepted := by
      by_contra hnew
      exact hrefused ⟨hnew, by omega⟩
    have hseen : seq ∈ w.seen := (htracks.seen seq).mpr ⟨hdup, by rw [← htracks.high]; omega⟩
    rw [if_pos hseen]

theorem accept_admitted (htracks : w.Tracks accepted) (hadmits : Admits accepted seq) :
    (w.accept seq).1 = true ∧ (w.accept seq).2.Tracks (seq :: accepted) := by
  obtain ⟨hnew, hyoung⟩ := admits_iff.mp hadmits
  have hnotOld : ¬(replayWindow ≤ w.high ∧ seq ≤ w.high - replayWindow) := by
    rw [tooOld_iff, htracks.high]
    omega
  have hunseen : seq ∉ w.seen := fun hseen => hnew ((htracks.seen seq).mp hseen).1
  have hhigh : (if w.high < seq then seq else w.high).toNat = highest (seq :: accepted) := by
    rw [highest, ← htracks.high]
    split
    next hlt => exact (max_eq_left (UInt64.lt_iff_toNat_lt.mp hlt).le).symm
    next hge => exact (max_eq_right (UInt64.le_iff_toNat_le.mp (UInt64.not_lt.mp hge))).symm
  simp only [ReplayWin.accept, if_neg hnotOld, if_neg hunseen, true_and]
  have hstored : (seq :: w.seen).Nodup := List.nodup_cons.mpr ⟨hunseen, htracks.nodup⟩
  refine ⟨hhigh, fun s => ?_, List.Nodup.filter _ hstored,
    List.nodup_cons.mpr ⟨hnew, htracks.once⟩⟩
  rw [mem_pruneSeen, hhigh, List.mem_cons, List.mem_cons, htracks.seen s]
  -- what was forgotten before is below the new lower end as well
  have hgrows : highest accepted ≤ highest (seq :: accepted) := le_max_right _ _
  constructor
  · rintro ⟨rfl | hs, hkept⟩
    · exact ⟨.inl rfl, hkept⟩
    · exact ⟨.inr hs.1, hkept⟩
  · rintro ⟨rfl | hs, hkept⟩
    · exact ⟨.inl rfl, hkept⟩
    · exact ⟨.inr ⟨hs, hgrows.trans hkept⟩, hkept⟩

theorem Tracks.length_le (htracks : w.Tracks accepted) : w.seen.length ≤ 65 := by
  have hinterval : (w.seen.map UInt64.toNat).toFinset ⊆
      Finset.Icc (highest accepted - 64) (highest accepted) := by
    intro n hn
    obtain ⟨s, hs, rfl⟩ := List.mem_map.mp (List.mem_toFinset.mp hn)
    obtain ⟨haccepted, hkept⟩ := (htracks.seen s).mp hs
    have hle := le_highest haccepted
    rw [Finset.mem_Icc]
    omega
  have hnodup : (w.seen.map UInt64.toNat).Nodup :=
    htracks.nodup.map fun _ _ heq => UInt64.toNat_inj.mp heq
  calc w.seen.length = (w.seen.map UInt64.toNat).toFinset.card := by
        rw [List.toFinset_card_of_nodup hnodup, List.length_map]
    _ ≤ (Finset.Icc (highest accepted - 64) (highest accepted)).card :=
        Finset.card_le_card hinterval
    _ ≤ 65 := by
        rw [Nat.card_Icc]
        omega

/-! ## Whole streams -/

def feed (state : ReplayWin × List UInt64) (seq : UInt64) :
    ReplayWin × List UInt64 :=
  let (ok, w) := state.1.accept seq
  (w, if ok then seq :: state.2 else state.2)

/-- A fresh window after a stream of numbers, and what it accepted of them. -/
def afterStream (fed : List UInt64) : ReplayWin × List UInt64 := fed.foldl feed (newReplayWin, [])

theorem Tracks.feed {state : ReplayWin × List UInt64}
    (htracks : state.1.Tracks state.2) (seq : UInt64) :
    (ReplayWin.feed state seq).1.Tracks (ReplayWin.feed state seq).2 := by
  by_cases hadmits : Admits state.2 seq
  · obtain ⟨hok, hnext⟩ := accept_admitted htracks hadmits
    simpa [ReplayWin.feed, hok] using hnext
  · simpa [ReplayWin.feed, accept_refused htracks hadmits] using htracks

theorem afterStream_tracks (fed : List UInt64) : (afterStream fed).1.Tracks (afterStream fed).2 :=
  List.foldlRecOn fed (motive := fun state => state.1.Tracks state.2)
    ReplayWin.feed tracks_new fun _ htracks seq _ => Tracks.feed htracks seq

theorem accept_iff (htracks : w.Tracks accepted) :
    (w.accept seq).1 = true ↔ Admits accepted seq := by
  by_cases hadmits : Admits accepted seq
  · exact iff_of_true (accept_admitted htracks hadmits).1 hadmits
  · rw [accept_refused htracks hadmits]
    exact iff_of_false Bool.false_ne_true hadmits

/-- After any stream the window answers as the receiver that never forgets, has
accepted no number twice, and stores at most sixty-five different numbers. -/
theorem window_refines_history (fed : List UInt64) :
    (∀ seq, ((afterStream fed).1.accept seq).1 = true ↔
      seq ∉ (afterStream fed).2 ∧
        ¬(64 ≤ highest (afterStream fed).2 ∧ seq.toNat ≤ highest (afterStream fed).2 - 64)) ∧
    (afterStream fed).2.Nodup ∧
    (afterStream fed).1.seen.Nodup ∧ (afterStream fed).1.seen.length ≤ 65 := by
  have htracks := afterStream_tracks fed
  exact ⟨fun _ => accept_iff htracks, htracks.once, htracks.nodup, htracks.length_le⟩

-- The sixty-fifth number is stored, but would be refused even if it were not.
example :
    (afterStream ((List.range 65).map UInt64.ofNat)).1.seen.length = 65 ∧
      ((afterStream ((List.range 65).map UInt64.ofNat)).1.accept 0).1 = false := by
  decide +kernel

end ReplayWin
end MlsGo.Sim
