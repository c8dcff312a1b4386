import MlsGo.VniController

/-!
# Choosing a branch after a fork

`sequencer/tiebreak.go` and `recovery.go`: members that lost a race learn of the
competing commits in any order and each on its own has to pick the same one.
The commit whose hash, followed by its reference, comes first in byte order is
the canonical one; hashes have one length, so two references never compare as
equal even when their hashes collide.
-/

namespace MlsGo

variable (S : Suite) {refs : List Bytes} {others : List Bytes}

/-! ## The tie-break -/

def bytesCompare : Bytes → Bytes → Ordering
  | [], [] => .eq
  | [], _ :: _ => .lt
  | _ :: _, [] => .gt
  | a :: as, b :: bs => if a < b then .lt else if b < a then .gt else bytesCompare as bs

def tieKey (ref : Bytes) : Bytes := S.hash ref ++ ref

/-- The body of the loop of `CanonicalCommit`: the best candidate so far and its
key.  A nil slice is `none`; it has no bytes. -/
def keepLower (state : Option Bytes × Bytes) (candidate : Option Bytes) :
    Option Bytes × Bytes :=
  let key := tieKey S (candidate.getD [])
  if state.1 = none ∨ bytesCompare key state.2 = .lt then (candidate, key)
  else state

def canonicalCommit (candidates : List (Option Bytes)) : Option Bytes :=
  (candidates.foldl (keepLower S) (none, [])).1

/-! ## Byte order -/

theorem bytesCompare_eq_lt : ∀ {a b : Bytes}, bytesCompare a b = .lt ↔ a < b
  | [], [] => by simp [bytesCompare]
  | [], _ :: _ => by simp [bytesCompare]
  | _ :: _, [] => by simp [bytesCompare]
  | a :: as, b :: bs => by
      rw [List.cons_lt_cons_iff, bytesCompare]
      split
      next hlt => simp [hlt]
      next hge =>
        split
        next hgt =>
          have hne : a ≠ b := (UInt8.ne_of_lt hgt).symm
          simp [hge, hne]
        next hle =>
          have heq : a = b := UInt8.le_antisymm (UInt8.not_lt.mp hle) (UInt8.not_lt.mp hge)
          simp [heq, bytesCompare_eq_lt]

variable {S}

theorem tieKey_inj (hlength : ∀ a b, (S.hash a).length = (S.hash b).length)
    {ref other : Bytes} (hkey : tieKey S ref = tieKey S other) : ref = other :=
  (List.append_inj hkey (hlength ref other)).2

/-! ## What the loop keeps -/

/-- `low` is one of `refs`, and none of them has a lower key. -/
structure Lowest (S : Suite) (refs : List Bytes) (low : Bytes) : Prop where
  mem : low ∈ refs
  le : ∀ ref ∈ refs, tieKey S low ≤ tieKey S ref

theorem Lowest.unique (hlength : ∀ a b, (S.hash a).length = (S.hash b).length)
    (hsame : ∀ ref, ref ∈ others ↔ ref ∈ refs)
    {low low' : Bytes} (hlow : Lowest S refs low) (hlow' : Lowest S others low') :
    low' = low :=
  tieKey_inj hlength <| List.le_antisymm (hlow'.le low ((hsame low).mpr hlow.mem))
    (hlow.le low' ((hsame low').mp hlow'.mem))

theorem keepLower_some (best ref : Bytes) :
    ∃ low, keepLower S (some best, tieKey S best) (some ref) =
        (some low, tieKey S low) ∧ (low = best ∨ low = ref) ∧
      tieKey S low ≤ tieKey S best ∧ tieKey S low ≤ tieKey S ref := by
  by_cases hlt : tieKey S ref < tieKey S best
  · refine ⟨ref, ?_, .inr rfl, List.le_of_lt hlt, List.le_refl _⟩
    simp [keepLower, bytesCompare_eq_lt, hlt]
  · refine ⟨best, ?_, .inl rfl, List.le_refl _, List.not_lt.mp hlt⟩
    simp [keepLower, bytesCompare_eq_lt, hlt]

theorem keepLower_foldl (refs : List Bytes) (best : Bytes) :
    ∃ low, (refs.map some).foldl (keepLower S) (some best, tieKey S best) =
        (some low, tieKey S low) ∧ Lowest S (best :: refs) low := by
  induction refs generalizing best with
  | nil => exact ⟨best, rfl, by simp, by simp⟩
  | cons ref rest ih =>
      obtain ⟨next, hnext, hfrom, hbest, href⟩ := keepLower_some (S := S) best ref
      obtain ⟨low, hlow, hlowest⟩ := ih next
      refine ⟨low, ?_, ?_, ?_⟩
      · rw [List.map_cons, List.foldl_cons, hnext, hlow]
      · rcases List.mem_cons.mp hlowest.mem with rfl | hrest
        · rcases hfrom with rfl | rfl <;> simp
        · simp [hrest]
      · have hnextLe := hlowest.le next (by simp)
        intro other hother
        rcases List.mem_cons.mp hother with rfl | hother
        · exact List.le_trans hnextLe hbest
        rcases List.mem_cons.mp hother with rfl | hother
        · exact List.le_trans hnextLe href
        · exact hlowest.le other (List.mem_cons_of_mem _ hother)

theorem canonicalCommit_lowest (hrefs : refs ≠ []) :
    ∃ low, canonicalCommit S (refs.map some) = some low ∧ Lowest S refs low := by
  obtain ⟨first, rest, rfl⟩ := List.exists_cons_of_ne_nil hrefs
  obtain ⟨low, hfold, hlowest⟩ := keepLower_foldl (S := S) rest first
  have hfirst : keepLower S (none, []) (some first) = (some first, tieKey S first) := by
    simp [keepLower]
  refine ⟨low, ?_, hlowest⟩
  rw [canonicalCommit, List.map_cons, List.foldl_cons, hfirst, hfold]

theorem canonicalCommit_same_set (hlength : ∀ a b, (S.hash a).length = (S.hash b).length)
    (hrefs : refs ≠ []) (hsame : ∀ ref, ref ∈ others ↔ ref ∈ refs) :
    canonicalCommit S (others.map some) = canonicalCommit S (refs.map some) := by
  obtain ⟨low, hlow, hlowest⟩ := canonicalCommit_lowest (S := S) hrefs
  have hothers : others ≠ [] := by
    rintro rfl
    exact List.not_mem_nil ((hsame low).mpr hlowest.mem)
  obtain ⟨low', hlow', hlowest'⟩ := canonicalCommit_lowest (S := S) hothers
  rw [hlow, hlow', hlowest.unique hlength hsame hlowest']

/-- The canonical commit is one of the candidates, none of which has a lower
key, and depends only on which references there are. -/
theorem canonicalCommit_order_free (hlength : ∀ a b, (S.hash a).length = (S.hash b).length)
    {refs : List Bytes} (hrefs : refs ≠ []) :
    ∃ low ∈ refs, canonicalCommit S (refs.map some) = some low ∧
      (∀ ref ∈ refs, S.hash low ++ low ≤ S.hash ref ++ ref) ∧
      (∀ others : List Bytes, others.Perm refs → canonicalCommit S (others.map some) = some low) ∧
      ∀ others : List Bytes, (∀ ref, ref ∈ others ↔ ref ∈ refs) →
        canonicalCommit S (others.map some) = some low := by
  obtain ⟨low, hlow, hlowest⟩ := canonicalCommit_lowest (S := S) hrefs
  have hset : ∀ others : List Bytes, (∀ ref, ref ∈ others ↔ ref ∈ refs) →
      canonicalCommit S (others.map some) = some low := fun others hsame =>
    (canonicalCommit_same_set hlength hrefs hsame).trans hlow
  exact ⟨low, hlowest.mem, hlow, hlowest.le,
    fun others hperm => hset others fun _ => hperm.mem_iff, hset⟩

/-- Two references whose hashes collide, one of them listed twice. -/
theorem canonicalCommit_order_free_collision :
    plainSuite.hash [0] = plainSuite.hash [0, 65] ∧
    ∃ low ∈ [[0, 65], [0], [0, 65]],
      canonicalCommit plainSuite ([[0, 65], [0], [0, 65]].map some) = some low ∧
      (∀ ref ∈ [[0, 65], [0], [0, 65]], plainSuite.hash low ++ low ≤ plainSuite.hash ref ++ ref) ∧
      (∀ others : List Bytes, others.Perm [[0, 65], [0], [0, 65]] →
        canonicalCommit plainSuite (others.map some) = some low) ∧
      ∀ others : List Bytes, (∀ ref, ref ∈ others ↔ ref ∈ [[0, 65], [0], [0, 65]]) →
        canonicalCommit plainSuite (others.map some) = some low :=
  ⟨by decide, canonicalCommit_order_free (fun _ _ => rfl) (by decide)⟩

/-! ## Recovery -/

structure VniGroup where
  vni : UInt32
  g : Group

def errRecoverySuperseded : Err := .text "ironcore: recovery superseded by a concurrent winner"

variable (S)

/-- `RecoverViaExternalCommit`: what it returns, and the group it leaves.
`fetchGI` may return a nil `GroupInfo`, which is dereferenced. -/
def recoverViaExternalCommit (v : VniGroup) (candidates : List (Option Bytes))
    (fetchGI : Bytes → Except Err (Option GroupInfo)) (ordering : AcceptCommit)
    (cred : Credential) (signer : Option Signer) (lifetime : Lifetime)
    (rnd : ExternalRandomness) : Result Bytes × VniGroup :=
  let attempt : Result (Group × Bytes) := do
    let canonical ← match canonicalCommit S candidates with
      | some canonical => pure canonical
      | none => fail "ironcore: RecoverViaExternalCommit: no candidate branches"
    let gi ← within "ironcore: RecoverViaExternalCommit: fetch canonical GroupInfo"
      (liftErr (fetchGI canonical))
    let gi ← match gi with
      | some gi => pure gi
      | none => .error .panic
    let (newGroup, commitMsg) ←
      within "ironcore: RecoverViaExternalCommit: ExternalCommit"
        (externalCommit S gi cred signer lifetime rnd)
    let ok ← within "ironcore: RecoverViaExternalCommit: AcceptCommit"
      (liftErr (ordering (vniGroupID v.vni) gi.groupContext.epoch (S.hash commitMsg)))
    if ok then return (newGroup, commitMsg)
    else .error (.err errRecoverySuperseded)
  match attempt with
  | .ok (newGroup, commitMsg) => (.ok commitMsg, { v with g := newGroup })
  | .error fault => (.error fault, v)

end MlsGo
