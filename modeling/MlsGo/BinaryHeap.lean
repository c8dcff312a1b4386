import Mathlib.Order.Basic
import Mathlib.Data.List.Perm.Basic
import Mathlib.Tactic

/-!
# Binary heaps

A heap in an array, ordered by a key: the children of the entry `i` are the entries
`2 * i + 1` and `2 * i + 2`, and none is before its parent.  `push` appends an entry and lets
it rise, `pop` swaps the first entry with the last, lets the new first one sink and cuts
the last off.  Both loops leave a heap with the same entries, and what `pop` returns comes first.
-/

namespace BinaryHeap

variable {α β : Type*} [LinearOrder β] (key : α → β) {h : Array α} {i : ℕ}

def up (h : Array α) (j : ℕ) (hj : j < h.size) : Array α :=
  if j = 0 then h
  else
    have hi : (j - 1) / 2 < h.size := by omega
    if key h[j] < key h[(j - 1) / 2] then
      up (h.swap ((j - 1) / 2) j) ((j - 1) / 2) (by simpa using hi)
    else h
termination_by j
decreasing_by omega

def lowerChild (h : Array α) (i n : ℕ) (hn : n ≤ h.size) (_hchild : 2 * i + 1 < n) : ℕ :=
  if hright : 2 * i + 2 < n then
    if key h[2 * i + 2] < key h[2 * i + 1] then 2 * i + 2 else 2 * i + 1
  else 2 * i + 1

theorem lowerChild_eq (h : Array α) (i n : ℕ) (hn : n ≤ h.size) (hchild : 2 * i + 1 < n) :
    lowerChild key h i n hn hchild = 2 * i + 1 ∨
      lowerChild key h i n hn hchild = 2 * i + 2 ∧ 2 * i + 2 < n := by
  unfold lowerChild
  split <;> [split; skip] <;> simp_all

def down (h : Array α) (i n : ℕ) (hn : n ≤ h.size) : Array α :=
  if hchild : 2 * i + 1 < n then
    have hj := lowerChild_eq key h i n hn hchild
    if key h[lowerChild key h i n hn hchild] < key h[i] then
      down (h.swap i (lowerChild key h i n hn hchild)) (lowerChild key h i n hn hchild) n
        (by simpa using hn)
    else h
  else h
termination_by n - i
decreasing_by omega

def push (h : Array α) (x : α) : Array α := up key (h.push x) h.size (by simp)

def pop (h : Array α) (hne : 0 < h.size) : α × Array α :=
  have hlast : h.size - 1 < h.size := by omega
  (h[0], (down key (h.swap 0 (h.size - 1)) 0 (h.size - 1) (by simp)).pop)

/-! ## Entries -/

theorem up_perm (h : Array α) (j : ℕ) (hj : j < h.size) : (up key h j hj).Perm h := by
  fun_induction up key h j hj with
  | case1 => exact .refl _
  | case2 h j hj hne hi hlt ih => exact ih.trans (Array.swap_perm _ _)
  | case3 => exact .refl _

theorem down_perm (h : Array α) (i n : ℕ) (hn : n ≤ h.size) : (down key h i n hn).Perm h := by
  fun_induction down key h i n hn with
  | case1 h i hn hchild hj hlt ih => exact ih.trans (Array.swap_perm _ _)
  | case2 => exact .refl _
  | case3 => exact .refl _

/-! ## Order -/

def IsChild (c p : ℕ) : Prop := c = 2 * p + 1 ∨ c = 2 * p + 2

def Ordered (n : ℕ) (h : Array α) : Prop :=
  ∀ p c (hp : p < h.size) (hc : c < h.size), IsChild c p → c < n → key h[p] ≤ key h[c]

/-- Only the entry `j` may be before its parent, and the parent of `j` is not after the
children of `j`. -/
structure RisesAt (h : Array α) (j : ℕ) : Prop where
  others : ∀ p c (hp : p < h.size) (hc : c < h.size), IsChild c p → c ≠ j → key h[p] ≤ key h[c]
  across : ∀ g c (hg : g < h.size) (hc : c < h.size), IsChild j g → IsChild c j →
    key h[g] ≤ key h[c]

/-- Among the first `n` entries only children of `i` may be before their parent, and none
of them is before the parent of `i`. -/
structure SinksAt (h : Array α) (i n : ℕ) : Prop where
  others : ∀ p c (hp : p < h.size) (hc : c < h.size), IsChild c p → c < n → p ≠ i →
    key h[p] ≤ key h[c]
  across : ∀ g c (hg : g < h.size) (hc : c < h.size), IsChild i g → IsChild c i → c < n →
    key h[g] ≤ key h[c]

variable {key}

theorem RisesAt.swap {j : ℕ} (hrises : RisesAt key h j) (hj : j < h.size)
    (hne : j ≠ 0) (hi : (j - 1) / 2 < h.size) (hlt : key h[j] < key h[(j - 1) / 2]) :
    RisesAt key (h.swap ((j - 1) / 2) j) ((j - 1) / 2) := by
  have hchild : IsChild j ((j - 1) / 2) := by
    unfold IsChild
    omega
  generalize (j - 1) / 2 = i at *
  obtain ⟨hothers, hacross⟩ := hrises
  constructor
  · intro p c hp hc hpc hci
    simp only [Array.size_swap] at hp hc
    simp only [Array.getElem_swap]
    have hsame := hothers p c hp hc hpc
    have hbelow := hacross i c hi hc hchild
    grind [IsChild]
  · intro g c hg hc hgi hci
    simp only [Array.size_swap] at hg hc
    simp only [Array.getElem_swap]
    have habove := hothers g i hg hi hgi
    have hbelow := hothers i c hi hc hci
    grind [IsChild]

theorem up_ordered (h : Array α) (j : ℕ) (hj : j < h.size) (hrises : RisesAt key h j) :
    Ordered key h.size (up key h j hj) := by
  fun_induction up key h j hj with
  | case1 h hj =>
      intro p c hp hc hpc _
      refine hrises.others p c hp hc hpc ?_
      unfold IsChild at hpc
      omega
  | case2 h j hj hne hi hlt ih =>
      have := ih (hrises.swap hj hne hi hlt)
      rwa [Array.size_swap] at this
  | case3 h j hj hne hi hge =>
      intro p c hp hc hpc _
      by_cases hcj : c = j
      · subst hcj
        have hparent : p = (c - 1) / 2 := by
          unfold IsChild at hpc
          omega
        subst hparent
        exact not_lt.mp hge
      · exact hrises.others p c hp hc hpc hcj

theorem lowerChild_le {n c : ℕ} (hn : n ≤ h.size) (hchild : 2 * i + 1 < n)
    (hl : lowerChild key h i n hn hchild < h.size) (hc : c < h.size) (hci : IsChild c i)
    (hcn : c < n) : key h[lowerChild key h i n hn hchild] ≤ key h[c] := by
  grind [IsChild, lowerChild]

theorem SinksAt.swap {n j : ℕ} (hsinks : SinksAt key h i n) (hi : i < h.size)
    (hj : j < h.size) (hji : IsChild j i) (hjn : j < n) (hlt : key h[j] < key h[i])
    (hleast : ∀ c (hc : c < h.size), IsChild c i → c < n → key h[j] ≤ key h[c]) :
    SinksAt key (h.swap i j) j n := by
  obtain ⟨hothers, hacross⟩ := hsinks
  constructor
  · intro p c hp hc hpc hcn hpj
    simp only [Array.size_swap] at hp hc
    simp only [Array.getElem_swap]
    have hsame := hothers p c hp hc hpc hcn
    have habove := hacross p j hp hj
    have hsibling := hleast c hc
    grind [IsChild]
  · intro g c hg hc hgj hcj hcn
    simp only [Array.size_swap] at hg hc
    simp only [Array.getElem_swap]
    have hbelow := hothers j c hj hc hcj hcn
    grind [IsChild]

theorem down_ordered (h : Array α) (i n : ℕ) (hn : n ≤ h.size) (hsinks : SinksAt key h i n) :
    Ordered key n (down key h i n hn) := by
  fun_induction down key h i n hn with
  | case1 h i hn hchild hj hlt ih =>
      refine ih (hsinks.swap (by omega) (by omega) ?_ (by omega) hlt ?_)
      · unfold IsChild
        omega
      · intro c hc hci hcn
        exact lowerChild_le hn hchild (by omega) hc hci hcn
  | case2 h i hn hchild hj hge =>
      intro p c hp hc hpc hcn
      by_cases hpi : p = i
      · subst hpi
        exact (not_lt.mp hge).trans (lowerChild_le hn hchild (by omega) hc hpc hcn)
      · exact hsinks.others p c hp hc hpc hcn hpi
  | case3 h i hn hleaf =>
      intro p c hp hc hpc hcn
      refine hsinks.others p c hp hc hpc hcn ?_
      unfold IsChild at hpc
      omega

/-! ## Operations -/

theorem push_perm (h : Array α) (x : α) : (push key h x).toList.Perm (x :: h.toList) := by
  have hperm := (up_perm key (h.push x) h.size (by simp)).toList
  rw [Array.toList_push] at hperm
  exact hperm.trans (List.perm_append_singleton x h.toList)

theorem push_ordered (h : Array α) (x : α) (hordered : Ordered key h.size h) :
    Ordered key (push key h x).size (push key h x) := by
  have hrises : RisesAt key (h.push x) h.size := by
    constructor
    · intro p c hp hc hpc hne
      rw [Array.size_push] at hp hc
      have hc' : c < h.size := by omega
      have hp' : p < h.size := by
        unfold IsChild at hpc
        omega
      rw [Array.getElem_push_lt hc', Array.getElem_push_lt hp']
      exact hordered p c hp' hc' hpc hc'
    · intro g c hg hc hg' hchild
      rw [Array.size_push] at hc
      unfold IsChild at hchild
      omega
  have hsize := (up_perm key (h.push x) h.size (by simp)).size_eq
  intro p c hp hc hpc hlt
  exact up_ordered (h.push x) h.size (by simp) hrises p c hp hc hpc (hsize ▸ hlt)

theorem Ordered.first_le (hordered : Ordered key h.size h) (hne : 0 < h.size) (hi : i < h.size) :
    key h[0] ≤ key h[i] := by
  induction i using Nat.strong_induction_on with
  | h i ih =>
      by_cases hzero : i = 0
      · subst hzero
        exact le_rfl
      · have hparent : (i - 1) / 2 < h.size := by omega
        have hchild : IsChild i ((i - 1) / 2) := by
          unfold IsChild
          omega
        exact (ih ((i - 1) / 2) (by omega) hparent).trans
          (hordered ((i - 1) / 2) i hparent hi hchild hi)

theorem pop_first (hordered : Ordered key h.size h) (hne : 0 < h.size) {x : α}
    (hx : x ∈ h.toList) : key (pop key h hne).1 ≤ key x := by
  obtain ⟨i, hi, rfl⟩ := List.getElem_of_mem hx
  exact hordered.first_le hne (by simpa using hi)

theorem down_getElem? (h : Array α) (i n : ℕ) (hn : n ≤ h.size) {k : ℕ} (hk : n ≤ k) :
    (down key h i n hn)[k]? = h[k]? := by
  fun_induction down key h i n hn with
  | case1 h i hn hchild hj hlt ih =>
      rw [ih, Array.getElem?_swap, if_neg (by omega), if_neg (by omega)]
  | case2 => rfl
  | case3 => rfl

theorem pop_perm (h : Array α) (hne : 0 < h.size) :
    ((pop key h hne).1 :: (pop key h hne).2.toList).Perm h.toList := by
  have hlast : h.size - 1 < h.size := by omega
  have hn : h.size - 1 ≤ (h.swap 0 (h.size - 1)).size := by simp
  let d := down key (h.swap 0 (h.size - 1)) 0 (h.size - 1) hn
  have hd : d.Perm h := (down_perm key _ 0 _ hn).trans (Array.swap_perm _ _)
  have hget : d.toList.getLast? = some h[0] := by
    rw [List.getLast?_eq_getElem?, Array.length_toList, hd.size_eq, Array.getElem?_toList,
      down_getElem? _ 0 _ hn le_rfl, Array.getElem?_swap, if_pos rfl]
  have hsplit : d.pop.toList ++ [h[0]] = d.toList := by
    rw [Array.toList_pop]
    exact List.dropLast_append_getLast? _ hget
  exact (List.perm_append_singleton h[0] d.pop.toList).symm.trans (hsplit ▸ hd.toList)

theorem pop_ordered (h : Array α) (hne : 0 < h.size) (hordered : Ordered key h.size h) :
    Ordered key (pop key h hne).2.size (pop key h hne).2 := by
  have hlast : h.size - 1 < h.size := by omega
  have hn : h.size - 1 ≤ (h.swap 0 (h.size - 1)).size := by simp
  have hsinks : SinksAt key (h.swap 0 (h.size - 1)) 0 (h.size - 1) := by
    constructor
    · intro p c hp hc hpc hcn hpne
      simp only [Array.size_swap] at hp hc
      have hp' : p < h.size - 1 := by
        unfold IsChild at hpc
        omega
      have hc' : c ≠ 0 := by
        unfold IsChild at hpc
        omega
      simp only [Array.getElem_swap, if_neg hpne, if_neg hp'.ne, if_neg hc', if_neg hcn.ne]
      exact hordered p c hp hc hpc hc
    · intro g c hg hc hparent
      unfold IsChild at hparent
      omega
  have hdown := down_ordered _ 0 _ hn hsinks
  intro p c hp hc hpc _
  simp only [pop, Array.size_pop] at hp hc ⊢
  simp only [Array.getElem_pop]
  have hsize := ((down_perm key _ 0 _ hn).trans (Array.swap_perm (by omega) hlast)).size_eq
  exact hdown p c (by omega) (by omega) hpc (by omega)

end BinaryHeap
