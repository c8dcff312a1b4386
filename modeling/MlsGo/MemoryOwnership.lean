import MlsGo.GroupMemory

/-!
# Working trees in memory

A tree that was allocated after a memory `m₀` can be changed in place without
touching anything of `m₀`: its slots hold addresses beyond those of `m₀`, no two
of them the same.  Under this condition every operation in place does to the
tree what the function on values does.
-/

namespace MlsGo

open InPlacePrograms

namespace Memory

variable {m₀ m₁ m m' : Memory} {a i q : ℕ} {t : RatchetTree}

structure Keeps (m₀ m : Memory) : Prop where
  nodes : m₀.nodes <+: m.nodes
  trees : m₀.trees <+: m.trees
  privs : m₀.privs <+: m.privs
  group : m.group = m₀.group

theorem Keeps.refl (m : Memory) : Keeps m m :=
  ⟨List.prefix_rfl, List.prefix_rfl, List.prefix_rfl, rfl⟩

theorem Keeps.trans (hfirst : Keeps m₀ m₁) (hsecond : Keeps m₁ m) : Keeps m₀ m :=
  ⟨hfirst.nodes.trans hsecond.nodes, hfirst.trees.trans hsecond.trees,
    hfirst.privs.trans hsecond.privs, hsecond.group.trans hfirst.group⟩

def InBounds (m : Memory) (a : ℕ) : Prop :=
  a < m.trees.length ∧ ∀ q, some q ∈ m.slots a → q < m.nodes.length

theorem Keeps.slots_eq (hkeep : Keeps m₀ m) (ha : a < m₀.trees.length) :
    m.slots a = m₀.slots a := by
  simp only [slots, List.getD_eq_getElem?_getD, getElem?_of_isPrefix hkeep.trees ha]

theorem Keeps.load_eq (hkeep : Keeps m₀ m) {slot : Option ℕ}
    (hslot : ∀ q, slot = some q → q < m₀.nodes.length) :
    m.load slot = m₀.load slot := by
  cases slot with
  | none => rfl
  | some q => exact getElem?_of_isPrefix hkeep.nodes (hslot q rfl)

theorem Keeps.tree_eq (hkeep : Keeps m₀ m) (hin : m₀.InBounds a) : m.tree a = m₀.tree a := by
  rw [tree, tree, hkeep.slots_eq hin.1]
  congr 1
  apply List.map_congr_left
  intro slot hslot
  exact hkeep.load_eq fun q hq => hin.2 q (hq ▸ hslot)

theorem Keeps.inBounds (hkeep : Keeps m₀ m) (hin : m₀.InBounds a) : m.InBounds a := by
  refine ⟨hin.1.trans_le hkeep.trees.length_le, fun q hq => ?_⟩
  rw [hkeep.slots_eq hin.1] at hq
  exact (hin.2 q hq).trans_le hkeep.nodes.length_le

theorem Keeps.priv_eq (hkeep : Keeps m₀ m) {b : ℕ} (hb : b < m₀.privs.length) :
    m.priv b = m₀.priv b := by
  simp only [priv, List.getD_eq_getElem?_getD, getElem?_of_isPrefix hkeep.privs hb]

structure Valid (m : Memory) : Prop where
  tree : m.InBounds m.group.tree
  priv : m.group.priv < m.privs.length

theorem Keeps.valid (hkeep : Keeps m₀ m) (hvalid : m₀.Valid) : m.Valid := by
  constructor
  · rw [hkeep.group]
    exact hkeep.inBounds hvalid.tree
  · rw [hkeep.group]
    exact hvalid.priv.trans_le hkeep.privs.length_le

theorem Keeps.view_eq (hkeep : Keeps m₀ m) (hvalid : m₀.Valid) : m.view = m₀.view := by
  have htree : m.tree m₀.group.tree = m₀.tree m₀.group.tree := hkeep.tree_eq hvalid.tree
  have hpriv : m.priv m₀.group.priv = m₀.priv m₀.group.priv := hkeep.priv_eq hvalid.priv
  simp only [view, hkeep.group, htree, hpriv]

/-! ## Owned trees -/

def Distinct (slots : List (Option ℕ)) : Prop :=
  ∀ i j q : ℕ, slots[i]? = some (some q) → slots[j]? = some (some q) → i = j

structure Owns (m₀ m : Memory) (a : ℕ) (t : RatchetTree) : Prop where
  kept : Keeps m₀ m
  fresh : m₀.trees.length ≤ a
  lt : a < m.trees.length
  tree_eq : m.tree a = t
  range : ∀ q, some q ∈ m.slots a → m₀.nodes.length ≤ q ∧ q < m.nodes.length
  distinct : Distinct (m.slots a)

theorem Owns.inBounds (ho : Owns m₀ m a t) : m.InBounds a := ⟨ho.lt, fun q hq => (ho.range q hq).2⟩

theorem Owns.nodes_eq (ho : Owns m₀ m a t) : (m.slots a).map m.load = t.nodes := by
  rw [← ho.tree_eq]
  rfl

theorem Owns.length_eq (ho : Owns m₀ m a t) : (m.slots a).length = t.nodes.length := by
  rw [← ho.nodes_eq, List.length_map]

theorem Owns.of_keeps (ho : Owns m₀ m₁ a t) (hkeep : Keeps m₁ m) : Owns m₀ m a t := by
  have hslots := hkeep.slots_eq ho.lt
  refine ⟨ho.kept.trans hkeep, ho.fresh, ho.lt.trans_le hkeep.trees.length_le,
    (hkeep.tree_eq ho.inBounds).trans ho.tree_eq, ?_, ?_⟩
  · intro q hq
    rw [hslots] at hq
    obtain ⟨hlow, hhigh⟩ := ho.range q hq
    exact ⟨hlow, hhigh.trans_le hkeep.nodes.length_le⟩
  · rw [hslots]
    exact ho.distinct

/-! ## Writes -/

def putSlots (m : Memory) (a : ℕ) (slots : List (Option ℕ)) : Memory :=
  { m with trees := m.trees.set a slots }

theorem slots_putSlots (ha : a < m.trees.length) (new : List (Option ℕ)) :
    (m.putSlots a new).slots a = new := by
  simp [slots, putSlots, ha]

theorem Keeps.putSlots (hkeep : Keeps m₀ m) (ha : m₀.trees.length ≤ a)
    (new : List (Option ℕ)) : Keeps m₀ (m.putSlots a new) :=
  ⟨hkeep.nodes, isPrefix_set hkeep.trees ha new, hkeep.privs, hkeep.group⟩

theorem Owns.putSlots (ho : Owns m₀ m a t) (new : List (Option ℕ))
    (hrange : ∀ q, some q ∈ new → m₀.nodes.length ≤ q ∧ q < m.nodes.length)
    (hdistinct : Distinct new) :
    Owns m₀ (m.putSlots a new) a ⟨new.map m.load⟩ := by
  have hslots := slots_putSlots ho.lt new
  refine ⟨ho.kept.putSlots ho.fresh new, ho.fresh, ?_, ?_, ?_, ?_⟩
  · simpa [Memory.putSlots] using ho.lt
  · rw [tree, hslots]
    rfl
  · rw [hslots]
    exact hrange
  · rw [hslots]
    exact hdistinct

def addNode (m : Memory) (n : Node) : Memory := { m with nodes := m.nodes ++ [n] }

theorem keeps_addNode (m : Memory) (n : Node) : Keeps m (m.addNode n) :=
  ⟨List.prefix_append _ _, List.prefix_rfl, List.prefix_rfl, rfl⟩

theorem load_addNode_new (m : Memory) (n : Node) :
    (m.addNode n).load (some m.nodes.length) = some n := by
  simp [load, addNode]

theorem mem_set_slot {slots : List (Option ℕ)} {x : Option ℕ}
    (hq : some q ∈ slots.set i x) : x = some q ∨ some q ∈ slots :=
  (List.mem_or_eq_of_mem_set hq).symm.imp Eq.symm id

theorem Owns.storeNode (ho : Owns m₀ m a t) (i : ℕ) (n : Node) :
    Owns m₀ ((m.addNode n).putSlots a ((m.slots a).set i (some m.nodes.length))) a
      ⟨t.nodes.set i (some n)⟩ := by
  have ho' := ho.of_keeps (keeps_addNode m n)
  have hlow := ho.kept.nodes.length_le
  have hlen : (m.addNode n).nodes.length = m.nodes.length + 1 := by
    simp [addNode]
  have hstored := ho'.putSlots ((m.slots a).set i (some m.nodes.length))
    (fun q hq => ?_) (fun j k q hj hk => ?_)
  · convert hstored using 2
    rw [List.map_set, load_addNode_new, ← ho'.nodes_eq]
    rfl
  · rcases mem_set_slot hq with hnew | hold
    · cases hnew
      omega
    · have := ho.range q hold
      omega
  · rw [List.getElem?_set] at hj hk
    -- an old slot does not hold the new address
    have hold : ∀ j : ℕ, (m.slots a)[j]? ≠ some (some m.nodes.length) := by
      intro j hj
      have := ho.range _ (List.mem_of_getElem? hj)
      omega
    split at hj <;> split at hk
    · omega
    · split at hj
      · cases hj
        exact absurd hk (hold k)
      · cases hj
    · split at hk
      · cases hk
        exact absurd hj (hold j)
      · cases hk
    · exact ho.distinct j k q hj hk

theorem Owns.clearSlot (ho : Owns m₀ m a t) (i : ℕ) :
    Owns m₀ (m.putSlots a ((m.slots a).set i none)) a ⟨t.nodes.set i none⟩ := by
  have hcleared := ho.putSlots ((m.slots a).set i none) (fun q hq => ?_) (fun j k q hj hk => ?_)
  · convert hcleared using 2
    rw [List.map_set, ho.nodes_eq]
    rfl
  · rcases mem_set_slot hq with hnew | hold
    · cases hnew
    · exact ho.range q hold
  · rw [List.getElem?_set] at hj hk
    split at hj <;> split at hk <;> grind [ho.distinct j k q]

def putNode (m : Memory) (q : ℕ) (n : Node) : Memory := { m with nodes := m.nodes.set q n }

theorem Owns.putNode (ho : Owns m₀ m a t) (hi : (m.slots a)[i]? = some (some q)) (n : Node) :
    Owns m₀ (m.putNode q n) a ⟨t.nodes.set i (some n)⟩ := by
  obtain ⟨hlow, hhigh⟩ := ho.range q (List.mem_of_getElem? hi)
  refine ⟨⟨isPrefix_set ho.kept.nodes hlow n, ho.kept.trees, ho.kept.privs,
    ho.kept.group⟩, ho.fresh, ho.lt, ?_, ?_, ho.distinct⟩
  · show (⟨(m.slots a).map (m.putNode q n).load⟩ : RatchetTree) = _
    congr 1
    rw [← ho.nodes_eq]
    apply List.ext_getElem?
    intro j
    rw [List.getElem?_set, List.getElem?_map, List.getElem?_map]
    by_cases hij : i = j
    · subst hij
      have hlen : i < (m.slots a).length := (List.getElem?_eq_some_iff.mp hi).1
      rw [hi, if_pos rfl, if_pos (by simpa using hlen)]
      simp [load, Memory.putNode, hhigh]
    · rw [if_neg hij]
      cases hj : (m.slots a)[j]? with
      | none => rfl
      | some slot =>
          cases slot with
          | none => rfl
          | some q' =>
              have hne : q ≠ q' := fun heq => hij (ho.distinct i j q hi (by rw [hj, heq]))
              simp [load, Memory.putNode, List.getElem?_set_ne hne]
  · intro q' hq'
    have := ho.range q' hq'
    simpa [Memory.putNode] using this

end Memory

end MlsGo
