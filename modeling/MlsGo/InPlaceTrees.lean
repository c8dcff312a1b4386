import MlsGo.MemoryOwnership

/-!
# Tree operations in place

Each operation on an owned tree ends as the function on values does, and the
tree then has the value that the function returns.  Whether it succeeds or fails,
nothing that was there before the tree has changed.
-/

namespace MlsGo

open InPlacePrograms

variable {α : Type} {q i : ℕ} {slots : List (Option ℕ)}

theorem within_eq_mapError (message : String) (r : Result α) :
    within message r = r.mapError (wrapFault message) := by
  rcases r with (_ | _ | _) | _ <;> rfl

namespace GoProg

variable {S : Suite} {m₀ m : Memory} {a : ℕ} {t : RatchetTree}

theorem inside_simulates {β : Type} {keep : Memory → Prop} {p : GoProg α} {r : Result β}
    {post : α → β → Memory → Prop} (message : String) (hrun : Simulates keep p m r post) :
    Simulates keep (inside message p) m (within message r) post := by
  rw [within_eq_mapError]
  exact hrun.mapFault _

def Has {α : Type} (m₀ : Memory) (a : ℕ) (_ : α) (t : RatchetTree)
    (m : Memory) : Prop := m₀.Owns m a t

theorem onTree_simulates {f : RatchetTree → Result α} (ho : m₀.Owns m a t) :
    Simulates m₀.Keeps (onTree a f) m (f t) fun x y m' => x = y ∧ m' = m := by
  refine Simulates.ask ?_ ho.kept
  rw [ho.tree_eq]

/-! ## Writes -/

theorem clearSlot_simulates (ho : m₀.Owns m a t) (i : ℕ) :
    Simulates m₀.Keeps (setSlot a i none) m (t.setNode i none) (Has m₀ a) := by
  rw [setSlot, RatchetTree.setNode, ← ho.length_eq]
  apply Simulates.read_bind
  split
  · exact .ok (ho.clearSlot i)
  · exact .error ho.kept

theorem storeNode_simulates (ho : m₀.Owns m a t) (i : ℕ) (n : Node) :
    Simulates m₀.Keeps (storeNode a i n) m (t.setNode i (some n)) (Has m₀ a) := by
  have hkept := ho.kept.trans (Memory.keeps_addNode m n)
  rw [RatchetTree.setNode, ← ho.length_eq]
  show Simulates m₀.Keeps (if i < (m.slots a).length then
    setSlots a ((m.slots a).set i (some m.nodes.length))
    else Prog.lift (.error .panic)) (m.addNode n) _ _
  split
  · exact .ok (ho.storeNode i n)
  · exact .error hkept

theorem slotAt_simulates (ho : m₀.Owns m a t) (i : ℕ) :
    Simulates m₀.Keeps (slotAt a i) m (t.index i) fun slot n m' =>
      m' = m ∧ (m.slots a)[i]? = some slot ∧ t.nodes[i]? = some n ∧ m.load slot = n := by
  have hvalue : t.nodes[i]? = ((m.slots a)[i]?).map m.load := by
    rw [← ho.nodes_eq, List.getElem?_map]
  rw [Simulates, slotAt, Prog.ask, RatchetTree.index, hvalue]
  cases (m.slots a)[i]? with
  | none => exact .error ho.kept
  | some slot => exact .ok ⟨rfl, rfl, rfl, rfl⟩

theorem nodeAt_eq {n : Node} (hq : m.nodes[q]? = some n) : nodeAt q m = (.ok n, m) := by
  simp [nodeAt, Prog.ask, hq]

theorem exists_node (ho : m₀.Owns m a t)
    (hslot : (m.slots a)[i]? = some (some q)) : ∃ n, m.nodes[q]? = some n :=
  ⟨_, List.getElem?_eq_getElem (ho.range q (List.mem_of_getElem? hslot)).2⟩

theorem setNode_self {slot : Option Node}
    (hi : t.nodes[i]? = some slot) : t.setNode i slot = .ok t := by
  obtain ⟨hlt, hget⟩ := List.getElem?_eq_some_iff.mp hi
  rw [RatchetTree.setNode, if_pos hlt, ← hget, List.set_getElem_self]

theorem setNode_simulates (ho : m₀.Owns m a t)
    (hslot : (m.slots a)[i]? = some (some q)) (n : Node) :
    Simulates m₀.Keeps (setNode q n) m (t.setNode i (some n)) (Has m₀ a) := by
  have hlt : i < t.nodes.length := by
    rw [← ho.length_eq]
    exact (List.getElem?_eq_some_iff.mp hslot).1
  rw [RatchetTree.setNode, if_pos hlt]
  exact .ok (ho.putNode hslot n)

theorem addUnmerged_simulates (ho : m₀.Owns m a t) (p : ℕ) (leafIndex : UInt32) :
    Simulates m₀.Keeps (addUnmerged a p leafIndex) m (t.index p >>= fun slot =>
        t.setNode p (RatchetTree.addUnmerged leafIndex slot)) (Has m₀ a) := by
  refine (slotAt_simulates ho p).bind ?_
  rintro slot n m' ⟨rfl, hslot, hvalue, hload⟩
  cases slot with
  | none =>
      have hn : n = none := hload.symm
      subst hn
      rw [RatchetTree.addUnmerged, setNode_self hvalue]
      · exact .ok ho
      · simp
  | some q =>
      obtain ⟨node, hnode⟩ := exists_node ho hslot
      have hn : n = some node := hload.symm.trans hnode
      subst hn
      refine Simulates.step (nodeAt_eq hnode) ?_
      cases node with
      | leaf l =>
          rw [RatchetTree.addUnmerged, setNode_self hvalue]
          · exact .ok ho
          · simp
      | parent q => exact setNode_simulates ho hslot _

theorem setParentHash_simulates (ho : m₀.Owns m a t) (p : ℕ) (ph : Bytes) :
    Simulates m₀.Keeps (setParentHash a p ph) m (t.setParentHash p ph) (Has m₀ a) := by
  rw [RatchetTree.setParentHash, RatchetTree.parentAt, bind_assoc]
  refine (slotAt_simulates ho p).bind ?_
  rintro slot n m' ⟨rfl, hslot, hvalue, hload⟩
  cases slot with
  | none =>
      have hn : n = none := hload.symm
      subst hn
      exact .error ho.kept
  | some q =>
      obtain ⟨node, hnode⟩ := exists_node ho hslot
      have hn : n = some node := hload.symm.trans hnode
      subst hn
      refine Simulates.step (nodeAt_eq hnode) ?_
      cases node with
      | leaf l => exact .error ho.kept
      | parent q => exact setNode_simulates ho hslot _

/-! ## Loops over the ancestors -/

theorem walkUp_simulates {leaves top : ℕ} {visit : ℕ → GoProg Unit}
    {visitValue : ℕ → RatchetTree → Result RatchetTree} (hvisit : ∀ p m t, m₀.Owns m a t →
    Simulates m₀.Keeps (visit p) m (visitValue p t) (Has m₀ a)) :
    ∀ fuel x m t, m₀.Owns m a t →
      Simulates m₀.Keeps (walkUp leaves top visit fuel x) m
        (RatchetTree.walkUp leaves top (fun _ p s => visitValue p s) fuel x t) (Has m₀ a) := by
  intro fuel
  induction fuel with
  | zero => exact fun x m t ho => .error ho.kept
  | succ fuel ih =>
      intro x m t ho
      rw [walkUp, RatchetTree.walkUp]
      split
      · exact .ok ho
      · refine Simulates.lift_bind ho.kept ?_
        rintro ⟨p, ok⟩ -
        refine (hvisit p m t ho).bind ?_
        exact fun _ t' m' ho' => ih p m' t' ho'

theorem blankPath_simulates (ho : m₀.Owns m a t) (x : ℕ) :
    Simulates m₀.Keeps (blankPath a x) m (t.blankPath x) (Has m₀ a) := by
  refine Simulates.read_bind ?_
  rw [ho.tree_eq]
  exact walkUp_simulates (fun p m t ho => clearSlot_simulates ho p) _ x m t ho

/-! ## Leaf changes -/

theorem updateLeaf_simulates (ho : m₀.Owns m a t) (leaf : ℕ) (ln : LeafNode) :
    Simulates m₀.Keeps (updateLeaf a leaf ln) m (t.updateLeaf leaf ln) (Has m₀ a) := by
  refine Simulates.read_bind ?_
  rw [ho.tree_eq, RatchetTree.updateLeaf]
  split
  · exact .error ho.kept
  · refine (storeNode_simulates ho _ _).bind ?_
    exact fun _ t' m' ho' => blankPath_simulates ho' _

theorem map_padSlots (load : Option ℕ → Option Node) (hnone : load none = none)
    (slots : List (Option ℕ)) :
    (padSlots slots).map load = RatchetTree.padToFullWidth (slots.map load) := by
  simp [padSlots, RatchetTree.padToFullWidth, hnone]

theorem map_truncateSlots (load : Option ℕ → Option Node) :
    ∀ slots : List (Option ℕ), (∀ slot ∈ slots, load slot = none ↔ slot = none) →
      (truncateSlots slots).map load = RatchetTree.truncateLoop (slots.map load)
  | [], _ => rfl
  | [slot], _ => by
      cases slot <;> simp [truncateSlots, RatchetTree.truncateLoop]
  | none :: slot :: rest, hload => by
      have hnone : load none = none := (hload none (by simp)).mpr rfl
      have ih := map_truncateSlots load (slot :: rest) fun s hs =>
        hload s (List.mem_cons_of_mem _ hs)
      rw [truncateSlots, List.map_cons, List.map_cons, hnone,
        RatchetTree.truncateLoop, ← List.map_cons, ih]
  | some q :: slot :: rest, hload => by
      have hsome : load (some q) ≠ none := fun hnone => by
        simpa using (hload (some q) (by simp)).mp hnone
      obtain ⟨n, hn⟩ := Option.ne_none_iff_exists'.mp hsome
      rw [truncateSlots, List.map_cons, hn, RatchetTree.truncateLoop]
      · simp
      · simp

theorem truncateSlots_suffix : ∀ slots, truncateSlots slots <:+ slots
  | [] => List.suffix_rfl
  | [slot] => by
      rw [truncateSlots]
      simp
  | none :: slot :: rest => by
      rw [truncateSlots]
      exact (truncateSlots_suffix (slot :: rest)).trans (List.suffix_cons _ _)
  | some q :: slot :: rest => by
      rw [truncateSlots]
      simp

theorem getElem?_padSlots
    (hi : (padSlots slots)[i]? = some (some q)) : slots[i]? = some (some q) := by
  rw [padSlots, List.getElem?_append] at hi
  split at hi
  · exact hi
  · have := List.mem_of_getElem? hi
    simp at this

theorem resize (ho : m₀.Owns m a t) {new : List (Option ℕ)}
    (hnew : ∀ i q : ℕ, new[i]? = some (some q) → (m.slots a)[i]? = some (some q)) :
    m₀.Owns (m.putSlots a new) a ⟨new.map m.load⟩ := by
  refine ho.putSlots new (fun q hq => ?_) fun i j q hi hj => ?_
  · obtain ⟨i, hi⟩ := List.mem_iff_getElem?.mp hq
    exact ho.range q (List.mem_of_getElem? (hnew i q hi))
  · exact ho.distinct i j q (hnew i q hi) (hnew j q hj)

theorem load_eq_none_iff (ho : m₀.Owns m a t) {slot : Option ℕ}
    (hslot : slot ∈ m.slots a) : m.load slot = none ↔ slot = none := by
  cases slot with
  | none => simp [Memory.load]
  | some q =>
      have hq := (ho.range q hslot).2
      simp [Memory.load, hq]

theorem truncate (ho : m₀.Owns m a t) :
    m₀.Owns (m.putSlots a (padSlots (truncateSlots (m.slots a).reverse).reverse)) a
      ⟨RatchetTree.padToFullWidth (RatchetTree.truncateLoop t.nodes.reverse).reverse⟩ := by
  have hmap := map_truncateSlots m.load (m.slots a).reverse
    fun slot hslot => load_eq_none_iff ho (List.mem_reverse.mp hslot)
  rw [← ho.nodes_eq, ← List.map_reverse, ← hmap, ← List.map_reverse, ← map_padSlots m.load rfl]
  refine resize ho fun i q hi => ?_
  have hpart : (truncateSlots (m.slots a).reverse).reverse <+: m.slots a := by
    simpa using (truncateSlots_suffix (m.slots a).reverse).reverse
  have hold := getElem?_padSlots hi
  rw [← hold]
  exact getElem?_of_isPrefix hpart (List.getElem?_eq_some_iff.mp hold).1

theorem removeLeaf_simulates (ho : m₀.Owns m a t) (leaf : ℕ) :
    Simulates m₀.Keeps (removeLeaf a leaf) m (t.removeLeaf leaf) (Has m₀ a) := by
  refine Simulates.read_bind ?_
  rw [ho.tree_eq, RatchetTree.removeLeaf]
  split
  · exact .error ho.kept
  · refine (clearSlot_simulates ho _).bind fun _ t₁ m₁ ho₁ => ?_
    refine (blankPath_simulates ho₁ _).bind fun _ t₂ m₂ ho₂ => ?_
    exact .ok (truncate ho₂)

theorem grow (ho : m₀.Owns m a t) :
    m₀.Owns (m.putSlots a (padSlots (m.slots a ++ [none, none]))) a
      ⟨RatchetTree.padToFullWidth (t.nodes ++ [none, none])⟩ := by
  have hmap : (padSlots (m.slots a ++ [none, none])).map m.load =
      RatchetTree.padToFullWidth (t.nodes ++ [none, none]) := by
    rw [map_padSlots m.load rfl, List.map_append, ho.nodes_eq]
    rfl
  rw [← hmap]
  refine resize ho fun i q hi => ?_
  have hold := getElem?_padSlots hi
  rw [List.getElem?_append] at hold
  split at hold
  · exact hold
  · have := List.mem_of_getElem? hold
    simp at this

def HasAt (m₀ : Memory) (a : ℕ) (leafIndex : ℕ) (placed : ℕ × RatchetTree)
    (m : Memory) : Prop := leafIndex = placed.1 ∧ m₀.Owns m a placed.2

theorem placeLeaf_simulates (ho : m₀.Owns m a t) (ln : LeafNode) (leafIndex : ℕ) :
    Simulates m₀.Keeps (placeLeaf a ln leafIndex) m (t.placeLeaf ln leafIndex) (HasAt m₀ a) := by
  refine (storeNode_simulates ho _ _).bind fun _ t₁ m₁ ho₁ => ?_
  refine Simulates.read_bind ?_
  rw [Memory.Owns.tree_eq ho₁]
  refine (walkUp_simulates (fun p m t ho => addUnmerged_simulates ho p _) _ _ _ _
    ho₁).bind fun _ t₂ m₂ ho₂ => ?_
  exact .ok ⟨rfl, ho₂⟩

theorem addLeaf_simulates (ho : m₀.Owns m a t) (ln : LeafNode) :
    Simulates m₀.Keeps (addLeaf a ln) m (t.addLeaf ln) (HasAt m₀ a) := by
  refine (onTree_simulates ho).bind ?_
  rintro found _ _ ⟨rfl, rfl⟩
  cases found with
  | some leafIndex => exact placeLeaf_simulates ho ln leafIndex
  | none =>
      refine Simulates.read_bind (Simulates.update_bind ?_)
      refine (onTree_simulates (grow ho)).bind ?_
      rintro found _ _ ⟨rfl, rfl⟩
      cases found with
      | some leafIndex => exact placeLeaf_simulates (grow ho) ln leafIndex
      | none => exact .error (grow ho).kept

/-! ## Paths -/

theorem installKeys_simulates (path : List (ℕ × Bytes)) :
    ∀ m t, m₀.Owns m a t →
      Simulates m₀.Keeps (installKeys a path) m (t.installKeys path) (Has m₀ a) := by
  induction path with
  | nil => exact fun m t ho => .ok ho
  | cons head rest ih =>
      intro m t ho
      refine (storeNode_simulates ho _ _).bind fun _ t₁ m₁ ho₁ => ?_
      exact ih m₁ t₁ ho₁

theorem assignParentHashes_simulates (fdp : List ℕ) (ho : m₀.Owns m a t) :
    Simulates m₀.Keeps (assignParentHashes S a fdp) m (t.assignParentHashes S fdp) (Has m₀ a) := by
  induction fdp with
  | nil => exact .ok ho
  | cons p rest ih =>
      cases rest with
      | nil => exact setParentHash_simulates ho p []
      | cons parent rest =>
          refine ih.bind fun _ t₁ m₁ ho₁ => ?_
          refine (onTree_simulates ho₁).bind ?_
          rintro ph _ _ ⟨rfl, rfl⟩
          exact setParentHash_simulates ho₁ p ph

theorem installPath_simulates (ho : m₀.Owns m a t) (senderLeaf : ℕ) (nodePubs : List Bytes) :
    Simulates m₀.Keeps (installPath S a senderLeaf nodePubs) m
      (t.installPath S senderLeaf nodePubs) (Has m₀ a) := by
  refine (onTree_simulates ho).bind ?_
  rintro fdp _ _ ⟨rfl, rfl⟩
  split
  · exact .error ho.kept
  · refine (blankPath_simulates ho _).bind fun _ t₁ m₁ ho₁ => ?_
    refine (installKeys_simulates _ m₁ t₁ ho₁).bind fun _ t₂ m₂ ho₂ => ?_
    exact assignParentHashes_simulates fdp ho₂

theorem merge_simulates (ho : m₀.Owns m a t) (senderLeaf : ℕ) (up : UpdatePath) :
    Simulates m₀.Keeps (merge S a senderLeaf up) m (t.merge S senderLeaf up) (Has m₀ a) := by
  refine (installPath_simulates ho _ _).bind fun _ t₁ m₁ ho₁ => ?_
  exact storeNode_simulates ho₁ _ _

/-! ## Copies -/

structure NewSlots (m m' : Memory) (nodes : List (Option Node))
    (slots : List (Option ℕ)) : Prop where
  kept : m.Keeps m'
  trees_eq : m'.trees = m.trees
  map_load : slots.map m'.load = nodes
  range : ∀ q, some q ∈ slots → m.nodes.length ≤ q ∧ q < m'.nodes.length
  distinct : Memory.Distinct slots

theorem distinct_cons {slot : Option ℕ} (hfresh : ∀ q, slot = some q → some q ∉ slots)
    (hslots : Memory.Distinct slots) : Memory.Distinct (slot :: slots) := by
  intro i j q hi hj
  cases i <;> cases j <;> simp only [List.getElem?_cons_zero,
    List.getElem?_cons_succ, Option.some.injEq] at hi hj
  · rfl
  · exact absurd (List.mem_of_getElem? hj) (hfresh q hi)
  · exact absurd (List.mem_of_getElem? hi) (hfresh q hj)
  · exact congrArg (· + 1) (hslots _ _ q hi hj)

theorem newSlots_spec (nodes : List (Option Node)) :
    ∀ m, ∃ slots m', newSlots nodes m = (.ok slots, m') ∧ NewSlots m m' nodes slots := by
  induction nodes with
  | nil =>
      intro m
      exact ⟨[], m, rfl, Memory.Keeps.refl m, rfl, rfl, by simp, by simp [Memory.Distinct]⟩
  | cons node rest ih =>
      intro m
      cases node with
      | none =>
          obtain ⟨slots, m', hrun, hnew⟩ := ih m
          refine ⟨none :: slots, m', ?_, hnew.kept, hnew.trees_eq, ?_, ?_, ?_⟩
          · show Prog.andThen (newSlots rest) _ m = _
            rw [Prog.andThen, hrun]
            rfl
          · rw [List.map_cons, hnew.map_load]
            rfl
          · simpa using hnew.range
          · exact distinct_cons (by simp) hnew.distinct
      | some n =>
          obtain ⟨slots, m', hrun, hnew⟩ := ih (m.addNode n)
          have hkept := Memory.keeps_addNode m n
          have hlen : (m.addNode n).nodes.length = m.nodes.length + 1 := by
            simp [Memory.addNode]
          have hgrow := hnew.kept.nodes.length_le
          refine ⟨some m.nodes.length :: slots, m', ?_, hkept.trans hnew.kept,
            hnew.trees_eq, ?_, ?_, ?_⟩
          · show Prog.andThen (newSlots rest) _ (m.addNode n) = _
            rw [Prog.andThen, hrun]
            rfl
          · rw [List.map_cons, hnew.map_load, hnew.kept.load_eq fun q hq =>
              by cases hq; omega, Memory.load_addNode_new]
          · intro q hq
            rcases List.mem_cons.mp hq with hq | hq
            · cases hq
              omega
            · have := hnew.range q hq
              omega
          · refine distinct_cons (fun q hq hmem => ?_) hnew.distinct
            cases hq
            have := hnew.range _ hmem
            omega

theorem clone_simulates {b : ℕ} (hsource : m.tree b = t) :
    Simulates m.Keeps (clone b) m t.clone fun a t' m' => m.Owns m' a t' := by
  subst hsource
  have hread : onTree b RatchetTree.clone m = ((m.tree b).clone, m) := rfl
  cases hclone : (m.tree b).clone with
  | error e =>
      rw [hclone] at hread
      show Matches _ _ (Prog.andThen (onTree b RatchetTree.clone) _ m) _
      rw [Prog.andThen, hread]
      exact .error (Memory.Keeps.refl m)
  | ok copy =>
      rw [hclone] at hread
      refine Simulates.step hread ?_
      obtain ⟨slots, m', hrun, hnew⟩ := newSlots_spec copy.nodes m
      refine Simulates.step hrun ?_
      have hlen : m'.trees.length = m.trees.length := by rw [hnew.trees_eq]
      have hslots : (m'.trees ++ [slots]).getD m'.trees.length [] = slots := by
        simp
      refine .ok ⟨⟨hnew.kept.nodes, hnew.kept.trees.trans (List.prefix_append _ _),
        hnew.kept.privs, hnew.kept.group⟩, hlen.ge, by simp, ?_, ?_, ?_⟩
      · show (⟨((m'.trees ++ [slots]).getD m'.trees.length []).map m'.load⟩ : RatchetTree) = copy
        rw [hslots, hnew.map_load]
      · intro q hq
        apply hnew.range q
        rwa [← hslots]
      · show Memory.Distinct ((m'.trees ++ [slots]).getD m'.trees.length [])
        rw [hslots]
        exact hnew.distinct

end GoProg

end MlsGo
