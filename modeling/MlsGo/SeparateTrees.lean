import MlsGo.GroupCoherence
import MlsGo.WireRoundTrips
import MlsGo.CodecReturns

/-!
# Copies of a tree

`Clone` writes the tree and parses what it wrote.  The parser allocates every
node, so the copy and the original hold different addresses, and an operation
writes only to the slots of its own tree, to the nodes these slots hold and to
new nodes.  Hence neither tree can be changed through the other.
-/

namespace MlsGo

open InPlacePrograms

namespace Memory

variable {m m' : Memory} {a b i q : ℕ}

/-! ## What an operation on one tree can change -/

/-- From `m` to `m'` only tree `a` and the nodes it holds have changed; what it
holds now, it held before or was allocated since. -/
structure ChangesOnly (a : ℕ) (m m' : Memory) : Prop where
  trees_length : m'.trees.length = m.trees.length
  nodes_length : m.nodes.length ≤ m'.nodes.length
  slots : ∀ b, b ≠ a → m'.slots b = m.slots b
  nodes : ∀ q < m.nodes.length, some q ∉ m.slots a → m'.nodes[q]? = m.nodes[q]?
  held : ∀ q, some q ∈ m'.slots a → some q ∈ m.slots a ∨ (m.nodes.length ≤ q ∧ q < m'.nodes.length)

theorem ChangesOnly.refl (a : ℕ) (m : Memory) : ChangesOnly a m m :=
  ⟨rfl, le_rfl, fun _ _ => rfl, fun _ _ _ => rfl, fun _ hq => .inl hq⟩

theorem ChangesOnly.trans {m₁ m₂ m₃ : Memory} (hfirst : ChangesOnly a m₁ m₂)
    (hsecond : ChangesOnly a m₂ m₃) : ChangesOnly a m₁ m₃ := by
  have hlen := hfirst.nodes_length
  refine ⟨hsecond.trees_length.trans hfirst.trees_length, hlen.trans hsecond.nodes_length,
    fun b hb => (hsecond.slots b hb).trans (hfirst.slots b hb), ?_, ?_⟩
  · intro q hq hnot
    have hstill : some q ∉ m₂.slots a := by
      intro hheld
      rcases hfirst.held q hheld with hold | ⟨hge, -⟩
      · exact hnot hold
      · omega
    exact (hsecond.nodes q (hq.trans_le hlen) hstill).trans (hfirst.nodes q hq hnot)
  · intro q hq
    rcases hsecond.held q hq with hmid | ⟨hge, hlt⟩
    · rcases hfirst.held q hmid with hold | ⟨hge, hlt⟩
      · exact .inl hold
      · exact .inr ⟨hge, hlt.trans_le hsecond.nodes_length⟩
    · exact .inr ⟨hlen.trans hge, hlt⟩

instance (a : ℕ) : IsPreorder Memory (ChangesOnly a) where
  refl := ChangesOnly.refl a
  trans _ _ _ := ChangesOnly.trans

theorem slots_putSlots_of_ne (hne : b ≠ a) (new : List (Option ℕ)) :
    (m.putSlots a new).slots b = m.slots b := by
  simp [slots, putSlots, List.getElem?_set_ne hne.symm]

theorem slots_putSlots_subset (new : List (Option ℕ))
    (hq : some q ∈ (m.putSlots a new).slots a) : some q ∈ new := by
  by_cases ha : a < m.trees.length
  · rwa [slots_putSlots ha] at hq
  · have hnone : (m.trees.set a new)[a]? = none := by simp; omega
    simp [slots, putSlots, hnone] at hq

theorem changesOnly_putSlots {m₁ : Memory} (hbefore : ChangesOnly a m m₁) {new : List (Option ℕ)}
    (hnew : ∀ q, some q ∈ new → some q ∈ m.slots a ∨ (m.nodes.length ≤ q ∧ q < m₁.nodes.length)) :
    ChangesOnly a m (m₁.putSlots a new) := by
  refine ⟨?_, hbefore.nodes_length, fun b hb => ?_, hbefore.nodes, fun q hq =>
    hnew q (slots_putSlots_subset new hq)⟩
  · simpa [putSlots] using hbefore.trees_length
  · rw [slots_putSlots_of_ne hb]
    exact hbefore.slots b hb

theorem changesOnly_addNode (a : ℕ) (m : Memory) (n : Node) : ChangesOnly a m (m.addNode n) := by
  refine ⟨rfl, by simp [addNode], fun _ _ => rfl, fun q hq _ => ?_, fun q hq => .inl hq⟩
  exact List.getElem?_append_left hq

theorem changesOnly_putNode (hq : some q ∈ m.slots a) (n : Node) :
    ChangesOnly a m (m.putNode q n) := by
  refine ⟨rfl, by simp [putNode], fun _ _ => rfl, fun q' _ hnot => ?_, fun q hq => .inl hq⟩
  have hne : q ≠ q' := fun heq => hnot (heq ▸ hq)
  exact List.getElem?_set_ne hne

/-! ## Separate trees -/

structure Separate (m : Memory) (a b : ℕ) : Prop where
  ne : a ≠ b
  left : m.InBounds a
  right : m.InBounds b
  disjoint : ∀ q, some q ∈ m.slots a → some q ∉ m.slots b

theorem Separate.symm (hsep : m.Separate a b) : m.Separate b a :=
  ⟨hsep.ne.symm, hsep.right, hsep.left, fun q hb ha => hsep.disjoint q ha hb⟩

theorem Separate.tree_eq (hsep : m.Separate a b) (hchange : ChangesOnly a m m') :
    m'.tree b = m.tree b := by
  rw [tree, tree, hchange.slots b hsep.ne.symm]
  congr 1
  refine List.map_congr_left fun slot hslot => ?_
  cases slot with
  | none => rfl
  | some q => exact hchange.nodes q (hsep.right.2 q hslot) fun hq => hsep.disjoint q hq hslot

theorem Separate.changed (hsep : m.Separate a b) (hchange : ChangesOnly a m m') :
    m'.Separate a b := by
  have hslots := hchange.slots b hsep.ne.symm
  refine ⟨hsep.ne, ⟨?_, fun q hq => ?_⟩, ⟨?_, fun q hq => ?_⟩, fun q hq hqb => ?_⟩
  · rw [hchange.trees_length]
    exact hsep.left.1
  · rcases hchange.held q hq with hold | ⟨-, hlt⟩
    · exact (hsep.left.2 q hold).trans_le hchange.nodes_length
    · exact hlt
  · rw [hchange.trees_length]
    exact hsep.right.1
  · rw [hslots] at hq
    exact (hsep.right.2 q hq).trans_le hchange.nodes_length
  · rw [hslots] at hqb
    have hlt := hsep.right.2 q hqb
    rcases hchange.held q hq with hold | ⟨hge, -⟩
    · exact hsep.disjoint q hold hqb
    · omega

theorem Owns.separate {m₀ : Memory} {t : RatchetTree} (ho : m₀.Owns m a t)
    (hin : m₀.InBounds b) : m.Separate a b := by
  refine ⟨?_, ho.inBounds, ho.kept.inBounds hin, fun q hq hqb => ?_⟩
  · have := ho.fresh
    have := hin.1
    omega
  · rw [ho.kept.slots_eq hin.1] at hqb
    have := (ho.range q hq).1
    have := hin.2 q hqb
    omega

end Memory

/-! ## Operations in place -/

namespace GoProg

open Memory

variable {S : Suite} {a : ℕ}

theorem clearSlot_moves (a i : ℕ) : (setSlot a i none).Moves (ChangesOnly a) := by
  intro m
  show ChangesOnly a m ((if i < (m.slots a).length then
    setSlots a ((m.slots a).set i none)
    else Prog.lift (.error .panic) : GoProg Unit) m).2
  split
  · refine changesOnly_putSlots (.refl a m) fun q hq => .inl ?_
    rcases mem_set_slot hq with hnew | hold
    · cases hnew
    · exact hold
  · exact .refl a m

theorem storeNode_moves (a i : ℕ) (n : Node) : (storeNode a i n).Moves (ChangesOnly a) := by
  intro m
  have hadd := changesOnly_addNode a m n
  show ChangesOnly a m ((if i < (m.slots a).length then
    setSlots a ((m.slots a).set i (some m.nodes.length))
    else Prog.lift (.error .panic) : GoProg Unit) (m.addNode n)).2
  split
  · refine changesOnly_putSlots hadd fun q hq => ?_
    rcases mem_set_slot hq with hnew | hold
    · cases hnew
      exact .inr ⟨le_rfl, by simp [addNode]⟩
    · exact .inl hold
  · exact hadd

theorem resize_moves (a : ℕ) {f : List (Option ℕ) → List (Option ℕ)}
    (hf : ∀ slots q, some q ∈ f slots → some q ∈ slots) {α : Type}
    {rest : Unit → GoProg α} (hrest : ∀ u, (rest u).Moves (ChangesOnly a)) :
    Prog.Moves (ChangesOnly a)
      ((Prog.read fun m => m.slots a) >>= fun slots => setSlots a (f slots) >>= rest) := by
  intro m
  have hresize : ChangesOnly a m (m.putSlots a (f (m.slots a))) :=
    changesOnly_putSlots (.refl a m) fun q hq => .inl (hf _ q hq)
  exact hresize.trans (hrest () _)

theorem slotAt_moves {a i : ℕ} {f : Option ℕ → GoProg Unit}
    (hf : ∀ m slot, slot ∈ m.slots a → ChangesOnly a m (f slot m).2) :
    (slotAt a i >>= f).Moves (ChangesOnly a) := by
  refine (Prog.Moves.ask _).bind_of fun m slot m' hread => ?_
  have hm : m' = m := (congrArg Prod.snd hread).symm
  subst hm
  have hslot := congrArg Prod.fst hread
  cases hi : (m'.slots a)[i]? with
  | none => simp [Prog.ask, hi] at hslot
  | some found =>
      have hfound : found = slot := by simpa [slotAt, Prog.ask, hi] using hslot
      exact hf m' slot (hfound ▸ List.mem_of_getElem? hi)

theorem nodeAt_moves {m : Memory} {q : ℕ} (hq : some q ∈ m.slots a) {f : Node → GoProg Unit}
    (hf : ∀ n, f n = Prog.lift (.ok ()) ∨ f n = Prog.lift (.error .panic) ∨
    ∃ n', f n = setNode q n') :
    ChangesOnly a m ((nodeAt q >>= f) m).2 := by
  show ChangesOnly a m (Prog.andThen (nodeAt q) f m).2
  cases hn : m.nodes[q]? with
  | none =>
      have hrun : nodeAt q m = (.error .panic, m) := by simp [nodeAt, Prog.ask, hn]
      rw [Prog.andThen, hrun]
      exact .refl a m
  | some n =>
      have hrun : nodeAt q m = (.ok n, m) := by simp [nodeAt, Prog.ask, hn]
      rw [Prog.andThen, hrun]
      rcases hf n with hnone | hpanic | ⟨n', hset⟩
      · show ChangesOnly a m (f n m).2
        rw [hnone]
        exact .refl a m
      · show ChangesOnly a m (f n m).2
        rw [hpanic]
        exact .refl a m
      · show ChangesOnly a m (f n m).2
        rw [hset]
        exact changesOnly_putNode hq n'

theorem addUnmerged_moves (a p : ℕ) (leafIndex : UInt32) :
    (addUnmerged a p leafIndex).Moves (ChangesOnly a) := by
  refine slotAt_moves fun m slot hslot => ?_
  cases slot with
  | none => exact .refl a m
  | some q =>
      refine nodeAt_moves hslot fun n => ?_
      cases n with
      | leaf _ => exact .inl rfl
      | parent _ => exact .inr (.inr ⟨_, rfl⟩)

theorem setParentHash_moves (a p : ℕ) (parentHash : Bytes) :
    (setParentHash a p parentHash).Moves (ChangesOnly a) := by
  refine slotAt_moves fun m slot hslot => ?_
  cases slot with
  | none => exact .refl a m
  | some q =>
      refine nodeAt_moves hslot fun n => ?_
      cases n with
      | leaf _ => exact .inr (.inl rfl)
      | parent _ => exact .inr (.inr ⟨_, rfl⟩)

theorem walkUp_moves {leaves top : ℕ} {visit : ℕ → GoProg Unit}
    (hvisit : ∀ p, (visit p).Moves (ChangesOnly a)) :
    ∀ fuel x, (walkUp leaves top visit fuel x).Moves (ChangesOnly a) := by
  intro fuel
  induction fuel with
  | zero => exact fun x => Prog.Moves.lift _
  | succ fuel ih =>
      intro x
      rw [walkUp]
      split
      · exact Prog.Moves.pure ()
      · exact (Prog.Moves.lift _).bind fun p => (hvisit p.1).bind fun _ => ih p.1

theorem blankPath_moves (a x : ℕ) : (blankPath a x).Moves (ChangesOnly a) :=
  (Prog.Moves.read _).bind fun _ => walkUp_moves (fun p => clearSlot_moves a p) _ x

theorem updateLeaf_moves (a leaf : ℕ) (ln : LeafNode) :
    (updateLeaf a leaf ln).Moves (ChangesOnly a) := by
  refine (Prog.Moves.read _).bind fun width => ?_
  split
  · exact Prog.Moves.lift _
  · exact (storeNode_moves a _ _).bind fun _ => blankPath_moves a _

theorem mem_padSlots {slots : List (Option ℕ)} {q : ℕ}
    (hq : some q ∈ padSlots slots) : some q ∈ slots := by
  rcases List.mem_append.mp hq with hold | hblank
  · exact hold
  · cases (List.mem_replicate.mp hblank).2

theorem removeLeaf_moves (a leaf : ℕ) : (removeLeaf a leaf).Moves (ChangesOnly a) := by
  refine (Prog.Moves.read _).bind fun width => ?_
  split
  · exact Prog.Moves.lift _
  · refine (clearSlot_moves a _).bind fun _ => (blankPath_moves a _).bind fun _ => ?_
    refine resize_moves a (f := fun slots => padSlots (truncateSlots slots.reverse).reverse)
      (fun slots q hq => ?_) fun _ => Prog.Moves.pure ()
    have hq := mem_padSlots hq
    rw [List.mem_reverse] at hq
    exact List.mem_reverse.mp ((truncateSlots_suffix _).subset hq)

theorem placeLeaf_moves (a : ℕ) (ln : LeafNode) (leafIndex : ℕ) :
    (placeLeaf a ln leafIndex).Moves (ChangesOnly a) := by
  refine (storeNode_moves a _ _).bind fun _ => (Prog.Moves.read _).bind fun _ => ?_
  exact (walkUp_moves (fun p => addUnmerged_moves a p _) _ _).bind fun _ => Prog.Moves.pure _

theorem addLeaf_moves (a : ℕ) (ln : LeafNode) : (addLeaf a ln).Moves (ChangesOnly a) := by
  refine (Prog.Moves.ask _).bind fun found => ?_
  cases found with
  | some leafIndex => exact placeLeaf_moves a ln leafIndex
  | none =>
      refine resize_moves a (f := fun slots => padSlots (slots ++ [none, none]))
        (fun slots q hq => by simpa using mem_padSlots hq) fun _ => ?_
      refine (Prog.Moves.ask _).bind fun found => ?_
      cases found with
      | some leafIndex => exact placeLeaf_moves a ln leafIndex
      | none => exact Prog.Moves.lift _

theorem installKeys_moves (a : ℕ) : ∀ path, (installKeys a path).Moves (ChangesOnly a)
  | [] => Prog.Moves.pure ()
  | (p, _) :: rest => (storeNode_moves a p _).bind fun _ => installKeys_moves a rest

theorem assignParentHashes_moves (a : ℕ) :
    ∀ fdp, (assignParentHashes S a fdp).Moves (ChangesOnly a)
  | [] => Prog.Moves.pure ()
  | [p] => setParentHash_moves a p []
  | p :: parent :: rest => by
      refine (assignParentHashes_moves a (parent :: rest)).bind fun _ => ?_
      exact (Prog.Moves.ask _).bind fun ph => setParentHash_moves a p ph

theorem merge_moves (a senderLeaf : ℕ) (up : UpdatePath) :
    (merge S a senderLeaf up).Moves (ChangesOnly a) := by
  refine Prog.Moves.bind ?_ fun _ => storeNode_moves a _ _
  refine (Prog.Moves.ask _).bind fun fdp => ?_
  split
  · exact Prog.Moves.lift _
  · refine (blankPath_moves a _).bind fun _ => ?_
    exact (installKeys_moves a _).bind fun _ => assignParentHashes_moves a fdp

end GoProg

/-! ## Runs -/

/-- A call that changes a tree. -/
inductive TreeOp where
  | addLeaf (ln : LeafNode)
  | updateLeaf (leaf : ℕ) (ln : LeafNode)
  | removeLeaf (leaf : ℕ)
  | merge (senderLeaf : ℕ) (up : UpdatePath)

def TreeOp.run (S : Suite) (a : ℕ) (m : Memory) : TreeOp → Memory
  | .addLeaf ln => (GoProg.addLeaf a ln m).2
  | .updateLeaf leaf ln => (GoProg.updateLeaf a leaf ln m).2
  | .removeLeaf leaf => (GoProg.removeLeaf a leaf m).2
  | .merge senderLeaf up => (GoProg.merge S a senderLeaf up m).2

/-- Calls one after the other, each on the tree whose address it comes with;
those that fail included. -/
def runTreeOps (S : Suite) : Memory → List (ℕ × TreeOp) → Memory
  | m, [] => m
  | m, (a, op) :: rest => runTreeOps S (op.run S a m) rest

variable {S : Suite} {m : Memory} {a b : ℕ}

theorem TreeOp.run_changesOnly (op : TreeOp) : m.ChangesOnly a (op.run S a m) := by
  cases op with
  | addLeaf ln => exact GoProg.addLeaf_moves a ln m
  | updateLeaf leaf ln => exact GoProg.updateLeaf_moves a leaf ln m
  | removeLeaf leaf => exact GoProg.removeLeaf_moves a leaf m
  | merge senderLeaf up => exact GoProg.merge_moves a senderLeaf up m

theorem separate_runTreeOps (ops : List (ℕ × TreeOp))
    (hops : ∀ op ∈ ops, op.1 = a ∨ op.1 = b) (hsep : m.Separate a b) :
    (runTreeOps S m ops).Separate a b := by
  induction ops generalizing m with
  | nil => exact hsep
  | cons op rest ih =>
      refine ih (fun op hop => hops op (List.mem_cons_of_mem _ hop)) ?_
      rcases hops op List.mem_cons_self with hfirst | hfirst
      · exact hsep.changed (hfirst ▸ op.2.run_changesOnly)
      · exact (hsep.symm.changed (hfirst ▸ op.2.run_changesOnly)).symm

theorem tree_runTreeOps (ops : List TreeOp) (hsep : m.Separate a b) :
    (runTreeOps S m (ops.map fun op => (a, op))).tree b = m.tree b := by
  induction ops generalizing m with
  | nil => rfl
  | cons op rest ih =>
      have hchange : m.ChangesOnly a (op.run S a m) := op.run_changesOnly
      exact (ih (hsep.changed hchange)).trans (hsep.tree_eq hchange)

open RatchetTree in
theorem clone_stops (t : RatchetTree) (hinv : t.RepresentationInvariant)
    (hmember : ∃ L, t.slot 0 L ≠ none) : StopsAtLimit t.clone := by
  refine stops_bind.mpr ⟨tree_marshal_stops t, fun data hwrite => ?_⟩
  rw [hinv.parse_marshal hmember hwrite]
  exact stops_ok t

/-- A copy of a tree that has a member fails only if the tree is too large for
the wire form.  It equals the original, and no calls on one of the two change
the other. -/
theorem clone_faithful_independent (S : Suite) (m : Memory) (b : ℕ) (hin : m.InBounds b)
    (hreach : RatchetTree.Reachable S (m.tree b)) (hmember : ∃ leaf, (m.tree b).Populated leaf) :
    StopsAtLimit (GoProg.clone b m).1 ∧
    ∀ a m₁, GoProg.clone b m = (.ok a, m₁) →
      m₁.tree b = m.tree b ∧ m₁.tree a = m.tree b ∧
      (m₁.tree a).width = (m.tree b).width ∧
      ∀ earlier, (∀ op ∈ earlier, op.1 = a ∨ op.1 = b) → ∀ later : List TreeOp,
        let m₂ := runTreeOps S m₁ earlier
        (runTreeOps S m₂ (later.map fun op => (a, op))).tree b = m₂.tree b ∧
        (runTreeOps S m₂ (later.map fun op => (b, op))).tree a = m₂.tree a := by
  have hinv := hreach.invariant
  obtain ⟨h, hf, -⟩ := hinv.full
  obtain ⟨leaf, hleaf⟩ := hmember
  have hmember : ∃ L, (m.tree b).slot 0 L ≠ none := ⟨_, hf.populated_iff.mp hleaf⟩
  have hsim := GoProg.clone_simulates (m := m) (b := b) rfl
  constructor
  · intro fault hfault
    obtain ⟨herror, -⟩ := hsim.of_error (Prod.ext hfault rfl)
    exact clone_stops _ hinv hmember fault herror
  · intro a m₁ hclone
    obtain ⟨copy, hcopy, ho⟩ := hsim.of_ok hclone
    have hsame : copy = m.tree b := hinv.eq_of_clone hcopy
    have hsep := ho.separate hin
    have hcopied : m₁.tree a = m.tree b := ho.tree_eq.trans hsame
    refine ⟨ho.kept.tree_eq hin, hcopied, by rw [hcopied], ?_⟩
    intro earlier hearlier later m₂
    have hsep₂ : m₂.Separate a b := separate_runTreeOps earlier hearlier hsep
    exact ⟨tree_runTreeOps later hsep₂, tree_runTreeOps later hsep₂.symm⟩

/-- The tree of two members is copied. -/
theorem clone_faithful_independent_two_members :
    ∃ m b a m₁, m.tree b = RatchetTree.twoMembers ∧
      GoProg.clone b m = (.ok a, m₁) ∧ m₁.tree a = RatchetTree.twoMembers ∧
      ∀ later : List TreeOp,
        (runTreeOps plainSuite m₁ (later.map fun op => (a, op))).tree b = RatchetTree.twoMembers ∧
        (runTreeOps plainSuite m₁ (later.map fun op => (b, op))).tree a =
          RatchetTree.twoMembers := by
  obtain ⟨g, -⟩ : ∃ g, newGroup plainSuite [9] (.basic [1]) (some ⟨[1]⟩) ⟨0, 1⟩
      ⟨[1, 1], [1, 2]⟩ = .ok g := by decide +kernel
  obtain ⟨m, hvalid, hview⟩ := exists_holds { g with tree := RatchetTree.twoMembers }
  have htree : m.tree m.group.tree = RatchetTree.twoMembers := congrArg Group.tree hview
  have hcopy : RatchetTree.twoMembers.clone = .ok RatchetTree.twoMembers := by
    decide +kernel
  have hsim := GoProg.clone_simulates htree
  rw [hcopy] at hsim
  obtain ⟨a, m₁, hrun, -⟩ := hsim.exists_run
  obtain ⟨-, hcopied⟩ := clone_faithful_independent plainSuite m m.group.tree hvalid.tree
    (by rw [htree]; exact RatchetTree.twoMembers_reachable) ⟨0, by rw [htree]; decide⟩
  obtain ⟨hold, hnew, -, hlater⟩ := hcopied a m₁ hrun
  rw [htree] at hold hnew
  refine ⟨m, m.group.tree, a, m₁, htree, hrun, hnew, fun later => ?_⟩
  have hkept := hlater [] (by simp) later
  exact ⟨hkept.1.trans hold, hkept.2.trans hnew⟩

theorem identity_length_le_of_clone {leaf : LeafNode} {identity : Bytes}
    (hcred : leaf.credential = .basic identity) {copy : RatchetTree}
    (hclone : (RatchetTree.newRatchetTree leaf).clone = .ok copy) :
    identity.length ≤ maxVarint := by
  obtain ⟨data, hwrite, -⟩ := bind_eq_ok.mp hclone
  have hnodes : RatchetTree.dropTrailingBlanks [some (Node.leaf leaf)] = [some (.leaf leaf)] := rfl
  simp only [RatchetTree.marshal, RatchetTree.newRatchetTree, hnodes, writeVectorV,
    DecoderLaws.encodeAll, writeOptional, Node.marshal, LeafNode.marshal,
    LeafNode.marshalContents, hcred, Credential.marshal, bind_eq_ok] at hwrite
  obtain ⟨_, ⟨_, ⟨_, ⟨_, ⟨_, ⟨_, -, _, -, _, ⟨_, hidentity, -⟩, -⟩, -⟩, -⟩, -⟩, -⟩, -⟩ := hwrite
  exact RatchetTree.writeOpaqueV_length_le hidentity

theorem newRatchetTree_populated (leaf : LeafNode) :
    (RatchetTree.newRatchetTree leaf).Populated 0 := by
  simp [RatchetTree.Populated, RatchetTree.newRatchetTree, RatchetTree.nodeAt,
    RatchetTree.width, u32]

def rootOverLeaf : RatchetTree :=
  ⟨[some (.leaf (RatchetTree.sampleLeaf 1)), some (.parent ⟨[3], [], []⟩), none]⟩

/-- A member with a credential of `2 ^ 30` bytes cannot be copied; and a tree
parsed from bytes may have a populated node that no leaf asks for, so that an
update leaves it wider than its copy. -/
theorem unfaithful_clones :
    (∃ t, RatchetTree.Reachable plainSuite t ∧ t.Populated 0 ∧ ∀ copy, t.clone ≠ .ok copy) ∧
    ∃ data t copy, RatchetTree.parseRatchetTree data = .ok rootOverLeaf ∧
      rootOverLeaf.updateLeaf 0 (RatchetTree.sampleLeaf 2) = .ok t ∧
      t.Populated 0 ∧ t.clone = .ok copy ∧ copy.width = 1 ∧ t.width = 3 := by
  constructor
  · refine ⟨RatchetTree.newRatchetTree { RatchetTree.sampleLeaf 1 with
      credential := .basic (List.replicate (2 ^ 30) 0) }, ⟨_, .refl⟩, ?_, ?_⟩
    · exact newRatchetTree_populated _
    · intro copy hclone
      have hle := identity_length_le_of_clone rfl hclone
      rw [List.length_replicate, maxVarint] at hle
      omega
  · have hclone : rootOverLeaf.clone = .ok rootOverLeaf := by decide +kernel
    obtain ⟨data, -, hparse⟩ := bind_eq_ok.mp hclone
    let updated : Option Node := some (.leaf (RatchetTree.sampleLeaf 2))
    exact ⟨data, ⟨[updated, none, none]⟩, ⟨[updated]⟩, hparse, by decide +kernel,
      by decide, by decide +kernel, rfl, rfl⟩

end MlsGo
