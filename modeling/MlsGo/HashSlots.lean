import MlsGo.PathSlots

/-!
# Tree hashes and installed paths by slots

The tree hash of a slot as a recursion on its level, and `installPath` in one
equation: the entries of the path are computed from the top down out of the
hashes of the copath, which the installation does not touch, and then replace
the ancestors of the sender.
-/

namespace MlsGo

namespace RatchetTree

open InOrderLayout

variable (S : Suite) {t t' : RatchetTree} {h k j L : ℕ} {i : ℕ} {p : ParentNode}
    {entries : GoMap ℕ ParentNode} {f : ℕ → Option Node}

/-! ## Tree hashes -/

def treeHashAt (t : RatchetTree) (excluded : List UInt32) :
    ℕ → ℕ → Result Bytes
  | 0, j => do
      let input ← leafHashInput j (hashedLeaf excluded j (t.slot 0 j))
      return S.hash input
  | k + 1, j => do
      let leftHash ← t.treeHashAt excluded k (2 * j)
      let rightHash ← t.treeHashAt excluded k (2 * j + 1)
      let input ← parentHashInput (hashedParent excluded (t.slot (k + 1) j)) leftHash rightHash
      return S.hash input

theorem Full.treeHashFrom_eq (hf : t.Full h) (excluded : List UInt32) :
    ∀ k fuel j, Inside h k j → k < fuel →
      t.treeHashFrom S excluded fuel (inorder k j) = t.treeHashAt S excluded k j := by
  have hh := hf.le_thirtyOne
  intro k
  induction k with
  | zero =>
      intro fuel j hin hfuel
      obtain ⟨fuel, rfl⟩ : ∃ f, fuel = f + 1 := ⟨fuel - 1, by omega⟩
      have hlt := (inside_iff.mp hin).trans (treeWidth_lt hh)
      have hhalf : inorder 0 j / 2 = j := by
        rw [inorder_zero]
        omega
      simp only [treeHashFrom, left_inorder_zero hlt, hf.index_eq hin, ok_bind, hhalf, treeHashAt]
  | succ k ih =>
      intro fuel j hin hfuel
      obtain ⟨fuel, rfl⟩ : ∃ f, fuel = f + 1 := ⟨fuel - 1, by omega⟩
      have hlt := (inside_iff.mp hin).trans (treeWidth_lt hh)
      have hleft := ih fuel (2 * j) (hin.child (i := 0) (by omega)) (by omega)
      have hright := ih fuel (2 * j + 1) (hin.child (by omega)) (by omega)
      simp only [treeHashFrom, left_inorder hlt, hf.leafCount_eq, right_inorder hh
        (inside_iff.mp hin), ok_bind, hleft, hright, hf.index_eq hin, treeHashAt]

theorem Full.treeHashExcept_eq (hf : t.Full h) (excluded : List UInt32) (hin : Inside h k j) :
    t.treeHashExcept S (inorder k j) excluded = t.treeHashAt S excluded k j :=
  hf.treeHashFrom_eq S excluded k descentFuel j hin
    (by have := hf.le_thirty; have := hin.1; unfold descentFuel; omega)

theorem Full.rootTreeHash_eq (hf : t.Full h) : t.rootTreeHash S = t.treeHashAt S [] h 0 := by
  rw [rootTreeHash, hf.root_eq, hf.treeHashExcept_eq S [] inside_root]

theorem treeHashAt_congr {excluded excluded' : List UInt32} :
    ∀ k j,
      (∀ m, Below k j 0 m →
        hashedLeaf excluded m (t.slot 0 m) = hashedLeaf excluded' m (t'.slot 0 m)) →
      (∀ i m, Below k j (i + 1) m →
        hashedParent excluded (t.slot (i + 1) m) = hashedParent excluded' (t'.slot (i + 1) m)) →
      t.treeHashAt S excluded k j = t'.treeHashAt S excluded' k j := by
  intro k
  induction k with
  | zero =>
      intro j hleaf hparent
      rw [treeHashAt, treeHashAt, hleaf j (Below.self 0 j)]
  | succ k ih =>
      intro j hleaf hparent
      rw [treeHashAt, treeHashAt, hparent k j (Below.self _ j),
        ih (2 * j) (fun m hb => hleaf m (Below.up (b := 0) hb (by omega)))
          (fun i m hb => hparent i m (Below.up (b := 0) hb (by omega))),
        ih (2 * j + 1) (fun m hb => hleaf m (hb.up (by omega)))
          (fun i m hb => hparent i m (hb.up (by omega)))]

theorem treeHashAt_congr_slots (excluded : List UInt32) (k j : ℕ)
    (hsame : ∀ i m, Below k j i m → t.slot i m = t'.slot i m) :
    t.treeHashAt S excluded k j = t'.treeHashAt S excluded k j :=
  treeHashAt_congr S k j (fun m hb => by rw [hsame 0 m hb])
    (fun i m hb => by rw [hsame (i + 1) m hb])

/-- The parent hash that parent node `p` prescribes below it when the other
child is `(k, s)`. -/
def parentHashVia (t : RatchetTree) (p : ParentNode) (k s : ℕ) :
    Result Bytes := do
  let origSibHash ← t.treeHashAt S p.unmergedLeaves k s
  let input ← parentHashBytes p.encryptionKey p.parentHash origSibHash
  return S.hash input

theorem Full.parentHashOf_eq (hf : t.Full h) {s : ℕ}
    (hslot : t.slot i j = some (.parent p)) (hin : Inside h k s) :
    t.parentHashOf S (inorder i j) (inorder k s) = t.parentHashVia S p k s := by
  simp only [parentHashOf, parentAt, hf.index_eq (hf.inside_of_slot hslot),
    hslot, ok_bind, pure_eq_ok, hf.treeHashExcept_eq S _ hin, parentHashVia]

/-! ## Replacing the ancestors of a leaf -/

def withAncestors (t : RatchetTree) (L : ℕ) (f : ℕ → Option Node) :
    ℕ → RatchetTree
  | 0 => t
  | n + 1 => (t.withAncestors L f n).setSlot (n + 1) (L / 2 ^ (n + 1)) (f n)

theorem Full.withAncestors (hf : t.Full h) (L : ℕ) (f : ℕ → Option Node)
    (n : ℕ) : (t.withAncestors L f n).Full h := by
  induction n with
  | zero => exact hf
  | succ n ih => exact ih.setSlot _ _ _

theorem Full.slot_withAncestors (hf : t.Full h) (hL : L < 2 ^ h)
    (f : ℕ → Option Node) {n : ℕ} (hn : n ≤ h) (k j : ℕ) :
    (t.withAncestors L f n).slot k j =
      if 0 < k ∧ k ≤ n ∧ L / 2 ^ k = j then f (k - 1) else t.slot k j := by
  induction n with
  | zero =>
      rw [if_neg (by omega)]
      rfl
  | succ n ih =>
      have hin : Inside h (n + 1) (L / 2 ^ (n + 1)) := inside_ancestor hL hn
      rw [RatchetTree.withAncestors, (hf.withAncestors L f n).slot_setSlot hin, ih (by omega)]
      by_cases htop : k = n + 1
      · subst htop
        by_cases hj : L / 2 ^ (n + 1) = j
        · subst hj
          simp
        · simp [hj, Ne.symm hj]
      · have hle : k ≤ n + 1 ↔ k ≤ n := by omega
        simp [htop, hle]

theorem Full.slot_withAncestors_all (hf : t.Full h) (hL : L < 2 ^ h)
    (f : ℕ → Option Node) (hout : ∀ k, h ≤ k → f k = none) (k j : ℕ) :
    (t.withAncestors L f h).slot k j =
      if 0 < k ∧ L / 2 ^ k = j then f (k - 1) else t.slot k j := by
  rw [hf.slot_withAncestors hL f le_rfl]
  by_cases hk : k ≤ h
  · simp [hk]
  · have hnone := hf.slot_eq_none (k := k) (j := j) (fun hin => hk hin.1)
    simp [hk, hnone, hout (k - 1) (by omega)]

theorem Full.slot_withAncestors_below (hf : t.Full h) (hL : L < 2 ^ h) (f : ℕ → Option Node)
    (hoff : L / 2 ^ k ≠ j) {m : ℕ} (hbelow : Below k j i m) :
    (t.withAncestors L f h).slot i m = t.slot i m := by
  rw [hf.slot_withAncestors hL f le_rfl, if_neg fun hc => hbelow.off_path hoff hc.2.2]

theorem Full.index_withAncestors (hf : t.Full h) (hL : L < 2 ^ h)
    (f : ℕ → Option Node) (hk : k < h) :
    (t.withAncestors L f h).index (pathNode L k) = .ok (f k) := by
  rw [pathNode, (hf.withAncestors L f h).index_eq (inside_ancestor hL hk),
    hf.slot_withAncestors hL f le_rfl, if_pos ⟨by omega, hk, rfl⟩]
  rfl

theorem Full.setNode_withAncestors (hf : t.Full h) (hL : L < 2 ^ h)
    (f : ℕ → Option Node) (hk : k < h) (n : Option Node) :
    (t.withAncestors L f h).setNode (pathNode L k) n =
      .ok (t.withAncestors L (Function.update f k n) h) := by
  have hin : Inside h (k + 1) (L / 2 ^ (k + 1)) := inside_ancestor hL hk
  have hbase := hf.withAncestors L f h
  rw [pathNode, hbase.setNode_eq hin]
  congr 1
  apply (hbase.setSlot _ _ _).ext_slots (hf.withAncestors L _ h)
  intro k' j'
  rw [hbase.slot_setSlot hin, hf.slot_withAncestors hL _ le_rfl, hf.slot_withAncestors hL _ le_rfl]
  by_cases heq : k' = k + 1 ∧ j' = L / 2 ^ (k + 1)
  · obtain ⟨rfl, rfl⟩ := heq
    simp [hk]
  · rw [if_neg heq]
    by_cases hcond : 0 < k' ∧ k' ≤ h ∧ L / 2 ^ k' = j'
    · have hne : k' - 1 ≠ k := by
        rintro rfl
        apply heq
        rw [Nat.sub_add_cancel hcond.1]
        exact ⟨rfl, hcond.2.2.symm⟩
      rw [if_pos hcond, if_pos hcond, Function.update_of_ne hne]
    · rw [if_neg hcond, if_neg hcond]

theorem Full.blankPath_eq (hf : t.Full h) (hL : L < 2 ^ h) :
    t.blankPath (inorder 0 L) = .ok (t.withAncestors L (fun _ => none) h) := by
  obtain ⟨t', hrun, hf', hslots⟩ := hf.blankPath_spec hL
  rw [hrun]
  congr 1
  apply hf'.ext_slots (hf.withAncestors L _ h)
  intro k j
  rw [hslots, hf.slot_withAncestors_all hL _ fun _ _ => rfl]

/-! ## Installing a path -/

/-- The parent hash for what lies below the given path entries, a path node
being recorded with the level of its children. -/
def parentHashBelow (t : RatchetTree) (L : ℕ) :
    GoMap ℕ ParentNode → Result Bytes
  | [] => .ok []
  | (k, p) :: _ => t.parentHashVia S p k (siblingRank (L / 2 ^ k))

def pathEntries (t : RatchetTree) (L : ℕ) :
    List (ℕ × Bytes) → Result (GoMap ℕ ParentNode)
  | [] => .ok []
  | (k, pub) :: rest => do
      let entries ← t.pathEntries L rest
      let parentHash ← t.parentHashBelow S L entries
      return (k, ⟨pub, parentHash, []⟩) :: entries

def entrySlot (entries : GoMap ℕ ParentNode) (k : ℕ) : Option Node :=
  (entries.get k).map Node.parent

variable {S}

theorem pathEntries_cons_eq (k : ℕ) (pub : Bytes) (rest : List (ℕ × Bytes)) :
    t.pathEntries S L ((k, pub) :: rest) = (do
      let entries ← t.pathEntries S L rest
      let parentHash ← t.parentHashBelow S L entries
      return (k, ⟨pub, parentHash, []⟩) :: entries) := rfl

theorem pathEntries_cons {pub : Bytes} {rest : List (ℕ × Bytes)}
    (hrun : t.pathEntries S L ((k, pub) :: rest) = .ok entries) :
    ∃ others parentHash, t.pathEntries S L rest = .ok others ∧
      t.parentHashBelow S L others = .ok parentHash ∧
      entries = (k, ⟨pub, parentHash, []⟩) :: others := by
  simp only [pathEntries_cons_eq, bind_eq_ok, pure_ok_iff] at hrun
  obtain ⟨others, hothers, parentHash, hhash, rfl⟩ := hrun
  exact ⟨others, parentHash, hothers, hhash, rfl⟩

theorem pathEntries_keys {path : List (ℕ × Bytes)} (hrun : t.pathEntries S L path = .ok entries) :
    entries.map Prod.fst = path.map Prod.fst := by
  induction path generalizing entries with
  | nil =>
      cases hrun
      rfl
  | cons head rest ih =>
      obtain ⟨others, parentHash, hothers, -, rfl⟩ := pathEntries_cons hrun
      simp [ih hothers]

theorem entrySlot_eq_none_iff : entrySlot entries k = none ↔ k ∉ entries.map Prod.fst := by
  rw [entrySlot, Option.map_eq_none_iff, GoMap.get_eq_none_iff]

theorem entrySlot_cons (p : ParentNode) (entries : GoMap ℕ ParentNode) (i : ℕ) :
    entrySlot ((i, p) :: entries) k = if k = i then some (.parent p) else entrySlot entries k := by
  change ((GoMap.set entries i p).get k).map Node.parent = _
  rw [GoMap.get_set]
  split <;> rfl

def keySlot (path : List (ℕ × Bytes)) (k : ℕ) : Option Node :=
  (GoMap.get path k).map fun pub => .parent ⟨pub, [], []⟩

theorem keySlot_cons (pub : Bytes) (path : List (ℕ × Bytes)) (i : ℕ) :
    keySlot ((i, pub) :: path) k =
      if k = i then some (.parent ⟨pub, [], []⟩) else keySlot path k := by
  change ((GoMap.set path i pub).get k).map _ = _
  rw [GoMap.get_set]
  split <;> rfl

theorem Full.installKeys_eq (hf : t.Full h) (hL : L < 2 ^ h) :
    ∀ (path : List (ℕ × Bytes)) (f : ℕ → Option Node),
      (∀ k ∈ path.map Prod.fst, k < h) → (path.map Prod.fst).Nodup →
      (t.withAncestors L f h).installKeys (path.map fun e => (pathNode L e.1, e.2)) =
        .ok (t.withAncestors L (fun k => (keySlot path k).or (f k)) h) := by
  intro path
  induction path with
  | nil =>
      intro f _ _
      simp [installKeys, keySlot]
  | cons head rest ih =>
      obtain ⟨k, pub⟩ := head
      intro f hlevels hnodup
      simp only [List.map_cons, List.forall_mem_cons, List.nodup_cons] at hlevels hnodup
      simp only [List.map_cons, installKeys, hf.setNode_withAncestors hL f hlevels.1, ok_bind,
        ih _ hlevels.2 hnodup.2]
      congr 2
      funext i
      rw [keySlot_cons]
      by_cases hi : i = k
      · subst hi
        have hnone : keySlot rest i = none := by
          rw [keySlot, Option.map_eq_none_iff, GoMap.get_eq_none_iff]
          exact hnodup.1
        simp [hnone]
      · simp [hi]

theorem Full.setParentHash_eq (hf : t.Full h) (hL : L < 2 ^ h) (hk : k < h)
    (hkey : f k = some (.parent p)) (parentHash : Bytes) :
    (t.withAncestors L f h).setParentHash (pathNode L k) parentHash =
      .ok (t.withAncestors L (Function.update f k (some (.parent { p with parentHash }))) h) := by
  simp only [setParentHash, parentAt, hf.index_withAncestors hL f hk, hkey,
    ok_bind, pure_eq_ok, hf.setNode_withAncestors hL f hk]

theorem Full.parentHashFor_eq (hf : t.Full h) (hL : L < 2 ^ h) (hk : k < h)
    (hkey : f k = some (.parent p)) (hik : i ≤ k) :
    (t.withAncestors L f h).parentHashFor S (inorder i (L / 2 ^ i)) (pathNode L k) =
      t.parentHashVia S p k (siblingRank (L / 2 ^ k)) := by
  have hbase := hf.withAncestors L f h
  have hin : Inside h k (siblingRank (L / 2 ^ k)) := (inside_ancestor hL hk.le).sibling hk
  have hslot : (t.withAncestors L f h).slot (k + 1) (L / 2 ^ (k + 1)) = some (.parent p) := by
    rw [hf.slot_withAncestors hL f le_rfl, if_pos ⟨by omega, hk, rfl⟩]
    exact hkey
  have hsame := treeHashAt_congr_slots S p.unmergedLeaves k (siblingRank (L / 2 ^ k)) fun i m hb =>
      hf.slot_withAncestors_below hL f (siblingRank_ne _) hb
  simp only [parentHashFor, pathNode, hbase.pathChild_eq hL hk hik, ok_bind,
    hbase.sibling_ancestor_eq hL hk, hbase.parentHashOf_eq S hslot hin, parentHashVia, hsame]

theorem Full.assignParentHashes_eq (hf : t.Full h) (hL : L < 2 ^ h) (f : ℕ → Option Node) :
    ∀ path : List (ℕ × Bytes),
      (∀ e ∈ path, e.1 < h ∧ f e.1 = some (.parent ⟨e.2, [], []⟩)) →
      (path.map Prod.fst).Pairwise (· < ·) →
      (t.withAncestors L f h).assignParentHashes S (path.map fun e => pathNode L e.1) = (do
        let entries ← t.pathEntries S L path
        return t.withAncestors L (fun k => (entrySlot entries k).or (f k)) h) := by
  intro path
  induction path with
  | nil =>
      intro _ _
      simp [assignParentHashes, pathEntries, entrySlot]
  | cons head rest ih =>
      obtain ⟨k, pub⟩ := head
      intro hkeys hsorted
      simp only [List.forall_mem_cons] at hkeys
      simp only [List.map_cons, List.pairwise_cons] at hsorted
      have hrest := ih hkeys.2 hsorted.2
      -- the update of the node at `k` after the entries above it are in place
      have hset : ∀ (entries : GoMap ℕ ParentNode) (ph : Bytes),
          entries.map Prod.fst = rest.map Prod.fst →
          (t.withAncestors L (fun i => (entrySlot entries i).or (f i))
              h).setParentHash (pathNode L k) ph =
            .ok (t.withAncestors L (fun i =>
              (entrySlot ((k, ⟨pub, ph, []⟩) :: entries) i).or (f i)) h) := by
        intro entries ph hfst
        have hfresh : entrySlot entries k = none := by
          rw [entrySlot_eq_none_iff, hfst]
          intro hmem
          exact absurd (hsorted.1 k hmem) (lt_irrefl k)
        rw [hf.setParentHash_eq hL hkeys.1.1 (p := ⟨pub, [], []⟩)
          (by rw [hfresh]; exact hkeys.1.2)]
        congr 2
        funext i
        rw [entrySlot_cons]
        by_cases hi : i = k
        · subst hi
          simp
        · simp [hi]
      cases rest with
      | nil =>
          simpa [assignParentHashes, pathEntries, parentHashBelow, entrySlot] using hset [] [] rfl
      | cons next others =>
          obtain ⟨k', pub'⟩ := next
          have hkk' : k < k' := hsorted.1 k' (by simp)
          have hk' : k' < h := (hkeys.2 (k', pub') (by simp)).1
          simp only [List.map_cons, assignParentHashes] at hrest ⊢
          rw [hrest, pathEntries_cons_eq k pub]
          cases hentries : t.pathEntries S L ((k', pub') :: others) with
          | error fault => simp only [error_bind]
          | ok entries =>
              obtain ⟨above, ph', -, -, rfl⟩ := pathEntries_cons hentries
              have hfor := hf.parentHashFor_eq (S := S) hL
                (f := fun i => (entrySlot
                  ((k', (⟨pub', ph', []⟩ : ParentNode)) :: above) i).or (f i))
                hk' (p := ⟨pub', ph', []⟩) (by simp [entrySlot_cons])
                (i := k + 1) hkk'
              rw [← pathNode] at hfor
              rw [ok_bind, ok_bind, pure_eq_ok, ok_bind, hfor, parentHashBelow]
              cases t.parentHashVia S ⟨pub', ph', []⟩ k' (siblingRank (L / 2 ^ k')) with
              | error fault => simp only [error_bind]
              | ok ph =>
                  simp only [ok_bind]
                  exact hset _ ph (pathEntries_keys hentries)

theorem Full.installPath_eq (hf : t.Full h) {leaf : ℕ} (hleaf : leaf % 2 ^ 31 = L) (hL : L < 2 ^ h)
    {nodePubs : List Bytes} (hlen : nodePubs.length = (t.pathLevels h L).length) :
    t.installPath S leaf nodePubs = (do
      let entries ← t.pathEntries S L ((t.pathLevels h L).zip nodePubs)
      return t.withAncestors L (entrySlot entries) h) := by
  have hfst : ((t.pathLevels h L).zip nodePubs).map Prod.fst =
      t.pathLevels h L := List.map_fst_zip hlen.ge
  have hsorted := t.pathLevels_sorted h L
  have hlevels : ∀ k ∈ ((t.pathLevels h L).zip nodePubs).map Prod.fst, k < h := by
    rw [hfst]
    exact fun k hk => (mem_pathLevels.mp hk).1
  have hnodup : (((t.pathLevels h L).zip nodePubs).map Prod.fst).Nodup := by
    rw [hfst]
    exact hsorted.imp fun hlt => hlt.ne
  have hpairs : ((t.pathLevels h L).map (pathNode L)).zip nodePubs =
      ((t.pathLevels h L).zip nodePubs).map fun e => (pathNode L e.1, e.2) := by
    rw [List.zip_map_left]
    rfl
  have hnodes : (t.pathLevels h L).map (pathNode L) =
      ((t.pathLevels h L).zip nodePubs).map fun e => pathNode L e.1 := by
    conv_lhs => rw [← hfst]
    rw [List.map_map]
    rfl
  have hkeys := hf.installKeys_eq hL ((t.pathLevels h L).zip nodePubs)
    (fun _ => none) hlevels hnodup
  have hassign := hf.assignParentHashes_eq (S := S) hL (fun k =>
    (keySlot ((t.pathLevels h L).zip nodePubs) k).or none) ((t.pathLevels h L).zip nodePubs)
    (fun e he => ⟨hlevels e.1 (List.mem_map_of_mem he), by
      rw [Option.or_none, keySlot, GoMap.get_of_mem hnodup he]
      rfl⟩)
    (by rw [hfst]; exact hsorted)
  rw [installPath, hf.filteredDirectPath_eq hleaf hL, ok_bind, if_neg (by simp [hlen]),
    u32_double, hleaf, hf.blankPath_eq hL, ok_bind, hpairs, hkeys, ok_bind, hnodes, hassign]
  cases hentries : t.pathEntries S L ((t.pathLevels h L).zip nodePubs) with
  | error fault => rfl
  | ok entries =>
      simp only [ok_bind, pure_eq_ok]
      congr 2
      funext k
      cases hentry : entrySlot entries k with
      | some n => simp
      | none =>
          rw [entrySlot_eq_none_iff, pathEntries_keys hentries, ← GoMap.get_eq_none_iff] at hentry
          simp [keySlot, hentry]

end RatchetTree

end MlsGo
