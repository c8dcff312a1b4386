import MlsGo.TreeValidity

/-!
# Parent hashes along a merged path

`Merge` assigns the parent hashes of the path nodes from the top down, so every
path node above the lowest one is matched from below.  Nobody compares the
parent hash that the new leaf carries, and nobody looks whether a node on the
copath happens to carry the parent hash of the path node above it.
-/

namespace MlsGo.RatchetTree

open InOrderLayout

variable {S : Suite} {t t' : RatchetTree} {h k j L : ℕ} {sender i : ℕ} {p : ParentNode}

def copathMatch (S : Suite) (t : RatchetTree) (sender p : ℕ) : Result Bool := do
  let own ← t.pathChild p (u32 (2 * sender))
  let other ← t.copathChild p (u32 (2 * sender))
  t.hasParentHashMatch S p other own

/-- The nodes of a path are matched on one side: the lowest one by the leaf or
else by its copath child, the others, which are matched by the path, not by
their copath child. -/
def PathFits (S : Suite) (t : RatchetTree) (sender : ℕ) (leaf : LeafNode) :
    List ℕ → Prop
  | [] => True
  | p :: rest =>
      (∃ want, t.leafParentHash S sender (p :: rest) = .ok want ∧
        t.copathMatch S sender p = .ok (decide (slotParentHash (some (.leaf leaf)) ≠ some want))) ∧
      ∀ q ∈ rest, t.copathMatch S sender q = .ok false

/-! ## The two children of a path node -/

theorem Full.copathMatch_eq (hf : t.Full h)
    (hsender : sender % 2 ^ 31 = L) (hL : L < 2 ^ h) (hk : k < h) :
    t.copathMatch S sender (pathNode L k) =
      t.hasParentHashMatch S (pathNode L k)
        (inorder k (siblingRank (L / 2 ^ k))) (inorder k (L / 2 ^ k)) := by
  have hchild := hf.pathChild_eq hL hk (Nat.zero_le k)
  rw [pow_zero, Nat.div_one] at hchild
  simp only [copathMatch, u32_double, hsender, pathNode, hchild, hf.copathChild_eq hL hk, ok_bind]

theorem Full.parentHashFor_slot (hf : t.Full h) (hL : L < 2 ^ h) (hk : k < h)
    (hp : t.slot (k + 1) (L / 2 ^ (k + 1)) = some (.parent p)) (hik : i ≤ k) :
    t.parentHashFor S (inorder i (L / 2 ^ i)) (pathNode L k) =
      t.parentHashVia S p k (siblingRank (L / 2 ^ k)) := by
  have hin : Inside h k (siblingRank (L / 2 ^ k)) := (inside_ancestor hL hk.le).sibling hk
  simp only [parentHashFor, pathNode, hf.pathChild_eq hL hk hik, ok_bind,
    hf.sibling_ancestor_eq hL hk, hf.parentHashOf_eq S hp hin]

theorem Full.oneSideMatches_path (hf : t.Full h)
    (hsender : sender % 2 ^ 31 = L) (hL : L < 2 ^ h) (hk : k < h) :
    t.OneSideMatches S (pathNode L k) ↔
      ∃ own other,
        t.hasParentHashMatch S (pathNode L k) (inorder k (L / 2 ^ k))
          (inorder k (siblingRank (L / 2 ^ k))) = .ok own ∧
        t.copathMatch S sender (pathNode L k) = .ok other ∧ own ≠ other := by
  rw [hf.copathMatch_eq hsender hL hk, pathNode,
    hf.oneSideMatches_iff (inside_ancestor hL hk)
      (Nat.mod_lt (L / 2 ^ k) (by norm_num)), own_child_rank, other_child_rank]

theorem Full.hasParentHashMatch_single (hf : t.Full h) {c s m : ℕ}
    (hp : t.slot (k + 1) j = some (.parent p)) (hnil : p.unmergedLeaves = []) (hc : Inside h k c)
    (hs : Inside h k s) (hin : Inside h i m) (hres : t.resolutionAt k c = [inorder i m]) :
    t.hasParentHashMatch S (inorder (k + 1) j) (inorder k c) (inorder k s) =
      (t.parentHashVia S p k s >>= fun want =>
        .ok (decide (slotParentHash (t.slot i m) = some want))) := by
  rw [hf.hasParentHashMatch_bind hp hc hs, hres]
  congr 1
  funext want
  have hset : sameSet ([inorder i m].filter fun x => x ≠ inorder i m)
      (unmergedBelow p (inorder k c)) = true := by
    simp [unmergedBelow, hnil, sameSet]
  simp only [parentHashMatchLoop, hf.nodeParentHash_eq hin, ok_bind, hset, and_true, pure_eq_ok]
  split <;> simp [*]

/-! ## The path from its lower end -/

section Merged

variable {nodePubs : List Bytes} {entries : GoMap ℕ ParentNode} {leaf : LeafNode}

theorem Installed.copath_resolution (hi : Installed S t h L nodePubs entries leaf t') (k : ℕ) :
    t'.resolutionAt k (siblingRank (L / 2 ^ k)) = t.resolutionAt k (siblingRank (L / 2 ^ k)) :=
  resolutionAt_congr k _ fun _ _ hb => hi.slot_off (hb.off_path (siblingRank_ne _))

theorem Installed.parentHashVia_eq
    (hi : Installed S t h L nodePubs entries leaf t') (p : ParentNode) (k : ℕ) :
    t'.parentHashVia S p k (siblingRank (L / 2 ^ k)) =
      t.parentHashVia S p k (siblingRank (L / 2 ^ k)) := by
  rw [parentHashVia, parentHashVia, treeHashAt_congr_slots S _ k _ fun _ _ hb =>
    hi.slot_off (hb.off_path (siblingRank_ne _))]

def ownMatch (S : Suite) (t : RatchetTree) (L k : ℕ) : Result Bool :=
  t.hasParentHashMatch S (pathNode L k) (inorder k (L / 2 ^ k))
    (inorder k (siblingRank (L / 2 ^ k)))

theorem Installed.ownMatch_eq (hi : Installed S t h L nodePubs entries leaf t')
    (hL : L < 2 ^ h) {a : ℕ} (hk : k < h) (hak : a ≤ k)
    (hp : t'.slot (k + 1) (L / 2 ^ (k + 1)) = some (.parent p))
    (hnil : p.unmergedLeaves = [])
    (hself : t'.resolutionAt a (L / 2 ^ a) = [inorder a (L / 2 ^ a)])
    (hblank : ∀ i, a ≤ i → i < k → t'.slot (i + 1) (L / 2 ^ (i + 1)) = none ∧ t.copathEmpty L i) :
    ownMatch S t' L k = (t.parentHashVia S p k (siblingRank (L / 2 ^ k)) >>= fun want =>
        .ok (decide (slotParentHash (t'.slot a (L / 2 ^ a)) = some want))) := by
  have hres : t'.resolutionAt k (L / 2 ^ k) = [inorder a (L / 2 ^ a)] := by
    obtain ⟨n, rfl⟩ := Nat.exists_eq_add_of_le hak
    rw [resolutionAt_descend n fun i hai hik => ⟨(hblank i hai hik).1, ?_⟩, hself]
    rw [hi.copath_resolution]
    simpa [copathEmpty] using (hblank i hai hik).2
  rw [← hi.parentHashVia_eq, ownMatch, pathNode]
  exact hi.full.hasParentHashMatch_single hp hnil (inside_ancestor hL hk.le)
    ((inside_ancestor hL hk.le).sibling hk) (inside_ancestor hL (hak.trans hk.le)) hres

theorem Installed.ownMatch_path (hi : Installed S t h L nodePubs entries leaf t')
    (hL : L < 2 ^ h) :
    ∀ (path : List (ℕ × Bytes)) (es : GoMap ℕ ParentNode) (a : ℕ),
      PathAbove S t t' h L a path es →
      t'.resolutionAt a (L / 2 ^ a) = [inorder a (L / 2 ^ a)] →
      ∀ k p others, es = (k, p) :: others →
        ownMatch S t' L k = (t.parentHashBelow S L es >>= fun want =>
            .ok (decide (slotParentHash (t'.slot a (L / 2 ^ a)) = some want))) ∧
        ∀ e ∈ others, ownMatch S t' L e.1 = .ok true := by
  intro path
  induction path with
  | nil =>
      intro es a hpath _ k p others hes
      cases hpath.entries_eq
      cases hes
  | cons head rest ih =>
      intro es a hpath hself k p others hes
      obtain ⟨k, pub⟩ := head
      obtain ⟨others, ph, rfl, hak, hkh, hph, hslot, hblank, hrest⟩ := hpath.cons
      cases hes
      refine ⟨hi.ownMatch_eq hL hkh hak hslot rfl hself hblank, ?_⟩
      have hrec := ih others (k + 1) hrest (by rw [resolutionAt_of_some hslot]; rfl)
      intro e he
      cases others with
      | nil => cases he
      | cons above others =>
          obtain ⟨hnext, hlater⟩ := hrec above.1 above.2 others rfl
          rcases List.mem_cons.mp he with rfl | he
          · -- `Merge` stored this very hash in the node below
            rw [hnext, hph, ok_bind, hslot]
            simp [slotParentHash]
          · exact hlater e he

theorem Installed.level_lt (hi : Installed S t h L nodePubs entries leaf t')
    {e : ℕ × ParentNode} (he : e ∈ entries) : e.1 < h := by
  have hmem : e.1 ∈ t.pathLevels h L := by
    rw [← hi.keys_eq]
    exact List.mem_map_of_mem he
  exact (mem_pathLevels.mp hmem).1

theorem Installed.leafParentHash_eq (hi : Installed S t h L nodePubs entries leaf t')
    (hsender : sender % 2 ^ 31 = L) (hL : L < 2 ^ h) :
    t'.leafParentHash S sender ((entries.map Prod.fst).map (pathNode L)) =
      t.parentHashBelow S L entries := by
  cases hentries : entries with
  | nil => rfl
  | cons entry others =>
      obtain ⟨k, p⟩ := entry
      have hk : k < h := hi.level_lt (e := (k, p)) (by simp [hentries])
      have hp : t'.slot (k + 1) (L / 2 ^ (k + 1)) = some (.parent p) := by
        rw [hi.slot_on, hentries, entrySlot_cons, if_pos rfl]
      have hfor := hi.full.parentHashFor_slot (S := S) hL hk hp (Nat.zero_le k)
      rw [pow_zero, Nat.div_one] at hfor
      rw [parentHashBelow, ← hi.parentHashVia_eq, ← hfor]
      simp only [List.map_cons, leafParentHash, u32_double, hsender]

theorem Installed.path_matched_iff (hi : Installed S t h L nodePubs entries leaf t')
    (hsender : sender % 2 ^ 31 = L) (hL : L < 2 ^ h) :
    (∀ i ∈ (entries.map Prod.fst).map (pathNode L), t'.OneSideMatches S i) ↔
      PathFits S t' sender leaf ((entries.map Prod.fst).map (pathNode L)) := by
  have hf' := hi.full
  have hown := hi.ownMatch_path hL _ entries 0 hi.pathAbove (by
      rw [pow_zero, Nat.div_one, resolutionAt_of_some hi.slot_leaf]
      rfl)
  rw [pow_zero, Nat.div_one, hi.slot_leaf] at hown
  cases hentries : entries with
  | nil => simp [PathFits]
  | cons entry others =>
      obtain ⟨k, p⟩ := entry
      obtain ⟨hlow, hhigh⟩ := hown k p others hentries
      have hk : k < h := hi.level_lt (e := (k, p)) (by simp [hentries])
      have hwant := hi.leafParentHash_eq hsender hL
      rw [hentries, List.map_cons, List.map_cons, ← hentries] at hwant
      have hfirst : t'.OneSideMatches S (pathNode L k) ↔
          ∃ want, t.parentHashBelow S L entries = .ok want ∧
            t'.copathMatch S sender (pathNode L k) =
              .ok (decide (slotParentHash (some (.leaf leaf)) ≠ some want)) := by
        rw [hf'.oneSideMatches_path hsender hL hk]
        change (∃ own other, ownMatch S t' L k = .ok own ∧ _ ∧ _) ↔ _
        rw [hlow]
        simp only [bind_eq_ok, Except.ok.injEq]
        constructor
        · rintro ⟨own, other, ⟨want, hwant, rfl⟩, hother, hne⟩
          refine ⟨want, hwant, ?_⟩
          rw [hother]
          cases other <;> simp_all
        · rintro ⟨want, hwant, hother⟩
          exact ⟨_, _, ⟨want, hwant, rfl⟩, hother, by simp⟩
      have hothers : ∀ e ∈ others, t'.OneSideMatches S (pathNode L e.1) ↔
          t'.copathMatch S sender (pathNode L e.1) = .ok false := by
        intro e he
        have hke : e.1 < h := hi.level_lt (by simp [hentries, he])
        rw [hf'.oneSideMatches_path hsender hL hke]
        change (∃ own other, ownMatch S t' L e.1 = .ok own ∧ _ ∧ _) ↔ _
        rw [hhigh e he]
        constructor
        · rintro ⟨own, other, hown, hother, hne⟩
          cases hown
          rw [hother]
          cases other <;> simp_all
        · intro hother
          exact ⟨true, false, rfl, hother, by simp⟩
      simp only [List.map_cons, PathFits, List.forall_mem_cons, List.mem_map,
        forall_exists_index, and_imp, forall_apply_eq_imp_iff₂] at hwant ⊢
      rw [hwant, hfirst]
      exact and_congr Iff.rfl (forall₂_congr hothers)

/-! ## Parents on and off the path -/

theorem Installed.filteredDirectPath_eq (hi : Installed S t h L nodePubs entries leaf t')
    (hsender : sender % 2 ^ 31 = L) (hL : L < 2 ^ h) :
    t'.filteredDirectPath sender = .ok ((entries.map Prod.fst).map (pathNode L)) := by
  have hlevels : t'.pathLevels h L = t.pathLevels h L := by
    unfold pathLevels copathEmpty
    simp only [hi.copath_resolution]
  rw [hi.full.filteredDirectPath_eq hsender hL, hlevels, hi.keys_eq]

theorem Installed.mem_path_iff (hi : Installed S t h L nodePubs entries leaf t') :
    pathNode L k ∈ (entries.map Prod.fst).map (pathNode L) ↔
      t'.slot (k + 1) (L / 2 ^ (k + 1)) ≠ none := by
  have hinj : Function.Injective (pathNode L) := by
    intro k k' heq
    have hpair := (inorder_inj.mp heq).1
    omega
  rw [List.mem_map_of_injective hinj, hi.slot_on, Ne, entrySlot_eq_none_iff, not_not]

theorem Installed.path_holdsParent (hi : Installed S t h L nodePubs entries leaf t')
    (hmem : i ∈ (entries.map Prod.fst).map (pathNode L)) : t'.HoldsParent i := by
  obtain ⟨k, -, rfl⟩ := List.mem_map.mp hmem
  rw [hi.mem_path_iff] at hmem
  obtain ⟨n, hn⟩ := Option.ne_none_iff_exists'.mp hmem
  rw [hi.slot_on] at hn
  obtain ⟨p, rfl, -⟩ := entrySlot_eq_some hn
  rw [← hi.slot_on] at hn
  exact ⟨p, Option.join_eq_some_iff.mp hn⟩

theorem Installed.matched_off (hi : Installed S t h L nodePubs entries leaf t')
    (hall : AllMatched S t) (hp : t'.slot (k + 1) j = some (.parent p))
    (hmem : inorder (k + 1) j ∉ (entries.map Prod.fst).map (pathNode L)) :
    Matched S t' k j p := by
  have hj : L / 2 ^ (k + 1) ≠ j := by
    rintro rfl
    exact hmem (hi.mem_path_iff.mpr (by simp [hp]))
  have hp' := hp
  rw [hi.slot_off hj] at hp'
  exact (hall k j p hp').off_path (fun _ _ hne => hi.slot_off hne) hj

theorem Installed.verifyParentHashes_iff (hi : Installed S t h L nodePubs entries leaf t')
    (hsender : sender % 2 ^ 31 = L) (hL : L < 2 ^ h) (hinv : t'.RepresentationInvariant)
    (hall : AllMatched S t) :
    t'.verifyParentHashes S = .ok true ↔
      PathFits S t' sender leaf ((entries.map Prod.fst).map (pathNode L)) := by
  rw [verifyParentHashes_eq_true, ← hi.path_matched_iff hsender hL]
  constructor
  · exact fun hmatch i hmem => hmatch i (hi.path_holdsParent hmem)
  · intro hmatch i hparent
    by_cases hmem : i ∈ (entries.map Prod.fst).map (pathNode L)
    · exact hmatch i hmem
    · exact hinv.oneSideMatches (fun k j p hp hout => hi.matched_off hall hp hout) hparent hmem

end Merged

end MlsGo.RatchetTree
