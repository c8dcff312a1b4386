import MlsGo.RepresentationInvariant

/-!
# Copies of a tree through its wire form

`clone` writes a tree and parses the result.  Trailing blanks are not written,
and the parser pads the array to the next full width; under the representation
invariant that width is the original one, so a tree with a member that can be
written at all is copied exactly.
-/

namespace MlsGo

namespace RatchetTree

open InOrderLayout DecoderLaws

variable {t : RatchetTree} {h : ℕ} {data : Bytes} {t' : RatchetTree}

theorem dropTrailingBlanks_append (nodes : List (Option Node)) :
    ∃ m, nodes = dropTrailingBlanks nodes ++ List.replicate m none := by
  refine ⟨(nodes.reverse.takeWhile Option.isNone).length, ?_⟩
  have hblank : nodes.reverse.takeWhile Option.isNone =
      List.replicate (nodes.reverse.takeWhile Option.isNone).length none := by
    rw [List.eq_replicate_iff]
    refine ⟨rfl, fun n hn => ?_⟩
    simpa using List.all_eq_true.mp List.all_takeWhile n hn
  have hsplit := congrArg List.reverse
    (List.takeWhile_append_dropWhile (p := Option.isNone) (l := nodes.reverse))
  rw [List.reverse_append, List.reverse_reverse, hblank, List.reverse_replicate] at hsplit
  exact hsplit.symm

theorem getLast?_dropTrailingBlanks (nodes : List (Option Node)) :
    (dropTrailingBlanks nodes).getLast? ≠ some none := by
  rw [dropTrailingBlanks, List.getLast?_reverse]
  intro hnone
  have hhead := List.head?_dropWhile_not Option.isNone nodes.reverse
  rw [hnone] at hhead
  simp at hhead

theorem roundTrips_slots : RoundTrips (fun items => writeVectorV items fun n =>
      writeOptional n Node.marshal) (readVectorV (readOptional decodeNode)) := by
  refine roundTrips_vectorV (roundTrips_optional roundTrips_node) ?_
  rintro (_ | n) encoded hwrite
  · cases hwrite
    simp
  · obtain ⟨body, -, hwrite⟩ := bind_eq_ok.mp hwrite
    cases hwrite
    simp

theorem slot_dropTrailingBlanks (t : RatchetTree) (k j : ℕ) :
    (RatchetTree.mk (dropTrailingBlanks t.nodes)).slot k j = t.slot k j := by
  obtain ⟨m, hm⟩ := dropTrailingBlanks_append t.nodes
  rw [← slot_append_blanks _ m, ← hm]

theorem lt_length_dropTrailingBlanks {k j : ℕ} (hslot : t.slot k j ≠ none) :
    inorder k j < (dropTrailingBlanks t.nodes).length := by
  rw [← slot_dropTrailingBlanks] at hslot
  by_contra hge
  rw [slot, List.getElem?_eq_none (by simpa using hge)] at hslot
  exact hslot rfl

theorem Full.pad_dropTrailingBlanks {h : ℕ} (hf : t.Full h)
    (hgt : ∀ i < h, treeWidth i < (dropTrailingBlanks t.nodes).length) :
    RatchetTree.mk (padToFullWidth (dropTrailingBlanks t.nodes)) = t := by
  have hle : (dropTrailingBlanks t.nodes).length ≤ treeWidth h := by
    obtain ⟨m, hm⟩ := dropTrailingBlanks_append t.nodes
    have hlen := congrArg List.length hm
    rw [hf.length_eq, List.length_append] at hlen
    omega
  refine (padToFullWidth_full hf.le_thirty hle hgt).ext_slots hf fun k j => ?_
  rw [slot_padToFullWidth, slot_dropTrailingBlanks]

theorem RepresentationInvariant.pad_dropTrailingBlanks (hinv : t.RepresentationInvariant) :
    RatchetTree.mk (padToFullWidth (dropTrailingBlanks t.nodes)) = t := by
  obtain ⟨h, hf, hright⟩ := hinv.full
  refine hf.pad_dropTrailingBlanks fun i hi => ?_
  obtain ⟨L, hL, hne⟩ := hright (by omega)
  have hlt := lt_length_dropTrailingBlanks hne
  have hmono := treeWidth_strictMono.monotone (show i ≤ h - 1 by omega)
  have hadd := treeWidth_add_one (h - 1)
  have hpow : 2 ^ (h - 1 + 1) = 2 * 2 ^ (h - 1) := by ring
  rw [inorder_zero] at hlt
  omega

theorem parse_marshal_of_pad
    (hpad : RatchetTree.mk (padToFullWidth (dropTrailingBlanks t.nodes)) = t)
    (hne : dropTrailingBlanks t.nodes ≠ [])
    (hwrite : t.marshal = .ok data) : parseRatchetTree data = .ok t := by
  have hread := roundTrips_slots _ _ hwrite []
  rw [List.append_nil] at hread
  rw [parseRatchetTree, hread, ok_bind]
  simp only [List.isEmpty_nil, not_true_eq_false, if_false]
  cases hget : (dropTrailingBlanks t.nodes).getLast? with
  | none => exact absurd (List.getLast?_eq_none_iff.mp hget) hne
  | some last =>
      cases last with
      | none => exact absurd hget (getLast?_dropTrailingBlanks t.nodes)
      | some last => exact congrArg Except.ok hpad

theorem RepresentationInvariant.parse_marshal (hinv : t.RepresentationInvariant)
    (hmember : ∃ L, t.slot 0 L ≠ none)
    (hwrite : t.marshal = .ok data) : parseRatchetTree data = .ok t := by
  obtain ⟨L, hL⟩ := hmember
  have hlen := lt_length_dropTrailingBlanks hL
  exact parse_marshal_of_pad hinv.pad_dropTrailingBlanks
    (List.ne_nil_of_length_pos (by omega)) hwrite

theorem RepresentationInvariant.clone_eq (hinv : t.RepresentationInvariant)
    (hmember : ∃ L, t.slot 0 L ≠ none) (hwrite : t.marshal = .ok data) : t.clone = .ok t := by
  rw [clone, hwrite, ok_bind]
  exact hinv.parse_marshal hmember hwrite

theorem clone_ok (hclone : t.clone = .ok t') :
    t' = ⟨padToFullWidth (dropTrailingBlanks t.nodes)⟩ := by
  obtain ⟨data, hwrite, hparse⟩ := bind_eq_ok.mp hclone
  have hread := roundTrips_slots _ _ hwrite []
  rw [List.append_nil] at hread
  rw [parseRatchetTree, hread, ok_bind] at hparse
  simp only [List.isEmpty_nil, not_true_eq_false, if_false] at hparse
  split at hparse
  · exact absurd hparse fail_ne_ok
  · exact absurd hparse fail_ne_ok
  · cases hparse
    rfl

theorem slot_clone (hclone : t.clone = .ok t') (k j : ℕ) : t'.slot k j = t.slot k j := by
  rw [clone_ok hclone, slot_padToFullWidth, slot_dropTrailingBlanks]

theorem RepresentationInvariant.eq_of_clone (hinv : t.RepresentationInvariant)
    (hclone : t.clone = .ok t') : t' = t := (clone_ok hclone).trans hinv.pad_dropTrailingBlanks

end RatchetTree

end MlsGo
