import MlsGo.PathKeys
import MlsGo.SymbolicKnowledge

/-!
# Who can compute the keys of the tree

Every key of the tree gets a term: it was drawn for a leaf, or derived from the leaf
secret of a commit.  A member draws the secrets of its own leaf and of its own
commits, opens the path secrets that were encrypted to keys it can compute, and
ratchets them upwards.  All it reaches that way are keys of its own path, from the
time when it was in the group: what leaves the path of a removed member is blank, so
no key that is still there was ever opened to it.
-/

namespace MlsGo

open InOrderLayout RatchetTree SymbolicKnowledge

variable {S : Suite} {creator : LeafNode} {X f k j : ℕ} {before : RatchetTree} {pub : Bytes}
    {pubs : List Bytes}

/-! ## Steps -/

/-- What is drawn at random: the leaf secret of a path, the private key of a leaf and
that of a key package's init key, the latter two by their public keys. -/
inductive Drawn where
  | leafSecret (secret : Bytes)
  | leafKey (pub : Bytes)
  | initKey (pub : Bytes)
  deriving DecidableEq

abbrev SecretTerm := Term String Drawn

/-- A commit that became an epoch: the tree after its proposals, the path that was made
for that tree, its sender, who is new if it enters by the commit, the leaves that were
updated, those that were vacated, and the members that were added. -/
structure PathStep where
  tree : RatchetTree
  path : GeneratedPath
  sender : ℕ
  leafSecret : Bytes
  entering : Bool
  updated : List ℕ
  vacated : Set ℕ
  added : List (ℕ × KeyPackage)

namespace PathStep

def renewed (s : PathStep) : List ℕ := (s.updated ++ s.added.map Prod.fst).dedup

def Arrives (s : PathStep) (X : ℕ) : Prop :=
  X ∈ s.added.map Prod.fst ∨ s.entering = true ∧ X = s.sender

def levelSecret (s : PathStep) (f : ℕ) : SecretTerm :=
  .chain "path" ((s.tree.pathLevels f s.sender).length + 1) (.fresh (.leafSecret s.leafSecret))

def pathKey (s : PathStep) : ℕ → Option SecretTerm
  | 0 => some (.derive "node" (.fresh (.leafSecret s.leafSecret)))
  | f + 1 =>
      if s.tree.copathEmpty s.sender f then none
      else some (.derive "node" (s.levelSecret f))

def Reaches (s : PathStep) (f k j : ℕ) : Prop :=
  inorder k j ∈ s.tree.resolutionAt f (siblingRank (s.sender / 2 ^ f)) ∧
    inorder k j ∉ addedNodes (s.added.map Prod.fst)

def draws (s : PathStep) : List (ℕ × Drawn) :=
  (s.sender, .leafSecret s.leafSecret) ::
    ((s.renewed.filterMap fun L => (s.tree.slot 0 L).map fun n => (L, .leafKey n.encryptionKey)) ++
    s.added.map fun entry => (entry.1, .initKey entry.2.initKey))

end PathStep

/-! ## Histories of steps, the latest first -/

def treeAfter (creator : LeafNode) : List PathStep → RatchetTree
  | [] => newRatchetTree creator
  | s :: _ => s.path.tree

def keyTerm (creator : LeafNode) : List PathStep → ℕ → ℕ → Option SecretTerm
  | [], k, j => if k = 0 ∧ j = 0 then some (.fresh (.leafKey creator.encryptionKey)) else none
  | s :: past, k, j =>
      if s.sender / 2 ^ k = j then s.pathKey k
      else match s.tree.slot k j with
        | none => none
        | some n =>
            if k = 0 ∧ j ∈ s.renewed then some (.fresh (.leafKey n.encryptionKey))
            else keyTerm creator past k j

/-- The member that came to leaf `X` at time `a` is there; the creator came to leaf 0
at time 0. -/
def Stays (a X : ℕ) : List PathStep → Prop
  | [] => a = 0 ∧ X = 0
  | s :: past => past.length + 1 = a ∧ s.Arrives X ∨ Stays a X past ∧ X ∉ s.vacated

def drawsAt (creator : LeafNode) : List PathStep → List (ℕ × Drawn)
  | [] => [(0, .leafKey creator.encryptionKey)]
  | s :: _ => s.draws

def allDraws (creator : LeafNode) : List PathStep → List (ℕ × Drawn)
  | [] => drawsAt creator []
  | s :: past => s.draws ++ allDraws creator past

def Fresh (creator : LeafNode) (steps : List PathStep) : Prop :=
  ((allDraws creator steps).map Prod.snd).Nodup

instance (creator : LeafNode) (steps : List PathStep) :
    Decidable (Fresh creator steps) := inferInstanceAs (Decidable (List.Nodup _))

/-- What members draw, who are given by the times when they came and their leaves:
what is drawn at their leaves while they are there, and anything that enters nobody's
tree. -/
def Owns (creator : LeafNode) (steps : List PathStep) (M : Set (ℕ × ℕ)) : Set Drawn :=
  {x | (∃ T X a, T <:+ steps ∧ (X, x) ∈ drawsAt creator T ∧ (a, X) ∈ M ∧ Stays a X T) ∨
    ∀ T X, T <:+ steps → (X, x) ∉ drawsAt creator T}

/-- The path secrets that are sent: those of the paths, encrypted to keys of the tree,
and the one in each Welcome, encrypted to the init key of the new member. -/
inductive Sent (creator : LeafNode) (steps : List PathStep) :
    SecretTerm → SecretTerm → Prop where
  | path {s : PathStep} {past : List PathStep} {f k j : ℕ} {key : SecretTerm}
      (hs : s :: past <:+ steps) (hreaches : s.Reaches f k j)
      (hkey : keyTerm creator (s :: past) k j = some key) :
      Sent creator steps key (s.levelSecret f)
  | welcome {s : PathStep} {past : List PathStep} {f Y : ℕ} {kp : KeyPackage}
      (hs : s :: past <:+ steps) (hadded : (Y, kp) ∈ s.added)
      (hfork : Y / 2 ^ f = siblingRank (s.sender / 2 ^ f))
      (hlevel : ¬ s.tree.copathEmpty s.sender f) :
      Sent creator steps (.fresh (.initKey kp.initKey)) (s.levelSecret f)

def Computes (creator : LeafNode) (steps : List PathStep) (M : Set (ℕ × ℕ)) :
    SecretTerm → Prop := Knows (Owns creator steps M) (Sent creator steps)

/-! ## What was drawn -/

variable {T steps past : List PathStep} {x : Drawn} {s : PathStep} {key t : SecretTerm}

theorem drawsAt_subset (hT : T <:+ steps) : drawsAt creator T ⊆ allDraws creator steps := by
  induction steps with
  | nil =>
      rw [List.suffix_nil.mp hT]
      exact List.Subset.refl _
  | cons s past ih =>
      rcases List.suffix_cons_iff.mp hT with rfl | hT
      · exact List.subset_append_left _ _
      · exact List.Subset.trans (ih hT) (List.subset_append_right _ _)

theorem Fresh.unique (hfresh : Fresh creator steps)
    {T' : List PathStep} (hT : T <:+ steps) (hT' : T' <:+ steps) {X' : ℕ}
    (hx : (X, x) ∈ drawsAt creator T) (hx' : (X', x) ∈ drawsAt creator T') :
    T = T' ∧ X = X' := by
  induction steps with
  | nil =>
      obtain rfl := List.suffix_nil.mp hT
      obtain rfl := List.suffix_nil.mp hT'
      simp only [drawsAt, List.mem_singleton, Prod.mk.injEq] at hx hx'
      exact ⟨rfl, hx.1.trans hx'.1.symm⟩
  | cons s past ih =>
      rw [Fresh, allDraws, List.map_append, List.nodup_append] at hfresh
      obtain ⟨hnew, hold, hdisjoint⟩ := hfresh
      have hapart : ∀ {Y Y' T''}, (Y, x) ∈ s.draws → T'' <:+ past →
          (Y', x) ∉ drawsAt creator T'' := by
        intro Y Y' T'' hY hT'' hY'
        exact hdisjoint x (List.mem_map_of_mem hY) x
          (List.mem_map_of_mem (drawsAt_subset hT'' hY')) rfl
      rcases List.suffix_cons_iff.mp hT with rfl | hT
      · rcases List.suffix_cons_iff.mp hT' with rfl | hT'
        · have := List.inj_on_of_nodup_map hnew hx hx' rfl
          exact ⟨rfl, congrArg Prod.fst this⟩
        · exact absurd hx' (hapart hx hT')
      · rcases List.suffix_cons_iff.mp hT' with rfl | hT'
        · exact absurd hx (hapart hx' hT)
        · exact ih hold hT hT'

theorem not_stays_of_vacated {a : ℕ}
    (hsuffix : s :: past <:+ T) (hvacated : X ∈ s.vacated) (ha : a ≤ past.length) :
    ¬ Stays a X T := by
  induction T with
  | nil => simp at hsuffix
  | cons s' past' ih =>
      rintro (⟨rfl, -⟩ | ⟨hstays, hkept⟩)
      · have := hsuffix.length_le
        simp only [List.length_cons] at this
        omega
      · rcases List.suffix_cons_iff.mp hsuffix with heq | hsuffix
        · cases heq
          exact hkept hvacated
        · exact ih hsuffix hstays

/-! ## Validity of steps -/

/-- What a commit does to the tree `before`: off the path of the sender, the nodes that
are populated after the proposals are renewed leaves or have kept their keys, and
nothing but a new leaf is left of the path of a vacated leaf. -/
structure PathStep.Valid (S : Suite) (before : RatchetTree) (s : PathStep) : Prop where
  generated : ∃ signer groupID mkGroupContext seeds,
    Nonempty (PathRun S s.tree s.sender s.leafSecret signer groupID
      (s.added.map Prod.fst) mkGroupContext seeds s.path)
  invariant : s.tree.RepresentationInvariant
  sender_lt : s.sender < 2 ^ 31
  kept : ∀ k j n, s.sender / 2 ^ k ≠ j → s.tree.slot k j = some n →
    k = 0 ∧ j ∈ s.renewed ∨ ∃ n', before.slot k j = some n' ∧ n'.encryptionKey = n.encryptionKey
  cleared : ∀ X ∈ s.vacated, ∀ k n, s.sender / 2 ^ k ≠ X / 2 ^ k →
    s.tree.slot k (X / 2 ^ k) = some n → k = 0 ∧ X ∈ s.renewed

def ValidSteps (S : Suite) (creator : LeafNode) : List PathStep → Prop
  | [] => True
  | s :: past => s.Valid S (treeAfter creator past) ∧ ValidSteps S creator past

theorem ValidSteps.suffix (hvalid : ValidSteps S creator steps) (hT : T <:+ steps) :
    ValidSteps S creator T := by
  induction steps with
  | nil => rwa [List.suffix_nil.mp hT]
  | cons s past ih =>
      rcases List.suffix_cons_iff.mp hT with rfl | hT
      · exact hvalid
      · exact ih hvalid.2 hT

/-! ## The bound on knowledge -/

theorem RatchetTree.pathLevels_length_lt {t : RatchetTree} {L f' : ℕ}
    (hlevel : ¬ t.copathEmpty L f') (hlt : f' < f) :
    (t.pathLevels f' L).length < (t.pathLevels f L).length := by
  have hcount := pathLevels_length_add (t := t) (L := L) hlt.le
  have hle : (List.range' f' (f - f')).countP (t.copathEmpty L) < f - f' := by
    rw [show f - f' = f - f' - 1 + 1 by omega, List.range'_succ, List.countP_cons_of_neg hlevel]
    exact Nat.lt_succ_of_le (List.countP_le_length.trans (by simp))
  omega

theorem PathStep.le_of_yields
    (hkey : s.pathKey k = some key) (hyields : (s.levelSecret f).Yields key) :
    f + 1 ≤ k := by
  cases k with
  | zero =>
      cases hkey
      exact absurd (hyields.chain_le (n := 0) (by decide)) (by omega)
  | succ f' =>
      rw [pathKey] at hkey
      split at hkey
      · cases hkey
      · next hlevel =>
          cases hkey
          have hle := hyields.chain_le (by decide)
          by_contra hlt
          have := pathLevels_length_lt hlevel (show f' < f by omega)
          omega

@[simp] theorem PathStep.root_levelSecret (s : PathStep) (f : ℕ) :
    (s.levelSecret f).root = .leafSecret s.leafSecret := by
  simp [levelSecret]

theorem PathStep.root_pathKey
    (hkey : s.pathKey k = some key) : key.root = .leafSecret s.leafSecret := by
  cases k with
  | zero =>
      cases hkey
      rfl
  | succ f =>
      rw [pathKey] at hkey
      split at hkey
      · cases hkey
      · cases hkey
        exact s.root_levelSecret f

section Bound

variable {steps : List PathStep} {M : Set (ℕ × ℕ)}

def Covered (M : Set (ℕ × ℕ)) (T : List PathStep) (k j : ℕ) : Prop :=
  ∃ a X, (a, X) ∈ M ∧ Stays a X T ∧ X / 2 ^ k = j

/-- What limits the knowledge of `M`: a term comes from what somebody of `M` has drawn,
or from a path secret of a node above somebody of `M`. -/
def Bounded (creator : LeafNode) (steps : List PathStep) (M : Set (ℕ × ℕ))
    (t : SecretTerm) : Prop :=
  ∀ T X, T <:+ steps → (X, t.root) ∈ drawsAt creator T →
    Covered M T 0 X ∨
      ∃ s past f, T = s :: past ∧ t.root = .leafSecret s.leafSecret ∧
        Covered M T (f + 1) (s.sender / 2 ^ (f + 1)) ∧ (s.levelSecret f).Yields t

theorem Covered.up {k' : ℕ} (hcovered : Covered M T k (j / 2 ^ k))
    (hle : k ≤ k') : Covered M T k' (j / 2 ^ k') := by
  obtain ⟨a, X, hmem, hstays, heq⟩ := hcovered
  exact ⟨a, X, hmem, hstays, ancestor_congr heq hle⟩

theorem bounded_own (hfresh : Fresh creator steps)
    (hx : x ∈ Owns creator steps M) : Bounded creator steps M (.fresh x) := by
  intro T X hT hdrawn
  rcases hx with ⟨T', X', a, hT', hdrawn', hmem, hstays⟩ | hnever
  · obtain ⟨rfl, rfl⟩ := hfresh.unique hT hT' hdrawn hdrawn'
    exact .inl ⟨a, X, hmem, hstays, by simp⟩
  · exact absurd hdrawn (hnever T X hT)

theorem Bounded.derive (hbounded : Bounded creator steps M t)
    (label : String) : Bounded creator steps M (.derive label t) := by
  intro T X hT hdrawn
  rcases hbounded T X hT hdrawn with howns | ⟨s, past, f, rfl, hroot, hcovered, hyields⟩
  · exact .inl howns
  · exact .inr ⟨s, past, f, rfl, hroot, hcovered, hyields.step label⟩

theorem Bounded.covered_of_drawn (hbounded : Bounded creator steps M (.fresh x)) (hT : T <:+ steps)
    (hdrawn : (X, x) ∈ drawsAt creator T) (hx : ∀ secret, x ≠ .leafSecret secret) :
    Covered M T 0 X := by
  rcases hbounded T X hT hdrawn with howns | ⟨s, -, -, -, hroot, -⟩
  · exact howns
  · exact absurd hroot (hx _)

theorem Bounded.covered_of_pathKey (hs : s :: past <:+ steps)
    (hbounded : Bounded creator steps M key) (hkey : s.pathKey k = some key) :
    Covered M (s :: past) k (s.sender / 2 ^ k) := by
  have hdrawn : (s.sender, key.root) ∈ drawsAt creator (s :: past) := by
    rw [s.root_pathKey hkey]
    exact List.mem_cons_self
  rcases hbounded _ _ hs hdrawn with ⟨a, X, hmem, hstays, heq⟩ |
      ⟨s', past', f, heq, -, hcovered, hyields⟩
  · rw [pow_zero, Nat.div_one] at heq
    exact ⟨a, X, hmem, hstays, by rw [heq]⟩
  · cases heq
    exact hcovered.up (s.le_of_yields hkey hyields)

/-- A key of the tree is known below its node only: whoever could open it was there
when it came, and has not left, or its path would be blank. -/
theorem Bounded.covered (hvalid : ValidSteps S creator T) (hT : T <:+ steps)
    (hkey : keyTerm creator T k j = some key) (hbounded : Bounded creator steps M key) :
    Covered M T k j := by
  induction T with
  | nil =>
      rw [keyTerm] at hkey
      split at hkey
      · next hzero =>
          obtain ⟨rfl, rfl⟩ := hzero
          cases hkey
          exact hbounded.covered_of_drawn hT List.mem_cons_self (by simp)
      · cases hkey
  | cons s past ih =>
      rw [keyTerm] at hkey
      split at hkey
      · next hpath =>
          subst hpath
          exact hbounded.covered_of_pathKey hT hkey
      · next hoff =>
          split at hkey
          · cases hkey
          · next n hn =>
              split at hkey
              · next hrenewed =>
                  obtain ⟨rfl, hrenewed⟩ := hrenewed
                  cases hkey
                  refine hbounded.covered_of_drawn hT ?_ (by simp)
                  refine List.mem_cons_of_mem _ (List.mem_append_left _ ?_)
                  exact List.mem_filterMap.mpr ⟨j, hrenewed, by simp [hn]⟩
              · next hkept =>
                  obtain ⟨a, X, hmem, hstays, rfl⟩ :=
                    ih hvalid.2 ((List.suffix_cons s past).trans hT) hkey
                  refine ⟨a, X, hmem, .inr ⟨hstays, fun hvacated => hkept ?_⟩, rfl⟩
                  obtain ⟨rfl, hrenewed⟩ := hvalid.1.cleared X hvacated k n hoff hn
                  exact ⟨rfl, by simpa using hrenewed⟩

theorem bounded_levelSecret (hfresh : Fresh creator steps) (hs : s :: past <:+ steps)
    (hcovered : Covered M (s :: past) f (siblingRank (s.sender / 2 ^ f))) :
    Bounded creator steps M (s.levelSecret f) := by
  intro T X hT hdrawn
  rw [s.root_levelSecret] at hdrawn
  obtain ⟨rfl, rfl⟩ := hfresh.unique hT hs hdrawn List.mem_cons_self
  obtain ⟨a, Y, hmem, hstays, heq⟩ := hcovered
  exact .inr ⟨s, past, f, rfl, s.root_levelSecret f,
    ⟨a, Y, hmem, hstays, (meet_of_fork heq).symm⟩, .refl⟩

theorem PathStep.Valid.below (hs : s.Valid S before) (hreaches : s.Reaches f k j) :
    Below f (siblingRank (s.sender / 2 ^ f)) k j ∧ s.tree.slot k j ≠ none := by
  obtain ⟨h, hf, -⟩ := hs.invariant.full
  obtain ⟨i, m, heq, hbelow, hne⟩ := hf.mem_resolutionAt hs.invariant.wellFormed _ _ _ hreaches.1
  obtain ⟨rfl, rfl⟩ := inorder_inj.mp heq
  exact ⟨hbelow, hne⟩

theorem Covered.of_below {k' j' : ℕ} (hcovered : Covered M T k j)
    (hbelow : Below k' j' k j) : Covered M T k' j' := by
  obtain ⟨a, X, hmem, hstays, rfl⟩ := hcovered
  obtain ⟨hle, hdiv⟩ := hbelow
  refine ⟨a, X, hmem, hstays, ?_⟩
  rw [← hdiv, Nat.div_div_eq_div_mul, ← pow_add, Nat.add_sub_cancel' hle]

theorem Computes.bounded (hvalid : ValidSteps S creator steps)
    (hfresh : Fresh creator steps) (ht : Computes creator steps M t) :
    Bounded creator steps M t := by
  induction ht with
  | own hx => exact bounded_own hfresh hx
  | derive label _ ih => exact ih.derive label
  | opens hsent _ ih =>
      cases hsent with
      | @path s past f k j key hs hreaches hkey =>
          have hcovered := ih.covered (hvalid.suffix hs) hs hkey
          obtain ⟨hbelow, -⟩ := (hvalid.suffix hs).1.below hreaches
          exact bounded_levelSecret hfresh hs (hcovered.of_below hbelow)
      | @welcome s past f Y kp hs hadded hfork _ =>
          have hdrawn : (Y, Drawn.initKey kp.initKey) ∈ drawsAt creator (s :: past) :=
            List.mem_cons_of_mem _ (List.mem_append_right _ (List.mem_map.mpr ⟨_, hadded, rfl⟩))
          obtain ⟨a, X, hmem, hstays, heq⟩ := ih.covered_of_drawn hs hdrawn (by simp)
          rw [pow_zero, Nat.div_one] at heq
          exact bounded_levelSecret hfresh hs ⟨a, X, hmem, hstays, by rw [heq, hfork]⟩

theorem Computes.covered (hvalid : ValidSteps S creator steps)
    (hfresh : Fresh creator steps) (hT : T <:+ steps) (hkey : keyTerm creator T k j = some key)
    (hcomputes : Computes creator steps M key) : Covered M T k j :=
  (hcomputes.bounded hvalid hfresh).covered (hvalid.suffix hT) hT hkey

end Bound

/-! ## The keys of the code -/

/-- The value of a term: a leaf secret, or what the suite derives from it. -/
inductive Evaluates (S : Suite) : SecretTerm → Bytes → Prop where
  | leafSecret (secret : Bytes) : Evaluates S (.fresh (.leafSecret secret)) secret
  | derive {t : SecretTerm} {s s' : Bytes} (label : String) (h : Evaluates S t s)
      (hderive : S.deriveSecret s label = .ok s') : Evaluates S (.derive label t) s'

/-- The private key that is the term, or that is made from it, belongs to the public
key `pub`. -/
inductive KeyOf (S : Suite) : SecretTerm → Bytes → Prop where
  | leaf (pub : Bytes) : KeyOf S (.fresh (.leafKey pub)) pub
  | node {t : SecretTerm} {s key pub : Bytes} (h : Evaluates S (.derive "node" t) s)
      (hpair : S.deriveKeyPair s = .ok (key, pub)) : KeyOf S (.derive "node" t) pub

theorem Evaluates.chain {secret s : Bytes} {n : ℕ}
    (ht : Evaluates S t secret) (hrun : ratchet S secret n = .ok s) :
    Evaluates S (.chain "path" n t) s := by
  induction n generalizing t secret with
  | zero =>
      cases hrun
      exact ht
  | succ n ih =>
      obtain ⟨next, hnext, hrest⟩ := bind_eq_ok.mp hrun
      exact ih (ht.derive "path" hnext) hrest

theorem keyOf_node {s key : Bytes} (ht : Evaluates S t s)
    (hpair : nodeKeyPair S s = .ok (key, pub)) : KeyOf S (.derive "node" t) pub := by
  obtain ⟨nodeSecret, hsecret, hpair⟩ := bind_eq_ok.mp hpair
  exact .node (ht.derive "node" hsecret) (liftErr_eq_ok.mp hpair)

theorem PathStep.Valid.keyOf_pathKey {n : Node} (hs : s.Valid S before)
    (hn : s.path.tree.slot k (s.sender / 2 ^ k) = some n) :
    ∃ t, s.pathKey k = some t ∧ KeyOf S t n.encryptionKey := by
  obtain ⟨signer, groupID, mkGroupContext, seeds, ⟨p⟩⟩ := hs.generated
  obtain ⟨h, hf, -⟩ := hs.invariant.full
  have hmod : s.sender % 2 ^ 31 = s.sender := Nat.mod_eq_of_lt hs.sender_lt
  cases k with
  | zero =>
      have hslot := p.slot_sender hf
      rw [pow_zero, Nat.div_one, ← hmod, hslot] at hn
      cases hn
      refine ⟨_, rfl, ?_⟩
      rw [show (Node.leaf s.path.updatePath.leafNode).encryptionKey = p.leafPub from
        p.leaf_encryptionKey]
      exact keyOf_node (.leafSecret _) p.leafKeys_eq
  | succ f =>
      rw [← hmod] at hn
      obtain ⟨secret, key, hsecret, hpair⟩ := p.secret_of_slot hf hn
      obtain ⟨f', hlevel, heq, hratchet, -⟩ := p.secret_spec hf hsecret
      obtain rfl := pathNode_injective _ heq
      rw [hmod] at hlevel hratchet
      refine ⟨_, if_neg (mem_pathLevels.mp hlevel).2, ?_⟩
      exact keyOf_node (Evaluates.chain (.leafSecret _) hratchet) hpair

theorem PathStep.Valid.slot_off (hs : s.Valid S before) (hoff : s.sender / 2 ^ k ≠ j) :
    s.path.tree.slot k j = s.tree.slot k j := by
  obtain ⟨signer, groupID, mkGroupContext, seeds, ⟨p⟩⟩ := hs.generated
  obtain ⟨h, hf, -⟩ := hs.invariant.full
  exact p.slot_off hf (by rwa [Nat.mod_eq_of_lt hs.sender_lt])

theorem keyOf_keyTerm (hvalid : ValidSteps S creator steps) {n : Node}
    (hn : (treeAfter creator steps).slot k j = some n) :
    ∃ t, keyTerm creator steps k j = some t ∧ KeyOf S t n.encryptionKey := by
  induction steps generalizing n with
  | nil =>
      have hf : (newRatchetTree creator).Full 0 := ⟨rfl, by omega⟩
      have hin := hf.inside_of_slot hn
      obtain ⟨rfl, rfl⟩ : k = 0 ∧ j = 0 := by
        have := hin.1
        have := hin.2
        obtain rfl : k = 0 := by omega
        exact ⟨rfl, by simpa using this⟩
      cases hn
      exact ⟨_, rfl, .leaf _⟩
  | cons s past ih =>
      obtain ⟨hs, hpast⟩ := hvalid
      rw [treeAfter] at hn
      rw [keyTerm]
      split
      · next hpath =>
          subst hpath
          exact hs.keyOf_pathKey hn
      · next hoff =>
          rw [hs.slot_off hoff] at hn
          rw [hn]
          by_cases hrenewed : k = 0 ∧ j ∈ s.renewed
          · exact ⟨_, if_pos hrenewed, .leaf _⟩
          · obtain ⟨n', hn', hkey⟩ := (hs.kept k j n hoff hn).resolve_left hrenewed
            simp only [if_neg hrenewed, ← hkey]
            exact ih hpast hn'

/-! ## The ciphertexts of the code -/

theorem RatchetTree.mem_recipientKeys {t : RatchetTree} {skipped nodes : List ℕ}
    (hrun : t.recipientKeys skipped nodes = .ok pubs) (hpub : pub ∈ pubs) :
    ∃ d ∈ nodes, d ∉ skipped ∧ t.nodePublicKey d = .ok pub := by
  induction nodes generalizing pubs with
  | nil =>
      cases hrun
      cases hpub
  | cons d ds ih =>
      rw [recipientKeys] at hrun
      split at hrun
      · obtain ⟨d', hd', hrest⟩ := ih hrun hpub
        exact ⟨d', List.mem_cons_of_mem _ hd', hrest⟩
      · next hskip =>
          simp only [bind_eq_ok, pure_ok_iff] at hrun
          obtain ⟨pk, hpk, pks, hpks, rfl⟩ := hrun
          rcases List.mem_cons.mp hpub with rfl | hpub
          · exact ⟨d, List.mem_cons_self, by simpa using hskip, hpk⟩
          · obtain ⟨d', hd', hrest⟩ := ih hpks hpub
            exact ⟨d', List.mem_cons_of_mem _ hd', hrest⟩

theorem RatchetTree.Full.copathRecipients_getElem {t : RatchetTree} {h L : ℕ}
    (hf : t.Full h) (hL : L < 2 ^ h) {skipped levels : List ℕ}
    {resPubs : List (List Bytes)} {i : ℕ}
    (hlevels : ∀ k ∈ levels, k < h)
    (hrun : t.copathRecipients (inorder 0 L) skipped (levels.map (pathNode L)) =
      .ok resPubs) (hlevel : levels[i]? = some f) (hpubs : resPubs[i]? = some pubs) :
    t.recipientKeys skipped (t.resolutionAt f (siblingRank (L / 2 ^ f))) = .ok pubs := by
  induction levels generalizing resPubs i with
  | nil => simp at hlevel
  | cons k levels ih =>
      rw [List.forall_mem_cons] at hlevels
      obtain ⟨hchild, hres⟩ := hf.resolution_copath hL hlevels.1
      simp only [List.map_cons, copathRecipients, hchild, hres, ok_bind, bind_eq_ok,
        pure_ok_iff] at hrun
      obtain ⟨first, hfirst, others, hothers, rfl⟩ := hrun
      cases i with
      | zero =>
          cases hlevel
          cases hpubs
          exact hfirst
      | succ i => exact ih hlevels.2 hothers hlevel hpubs

def PathStep.EncryptsTo (S : Suite) (s : PathStep) (pub secret : Bytes) : Prop :=
  ∃ signer groupID mkGroupContext seeds,
    ∃ p : PathRun S s.tree s.sender s.leafSecret signer groupID
      (s.added.map Prod.fst) mkGroupContext seeds s.path,
    ∃ nodePub recipients,
      (nodePub, secret, recipients) ∈ p.nodePubs.zip (p.pathSecrets.zip p.resPubs) ∧
        pub ∈ recipients

theorem PathStep.Valid.reaches {secret : Bytes}
    (hs : s.Valid S before) (hencrypts : s.EncryptsTo S pub secret) :
    ∃ f k j n, s.Reaches f k j ∧ s.tree.slot k j = some n ∧ n.encryptionKey = pub ∧
      Evaluates S (s.levelSecret f) secret := by
  obtain ⟨signer, groupID, mkGroupContext, seeds, p, nodePub, recipients, hmem, hpub⟩ := hencrypts
  obtain ⟨h, hf, -⟩ := hs.invariant.full
  have hmod : s.sender % 2 ^ 31 = s.sender := Nat.mod_eq_of_lt hs.sender_lt
  have hL := (p.sender_slot hf).1
  have hpath := p.path_levels hf
  rw [hmod] at hL hpath
  obtain ⟨i, hi⟩ := List.mem_iff_getElem?.mp hmem
  obtain ⟨-, hi⟩ := List.getElem?_zip_eq_some.mp hi
  obtain ⟨hsecret, hrecipients⟩ := List.getElem?_zip_eq_some.mp hi
  -- the level of the path at which the ciphertext stands
  have hlt : i < (s.tree.pathLevels h s.sender).length := by
    have hlen := (List.getElem?_eq_some_iff.mp hsecret).1
    rw [pathSecretsFrom_length p.pathSecrets_eq, hpath, List.length_map] at hlen
    exact hlen
  have hlevel : (s.tree.pathLevels h s.sender)[i]? =
      some (s.tree.pathLevels h s.sender)[i] := List.getElem?_eq_getElem hlt
  generalize (s.tree.pathLevels h s.sender)[i] = f at hlevel
  have hrun := p.resPubs_eq
  rw [u32_double, hmod, hpath] at hrun
  have hkeys := hf.copathRecipients_getElem hL
    (fun k hk => (mem_pathLevels.mp hk).1) hrun hlevel hrecipients
  obtain ⟨d, hd, hskipped, hkey⟩ := mem_recipientKeys hkeys hpub
  obtain ⟨k, j, rfl, -, -⟩ := hf.mem_resolutionAt hs.invariant.wellFormed _ _ _ hd
  obtain ⟨n, hn, heq⟩ := nodePublicKey_eq_ok.mp hkey
  refine ⟨f, k, j, n, ⟨hd, hskipped⟩, hn, heq, Evaluates.chain (.leafSecret _) ?_⟩
  rw [pathLevels_position hlevel]
  exact pathSecretsFrom_ratchet p.pathSecrets_eq hsecret

theorem PathStep.Valid.off_path
    (hs : s.Valid S before) (hreaches : s.Reaches f k j) : s.sender / 2 ^ k ≠ j := by
  rintro rfl
  obtain ⟨⟨hle, hdiv⟩, -⟩ := hs.below hreaches
  rw [Nat.div_div_eq_div_mul, ← pow_add, Nat.add_sub_cancel' hle] at hdiv
  exact siblingRank_ne _ hdiv

end MlsGo
