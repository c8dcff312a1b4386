import MlsGo.CommitAgreement
import MlsGo.CommitValidity
import MlsGo.PathSecrets
import MlsGo.ResolutionCover

/-!
# The Welcome of a commit

The steps of a successful `buildWelcome`, and why it always has the path secret
that a new member is to be given: the leaf of the new member lies below the copath
child of the node where its path meets that of the committer, so that this node is
not filtered out of the committer's path.
-/

namespace MlsGo

open InOrderLayout RatchetTree

variable {S : Suite} {c : Group} {opt : CommitOptions} {rnd : CommitRandomness}
  {d : CommitDraft} {res : CommitResult} {kp : KeyPackage} {leaf L : ℕ}
    {added : List (ℕ × KeyPackage)} {t t' : RatchetTree} {secrets : List EncryptedGroupSecrets}
    {resolved : List Resolved}

/-! ## Steps -/

def CommitDraft.groupInfo (d : CommitDraft) (c : Group) (rtree : Bytes) :
    GroupInfo :=
  ⟨d.newGC, [⟨extensionTypeRatchetTree, rtree⟩], d.confTag, UInt32.ofNat c.ownLeaf, []⟩

structure WelcomeRun (S : Suite) (c : Group) (d : CommitDraft)
    (rnd : CommitRandomness) (welcome : Bytes) where
  rtree : Bytes
  gi : GroupInfo
  giBytes : Bytes
  key : Bytes
  nonce : Bytes
  encGI : Bytes
  secrets : List EncryptedGroupSecrets
  rtree_eq : d.path.tree.marshal = .ok rtree
  gi_eq : (d.groupInfo c rtree).sign S c.signer = .ok gi
  giBytes_eq : gi.marshal = .ok giBytes
  keyNonce_eq : welcomeKeyNonce S d.secrets.welcomeSecret = .ok (key, nonce)
  encGI_eq : S.aeadSeal key nonce [] giBytes = .ok encGI
  secrets_eq : welcomeSecrets S d.secrets d.path.tree.leafCount c.ownLeaf
    d.path.pathSecretByNode (d.applied.psks.map (·.id)) encGI rnd.welcomeSeeds 0
    d.applied.added = .ok secrets
  welcome_eq : encodeWelcomeMessage ⟨S.id, secrets, encGI⟩ = .ok welcome

theorem welcomeRun_of_commitWelcome {out : Option Bytes}
    (hrun : c.commitWelcome S d rnd = .ok out) (hadded : d.applied.added ≠ []) :
    ∃ welcome, out = some welcome ∧ Nonempty (WelcomeRun S c d rnd welcome) := by
  rw [Group.commitWelcome, if_neg (by simpa using hadded)] at hrun
  simp only [buildWelcome, bind_eq_ok, within_eq_ok, liftErr_eq_ok, pure_ok_iff] at hrun
  obtain ⟨welcome, ⟨rtree, hrtree, gi, hgi, giBytes, hgiBytes, ⟨key, nonce⟩, hkey,
    encGI, hencGI, secrets, hsecrets, hwelcome⟩, rfl⟩ := hrun
  exact ⟨welcome, rfl, ⟨⟨rtree, gi, giBytes, key, nonce, encGI, secrets, hrtree, hgi,
    hgiBytes, hkey, hencGI, hsecrets, hwelcome⟩⟩⟩

structure Greeting (S : Suite) (d : CommitDraft) (c : Group) (encGI : Bytes)
    (leaf : ℕ) (kp : KeyPackage) (egs : EncryptedGroupSecrets) where
  node : ℕ
  pathSecret : Bytes
  gsBytes : Bytes
  seed : Bytes
  node_eq : commonAncestor (u32 (2 * leaf)) (u32 (2 * c.ownLeaf)) d.path.tree.leafCount = .ok node
  pathSecret_eq : d.path.pathSecretByNode.get node = some pathSecret
  gsBytes_eq : GroupSecrets.marshal ⟨d.secrets.joinerSecret, some pathSecret,
    d.applied.psks.map (·.id)⟩ = .ok gsBytes
  sealed_eq : S.encryptWithLabel kp.initKey "Welcome" encGI gsBytes seed =
    .ok (egs.encryptedGroupSecrets.kemOutput, egs.encryptedGroupSecrets.ciphertext)
  ref_eq : kp.ref S = .ok egs.newMember

theorem welcomeSecrets_cons {encGI : Bytes} {i : ℕ} {rest : List (ℕ × KeyPackage)}
    (hrun : welcomeSecrets S d.secrets d.path.tree.leafCount c.ownLeaf d.path.pathSecretByNode
    (d.applied.psks.map (·.id)) encGI rnd.welcomeSeeds i ((leaf, kp) :: rest) = .ok secrets) :
    ∃ egs others, secrets = egs :: others ∧
      Nonempty (Greeting S d c encGI leaf kp egs) ∧
      welcomeSecrets S d.secrets d.path.tree.leafCount c.ownLeaf d.path.pathSecretByNode
        (d.applied.psks.map (·.id)) encGI rnd.welcomeSeeds (i + 1) rest = .ok others := by
  rw [welcomeSecrets] at hrun
  obtain ⟨node, hnode, hrun⟩ := bind_eq_ok.mp hrun
  split at hrun
  · cases hrun
  · rename_i ps hps
    simp only [bind_eq_ok, within_eq_ok, pure_ok_iff] at hrun
    obtain ⟨gsBytes, hgs, ⟨kem, ct⟩, hseal, ref, href, others, hothers, rfl⟩ := hrun
    exact ⟨_, others, rfl, ⟨⟨node, ps, gsBytes, rnd.welcomeSeeds i, hnode, hps, hgs,
      hseal, href⟩⟩, hothers⟩

theorem find_welcomeSecrets {encGI : Bytes} {i : ℕ} (hrun : welcomeSecrets S d.secrets
    d.path.tree.leafCount c.ownLeaf d.path.pathSecretByNode (d.applied.psks.map (·.id)) encGI
    rnd.welcomeSeeds i added = .ok secrets) (hrefs : (added.map fun entry => entry.2.ref S).Nodup)
    (hmem : (leaf, kp) ∈ added) :
    ∃ egs, Nonempty (Greeting S d c encGI leaf kp egs) ∧
      secrets.find? (fun other => other.newMember = egs.newMember) = some egs := by
  induction added generalizing i secrets with
  | nil => simp at hmem
  | cons entry rest ih =>
      obtain ⟨leaf', kp'⟩ := entry
      obtain ⟨egs, others, rfl, ⟨greeting⟩, hothers⟩ := welcomeSecrets_cons hrun
      rw [List.map_cons, List.nodup_cons] at hrefs
      rcases List.mem_cons.mp hmem with heq | hmem
      · cases heq
        exact ⟨egs, ⟨greeting⟩, by simp⟩
      · obtain ⟨found, ⟨theirs⟩, hfound⟩ := ih hothers hrefs.2 hmem
        have hne : egs.newMember ≠ found.newMember := by
          intro heq
          refine hrefs.1 ?_
          rw [greeting.ref_eq, heq, ← theirs.ref_eq]
          exact List.mem_map_of_mem (f := fun entry => entry.2.ref S) hmem
        exact ⟨found, ⟨theirs⟩, by rw [List.find?_cons_of_neg (by simpa using hne), hfound]⟩

/-! ## Places in the new tree -/

def Resolved.Spares (leaf : ℕ) (r : Resolved) : Prop :=
  match r.proposal with
  | .update _ => r.sender % 2 ^ 31 ≠ leaf
  | .remove removed => removed.toNat % 2 ^ 31 ≠ leaf
  | _ => True

theorem RatchetTree.Full.addLeaf_taken {h M : ℕ}
    {ln : LeafNode} (hf : t.Full h) (hadd : t.addLeaf ln = .ok (L, t'))
    (htaken : t.slot 0 M ≠ none) : t'.slot 0 M = t.slot 0 M := by
  obtain ⟨⟨hblank, -⟩, -, -, hslots⟩ := hf.addLeaf_ok hadd
  have hne : L ≠ M := by
    rintro rfl
    exact htaken hblank
  rw [hslots]
  simp [hne]

theorem applyAdds_each {Q : ℕ → KeyPackage → RatchetTree → Prop}
    (hnew : ∀ (t t' : RatchetTree) li kp, t.RepresentationInvariant →
    t.addLeaf kp.leafNode = .ok (li, t') → Q li kp t')
    (hkeep : ∀ (t t' : RatchetTree) li kp M ln, t.RepresentationInvariant → Q li kp t →
    t.addLeaf ln = .ok (M, t') → Q li kp t') (hinv : t.RepresentationInvariant)
    (hrun : applyAdds t resolved = .ok (t', added)) :
    ∀ leaf kp, (leaf, kp) ∈ added → Q leaf kp t' := by
  revert hinv
  refine applyAdds_induction (motive := fun t t' added => t.RepresentationInvariant →
    ∀ leaf kp, (leaf, kp) ∈ added → Q leaf kp t') ?done ?add hrun
  case done => simp
  case add =>
    intro t s t' li kp rest others hstep hothers ih hinv leaf kp' hmem
    have hinv' := addLeaf_invariant hinv hstep
    rcases List.mem_cons.mp hmem with heq | hmem
    · cases heq
      exact (applyAdds_keeps (P := fun t => t.RepresentationInvariant ∧ Q li kp t)
        (fun u u' M kp'' _ _ hu hadd => ⟨addLeaf_invariant hu.1 hadd,
          hkeep u u' li kp M kp''.leafNode hu.1 hu.2 hadd⟩)
        ⟨hinv', hnew t s li kp hinv hstep⟩ hothers).2
    · exact ih hinv' leaf kp' hmem

theorem applyAdds_placed (hinv : t.RepresentationInvariant)
    (hrun : applyAdds t resolved = .ok (t', added)) :
    ∀ leaf kp, (leaf, kp) ∈ added → t'.slot 0 leaf = some (.leaf kp.leafNode) := by
  refine applyAdds_each (Q := fun leaf kp t => t.slot 0 leaf = some (.leaf kp.leafNode))
    (fun t t' li kp hinv hadd => ?_) (fun t t' li kp M ln hinv hslot hadd => ?_) hinv hrun
  · obtain ⟨h, hf, -⟩ := hinv.full
    exact (hf.added_of_addLeaf hadd).slot_leaf
  · obtain ⟨h, hf, -⟩ := hinv.full
    rw [hf.addLeaf_taken hadd (by simp [hslot]), hslot]

namespace ApplyRun

variable {wt : RatchetTree} {cm : Commit} {cache : ProposalCache} {currentExt : List Extension}
  {externalPSKs : GoMap Bytes Bytes} {resumptionPSKs : GoMap UInt64 Bytes} {groupID : Bytes}
  {committerLeaf : ℕ} {applied : AppliedProposals}
  (a : ApplyRun wt cm cache currentExt externalPSKs resumptionPSKs groupID committerLeaf applied)

theorem keeps_beside (hinv : wt.RepresentationInvariant)
    (hmember : L ∈ wt.members) (hspares : ∀ r ∈ a.resolved, r.Spares L)
    {P : RatchetTree → Prop}
    (hupdate : ∀ (t t' : RatchetTree) h ln sender, t.Full h → sender % 2 ^ 31 ≠ L → P t →
      t.updateLeaf sender ln = .ok t' → P t')
    (hremove : ∀ (t t' : RatchetTree) h removed, t.Full h → P t →
      t.removeLeaf removed = .ok t' → P t')
    (hadd : ∀ (t t' : RatchetTree) h li ln, t.Full h → t.slot 0 L ≠ none → P t →
      t.addLeaf ln = .ok (li, t') → P t')
    (hwt : P wt) : applied.tree.slot 0 L = wt.slot 0 L ∧ P applied.tree := by
  refine (a.keeps (P := fun t => t.RepresentationInvariant ∧
    t.slot 0 L = wt.slot 0 L ∧ P t) ?_ ?_ ?_ ⟨hinv, rfl, hwt⟩).2
  · rintro t t' ln sender hmem ⟨hinv, hslot, hP⟩ hrun
    obtain ⟨h, hf, -⟩ := hinv.full
    obtain ⟨-, -, hslots⟩ := hf.updateLeaf_ok hrun
    have hne : sender % 2 ^ 31 ≠ L := hspares _ hmem
    refine ⟨updateLeaf_invariant hinv hrun, ?_, hupdate t t' h ln sender hf hne hP hrun⟩
    rw [hslots, if_neg (by rwa [pow_zero, Nat.div_one]), hslot]
  · rintro t t' removed sender hmem ⟨hinv, hslot, hP⟩ hrun
    obtain ⟨h, hf, -⟩ := hinv.full
    obtain ⟨h', -, -, -, hslots, -⟩ := hf.removeLeaf_ok hrun
    have hne : removed.toNat % 2 ^ 31 ≠ L := hspares _ hmem
    refine ⟨removeLeaf_invariant hinv hrun, ?_, hremove t t' h _ hf hP hrun⟩
    rw [hslots, if_neg (by rwa [pow_zero, Nat.div_one]), hslot]
  · rintro t t' li kp sender - ⟨hinv, hslot, hP⟩ hrun
    obtain ⟨h, hf, -⟩ := hinv.full
    have htaken : t.slot 0 L ≠ none := by
      rw [hslot]
      exact hmember
    exact ⟨addLeaf_invariant hinv hrun, by rw [hf.addLeaf_taken hrun htaken, hslot],
      hadd t t' h li kp.leafNode hf htaken hP hrun⟩

theorem slot_spared (hinv : wt.RepresentationInvariant)
    (hmember : L ∈ wt.members) (hspares : ∀ r ∈ a.resolved, r.Spares L) :
    applied.tree.slot 0 L = wt.slot 0 L :=
  (a.keeps_beside (P := fun _ => True) hinv hmember hspares (fun _ _ _ _ _ _ _ _ _ => trivial)
    (fun _ _ _ _ _ _ _ => trivial) (fun _ _ _ _ _ _ _ _ _ => trivial) trivial).1

include a in
theorem slot_added (hinv : wt.RepresentationInvariant) (hmem : (leaf, kp) ∈ applied.added) :
    applied.tree.slot 0 leaf = some (.leaf kp.leafNode) := by
  obtain ⟨hinv, -⟩ := applyUpdates_spec hinv a.updated_eq
  obtain ⟨hinv, -⟩ := applyRemoves_spec hinv a.removed_eq
  exact applyAdds_placed hinv a.added_eq leaf kp hmem

end ApplyRun

/-! ## The path secret of a new member -/

def SparesCommitter (S : Suite) (c : Group) (opt : CommitOptions) : Prop :=
  ∀ refs cache resolved, c.Resolves S opt refs cache resolved → ∀ r ∈ resolved, r.Spares c.ownLeaf

structure Meeting (c : Group) (d : CommitDraft) (leaf h k : ℕ)
    (secret : Bytes) : Prop where
  full : d.path.tree.Full h
  leaf_lt : leaf < 2 ^ h
  committer_lt : c.ownLeaf < 2 ^ h
  level_lt : k < h
  fork : leaf / 2 ^ k = siblingRank (c.ownLeaf / 2 ^ k)
  node_eq : commonAncestor (u32 (2 * leaf)) (u32 (2 * c.ownLeaf))
    d.path.tree.leafCount = .ok (pathNode c.ownLeaf k)
  secret_eq : d.path.pathSecretByNode.get (pathNode c.ownLeaf k) = some secret

section Meetings

variable (a : DraftRun S c opt rnd d) (hinv : c.tree.RepresentationInvariant)
  (hmember : c.ownLeaf ∈ c.tree.members) (hspares : SparesCommitter S c opt)

include a hinv hmember hspares

theorem DraftRun.places :
    d.applied.tree.RepresentationInvariant ∧
      d.applied.tree.slot 0 c.ownLeaf = c.tree.slot 0 c.ownLeaf ∧
      ∀ leaf kp, (leaf, kp) ∈ d.applied.added →
        d.applied.tree.slot 0 leaf = some (.leaf kp.leafNode) ∧ leaf ≠ c.ownLeaf := by
  obtain ⟨run⟩ := applyRun_of_applyProposals a.applied_eq
  have hwt := hinv.eq_of_clone a.wt_eq
  have hinvW : a.wt.RepresentationInvariant := hwt ▸ hinv
  have hspared := hspares a.refs a.cache run.resolved ⟨a.cache_eq, run.resolved_eq⟩
  refine ⟨run.invariant hinvW, ?_, fun leaf kp hmem => ⟨run.slot_added hinvW hmem, ?_⟩⟩
  · rw [run.slot_spared hinvW (hwt ▸ hmember) hspared, hwt]
  · have hkept : c.ownLeaf ∉ removedBy run.resolved := by
      rintro ⟨removed, sender, hremoved, heq⟩
      exact hspared _ hremoved heq
    rintro rfl
    exact (run.member_kept hinvW (hwt ▸ hmember) hkept).2
      (List.mem_map_of_mem (f := Prod.fst) hmem)

theorem DraftRun.exists_meeting (hmem : (leaf, kp) ∈ d.applied.added) :
    ∃ h k secret, Meeting c d leaf h k secret := by
  obtain ⟨hinvA, -, hadded⟩ := a.places hinv hmember hspares
  obtain ⟨hslot, hne⟩ := hadded leaf kp hmem
  obtain ⟨h, hf, -⟩ := hinvA.full
  have hh := hf.le_thirtyOne
  obtain ⟨p⟩ := pathRun_of_generateUpdatePath a.path_eq
  have hown : c.ownLeaf % 2 ^ 31 = c.ownLeaf :=
    Nat.mod_eq_of_lt (by have := hinv.member_lt hmember; omega)
  have hL := (p.sender_slot hf).1
  rw [hown] at hL
  have hR := hf.member_lt (show d.applied.tree.slot 0 leaf ≠ none by simp [hslot])
  have hleaf : leaf % 2 ^ 31 = leaf := by
    have := hinvA.member_lt (L := leaf) (by simp [members, hslot])
    exact Nat.mod_eq_of_lt (by omega)
  obtain ⟨k, hk, hfork, hmeet⟩ := exists_fork hL hR hne.symm
  obtain ⟨entries, -, hi⟩ := p.installed_tree hf
  -- the leaf of the new member is below the copath child
  have hpath : k ∈ d.applied.tree.pathLevels h (c.ownLeaf % 2 ^ 31) := by
    refine mem_pathLevels.mpr ⟨hk, ?_⟩
    obtain ⟨x, ⟨hx, -⟩, -⟩ := hf.resolutionAt_covers hinvA.wellFormed
      (show d.applied.tree.slot 0 leaf ≠ none by simp [hslot]) k
    rw [hown, copathEmpty, ← hfork, List.isEmpty_iff]
    exact List.ne_nil_of_mem hx
  obtain ⟨secret, hsecret⟩ := p.exists_secret hf hpath
  rw [hown] at hsecret
  refine ⟨h, k, secret, hi.full, hR, hL, hk, hfork, ?_, hsecret⟩
  rw [hi.full.leafCount_eq, u32_double, u32_double, hown, hleaf,
    commonAncestor_eq hh hL hR hk hfork, pathNode, hmeet]

end Meetings

/-! ## No Welcome fails for want of a path secret -/

def MissesSecret {α : Type} (result : Result α) : Prop :=
  ∃ node leaf committer, result = .error (.err (.noPathSecret node leaf committer))

section Misses

variable {α β : Type}

@[simp] theorem missesSecret_ok (value : α) : ¬ MissesSecret (.ok value : Result α) := by
  simp [MissesSecret]

@[simp] theorem missesSecret_within (message : String) (result : Result α) :
    ¬ MissesSecret (within message result) := by
  rcases result with (_ | _ | _) | _ <;> simp [within, MissesSecret]

theorem missesSecret_bind {first : Result α} {next : α → Result β} :
    MissesSecret (first >>= next) ↔ MissesSecret first ∨
      ∃ value, first = .ok value ∧ MissesSecret (next value) := by
  cases first with
  | error fault => simp [MissesSecret]
  | ok value => simp

theorem StopsAtLimit.not_missesSecret {result : Result α}
    (hstops : StopsAtLimit result) : ¬ MissesSecret result := by
  rintro ⟨node, leaf, committer, rfl⟩
  obtain ⟨error, heq, hlimit⟩ := hstops _ rfl
  cases heq
  exact hlimit

def WantsPathSecret (result : Result α) : Prop :=
  ∃ node leaf committer, result =
    .error (.err (.wrap "group: Commit: buildWelcome" (.noPathSecret node leaf committer)))

@[simp] theorem wantsPathSecret_ok (value : α) : ¬ WantsPathSecret (.ok value : Result α) := by
  simp [WantsPathSecret]

theorem wantsPathSecret_within {message : String} {result : Result α} :
    WantsPathSecret (within message result) ↔
      message = "group: Commit: buildWelcome" ∧ MissesSecret result := by
  rcases result with (_ | _ | _) | _ <;> simp [within, WantsPathSecret, MissesSecret]

theorem wantsPathSecret_bind {first : Result α} {next : α → Result β} :
    WantsPathSecret (first >>= next) ↔ WantsPathSecret first ∨
      ∃ value, first = .ok value ∧ WantsPathSecret (next value) := by
  cases first with
  | error fault => simp [WantsPathSecret]
  | ok value => simp

end Misses

theorem append_ne_of_not_prefix {head tail text : String}
    (hhead : ¬ head.toList <+: text.toList) : head ++ tail ≠ text := by
  rintro rfl
  exact hhead (by rw [String.toList_append]; exact List.prefix_append _ _)

theorem cacheProposals_not_wantsPathSecret (g : Group) {messages : List Bytes}
    {idx : ℕ} {cache : ProposalCache} :
    ¬ WantsPathSecret (g.cacheProposals S "group: Commit: by-reference" messages idx cache) := by
  induction messages generalizing idx cache with
  | nil => simp [Group.cacheProposals]
  | cons message rest ih =>
      have htext : ∀ caller, caller = "group: Commit: by-reference" →
          s!"{caller}[{idx}]" ≠ "group: Commit: buildWelcome" := by
        rintro caller rfl
        rw [String.append_assoc, String.append_assoc]
        exact append_ne_of_not_prefix (by decide)
      rw [Group.cacheProposals, wantsPathSecret_bind, wantsPathSecret_within]
      rintro (⟨heq, -⟩ | ⟨entry, -, hrest⟩)
      · exact htext _ rfl heq
      · rcases wantsPathSecret_bind.mp hrest with hrest | ⟨out, -, hout⟩
        · exact ih hrest
        · exact wantsPathSecret_ok _ hout

theorem draftCommit_not_wantsPathSecret : ¬ WantsPathSecret (c.draftCommit S opt rnd) := by
  simp [Group.draftCommit, wantsPathSecret_bind, wantsPathSecret_within,
    cacheProposals_not_wantsPathSecret]

theorem assembleCommit_not_wantsPathSecret (guard : ReuseGuard) :
    ¬ WantsPathSecret (c.assembleCommit S d guard) := by
  unfold Group.assembleCommit
  split <;> simp [wantsPathSecret_bind, wantsPathSecret_within]

theorem addPathSecrets_not_wantsPathSecret (priv : TreeKEMPrivate) (secrets : List (ℕ × Bytes)) :
    ¬ WantsPathSecret (addPathSecrets S (fun nodeIdx =>
      s!"group: Commit: AddPathSecret(node {nodeIdx})") priv secrets) := by
  induction secrets generalizing priv with
  | nil => simp [addPathSecrets]
  | cons entry rest ih =>
      have htext : s!"group: Commit: AddPathSecret(node {entry.1})" ≠
          "group: Commit: buildWelcome" := by
        rw [String.append_assoc]
        exact append_ne_of_not_prefix (by decide)
      rw [addPathSecrets, wantsPathSecret_bind, wantsPathSecret_within]
      rintro (⟨heq, -⟩ | ⟨priv', -, hrest⟩)
      · exact htext heq
      · exact ih priv' hrest

theorem senderPriv_not_wantsPathSecret (ownLeaf : ℕ) (leafSecret : Bytes)
    (pathSecretByNode : GoMap ℕ Bytes) :
    ¬ WantsPathSecret (senderPriv S "group: Commit: DeriveSecret(leafNodeSecret)"
      "group: Commit: DeriveKeyPair(newLeaf)" (fun nodeIdx =>
      s!"group: Commit: AddPathSecret(node {nodeIdx})") ownLeaf leafSecret pathSecretByNode) := by
  simp only [senderPriv, wantsPathSecret_bind, wantsPathSecret_within,
    String.reduceEq, false_and, false_or]
  rintro ⟨secret, -, keys, -, hadd⟩
  exact addPathSecrets_not_wantsPathSecret _ _ hadd

theorem welcomeSecrets_not_missesSecret (rnd : CommitRandomness) (encGI : Bytes) (i : ℕ)
    (hmeet : ∀ leaf kp, (leaf, kp) ∈ added → ∃ h k secret, Meeting c d leaf h k secret) :
    ¬ MissesSecret (welcomeSecrets S d.secrets d.path.tree.leafCount c.ownLeaf
      d.path.pathSecretByNode (d.applied.psks.map (·.id)) encGI rnd.welcomeSeeds i added) := by
  induction added generalizing i with
  | nil => simp [welcomeSecrets]
  | cons entry rest ih =>
      obtain ⟨leaf, kp⟩ := entry
      obtain ⟨h, k, secret, m⟩ := hmeet leaf kp List.mem_cons_self
      have hrest := fun i => ih i fun leaf kp hmem => hmeet leaf kp (List.mem_cons_of_mem _ hmem)
      simp [welcomeSecrets, m.node_eq, m.secret_eq, missesSecret_bind, hrest]

theorem commit_not_wantsPathSecret (hinv : c.tree.RepresentationInvariant)
    (hmember : c.ownLeaf ∈ c.tree.members) (hspares : SparesCommitter S c opt) :
    ¬ WantsPathSecret (c.commit S opt rnd) := by
  rw [Group.commit, wantsPathSecret_bind, not_or]
  refine ⟨draftCommit_not_wantsPathSecret, ?_⟩
  rintro ⟨d, hdraft, hfinish⟩
  obtain ⟨a⟩ := draftRun_of_draftCommit hdraft
  have hwelcome : ¬ MissesSecret (buildWelcome S d.secrets d.newGC d.path.tree
      c.ownLeaf c.signer d.applied.added d.path.pathSecretByNode d.confTag
      (d.applied.psks.map (·.id)) rnd.welcomeSeeds) := by
    have hsecrets := fun encGI => welcomeSecrets_not_missesSecret (S := S) rnd encGI 0
      fun leaf kp hmem => a.exists_meeting hinv hmember hspares hmem
    simp [buildWelcome, missesSecret_bind, hsecrets,
      (encodeWelcomeMessage_stops _).not_missesSecret]
  have hnone : ¬ WantsPathSecret (c.commitWelcome S d rnd) := by
    unfold Group.commitWelcome
    split
    · simp
    · simp [wantsPathSecret_bind, wantsPathSecret_within, hwelcome]
  simp only [Group.finishCommit, wantsPathSecret_bind, wantsPathSecret_within, String.reduceEq,
    false_and, pure_eq_ok, wantsPathSecret_ok, and_false, exists_false, or_false,
    assembleCommit_not_wantsPathSecret, hnone, senderPriv_not_wantsPathSecret] at hfinish

end MlsGo
