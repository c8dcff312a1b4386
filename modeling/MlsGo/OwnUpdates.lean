import MlsGo.CommitValidity
import MlsGo.ExternalAgreement
import MlsGo.LimitErrors
import MlsGo.ProposalOrder
import MlsGo.WireLimit

/-!
# Own Updates in a commit

A member that proposed Updates of its leaf keeps the private key of each as
pending.  When a commit applies some of them, two passes over its proposals
decide what the member ends up with: `applyProposals` writes the leaf once per
Update, so the last one stays, and `resolveOwnUpdatePriv` takes the pending key
of the first one.  An Update blanks the path above the leaf, so that key is all
the member needs to follow the commit.
-/

namespace MlsGo

open InOrderLayout

variable {S : Suite} {g : Group} {leaf : LeafNode} {proposals : List ProposalOrRef}
    {up : UpdatePath} {messages seeds : List Bytes} {ps : List Proposal}

/-! ## The leaf after its Updates -/

def ownUpdates (leaf : ℕ) (resolved : List Resolved) : List LeafNode :=
  resolved.filterMap fun r =>
    match r.proposal with
    | .update ln => if r.sender = leaf then some ln else none
    | _ => none

namespace RatchetTree

variable {t t' : RatchetTree} {h L : ℕ} {l ln : LeafNode}

structure Refreshed (t : RatchetTree) (L : ℕ) (l : LeafNode) : Prop where
  full : ∃ h, t.Full h
  leaf : t.slot 0 L = some (.leaf l)
  above : ∀ k, t.slot (k + 1) (L / 2 ^ (k + 1)) = none

theorem Full.refreshed_updateLeaf (hf : t.Full h)
    (hupdate : t.updateLeaf L l = .ok t') : t'.Refreshed (L % 2 ^ 31) l := by
  obtain ⟨-, hf', hslots⟩ := hf.updateLeaf_ok hupdate
  exact ⟨⟨h, hf'⟩, by simp [hslots], fun k => by simp [hslots]⟩

theorem Refreshed.updateLeaf (hr : t.Refreshed L l) {sender : ℕ}
    (hother : sender % 2 ^ 31 ≠ L) (hupdate : t.updateLeaf sender ln = .ok t') :
    t'.Refreshed L l := by
  obtain ⟨h, hf⟩ := hr.full
  obtain ⟨-, hf', hslots⟩ := hf.updateLeaf_ok hupdate
  refine ⟨⟨h, hf'⟩, ?_, fun k => ?_⟩
  · rw [hslots, pow_zero, Nat.div_one, if_neg hother, hr.leaf]
  · rw [hslots, hr.above k]
    simp

theorem Refreshed.removeLeaf (hr : t.Refreshed L l) {removed : ℕ}
    (hother : removed % 2 ^ 31 ≠ L) (hremove : t.removeLeaf removed = .ok t') :
    t'.Refreshed L l := by
  obtain ⟨h, hf⟩ := hr.full
  obtain ⟨h', -, -, hf', hslots, -⟩ := hf.removeLeaf_ok hremove
  refine ⟨⟨h', hf'⟩, ?_, fun k => ?_⟩
  · rw [hslots, pow_zero, Nat.div_one, if_neg hother, hr.leaf]
  · rw [hslots, hr.above k, ite_self]

theorem Refreshed.addLeaf (hr : t.Refreshed L l) {M : ℕ}
    (hadd : t.addLeaf ln = .ok (M, t')) : t'.Refreshed L l := by
  obtain ⟨h, hf⟩ := hr.full
  obtain ⟨⟨hblank, -⟩, -, hf', hslots⟩ := hf.addLeaf_ok hadd
  have hother : M ≠ L := by
    rintro rfl
    rw [hr.leaf] at hblank
    cases hblank
  refine ⟨⟨_, hf'⟩, ?_, fun k => ?_⟩
  · rw [hslots, pow_zero, Nat.div_one, if_neg hother, hr.leaf]
  · rw [hslots, hr.above k]
    simp [addUnmerged]

theorem Refreshed.fits (hr : t.Refreshed L l) {key : Bytes}
    (hmatch : S.Matching key l.encryptionKey) :
    Fits S t L (TreeKEMPrivate.new L key) := by
  obtain ⟨h, hf⟩ := hr.full
  have hL : L < 2 ^ h := hf.member_lt (by simp [hr.leaf])
  have hle := hf.two_pow_le
  have hindex : u32 (2 * L) = inorder 0 L := by
    rw [u32_double, Nat.mod_eq_of_lt (by omega)]
  have hkeys : ∀ d, (TreeKEMPrivate.new L key).privateKey d =
      if d = inorder 0 L then some key else none := by
    intro d
    rw [TreeKEMPrivate.privateKey_new, hindex]
  constructor
  · intro d pub key' hpub hkey
    rw [hkeys] at hkey
    split at hkey
    · next hd =>
        cases hkey
        rw [hd, nodePublicKey_eq_ok, hr.leaf] at hpub
        obtain ⟨n, hn, rfl⟩ := hpub
        cases hn
        exact hmatch
    · cases hkey
  · intro k n hn _
    cases k with
    | zero => exact ⟨key, by simp [hkeys]⟩
    | succ k =>
        rw [hr.above k] at hn
        cases hn

end RatchetTree

section Applied

variable {t t' : RatchetTree} {h L : ℕ} {l : LeafNode} {resolved : List Resolved}

theorem ownUpdates_cons_update {ln : LeafNode} {sender : ℕ} :
    ownUpdates L (⟨.update ln, sender⟩ :: resolved) =
      if sender = L then ln :: ownUpdates L resolved else ownUpdates L resolved := by
  by_cases hown : sender = L
  · simp [ownUpdates, hown]
  · simp [ownUpdates, hown]

theorem applyUpdates_refreshed (hf : t.Full h)
    (hown : ∀ ln sender, ⟨.update ln, sender⟩ ∈ resolved → sender % 2 ^ 31 = L → sender = L)
    (hlast : (ownUpdates L resolved).getLast? = some l ∨
      ownUpdates L resolved = [] ∧ t.Refreshed L l)
    (hL : L < 2 ^ 31) (hrun : applyUpdates t resolved = .ok t') :
    t'.Refreshed L l := by
  induction resolved generalizing t with
  | nil =>
      cases hrun
      rcases hlast with hlast | ⟨-, hr⟩
      · cases hlast
      · exact hr
  | cons r rest ih =>
      obtain ⟨p, sender⟩ := r
      have hown' := fun ln sender hmem => hown ln sender (List.mem_cons_of_mem _ hmem)
      cases p with
      | update ln =>
          obtain ⟨s, hstep, hrest⟩ := bind_eq_ok.mp hrun
          rw [within_eq_ok] at hstep
          obtain ⟨-, hfs, -⟩ := hf.updateLeaf_ok hstep
          rw [ownUpdates_cons_update] at hlast
          by_cases hsender : sender = L
          · have hs := hf.refreshed_updateLeaf hstep
            rw [hsender, Nat.mod_eq_of_lt hL] at hs
            rw [if_pos hsender] at hlast
            refine ih hfs hown' ?_ hrest
            rcases hrest' : ownUpdates L rest with _ | ⟨l', others⟩
            · rw [hrest'] at hlast
              rcases hlast with hlast | ⟨hnil, -⟩
              · cases hlast
                exact .inr ⟨rfl, hs⟩
              · cases hnil
            · rw [hrest'] at hlast
              rcases hlast with hlast | ⟨hnil, -⟩
              · exact .inl (by simpa using hlast)
              · cases hnil
          · have hother : sender % 2 ^ 31 ≠ L := fun heq =>
              hsender (hown ln sender List.mem_cons_self heq)
            rw [if_neg hsender] at hlast
            exact ih hfs hown' (hlast.imp_right fun hr =>
              ⟨hr.1, hr.2.updateLeaf hother hstep⟩) hrest
      | _ => exact ih hf hown' hlast hrun

variable {wt : RatchetTree} {cm : Commit} {cache : ProposalCache} {currentExt : List Extension}
  {externalPSKs : GoMap Bytes Bytes} {resumptionPSKs : GoMap UInt64 Bytes} {groupID : Bytes}
  {committerLeaf : ℕ} {applied : AppliedProposals}

theorem ApplyRun.refreshed (a : ApplyRun wt cm cache currentExt externalPSKs resumptionPSKs groupID
    committerLeaf applied) (hf : wt.Full h) (hL : L < 2 ^ 31) (hown : ∀ ln sender,
    ⟨.update ln, sender⟩ ∈ a.resolved → sender % 2 ^ 31 = L → sender = L)
    (hkept : L ∉ removedBy a.resolved) (hlast : (ownUpdates L a.resolved).getLast? = some l) :
    applied.tree.Refreshed L l := by
  have hupdated := applyUpdates_refreshed hf hown (.inl hlast) hL a.updated_eq
  have hremoved := applyRemoves_keeps (P := (·.Refreshed L l))
    (fun _ _ removed sender hmem hr hstep =>
      hr.removeLeaf (fun heq => hkept ⟨removed, sender, hmem, heq⟩) hstep)
    hupdated a.removed_eq
  exact applyAdds_keeps (P := (·.Refreshed L l))
    (fun _ _ _ _ _ _ hr hstep => hr.addLeaf hstep) hremoved a.added_eq

theorem resolveOwnUpdatePriv_cons (por : ProposalOrRef) (rest : List ProposalOrRef) :
    g.resolveOwnUpdatePriv cache committerLeaf (por :: rest) =
      match por.resolve? cache committerLeaf with
      | some ⟨.update ln, sender⟩ =>
          if sender ≠ g.ownLeaf then
            g.resolveOwnUpdatePriv cache committerLeaf rest
          else
            match g.pendingUpdates.get ln.encryptionKey with
            | none => fail "own Update committed but no pending leaf key tracked"
            | some priv => .ok (some priv)
      | _ => g.resolveOwnUpdatePriv cache committerLeaf rest := by
  cases por <;> rfl

theorem resolveOwnUpdatePriv_resolved
    (hresolved : resolveProposals cache committerLeaf proposals = .ok resolved) :
    g.resolveOwnUpdatePriv cache committerLeaf proposals =
      match (ownUpdates g.ownLeaf resolved).head? with
      | none => .ok none
      | some first =>
          match g.pendingUpdates.get first.encryptionKey with
          | none => fail "own Update committed but no pending leaf key tracked"
          | some priv => .ok (some priv) := by
  induction proposals generalizing resolved with
  | nil =>
      cases hresolved
      rfl
  | cons por rest ih =>
      -- the entry stands for the first resolved proposal in both passes
      obtain ⟨r, others, hentry, hothers, rfl⟩ : ∃ r others,
          por.resolve? cache committerLeaf = some r ∧
          resolveProposals cache committerLeaf rest = .ok others ∧ resolved = r :: others := by
        cases por with
        | proposal p =>
            obtain ⟨others, hothers, hresult⟩ := bind_eq_ok.mp hresolved
            cases hresult
            exact ⟨_, others, rfl, hothers, rfl⟩
        | reference ref =>
            rw [resolveProposals] at hresolved
            cases hget : cache.get ref with
            | none =>
                rw [hget] at hresolved
                cases hresolved
            | some r =>
                rw [hget] at hresolved
                obtain ⟨others, hothers, hresult⟩ := bind_eq_ok.mp hresolved
                cases hresult
                exact ⟨r, others, hget, hothers, rfl⟩
      obtain ⟨p, sender⟩ := r
      rw [resolveOwnUpdatePriv_cons, hentry]
      cases p with
      | update ln =>
          rw [ownUpdates_cons_update]
          by_cases hsender : sender = g.ownLeaf
          · simp only [hsender, ne_eq, not_true_eq_false, if_false, if_true, List.head?_cons]
          · simp only [hsender, ne_eq, not_false_eq_true, if_true, if_false]
            exact ih hothers
      | _ =>
          have hrest := ih hothers
          exact hrest

theorem resolveOwnUpdatePriv_eq {first : LeafNode} {priv : Bytes}
    (hresolved : resolveProposals cache committerLeaf proposals = .ok resolved)
    (hfirst : (ownUpdates g.ownLeaf resolved).head? = some first)
    (hpending : g.pendingUpdates.get first.encryptionKey = some priv) :
    g.resolveOwnUpdatePriv cache committerLeaf proposals = .ok (some priv) := by
  rw [resolveOwnUpdatePriv_resolved hresolved, hfirst]
  simp only [hpending]

end Applied

/-! ## Pending keys -/

variable {m g r c : Group} {leaves : List LeafNode}

/-- Calls of a member that stay in the epoch, with the leaves of the Updates it
created with `ProposeUpdate` on the way. -/
inductive Updating (S : Suite) (m : Group) : List LeafNode → Group → Prop where
  | start : Updating S m [] m
  | propose {leaves : List LeafNode} {g g' : Group} {leaf : LeafNode} (seed : Bytes)
      (hrun : Updating S m leaves g)
      (hpropose : g.proposeUpdate S seed = .ok (.update leaf, g')) :
      Updating S m (leaves ++ [leaf]) g'
  | other {leaves : List LeafNode} {g g' : Group} (hrun : Updating S m leaves g)
      (hstep : LocalStep S g g') : Updating S m leaves g'

theorem Updating.eq_update (hrun : Updating S m leaves r) :
    ∃ app handshake encrypt pending, r = { m with
      appGeneration := app
      handshakeGeneration := handshake
      encryptHandshakes := encrypt
      pendingUpdates := pending } := by
  induction hrun with
  | start => exact ⟨_, _, _, _, rfl⟩
  | propose seed _ hpropose ih =>
      obtain ⟨_, _, _, _, rfl⟩ := ih
      obtain ⟨_, _, _, _, rfl⟩ := (LocalStep.proposeUpdate seed hpropose).eq_update
      exact ⟨_, _, _, _, rfl⟩
  | other _ hstep ih =>
      obtain ⟨_, _, _, _, rfl⟩ := ih
      obtain ⟨_, _, _, _, rfl⟩ := hstep.eq_update
      exact ⟨_, _, _, _, rfl⟩

theorem Updating.member_eq (hrun : Updating S m leaves r) :
    r.ownLeaf = m.ownLeaf ∧ r.groupContext = m.groupContext ∧
      r.externalPSKs = m.externalPSKs ∧ r.resumptionPSKs = m.resumptionPSKs := by
  obtain ⟨_, _, _, _, rfl⟩ := hrun.eq_update
  exact ⟨rfl, rfl, rfl, rfl⟩

theorem Updating.sameEpoch (hrun : Updating S m leaves r) (hsame : SameEpoch c m) :
    SameEpoch c r := by
  obtain ⟨_, _, _, _, rfl⟩ := hrun.eq_update
  exact ⟨hsame.groupContext_eq, hsame.tree_eq, hsame.epoch_eq, hsame.initSecret_eq,
    hsame.interim_eq, hsame.secretTree_eq⟩

theorem Updating.consistent (hrun : Updating S m leaves r) (hm : m.Consistent S) :
    r.Consistent S := by
  obtain ⟨_, _, _, _, rfl⟩ := hrun.eq_update
  exact ⟨hm.tree_invariant, hm.own_member, hm.secretTree_eq⟩

def Group.Tracks (S : Suite) (g : Group) (leaf : LeafNode) : Prop :=
  ∃ priv, g.pendingUpdates.get leaf.encryptionKey = some priv ∧ S.Matching priv leaf.encryptionKey

theorem proposeUpdate_eq_ok {seed : Bytes} {p : Proposal}
    (hpropose : m.proposeUpdate S seed = .ok (p, g)) :
    ∃ leaf priv cur, p = .update leaf ∧ S.Matching priv leaf.encryptionKey ∧
      g.pendingUpdates = m.pendingUpdates.set leaf.encryptionKey priv ∧
      m.tree.leafNodeAt m.ownLeaf = .ok cur ∧ leaf.signatureKey = cur.signatureKey := by
  simp only [Group.proposeUpdate, bind_eq_ok, pure_ok_iff,
    Prod.mk.injEq, liftErr_eq_ok] at hpropose
  obtain ⟨⟨priv, pub⟩, hpair, cur, hcur, leaf, hsign, rfl, rfl⟩ := hpropose
  obtain ⟨sig, rfl⟩ := RatchetTree.signLeafNode_ok hsign
  exact ⟨_, priv, cur, rfl, .inr ⟨seed, hpair⟩, rfl, hcur, rfl⟩

theorem LocalStep.tracks (hstep : LocalStep S m g)
    (htracks : m.Tracks S leaf) : g.Tracks S leaf := by
  have hkept : g.pendingUpdates = m.pendingUpdates → g.Tracks S leaf := by
    intro heq
    rwa [Group.Tracks, heq]
  cases hstep with
  | proposeUpdate seed hrun =>
      obtain ⟨leaf', priv', -, -, hmatch, hset, -⟩ := proposeUpdate_eq_ok hrun
      rw [Group.Tracks, hset, GoMap.get_set]
      split
      · next heq => exact ⟨priv', rfl, heq ▸ hmatch⟩
      · exact htracks
  | frameProposal p guard hrun =>
      apply hkept
      simp only [Group.frameProposal, bind_eq_ok] at hrun
      obtain ⟨body, -, hrest⟩ := hrun
      split at hrest
      · simp only [bind_eq_ok, pure_ok_iff, Prod.mk.injEq] at hrest
        obtain ⟨pm, -, bytes, -, -, rfl⟩ := hrest
        rfl
      · simp only [bind_eq_ok, pure_ok_iff, Prod.mk.injEq] at hrest
        obtain ⟨pm, -, bytes, -, -, rfl⟩ := hrest
        rfl
  | protectApplication plaintext authenticatedData guard =>
      apply hkept
      rw [Group.protectApplication]
      split
      · rfl
      · rfl
  | spentGeneration => exact hkept rfl
  | setEncryptHandshakes v => exact hkept rfl

theorem Updating.tracks (hrun : Updating S m leaves r) : ∀ leaf ∈ leaves, r.Tracks S leaf := by
  induction hrun with
  | start => simp
  | propose seed _ hpropose ih =>
      rintro leaf hleaf
      rcases List.mem_append.mp hleaf with hearlier | hnew
      · exact (LocalStep.proposeUpdate seed hpropose).tracks (ih leaf hearlier)
      · obtain ⟨leaf', priv, -, heq, hmatch, hset, -⟩ := proposeUpdate_eq_ok hpropose
        cases heq
        rw [List.mem_singleton.mp hnew]
        exact ⟨priv, by rw [hset, GoMap.get_set, if_pos rfl], hmatch⟩
  | other _ hstep ih => exact fun leaf hleaf => hstep.tracks (ih leaf hleaf)

theorem Updating.signatureKey_eq (hrun : Updating S m leaves r) {cur : LeafNode}
    (hcur : m.tree.leafNodeAt m.ownLeaf = .ok cur) :
    ∀ leaf ∈ leaves, leaf.signatureKey = cur.signatureKey := by
  induction hrun with
  | start => simp
  | propose seed hprior hpropose ih =>
      rintro leaf hleaf
      rcases List.mem_append.mp hleaf with hearlier | hnew
      · exact ih leaf hearlier
      · obtain ⟨leaf', -, cur', heq, -, -, hcur', hkey⟩ := proposeUpdate_eq_ok hpropose
        cases heq
        obtain ⟨_, _, _, _, rfl⟩ := hprior.eq_update
        cases hcur.symm.trans hcur'
        rw [List.mem_singleton.mp hnew, hkey]
  | other _ _ ih => exact ih

/-! ## The own key after the commit -/

def Group.HoldsLeafKey (S : Suite) (g : Group) : Prop :=
  ∃ key leaf, g.priv.privateKey (u32 (2 * g.ownLeaf)) = some key ∧
    g.tree.leafNodeAt g.ownLeaf = .ok leaf ∧ S.Matching key leaf.encryptionKey

theorem rebuildPriv_own (hkdf : KdfLaws S) {h L R : ℕ} (hh : h ≤ 31)
    (hL : L < 2 ^ h) (hR : R < 2 ^ h) (hne : L ≠ R) {ownLeaf committerLeaf : ℕ}
    (hown : ownLeaf % 2 ^ 31 = R) (hcommitter : committerLeaf % 2 ^ 31 = L)
    {workingPriv newPriv : TreeKEMPrivate} {ownKey secret : Bytes} {caller : String}
    (hkey : workingPriv.privateKey (u32 (2 * ownLeaf)) = some ownKey)
    (hrun : rebuildPriv S caller ownLeaf committerLeaf (2 ^ h) workingPriv secret = .ok newPriv) :
    newPriv.privateKey (u32 (2 * ownLeaf)) = some ownKey := by
  obtain ⟨rebuilt, hrun', hunchanged, hrebuilt⟩ := rebuildPriv_spec hkdf hh hL hR
    hne hown hcommitter hkey caller secret
  cases hrun.symm.trans hrun'
  by_cases hnil : secret = []
  · rw [hunchanged hnil, hkey]
  · obtain ⟨k, -, -, hkeys⟩ := hrebuilt hnil
    rw [hkeys.elsewhere]
    · rw [TreeKEMPrivate.privateKey_new, if_pos rfl]
    · intro i hi _ heq
      rw [RatchetTree.u32_double, inorder_inj] at heq
      omega

variable {cache : ProposalCache} {ac : AuthenticatedContent} {cm : Commit}

/-- After a commit that applied own Updates, the key of the own leaf is the one
the path was read with, and the leaf is that of the last Update. -/
theorem MemberRun.holdsLeafKey_iff (hkdf : KdfLaws S) (run : MemberRun S r cache ac cm)
    (hpath : cm.path = some up) {priv : Bytes} (hpriv : run.own = some priv)
    (hleaf : run.applied.tree.Refreshed r.ownLeaf leaf)
    (hother : ac.content.sender.leafIndex % 2 ^ 31 ≠ r.ownLeaf) :
    run.result.HoldsLeafKey S ↔ S.Matching priv leaf.encryptionKey := by
  obtain ⟨h, hf⟩ := hleaf.full
  have hR : r.ownLeaf < 2 ^ h := hf.member_lt (by simp [hleaf.leaf])
  have hle := hf.two_pow_le
  obtain ⟨hnone, -⟩ | ⟨up', hup, hmerge⟩ := receiveCommitPath_tree run.out_eq
  · rw [hpath] at hnone
    cases hnone
  have hL := hf.lt_of_merge hmerge
  obtain ⟨entries, hi⟩ := hf.merge_installed rfl hL hmerge
  have hslot : run.out.tree.slot 0 r.ownLeaf = some (.leaf leaf) := by
    rw [hi.slot_eq, pow_zero, Nat.div_one, if_neg hother, hleaf.leaf]
  have hkey : (r.workingPriv run.own).privateKey (u32 (2 * r.ownLeaf)) = some priv := by
    rw [hpriv]
    simp [Group.workingPriv]
  have hnew := run.newPriv_eq
  rw [hi.full.leafCount_eq] at hnew
  have hown := rebuildPriv_own hkdf hf.le_thirtyOne hL hR hother
    (Nat.mod_eq_of_lt (by omega)) rfl hkey hnew
  have hnode : run.result.tree.leafNodeAt r.ownLeaf = .ok leaf := leafNodeAt_of_slot hi.full hslot
  constructor
  · rintro ⟨key, leaf', hkey', hleaf', hmatch⟩
    cases hown.symm.trans hkey'
    cases hnode.symm.trans hleaf'
    exact hmatch
  · exact fun hmatch => ⟨priv, leaf, hown, hnode, hmatch⟩

theorem MemberRun.writable (run : MemberRun S r cache ac cm)
    (hpath : cm.path = some up) : ∃ data, run.applied.tree.marshal = .ok data := by
  have hout := run.out_eq
  simp only [hpath, Group.receiveCommitPath, receivePath, bind_eq_ok, within_eq_ok,
    RatchetTree.clone] at hout
  obtain ⟨-, ⟨data, hdata, -⟩, -⟩ := hout
  exact ⟨data, hdata⟩

/-! ## Which commits take effect -/

variable {opt : CommitOptions} {rnd : CommitRandomness} {d : CommitDraft} {res : CommitResult}
  {refs : List Bytes} {resolved : List Resolved} {first last : LeafNode}

theorem mem_ownUpdates {L : ℕ}
    (hleaf : leaf ∈ ownUpdates L resolved) : ⟨.update leaf, L⟩ ∈ resolved := by
  obtain ⟨⟨p, sender⟩, hmem, hsome⟩ := List.mem_filterMap.mp hleaf
  cases p with
  | update ln =>
      simp only [Option.ite_none_right_eq_some, Option.some.injEq] at hsome
      obtain ⟨rfl, rfl⟩ := hsome
      exact hmem
  | _ => cases hsome

/-- The commit applies Updates of member `m`, from `first` to `last`, does not
remove it, and no Update of its leaf is from anybody else. -/
structure AppliesUpdates (m : Group) (leaves : List LeafNode)
    (resolved : List Resolved) (first last : LeafNode) : Prop where
  first_eq : (ownUpdates m.ownLeaf resolved).head? = some first
  last_eq : (ownUpdates m.ownLeaf resolved).getLast? = some last
  created : ∀ leaf sender, ⟨.update leaf, sender⟩ ∈ resolved →
    sender % 2 ^ 31 = m.ownLeaf → sender = m.ownLeaf ∧ leaf ∈ leaves
  kept : m.ownLeaf ∉ removedBy resolved

theorem MemberRun.own_updates (hsame : SameEpoch c r) (hc : c.Consistent S)
    (a : DraftRun S c opt rnd d) (e : ApplyRun c.tree (opt.body a.refs none) a.cache
    c.groupContext.extensions c.externalPSKs c.resumptionPSKs c.groupContext.groupID c.ownLeaf
    d.applied) (hpsks : collectPSKs r.externalPSKs r.resumptionPSKs r.groupContext.groupID
    e.resolved = collectPSKs c.externalPSKs c.resumptionPSKs c.groupContext.groupID e.resolved)
    {own : Option Bytes} (hown : r.resolveOwnUpdatePriv a.cache c.ownLeaf
    (commitProposals a.refs opt.byValue) = .ok own)
    (run : MemberRun S r a.cache (d.authenticated c.wireFormat)
    (opt.body a.refs (some d.path.updatePath))) :
    run.applied = d.applied ∧ run.own = own := by
  have hwt := run.wt_eq
  rw [hsame.clone_eq hc a, Except.ok.injEq] at hwt
  have happlied := run.applied_eq
  rw [a.committerLeaf_eq hc, ← hwt, hsame.applyProposals_eq a e hpsks, Except.ok.injEq] at happlied
  have hown' : r.resolveOwnUpdatePriv a.cache
      (d.authenticated c.wireFormat).content.sender.leafIndex
      (commitProposals a.refs opt.byValue) = .ok run.own := run.own_eq
  rw [a.committerLeaf_eq hc, hown, Except.ok.injEq] at hown'
  exact ⟨happlied.symm, hown'.symm⟩

/-- A member accepts a commit that applies its Updates and ends up with the key of
its leaf exactly when the tree after the proposals has a wire form and the pending
key of the first Update belongs to the leaf of the last one. -/
theorem own_updates_take_effect_iff (hlaws : SuiteLaws S) (hkdf : KdfLaws S)
    (hsame : SameEpoch c m) (hc : c.Consistent S) (hm : m.Consistent S) (hsigner : c.SignsAsLeaf S)
    (hother : m.ownLeaf ≠ c.ownLeaf) (hrun : Updating S m leaves r)
    (hcommit : c.commit S opt rnd = .ok res) (hdraft : c.draftCommit S opt rnd = .ok d)
    (hresolves : c.Resolves S opt refs cache resolved) (hpsks :
    collectPSKs m.externalPSKs m.resumptionPSKs m.groupContext.groupID resolved =
    collectPSKs c.externalPSKs c.resumptionPSKs c.groupContext.groupID resolved)
    (happlies : AppliesUpdates m leaves resolved first last) :
    (∃ m', r.processCommit S opt.byReference res.commit = .ok m' ∧ m'.HoldsLeafKey S) ↔
    (∃ data, d.applied.tree.marshal = .ok data) ∧
      ∃ priv, r.pendingUpdates.get first.encryptionKey = some priv ∧
        S.Matching priv last.encryptionKey := by
  obtain ⟨a⟩ := draftRun_of_draftCommit hdraft
  rw [Group.commit, hdraft, ok_bind] at hcommit
  obtain ⟨b⟩ := finishRun_of_finishCommit hcommit
  obtain ⟨e⟩ := a.applyRun hc
  cases a.cache_eq.symm.trans hresolves.cache_eq
  have hresolved : resolveProposals a.cache c.ownLeaf
      (commitProposals a.refs opt.byValue) = .ok e.resolved := e.resolved_eq
  cases hresolved.symm.trans hresolves.resolved_eq
  obtain ⟨hleafIndex, hcontext, hexternal, hresumption⟩ := hrun.member_eq
  have hmLt := hm.tree_invariant.member_lt hm.own_member
  have hcLt := hc.tree_invariant.member_lt hc.own_member
  have hsame' := hrun.sameEpoch hsame
  have hpsks' : collectPSKs r.externalPSKs r.resumptionPSKs r.groupContext.groupID
      e.resolved = collectPSKs c.externalPSKs c.resumptionPSKs
        c.groupContext.groupID e.resolved := by
    rw [hexternal, hresumption, hcontext, hpsks]
  -- the key that the receiver takes, and the leaf that stays
  obtain ⟨priv, hpending, hpair⟩ := hrun.tracks first
    (happlies.created first m.ownLeaf (mem_ownUpdates (List.mem_of_mem_head? happlies.first_eq))
      (Nat.mod_eq_of_lt (by omega))).2
  have hown : r.resolveOwnUpdatePriv a.cache c.ownLeaf
      (commitProposals a.refs opt.byValue) = .ok (some priv) :=
    resolveOwnUpdatePriv_eq hresolved (by rw [hleafIndex]; exact happlies.first_eq) hpending
  obtain ⟨h, hf, -⟩ := hc.tree_invariant.full
  have hleaf : d.applied.tree.Refreshed r.ownLeaf last := by
    rw [hleafIndex]
    exact e.refreshed hf (by omega) (fun ln sender hmem hnode =>
      (happlies.created ln sender hmem hnode).1) happlies.kept happlies.last_eq
  have hkey : ∀ run : MemberRun S r a.cache (d.authenticated c.wireFormat)
      (opt.body a.refs (some d.path.updatePath)),
      run.result.HoldsLeafKey S ↔ S.Matching priv last.encryptionKey := by
    intro run
    obtain ⟨happlied, hpriv⟩ := run.own_updates hsame' hc a e hpsks' hown
    refine run.holdsLeafKey_iff hkdf rfl hpriv (by rw [happlied]; exact hleaf) ?_
    rw [a.committerLeaf_eq hc, Nat.mod_eq_of_lt (by omega), hleafIndex]
    exact hother.symm
  rw [hsame'.processCommit_eq_member hlaws hc hsigner a b]
  constructor
  · rintro ⟨m', hprocess, hholds⟩
    obtain ⟨run, rfl⟩ := processMemberCommit_eq_ok.mp hprocess
    refine ⟨?_, priv, hpending, (hkey run).mp hholds⟩
    rw [← (run.own_updates hsame' hc a e hpsks' hown).1]
    exact run.writable rfl
  · rintro ⟨⟨data, hwrite⟩, priv', hpending', hmatch⟩
    cases hpending.symm.trans hpending'
    have hfollow : CanFollow S c r opt d.applied := by
      refine ⟨by rw [hleafIndex]; exact hother, fun refs cache resolved hres => ?_⟩
      cases a.cache_eq.symm.trans hres.cache_eq
      cases hresolved.symm.trans hres.resolved_eq
      exact ⟨by rw [hleafIndex]; exact happlies.kept, hpsks', some priv, hown, hleaf.fits hmatch⟩
    obtain ⟨own, newPriv, node, secret, -, -, hprocess⟩ :=
      hsame'.processMemberCommit_eq hlaws hkdf hc (hrun.consistent hm) a b hfollow hwrite
    refine ⟨_, hprocess, ?_⟩
    obtain ⟨run, hresult⟩ := processMemberCommit_eq_ok.mp hprocess
    rw [← hresult]
    exact (hkey run).mpr hmatch

/-! ### Updates of the second of two members -/

def Group.frameUpdates (S : Suite) (g : Group) :
    List Bytes → Result (List Proposal × List Bytes × Group)
  | [] => return ([], [], g)
  | seed :: seeds => do
      let (p, g) ← g.proposeUpdate S seed
      let (message, g) ← g.frameProposal S p ⟨0, 0, 0, 0⟩
      let (others, messages, g) ← g.frameUpdates S seeds
      return (p :: others, message :: messages, g)

/-- The committer of the pair commits the framed Updates of the other member:
proposals, messages, the state of the other member, and what the committer
resolved and made of it. -/
def commitUpdates (seeds : List Bytes) :
    Result ((List Proposal × List Bytes × Group) × (List Bytes × ProposalCache) ×
      List Resolved × CommitDraft × CommitResult) := do
  let c := pairMember (RatchetTree.sampleLeaf 2) 0 1
  let framed ← (pairMember (RatchetTree.sampleLeaf 2) 1 2).frameUpdates plainSuite seeds
  let cached ← c.cacheProposals plainSuite "group: Commit: by-reference" framed.2.1 0 []
  let resolved ← resolveProposals cached.2 0 (commitProposals cached.1 [])
  let d ← c.draftCommit plainSuite ⟨[], framed.2.1⟩ noRandomness
  let res ← c.commit plainSuite ⟨[], framed.2.1⟩ noRandomness
  return (framed, cached, resolved, d, res)

def freshLeaf (key : UInt8) : LeafNode :=
  { RatchetTree.sampleLeaf 2 with
    encryptionKey := [key], leafNodeSource := .update, signature := [2] }

theorem commitUpdates_eq_ok (hrun : commitUpdates seeds = .ok
    ((ps, messages, r), (refs, cache), resolved, d, res)) :
    (pairMember (RatchetTree.sampleLeaf 2) 1 2).frameUpdates plainSuite seeds =
        .ok (ps, messages, r) ∧
      (pairMember (RatchetTree.sampleLeaf 2) 0 1).Resolves plainSuite
        ⟨[], messages⟩ refs cache resolved ∧
      (pairMember (RatchetTree.sampleLeaf 2) 0 1).draftCommit plainSuite
        ⟨[], messages⟩ noRandomness = .ok d ∧
      (pairMember (RatchetTree.sampleLeaf 2) 0 1).commit plainSuite
        ⟨[], messages⟩ noRandomness = .ok res := by
  simp only [commitUpdates, bind_eq_ok, pure_ok_iff, Prod.mk.injEq] at hrun
  obtain ⟨framed, hframed, cached, hcached, resolved', hresolved, d', hdraft, res',
    hcommit, hframed', hcached', rfl, rfl, rfl⟩ := hrun
  rw [hframed'] at hframed hcached hdraft hcommit
  rw [hcached'] at hcached hresolved
  exact ⟨hframed, ⟨hcached, hresolved⟩, hdraft, hcommit⟩

theorem frameUpdates_updating (hstart : Updating S m leaves g)
    (hrun : g.frameUpdates S seeds = .ok (ps, messages, r)) :
    ∃ framed, ps = framed.map .update ∧ Updating S m (leaves ++ framed) r := by
  induction seeds generalizing leaves g ps messages with
  | nil =>
      cases hrun
      exact ⟨[], rfl, by rwa [List.append_nil]⟩
  | cons seed seeds ih =>
      simp only [Group.frameUpdates, bind_eq_ok, pure_ok_iff, Prod.mk.injEq] at hrun
      obtain ⟨⟨p, g₁⟩, hpropose, ⟨message, g₂⟩, hframe, ⟨others, messages', r'⟩,
        hrest, rfl, rfl, rfl⟩ := hrun
      obtain ⟨leaf, -, -, rfl, -⟩ := proposeUpdate_eq_ok hpropose
      obtain ⟨framed, rfl, hupdating⟩ := ih
        ((hstart.propose seed hpropose).other (.frameProposal _ _ hframe)) hrest
      exact ⟨leaf :: framed, rfl, by simpa using hupdating⟩

/-- One Update of the second member takes effect. -/
theorem own_update_takes_effect :
    ∃ messages r res, (pairMember (RatchetTree.sampleLeaf 2) 1 2).frameUpdates
        plainSuite [[5]] = .ok ([.update (freshLeaf 5)], messages, r) ∧
      (pairMember (RatchetTree.sampleLeaf 2) 0 1).commit plainSuite ⟨[], messages⟩
        noRandomness = .ok res ∧
      ∃ m', r.processCommit plainSuite messages res.commit = .ok m' ∧
        m'.HoldsLeafKey plainSuite := by
  obtain ⟨⟨⟨ps, messages, r⟩, ⟨refs, cache⟩, resolved, d, res⟩, hrun, rfl, rfl, hpending, hwrite⟩ :
      ∃ run, commitUpdates [[5]] = .ok run ∧ run.1.1 = [.update (freshLeaf 5)] ∧
      run.2.2.1 = [⟨.update (freshLeaf 5), 1⟩] ∧ run.1.2.2.pendingUpdates.get [5] = some [5] ∧
      ∃ data, run.2.2.2.1.applied.tree.marshal = .ok data := by decide +kernel
  obtain ⟨hframed, hresolves, hdraft, hcommit⟩ := commitUpdates_eq_ok hrun
  obtain ⟨framed, hps, hupdating⟩ := frameUpdates_updating .start hframed
  obtain rfl : framed = [freshLeaf 5] := by
    rcases framed with _ | ⟨leaf, _ | _⟩ <;> simp at hps
    rw [hps]
  have hconsistent : ∀ leaf key, leaf < 2 →
      (pairMember (RatchetTree.sampleLeaf 2) leaf key).Consistent plainSuite :=
    fun _ key => pairMember_consistent_of (by decide +kernel) _ key
  have hsame : SameEpoch (pairMember (RatchetTree.sampleLeaf 2) 0 1)
      (pairMember (RatchetTree.sampleLeaf 2) 1 2) := ⟨rfl, rfl, rfl, rfl, rfl, rfl⟩
  have happlies : AppliesUpdates (pairMember (RatchetTree.sampleLeaf 2) 1 2)
      [freshLeaf 5] [⟨.update (freshLeaf 5), 1⟩] (freshLeaf 5) (freshLeaf 5) := by
    refine ⟨rfl, rfl, ?_, ?_⟩
    · intro leaf sender hmem _
      simp only [List.mem_singleton, Resolved.mk.injEq, Proposal.update.injEq] at hmem
      obtain ⟨rfl, rfl⟩ := hmem
      exact ⟨rfl, by simp⟩
    · rintro ⟨removed, sender, hmem, -⟩
      simp at hmem
  have hsigns : (pairMember (RatchetTree.sampleLeaf 2) 0 1).SignsAsLeaf plainSuite :=
    ⟨RatchetTree.sampleLeaf 1, by with_unfolding_all rfl, rfl⟩
  exact ⟨messages, r, res, hframed, hcommit, (own_updates_take_effect_iff
    plainSuite_laws plainSuite_kdfLaws hsame (hconsistent 0 1 (by omega))
    (hconsistent 1 2 (by omega)) hsigns (by decide) hupdating hcommit hdraft
    hresolves rfl happlies).mpr ⟨hwrite, [5], hpending, .inr ⟨[5], rfl⟩⟩⟩

/-- Two Updates with different keys in one commit: the member cannot read the
path. -/
theorem second_own_update_rejected :
    ∃ messages r refs cache res,
      (pairMember (RatchetTree.sampleLeaf 2) 1 2).frameUpdates plainSuite
        [[5], [6]] = .ok ([.update (freshLeaf 5), .update (freshLeaf 6)], messages, r) ∧
      (pairMember (RatchetTree.sampleLeaf 2) 0 1).Resolves plainSuite ⟨[], messages⟩ refs cache
        [⟨.update (freshLeaf 5), 1⟩, ⟨.update (freshLeaf 6), 1⟩] ∧
      (pairMember (RatchetTree.sampleLeaf 2) 0 1).commit plainSuite ⟨[], messages⟩
        noRandomness = .ok res ∧
      ∀ m', r.processCommit plainSuite messages res.commit ≠ .ok m' := by
  obtain ⟨⟨⟨ps, messages, r⟩, ⟨refs, cache⟩, resolved, d, res⟩, hrun, rfl, rfl, hrejected⟩ :
      ∃ run, commitUpdates [[5], [6]] = .ok run ∧
        run.1.1 = [.update (freshLeaf 5), .update (freshLeaf 6)] ∧
        run.2.2.1 = [⟨.update (freshLeaf 5), 1⟩, ⟨.update (freshLeaf 6), 1⟩] ∧
        ∀ m', run.1.2.2.processCommit plainSuite run.1.2.1 run.2.2.2.2.commit ≠ .ok m' := by
    decide +kernel
  obtain ⟨hframed, hresolves, -, hcommit⟩ := commitUpdates_eq_ok hrun
  exact ⟨messages, r, refs, cache, res, hframed, hresolves, hcommit, hrejected⟩

end MlsGo
