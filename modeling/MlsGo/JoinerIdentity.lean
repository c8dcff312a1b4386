import MlsGo.ExternalAgreement
import MlsGo.GroupInfoAuthentication

/-!
# The leaf a joiner takes for its own

`JoinFromWelcome` looks for its leaf by the encryption key of its key package.
The tree comes from the committer: its leaves verify under the signature keys
they carry themselves, so a committer can put the joiner's encryption key under
another name.  The leaf is the one of the key package exactly if that leaf is in
the tree at all.
-/

namespace MlsGo

open RatchetTree

variable {S : Suite} {welcome : Bytes} {opt : JoinOptions} {g : Group} {t : RatchetTree}

theorem findLeafByEncryptionKey_eq_some {key : Bytes} {L : ℕ}
    (hfind : t.findLeafByEncryptionKey key = some L) :
    ∃ l, t.slot 0 L = some (.leaf l) ∧ l.encryptionKey = key := by
  obtain ⟨l, hslot, hkey⟩ := slot_of_findIdx (fun slot htest => by
    rcases slot with _ | (l | p) <;> simp_all [holdsEncryptionKey]) hfind
  exact ⟨l, hslot, of_decide_eq_true hkey⟩

theorem slot_of_leafNodeAt {h M : ℕ} {l : LeafNode}
    (hf : t.Full h) (hM : M < 2 ^ h) (hleaf : t.leafNodeAt M = .ok l) :
    t.slot 0 M = some (.leaf l) := by
  have hle := hf.two_pow_le
  rw [leafNodeAt, u32_double, Nat.mod_eq_of_lt (by omega), hf.nodeAt_eq] at hleaf
  split at hleaf
  · next hslot =>
      cases hleaf
      exact hslot
  · exact absurd hleaf fail_ne_ok

/-- The tree that the options carry, or else the GroupInfo in the Welcome. -/
def carriedTree (S : Suite) (welcome : Bytes) (opt : JoinOptions) : Result RatchetTree := do
  let w ← decodeWelcomeMessage welcome
  let kp ← decodeKeyPackageMessage opt.keyPackage
  let gs ← openGroupSecrets S w kp opt.initPriv
  let psks ← resolveJoinPSKs opt.externalPSKs gs.psks
  let psk ← pskSecret S psks
  let gi ← openGroupInfo S w gs.joinerSecret psk
  parseRatchetTree ((gi.treeData opt.ratchetTree).getD [])

theorem JoinRun.tree_checked (run : JoinRun S welcome opt) :
    carriedTree S welcome opt = .ok run.rt ∧ (∃ h, run.rt.Full h) ∧ run.gi.TreeBound S run.rt := by
  obtain ⟨data, hdata⟩ := treeData_of_openRatchetTree run.rt_eq
  obtain ⟨hparse, hbound, -⟩ := (openRatchetTree_of_treeData hdata).mp run.rt_eq
  obtain ⟨h, -, hf⟩ := parseRatchetTree_full hparse
  refine ⟨?_, ⟨h, hf⟩, hbound⟩
  simp only [carriedTree, run.w_eq, run.kp_eq, run.gs_eq, run.psks_eq, run.psk_eq, run.gi_eq,
    ok_bind, hdata, Option.getD_some, hparse]

/-- The leaf at `OwnLeaf` is that of the key package, if and only if the tree that came with
the Welcome has that leaf anywhere. -/
theorem joiner_at_own_leaf_iff (hjoin : joinFromWelcome S welcome opt = .ok g) :
    ∃ kp rt, decodeKeyPackageMessage opt.keyPackage = .ok kp ∧
      carriedTree S welcome opt = .ok rt ∧
      (g.tree.leafNodeAt g.ownLeaf = .ok kp.leafNode ↔
        ∃ M < rt.leafCount, rt.leafNodeAt M = .ok kp.leafNode) := by
  obtain ⟨run, rfl⟩ := joinRun_of_joinFromWelcome hjoin
  obtain ⟨hcarried, ⟨h, hf⟩, hbound⟩ := run.tree_checked
  obtain ⟨own, hown, hkey⟩ := findLeafByEncryptionKey_eq_some run.ownLeaf_eq
  refine ⟨run.kp, run.rt, run.kp_eq, hcarried, ?_⟩
  constructor
  · intro hleaf
    refine ⟨run.ownLeaf, ?_, hleaf⟩
    rw [hf.leafCount_eq]
    exact hf.member_lt (by simp [hown])
  · rintro ⟨M, hM, hleaf⟩
    rw [hf.leafCount_eq] at hM
    have hslot := slot_of_leafNodeAt hf hM hleaf
    -- two leaves do not share an encryption key
    have hsame : M = run.ownLeaf := by
      by_contra hne
      exact (hbound.leaves.distinct M run.ownLeaf _ own hne hslot hown).2 hkey.symm
    subst hsame
    exact hleaf

/-! ### A leaf under another name -/

/-- `A` adds a leaf with `B`'s encryption key and the given name and signature
key, and addresses the Welcome to `B`'s key package: `B`'s key package, Welcome
and options, and the group in which `B` finds itself. -/
def joinUnderName (name : UInt8) :
    Result (KeyPackage × Bytes × JoinOptions × Group) := do
  let a ← newGroup plainSuite [9] (.basic [1]) (some ⟨[1]⟩) ⟨0, 1⟩ ⟨[1, 1], [1, 2]⟩
  let (kpB, initB, leafB) ← newKeyPackage plainSuite (.basic [2]) (some ⟨[2]⟩)
    ⟨0, 1⟩ ⟨[2, 1], [2, 2]⟩
  let leaf ← signLeafNode plainSuite (some ⟨[name]⟩)
    { kpB.leafNode with signatureKey := [name], credential := .basic [name] } [] 0
  let r ← a.commit plainSuite ⟨[.add { kpB with leafNode := leaf }], []⟩
    ⟨[11], fun _ _ => [], ⟨0, 0, 0, 0⟩, fun _ => []⟩
  let w ← decodeWelcomeMessage (r.welcome.getD [])
  let ref ← kpB.ref plainSuite
  let welcome ← encodeWelcomeMessage
    { w with secrets := w.secrets.map fun egs => { egs with newMember := ref } }
  let kpBytes ← encodeKeyPackageMessage kpB
  let opt : JoinOptions := ⟨kpBytes, initB, leafB, some ⟨[2]⟩, [], []⟩
  let b ← joinFromWelcome plainSuite welcome opt
  return (kpB, welcome, opt, b)

theorem joinUnderName_ok {name : UInt8} {kp : KeyPackage}
    (hrun : joinUnderName name = .ok (kp, welcome, opt, g)) :
    joinFromWelcome plainSuite welcome opt = .ok g := by
  simp only [joinUnderName, bind_eq_ok, pure_ok_iff, Prod.mk.injEq] at hrun
  obtain ⟨_, -, _, -, _, -, _, -, _, -, _, -, _, -, _, -, b, hjoin, rfl, rfl, rfl, rfl⟩ := hrun
  exact hjoin

/-- `B` under its own name. -/
theorem joiner_at_own_leaf_own_name :
    ∃ kp welcome opt b, joinUnderName 2 = .ok (kp, welcome, opt, b) ∧
      decodeKeyPackageMessage opt.keyPackage = .ok kp ∧
      b.tree.leafNodeAt b.ownLeaf = .ok kp.leafNode := by
  obtain ⟨⟨kp, welcome, opt, b⟩, hrun, hkp, rt, hrt, hleaf⟩ :
      ∃ run, joinUnderName 2 = .ok run ∧
        decodeKeyPackageMessage run.2.2.1.keyPackage = .ok run.1 ∧
        ∃ rt, carriedTree plainSuite run.2.1 run.2.2.1 = .ok rt ∧
          1 < rt.leafCount ∧ rt.leafNodeAt 1 = .ok run.1.leafNode := by decide +kernel
  obtain ⟨kp', rt', hkp', hrt', hiff⟩ := joiner_at_own_leaf_iff (joinUnderName_ok hrun)
  cases hkp.symm.trans hkp'
  cases hrt.symm.trans hrt'
  exact ⟨kp, welcome, opt, b, hrun, hkp', hiff.mpr ⟨1, hleaf⟩⟩

/-- `B` joins at a leaf with a signature key that is not its own. -/
theorem joiner_at_substituted_leaf :
    ∃ kp welcome opt b leaf, joinUnderName 7 = .ok (kp, welcome, opt, b) ∧
      joinFromWelcome plainSuite welcome opt = .ok b ∧
      decodeKeyPackageMessage opt.keyPackage = .ok kp ∧ b.tree.leafNodeAt b.ownLeaf = .ok leaf ∧
      leaf.encryptionKey = kp.leafNode.encryptionKey ∧ leaf.signatureKey = [7] ∧
      kp.leafNode.signatureKey = [2] := by
  obtain ⟨⟨kp, welcome, opt, b⟩, hrun, hkp, leaf, hleaf⟩ : ∃ run, joinUnderName 7 = .ok run ∧
      decodeKeyPackageMessage run.2.2.1.keyPackage = .ok run.1 ∧
      ∃ leaf, run.2.2.2.tree.leafNodeAt run.2.2.2.ownLeaf = .ok leaf ∧
        leaf.encryptionKey = run.1.leafNode.encryptionKey ∧
        leaf.signatureKey = [7] ∧ run.1.leafNode.signatureKey = [2] := by decide +kernel
  exact ⟨kp, welcome, opt, b, leaf, hrun, joinUnderName_ok hrun, hkp, hleaf⟩

end MlsGo
