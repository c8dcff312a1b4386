import MlsGo.GroupState

/-!
# Security associations of an epoch

File `sa.go`: the key, the security parameter indices and the salts of the data
plane, derived from the exporter of the current epoch.  `registry` is the table
behind `cipher.Lookup`; the group itself uses `S`.
-/

namespace MlsGo

variable (S : Suite) (registry : UInt16 → Option Suite)

def mlsExporter (exporterSecret : Bytes) (label : String) (context : Bytes)
    (length : ℕ) : Result Bytes := do
  let derived ← S.deriveSecret exporterSecret label
  S.expandWithLabel derived "exported" (S.hash context) length

def Group.exporter (g : Group) (label : String) (context : Bytes)
    (length : ℕ) : Result Bytes := mlsExporter S g.epoch.exporterSecret label context length

def espExporterLabel : String := "ironcore-esp"
def saKeyLen : ℕ := 32
def saSaltLen : ℕ := 4

structure SA where
  vni : UInt32
  epoch : UInt64
  spi : UInt32
  key : Bytes
  ownLeaf : ℕ
  ownSalt : Bytes
  ownSPI : UInt32
  saltMask : Bytes
  suite : Suite

def saContext (vni : UInt32) (epoch : UInt64) : Bytes :=
  beBytes 4 vni.toNat ++ beBytes 8 epoch.toNat

def spiContext (vni : UInt32) (epoch : UInt64) (leaf : ℕ) : Bytes :=
  beBytes 4 vni.toNat ++ (beBytes 8 epoch.toNat ++ beBytes 4 leaf)

/-- `binary.BigEndian.Uint32`, which panics on fewer than four bytes. -/
def bigEndianUint32 (raw : Bytes) : Result UInt32 :=
  if raw.length < 4 then .error .panic
  else .ok (UInt32.ofNat (beNat (raw.take 4)))

def markSPI (spi : UInt32) (epoch : UInt64) : UInt32 :=
  (spi &&& 0xFFFFFF00) ||| UInt32.ofNat (epoch.toNat % 256) ||| 0x80000000

def deriveSPI (kGroup : Bytes) (vni : UInt32) (epoch : UInt64) :
    Result UInt32 := do
  let raw ← within "ironcore: derive SPI"
    (S.expandWithLabel kGroup "esp-spi" (saContext vni epoch) 4)
  let spi ← bigEndianUint32 raw
  return markSPI spi epoch

def deriveSenderSPI (kGroup : Bytes) (vni : UInt32) (epoch : UInt64)
    (leaf : ℕ) : Result UInt32 := do
  let raw ← within "ironcore: derive sender SPI"
    (S.expandWithLabel kGroup "esp-spi-sender" (spiContext vni epoch leaf) 4)
  let spi ← bigEndianUint32 raw
  return markSPI spi epoch

def SA.senderSPI (sa : SA) (leafIndex : ℕ) : Result UInt32 := do
  check (sa.key ≠ []) "ironcore: SA key not initialized (use DeriveSAKeys)"
  deriveSenderSPI sa.suite sa.key sa.vni sa.epoch leafIndex

def SA.senderSalt (sa : SA) (leafIndex : ℕ) : Result Bytes := do
  check (sa.saltMask.length = saSaltLen) "ironcore: SA saltMask not initialized (use DeriveSAKeys)"
  return List.zipWith (· ^^^ ·) sa.saltMask (beBytes saSaltLen leafIndex)

structure InboundSA where
  leaf : ℕ
  spi : UInt32
  key : Bytes
  salt : Bytes
  deriving DecidableEq, Repr

/-- The loop of `InboundSAs`; `seen` maps an index to the leaf that has it. -/
def SA.inboundLoop (sa : SA) : List ℕ → GoMap UInt32 ℕ → Result (List InboundSA)
  | [], _ => .ok []
  | leaf :: rest, seen => do
      let spi ← sa.senderSPI leaf
      match seen.get spi with
      | some other => fail (s!"ironcore: SPI collision {hexNat spi.toNat} between " ++
          s!"leaves {other} and {leaf} (rekey to resolve)")
      | none =>
          let salt ← sa.senderSalt leaf
          let out ← sa.inboundLoop rest (seen.set spi leaf)
          return ⟨leaf, spi, sa.key, salt⟩ :: out

def SA.inboundSAs (sa : SA) (leaves : List ℕ) : Result (List InboundSA) := sa.inboundLoop leaves []

def deriveSAKeys (g : Group) (vni : UInt32) : Result SA :=
  match registry g.groupContext.cipherSuite with
  | none => fail s!"ironcore: unregistered cipher suite {hexNat g.groupContext.cipherSuite.toNat}"
  | some suite => do
      let epoch := g.groupContext.epoch
      let kGroup ← within "ironcore: derive K_group"
        (g.exporter S espExporterLabel (saContext vni epoch) saKeyLen)
      let spi ← deriveSPI suite kGroup vni epoch
      let saltMask ← within "ironcore: derive salt mask"
        (suite.expandWithLabel kGroup "esp-salt-mask" [] saSaltLen)
      let sa : SA := ⟨vni, epoch, spi, kGroup, g.ownLeaf, [], 0, saltMask, suite⟩
      let ownSalt ← sa.senderSalt g.ownLeaf
      let ownSPI ← sa.senderSPI g.ownLeaf
      return { sa with ownSalt := ownSalt, ownSPI := ownSPI }

theorem deriveSAKeys_epoch {g : Group} {vni : UInt32} {sa : SA}
    (hderive : deriveSAKeys S registry g vni = .ok sa) :
    sa.epoch = g.groupContext.epoch := by
  unfold deriveSAKeys at hderive
  split at hderive
  · exact absurd hderive fail_ne_ok
  · simp only [bind_eq_ok, within_eq_ok, pure_ok_iff] at hderive
    obtain ⟨_, -, _, -, _, -, _, -, _, -, rfl⟩ := hderive
    rfl

end MlsGo
