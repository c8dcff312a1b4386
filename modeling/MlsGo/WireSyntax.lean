import MlsGo.GoOutcome
import MlsGo.DecoderLaws

/-!
# The presentation-language wire encoding

Package `syntax`: variable-length integers, `opaque<V>` byte vectors, vectors
of variable-length elements and optional values.  A `Builder` is modelled by
the bytes a write appends to it, a `Cursor` by the bytes still unread.
-/

namespace MlsGo

open DecoderLaws

abbrev Bytes := List UInt8

abbrev Cursor (α : Type) := Decoder UInt8 Fault α

def ascii (text : String) : Bytes := text.toUTF8.data.toList

def hexNat (v : ℕ) : String := "0x" ++ String.ofList (Nat.toDigits 16 v)

def hexBytes (p : Bytes) : String :=
  String.join (p.map fun b => String.ofList
    [Nat.digitChar (b.toNat / 16), Nat.digitChar (b.toNat % 16)])

/-! ## Fixed-width integers -/

def beBytes : ℕ → ℕ → Bytes
  | 0, _ => []
  | n + 1, v => UInt8.ofNat (v / 256 ^ n) :: beBytes n v

def beNat (bytes : Bytes) : ℕ := bytes.foldl (fun acc byte => acc * 256 + byte.toNat) 0

def writeUint8 (v : UInt8) : Bytes := [v]

def writeUint16 (v : UInt16) : Bytes := beBytes 2 v.toNat

def writeUint32 (v : UInt32) : Bytes := beBytes 4 v.toNat

def writeUint64 (v : UInt64) : Bytes := beBytes 8 v.toNat

def take (n : ℕ) : Cursor Bytes := fun buf =>
  if buf.length < n then
    fail s!"syntax: short read: need {n}, have {buf.length}"
  else .ok (buf.take n, buf.drop n)

def readUint8 : Cursor UInt8 := do
  let p ← take 1
  return UInt8.ofNat (beNat p)

def readUint16 : Cursor UInt16 := do
  let p ← take 2
  return UInt16.ofNat (beNat p)

def readUint32 : Cursor UInt32 := do
  let p ← take 4
  return UInt32.ofNat (beNat p)

def readUint64 : Cursor UInt64 := do
  let p ← take 8
  return UInt64.ofNat (beNat p)

/-! ## Variable-length integers -/

def maxVarint : ℕ := 2 ^ 30 - 1

def writeVarint (v : ℕ) : Result Bytes :=
  if v < 2 ^ 6 then .ok [UInt8.ofNat v]
  else if v < 2 ^ 14 then
    .ok [(0x40 : UInt8) ||| UInt8.ofNat (v >>> 8), UInt8.ofNat v]
  else if v ≤ maxVarint then
    .ok [(0x80 : UInt8) ||| UInt8.ofNat (v >>> 24), UInt8.ofNat (v >>> 16),
      UInt8.ofNat (v >>> 8), UInt8.ofNat v]
  else .error (.err (.varintTooLong v))

/-- Length of `canon` in the source: a failed re-encoding has length zero. -/
def canonicalLength (v : ℕ) : ℕ :=
  match writeVarint v with
  | .ok canon => canon.length
  | .error _ => 0

def readVarint : Cursor ℕ := fun buf =>
  match buf with
  | [] => fail "syntax: empty varint"
  | first :: others =>
      if first >>> 6 = 3 then fail "syntax: 8-byte varint not allowed in MLS"
      else
        let length := 1 <<< (first >>> 6).toNat
        if buf.length < length then
          fail s!"syntax: short varint: need {length}, have {buf.length}"
        else
          let v := (others.take (length - 1)).foldl
            (fun acc byte => (acc <<< 8) ||| byte.toNat) (first &&& 0x3f).toNat
          if canonicalLength v ≠ length then
            fail "syntax: non-minimal varint encoding"
          else .ok (v, buf.drop length)

/-! ## Vectors and optional values -/

def writeOpaqueV (p : Bytes) : Result Bytes := do
  let header ← writeVarint p.length
  return header ++ p

def readOpaqueV : Cursor Bytes := do
  let n ← readVarint
  take n

def writeVectorV {α : Type} (items : List α) (enc : α → Result Bytes) :
    Result Bytes := do
  let inner ← encodeAll enc items
  writeOpaqueV inner

/-- Reads the body, then decodes until it is exhausted.  Each element consumes
at least one byte, so the body's length bounds the iterations. -/
def readVectorV {α : Type} (dec : Cursor α) : Cursor (List α) := do
  let body ← readOpaqueV
  liftM (decodeAll Fault.diverge dec body.length body)

def writeOptional {α : Type} (v : Option α) (enc : α → Result Bytes) :
    Result Bytes :=
  match v with
  | none => .ok [0]
  | some value => do
      let body ← enc value
      return 1 :: body

def readOptional {α : Type} (dec : Cursor α) : Cursor (Option α) := do
  let present ← readUint8
  if present = 0 then return none
  else if present = 1 then
    let value ← dec
    return some value
  else liftM (fail (α := Option α) s!"syntax: invalid optional presence byte {present}")

/-! ## Round trips -/

theorem foldl_beBytes (n v acc : ℕ) :
    (beBytes n v).foldl (fun acc byte => acc * 256 + byte.toNat) acc =
      acc * 256 ^ n + v % 256 ^ n := by
  induction n generalizing acc with
  | zero => simp [beBytes, Nat.mod_one]
  | succ n ih =>
      simp only [beBytes, List.foldl_cons, ih, UInt8.toNat_ofNat', Nat.reducePow]
      have hsplit : v % 256 ^ (n + 1) = 256 ^ n * (v / 256 ^ n % 256) + v % 256 ^ n := by
        rw [pow_succ, Nat.mod_mul]
        ring
      rw [hsplit]
      ring

theorem beNat_beBytes (n v : ℕ) : beNat (beBytes n v) = v % 256 ^ n := by
  unfold beNat
  rw [foldl_beBytes]
  simp

@[simp] theorem length_beBytes (n v : ℕ) : (beBytes n v).length = n := by
  induction n with
  | zero => rfl
  | succ n ih => simp [beBytes, ih]

theorem decodes_take (p : Bytes) : Decodes (take p.length) p p := by
  intro rest
  simp [take]

theorem decodes_readUint8 (v : UInt8) : Decodes readUint8 (writeUint8 v) v := by
  intro rest
  simp [readUint8, writeUint8, take, beNat, Bind.bind, StateT.bind, Except.bind]
  rfl

theorem decodes_readUint16 (v : UInt16) : Decodes readUint16 (writeUint16 v) v := by
  intro rest
  have hread := decodes_take (beBytes 2 v.toNat) rest
  rw [length_beBytes] at hread
  have hlt := v.toNat_lt
  simp only [readUint16, writeUint16, Bind.bind, StateT.bind, Except.bind, hread, beNat_beBytes]
  rw [Nat.mod_eq_of_lt (by simpa using hlt), UInt16.ofNat_toNat]
  rfl

theorem decodes_readUint32 (v : UInt32) : Decodes readUint32 (writeUint32 v) v := by
  intro rest
  have hread := decodes_take (beBytes 4 v.toNat) rest
  rw [length_beBytes] at hread
  have hlt := v.toNat_lt
  simp only [readUint32, writeUint32, Bind.bind, StateT.bind, Except.bind, hread, beNat_beBytes]
  rw [Nat.mod_eq_of_lt (by simpa using hlt), UInt32.ofNat_toNat]
  rfl

theorem decodes_readUint64 (v : UInt64) : Decodes readUint64 (writeUint64 v) v := by
  intro rest
  have hread := decodes_take (beBytes 8 v.toNat) rest
  rw [length_beBytes] at hread
  have hlt := v.toNat_lt
  simp only [readUint64, writeUint64, Bind.bind, StateT.bind, Except.bind, hread, beNat_beBytes]
  rw [Nat.mod_eq_of_lt (by simpa using hlt), UInt64.ofNat_toNat]
  rfl

theorem varint_header_two :
    ∀ high : Fin 64, ((0x40 : UInt8) ||| UInt8.ofNat high) >>> 6 = 1 ∧
      (((0x40 : UInt8) ||| UInt8.ofNat high) &&& 0x3f).toNat = high := by
  decide

theorem varint_header_four :
    ∀ high : Fin 64, ((0x80 : UInt8) ||| UInt8.ofNat high) >>> 6 = 2 ∧
      (((0x80 : UInt8) ||| UInt8.ofNat high) &&& 0x3f).toNat = high := by
  decide

theorem varint_header_one :
    ∀ v : Fin 64, UInt8.ofNat v >>> 6 = 0 ∧ (UInt8.ofNat v &&& 0x3f).toNat = v := by
  decide

theorem shiftLeft_or_byte (acc v : ℕ) : (acc <<< 8) ||| v % 256 = acc * 256 + v % 256 := by
  rw [← Nat.shiftLeft_add_eq_or_of_lt (i := 8) (by omega), Nat.shiftLeft_eq]

variable {encoded p : Bytes} {v : ℕ}

theorem writeVarint_cases (hwrite : writeVarint v = .ok encoded) :
    (v < 2 ^ 6 ∧ encoded = [UInt8.ofNat v]) ∨
    (2 ^ 6 ≤ v ∧ v < 2 ^ 14 ∧
      encoded = [(0x40 : UInt8) ||| UInt8.ofNat (v >>> 8), UInt8.ofNat v]) ∨
    (2 ^ 14 ≤ v ∧ v ≤ maxVarint ∧
      encoded = [(0x80 : UInt8) ||| UInt8.ofNat (v >>> 24),
        UInt8.ofNat (v >>> 16), UInt8.ofNat (v >>> 8), UInt8.ofNat v]) := by
  unfold writeVarint at hwrite
  split at hwrite
  · exact .inl ⟨‹_›, (Except.ok.inj hwrite).symm⟩
  · split at hwrite
    · exact .inr (.inl ⟨by omega, ‹_›, (Except.ok.inj hwrite).symm⟩)
    · split at hwrite
      · exact .inr (.inr ⟨by omega, ‹_›, (Except.ok.inj hwrite).symm⟩)
      · cases hwrite

theorem canonicalLength_of_write (hwrite : writeVarint v = .ok encoded) :
    canonicalLength v = encoded.length := by
  simp [canonicalLength, hwrite]

theorem decodes_readVarint (hwrite : writeVarint v = .ok encoded) :
    Decodes readVarint encoded v := by
  intro rest
  have hcanon := canonicalLength_of_write hwrite
  rcases writeVarint_cases hwrite with
    ⟨hv, rfl⟩ | ⟨hlow, hv, rfl⟩ | ⟨hlow, hv, rfl⟩
  · obtain ⟨htag, hvalue⟩ := varint_header_one ⟨v, hv⟩
    simp only at htag hvalue
    simp [readVarint, htag, hvalue, hcanon]
  · have hhigh : v >>> 8 < 64 := by
      rw [Nat.shiftRight_eq_div_pow]
      omega
    obtain ⟨htag, hvalue⟩ := varint_header_two ⟨v >>> 8, hhigh⟩
    simp only at htag hvalue
    have hsum : ((v >>> 8) <<< 8) ||| v % 256 = v := by
      rw [shiftLeft_or_byte, Nat.shiftRight_eq_div_pow]
      omega
    simp [readVarint, htag, hvalue, hcanon, hsum]
  · have hmax : v ≤ 2 ^ 30 - 1 := hv
    have hhigh : v >>> 24 < 64 := by
      rw [Nat.shiftRight_eq_div_pow]
      omega
    obtain ⟨htag, hvalue⟩ := varint_header_four ⟨v >>> 24, hhigh⟩
    simp only at htag hvalue
    have hsum : ((((v >>> 24) <<< 8 ||| v >>> 16 % 256) <<< 8 |||
        v >>> 8 % 256) <<< 8) ||| v % 256 = v := by
      simp only [shiftLeft_or_byte, Nat.shiftRight_eq_div_pow]
      omega
    have hlen : ¬ rest.length + 1 + 1 + 1 + 1 < 4 := by omega
    simp [readVarint, htag, hvalue, hcanon, hsum, hlen]

theorem writeOpaqueV_eq_ok :
    writeOpaqueV p = .ok encoded ↔
      ∃ header, writeVarint p.length = .ok header ∧ encoded = header ++ p := by
  simp only [writeOpaqueV, bind_eq_ok, pure_ok_iff]
  exact exists_congr fun header => and_congr_right fun _ => eq_comm

theorem roundTrips_opaqueV : RoundTrips writeOpaqueV readOpaqueV := by
  intro p encoded hwrite
  obtain ⟨header, hheader, rfl⟩ := writeOpaqueV_eq_ok.mp hwrite
  exact (decodes_readVarint hheader).bind (decodes_take p)

theorem writeVarint_ne_nil (hwrite : writeVarint v = .ok encoded) : encoded ≠ [] := by
  rcases writeVarint_cases hwrite with ⟨_, rfl⟩ | ⟨_, _, rfl⟩ | ⟨_, _, rfl⟩ <;> simp

theorem writeOpaqueV_ne_nil (hwrite : writeOpaqueV p = .ok encoded) : encoded ≠ [] := by
  obtain ⟨header, hheader, rfl⟩ := writeOpaqueV_eq_ok.mp hwrite
  simp [writeVarint_ne_nil hheader]

theorem writeOpaqueV_long (hlong : 2 ^ 14 ≤ p.length) (hmax : p.length ≤ maxVarint) :
    ∃ encoded, writeOpaqueV p = .ok encoded ∧ encoded.length = p.length + 4 := by
  have hheader : ∃ header, writeVarint p.length = .ok header ∧ header.length = 4 := by
    rw [writeVarint, if_neg (by omega), if_neg (by omega), if_pos hmax]
    exact ⟨_, rfl, rfl⟩
  obtain ⟨header, hheader, hlen⟩ := hheader
  exact ⟨header ++ p, writeOpaqueV_eq_ok.mpr ⟨header, hheader, rfl⟩,
    by rw [List.length_append, hlen, Nat.add_comm]⟩

theorem writeOpaqueV_too_long (hlong : maxVarint < p.length) :
    writeOpaqueV p = .error (.err (.varintTooLong p.length)) := by
  have hmax : maxVarint = 2 ^ 30 - 1 := rfl
  rw [writeOpaqueV, writeVarint, if_neg (by omega), if_neg (by omega),
    if_neg (by omega), error_bind]

theorem roundTrips_vectorV {α : Type} {enc : α → Result Bytes} {dec : Cursor α}
    (htrip : RoundTrips enc dec) (hne : ∀ value encoded, enc value = .ok encoded → encoded ≠ []) :
    RoundTrips (fun items => writeVectorV items enc) (readVectorV dec) := by
  intro items encoded hwrite
  simp only [writeVectorV, bind_eq_ok] at hwrite
  obtain ⟨inner, hinner, hopaque⟩ := hwrite
  have hbody : decodeAll Fault.diverge dec inner.length inner = .ok items :=
    decodeAll_encodeAll htrip hne hinner (le_refl inner.length)
  have hread : Decodes (readVectorV dec) (encoded ++ []) items :=
    (roundTrips_opaqueV inner encoded hopaque).bind (Decodes.lift hbody)
  rwa [List.append_nil] at hread

theorem roundTrips_optional {α : Type} {enc : α → Result Bytes}
    {dec : Cursor α} (htrip : RoundTrips enc dec) :
    RoundTrips (fun v => writeOptional v enc) (readOptional dec) := by
  intro v encoded hwrite
  cases v with
  | none =>
      simp only [writeOptional, Except.ok.injEq] at hwrite
      subst hwrite
      exact (decodes_readUint8 0).bind (Decodes.pure none)
  | some value =>
      simp only [writeOptional, bind_eq_ok, pure_ok_iff] at hwrite
      obtain ⟨body, hbody, rfl⟩ := hwrite
      exact (decodes_readUint8 1).bind (htrip value body hbody).last

end MlsGo
