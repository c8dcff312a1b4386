import MlsGo.WireSyntax

/-!
# Accepted encodings of the presentation language are canonical

Integers have a fixed width, a length is accepted in its shortest form only, and
a presence byte is zero or one: what a reader of the package `syntax` accepts is
what the writer would have produced.
-/

namespace MlsGo

open DecoderLaws

variable {α : Type} {n v : ℕ} {first : UInt8} {enc : α → Result Bytes}

theorem foldl_beNat (p : Bytes) (acc : ℕ) :
    p.foldl (fun acc byte => acc * 256 + byte.toNat) acc = acc * 256 ^ p.length + beNat p := by
  induction p generalizing acc with
  | nil => simp [beNat]
  | cons byte p ih =>
      rw [beNat, List.foldl_cons, List.foldl_cons, ih, ih (0 * 256 + byte.toNat), List.length_cons]
      ring

theorem beNat_cons (byte : UInt8) (p : Bytes) :
    beNat (byte :: p) = byte.toNat * 256 ^ p.length + beNat p := by
  rw [beNat, List.foldl_cons, foldl_beNat]
  ring

theorem beNat_lt (p : Bytes) : beNat p < 256 ^ p.length := by
  induction p with
  | nil => simp [beNat]
  | cons byte p ih =>
      have hbyte := byte.toNat_lt
      rw [beNat_cons, List.length_cons, pow_succ]
      nlinarith

theorem beBytes_mod (n v m : ℕ) (hm : n ≤ m) : beBytes n (v % 256 ^ m) = beBytes n v := by
  induction n with
  | zero => rfl
  | succ n ih =>
      have hdiv : v % 256 ^ m / 256 ^ n % 256 = v / 256 ^ n % 256 := by
        obtain ⟨d, rfl⟩ : ∃ d, m = n + 1 + d := ⟨m - n - 1, by omega⟩
        rw [show 256 ^ (n + 1 + d) = 256 ^ n * (256 * 256 ^ d) by ring,
          Nat.mod_mul_right_div_self, Nat.mod_mul_right_mod]
      have hbyte : UInt8.ofNat (v % 256 ^ m / 256 ^ n) = UInt8.ofNat (v / 256 ^ n) := by
        apply UInt8.toNat_inj.mp
        simpa using hdiv
      rw [beBytes, beBytes, hbyte, ih (by omega)]

theorem beBytes_beNat (p : Bytes) : beBytes p.length (beNat p) = p := by
  induction p with
  | nil => rfl
  | cons byte p ih =>
      have hlt := beNat_lt p
      have hpos : 0 < 256 ^ p.length := by positivity
      have hhead : beNat (byte :: p) / 256 ^ p.length = byte.toNat := by
        rw [beNat_cons, Nat.add_comm, Nat.add_mul_div_right _ _ hpos,
          Nat.div_eq_of_lt hlt, Nat.zero_add]
      have htail : beNat (byte :: p) % 256 ^ p.length = beNat p := by
        rw [beNat_cons, Nat.add_comm, Nat.add_mul_mod_self_right, Nat.mod_eq_of_lt hlt]
      rw [List.length_cons, beBytes, hhead, UInt8.ofNat_toNat,
        ← beBytes_mod p.length (beNat (byte :: p)) p.length le_rfl, htail, ih]

theorem take_eq_ok {data p rest : Bytes} :
    take n data = .ok (p, rest) ↔ p.length = n ∧ data = p ++ rest := by
  unfold take
  constructor
  · intro hread
    split at hread
    · exact absurd hread fail_ne_ok
    · cases hread
      exact ⟨by simp; omega, (List.take_append_drop n data).symm⟩
  · rintro ⟨rfl, rfl⟩
    simp

theorem canonical_readUint8 : Canonical (fun v => .ok (writeUint8 v)) readUint8 := by
  intro data v rest hread
  simp only [readUint8, decoder_bind_eq_ok, take_eq_ok, decoder_pure_eq_ok] at hread
  obtain ⟨p, _, ⟨hlen, rfl⟩, rfl, rfl⟩ := hread
  obtain ⟨byte, rfl⟩ := List.length_eq_one_iff.mp hlen
  exact ⟨_, rfl, by simp [writeUint8, beNat]⟩

theorem write_of_read {p : Bytes} (hlen : p.length = n)
    (hv : v = beNat p % 256 ^ n) : beBytes n v = p := by
  subst hlen
  rw [hv, beBytes_mod _ _ _ le_rfl, beBytes_beNat]

theorem canonical_readUint16 : Canonical (fun v => .ok (writeUint16 v)) readUint16 := by
  intro data v rest hread
  simp only [readUint16, decoder_bind_eq_ok, take_eq_ok, decoder_pure_eq_ok] at hread
  obtain ⟨p, _, ⟨hlen, rfl⟩, rfl, rfl⟩ := hread
  exact ⟨_, rfl, by rw [writeUint16, write_of_read hlen (by simp)]⟩

theorem canonical_readUint32 : Canonical (fun v => .ok (writeUint32 v)) readUint32 := by
  intro data v rest hread
  simp only [readUint32, decoder_bind_eq_ok, take_eq_ok, decoder_pure_eq_ok] at hread
  obtain ⟨p, _, ⟨hlen, rfl⟩, rfl, rfl⟩ := hread
  exact ⟨_, rfl, by rw [writeUint32, write_of_read hlen (by simp)]⟩

theorem canonical_readUint64 : Canonical (fun v => .ok (writeUint64 v)) readUint64 := by
  intro data v rest hread
  simp only [readUint64, decoder_bind_eq_ok, take_eq_ok, decoder_pure_eq_ok] at hread
  obtain ⟨p, _, ⟨hlen, rfl⟩, rfl, rfl⟩ := hread
  exact ⟨_, rfl, by rw [writeUint64, write_of_read hlen (by simp)]⟩

theorem delimits_readUint8 : Delimits readUint8 :=
  canonical_readUint8.delimits_of_total decodes_readUint8

theorem delimits_readUint16 : Delimits readUint16 :=
  canonical_readUint16.delimits_of_total decodes_readUint16

theorem delimits_readUint32 : Delimits readUint32 :=
  canonical_readUint32.delimits_of_total decodes_readUint32

theorem delimits_readUint64 : Delimits readUint64 :=
  canonical_readUint64.delimits_of_total decodes_readUint64

/-! ## Lengths -/

theorem varint_first_byte (first : UInt8) :
    (first >>> 6 = 0 ∧ UInt8.ofNat (first &&& 0x3f).toNat = first) ∨
    (first >>> 6 = 1 ∧ 0x40 ||| UInt8.ofNat (first &&& 0x3f).toNat = first) ∨
    (first >>> 6 = 2 ∧ 0x80 ||| UInt8.ofNat (first &&& 0x3f).toNat = first) ∨
    first >>> 6 = 3 := by
  have hall : ∀ n : Fin 256,
      (UInt8.ofNat n >>> 6 = 0 ∧ UInt8.ofNat (UInt8.ofNat n &&& 0x3f).toNat = UInt8.ofNat n) ∨
      (UInt8.ofNat n >>> 6 = 1 ∧
        0x40 ||| UInt8.ofNat (UInt8.ofNat n &&& 0x3f).toNat = UInt8.ofNat n) ∨
      (UInt8.ofNat n >>> 6 = 2 ∧
        0x80 ||| UInt8.ofNat (UInt8.ofNat n &&& 0x3f).toNat = UInt8.ofNat n) ∨
      UInt8.ofNat n >>> 6 = 3 := by
    decide +kernel
  simpa using hall ⟨first.toNat, first.toNat_lt⟩

theorem shiftLeft_or_toNat (acc : ℕ) (byte : UInt8) :
    (acc <<< 8) ||| byte.toNat = acc * 256 + byte.toNat := by
  have hbyte := byte.toNat_lt
  have hor := shiftLeft_or_byte acc byte.toNat
  rwa [Nat.mod_eq_of_lt (by omega)] at hor

theorem write_of_canonicalLength (hlen : canonicalLength v = n) (hn : n ≠ 0) :
    ∃ header, writeVarint v = .ok header ∧ header.length = n := by
  unfold canonicalLength at hlen
  split at hlen
  next header hwrite => exact ⟨header, hwrite, hlen⟩
  · exact absurd hlen.symm hn

theorem ofNat_mul_add (high : ℕ) (byte : UInt8) :
    UInt8.ofNat (high * 256 + byte.toNat) = byte := by
  apply UInt8.toNat_inj.mp
  have hbyte := byte.toNat_lt
  simp

theorem write_one (hlen : canonicalLength v = 1)
    (hfirst : UInt8.ofNat v = first) : writeVarint v = .ok [first] := by
  obtain ⟨header, hwrite, hlen⟩ := write_of_canonicalLength hlen (by decide)
  rcases writeVarint_cases hwrite with ⟨-, rfl⟩ | ⟨-, -, rfl⟩ | ⟨-, -, rfl⟩
  · rw [hwrite, hfirst]
  · simp at hlen
  · simp at hlen

theorem write_two {pay : ℕ} {b1 : UInt8} (hlen : canonicalLength (pay * 256 + b1.toNat) = 2)
    (hfirst : 0x40 ||| UInt8.ofNat pay = first) :
    writeVarint (pay * 256 + b1.toNat) = .ok [first, b1] := by
  obtain ⟨header, hwrite, hlen⟩ := write_of_canonicalLength hlen (by decide)
  rcases writeVarint_cases hwrite with ⟨-, rfl⟩ | ⟨-, -, rfl⟩ | ⟨-, -, rfl⟩
  · simp at hlen
  · have hbyte := b1.toNat_lt
    have hhigh : (pay * 256 + b1.toNat) >>> 8 = pay := by
      rw [Nat.shiftRight_eq_div_pow]
      omega
    rw [hwrite, hhigh, hfirst, ofNat_mul_add]
  · simp at hlen

theorem write_four {pay : ℕ} {b1 b2 b3 : UInt8} (hlen : canonicalLength
    (((pay * 256 + b1.toNat) * 256 + b2.toNat) * 256 + b3.toNat) = 4)
    (hfirst : 0x80 ||| UInt8.ofNat pay = first) :
    writeVarint (((pay * 256 + b1.toNat) * 256 + b2.toNat) * 256 + b3.toNat) =
      .ok [first, b1, b2, b3] := by
  obtain ⟨header, hwrite, hlen⟩ := write_of_canonicalLength hlen (by decide)
  rcases writeVarint_cases hwrite with ⟨-, rfl⟩ | ⟨-, -, rfl⟩ | ⟨-, -, rfl⟩
  · simp at hlen
  · simp at hlen
  · have h1 := b1.toNat_lt
    have h2 := b2.toNat_lt
    have h3 := b3.toNat_lt
    have h24 : (((pay * 256 + b1.toNat) * 256 + b2.toNat) * 256 + b3.toNat) >>> 24 = pay := by
      rw [Nat.shiftRight_eq_div_pow]
      omega
    have h16 : (((pay * 256 + b1.toNat) * 256 + b2.toNat) * 256 +
        b3.toNat) >>> 16 = pay * 256 + b1.toNat := by
      rw [Nat.shiftRight_eq_div_pow]
      omega
    have h8 : (((pay * 256 + b1.toNat) * 256 + b2.toNat) * 256 +
        b3.toNat) >>> 8 = (pay * 256 + b1.toNat) * 256 + b2.toNat := by
      rw [Nat.shiftRight_eq_div_pow]
      omega
    rw [hwrite, h24, h16, h8, hfirst, ofNat_mul_add, ofNat_mul_add, ofNat_mul_add]

theorem readVarint_eq_ok {others rest : Bytes}
    (hread : readVarint (first :: others) = .ok (v, rest)) :
    first >>> 6 ≠ 3 ∧ 1 <<< (first >>> 6).toNat ≤ others.length + 1 ∧
      v = (others.take (1 <<< (first >>> 6).toNat - 1)).foldl
        (fun acc byte => (acc <<< 8) ||| byte.toNat) (first &&& 0x3f).toNat ∧
      canonicalLength v = 1 <<< (first >>> 6).toNat ∧
      rest = (first :: others).drop (1 <<< (first >>> 6).toNat) := by
  simp only [readVarint] at hread
  split at hread
  · exact absurd hread fail_ne_ok
  next htag =>
  split at hread
  · exact absurd hread fail_ne_ok
  next hshort =>
  split at hread
  · exact absurd hread fail_ne_ok
  next hcanon =>
  cases hread
  exact ⟨htag, by simpa using hshort, rfl, not_not.mp hcanon, rfl⟩

theorem canonical_readVarint : Canonical writeVarint readVarint := by
  intro data v rest hread
  cases data with
  | nil => exact absurd hread fail_ne_ok
  | cons first others =>
      obtain ⟨htag, hlen, hv, hcanon, hrest⟩ := readVarint_eq_ok hread
      -- the tag bits select one of the three forms
      rcases varint_first_byte first with
        ⟨hform, hfirst⟩ | ⟨hform, hfirst⟩ | ⟨hform, hfirst⟩ | hform
      · simp only [hform, show 1 <<< (0 : UInt8).toNat = 1 from rfl] at *
        simp only [Nat.sub_self, List.take_zero, List.foldl_nil] at hv
        subst hv hrest
        exact ⟨_, write_one hcanon hfirst, rfl⟩
      · simp only [hform, show 1 <<< (1 : UInt8).toNat = 2 from rfl] at *
        obtain ⟨b1, others, rfl⟩ : ∃ b r, others = b :: r :=
          List.exists_cons_of_length_pos (by omega)
        simp only [Nat.add_one_sub_one, List.take_succ_cons, List.take_zero,
          List.foldl_cons, List.foldl_nil, shiftLeft_or_toNat] at hv
        subst hv hrest
        exact ⟨_, write_two hcanon hfirst, rfl⟩
      · simp only [hform, show 1 <<< (2 : UInt8).toNat = 4 from rfl] at *
        obtain ⟨b1, others, rfl⟩ : ∃ b r, others = b :: r :=
          List.exists_cons_of_length_pos (by omega)
        rw [List.length_cons] at hlen
        obtain ⟨b2, others, rfl⟩ : ∃ b r, others = b :: r :=
          List.exists_cons_of_length_pos (by omega)
        rw [List.length_cons] at hlen
        obtain ⟨b3, others, rfl⟩ : ∃ b r, others = b :: r :=
          List.exists_cons_of_length_pos (by omega)
        simp only [Nat.add_one_sub_one, List.take_succ_cons, List.take_zero,
          List.foldl_cons, List.foldl_nil, shiftLeft_or_toNat] at hv
        subst hv hrest
        exact ⟨_, write_four hcanon hfirst, rfl⟩
      · exact absurd hform htag

/-! ## Vectors and optional values -/

theorem canonical_opaqueV : Canonical writeOpaqueV readOpaqueV := by
  intro data p rest hread
  simp only [readOpaqueV, decoder_bind_eq_ok, take_eq_ok] at hread
  obtain ⟨n, middle, hn, hlen, rfl⟩ := hread
  obtain ⟨header, hheader, rfl⟩ := canonical_readVarint _ _ _ hn
  subst hlen
  exact ⟨header ++ p, writeOpaqueV_eq_ok.mpr ⟨header, hheader, rfl⟩, by simp⟩

theorem delimits_readOpaqueV : Delimits readOpaqueV :=
  canonical_opaqueV.delimits roundTrips_opaqueV

theorem canonical_vectorV {dec : Cursor α} (hcanon : Canonical enc dec) :
    Canonical (fun items => writeVectorV items enc) (readVectorV dec) := by
  intro data items rest hread
  simp only [readVectorV, decoder_bind_eq_ok, decoder_lift_eq_ok] at hread
  obtain ⟨body, _, hbody, hitems, rfl⟩ := hread
  obtain ⟨encoded, hencoded, rfl⟩ := canonical_opaqueV _ _ _ hbody
  refine ⟨encoded, ?_, rfl⟩
  simp only [writeVectorV, encodeAll_of_decodeAll hcanon hitems, ok_bind, hencoded]

theorem canonical_optional {dec : Cursor α} (hcanon : Canonical enc dec) :
    Canonical (fun v => writeOptional v enc) (readOptional dec) :=
  canonical_readUint8.bind_total fun _ =>
    .ite (fun hzero => .pure (by simp [writeOptional, writeUint8, hzero])) fun _ =>
    .ite (fun hone => hcanon.bind fun _ _ hvalue => .pure (by
      simp [writeOptional, writeUint8, hvalue, hone])) fun _ => .error _

end MlsGo
