import StackScript.Proofs.Cbor.Roundtrip
import StackScript.Bytecode.Codec

/-! # Numbers read back

A chunk file stores a number as the narrowest float item that holds it exactly (`Item.ofFloat`):
NaN as half precision's quiet NaN, the infinities in half precision, other values in half or
single precision when the value is one of theirs, a double otherwise. A number field widens the
item back into a double and reads the number that was written (`number_ofFloat`).

Two facts carry this. A double is the double of its bits (`ofBits_toBits`): a double's bits
hold a NaN only as the one quiet NaN, and unpacking and packing again keeps every other pattern.
And widening undoes narrowing bit for bit (`Format.widen_encode?`): a value normal in the narrow
format keeps its exponent and drops only trailing zeros of its fraction, and one that is
subnormal there has its leading bit moved into the hidden bit.
-/

namespace StackScript

set_option autoImplicit false

/-! ## The bits of a double -/

section Bits

open Float.Model Float.Model.UnpackedFloat

/-- The sign, exponent and fraction fields of a double's bits, as numbers. -/
theorem binary64_fields (b : BitVec 64) :
    b.toNat = (@unpackSign Format.binary64 b).toNat * 2 ^ 63 +
      (@unpackExponent Format.binary64 b).toNat * 2 ^ 52 + (@unpackMantissa Format.binary64 b).toNat := by
  have := b.isLt
  simp [unpackSign, unpackExponent, unpackMantissa, Nat.shiftRight_eq_div_pow]
  omega

theorem toNat_packComponents (s : Sign) (e : BitVec 11) (m : BitVec 52) :
    (packComponents Format.binary64 s e m).toNat = s.toBitVec.toNat * 2 ^ 63 + e.toNat * 2 ^ 52 + m.toNat := by
  have he := e.isLt
  have hm := m.isLt
  simp only [packComponents, BitVec.toNat_append]
  rw [← Nat.shiftLeft_add_eq_or_of_lt he, ← Nat.shiftLeft_add_eq_or_of_lt hm]
  simp only [Nat.shiftLeft_eq]
  ring

theorem sign_toBitVec_ofBitVec (v : BitVec 1) : (Sign.ofBitVec v).toBitVec = v := by
  obtain ⟨⟨n, hn⟩⟩ := v
  interval_cases n <;> rfl

/-- Packing the unpacked form of a double's bits gives the bits back, as long as a NaN is the
one quiet NaN. -/
theorem pack_unpack_binary64 {b : BitVec 64} (hb : Format.binary64.Valid b) :
    UnpackedFloat.pack Format.binary64 (UnpackedFloat.unpack Format.binary64 b) = b := by
  apply BitVec.eq_of_toNat_eq
  have hFields := binary64_fields b
  have hM : (@unpackMantissa Format.binary64 b).toNat < 2 ^ 52 := (@unpackMantissa Format.binary64 b).isLt
  have hE : (@unpackExponent Format.binary64 b).toNat < 2048 := (@unpackExponent Format.binary64 b).isLt
  have hBias : Format.binary64.exponentBias = 1023 := rfl
  have hBits : Format.binary64.mantissaBits = 53 := rfl
  unfold UnpackedFloat.unpack
  dsimp only
  split_ifs with hTop hMan hZero hMan0
  · simp only [UnpackedFloat.pack, packedInfinity, toNat_packComponents, sign_toBitVec_ofBitVec, hFields, hTop, hMan]
    simp
  · rw [UnpackedFloat.pack, hb.eq_packedNaN hTop hMan]
  · simp only [UnpackedFloat.pack, packedZero, toNat_packComponents, sign_toBitVec_ofBitVec, hFields, hZero, hMan0]
    simp
  · -- subnormal: the biased exponent is one and the fraction has no hidden bit
    have hLog : (@unpackMantissa Format.binary64 b).toNat.log2 < 52 :=
      (Nat.log2_lt (by simpa [← BitVec.toNat_inj] using hMan0)).mpr hM
    have hE0 : (@unpackExponent Format.binary64 b).toNat = 0 := by simp [hZero]
    simp only [UnpackedFloat.pack, hE0, hBias, hBits]
    rw [if_neg (by omega), if_neg (by omega), toNat_packComponents, sign_toBitVec_ofBitVec, hFields, hE0]
    simp
  · -- normal: the hidden bit joins the fraction, and the biased exponent is the field
    have hE0 : (@unpackExponent Format.binary64 b).toNat ≠ 0 := by
      simpa [← BitVec.toNat_inj] using hZero
    have hETop : (@unpackExponent Format.binary64 b).toNat ≠ 2047 := by
      simpa [← BitVec.toNat_inj] using hTop
    have hHidden : (1#1 ++ @unpackMantissa Format.binary64 b).toNat =
        2 ^ 52 + (@unpackMantissa Format.binary64 b).toNat := by
      simp only [BitVec.toNat_append]
      rw [← Nat.shiftLeft_add_eq_or_of_lt hM]
      rfl
    have hLog : (2 ^ 52 + (@unpackMantissa Format.binary64 b).toNat).log2 = 52 :=
      (Nat.log2_eq_iff (by omega)).mpr ⟨by omega, by omega⟩
    simp only [UnpackedFloat.pack, hHidden, hLog, hBias, hBits]
    rw [if_neg (by omega), if_pos trivial, toNat_packComponents, sign_toBitVec_ofBitVec, hFields]
    simp only [BitVec.toNat_ofNat]
    have hField : ((((@unpackExponent Format.binary64 b).toNat : Int) - ((1023 : Nat) + (52 : Nat)) +
        (1023 : Nat) + (52 : Nat)).toNat) % 2 ^ 11 = (@unpackExponent Format.binary64 b).toNat := by
      omega
    rw [hField, Nat.add_mod_left, Nat.mod_eq_of_lt hM]

/-- A double is the double of its bits. -/
theorem ofBits_toBits (x : Float) : Float.ofBits x.toBits = x := by
  obtain ⟨⟨bits, hValid⟩⟩ := x
  simp only [Float.ofBits, Float.toBits, Float.Model.ofBits, Float.Model.pack, pack_unpack_binary64 hValid,
    UInt64.ofBitVec_toBitVec]

/-- A NaN's bits are the quiet NaN's: no other NaN pattern is a double's. -/
theorem toBits_of_isNaN {x : Float} (h : x.isNaN = true) : x.toBits.toNat = Format.quietNaN := by
  obtain ⟨⟨bits, hValid⟩⟩ := x
  change (UnpackedFloat.unpack Format.binary64 bits.toBitVec).isNaN = true at h
  unfold UnpackedFloat.unpack at h
  dsimp only at h
  split_ifs at h with hTop hMan
  · simp [UnpackedFloat.isNaN] at h
  · change bits.toBitVec.toNat = _
    rw [hValid.eq_packedNaN hTop hMan]
    rfl
  all_goals simp [UnpackedFloat.isNaN] at h

/-- An infinite double is one of the two infinities. -/
theorem eq_inf_of_isInf {x : Float} (h : x.isInf = true) :
    x = Float.ofBits 0x7FF0000000000000 ∨ x = Float.ofBits 0xFFF0000000000000 := by
  have hEq : ∀ c : UInt64, x.toBits.toNat = c.toNat → x = Float.ofBits c := by
    intro c hc
    rw [← ofBits_toBits x, UInt64.toNat_inj.mp hc]
  obtain ⟨⟨bits, hValid⟩⟩ := x
  change (UnpackedFloat.unpack Format.binary64 bits.toBitVec).isInf = true at h
  have hFields := binary64_fields bits.toBitVec
  have hS := (@unpackSign Format.binary64 bits.toBitVec).isLt
  unfold UnpackedFloat.unpack at h
  dsimp only at h
  split_ifs at h with hTop hMan
  · -- the exponent field is all ones and the fraction empty: only the sign is free
    have hE : (@unpackExponent Format.binary64 bits.toBitVec).toNat = 2047 := by simp [hTop]
    have hM : (@unpackMantissa Format.binary64 bits.toBitVec).toNat = 0 := by simp [hMan]
    rw [hE, hM] at hFields
    change (@unpackSign Format.binary64 bits.toBitVec).toNat < 2 at hS
    rcases (by omega : (@unpackSign Format.binary64 bits.toBitVec).toNat = 0 ∨
        (@unpackSign Format.binary64 bits.toBitVec).toNat = 1) with hS0 | hS1
    · exact .inl (hEq _ (by rw [hS0] at hFields; exact hFields))
    · exact .inr (hEq _ (by rw [hS1] at hFields; exact hFields))
  all_goals simp [UnpackedFloat.isInf] at h

/-- The bits of a double: a sign, an exponent field and a fraction. -/
theorem toBits_fields (x : Float) : ∃ S E F : Nat, S < 2 ∧ E < 2048 ∧ F < 2 ^ 52 ∧
    x.toBits.toNat = S * 2 ^ 63 + E * 2 ^ 52 + F := by
  have h := x.toBits.toNat_lt
  exact ⟨x.toBits.toNat / 2 ^ 63, x.toBits.toNat / 2 ^ 52 % 2048, x.toBits.toNat % 2 ^ 52,
    by omega, by omega, by omega, by omega⟩

theorem signBit_eq (x : Float) : (x.toBits >>> 63 == 1) = (x.toBits.toNat / 2 ^ 63 == 1) := by
  have h := x.toBits.toNat_lt
  rw [Bool.eq_iff_iff, beq_iff_eq, beq_iff_eq, UInt64.ext_iff]
  simp [UInt64.toNat_shiftRight, Nat.shiftRight_eq_div_pow]

end Bits

namespace Format

/-! ## Bit fields -/

/-- What `rescale` finds: `k` scaled by the one power of two that is not trivial. -/
theorem rescale_spec {m k : Nat} {q j : Int} (hk : rescale m q j = some k) :
    k * 2 ^ (j - q).toNat = m * 2 ^ (q - j).toNat := by
  unfold rescale at hk
  split_ifs at hk with hLe hDvd
  · obtain rfl := Option.some.inj hk
    have : (j - q).toNat = 0 := by omega
    rw [this, Nat.pow_zero, Nat.mul_one, Nat.pow_eq]
  · obtain rfl := Option.some.inj hk
    have : (q - j).toNat = 0 := by omega
    rw [this, Nat.pow_zero, Nat.mul_one, Nat.pow_eq]
    exact Nat.div_mul_cancel (Nat.dvd_of_mod_eq_zero (by simpa using hDvd))

/-- Rescaling to a coarser exponent only drops trailing zeros: `k` times the gap gives `m` back. -/
theorem rescale_spec_of_le {m k : Nat} {q j : Int} (hk : rescale m q j = some k) (hqj : q ≤ j) :
    k * 2 ^ (j - q).toNat = m := by
  have hSpec := rescale_spec hk
  rwa [show (q - j).toNat = 0 by omega, Nat.pow_zero, Nat.mul_one] at hSpec

/-- A number made of a sign, a field and a fraction, each below its width, reads back as them. -/
theorem fields {p q : Nat} (hp : 0 < p) {a b c : Nat} (hb : b < q) (hc : c < p) :
    (a * (p * q) + b * p + c) % p = c ∧ (a * (p * q) + b * p + c) / p % q = b ∧
      (a * (p * q) + b * p + c) / (p * q) = a := by
  have hq : 0 < q := by omega
  have hSplit : a * (p * q) + b * p + c = c + (a * q + b) * p := by ring
  have hDiv : (a * (p * q) + b * p + c) / p = a * q + b := by
    rw [hSplit, Nat.add_mul_div_right _ _ hp, Nat.div_eq_of_lt hc, Nat.zero_add]
  refine ⟨?_, ?_, ?_⟩
  · rw [hSplit, Nat.add_mul_mod_self_right, Nat.mod_eq_of_lt hc]
  · rw [hDiv, show a * q + b = b + a * q by ring, Nat.add_mul_mod_self_right, Nat.mod_eq_of_lt hb]
  · rw [← Nat.div_div_eq_div_mul, hDiv, show a * q + b = b + a * q by ring,
      Nat.add_mul_div_right _ _ hq, Nat.div_eq_of_lt hb, Nat.zero_add]

/-- The leading bit of `k`, when `k * 2 ^ s` has its leading bit at 52. -/
theorem log2_of_mul {k s m : Nat} (hm : k * 2 ^ s = m) (hLo : 2 ^ 52 ≤ m) (hHi : m < 2 ^ 53) :
    k.log2 + s = 52 := by
  have hk : k ≠ 0 := by
    rintro rfl
    omega
  have hA : 2 ^ (k.log2 + s) ≤ m := by
    rw [← hm, Nat.pow_add]
    exact Nat.mul_le_mul_right _ (Nat.log2_self_le hk)
  have hB : m < 2 ^ (k.log2 + 1 + s) := by
    rw [← hm, Nat.pow_add]
    exact Nat.mul_lt_mul_of_pos_right Nat.lt_log2_self (Nat.two_pow_pos _)
  have hC : k.log2 + s < 53 := (Nat.pow_lt_pow_iff_right (by norm_num)).mp (lt_of_le_of_lt hA hHi)
  have hD : 52 < k.log2 + 1 + s := (Nat.pow_lt_pow_iff_right (by norm_num)).mp (lt_of_le_of_lt hLo hB)
  omega

/-! ## Widening undoes narrowing -/

/-- A format whose values are all normal doubles: its fraction is no wider than a double's and
its exponents lie well inside a double's. -/
structure Narrow (f : Format) : Prop where
  fraction : f.fractionBits ≤ 52
  exponent : 2 ≤ f.exponentBits
  range : f.bias + f.fractionBits + 1 ≤ 1023

theorem narrow_half : half.Narrow := ⟨by decide, by decide, by decide⟩

theorem narrow_single : single.Narrow := ⟨by decide, by decide, by decide⟩

variable {f : Format}

theorem Narrow.top (hf : f.Narrow) : f.topField = 2 * f.bias + 1 := by
  have h := f.two_mul_bias (by have := hf.exponent; omega)
  simp only [topField, Nat.pow_eq]
  omega

theorem Narrow.leastExponent (hf : f.Narrow) : f.leastExponent = 1 - (f.bias : Int) - f.fractionBits := by
  have := hf.fraction
  unfold Format.leastExponent fractionBits at *
  omega

/-- Widening a value that is normal in the format: the field moves by the difference of the
biases and the fraction by the difference of the widths. -/
theorem widen_normal (hf : f.Narrow) {S E F k : Nat} (hS : S < 2) (hF : F < 2 ^ 52)
    (hLo : 1 ≤ (E : Int) - 1023 + f.bias) (hHi : (E : Int) - 1023 ≤ f.bias)
    (hk : k * 2 ^ (52 - f.fractionBits) = F + 2 ^ 52) :
    f.widen (S * 2 ^ (f.fractionBits + f.exponentBits) + ((E : Int) - 1023 + f.bias - 1).toNat * 2 ^ f.fractionBits + k) =
      S * 2 ^ 63 + E * 2 ^ 52 + F := by
  have hp : 0 < 2 ^ f.fractionBits := Nat.two_pow_pos _
  have hScale : 2 ^ f.fractionBits * 2 ^ (52 - f.fractionBits) = 2 ^ 52 := by
    rw [← Nat.pow_add]
    congr 1
    have := hf.fraction
    omega
  have hT : 0 < 2 ^ (52 - f.fractionBits) := Nat.two_pow_pos _
  -- The fraction of a normal value has its leading bit at the format's width.
  have hkLo : 2 ^ f.fractionBits ≤ k := by
    by_contra hlt
    have := Nat.mul_lt_mul_of_pos_right (Nat.lt_of_not_le hlt) hT
    omega
  have hkHi : k < 2 * 2 ^ f.fractionBits := by
    by_contra hge
    have := Nat.mul_le_mul_right (2 ^ (52 - f.fractionBits)) (Nat.le_of_not_lt hge)
    rw [Nat.mul_assoc, hScale] at this
    omega
  obtain ⟨c, rfl⟩ : ∃ c, k = 2 ^ f.fractionBits + c := ⟨k - 2 ^ f.fractionBits, by omega⟩
  have hc : c * 2 ^ (52 - f.fractionBits) = F := by
    rw [Nat.add_mul, hScale] at hk
    omega
  have hBias := f.two_mul_bias (by have := hf.exponent; omega)
  have hField : ((E : Int) - 1023 + f.bias).toNat < 2 ^ f.exponentBits := by omega
  have hSum : S * 2 ^ (f.fractionBits + f.exponentBits) + ((E : Int) - 1023 + f.bias - 1).toNat * 2 ^ f.fractionBits +
      (2 ^ f.fractionBits + c) =
      S * (2 ^ f.fractionBits * 2 ^ f.exponentBits) + ((E : Int) - 1023 + f.bias).toNat * 2 ^ f.fractionBits + c := by
    have hOne : ((E : Int) - 1023 + f.bias).toNat = ((E : Int) - 1023 + f.bias - 1).toNat + 1 := by omega
    rw [Nat.pow_add, hOne]
    ring
  obtain ⟨hFrac, hFld, hSgn⟩ := fields hp (a := S) hField (by omega : c < 2 ^ f.fractionBits)
  rw [hSum]
  unfold widen
  simp only [Nat.pow_eq, Nat.pow_add, hFrac, hFld, hSgn, Nat.mod_eq_of_lt hS, hf.top, beq_iff_eq]
  rw [if_neg (by omega), if_neg (by omega), hc]
  omega

/-- Widening a value that is subnormal in the format: its leading bit becomes the hidden bit of
a normal double. -/
theorem widen_subnormal (hf : f.Narrow) {S E F k s : Nat} (hS : S < 2) (hF : F < 2 ^ 52)
    (hs : (s : Int) = f.leastExponent - ((E : Int) - 1075)) (hSub : (E : Int) - 1023 + f.bias ≤ 0)
    (hk : k * 2 ^ s = F + 2 ^ 52) :
    f.widen (S * 2 ^ (f.fractionBits + f.exponentBits) + k) = S * 2 ^ 63 + E * 2 ^ 52 + F := by
  have hp : 0 < 2 ^ f.fractionBits := Nat.two_pow_pos _
  have hL := log2_of_mul hk (by omega) (by omega)
  have hLeast := hf.leastExponent
  have hk0 : k ≠ 0 := by
    rintro rfl
    omega
  -- The leading bit lies below the format's width, so the value fills the fraction field.
  have hkLt : k < 2 ^ f.fractionBits :=
    lt_of_lt_of_le Nat.lt_log2_self (Nat.pow_le_pow_right (by norm_num) (by omega))
  obtain ⟨hFrac, hFld, hSgn⟩ := fields hp (a := S) (b := 0) (Nat.two_pow_pos f.exponentBits) hkLt
  have hSum : S * 2 ^ (f.fractionBits + f.exponentBits) + k =
      S * (2 ^ f.fractionBits * 2 ^ f.exponentBits) + 0 * 2 ^ f.fractionBits + k := by
    rw [Nat.pow_add]
    ring
  have hShift : 52 - k.log2 = s := by omega
  have hRest : (k - 2 ^ k.log2) * 2 ^ s = F := by
    rw [Nat.sub_mul, hk, ← Nat.pow_add, hL]
    omega
  rw [hSum]
  unfold widen
  simp only [Nat.pow_eq, Nat.pow_add, hFrac, hFld, hSgn, Nat.mod_eq_of_lt hS, hf.top, beq_iff_eq]
  rw [if_neg (by omega), if_pos trivial, if_neg hk0, hShift, hRest]
  omega

/-- Widening a zero keeps its sign. -/
theorem widen_zero (hf : f.Narrow) {S : Nat} (hS : S < 2) :
    f.widen (S * 2 ^ (f.fractionBits + f.exponentBits)) = S * 2 ^ 63 := by
  obtain ⟨hFrac, hFld, hSgn⟩ := fields (Nat.two_pow_pos f.fractionBits) (a := S) (b := 0)
    (Nat.two_pow_pos f.exponentBits) (Nat.two_pow_pos f.fractionBits)
  have hSum : S * 2 ^ (f.fractionBits + f.exponentBits) =
      S * (2 ^ f.fractionBits * 2 ^ f.exponentBits) + 0 * 2 ^ f.fractionBits + 0 := by
    rw [Nat.pow_add]
    ring
  rw [hSum]
  unfold widen
  simp only [Nat.pow_eq, Nat.pow_add, hFrac, hFld, hSgn, Nat.mod_eq_of_lt hS, hf.top, beq_iff_eq]
  rw [if_neg (by omega), if_pos trivial, if_pos trivial]

/-- Widening undoes narrowing: the double that an encoding in a narrow format stands for is the
double that was encoded, bit for bit. -/
theorem widen_encode? (hf : f.Narrow) {x : Float} {h : Nat} (hx : f.encode? x = some h) :
    f.widen h = x.toBits.toNat := by
  obtain ⟨S, E, F, hS, hE, hF, hBits⟩ := toBits_fields x
  have hTop : x.toBits.toNat / 2 ^ 63 = S := by omega
  have hSign : (if x.toBits >>> 63 == 1 then 2 ^ (f.fractionBits + f.exponentBits) else 0) =
      S * 2 ^ (f.fractionBits + f.exponentBits) := by
    rw [signBit_eq, hTop]
    interval_cases S <;> simp
  have hFrac : x.toBits.toNat % 2 ^ 52 = F := by omega
  have hField : x.toBits.toNat / 2 ^ 52 % 2048 = E := by omega
  have hLeast := hf.leastExponent
  have hRange := hf.range
  have hFraction := hf.fraction
  unfold encode? Binary.ofFloat at hx
  simp only [hSign, Nat.pow_eq, hFrac, hField] at hx
  rw [hBits]
  by_cases hE0 : E = 0
  · subst hE0
    by_cases hF0 : F = 0
    · -- A zero keeps only its sign.
      subst hF0
      simp only [beq_self_eq_true, ↓reduceIte, Option.some.injEq] at hx
      rw [← hx, widen_zero hf hS]
      omega
    · -- A double that is subnormal is no value of a narrow format: the fraction would need
      -- more trailing zeros than it has bits.
      exfalso
      simp only [beq_iff_eq, hF0, ↓reduceIte] at hx
      split_ifs at hx with hBias
      obtain ⟨k, hk, -⟩ := Option.map_eq_some_iff.mp hx
      have hLog : F.log2 < 52 := (Nat.log2_lt hF0).mpr hF
      have hStep : max f.leastExponent (-1074 + (F.log2 : Int) - f.fractionBits) = f.leastExponent := by omega
      rw [hStep] at hk
      have hSpec := rescale_spec_of_le hk (by omega)
      have hk0 : k ≠ 0 := by
        rintro rfl
        omega
      have hBig : 2 ^ 52 ≤ 2 ^ (f.leastExponent - -1074).toNat := Nat.pow_le_pow_right (by norm_num) (by omega)
      have := Nat.mul_le_mul_right (2 ^ (f.leastExponent - -1074).toNat) (Nat.one_le_iff_ne_zero.mpr hk0)
      omega
  · -- A normal double: its mantissa has the hidden bit.
    have hLog : (F + 2 ^ 52).log2 = 52 := (Nat.log2_eq_iff (by omega)).mpr ⟨by omega, by omega⟩
    simp only [hE0, ↓reduceIte, beq_iff_eq, hLog, Nat.cast_ofNat] at hx
    rw [if_neg (by omega)] at hx
    split_ifs at hx with hBias
    obtain ⟨k, hk, rfl⟩ := Option.map_eq_some_iff.mp hx
    by_cases hNormal : 1 ≤ (E : Int) - 1075 + 52 + f.bias
    · -- Normal in the format too: only trailing zeros of the fraction go.
      have hStep : max f.leastExponent ((E : Int) - 1075 + 52 - f.fractionBits) =
          (E : Int) - 1075 + 52 - f.fractionBits := by omega
      rw [hStep] at hk
      have hSpec := rescale_spec_of_le hk (by omega)
      have hDown : ((E : Int) - 1075 + 52 - f.fractionBits - ((E : Int) - 1075)).toNat = 52 - f.fractionBits := by
        omega
      rw [hDown] at hSpec
      have hMax : max ((E : Int) - 1075 + 52 + f.bias) 1 - 1 = (E : Int) - 1023 + f.bias - 1 := by omega
      rw [hMax]
      exact widen_normal hf hS hF (by omega) (by omega) hSpec
    · -- Subnormal in the format: the value fills the fraction field.
      have hStep : max f.leastExponent ((E : Int) - 1075 + 52 - f.fractionBits) = f.leastExponent := by omega
      rw [hStep] at hk
      have hBelow : (E : Int) - 1075 ≤ f.leastExponent := by omega
      have hSpec := rescale_spec_of_le hk hBelow
      have hMax : (max ((E : Int) - 1075 + 52 + f.bias) 1 - 1).toNat = 0 := by omega
      rw [hMax, Nat.zero_mul, Nat.add_zero]
      exact widen_subnormal hf hS hF (by omega) (by omega) hSpec

end Format

/-! ## Reading a written number -/

open Cbor

/-- The float item written for a double stands for that double. -/
theorem floatOf_ofFloat (x : Float) : ∃ w b, Item.ofFloat x = .float w b ∧ Codec.floatOf w b = x := by
  unfold Item.ofFloat
  split
  · -- every NaN is the quiet NaN, which half precision's quiet NaN widens to
    rename_i hNaN
    have hBits : x.toBits = UInt64.ofNat Format.quietNaN :=
      UInt64.toNat_inj.mp (by rw [toBits_of_isNaN hNaN]; rfl)
    refine ⟨.half, 0x7e00, rfl, ?_⟩
    rw [← ofBits_toBits x, hBits]
    rfl
  split
  · -- an infinity keeps its sign
    rename_i hInf
    refine ⟨.half, _, rfl, ?_⟩
    rcases eq_inf_of_isInf hInf with rfl | rfl <;> decide
  split
  · rename_i h hHalf
    refine ⟨.half, h, rfl, ?_⟩
    rw [Codec.floatOf, Format.toFloat, Format.widen_encode? Format.narrow_half hHalf, UInt64.ofNat_toNat,
      ofBits_toBits]
  split
  · rename_i s hSingle
    refine ⟨.single, s, rfl, ?_⟩
    rw [Codec.floatOf, Format.toFloat, Format.widen_encode? Format.narrow_single hSingle, UInt64.ofNat_toNat,
      ofBits_toBits]
  · exact ⟨.double, x.toBits.toNat, rfl, by rw [Codec.floatOf, UInt64.ofNat_toNat, ofBits_toBits]⟩

/-- A number field reads back the number written. -/
theorem number_ofFloat (x : Float) : Codec.number (Item.ofFloat x) = .ok (some x) := by
  obtain ⟨w, b, hItem, hFloat⟩ := floatOf_ofFloat x
  rw [hItem]
  simp [Codec.number, Codec.content, bind, Except.bind, pure, Except.pure, hFloat]

end StackScript
