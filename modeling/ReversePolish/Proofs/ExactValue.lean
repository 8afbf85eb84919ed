import Mathlib
import ReversePolish.Proofs.Rounding

/-! The exact values of binary64 numbers. A finite number has the value of its significand and exponent; in its bits
this is the sign bit and the units that the other bits stand for. -/
namespace ReversePolish.Binary64

open Float.Model (Format)
open Float.Model.UnpackedFloat (Sign unpackExponent unpackMantissa unpackSign)

def rational? (x : Float) : Option ℚ :=
  match x.toModel.unpack with
  | .finite sign significand exponent _ => some (sign.apply significand * 2 ^ exponent)
  | .zero _ => some 0
  | .infinity _ => none
  | .notANumber => none

def magnitudeBits (x : Float) : Nat := x.toBits.toNat % signBit

def isNegative (x : Float) : Bool := signBit ≤ x.toBits.toNat

theorem magnitudeBits_mod_two (x : Float) : magnitudeBits x % 2 = x.toBits.toNat % 2 :=
  Nat.mod_mod_of_dvd _ (by decide)

theorem testBit_eq_isNegative (x : Float) : x.toBits.toNat.testBit 63 = isNegative x := by
  have hlt : x.toBits.toNat < 2 ^ 64 := x.toBits.toBitVec.isLt
  rw [isNegative, Nat.testBit_eq_decide_div_mod_eq, decide_eq_decide, signBit]
  omega

def factor (x : Float) : ℚ := if isNegative x then -1 else 1

section Fields

variable (b : BitVec 64)

theorem toNat_unpackMantissa :
    (@unpackMantissa Format.binary64 b).toNat = b.toNat % signBit % hiddenBit := by
  have hdvd : hiddenBit ∣ signBit := by decide
  rw [Nat.mod_mod_of_dvd _ hdvd]
  simp [unpackMantissa, hiddenBit]

theorem toNat_unpackExponent :
    (@unpackExponent Format.binary64 b).toNat = b.toNat % signBit / hiddenBit := by
  have hsplit : signBit = hiddenBit * 2 ^ 11 := by decide
  rw [hsplit, Nat.mod_mul_right_div_self]
  simp [unpackExponent, Nat.shiftRight_eq_div_pow, hiddenBit]

theorem unpackMantissa_eq_zero_iff :
    @unpackMantissa Format.binary64 b = 0#52 ↔ b.toNat % signBit % hiddenBit = 0 := by
  rw [← BitVec.toNat_inj, toNat_unpackMantissa]
  rfl

theorem unpackExponent_eq_zero_iff :
    @unpackExponent Format.binary64 b = 0#11 ↔ b.toNat % signBit < hiddenBit := by
  have hzero : (0#11).toNat = 0 := rfl
  rw [← BitVec.toNat_inj, toNat_unpackExponent]
  unfold hiddenBit
  omega

theorem unpackExponent_eq_ones_iff :
    @unpackExponent Format.binary64 b = -1#11 ↔ infinity ≤ b.toNat % signBit := by
  have hones : (-1#11).toNat = 2047 := rfl
  rw [← BitVec.toNat_inj, toNat_unpackExponent]
  unfold signBit hiddenBit infinity
  omega

theorem unpackSign_eq_zero_iff : @unpackSign Format.binary64 b = 0#1 ↔ b.toNat < signBit := by
  have hlt : b.toNat < 2 * signBit := b.isLt
  have hsign : (@unpackSign Format.binary64 b).toNat = b.toNat / signBit % 2 := by
    simp [unpackSign, Nat.shiftRight_eq_div_pow, signBit]
  rw [← BitVec.toNat_inj, hsign, BitVec.toNat_ofNat]
  unfold signBit at hlt ⊢
  omega

end Fields

section Cases

variable {x : Float}

theorem unpack_eq (x : Float) :
    x.toModel.unpack = Float.Model.UnpackedFloat.unpack Format.binary64 x.toBits.toBitVec := rfl

theorem sign_apply (x : Float) (n : ℤ) :
    (((Sign.ofBitVec (@unpackSign Format.binary64 x.toBits.toBitVec)).apply n : ℤ) : ℚ) = factor x * n := by
  have hzero := unpackSign_eq_zero_iff x.toBits.toBitVec
  unfold Sign.ofBitVec factor isNegative
  by_cases hnegative : signBit ≤ x.toBits.toNat
  · rw [if_neg (hzero.not.2 (not_lt.2 hnegative)), if_pos (by simpa using hnegative)]
    simp [Sign.apply]
  · rw [if_pos (hzero.2 (not_le.1 hnegative)), if_neg (by simpa using hnegative)]
    simp [Sign.apply]

theorem two_zpow_sub (shift k : ℕ) : (2 : ℚ) ^ ((shift : ℤ) - (k : ℤ)) = 2 ^ shift / (2 ^ k : ℕ) := by
  rw [zpow_sub₀ two_ne_zero, zpow_natCast, zpow_natCast, Nat.cast_pow, Nat.cast_two]

theorem toNat_append_one (b : BitVec 52) : (1#1 ++ b).toNat = hiddenBit + b.toNat := by
  rw [BitVec.toNat_append, ← Nat.shiftLeft_add_eq_or_of_lt b.isLt]
  rfl

theorem units_of_lt {bits : Nat} (h : bits < hiddenBit) : units bits = bits := by
  rw [units, Nat.div_eq_of_lt h, Nat.mod_eq_of_lt h, if_pos rfl]

theorem units_of_le {bits : Nat} (h : hiddenBit ≤ bits) :
    units bits = (hiddenBit + bits % hiddenBit) * 2 ^ (bits / hiddenBit - 1) := by
  have hpos : bits / hiddenBit ≠ 0 := (Nat.div_pos h (by decide)).ne'
  rw [units, if_neg hpos, shiftLeft_eq_mul_pow]

theorem rational?_of_lt (h : magnitudeBits x < infinity) :
    rational? x = some (factor x * (units (magnitudeBits x) / unity)) := by
  have hsign := sign_apply x
  have hones := (unpackExponent_eq_ones_iff x.toBits.toBitVec).not.2 (not_le.2 h)
  have hzero : _ ↔ magnitudeBits x < hiddenBit := unpackExponent_eq_zero_iff x.toBits.toBitVec
  have hmantissa : _ ↔ magnitudeBits x % hiddenBit = 0 := unpackMantissa_eq_zero_iff x.toBits.toBitVec
  have htoNat : _ = magnitudeBits x % hiddenBit := toNat_unpackMantissa x.toBits.toBitVec
  have hexponent : _ = magnitudeBits x / hiddenBit := toNat_unpackExponent x.toBits.toBitVec
  rw [rational?, unpack_eq, Float.Model.UnpackedFloat.unpack]
  dsimp only
  rw [if_neg hones]
  by_cases hsubnormal : magnitudeBits x < hiddenBit
  · have hscale : ((magnitudeBits x / hiddenBit : ℕ) : ℤ) - (Format.binary64.exponentBias + (52 : ℕ)) + 1 =
        (0 : ℕ) - (1074 : ℕ) := by
      rw [Nat.div_eq_of_lt hsubnormal]
      rfl
    rw [Nat.mod_eq_of_lt hsubnormal] at htoNat hmantissa
    rw [if_pos (hzero.2 hsubnormal), units_of_lt hsubnormal]
    by_cases hnothing : magnitudeBits x = 0
    · rw [dif_pos (hmantissa.2 hnothing), hnothing, Nat.cast_zero, zero_div, mul_zero]
    · rw [dif_neg (hmantissa.not.2 hnothing)]
      dsimp only
      rw [hexponent, htoNat, hsign, hscale, two_zpow_sub, ← unity, Int.cast_natCast, pow_zero, mul_assoc,
        mul_one_div]
  · have hscale : ((magnitudeBits x / hiddenBit : ℕ) : ℤ) - (Format.binary64.exponentBias + (52 : ℕ)) =
        (magnitudeBits x / hiddenBit - 1 : ℕ) - (1074 : ℕ) := by
      have hbias : Format.binary64.exponentBias = 1023 := rfl
      have hpos : 0 < magnitudeBits x / hiddenBit := Nat.div_pos (not_lt.1 hsubnormal) (by decide)
      omega
    rw [if_neg (hzero.not.2 hsubnormal), units_of_le (not_lt.1 hsubnormal)]
    dsimp only
    rw [toNat_append_one, hexponent, htoNat, hsign, hscale, two_zpow_sub, ← unity, Int.cast_natCast, Nat.cast_mul,
      Nat.cast_pow, Nat.cast_two, mul_assoc, mul_div_assoc]

theorem unpack_of_le (h : infinity ≤ magnitudeBits x) :
    (magnitudeBits x = infinity ∧ ∃ sign, x.toModel.unpack = .infinity sign) ∨
      infinity < magnitudeBits x ∧ x.toModel.unpack = .notANumber := by
  have hones := (unpackExponent_eq_ones_iff x.toBits.toBitVec).2 h
  have hmantissa : _ ↔ magnitudeBits x % hiddenBit = 0 := unpackMantissa_eq_zero_iff x.toBits.toBitVec
  have hlt : magnitudeBits x < signBit := Nat.mod_lt _ (by decide)
  have hinfinity : magnitudeBits x % hiddenBit = 0 ↔ magnitudeBits x = infinity := by
    unfold signBit at hlt
    unfold infinity at h ⊢
    unfold hiddenBit
    omega
  rw [unpack_eq, Float.Model.UnpackedFloat.unpack]
  dsimp only
  rw [if_pos hones]
  by_cases heq : magnitudeBits x = infinity
  · exact .inl ⟨heq, _, if_pos (hmantissa.2 (hinfinity.2 heq))⟩
  · exact .inr ⟨lt_of_le_of_ne h (Ne.symm heq), if_neg (hmantissa.not.2 (hinfinity.not.2 heq))⟩

theorem rational?_eq_none_iff : rational? x = none ↔ infinity ≤ magnitudeBits x := by
  constructor
  · intro h
    by_contra hlt
    rw [rational?_of_lt (not_le.1 hlt)] at h
    cases h
  · intro h
    rcases unpack_of_le h with ⟨-, sign, hunpack⟩ | ⟨-, hunpack⟩
    · rw [rational?, hunpack]
    · rw [rational?, hunpack]

theorem of_rational?_eq_some {v : ℚ} (h : rational? x = some v) :
    magnitudeBits x < infinity ∧ v = factor x * (units (magnitudeBits x) / unity) := by
  have hlt : magnitudeBits x < infinity := by
    rw [← not_le, ← rational?_eq_none_iff, h]
    exact Option.some_ne_none v
  rw [rational?_of_lt hlt, Option.some.injEq] at h
  exact ⟨hlt, h.symm⟩

theorem unpack_of_lt (h : magnitudeBits x < infinity) :
    x.toModel.unpack.isInf = false ∧ x.toModel.unpack.isNaN = false := by
  have hvalue := rational?_of_lt h
  rcases hunpack : x.toModel.unpack with sign | _ | sign | ⟨sign, significand, exponent, hpos⟩
  · rw [rational?, hunpack] at hvalue
    cases hvalue
  · rw [rational?, hunpack] at hvalue
    cases hvalue
  · exact ⟨rfl, rfl⟩
  · exact ⟨rfl, rfl⟩

theorem isInf_iff : x.isInf = true ↔ magnitudeBits x = infinity := by
  have hisInf : x.isInf = x.toModel.unpack.isInf := rfl
  rw [hisInf]
  rcases Nat.lt_or_ge (magnitudeBits x) infinity with hlt | hge
  · exact iff_of_false (Bool.eq_false_iff.1 (unpack_of_lt hlt).1) hlt.ne
  · rcases unpack_of_le hge with ⟨heq, sign, hunpack⟩ | ⟨hgt, hunpack⟩
    · rw [hunpack]
      exact iff_of_true rfl heq
    · rw [hunpack]
      exact iff_of_false Bool.false_ne_true hgt.ne'

theorem isNaN_iff : x.isNaN = true ↔ infinity < magnitudeBits x := by
  have hisNaN : x.isNaN = x.toModel.unpack.isNaN := rfl
  rw [hisNaN]
  rcases Nat.lt_or_ge (magnitudeBits x) infinity with hlt | hge
  · exact iff_of_false (Bool.eq_false_iff.1 (unpack_of_lt hlt).2) hlt.not_gt
  · rcases unpack_of_le hge with ⟨heq, sign, hunpack⟩ | ⟨hgt, hunpack⟩
    · rw [hunpack]
      exact iff_of_false Bool.false_ne_true heq.not_gt
    · rw [hunpack]
      exact iff_of_true rfl hgt

end Cases

section Signed

theorem toBits_ofBits {bits : UInt64} (h : bits.toNat % signBit ≤ infinity) : (Float.ofBits bits).toBits = bits := by
  have hvalid : Format.binary64.Valid bits.toBitVec := by
    refine ⟨fun hones hmantissa => absurd ?_ hmantissa⟩
    have hge := (unpackExponent_eq_ones_iff bits.toBitVec).1 hones
    have heq : bits.toBitVec.toNat % signBit = infinity := le_antisymm h hge
    rw [unpackMantissa_eq_zero_iff, heq]
    rfl
  exact congrArg Float.toBits (Float.ofBits_toBits ⟨⟨bits, hvalid⟩⟩)

theorem toNat_toBits_signed (negative : Bool) {bits : Nat} (h : bits ≤ infinity) :
    (signed negative bits).toBits.toNat = (if negative then signBit else 0) + bits := by
  have hsum : (if negative then signBit + bits else bits) = (if negative then signBit else 0) + bits := by
    cases negative <;> simp
  have hlt : (if negative then signBit else 0) + bits < 2 ^ 64 := by
    unfold infinity at h
    unfold signBit
    split <;> omega
  have hbits : (UInt64.ofNat ((if negative then signBit else 0) + bits)).toNat =
      (if negative then signBit else 0) + bits := UInt64.toNat_ofNat_of_lt hlt
  rw [signed, hsum, toBits_ofBits, hbits]
  rw [hbits]
  unfold infinity at h ⊢
  unfold signBit
  split <;> omega

theorem magnitudeBits_signed (negative : Bool) {bits : Nat} (h : bits ≤ infinity) :
    magnitudeBits (signed negative bits) = bits := by
  rw [magnitudeBits, toNat_toBits_signed negative h]
  unfold infinity at h
  unfold signBit
  split <;> omega

theorem isNegative_signed (negative : Bool) {bits : Nat} (h : bits ≤ infinity) :
    isNegative (signed negative bits) = negative := by
  rw [isNegative, toNat_toBits_signed negative h]
  unfold infinity at h
  unfold signBit
  cases negative
  · simp; omega
  · simp

theorem factor_signed (negative : Bool) {bits : Nat} (h : bits ≤ infinity) :
    factor (signed negative bits) = if negative then -1 else 1 := by
  rw [factor, isNegative_signed negative h]

theorem toBits_signed_mod_two (negative : Bool) {bits : Nat} (h : bits ≤ infinity) :
    (signed negative bits).toBits.toNat % 2 = bits % 2 := by
  rw [← magnitudeBits_mod_two, magnitudeBits_signed negative h]

theorem signed_magnitudeBits (x : Float) : signed (isNegative x) (magnitudeBits x) = x := by
  have hlt : x.toBits.toNat < 2 * signBit := x.toBits.toBitVec.isLt
  have hbits : (if isNegative x then signBit + magnitudeBits x else magnitudeBits x) = x.toBits.toNat := by
    unfold isNegative magnitudeBits
    split
    · rename_i hle
      rw [decide_eq_true_eq] at hle
      rw [Nat.mod_eq_sub_mod hle, Nat.mod_eq_of_lt (by omega), Nat.add_sub_cancel' hle]
    · rename_i hgt
      rw [decide_eq_true_eq, not_le] at hgt
      exact Nat.mod_eq_of_lt hgt
  rw [signed, hbits, UInt64.ofNat_toNat, Float.ofBits_toBits]

end Signed

end ReversePolish.Binary64
