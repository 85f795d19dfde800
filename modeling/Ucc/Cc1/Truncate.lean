/-
  Cc1/Truncate.lean --- the numbers that truncation gives.

  Source: integral_truncate_bits in src/cc1/num.c.

  The mask and the conversion to a type of the host give the same low bits, the two
  shifts and the conversion to a signed type of the host the same number.
-/
import Ucc.Cc1.CastFold
import Ucc.Lib.Wrap

set_option autoImplicit false

namespace Ucc.Cc1

open Ucc.Lib

variable {n : Nat} {v : Integral}

theorem zeroAbove_toNat : (zeroAbove n v).toNat = v.toNat % 2 ^ n := by
  have hle : v.toNat % 2 ^ n < 2 ^ 64 := (Nat.mod_le _ _).trans_lt v.isLt
  rw [zeroAbove, BitVec.toNat_setWidth, BitVec.toNat_setWidth, Nat.mod_eq_of_lt hle]

theorem signAbove_toInt (hn64 : n ≤ 64) : (signAbove n v).toInt = wrap true n v.toNat := by
  rw [signAbove, BitVec.toInt_signExtend_of_le hn64, BitVec.toInt_setWidth]
  rfl

/-- The word that is returned is the value modulo `2 ^ bits`, and what is stored is
the one number of `bits` bits, with a sign, that is congruent to it; both with the
types of the host and without them. -/
theorem integral_truncate_bits_exact (castWBuiltinTypes : Bool) (val : Integral) {bits : Nat}
    (hpos : 1 ≤ bits) (hle : bits ≤ 64) :
    let (truncated, signedIv) := integralTruncateBits castWBuiltinTypes val bits
    truncated.toNat = val.toNat % 2 ^ bits ∧
      (∀ z : Int, ((-2 ^ (bits - 1) ≤ z ∧ z < 2 ^ (bits - 1)) ∧ z ≡ val.toNat [ZMOD 2 ^ bits]) ↔
        z = signedIv.toInt) ∧
      integralTruncateBits true val bits = integralTruncateBits false val bits := by
  rw [integralTruncateBits_eq true hpos hle, integralTruncateBits_eq false hpos hle,
    integralTruncateBits_eq castWBuiltinTypes hpos hle]
  refine ⟨zeroAbove_toNat, fun z => ?_, rfl⟩
  rw [signAbove_toInt hle]
  exact eq_wrap_iff hpos true

/-- `0x1ff` in 8 bits, and in the 9 of a bit-field. -/
theorem integral_truncate_bits_exact_char :
    let (truncated, signedIv) := integralTruncateBits true 0x1ff 8
    truncated.toNat = 0x1ff % 2 ^ 8 ∧
      (∀ z : Int, ((-2 ^ 7 ≤ z ∧ z < 2 ^ 7) ∧ z ≡ 0x1ff [ZMOD 2 ^ 8]) ↔ z = signedIv.toInt) ∧
      integralTruncateBits true 0x1ff 8 = integralTruncateBits false 0x1ff 8 :=
  integral_truncate_bits_exact true 0x1ff (by decide : 1 ≤ 8) (by decide)

end Ucc.Cc1
