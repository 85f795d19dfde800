/-
  Cc1/ShiftConv.lean --- powers of two, and the shifts that stand for them.

  Source: try_shift_conv in src/cc1/out/op.c, with src/util/math.c.

  The functions of math.c are loops over the bits of a word; those that the operators
  use are written over numbers.  They agree, and `try_shift_conv` can put a shift by
  `log2ll` in place of a multiplication or of a division.
-/
import Ucc.Cc1.OutOp
import Ucc.Util.Math

set_option autoImplicit false

namespace Ucc.Cc1.Out

theorem ispow2_eq (v : Integral) : ispow2 v = Util.ispow2 v := by
  rw [Bool.eq_iff_iff]
  simp [ispow2, Util.ispow2]

theorem log2ll_eq {v : Integral} (hv : v ≠ 0) : log2ll v = BitVec.ofInt 64 (Util.log2ll v) := by
  rw [Util.log2ll_eq_log hv, BitVec.ofInt_natCast, ← Nat.log2_eq_log_two]
  rfl

/-- `unsigned long` -/
def ulongTy : OutTy := .int .w64 false

/-- What is put in place of a multiplication by a power of two. -/
theorem tryShiftConv_multiply {v : Integral} (h : Util.ispow2 v = true) (x : Integral) :
    tryShiftConv .multiply (inReg ulongTy x) (outNewL ulongTy v) =
      (.shiftl, inReg ulongTy x, outNewL ulongTy (BitVec.ofInt 64 (Util.log2ll v))) := by
  have hpow := (ispow2_eq v).trans h
  have hv : v ≠ 0 := Util.ne_zero_of_ispow2 h
  rw [← log2ll_eq hv]
  exact if_pos hpow

/-- What is put in place of a division by one. -/
theorem tryShiftConv_divide {v : Integral} (h : Util.ispow2 v = true) (x : Integral) :
    tryShiftConv .divide (inReg ulongTy x) (outNewL ulongTy v) =
      (.shiftr, inReg ulongTy x, outNewL ulongTy (BitVec.ofInt 64 (Util.log2ll v))) := by
  have hpow := (ispow2_eq v).trans h
  have hv : v ≠ 0 := Util.ne_zero_of_ispow2 h
  rw [← log2ll_eq hv]
  exact if_pos hpow

/-- The helpers of math.c between 1 and `2 ^ 63`, and the shifts of `try_shift_conv`. -/
theorem power_of_two_helpers {v : Integral} (h1 : 1 ≤ v.toNat) (h63 : v.toNat ≤ 2 ^ 63) :
    IsLeast {p : Nat | p.isPowerOfTwo ∧ v.toNat ≤ p} (Util.round2 v).toNat ∧
      Util.log2ll v = Nat.log 2 v.toNat ∧
      (v.toNat.isPowerOfTwo → ∀ x : Integral,
        x * v = x <<< (Util.log2ll v).toNat ∧ x / v = x >>> (Util.log2ll v).toNat ∧
        tryShiftConv .multiply (inReg ulongTy x) (outNewL ulongTy v) =
          (.shiftl, inReg ulongTy x, outNewL ulongTy (BitVec.ofInt 64 (Util.log2ll v))) ∧
        tryShiftConv .divide (inReg ulongTy x) (outNewL ulongTy v) =
          (.shiftr, inReg ulongTy x, outNewL ulongTy (BitVec.ofInt 64 (Util.log2ll v)))) := by
  have hv : v ≠ 0 := by
    rintro rfl
    simp at h1
  refine ⟨Util.isLeast_round2 h63, Util.log2ll_eq_log hv, fun hpow x => ?_⟩
  have h := (Util.ispow2_iff v).mpr hpow
  exact ⟨Util.mul_eq_shiftLeft h x, Util.div_eq_ushiftRight h x, tryShiftConv_multiply h x,
    tryShiftConv_divide h x⟩

/-- 40, which is no power of two. -/
theorem power_of_two_helpers_forty :
    IsLeast {p : Nat | p.isPowerOfTwo ∧ (40 : Integral).toNat ≤ p} (Util.round2 40).toNat ∧
      Util.log2ll 40 = Nat.log 2 (40 : Integral).toNat ∧
      ((40 : Integral).toNat.isPowerOfTwo → ∀ x : Integral,
        x * 40 = x <<< (Util.log2ll 40).toNat ∧ x / 40 = x >>> (Util.log2ll 40).toNat ∧
        tryShiftConv .multiply (inReg ulongTy x) (outNewL ulongTy 40) =
          (.shiftl, inReg ulongTy x, outNewL ulongTy (BitVec.ofInt 64 (Util.log2ll 40))) ∧
        tryShiftConv .divide (inReg ulongTy x) (outNewL ulongTy 40) =
          (.shiftr, inReg ulongTy x, outNewL ulongTy (BitVec.ofInt 64 (Util.log2ll 40)))) :=
  power_of_two_helpers (by decide) (by decide)

end Ucc.Cc1.Out
