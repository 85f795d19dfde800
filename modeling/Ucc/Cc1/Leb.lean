/-
  Cc1/Leb.lean --- what is read back of the LEB128 numbers that are written.

  Source: src/cc1/out/leb.c.

  The loops shift the value, so each turn is a division by 128, of the number
  without a sign or with it.  The signed one ends where the bits that are left are
  all the bit that the last byte has on top.
-/
import Ucc.Cc1.DwarfOffset
import Ucc.Lib.Leb

set_option autoImplicit false

namespace Ucc.Cc1.Dwarf

open Ucc.Lib

/-! ## Bytes -/

section
variable {v : BitVec 64}

theorem lebByte_toNat : (lebByte v).toNat = v.toNat % 128 := by
  have hand : (lebByte v).toNat = v.toNat % 2 ^ 8 &&& 2 ^ 7 - 1 := by
    rw [lebByte, UInt8.toNat_and, UInt8.toNat_ofNat']
    rfl
  rw [hand, Nat.and_two_pow_sub_one_eq_mod, Nat.mod_mod_of_dvd _ (by decide)]

theorem lebByte_lt : (lebByte v).toNat < 128 := by
  rw [lebByte_toNat]
  exact Nat.mod_lt _ (by decide)

/-- A byte that others follow. -/
theorem lebByte_more : (lebByte v ||| 0x80).toNat = v.toNat % 128 + 128 := by
  have hadd := Nat.two_pow_add_eq_or_of_lt (i := 7) (lebByte_lt (v := v)) 1
  have hor : (lebByte v ||| 0x80).toNat = (lebByte v).toNat ||| 2 ^ 7 * 1 := UInt8.toNat_or ..
  rw [hor, Nat.or_comm, ← hadd, lebByte_toNat]
  omega

theorem ushiftRight_toNat : (v >>> 7).toNat = v.toNat / 128 := by
  rw [BitVec.toNat_ushiftRight, Nat.shiftRight_eq_div_pow]

theorem sshiftRight_toInt : (v.sshiftRight 7).toInt = v.toInt / 128 := by
  rw [BitVec.toInt_sshiftRight, Int.shiftRight_eq_div_pow]
  rfl

/-- The low digit is the same with a sign. -/
theorem lebByte_toInt : ((lebByte v).toNat : Int) = v.toInt % 128 := by
  rw [lebByte_toNat, BitVec.toInt_eq_toNat_cond]
  split <;> omega

/-- The value is one of seven bits where the signed loop ends, and in no turn
before. -/
theorem lebDone_iff : lebDone v = true ↔ -64 ≤ v.toInt ∧ v.toInt < 64 := by
  have hbit : v.getLsbD 6 = decide (64 ≤ v.toNat % 128) := by
    rw [BitVec.getLsbD, Nat.testBit_eq_decide_div_mod_eq]
    congr 1
    apply propext
    omega
  have hdigit : ((v.toNat % 128 : Nat) : Int) = v.toInt % 128 := by
    rw [← lebByte_toNat, lebByte_toInt]
  have hzero : v.sshiftRight 7 = 0 ↔ v.toInt / 128 = 0 := by
    rw [← sshiftRight_toInt, ← BitVec.toInt_inj]
    rfl
  have hones : v.sshiftRight 7 = -1 ↔ v.toInt / 128 = -1 := by
    rw [← sshiftRight_toInt, ← BitVec.toInt_inj]
    rfl
  simp only [lebDone, Bool.or_eq_true, Bool.and_eq_true, beq_iff_eq, Bool.not_eq_true', hbit,
    decide_eq_true_eq, decide_eq_false_iff_not, hzero, hones]
  omega

end

/-! ## The loops -/

/-- The unsigned bytes are read back. -/
theorem decodeUleb_lebOutUnsigned (v : BitVec 64) (len : Nat) (rest : List UInt8) :
    decodeUleb ((lebOutUnsigned v len).1 ++ rest) = some (v.toNat, rest) := by
  fun_induction lebOutUnsigned v len with
  | case1 v len hdone =>
    have hsmall : v.toNat < 128 := by
      have hdiv : v.toNat / 128 = 0 := by
        rw [← ushiftRight_toNat, hdone]
        rfl
      omega
    rw [List.singleton_append, decodeUleb_last lebByte_lt, lebByte_toNat, Nat.mod_eq_of_lt hsmall]
  | case2 v len hmore bytes n hrec ih =>
    rw [hrec, ushiftRight_toNat] at ih
    rw [List.cons_append, decodeUleb_more lebByte_more ih, Nat.mod_add_div]

/-- The signed bytes are read back. -/
theorem decodeSleb_lebOutSigned (sv : BitVec 64) (len : Nat) (rest : List UInt8) :
    decodeSleb ((lebOutSigned sv len).1 ++ rest) = some (sv.toInt, rest) := by
  fun_induction lebOutSigned sv len with
  | case1 sv len hdone =>
    obtain ⟨hlo, hhi⟩ := lebDone_iff.mp hdone
    rw [List.singleton_append, decodeSleb_last lebByte_toInt hlo hhi]
  | case2 sv len hmore bytes n hrec ih =>
    rw [hrec, sshiftRight_toInt] at ih
    rw [List.cons_append, decodeSleb_more lebByte_more ih, ← lebByte_toNat, lebByte_toInt,
      Int.emod_add_mul_ediv]

/-! ## The number of turns -/

/-- Each turn of the unsigned loop takes seven bits. -/
theorem lebLengthUnsigned_le (v : BitVec 64) (len k : Nat) (h : v.toNat < 128 ^ (k + 1)) :
    lebLengthUnsigned v len ≤ len + k := by
  fun_induction lebLengthUnsigned v len generalizing k with
  | case1 v len hdone => exact Nat.le_add_right _ _
  | case2 v len hmore ih =>
    cases k with
    | zero =>
      refine absurd (BitVec.eq_of_toNat_eq ?_) hmore
      rw [ushiftRight_toNat]
      exact Nat.div_eq_of_lt (by simpa using h)
    | succ k =>
      have hnext := ih k (by rw [ushiftRight_toNat, pow_succ] at *; omega)
      omega

theorem lebLengthSigned_le (sv : BitVec 64) (len k : Nat) (hlo : -64 * 128 ^ k ≤ sv.toInt)
    (hhi : sv.toInt < 64 * 128 ^ k) : lebLengthSigned sv len ≤ len + k := by
  fun_induction lebLengthSigned sv len generalizing k with
  | case1 sv len hdone => exact Nat.le_add_right _ _
  | case2 sv len hmore ih =>
    cases k with
    | zero => exact absurd (lebDone_iff.mpr ⟨by simpa using hlo, by simpa using hhi⟩) hmore
    | succ k =>
      rw [pow_succ] at hlo hhi
      have hnext := ih k (by rw [sshiftRight_toInt]; omega) (by rw [sshiftRight_toInt]; omega)
      omega

theorem leb128Length_le (v : BitVec 64) (sig : Bool) : leb128Length v sig ≤ 10 := by
  cases sig with
  | false => exact lebLengthUnsigned_le v 1 9 (v.isLt.trans (by decide))
  | true =>
    have hlo := v.le_toInt
    have hhi := v.toInt_lt
    exact lebLengthSigned_le v 1 9 (by omega) (by omega)

/-- What is written has the length that is returned and predicted, at most ten
bytes, and is read back as the number, with whatever follows it left over. -/
theorem leb128_round_trip (v : BitVec 64) (sig : Bool) (rest : List UInt8) :
    (leb128Out v sig).1.length = (leb128Out v sig).2 ∧
      (leb128Out v sig).2 = leb128Length v sig ∧ leb128Length v sig ≤ 10 ∧
      (if sig then decodeSleb ((leb128Out v sig).1 ++ rest) = some (v.toInt, rest)
        else decodeUleb ((leb128Out v sig).1 ++ rest) = some (v.toNat, rest)) := by
  refine ⟨by rw [leb128Out_length, leb128Out_snd], leb128Out_snd v sig, leb128Length_le v sig, ?_⟩
  cases sig with
  | true => exact decodeSleb_lebOutSigned v 1 rest
  | false => exact decodeUleb_lebOutUnsigned v 1 rest

end Ucc.Cc1.Dwarf
