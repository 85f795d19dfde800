/-
  Cc1/CastFold.lean --- casts of integer constants.

  Source: fold_cast_num and convert_integral_to_integral_warn in
  src/cc1/ops/expr_cast.c; integral_truncate_bits and integral_high_bit in
  src/cc1/num.c.

  The casts from and to floating types are not modelled.  A constant is a word
  of 64 bits; the rest of the folder expects the value of a type to be stored as
  that number, so with zeros above an unsigned one and the sign above a signed
  one.  Casts to an unsigned type do not keep to this.
-/
import Mathlib.Data.BitVec
import Ucc.Cc1.ConstOp

set_option autoImplicit false

namespace Ucc.Cc1

/-! ## The types -/

/-- The integral types: what a cast reads of them is whether they are `_Bool`,
the size and the signedness. -/
inductive IntTy where
  | bool
  | int (size : Nat) (isSigned : Bool) (pos : 1 ≤ size) (le : size ≤ 8)

/-- `type_size` -/
def IntTy.size : IntTy → Nat
  | .bool => 1
  | .int size _ _ _ => size

/-- `type_is_signed` -/
def IntTy.isSigned : IntTy → Bool
  | .bool => false
  | .int _ isSigned _ _ => isSigned

/-- The width in bits. -/
def IntTy.bits (t : IntTy) : Nat := 8 * t.size

/-- `type_max` -/
def IntTy.max (t : IntTy) : Integral :=
  let max : Integral := BitVec.allOnes 64 >>> (64 - t.bits)
  if t.isSigned then max / 2 - 1 else max

/-! ## Truncation -/

/-- `integral_truncate_bits`: the word cut to its low bits, and the same with
its sign extended.  With `cast_w_builtin_types` the sizes of the host's own
types are left to the host. -/
def integralTruncateBits (castWBuiltinTypes : Bool) (val : Integral) (bits : Nat) :
    Integral × Integral :=
  let posMask : Integral :=
    if bits < 64 then ~~~ (BitVec.allOnes 64 <<< bits) else BitVec.allOnes 64
  let truncated := val &&& posMask
  if castWBuiltinTypes ∧ (bits = 8 ∨ bits = 16 ∨ bits = 32 ∨ bits = 64) then
    ((val.setWidth bits).setWidth 64, (val.setWidth bits).signExtend 64)
  else
    let shamt := 64 - bits
    (truncated, (val <<< shamt).sshiftRight shamt)

/-- `integral_truncate` -/
def integralTruncate (castWBuiltinTypes : Bool) (val : Integral) (bytes : Nat) :
    Integral × Integral :=
  integralTruncateBits castWBuiltinTypes val (8 * bytes)

/-- `integral_high_bit` -/
def integralHighBit (castWBuiltinTypes : Bool) (val : Integral) (ty : IntTy) : Int :=
  let val :=
    if ty.isSigned ∧ val.toInt < 0 then (integralTruncate castWBuiltinTypes val ty.size).1 else val
  if val = 0 then -1 else val.toNat.log2

/-! ## Conversion -/

/-- `warn_value_changed_at`: the text with its conversions filled in, and the two
values. -/
structure CastWarning where
  fmt : String
  a : Integral
  b : Integral

/-- `%lld` or `%llu` -/
def valueFmt (isSigned : Bool) : String := if isSigned then "%lld" else "%llu"

/-- The value that `convert_integral_to_integral_warn` returns. -/
def convertIntegral (castWBuiltinTypes : Bool) (val : Integral) (tin tout : IntTy) : Integral :=
  let (toIv, toIvSignExt) := integralTruncate castWBuiltinTypes val tout.size
  if !tout.isSigned && tin.isSigned then
    -- "need to ensure sign extension"
    if toIv &&& ((1 : Integral) <<< (tin.bits - 1)) ≠ 0 ∧ tin.bits ≠ tout.bits then
      let ret := toIv ||| (BitVec.allOnes 64 <<< tin.bits)
      if 64 ≤ tout.bits then ret else ret &&& (BitVec.allOnes 64 >>> tout.bits)
    else toIv
  else if tin.isSigned then toIvSignExt
  -- "unsigned to unsigned"
  else toIvSignExt

/-- The warning of `convert_integral_to_integral_warn` on an implicit cast. -/
def convertWarning (castWBuiltinTypes : Bool) (val ret : Integral) (tin tout : IntTy) :
    Option CastWarning :=
  let toIvSignExt := (integralTruncate castWBuiltinTypes val tout.size).2
  let inFmt := valueFmt tin.isSigned
  let outFmt := valueFmt tout.isSigned
  if ret ≠ val then
    some ⟨"implicit cast changes value from " ++ inFmt ++ " to " ++ outFmt, val,
      if tout.isSigned then toIvSignExt else ret⟩
  else if tout.isSigned ∧ ¬ tin.isSigned ∧ ret.toInt < 0 then
    some ⟨"implicit cast negates value, " ++ inFmt ++ " to " ++ outFmt, val, toIvSignExt⟩
  else if ¬ tout.isSigned ∨ 0 < ret.toInt then
    let inHigh := integralHighBit castWBuiltinTypes val tin
    let outHigh := integralHighBit castWBuiltinTypes tout.max tout
    if outHigh < inHigh then
      some ⟨"implicit cast truncates value from " ++ inFmt ++ " to " ++ outFmt, val,
        ret &&& ((1 : Integral) <<< (outHigh + 1).toNat - 1)⟩
    else none
  else none

/-- `convert_integral_to_integral_warn` -/
def convertIntegralToIntegralWarn (castWBuiltinTypes : Bool) (val : Integral) (tin tout : IntTy)
    (doWarn : Bool) : Integral × Option CastWarning :=
  let ret := convertIntegral castWBuiltinTypes val tin tout
  if tin.size = tout.size then (ret, none)
  else (ret, if doWarn then convertWarning castWBuiltinTypes val ret tin tout else none)

/-- `numeric`, with an integer in it. -/
structure Numeric where
  val : Integral
  suffix : Suffix
  deriving DecidableEq, Repr

/-- `fold_cast_num`, from a type to a type; the suffix stays. -/
def foldCastNum (castWBuiltinTypes implicit : Bool) (tin tout : IntTy) (num : Numeric) :
    Numeric × Option CastWarning :=
  match tout with
  | .bool => ({ num with val := ofTruth (num.val != 0) }, none)
  | .int .. =>
      let (ret, warning) :=
        convertIntegralToIntegralWarn castWBuiltinTypes num.val tin tout implicit
      ({ num with val := ret }, warning)

/-! ## What C says -/

/-- The values of a type. -/
def IntTy.Has (t : IntTy) (z : Int) : Prop :=
  match t with
  | .bool => z = 0 ∨ z = 1
  | .int _ true _ _ => -2 ^ (t.bits - 1) ≤ z ∧ z < 2 ^ (t.bits - 1)
  | .int _ false _ _ => 0 ≤ z ∧ z < 2 ^ t.bits

/-- Conversion: the value modulo `2 ^ n`, as a signed number where the type is
signed. -/
def IntTy.convert (t : IntTy) (z : Int) : Int :=
  match t with
  | .bool => if z = 0 then 0 else 1
  | .int _ true _ _ => z.bmod (2 ^ t.bits)
  | .int _ false _ _ => z % 2 ^ t.bits

/-- The word that a value is stored as: zeros above an unsigned value, its sign
above a signed one. -/
def stored (z : Int) : Integral := BitVec.ofInt 64 z

/-- A cast gives the converted value, and the same cast once more changes
nothing. -/
def CastsLikeC (castWBuiltinTypes implicit : Bool) (src dst : IntTy) (suffix : Suffix) (z : Int) :
    Prop :=
  let once := (foldCastNum castWBuiltinTypes implicit src dst ⟨stored z, suffix⟩).1
  once = ⟨stored (dst.convert z), suffix⟩ ∧
    (foldCastNum castWBuiltinTypes implicit dst dst once).1 = once

/-- The top bit of the result is clear, where the destination is an unsigned
type of less than 64 bits. -/
def TopClear (dst : IntTy) (z : Int) : Prop :=
  match dst with
  | .int size false _ _ => size < 8 → z % 2 ^ dst.bits < 2 ^ (dst.bits - 1)
  | _ => True

/-! ## Words -/

/-- The low `n` bits of a word, with zeros above. -/
def zeroAbove (n : Nat) (v : Integral) : Integral := (v.setWidth n).setWidth 64

/-- The low `n` bits of a word, with the top one of them above. -/
def signAbove (n : Nat) (v : Integral) : Integral := (v.setWidth n).signExtend 64

section
variable {n : Nat} {v : Integral} {z : Int}

theorem getLsbD_zeroAbove (i : Nat) :
    (zeroAbove n v).getLsbD i = (decide (i < 64) && decide (i < n) && v.getLsbD i) := by
  simp [zeroAbove, BitVec.getLsbD_setWidth, Bool.and_assoc]

theorem getLsbD_signAbove (hn : 1 ≤ n) (i : Nat) :
    (signAbove n v).getLsbD i =
      (decide (i < 64) && if i < n then v.getLsbD i else v.getLsbD (n - 1)) := by
  have hlast : n - 1 < n := by omega
  unfold signAbove
  rw [BitVec.getLsbD_signExtend, BitVec.msb_eq_getLsbD_last]
  by_cases hi : i < n
  · simp [hi]
  · simp [hi, hlast]

theorem and_posMask (hn64 : n ≤ 64) :
    v &&& (if n < 64 then ~~~ (BitVec.allOnes 64 <<< n) else BitVec.allOnes 64) =
      zeroAbove n v := by
  refine BitVec.eq_of_getLsbD_eq fun i hi => ?_
  rw [getLsbD_zeroAbove]
  by_cases hlt : n < 64
  · have hsub : i - n < 64 := by omega
    simp only [hlt, if_true, BitVec.getLsbD_and, BitVec.getLsbD_not, BitVec.getLsbD_shiftLeft,
      BitVec.getLsbD_allOnes, hi, hsub, decide_true, Bool.true_and, Bool.and_true, Bool.not_not]
    exact Bool.and_comm _ _
  · have hin : i < n := by omega
    simp only [hlt, if_false, BitVec.getLsbD_and, BitVec.getLsbD_allOnes, hi, hin, decide_true,
      Bool.true_and, Bool.and_true]

theorem shift_back (hn : 1 ≤ n) (hn64 : n ≤ 64) :
    (v <<< (64 - n)).sshiftRight (64 - n) = signAbove n v := by
  refine BitVec.eq_of_getLsbD_eq fun i hi => ?_
  rw [getLsbD_signAbove hn, BitVec.getLsbD_sshiftRight]
  by_cases hin : i < n
  · have hsum : 64 - n + i < 64 := by omega
    have hback : 64 - n + i - (64 - n) = i := by omega
    simp [hin, hi, hsum, hback]
  · have hsum : ¬ 64 - n + i < 64 := by omega
    have hsh : ¬ 63 < 64 - n := by omega
    have hlast : 63 - (64 - n) = n - 1 := by omega
    simp only [hin, hi, Nat.not_le.2 hi, hsum, BitVec.msb_eq_getLsbD_last,
      BitVec.getLsbD_shiftLeft, hsh, hlast, decide_true, decide_false, Bool.not_false,
      Bool.true_and, if_false, show (64 - 1 : Nat) < 64 by decide]

/-- Both truncations, with or without the host's types. -/
theorem integralTruncateBits_eq (flag : Bool) (hn : 1 ≤ n) (hn64 : n ≤ 64) :
    integralTruncateBits flag v n = (zeroAbove n v, signAbove n v) := by
  unfold integralTruncateBits
  simp only [and_posMask hn64, shift_back hn hn64]
  exact ite_self _

theorem zeroAbove_stored (hn : n ≤ 64) : zeroAbove n (stored z) = stored (z % 2 ^ n) := by
  have hdvd : (2 : Int) ^ n ∣ 2 ^ 64 := pow_dvd_pow 2 hn
  have hpos : (0 : Int) < 2 ^ n := by positivity
  have hle : (2 : Int) ^ n ≤ 2 ^ 64 := pow_le_pow_right₀ (by decide) hn
  apply BitVec.eq_of_toNat_eq
  have hmod : z % 2 ^ 64 % 2 ^ n = z % 2 ^ n := Int.emod_emod_of_dvd z hdvd
  have hlo := Int.emod_nonneg z hpos.ne'
  have hhi := Int.emod_lt_of_pos z hpos
  have hself : z % 2 ^ n % 2 ^ 64 = z % 2 ^ n := Int.emod_eq_of_lt hlo (by omega)
  have hwide : 2 ^ n ≤ 2 ^ 64 := Nat.pow_le_pow_right (by decide) hn
  apply Int.natCast_inj.1
  simp only [zeroAbove, stored, BitVec.toNat_setWidth, BitVec.toNat_ofInt]
  push_cast
  rw [Int.toNat_of_nonneg (by omega), Int.toNat_of_nonneg (by omega)]
  rw [show (18446744073709551616 : Int) = 2 ^ 64 by norm_num, hmod]

theorem signAbove_stored (hn : 1 ≤ n) (hn64 : n ≤ 64) :
    signAbove n (stored z) = stored (z.bmod (2 ^ n)) := by
  obtain ⟨m, rfl⟩ : ∃ m, n = m + 1 := ⟨n - 1, by omega⟩
  have hpow : 2 ^ (m + 1) = 2 * 2 ^ m := by rw [Nat.pow_succ, Nat.mul_comm]
  have hpos : 0 < 2 ^ (m + 1) := by positivity
  have hle : 2 ^ (m + 1) ≤ 2 ^ 64 := Nat.pow_le_pow_right (by decide) hn64
  have hlo := @Int.le_bmod z (2 ^ (m + 1)) hpos
  have hhi := @Int.bmod_lt z (2 ^ (m + 1)) hpos
  apply BitVec.eq_of_toInt_eq
  have hin : (z.bmod (2 ^ (m + 1))).bmod (2 ^ 64) = z.bmod (2 ^ (m + 1)) := by
    apply Int.bmod_eq_of_le
    · omega
    · omega
  rw [stored, stored, BitVec.toInt_ofInt, hin, signAbove, BitVec.toInt_signExtend_of_le hn64,
    BitVec.toInt_setWidth, BitVec.toNat_ofInt]
  rw [Int.toNat_of_nonneg (Int.emod_nonneg z (by decide))]
  have hdvd : ((2 ^ (m + 1) : Nat) : Int) ∣ ((2 ^ 64 : Nat) : Int) := by
    exact_mod_cast pow_dvd_pow 2 hn64
  rw [← Int.emod_bmod, Int.emod_emod_of_dvd z hdvd, Int.emod_bmod]

end

/-! ## Casts -/

theorem IntTy.bits_pos (t : IntTy) : 1 ≤ t.bits := by
  cases t with
  | bool => decide
  | int size isSigned pos le =>
    simp only [IntTy.bits, IntTy.size]
    omega

theorem IntTy.bits_le (t : IntTy) : t.bits ≤ 64 := by
  cases t with
  | bool => decide
  | int size isSigned pos le =>
    simp only [IntTy.bits, IntTy.size]
    omega

theorem foldCastNum_int (flag implicit : Bool) (src : IntTy) (size : Nat) (isSigned : Bool)
    (pos : 1 ≤ size) (le : size ≤ 8) (num : Numeric) :
    (foldCastNum flag implicit src (.int size isSigned pos le) num).1 =
      { num with val := convertIntegral flag num.val src (.int size isSigned pos le) } := by
  unfold foldCastNum convertIntegralToIntegralWarn
  simp only
  split
  · rfl
  · rfl

/-- To a signed type, and from an unsigned one, the sign of the destination is
extended. -/
theorem convertIntegral_sign (flag : Bool) {v : Integral} {tin tout : IntTy}
    (h : tout.isSigned = true ∨ tin.isSigned = false) :
    convertIntegral flag v tin tout = signAbove tout.bits v := by
  have htrunc := @integralTruncateBits_eq tout.bits v flag tout.bits_pos tout.bits_le
  have hcond : (!tout.isSigned && tin.isSigned) = false := by
    rcases h with h | h <;> simp [h]
  unfold convertIntegral integralTruncate
  rw [show 8 * tout.size = tout.bits from rfl, htrunc]
  simp only [hcond, Bool.false_eq_true, if_false, ite_self]

theorem and_bit_eq_zero {v : Integral} {k : Nat} (h : v.getLsbD k = false) :
    v &&& ((1 : Integral) <<< k) = 0 := by
  have hbit := BitVec.and_twoPow v k
  rw [h] at hbit
  simpa [BitVec.twoPow] using hbit

/-- From a signed type to an unsigned one, where the bit of the sign does not
survive, the word is cut. -/
theorem convertIntegral_zero (flag : Bool) {v : Integral} {tin tout : IntTy}
    (hin : tin.isSigned = true) (hout : tout.isSigned = false)
    (h : tin.bits = tout.bits ∨ (zeroAbove tout.bits v).getLsbD (tin.bits - 1) = false) :
    convertIntegral flag v tin tout = zeroAbove tout.bits v := by
  have htrunc := @integralTruncateBits_eq tout.bits v flag tout.bits_pos tout.bits_le
  have hcond : ¬ (zeroAbove tout.bits v &&& ((1 : Integral) <<< (tin.bits - 1)) ≠ 0 ∧
      tin.bits ≠ tout.bits) := by
    rintro ⟨hbit, hne⟩
    rcases h with h | h
    · exact hne h
    · exact hbit (and_bit_eq_zero h)
  unfold convertIntegral integralTruncate
  rw [show 8 * tout.size = tout.bits from rfl, htrunc]
  simp only [hin, hout, Bool.not_false, Bool.and_self, if_true]
  rw [if_neg hcond]

/-- To an unsigned type of 64 bits, the sign of the source is extended. -/
theorem convertIntegral_word (flag : Bool) {v : Integral} {tin tout : IntTy}
    (hin : tin.isSigned = true) (hout : tout.isSigned = false) (hbits : tout.bits = 64)
    (hv : signAbove tin.bits v = v) : convertIntegral flag v tin tout = v := by
  have htrunc := @integralTruncateBits_eq tout.bits v flag tout.bits_pos tout.bits_le
  have hself : zeroAbove 64 v = v := by simp [zeroAbove]
  unfold convertIntegral integralTruncate
  rw [show 8 * tout.size = tout.bits from rfl, htrunc]
  simp only [hin, hout, hbits, hself, Bool.not_false, Bool.and_self, if_true, le_refl]
  split
  · rename_i hset
    have hbit : v.getLsbD (tin.bits - 1) = true := by
      by_contra hclear
      exact hset.1 (and_bit_eq_zero (Bool.eq_false_of_not_eq_true hclear))
    refine BitVec.eq_of_getLsbD_eq fun i hi => ?_
    have hsign := congrArg (fun w => BitVec.getLsbD w i) hv
    simp only [getLsbD_signAbove tin.bits_pos, hi, decide_true, Bool.true_and] at hsign
    have hsub : i - tin.bits < 64 := by omega
    by_cases hlt : i < tin.bits
    · simp only [BitVec.getLsbD_or, BitVec.getLsbD_shiftLeft, hlt, decide_true, Bool.not_true,
        Bool.and_false, Bool.false_and, Bool.or_false]
    · rw [if_neg hlt, hbit] at hsign
      simp only [BitVec.getLsbD_or, BitVec.getLsbD_shiftLeft, hlt, hi, BitVec.getLsbD_allOnes, hsub,
        decide_true, decide_false, Bool.not_false, Bool.and_self, Bool.or_true]
      exact hsign
  · rfl

/-! ## Values -/

section
variable {n : Nat} {z : Int}

/-- A signed value is stored with its sign above it. -/
theorem signAbove_stored_of_range (hn : 1 ≤ n) (hn64 : n ≤ 64) (hlo : -2 ^ (n - 1) ≤ z)
    (hhi : z < 2 ^ (n - 1)) : signAbove n (stored z) = stored z := by
  obtain ⟨m, rfl⟩ : ∃ m, n = m + 1 := ⟨n - 1, by omega⟩
  rw [Nat.add_sub_cancel] at hlo hhi
  have hpow : ((2 ^ (m + 1) : Nat) : Int) = 2 * 2 ^ m := by
    push_cast
    rw [pow_succ, Int.mul_comm]
  have hself : z.bmod (2 ^ (m + 1)) = z := Int.bmod_eq_of_le (by omega) (by omega)
  rw [signAbove_stored hn hn64, hself]

/-- An unsigned value is stored with its top bit above it when that bit is
clear, or when there is nothing above. -/
theorem signAbove_stored_iff (hn : 1 ≤ n) (hn64 : n ≤ 64) (hlo : 0 ≤ z) (hhi : z < 2 ^ n) :
    signAbove n (stored z) = stored z ↔ (n < 64 → z < 2 ^ (n - 1)) := by
  rcases Nat.lt_or_ge n 64 with hlt | hge
  · obtain ⟨m, rfl⟩ : ∃ m, n = m + 1 := ⟨n - 1, by omega⟩
    rw [Nat.add_sub_cancel]
    have hpow : (2 : Int) ^ (m + 1) = 2 * 2 ^ m := by rw [pow_succ, Int.mul_comm]
    have hword : (2 : Int) ^ (m + 1) < 2 ^ 64 := pow_lt_pow_right₀ (by decide) hlt
    have hcast : ((2 ^ (m + 1) : Nat) : Int) = 2 ^ (m + 1) := by push_cast; rfl
    have hmod : z % ((2 ^ (m + 1) : Nat) : Int) = z := by
      rw [hcast]
      exact Int.emod_eq_of_lt hlo hhi
    constructor
    · intro h _
      by_contra hbig
      have hneg : z.bmod (2 ^ (m + 1)) = z - 2 ^ (m + 1) := by
        rw [Int.bmod_eq_emod, hmod, if_pos (by omega), hcast]
      rw [signAbove_stored hn hn64, hneg] at h
      have hnat := congrArg BitVec.toNat h
      simp only [stored, BitVec.toNat_ofInt] at hnat
      push_cast at hnat
      omega
    · intro h
      have hself : z.bmod (2 ^ (m + 1)) = z := by
        rw [Int.bmod_eq_emod_of_lt, hmod]
        rw [hmod, hcast]
        have := h hlt
        omega
      rw [signAbove_stored hn hn64, hself]
  · have h64 : n = 64 := by omega
    subst h64
    refine iff_of_true ?_ (fun h => absurd h (by decide))
    simp [signAbove]

end

/-- The numbers of any type are below `2 ^ 64` in size. -/
theorem IntTy.Has.abs_lt {t : IntTy} {z : Int} (h : t.Has z) : -2 ^ 63 ≤ z ∧ z < 2 ^ 64 := by
  have hbits := t.bits_le
  have htop : (2 : Int) ^ t.bits ≤ 2 ^ 64 := pow_le_pow_right₀ (by decide) hbits
  have hhalf : (2 : Int) ^ (t.bits - 1) ≤ 2 ^ 63 := pow_le_pow_right₀ (by decide) (by omega)
  cases t with
  | bool =>
    rcases h with rfl | rfl
    · decide
    · decide
  | int size isSigned pos le =>
    cases isSigned with
    | false =>
      obtain ⟨hlo, hhi⟩ := h
      constructor
      · omega
      · omega
    | true =>
      obtain ⟨hlo, hhi⟩ := h
      constructor
      · omega
      · omega

theorem stored_eq_zero_iff {t : IntTy} {z : Int} (h : t.Has z) : stored z = 0 ↔ z = 0 := by
  have hlt := h.abs_lt
  constructor
  · intro hz
    have hnat := congrArg BitVec.toNat hz
    have hzero : (0 : Integral).toNat = 0 := rfl
    rw [hzero, stored, BitVec.toNat_ofInt] at hnat
    push_cast at hnat
    omega
  · rintro rfl
    rfl

/-- The bit of the sign is clear in a number that is not negative. -/
theorem getLsbD_stored_of_lt {k : Nat} {z : Int} (hlo : 0 ≤ z) (hhi : z < 2 ^ k) :
    (stored z).getLsbD k = false := by
  rw [stored, BitVec.getLsbD, BitVec.toNat_ofInt]
  apply Nat.testBit_lt_two_pow
  have hcast : ((2 ^ k : Nat) : Int) = 2 ^ k := by push_cast; rfl
  omega

/-! ## Casting twice -/

section
variable {src : IntTy} {z : Int}

theorem castsLikeC_bool (flag implicit : Bool) (suffix : Suffix) (hz : src.Has z) :
    CastsLikeC flag implicit src .bool suffix z := by
  have hzero := stored_eq_zero_iff hz
  by_cases h : z = 0
  · subst h
    exact ⟨rfl, rfl⟩
  · have hne : (stored z != 0) = true := bne_iff_ne.2 (mt hzero.1 h)
    constructor
    · simp only [foldCastNum, IntTy.convert, hne, h, if_false]
      rfl
    · simp only [foldCastNum, hne]
      rfl

section
variable {size : Nat} {pos : 1 ≤ size} {le : size ≤ 8}

theorem castsLikeC_signed (flag implicit : Bool) (suffix : Suffix) :
    CastsLikeC flag implicit src (.int size true pos le) suffix z := by
  have hword : ∀ t v, convertIntegral flag (stored v) t (.int size true pos le) =
      stored ((IntTy.int size true pos le).convert v) := by
    intro t v
    rw [convertIntegral_sign flag (Or.inl rfl),
      signAbove_stored (IntTy.bits_pos _) (IntTy.bits_le _)]
    rfl
  constructor
  · rw [foldCastNum_int, hword]
  · rw [foldCastNum_int, foldCastNum_int, hword, hword]
    simp only [IntTy.convert, Int.bmod_bmod]

/-- To an unsigned type, the first cast is a conversion where the top bit of the
result is clear or the type has all 64 bits. -/
theorem convertIntegral_unsigned (flag : Bool) (hz : src.Has z)
    (h : TopClear (.int size false pos le) z) :
    convertIntegral flag (stored z) src (.int size false pos le) =
      stored (z % 2 ^ (8 * size)) := by
  have hn : 1 ≤ 8 * size := by omega
  have hn64 : 8 * size ≤ 64 := by omega
  have hlo := Int.emod_nonneg z (show (2 : Int) ^ (8 * size) ≠ 0 by positivity)
  have hhi := Int.emod_lt_of_pos z (show (0 : Int) < 2 ^ (8 * size) by positivity)
  have hclear : signAbove (8 * size) (stored (z % 2 ^ (8 * size))) = stored (z % 2 ^ (8 * size)) :=
    (signAbove_stored_iff hn hn64 hlo hhi).2 fun hlt => h (by omega)
  have hsign : signAbove (8 * size) (stored z) = stored (z % 2 ^ (8 * size)) := by
    rw [← hclear, signAbove_stored hn hn64, signAbove_stored hn hn64]
    have hcast : (2 : Int) ^ (8 * size) = ((2 ^ (8 * size) : Nat) : Int) := by push_cast; rfl
    rw [hcast, Int.emod_bmod]
  cases hs : src.isSigned with
  | false =>
    rw [convertIntegral_sign flag (Or.inr hs)]
    exact hsign
  | true =>
    obtain ⟨ssize, spos, sle, rfl⟩ : ∃ ssize spos sle, src = .int ssize true spos sle := by
      cases src with
      | bool => cases hs
      | int ssize isSigned spos sle =>
        obtain rfl : isSigned = true := hs
        exact ⟨ssize, spos, sle, rfl⟩
    obtain ⟨hzlo, hzhi⟩ := hz
    rcases Nat.lt_or_ge size 8 with hsize | hsize
    · have htop := h hsize
      refine (convertIntegral_zero flag rfl rfl ?_).trans (zeroAbove_stored hn64)
      rcases Nat.lt_trichotomy ssize size with hwiden | heq | hnarrow
      · -- a negative value would have the top bit of the wider type set
        right
        have hle : (2 : Int) ^ (8 * ssize - 1) ≤ 2 ^ (8 * size - 1) :=
          pow_le_pow_right₀ (by decide) (by omega)
        have hdouble : (2 : Int) ^ (8 * size) = 2 * 2 ^ (8 * size - 1) := by
          rw [← pow_succ']
          congr 1
          omega
        have hnn : 0 ≤ z := by
          by_contra hneg
          have hwrap : z % 2 ^ (8 * size) = z + 2 ^ (8 * size) := by
            rw [← Int.add_emod_right]
            exact Int.emod_eq_of_lt (by simp only [IntTy.bits, IntTy.size] at hzlo; omega)
              (by omega)
          simp only [IntTy.bits, IntTy.size] at hzlo htop
          omega
        rw [getLsbD_zeroAbove, getLsbD_stored_of_lt hnn hzhi, Bool.and_false]
      · left
        simp only [IntTy.bits, IntTy.size, heq]
      · right
        rw [getLsbD_zeroAbove]
        have hge : ¬ 8 * ssize - 1 < 8 * size := by omega
        simp only [IntTy.bits, IntTy.size, hge, decide_false, Bool.and_false, Bool.false_and]
    · have h64 : 8 * size = 64 := by omega
      have hself := signAbove_stored_of_range (IntTy.bits_pos _) (IntTy.bits_le _) hzlo hzhi
      refine (@convertIntegral_word flag _ _ (.int size false pos le) rfl rfl h64 hself).trans ?_
      rw [← zeroAbove_stored hn64, h64]
      simp [zeroAbove]

theorem castsLikeC_unsigned_iff (flag implicit : Bool) (suffix : Suffix) (hz : src.Has z) :
    CastsLikeC flag implicit src (.int size false pos le) suffix z ↔
      TopClear (.int size false pos le) z := by
  have hn : 1 ≤ 8 * size := by omega
  have hn64 : 8 * size ≤ 64 := by omega
  have hlo := Int.emod_nonneg z (show (2 : Int) ^ (8 * size) ≠ 0 by positivity)
  have hhi := Int.emod_lt_of_pos z (show (0 : Int) < 2 ^ (8 * size) by positivity)
  have htwice : ∀ v, convertIntegral flag v (.int size false pos le) (.int size false pos le) =
      signAbove (8 * size) v := fun v => convertIntegral_sign flag (Or.inr rfl)
  have hiff := signAbove_stored_iff hn hn64 hlo hhi
  constructor
  · rintro ⟨honce, hagain⟩
    rw [honce, foldCastNum_int, htwice] at hagain
    have hval := congrArg Numeric.val hagain
    intro hsize
    exact hiff.1 hval (by omega)
  · intro h
    have honce := @convertIntegral_unsigned src z size pos le flag hz h
    constructor
    · rw [foldCastNum_int, honce]
      rfl
    · rw [foldCastNum_int, foldCastNum_int, honce, htwice]
      have hclear := hiff.2 fun hlt => h (by omega)
      simp only [hclear]

end

end

/-- A cast of an integer constant is the conversion of C, and once more changes
nothing, but for the unsigned destinations of less than 64 bits, where the top
bit of the result has to be clear. -/
theorem fold_cast_num_converts_iff (castWBuiltinTypes implicit : Bool) (src dst : IntTy)
    (suffix : Suffix) (z : Int) (hz : src.Has z) :
    CastsLikeC castWBuiltinTypes implicit src dst suffix z ↔ TopClear dst z := by
  cases dst with
  | bool => exact iff_of_true (castsLikeC_bool _ _ _ hz) trivial
  | int size isSigned pos le =>
    cases isSigned with
    | true => exact iff_of_true (castsLikeC_signed _ _ _) trivial
    | false => exact castsLikeC_unsigned_iff _ _ _ hz

/-- `unsigned char` -/
def ucharTy : IntTy := .int 1 false (by decide) (by decide)

/-- `unsigned int` -/
def uintTy : IntTy := .int 4 false (by decide) (by decide)

/-- `(unsigned char)356u` is `100`. -/
theorem fold_cast_num_converts_100 :
    uintTy.Has 356 ∧ CastsLikeC true false uintTy ucharTy {} 356 := by
  have hz : uintTy.Has 356 := ⟨by decide, by decide⟩
  refine ⟨hz, (fold_cast_num_converts_iff true false uintTy ucharTy {} 356 hz).2 ?_⟩
  intro _
  decide

/-- `(unsigned char)200u` becomes the word of `-56`. -/
theorem fold_cast_num_200_negative :
    uintTy.Has 200 ∧
      (foldCastNum true false uintTy ucharTy ⟨stored 200, {}⟩).1.val = stored (-56) ∧
      ¬ CastsLikeC true false uintTy ucharTy {} 200 := by
  refine ⟨⟨by decide, by decide⟩, by decide, ?_⟩
  rintro ⟨honce, -⟩
  revert honce
  decide

end Ucc.Cc1
