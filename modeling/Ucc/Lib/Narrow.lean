/-
  Lib/Narrow.lean --- narrow words that are kept in wide ones.

  `extend` puts a word of `w` bits into one of `n` bits, with its sign or with
  zeros above it, and `BitVec.setWidth` takes it out again.  Addition,
  multiplication and the bitwise operations can be made on any wide word whose
  low bits are the narrow one.  The quotients, the right shifts and the
  comparisons need the word to be extended.
-/
import Mathlib.Data.BitVec
import Mathlib.Tactic
import Ucc.Lib.Wrap

set_option autoImplicit false

namespace Ucc.Lib

variable {w n : Nat}

/-- A word as a number, with or without its sign. -/
def readAs (s : Bool) (x : BitVec w) : Int := if s then x.toInt else x.toNat

/-- A word in `n` bits, as the same number. -/
def extend (s : Bool) (n : Nat) (x : BitVec w) : BitVec n :=
  if s then x.signExtend n else x.setWidth n

/-- The quotient, cut towards 0. -/
def divWords (s : Bool) (a b : BitVec w) : BitVec w := if s then a.sdiv b else a.udiv b

/-- The remainder of that quotient. -/
def remWords (s : Bool) (a b : BitVec w) : BitVec w := if s then a.srem b else a.umod b

/-- The right shift, with the sign or with zeros coming in. -/
def shrWords (s : Bool) (a : BitVec w) (k : Nat) : BitVec w :=
  if s then a.sshiftRight k else a >>> k

theorem readAs_eq_zero_iff (s : Bool) (x : BitVec w) : readAs s x = 0 ↔ x = 0 := by
  cases s with
  | true =>
    change x.toInt = 0 ↔ _
    rw [← BitVec.toInt_inj]
    simp
  | false =>
    change (x.toNat : Int) = 0 ↔ _
    rw [← BitVec.toNat_inj]
    simp

/-! ## Truncation -/

theorem toInt_setWidth_of_le (h : w ≤ n) (x : BitVec n) :
    (x.setWidth w).toInt = x.toInt.bmod (2 ^ w) := by
  have hdvd : (2 ^ w : Nat) ∣ 2 ^ n := Nat.pow_dvd_pow 2 h
  rw [BitVec.toInt_setWidth, BitVec.toInt_eq_toNat_bmod, Int.bmod_bmod_of_dvd hdvd]

theorem ofInt_readAs (h : w ≤ n) (s : Bool) (x : BitVec n) :
    BitVec.ofInt w (readAs s x) = x.setWidth w := by
  cases s with
  | true =>
    apply BitVec.eq_of_toInt_eq
    change (BitVec.ofInt w x.toInt).toInt = _
    rw [BitVec.toInt_ofInt, toInt_setWidth_of_le h]
  | false =>
    apply BitVec.eq_of_toNat_eq
    change (BitVec.ofInt w (x.toNat : Int)).toNat = _
    rw [BitVec.ofInt_natCast, BitVec.toNat_ofNat, BitVec.toNat_setWidth]

theorem setWidth_sub_of_le (h : w ≤ n) (x y : BitVec n) :
    (x - y).setWidth w = x.setWidth w - y.setWidth w := by
  apply BitVec.eq_of_toInt_eq
  rw [toInt_setWidth_of_le h, BitVec.toInt_sub, BitVec.toInt_sub, toInt_setWidth_of_le h,
    toInt_setWidth_of_le h, Int.bmod_bmod_of_dvd (Nat.pow_dvd_pow 2 h)]
  simp only [Int.bmod_sub_bmod, Int.sub_bmod_bmod]

theorem setWidth_shiftLeft_of_le (h : w ≤ n) (x : BitVec n) (k : Nat) :
    (x <<< k).setWidth w = x.setWidth w <<< k := by
  apply BitVec.eq_of_getLsbD_eq
  intro i hi
  have hin : i < n := by omega
  simp only [BitVec.getLsbD_setWidth, BitVec.getLsbD_shiftLeft, hi, hin, decide_true, Bool.true_and]
  by_cases hk : i < k
  · simp [hk]
  · have hik : i - k < w := by omega
    simp [hk, hik]

/-! ## Extension -/

theorem setWidth_extend (h : w ≤ n) (s : Bool) (x : BitVec w) : (extend s n x).setWidth w = x := by
  unfold extend
  split
  · apply BitVec.eq_of_toInt_eq
    rw [toInt_setWidth_of_le h, BitVec.toInt_signExtend_of_le h, BitVec.toInt_bmod_cancel]
  · rw [BitVec.setWidth_setWidth_of_le x h, BitVec.setWidth_eq]

theorem readAs_ofInt (s : Bool) (z : Int) : readAs s (BitVec.ofInt n z) = wrap s n z := by
  cases s with
  | true => exact BitVec.toInt_ofInt z
  | false =>
    change ((BitVec.ofInt n z).toNat : Int) = z % 2 ^ n
    rw [BitVec.toNat_ofInt, Int.toNat_of_nonneg (Int.emod_nonneg _ (by positivity))]
    push_cast
    rfl

theorem inRange_readAs (hn : 0 < n) (s : Bool) (x : BitVec n) : InRange s n (readAs s x) := by
  have hself : BitVec.ofInt n (readAs s x) = x := by
    rw [ofInt_readAs le_rfl, BitVec.setWidth_eq]
  rw [← hself, readAs_ofInt]
  exact inRange_wrap hn s _

theorem readAs_extend (h : w ≤ n) (s : Bool) (x : BitVec w) :
    readAs s (extend s n x) = readAs s x := by
  unfold readAs extend
  split
  · exact BitVec.toInt_signExtend_of_le h
  · rw [BitVec.toNat_setWidth_of_le h]

/-- The number of a word that is extended is the number of the narrow one. -/
theorem toInt_extend (h : w ≤ n) (x : BitVec w) : (extend true n x).toInt = x.toInt :=
  readAs_extend h true x

theorem toNat_extend (h : w ≤ n) (x : BitVec w) : (extend false n x).toNat = x.toNat :=
  Int.ofNat.inj (readAs_extend h false x)

theorem extend_inj (h : w ≤ n) {s : Bool} {x y : BitVec w} :
    extend s n x = extend s n y ↔ x = y := by
  constructor
  · intro hxy
    rw [← setWidth_extend h s x, hxy, setWidth_extend h]
  · rintro rfl
    rfl

/-! ## Operations on extended words -/

theorem setWidth_divWords (h : w ≤ n) (s : Bool) (a b : BitVec w) :
    (divWords s (extend s n a) (extend s n b)).setWidth w = divWords s a b := by
  cases s with
  | true =>
    apply BitVec.eq_of_toInt_eq
    simp only [divWords, if_true]
    rw [toInt_setWidth_of_le h, BitVec.toInt_sdiv, BitVec.toInt_sdiv, toInt_extend h,
      toInt_extend h, Int.bmod_bmod_of_dvd (Nat.pow_dvd_pow 2 h)]
  | false =>
    apply BitVec.eq_of_toNat_eq
    simp only [divWords, Bool.false_eq_true, if_false, BitVec.udiv_eq]
    rw [BitVec.toNat_setWidth, BitVec.toNat_udiv, BitVec.toNat_udiv, toNat_extend h, toNat_extend h,
      Nat.mod_eq_of_lt ((Nat.div_le_self _ _).trans_lt a.isLt)]

theorem setWidth_remWords (h : w ≤ n) (s : Bool) (a b : BitVec w) :
    (remWords s (extend s n a) (extend s n b)).setWidth w = remWords s a b := by
  cases s with
  | true =>
    apply BitVec.eq_of_toInt_eq
    simp only [remWords, if_true]
    rw [toInt_setWidth_of_le h, BitVec.toInt_srem, BitVec.toInt_srem, toInt_extend h,
      toInt_extend h, ← BitVec.toInt_srem, BitVec.toInt_bmod_cancel]
  | false =>
    apply BitVec.eq_of_toNat_eq
    simp only [remWords, Bool.false_eq_true, if_false, BitVec.umod_eq]
    rw [BitVec.toNat_setWidth, BitVec.toNat_umod, BitVec.toNat_umod, toNat_extend h, toNat_extend h,
      Nat.mod_eq_of_lt ((Nat.mod_le _ _).trans_lt a.isLt)]

theorem setWidth_shrWords (h : w ≤ n) (s : Bool) (a : BitVec w) (k : Nat) :
    (shrWords s (extend s n a) k).setWidth w = shrWords s a k := by
  cases s with
  | true =>
    apply BitVec.eq_of_toInt_eq
    simp only [shrWords, if_true]
    rw [toInt_setWidth_of_le h, BitVec.toInt_sshiftRight, BitVec.toInt_sshiftRight, toInt_extend h,
      ← BitVec.toInt_sshiftRight, BitVec.toInt_bmod_cancel]
  | false =>
    apply BitVec.eq_of_toNat_eq
    simp only [shrWords, Bool.false_eq_true, if_false]
    rw [BitVec.toNat_setWidth, BitVec.toNat_ushiftRight, BitVec.toNat_ushiftRight, toNat_extend h,
      Nat.mod_eq_of_lt ((Nat.shiftRight_le _ _).trans_lt a.isLt)]

end Ucc.Lib
