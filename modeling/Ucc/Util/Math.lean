/-
  Util/Math.lean --- powers of two.

  Source: src/util/math.c, less extractbottombit.

  `unsigned long long` has 64 bits and `unsigned` has 32.  The loops run at most
  once for each bit of a word, which is the fuel they are given.
-/
import Mathlib.Tactic
import Mathlib.Data.Nat.Log

set_option autoImplicit false

namespace Ucc.Util

/-! ## The functions -/

/-- `pow2i` -/
def pow2i : Nat → BitVec 64
  | 0 => 1
  | v + 1 => pow2i v * 2

/-- `ispow2` -/
def ispow2 (v : BitVec 64) : Bool := v ≠ 0 && v &&& (v - 1) = 0

/-- `1ull << i` -/
def bitAt (i : Nat) : BitVec 64 := 1 <<< i

/-- The loop of `last_bit_index`. -/
def lastBitLoop : Nat → BitVec 64 → Nat → BitVec 32 → BitVec 32
  | 0, _, _, last => last
  | n + 1, v, i, last =>
    if v = 0 then last
    else if v &&& bitAt i ≠ 0 then lastBitLoop n (v &&& ~~~bitAt i) (i + 1) i
    else lastBitLoop n v (i + 1) last

/-- `last_bit_index`; `last` starts as -1. -/
def lastBitIndex (v : BitVec 64) : BitVec 32 := lastBitLoop 64 v 0 (-1)

/-- The loop of `log2ll`. -/
def log2Loop : Nat → BitVec 64 → Int → Int
  | 0, _, r => r
  | n + 1, v, r => if v = 0 then r else log2Loop n (v >>> 1) (r + 1)

/-- `log2ll`; `adj` is 0 whatever `v` is. -/
def log2ll (v : BitVec 64) : Int := log2Loop 64 v (-1)

/-- `round2` -/
def round2 (v : BitVec 64) : BitVec 64 :=
  if ispow2 v then v else pow2i (lastBitIndex v + 1).toNat

/-! ## What they compute -/

theorem pow2i_eq (v : Nat) : pow2i v = BitVec.ofNat 64 (2 ^ v) := by
  induction v with
  | zero => rfl
  | succ v ih =>
    rw [pow2i, ih, pow_succ]
    exact (BitVec.ofNat_mul (2 ^ v) 2).symm

theorem ispow2_iff (v : BitVec 64) : ispow2 v = true ↔ v.toNat.isPowerOfTwo := by
  rw [← Nat.ne_zero_and_sub_one_eq_zero_iff_isPowerOfTwo, ispow2, Bool.and_eq_true,
    decide_eq_true_iff, decide_eq_true_iff]
  have hne : v ≠ 0 ↔ v.toNat ≠ 0 := by
    rw [ne_eq, ← BitVec.toNat_inj]
    rfl
  rw [hne]
  refine and_congr_right fun hv => ?_
  have hsub : (v - 1).toNat = v.toNat - 1 := by
    rw [BitVec.toNat_sub_of_le (by rw [BitVec.le_def]; exact Nat.one_le_iff_ne_zero.mpr hv)]
    rfl
  rw [← BitVec.toNat_inj, BitVec.toNat_and, hsub]
  rfl

theorem bitAt_eq (i : Nat) : bitAt i = BitVec.twoPow 64 i := rfl

/-- Whether a bit is set, as the loop of `last_bit_index` asks it. -/
theorem and_bitAt_ne_zero (v : BitVec 64) {i : Nat} (hi : i < 64) :
    v &&& bitAt i ≠ 0 ↔ v.getLsbD i = true := by
  rw [bitAt_eq, BitVec.and_twoPow]
  cases v.getLsbD i with
  | false => simp
  | true =>
    have hne : BitVec.twoPow 64 i ≠ 0 := by
      rw [ne_eq, ← BitVec.toNat_inj, BitVec.toNat_twoPow_of_lt hi]
      exact (Nat.two_pow_pos i).ne'
    simpa using hne

theorem getLsbD_clear (v : BitVec 64) (i j : Nat) :
    (v &&& ~~~bitAt i).getLsbD j = (v.getLsbD j && decide (j ≠ i)) := by
  rw [bitAt_eq, BitVec.getLsbD_and, BitVec.getLsbD_not, BitVec.getLsbD_twoPow]
  cases hj : v.getLsbD j with
  | false => rfl
  | true =>
    have hlt : j < 64 := BitVec.lt_of_getLsbD hj
    simp only [hlt, decide_true, Bool.true_and, ne_eq, decide_not]
    congr 1
    grind

/-- The highest bit is found: those below it are cleared on the way. -/
theorem lastBitLoop_eq {n : Nat} {v : BitVec 64} {i k : Nat} {last : BitVec 32}
    (hn : n + i = 64) (hlow : ∀ j < i, v.getLsbD j = false) (hk : v.getLsbD k = true)
    (habove : ∀ j, k < j → v.getLsbD j = false) :
    lastBitLoop n v i last = BitVec.ofNat 32 k := by
  have hik : i ≤ k := Nat.le_of_not_lt fun h => by rw [hlow k h] at hk; cases hk
  have hk64 : k < 64 := BitVec.lt_of_getLsbD hk
  induction n generalizing v i last with
  | zero => omega
  | succ n ih =>
    have hv : v ≠ 0 := fun h => by rw [h] at hk; simp at hk
    rw [lastBitLoop, if_neg hv]
    cases hbit : v.getLsbD i with
    | false =>
      have hne : ¬ v &&& bitAt i ≠ 0 := by rw [and_bitAt_ne_zero v (by omega), hbit]; simp
      have hlt : i ≠ k := fun h => by rw [h, hk] at hbit; cases hbit
      rw [if_neg hne]
      refine ih (by omega) (fun j hj => ?_) hk habove (by omega)
      rcases Nat.lt_succ_iff_lt_or_eq.mp hj with h | rfl
      · exact hlow j h
      · exact hbit
    | true =>
      rw [if_pos ((and_bitAt_ne_zero v (by omega)).mpr hbit)]
      rcases hik.eq_or_lt with rfl | hlt
      · have hzero : v &&& ~~~bitAt i = 0 := by
          refine BitVec.eq_of_getLsbD_eq fun j _ => ?_
          rw [getLsbD_clear]
          rcases lt_trichotomy j i with h | h | h
          · simp [hlow j h]
          · simp [h]
          · simp [habove j h]
        rw [hzero]
        cases n with
        | zero => rfl
        | succ n => rfl
      · refine ih (by omega) (fun j hj => ?_) ?_ (fun j hj => ?_) hlt
        · rw [getLsbD_clear]
          rcases Nat.lt_succ_iff_lt_or_eq.mp hj with h | rfl
          · simp [hlow j h]
          · simp
        · rw [getLsbD_clear, hk]
          simp [hlt.ne']
        · rw [getLsbD_clear, habove j hj, Bool.false_and]

theorem lastBitIndex_eq {v : BitVec 64} (hv : v ≠ 0) :
    lastBitIndex v = BitVec.ofNat 32 v.toNat.log2 := by
  have hne : v.toNat ≠ 0 := fun h => hv (BitVec.eq_of_toNat_eq h)
  refine lastBitLoop_eq rfl (fun j hj => nomatch hj) ?_ fun j hj => ?_
  · exact Nat.testBit_log2 hne
  · exact Nat.testBit_lt_two_pow ((Nat.log2_lt hne).mp hj)

theorem clog_eq_log2_succ {v : Nat} (hv : v ≠ 0) (h : ¬ v.isPowerOfTwo) :
    Nat.clog 2 v = v.log2 + 1 := by
  have hle : 2 ^ v.log2 ≤ v := Nat.log2_self_le hv
  have hne : 2 ^ v.log2 ≠ v := fun he => h ⟨_, he.symm⟩
  refine le_antisymm (Nat.clog_le_of_le_pow Nat.lt_log2_self.le) ?_
  exact (Nat.lt_clog_iff_pow_lt one_lt_two).mpr (lt_of_le_of_ne hle hne)

/-- `round2` rounds up to a power of two, in 64 bits. -/
theorem round2_eq (v : BitVec 64) : round2 v = BitVec.ofNat 64 (2 ^ Nat.clog 2 v.toNat) := by
  rw [round2]
  split
  · rename_i h
    obtain ⟨k, hk⟩ := (ispow2_iff v).mp h
    rw [hk, Nat.clog_pow 2 k one_lt_two, ← hk, BitVec.ofNat_toNat, BitVec.setWidth_eq]
  · rename_i h
    rw [ispow2_iff] at h
    rw [pow2i_eq]
    rcases eq_or_ne v 0 with rfl | hv
    · rfl
    · have hne : v.toNat ≠ 0 := fun h => hv (BitVec.eq_of_toNat_eq h)
      have hlog : v.toNat.log2 < 64 := (Nat.log2_lt hne).mpr v.isLt
      rw [clog_eq_log2_succ hne h, lastBitIndex_eq hv, BitVec.toNat_add, BitVec.toNat_ofNat,
        Nat.mod_eq_of_lt (a := v.toNat.log2) (by omega)]
      congr 2
      exact Nat.mod_eq_of_lt (by show v.toNat.log2 + 1 < 2 ^ 32; omega)

/-- The loop of `log2ll` counts the bits. -/
theorem log2Loop_eq {n k : Nat} {v : BitVec 64} {r : Int} (hn : k < n) (hk : 2 ^ k ≤ v.toNat)
    (hv : v.toNat < 2 ^ (k + 1)) : log2Loop n v r = r + k + 1 := by
  induction k generalizing n v r with
  | zero =>
    obtain ⟨n, rfl⟩ := Nat.exists_eq_succ_of_ne_zero hn.ne'
    have h1 : v = 1 := BitVec.eq_of_toNat_eq (by show v.toNat = 1; omega)
    subst h1
    have hr : r + 1 = r + (0 : Nat) + 1 := by simp
    cases n with
    | zero => exact hr
    | succ n => exact hr
  | succ k ih =>
    obtain ⟨n, rfl⟩ := Nat.exists_eq_succ_of_ne_zero (Nat.ne_zero_of_lt hn)
    have hne : v ≠ 0 := fun h => by
      rw [h] at hk
      exact absurd hk (Nat.not_le.mpr (Nat.two_pow_pos _))
    have hshift : (v >>> 1).toNat = v.toNat / 2 := by
      rw [BitVec.toNat_ushiftRight, Nat.shiftRight_one]
    rw [log2Loop, if_neg hne, ih (by omega) (by rw [hshift, pow_succ] at *; omega)
      (by rw [hshift]; rw [pow_succ] at hv; omega)]
    push_cast
    ring

theorem log2ll_two_pow {k : Nat} (hk : k < 64) : log2ll (BitVec.ofNat 64 (2 ^ k)) = k := by
  have hpow : (BitVec.ofNat 64 (2 ^ k)).toNat = 2 ^ k :=
    Nat.mod_eq_of_lt (Nat.pow_lt_pow_right one_lt_two hk)
  rw [log2ll, log2Loop_eq hk hpow.ge (hpow.trans_lt (Nat.pow_lt_pow_succ one_lt_two))]
  ring

/-- `log2ll(round2(v))` is the number of bits for the numbers below `v`, up to `2 ^ 63`. -/
theorem log2ll_round2 {v : BitVec 64} (hv : v.toNat ≤ 2 ^ 63) :
    log2ll (round2 v) = Nat.clog 2 v.toNat := by
  rw [round2_eq, log2ll_two_pow (Nat.lt_succ_iff.mpr (Nat.clog_le_of_le_pow hv))]

/-- Above `2 ^ 63` the rounding wraps around. -/
theorem log2ll_round2_of_lt {v : BitVec 64} (hv : 2 ^ 63 < v.toNat) :
    log2ll (round2 v) = -1 := by
  have hclog : Nat.clog 2 v.toNat = 64 := by
    refine le_antisymm (Nat.clog_le_of_le_pow v.isLt.le) ?_
    exact (Nat.lt_clog_iff_pow_lt one_lt_two).mpr hv
  rw [round2_eq, hclog]
  rfl

/-! ## Between 1 and `2 ^ 63` -/

theorem ne_zero_of_ispow2 {v : BitVec 64} (h : ispow2 v = true) : v ≠ 0 := by
  rintro rfl
  cases h

/-- `log2ll` rounds the logarithm down. -/
theorem log2ll_eq_log {v : BitVec 64} (hv : v ≠ 0) : log2ll v = Nat.log 2 v.toNat := by
  have hne : v.toNat ≠ 0 := fun h => hv (BitVec.eq_of_toNat_eq h)
  have hlog : Nat.log 2 v.toNat < 64 := Nat.log_lt_of_lt_pow hne v.isLt
  rw [log2ll, log2Loop_eq hlog (Nat.pow_log_le_self 2 hne) (Nat.lt_pow_succ_log_self one_lt_two _)]
  ring

/-- `round2` gives the least power of two that is not below its argument. -/
theorem isLeast_round2 {v : BitVec 64} (hv : v.toNat ≤ 2 ^ 63) :
    IsLeast {p : Nat | p.isPowerOfTwo ∧ v.toNat ≤ p} (round2 v).toNat := by
  have hclog : Nat.clog 2 v.toNat ≤ 63 := Nat.clog_le_of_le_pow hv
  have hround : (round2 v).toNat = 2 ^ Nat.clog 2 v.toNat := by
    rw [round2_eq, BitVec.toNat_ofNat]
    exact Nat.mod_eq_of_lt (Nat.pow_lt_pow_right one_lt_two (by omega))
  rw [hround]
  refine ⟨⟨⟨_, rfl⟩, Nat.le_pow_clog one_lt_two _⟩, ?_⟩
  rintro p ⟨⟨j, rfl⟩, hle⟩
  exact Nat.pow_le_pow_right two_pos (Nat.clog_le_of_le_pow hle)

/-- A power of two has one bit, at its logarithm. -/
theorem eq_twoPow {v : BitVec 64} (h : ispow2 v = true) :
    (log2ll v).toNat < 64 ∧ v = BitVec.twoPow 64 (log2ll v).toNat := by
  obtain ⟨j, hj⟩ := (ispow2_iff v).mp h
  have hlt : j < 64 := (Nat.pow_lt_pow_iff_right one_lt_two).mp (hj ▸ v.isLt)
  have hlog : (log2ll v).toNat = j := by
    rw [log2ll_eq_log (ne_zero_of_ispow2 h), hj, Nat.log_pow one_lt_two]
    exact Int.toNat_natCast j
  rw [hlog]
  refine ⟨hlt, BitVec.eq_of_toNat_eq ?_⟩
  rw [hj, BitVec.toNat_twoPow_of_lt hlt]

theorem mul_eq_shiftLeft {v : BitVec 64} (h : ispow2 v = true) (x : BitVec 64) :
    x * v = x <<< (log2ll v).toNat := by
  rw [(eq_twoPow h).2, BitVec.mul_twoPow_eq_shiftLeft, ← (eq_twoPow h).2]

theorem div_eq_ushiftRight {v : BitVec 64} (h : ispow2 v = true) (x : BitVec 64) :
    x / v = x >>> (log2ll v).toNat := by
  obtain ⟨hlt, hv⟩ := eq_twoPow h
  calc x / v = x / BitVec.twoPow 64 (log2ll v).toNat := congrArg (x / ·) hv
    _ = x >>> (log2ll v).toNat := BitVec.udiv_twoPow_eq_of_lt hlt

end Ucc.Util
