/-
  Lib/BitRange.lean --- a range of bits inside a word.

  `writeBits` puts the low `n` bits of a word at `off` in another, and
  `readBits` takes them out again with shifts, with or without their sign.
-/
import Ucc.Lib.Narrow

set_option autoImplicit false

namespace Ucc.Lib

variable {w : Nat}

/-- The word whose low `n` bits are set. -/
def lowBits (w n : Nat) : BitVec w := ~~~(BitVec.allOnes w <<< n)

/-- The bits from `off` on are shifted down and masked, and shifted up and down once
more for the sign. -/
def readBits (s : Bool) (off n : Nat) (x : BitVec w) : BitVec w :=
  let y := shrWords s x off &&& lowBits w n
  if s then (y <<< (w - n)).sshiftRight (w - n) else y

/-- The low `n` bits of `x` replace the bits of `old` from `off` on. -/
def writeBits (off n : Nat) (old x : BitVec w) : BitVec w :=
  ((x &&& lowBits w n) <<< off) ||| (old &&& (BitVec.allOnes w <<< (off + n) ||| lowBits w off))

theorem getLsbD_lowBits (w n i : Nat) : (lowBits w n).getLsbD i = decide (i < w ∧ i < n) := by
  unfold lowBits
  rw [BitVec.getLsbD_not, BitVec.getLsbD_shiftLeft, BitVec.getLsbD_allOnes, Bool.eq_iff_iff]
  simp only [Bool.and_eq_true, Bool.not_eq_true', decide_eq_true_eq]
  simp
  omega

/-- The low bits of a truncated word. -/
theorem setWidth_lowBits {n : Nat} (h : w ≤ n) (k : Nat) :
    (lowBits n k).setWidth w = lowBits w k := by
  apply BitVec.eq_of_getLsbD_eq
  intro i hi
  have hin : i < n := by omega
  rw [BitVec.getLsbD_setWidth, getLsbD_lowBits, getLsbD_lowBits]
  simp only [hi, hin, decide_true, Bool.true_and]

/-- The other bits of a truncated word. -/
theorem setWidth_allOnes_shiftLeft {n : Nat} (h : w ≤ n) (k : Nat) :
    (BitVec.allOnes n <<< k).setWidth w = BitVec.allOnes w <<< k := by
  have hones : (BitVec.allOnes n).setWidth w = BitVec.allOnes w := by
    apply BitVec.eq_of_getLsbD_eq
    intro i hi
    have hin : i < n := by omega
    rw [BitVec.getLsbD_setWidth, BitVec.getLsbD_allOnes, BitVec.getLsbD_allOnes]
    simp only [hi, hin, decide_true, Bool.and_self]
  rw [setWidth_shiftLeft_of_le h, hones]

variable {off n : Nat}

theorem getLsbD_writeBits (old x : BitVec w) {i : Nat} (hi : i < w) :
    (writeBits off n old x).getLsbD i =
      if off ≤ i ∧ i < off + n then x.getLsbD (i - off) else old.getLsbD i := by
  unfold writeBits
  simp only [BitVec.getLsbD_or, BitVec.getLsbD_and, BitVec.getLsbD_shiftLeft, getLsbD_lowBits,
    BitVec.getLsbD_allOnes, hi, decide_true, Bool.true_and, true_and]
  rcases Nat.lt_or_ge i off with hlow | hlow
  · have hnot : ¬(off ≤ i ∧ i < off + n) := by omega
    simp [hlow, hnot]
  · have hoff : ¬ i < off := by omega
    have hsub : i - off < w := by omega
    rcases Nat.lt_or_ge i (off + n) with hin | hin
    · have hn : i - off < n := by omega
      simp [hlow, hin, hoff, hn, hsub]
    · have hn : ¬ i - off < n := by omega
      have hnot : ¬ i < off + n := by omega
      have hlast : i - (off + n) < w := by omega
      simp [hoff, hnot, hn, hlast]

/-- The other bits stay. -/
theorem getLsbD_writeBits_outside (old x : BitVec w) {i : Nat} (hi : i < w)
    (hout : i < off ∨ off + n ≤ i) : (writeBits off n old x).getLsbD i = old.getLsbD i := by
  rw [getLsbD_writeBits old x hi, if_neg (by omega)]

/-- The bits that are read, before the sign. -/
theorem shrWords_writeBits (s : Bool) (h : off + n ≤ w) (old x : BitVec w) :
    shrWords s (writeBits off n old x) off &&& lowBits w n = (x.setWidth n).setWidth w := by
  apply BitVec.eq_of_getLsbD_eq
  intro i hi
  rw [BitVec.getLsbD_and, getLsbD_lowBits, BitVec.getLsbD_setWidth, BitVec.getLsbD_setWidth]
  rcases Nat.lt_or_ge i n with hin | hin
  · have hbit : (shrWords s (writeBits off n old x) off).getLsbD i = x.getLsbD i := by
      have hwrite : (writeBits off n old x).getLsbD (off + i) = _ :=
        getLsbD_writeBits old x (by omega)
      rw [if_pos (by omega), Nat.add_sub_cancel_left] at hwrite
      unfold shrWords
      split
      · rw [BitVec.getLsbD_sshiftRight, if_pos (by omega), hwrite]
        simp [Nat.not_le.2 hi]
      · rw [BitVec.getLsbD_ushiftRight, hwrite]
    rw [hbit]
    simp only [hi, hin, and_self, decide_true, Bool.and_true, Bool.true_and]
  · simp [Nat.not_lt.2 hin]

/-- The shifts up and down copy the sign. -/
theorem sshiftRight_shiftLeft (h : n ≤ w) (x : BitVec n) :
    ((x.setWidth w) <<< (w - n)).sshiftRight (w - n) = x.signExtend w := by
  apply BitVec.eq_of_getLsbD_eq
  intro i hi
  rw [BitVec.getLsbD_sshiftRight, BitVec.getLsbD_signExtend]
  have hmsb : (x.setWidth w <<< (w - n)).msb = x.msb := by
    rw [BitVec.msb_eq_getLsbD_last, BitVec.msb_eq_getLsbD_last, BitVec.getLsbD_shiftLeft,
      BitVec.getLsbD_setWidth]
    rcases Nat.eq_zero_or_pos n with rfl | hn
    · simp
    · have h1 : w - 1 < w := by omega
      have h2 : ¬ w - 1 < w - n := by omega
      have h3 : w - 1 - (w - n) = n - 1 := by omega
      have h4 : n - 1 < w := by omega
      simp [h1, h2, h3, h4]
  rw [hmsb, BitVec.getLsbD_shiftLeft, BitVec.getLsbD_setWidth]
  rcases Nat.lt_or_ge i n with hin | hin
  · have h1 : w - n + i < w := by omega
    have h2 : ¬ w - n + i < w - n := by omega
    have h3 : w - n + i - (w - n) = i := by omega
    simp [hi, hin, h1, h3, Nat.not_le.2 hi]
  · have h1 : ¬ w - n + i < w := by omega
    simp [hi, h1, Nat.not_lt.2 hin, Nat.not_le.2 hi]

/-- What was written is read. -/
theorem readBits_writeBits (s : Bool) (h : off + n ≤ w) (old x : BitVec w) :
    readBits s off n (writeBits off n old x) = extend s w (x.setWidth n) := by
  unfold readBits extend
  simp only [shrWords_writeBits s h old x]
  split
  · exact sshiftRight_shiftLeft (by omega) _
  · rfl

end Ucc.Lib
