/-
  Lib/Round.lean --- rounding up to a multiple.

  `roundUp n a` is the least multiple of `a` that is not below `n`.  The last
  part is about the usual bit trick for a power of two in a fixed number of
  bits.
-/
import Mathlib.Tactic

set_option autoImplicit false

namespace Ucc.Lib

/-- The least multiple of `a` that is at least `n`. -/
def roundUp (n a : Nat) : Nat := (n + a - 1) / a * a

theorem dvd_roundUp (n a : Nat) : a ∣ roundUp n a := Dvd.intro_left _ rfl

theorem le_roundUp {a : Nat} (ha : 0 < a) (n : Nat) : n ≤ roundUp n a := by
  have hdiv := Nat.div_add_mod (n + a - 1) a
  have hmod := Nat.mod_lt (n + a - 1) ha
  rw [Nat.mul_comm] at hdiv
  unfold roundUp
  omega

theorem roundUp_lt {a : Nat} (ha : 0 < a) (n : Nat) : roundUp n a < n + a := by
  have hle : roundUp n a ≤ n + a - 1 := Nat.div_mul_le_self _ _
  omega

theorem roundUp_le {n a q : Nat} (ha : 0 < a) (hn : n ≤ q) (hq : a ∣ q) : roundUp n a ≤ q := by
  obtain ⟨k, rfl⟩ := hq
  have hdvd := dvd_roundUp n a
  obtain ⟨j, hj⟩ := hdvd
  have hlt := roundUp_lt ha n
  rw [hj] at hlt ⊢
  have hjk : a * j < a * (k + 1) := by
    rw [Nat.mul_add, Nat.mul_one]
    omega
  exact Nat.mul_le_mul_left a (Nat.lt_succ_iff.mp (Nat.lt_of_mul_lt_mul_left hjk))

theorem roundUp_eq {n a q : Nat} (ha : 0 < a) (hn : n ≤ q) (hq : a ∣ q) (hlt : q < n + a) :
    roundUp n a = q := by
  refine le_antisymm (roundUp_le ha hn hq) ?_
  -- two multiples of `a` that are less than `a` apart
  obtain ⟨j, hj⟩ := dvd_roundUp n a
  obtain ⟨k, rfl⟩ := hq
  have hge := le_roundUp ha n
  rw [hj] at hge ⊢
  have hkj : a * k < a * (j + 1) := by
    rw [Nat.mul_add, Nat.mul_one]
    omega
  exact Nat.mul_le_mul_left a (Nat.lt_succ_iff.mp (Nat.lt_of_mul_lt_mul_left hkj))

theorem roundUp_eq_self {n a : Nat} (ha : 0 < a) (h : a ∣ n) : roundUp n a = n :=
  le_antisymm (roundUp_le ha le_rfl h) (le_roundUp ha n)

theorem roundUp_mono {n m a : Nat} (ha : 0 < a) (h : n ≤ m) : roundUp n a ≤ roundUp m a :=
  roundUp_le ha (h.trans (le_roundUp ha m)) (dvd_roundUp m a)

theorem isLeast_roundUp {a : Nat} (ha : 0 < a) (n : Nat) :
    IsLeast {q | a ∣ q ∧ n ≤ q} (roundUp n a) :=
  ⟨⟨dvd_roundUp n a, le_roundUp ha n⟩, fun _ hq => roundUp_le ha hq.2 hq.1⟩

/-- Rounding to a multiple of `a` does not notice that `a` was rounded to before. -/
theorem roundUp_roundUp {n a b : Nat} (ha : 0 < a) (hb : 0 < b) (hab : a ∣ b) :
    roundUp (roundUp n a) b = roundUp n b := by
  refine le_antisymm (roundUp_le hb ?_ (dvd_roundUp n b)) (roundUp_mono hb (le_roundUp ha n))
  exact roundUp_le ha (le_roundUp hb n) (hab.trans (dvd_roundUp n b))

/-- Clearing the low bits of a `w`-bit number. -/
theorem and_mask {w k : Nat} (hk : k ≤ w) (x : Nat) :
    x &&& (2 ^ w - 2 ^ k) = x % 2 ^ w / 2 ^ k * 2 ^ k := by
  have hmask : 2 ^ w - 2 ^ k = (2 ^ (w - k) - 1) <<< k := by
    rw [Nat.shiftLeft_eq, Nat.sub_mul, Nat.one_mul, ← Nat.pow_add, Nat.sub_add_cancel hk]
  refine Nat.eq_of_testBit_eq fun i => ?_
  rw [hmask, Nat.testBit_and, Nat.testBit_shiftLeft, Nat.testBit_two_pow_sub_one,
    ← Nat.shiftLeft_eq, Nat.testBit_shiftLeft, Nat.testBit_div_two_pow, Nat.testBit_mod_two_pow]
  by_cases hi : k ≤ i
  · have hsub : i - k + k = i := Nat.sub_add_cancel hi
    by_cases hw : i < w
    · have hlt : i - k < w - k := by omega
      simp [hi, hw, hlt, hsub]
    · have hge : ¬ i - k < w - k := by omega
      simp [hi, hw, hge]
  · simp [hi]

/-- The bit trick for rounding up to a power of two, in `w` bits. -/
theorem mask_eq_roundUp {w k : Nat} (hk : k ≤ w) (n : Nat) :
    (n + 2 ^ k - 1) &&& (2 ^ w - 2 ^ k) = roundUp n (2 ^ k) % 2 ^ w := by
  have hpow : 2 ^ w = 2 ^ k * 2 ^ (w - k) := by
    rw [← Nat.pow_add, Nat.add_sub_cancel' hk]
  rw [and_mask hk, roundUp, hpow, Nat.mod_mul_right_div_self, Nat.mul_comm (2 ^ k) (2 ^ (w - k)),
    Nat.mul_mod_mul_right]

end Ucc.Lib
