/-
  Lib/Wrap.lean --- numbers of a fixed width.

  `wrap s w z` is the number of `w` bits, signed or unsigned, that is congruent to
  `z` modulo `2 ^ w`.  Wrapping only depends on the residue, and wrapping at a
  smaller width forgets a wrapping before it.
-/
import Mathlib.Tactic
import Mathlib.Data.Int.ModEq

set_option autoImplicit false

namespace Ucc.Lib

/-- The numbers of `w` bits. -/
def InRange (s : Bool) (w : Nat) (z : Int) : Prop :=
  if s then -2 ^ (w - 1) ≤ z ∧ z < 2 ^ (w - 1) else 0 ≤ z ∧ z < 2 ^ w

instance (s : Bool) (w : Nat) (z : Int) : Decidable (InRange s w z) :=
  inferInstanceAs (Decidable (if s then -2 ^ (w - 1) ≤ z ∧ z < 2 ^ (w - 1) else 0 ≤ z ∧ z < 2 ^ w))

/-- The number of `w` bits that is congruent to `z`. -/
def wrap (s : Bool) (w : Nat) (z : Int) : Int := if s then z.bmod (2 ^ w) else z % 2 ^ w

theorem wrap_modEq (s : Bool) (w : Nat) (z : Int) : wrap s w z ≡ z [ZMOD 2 ^ w] := by
  cases s with
  | true =>
    have h : z.bmod (2 ^ w) % ((2 ^ w : Nat) : Int) = z % ((2 ^ w : Nat) : Int) := Int.bmod_emod
    push_cast at h
    exact h
  | false => exact Int.mod_modEq z _

theorem wrap_congr {s : Bool} {w : Nat} {x y : Int} (h : x ≡ y [ZMOD 2 ^ w]) :
    wrap s w x = wrap s w y := by
  cases s with
  | true =>
    have hx := Int.emod_bmod x (2 ^ w)
    have hy := Int.emod_bmod y (2 ^ w)
    push_cast at hx hy
    show x.bmod (2 ^ w) = y.bmod (2 ^ w)
    rw [← hx, ← hy, h]
  | false => exact h

/-- Wrapping at a smaller width forgets a wrapping before it. -/
theorem wrap_wrap {s t : Bool} {v w : Nat} (h : v ≤ w) (z : Int) :
    wrap s v (wrap t w z) = wrap s v z :=
  wrap_congr ((wrap_modEq t w z).of_dvd (pow_dvd_pow 2 h))

theorem wrap_of_inRange {s : Bool} {w : Nat} (hw : 0 < w) {z : Int} (h : InRange s w z) :
    wrap s w z = z := by
  cases s with
  | true =>
    obtain ⟨hlo, hhi⟩ : -2 ^ (w - 1) ≤ z ∧ z < 2 ^ (w - 1) := h
    have hpow : (2 : Int) ^ w = 2 * 2 ^ (w - 1) := by
      rw [← pow_succ', Nat.sub_add_cancel hw]
    refine Int.bmod_eq_of_le_mul_two ?_ ?_
    · push_cast
      omega
    · push_cast
      omega
  | false => exact Int.emod_eq_of_lt h.1 h.2

theorem inRange_wrap {w : Nat} (hw : 0 < w) (s : Bool) (z : Int) : InRange s w (wrap s w z) := by
  cases s with
  | true =>
    have hpow : (2 : Nat) ^ w = 2 * 2 ^ (w - 1) := by
      rw [← pow_succ', Nat.sub_add_cancel hw]
    have hpos : 0 < 2 ^ w := Nat.two_pow_pos w
    have hlo : -(((2 ^ w : Nat) : Int) / 2) ≤ z.bmod (2 ^ w) := Int.le_bmod hpos
    have hhi : z.bmod (2 ^ w) < (((2 ^ w : Nat) : Int) + 1) / 2 := Int.bmod_lt hpos
    rw [hpow] at hlo hhi
    show -2 ^ (w - 1) ≤ z.bmod (2 ^ w) ∧ z.bmod (2 ^ w) < 2 ^ (w - 1)
    rw [hpow]
    push_cast at hlo hhi
    constructor
    · omega
    · omega
  | false =>
    have hpos : (0 : Int) < 2 ^ w := by positivity
    exact ⟨Int.emod_nonneg z hpos.ne', Int.emod_lt_of_pos z hpos⟩

/-- There is one number of `w` bits in each residue class. -/
theorem eq_wrap_iff {w : Nat} (hw : 0 < w) (s : Bool) {x z : Int} :
    InRange s w z ∧ z ≡ x [ZMOD 2 ^ w] ↔ z = wrap s w x := by
  constructor
  · rintro ⟨hrange, hcongr⟩
    rw [← wrap_of_inRange hw hrange, wrap_congr hcongr]
  · rintro rfl
    exact ⟨inRange_wrap hw s x, wrap_modEq s w x⟩

/-- A wider signed type has the numbers of both types of a width. -/
theorem InRange.widen {s : Bool} {v w : Nat} {z : Int} (h : InRange s v z) (hvw : v < w) :
    InRange true w z := by
  have hle : (2 : Int) ^ v ≤ 2 ^ (w - 1) := pow_le_pow_right₀ (by decide) (by omega)
  cases s with
  | true =>
    obtain ⟨hlo, hhi⟩ : -2 ^ (v - 1) ≤ z ∧ z < 2 ^ (v - 1) := h
    have hle' : (2 : Int) ^ (v - 1) ≤ 2 ^ (w - 1) := pow_le_pow_right₀ (by decide) (by omega)
    exact ⟨by omega, by omega⟩
  | false =>
    obtain ⟨hlo, hhi⟩ : 0 ≤ z ∧ z < 2 ^ v := h
    have hpos : (0 : Int) < 2 ^ (w - 1) := by positivity
    exact ⟨by omega, by omega⟩

/-- A wider type of the same signedness has the numbers. -/
theorem InRange.mono {s : Bool} {v w : Nat} {z : Int} (h : InRange s v z) (hvw : v ≤ w) :
    InRange s w z := by
  cases s with
  | true =>
    obtain ⟨hlo, hhi⟩ : -2 ^ (v - 1) ≤ z ∧ z < 2 ^ (v - 1) := h
    have hle : (2 : Int) ^ (v - 1) ≤ 2 ^ (w - 1) := pow_le_pow_right₀ (by decide) (by omega)
    exact ⟨by omega, by omega⟩
  | false =>
    obtain ⟨hlo, hhi⟩ : 0 ≤ z ∧ z < 2 ^ v := h
    have hle : (2 : Int) ^ v ≤ 2 ^ w := pow_le_pow_right₀ (by decide) hvw
    exact ⟨hlo, hhi.trans_le hle⟩

/-- A quotient by a positive number is no larger than the number that is divided. -/
theorem inRange_ediv {s : Bool} {w : Nat} {x y : Int} (h : InRange s w x) (hy : 0 < y) :
    InRange s w (x / y) := by
  have hup : 0 ≤ x → x / y ≤ x := fun hx => Int.ediv_le_self y hx
  have hnonneg : 0 ≤ x → 0 ≤ x / y := fun hx => Int.ediv_nonneg hx hy.le
  have hdown : x < 0 → x ≤ x / y ∧ x / y < 0 := fun hx => by
    refine ⟨?_, Int.ediv_neg_of_neg_of_pos hx hy⟩
    rw [Int.le_ediv_iff_mul_le hy]
    nlinarith
  cases s with
  | true =>
    obtain ⟨hlo, hhi⟩ : -2 ^ (w - 1) ≤ x ∧ x < 2 ^ (w - 1) := h
    exact ⟨by omega, by omega⟩
  | false =>
    obtain ⟨hlo, hhi⟩ : 0 ≤ x ∧ x < 2 ^ w := h
    exact ⟨hnonneg hlo, (hup hlo).trans_lt hhi⟩

/-- A remainder is no larger than the number that is divided. -/
theorem inRange_tmod {s : Bool} {w : Nat} {x : Int} (h : InRange s w x) (y : Int) :
    InRange s w (x.tmod y) := by
  have habs : (x.tmod y).natAbs ≤ x.natAbs := by
    rw [Int.natAbs_tmod]
    exact Nat.mod_le _ _
  have hpow : (0 : Int) < 2 ^ (w - 1) := by positivity
  rcases le_total 0 x with hx | hx
  · have hnonneg := Int.tmod_nonneg y hx
    cases s with
    | true =>
      obtain ⟨hlo, hhi⟩ : -2 ^ (w - 1) ≤ x ∧ x < 2 ^ (w - 1) := h
      exact ⟨by omega, by omega⟩
    | false => exact ⟨hnonneg, lt_of_le_of_lt (by omega) h.2⟩
  · have hnonpos := Int.tmod_nonneg y (Int.neg_nonneg.mpr hx)
    rw [Int.neg_tmod] at hnonpos
    cases s with
    | true =>
      obtain ⟨hlo, hhi⟩ : -2 ^ (w - 1) ≤ x ∧ x < 2 ^ (w - 1) := h
      exact ⟨by omega, by omega⟩
    | false =>
      obtain rfl : x = 0 := le_antisymm hx h.1
      rw [Int.zero_tmod]
      exact h

/-! ## Bitwise operations -/

/-- A bitwise operation on the two's complement of numbers, in `n` bits. -/
def bitwise (n : Nat) (f : BitVec n → BitVec n → BitVec n) (a b : Int) : Int :=
  (f (BitVec.ofInt n a) (BitVec.ofInt n b)).toInt

theorem setWidth_ofInt {w n : Nat} (h : w ≤ n) (a : Int) :
    (BitVec.ofInt n a).setWidth w = BitVec.ofInt w a := by
  refine BitVec.eq_of_toInt_eq ?_
  rw [BitVec.toInt_setWidth, BitVec.toNat_ofInt, BitVec.toInt_ofInt]
  rw [Int.toNat_of_nonneg (Int.emod_nonneg _ (by positivity)), ← Int.emod_bmod,
    Int.emod_emod_of_dvd, Int.emod_bmod]
  exact_mod_cast pow_dvd_pow 2 h

theorem toInt_modEq_setWidth {w n : Nat} (h : w ≤ n) (x : BitVec n) :
    x.toInt ≡ (x.setWidth w).toNat [ZMOD 2 ^ w] := by
  have hx : x.toInt ≡ x.toNat [ZMOD 2 ^ w] := by
    have hdvd : (2 : Int) ^ w ∣ ((2 ^ n : Nat) : Int) := by
      push_cast
      exact pow_dvd_pow 2 h
    rw [BitVec.toInt_eq_toNat_bmod]
    exact Int.ModEq.of_dvd hdvd Int.bmod_emod
  refine hx.trans ?_
  rw [BitVec.toNat_setWidth]
  push_cast
  exact (Int.mod_modEq _ _).symm

theorem ofInt_congr {w : Nat} {a b : Int} (h : a ≡ b [ZMOD 2 ^ w]) :
    BitVec.ofInt w a = BitVec.ofInt w b := by
  refine BitVec.eq_of_toInt_eq ?_
  rw [BitVec.toInt_ofInt, BitVec.toInt_ofInt]
  exact wrap_congr (s := true) h

/-- An operation that works on each bit alone does not carry into the low bits. -/
theorem bitwise_modEq {w n : Nat} (h : w ≤ n) {f : BitVec n → BitVec n → BitVec n}
    {g : BitVec w → BitVec w → BitVec w}
    (hf : ∀ x y, (f x y).setWidth w = g (x.setWidth w) (y.setWidth w))
    {a b a' b' : Int} (ha : a ≡ a' [ZMOD 2 ^ w]) (hb : b ≡ b' [ZMOD 2 ^ w]) :
    bitwise n f a b ≡ bitwise n f a' b' [ZMOD 2 ^ w] := by
  refine (toInt_modEq_setWidth h _).trans (Int.ModEq.trans ?_ (toInt_modEq_setWidth h _).symm)
  rw [hf, hf, setWidth_ofInt h, setWidth_ofInt h, setWidth_ofInt h, setWidth_ofInt h,
    ofInt_congr ha, ofInt_congr hb]

end Ucc.Lib
