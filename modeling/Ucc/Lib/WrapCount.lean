/-
  Lib/WrapCount.lean --- unsigned counters that go up and down by one.

  A counter of `w` bits wraps at both ends.  `level` is where the steps of a list
  would take a counter that does not wrap, and `low` the least that they pass
  through; what a counter that wraps does is read off the two.
-/
import Mathlib.Tactic.Ring
import Mathlib.Tactic.Linarith

set_option autoImplicit false

namespace Ucc.Lib

/-- One step of a counter. -/
inductive Tick where
  | up
  | down
deriving DecidableEq, Repr

section Wrap

variable {w : Nat}

/-- The counter after one step. -/
def Tick.apply (x : BitVec w) : Tick → BitVec w
  | .up => x + 1#w
  | .down => x - 1#w

/-- The counter after all steps. -/
def runTicks (x : BitVec w) (l : List Tick) : BitVec w :=
  l.foldl Tick.apply x

/-- No step is down from zero. -/
def NeverBelow : BitVec w → List Tick → Prop
  | _, [] => True
  | x, .up :: l => NeverBelow (x + 1#w) l
  | x, .down :: l => x ≠ 0#w ∧ NeverBelow (x - 1#w) l

/-- No step is up from the largest value. -/
def NeverPast : BitVec w → List Tick → Prop
  | _, [] => True
  | x, .up :: l => x ≠ BitVec.allOnes w ∧ NeverPast (x + 1#w) l
  | x, .down :: l => NeverPast (x - 1#w) l

end Wrap

/-- Steps up less steps down. -/
def level : List Tick → Int
  | [] => 0
  | .up :: l => 1 + level l
  | .down :: l => -1 + level l

/-- The least level on the way, at most zero. -/
def low : List Tick → Int
  | [] => 0
  | .up :: l => min 0 (1 + low l)
  | .down :: l => min 0 (-1 + low l)

@[simp] theorem level_append (a b : List Tick) : level (a ++ b) = level a + level b := by
  induction a with
  | nil => simp [level]
  | cons t a ih =>
    cases t with
    | up => simp only [List.cons_append, level, ih]; ring
    | down => simp only [List.cons_append, level, ih]; ring

theorem low_le_zero (l : List Tick) : low l ≤ 0 := by
  cases l with
  | nil => exact le_rfl
  | cons t l => cases t <;> exact min_le_left _ _

@[simp] theorem low_append (a b : List Tick) : low (a ++ b) = min (low a) (level a + low b) := by
  have hb := low_le_zero b
  induction a with
  | nil => simp only [List.nil_append, level, low]; omega
  | cons t a ih =>
    cases t with
    | up => simp only [List.cons_append, level, low, ih]; omega
    | down => simp only [List.cons_append, level, low, ih]; omega

@[simp] theorem level_replicate_down (n : Nat) : level (List.replicate n .down) = -n := by
  induction n with
  | zero => rfl
  | succ n ih => rw [List.replicate_succ, level, ih]; omega

theorem le_low_replicate_down (n : Nat) : -(n : Int) ≤ low (List.replicate n .down) := by
  induction n with
  | zero => exact le_rfl
  | succ n ih => rw [List.replicate_succ, low]; omega

/-! ## One step of a counter that wraps -/

section Wrap

variable {w : Nat}

theorem toNat_up {x : BitVec w} (hx : x ≠ BitVec.allOnes w) : (x + 1#w).toNat = x.toNat + 1 := by
  have hlt := x.isLt
  have hne : x.toNat ≠ 2 ^ w - 1 := fun h =>
    hx (BitVec.eq_of_toNat_eq (by rw [h, BitVec.toNat_allOnes]))
  rw [BitVec.toNat_add, BitVec.toNat_ofNat, Nat.add_mod_mod, Nat.mod_eq_of_lt (by omega)]

theorem toNat_down {x : BitVec w} (hx : x ≠ 0#w) : (x - 1#w).toNat + 1 = x.toNat := by
  have hlt := x.isLt
  have hne : x.toNat ≠ 0 := fun h =>
    hx (BitVec.eq_of_toNat_eq (by rw [h, BitVec.toNat_ofNat, Nat.zero_mod]))
  have hw : 1 < 2 ^ w := by omega
  rw [BitVec.toNat_sub, BitVec.toNat_ofNat, Nat.mod_eq_of_lt hw]
  have hsplit : 2 ^ w - 1 + x.toNat = x.toNat - 1 + 2 ^ w := by omega
  rw [hsplit, Nat.add_mod_right, Nat.mod_eq_of_lt (by omega)]
  omega

theorem allOnes_up : BitVec.allOnes w + 1#w = 0#w := by
  apply BitVec.eq_of_toNat_eq
  have hpos : 0 < 2 ^ w := Nat.two_pow_pos w
  rw [BitVec.toNat_add, BitVec.toNat_allOnes, BitVec.toNat_ofNat, BitVec.toNat_ofNat,
    Nat.add_mod_mod, Nat.sub_add_cancel hpos, Nat.mod_self, Nat.zero_mod]

/-! ## Runs -/

/-- A counter that never goes down from zero has seen no level below zero. -/
theorem NeverBelow.level_nonneg {x : BitVec w} {l : List Tick} (h : NeverBelow x l) :
    0 ≤ x.toNat + level l := by
  induction l generalizing x with
  | nil => simp [level]
  | cons t l ih =>
    cases t with
    | up =>
      have hrest := ih h
      by_cases hx : x = BitVec.allOnes w
      · rw [hx, allOnes_up, BitVec.toNat_ofNat, Nat.zero_mod] at hrest
        simp only [level]
        omega
      · rw [toNat_up hx] at hrest
        simp only [level]
        omega
    | down =>
      have hrest := ih h.2
      have hdown := toNat_down h.1
      simp only [level]
      omega

/-- It has not wrapped at the top either, if the level ends where there was room. -/
theorem NeverBelow.neverPast {x : BitVec w} {l : List Tick} (h : NeverBelow x l)
    (hroom : x.toNat + level l < 2 ^ w) : NeverPast x l := by
  induction l generalizing x with
  | nil => trivial
  | cons t l ih =>
    cases t with
    | up =>
      simp only [level] at hroom
      by_cases hx : x = BitVec.allOnes w
      · -- from zero, the rest would have to end below zero
        have hrest := NeverBelow.level_nonneg (show NeverBelow (x + 1#w) l from h)
        have hpos : 0 < 2 ^ w := Nat.two_pow_pos w
        have hcast : ((2 ^ w - 1 : Nat) : Int) = 2 ^ w - 1 := by
          rw [Nat.cast_sub hpos]
          norm_num
        rw [hx, allOnes_up, BitVec.toNat_ofNat, Nat.zero_mod] at hrest
        rw [hx, BitVec.toNat_allOnes, hcast] at hroom
        simp only [Nat.cast_zero, zero_add] at hrest
        exact absurd hroom (by linarith)
      · refine ⟨hx, ih h ?_⟩
        rw [toNat_up hx]
        push_cast
        linarith
    | down =>
      refine ih h.2 ?_
      have hdown := toNat_down h.1
      simp only [level] at hroom
      have hcast : (x.toNat : Int) = (x - 1#w).toNat + 1 := by omega
      linarith

/-- A counter that wraps at neither end follows the level. -/
theorem toNat_runTicks {x : BitVec w} {l : List Tick} (hbelow : NeverBelow x l)
    (hpast : NeverPast x l) : ((runTicks x l).toNat : Int) = x.toNat + level l := by
  induction l generalizing x with
  | nil => simp [runTicks, level]
  | cons t l ih =>
    cases t with
    | up =>
      have hrest := ih hbelow hpast.2
      rw [toNat_up hpast.1] at hrest
      simp only [runTicks, List.foldl_cons, Tick.apply, level] at hrest ⊢
      rw [hrest]
      push_cast
      ring
    | down =>
      have hrest := ih hbelow.2 hpast
      have hdown := toNat_down hbelow.1
      simp only [runTicks, List.foldl_cons, Tick.apply, level] at hrest ⊢
      rw [hrest]
      omega

/-- A counter that starts high enough for all levels only wraps at the bottom if it
wraps at the top. -/
theorem NeverPast.neverBelow {x : BitVec w} {l : List Tick} (h : NeverPast x l)
    (hlow : 0 ≤ x.toNat + low l) : NeverBelow x l := by
  induction l generalizing x with
  | nil => trivial
  | cons t l ih =>
    cases t with
    | up =>
      refine ih h.2 ?_
      simp only [low] at hlow
      rw [toNat_up h.1]
      omega
    | down =>
      simp only [low] at hlow
      have hle := low_le_zero l
      have hne : x ≠ 0#w := by
        rintro rfl
        rw [BitVec.toNat_ofNat, Nat.zero_mod] at hlow
        omega
      have hdown := toNat_down hne
      exact ⟨hne, ih h (by omega)⟩

/-- Steps that come back to where they began and do not go below it leave a counter as
it was, and never take it below zero, exactly if it has the room. -/
theorem runTicks_balanced_iff {l : List Tick} (hlevel : level l = 0) (hlow : 0 ≤ low l)
    (x : BitVec w) : runTicks x l = x ∧ NeverBelow x l ↔ NeverPast x l := by
  constructor
  · rintro ⟨-, hbelow⟩
    apply hbelow.neverPast
    rw [hlevel, add_zero]
    exact_mod_cast x.isLt
  · intro hpast
    have hbelow : NeverBelow x l := hpast.neverBelow (by omega)
    have hrun := toNat_runTicks hbelow hpast
    rw [hlevel, add_zero] at hrun
    exact ⟨BitVec.eq_of_toNat_eq (by exact_mod_cast hrun), hbelow⟩

/-- Steps that end lower than they began do not leave a counter as it was, or take it
below zero. -/
theorem not_runTicks_of_level_neg {l : List Tick} (hlevel : level l < 0) (x : BitVec w) :
    ¬ (runTicks x l = x ∧ NeverBelow x l) := by
  rintro ⟨hrun, hbelow⟩
  have hlt : (x.toNat : Int) < 2 ^ w := by exact_mod_cast x.isLt
  have hpast := hbelow.neverPast (by linarith)
  have hfinal := toNat_runTicks hbelow hpast
  rw [hrun] at hfinal
  omega

end Wrap

end Ucc.Lib
