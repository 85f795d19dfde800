/-
  Util/ReadNum.lean --- the value of a number that is read.

  Source: inc_and_chk, overflow_handle, read_ap_num and char_seq_to_ullong in
  src/util/escape.c.

  A product that wraps can be larger than what was multiplied, so an overflow can go
  unseen.  The number ends where it should in any case.
-/
import Mathlib.Data.List.TakeWhile
import Ucc.Util.Escape

set_option autoImplicit false

namespace Ucc.Util

/-! ## What a text denotes -/

/-- A number at the front of a text: a digit, then digits and underscores. -/
def numText (test : UInt8 → Bool) : List UInt8 → List UInt8
  | [] => []
  | c :: s => if test c then c :: s.takeWhile (fun c => test c || c == ascii '_') else []

/-- The digits of the number. -/
def digitsOf (test : UInt8 → Bool) (s : List UInt8) : List UInt8 := (numText test s).filter test

/-- What comes after the number. -/
def afterNum (test : UInt8 → Bool) (s : List UInt8) : List UInt8 :=
  s.drop (numText test s).length

/-- What digits denote, after others that denote `v`. -/
def denote (base v : Nat) (ds : List UInt8) : Nat :=
  ds.foldl (fun v c => v * base + (digitValue c).toNat) v

/-- The product, or the sum, is less than before when it is cut to 64 bits. -/
def Wraps (base v d : Nat) : Prop :=
  (v * base + d) % 2 ^ 64 < v % 2 ^ 64 ∨ v * base % 2 ^ 64 < v % 2 ^ 64

/-- That is so at one of the digits. -/
def Detected (base v : Nat) (ds : List UInt8) : Prop :=
  ∃ before c after, ds = before ++ c :: after ∧
    Wraps base (denote base v before) (digitValue c).toNat

instance (base v d : Nat) : Decidable (Wraps base v d) := instDecidableOr

theorem detected_nil {base v : Nat} : ¬ Detected base v [] := by
  rintro ⟨before, c, after, h, -⟩
  exact List.cons_ne_nil _ _ (List.append_eq_nil_iff.mp h.symm).2

theorem detected_cons {base v : Nat} {c : UInt8} {ds : List UInt8} :
    Detected base v (c :: ds) ↔ Wraps base v (digitValue c).toNat ∨
      Detected base (v * base + (digitValue c).toNat) ds := by
  constructor
  · rintro ⟨before, d, after, h, hwraps⟩
    cases before with
    | nil =>
      obtain ⟨rfl, rfl⟩ := List.cons.inj h
      exact Or.inl hwraps
    | cons b before =>
      obtain ⟨rfl, rfl⟩ := List.cons.inj h
      exact Or.inr ⟨before, d, after, rfl, hwraps⟩
  · rintro (hwraps | ⟨before, d, after, rfl, hwraps⟩)
    · exact ⟨[], c, ds, rfl, hwraps⟩
    · exact ⟨c :: before, d, after, rfl, hwraps⟩

/-- Nothing is cut where the result fits. -/
theorem Wraps.le {base v d : Nat} (hbase : 0 < base) (h : Wraps base v d) :
    2 ^ 64 ≤ v * base + d := by
  by_contra hlt
  have hv : v ≤ v * base := Nat.le_mul_of_pos_right v hbase
  rw [Wraps, Nat.mod_eq_of_lt (a := v) (by omega), Nat.mod_eq_of_lt (by omega),
    Nat.mod_eq_of_lt (a := v * base) (by omega)] at h
  omega

theorem le_denote {base v : Nat} (hbase : 0 < base) (ds : List UInt8) : v ≤ denote base v ds := by
  induction ds generalizing v with
  | nil => exact le_rfl
  | cons c ds ih =>
    calc v ≤ v * base := Nat.le_mul_of_pos_right v hbase
      _ ≤ v * base + (digitValue c).toNat := Nat.le_add_right _ _
      _ ≤ denote base v (c :: ds) := ih

/-- What is taken for an overflow is one. -/
theorem Detected.le {base v : Nat} {ds : List UInt8} (hbase : 0 < base)
    (h : Detected base v ds) : 2 ^ 64 ≤ denote base v ds := by
  obtain ⟨before, c, after, rfl, hwraps⟩ := h
  rw [denote, List.foldl_append, List.foldl_cons]
  exact (hwraps.le hbase).trans (le_denote hbase after)

/-! ## The loop -/

/-- `inc_and_chk`, with a value that was cut to 64 bits. -/
theorem incAndChk_spec {val : UInt64} {v : Nat} (base inc : UInt64)
    (hval : val.toNat = v % 2 ^ 64) :
    (incAndChk val base inc).1.toNat = (v * base.toNat + inc.toNat) % 2 ^ 64 ∧
      ((incAndChk val base inc).2 = true ↔ Wraps base.toNat v inc.toNat) := by
  have hmul : (val * base).toNat = v * base.toNat % 2 ^ 64 := by
    rw [UInt64.toNat_mul, hval, Nat.mod_mul_mod]
  have hnew : (val * base + inc).toNat = (v * base.toNat + inc.toNat) % 2 ^ 64 := by
    rw [UInt64.toNat_add, hmul, Nat.mod_add_mod]
  refine ⟨hnew, ?_⟩
  rw [incAndChk, Bool.or_eq_true, decide_eq_true_iff, decide_eq_true_iff, UInt64.lt_iff_toNat_lt,
    UInt64.lt_iff_toNat_lt, hnew, hmul, hval, Wraps]

section Loop

variable {test : UInt8 → Bool}

theorem takeWhile_append_dropWhile_sep (s : List UInt8) :
    s.takeWhile (fun c => test c || c == ascii '_') =
      s.takeWhile (· == ascii '_') ++ numText test (s.dropWhile (· == ascii '_')) := by
  induction s with
  | nil => rfl
  | cons c s ih =>
    by_cases hc : (c == ascii '_') = true
    · simp only [List.takeWhile_cons, List.dropWhile_cons, hc, Bool.or_true, if_true, ih,
        List.cons_append]
    · simp only [List.takeWhile_cons, List.dropWhile_cons, hc, Bool.or_false, if_false,
        Bool.false_eq_true, List.nil_append, numText]

variable (hsep : test (ascii '_') = false)

/-- A digit, the underscores behind it, and a number again. -/
theorem numText_cons {c : UInt8} {s : List UInt8} (hc : test c = true) :
    numText test (c :: s) =
      c :: s.takeWhile (· == ascii '_') ++ numText test (s.dropWhile (· == ascii '_')) := by
  rw [numText, if_pos hc, takeWhile_append_dropWhile_sep, List.cons_append]

include hsep in
theorem digitsOf_cons {c : UInt8} {s : List UInt8} (hc : test c = true) :
    digitsOf test (c :: s) = c :: digitsOf test (s.dropWhile (· == ascii '_')) := by
  have hnone : (s.takeWhile (· == ascii '_')).filter test = [] := by
    refine List.filter_eq_nil_iff.mpr fun d hd => ?_
    have hd' := List.mem_takeWhile_imp hd
    rw [beq_iff_eq] at hd'
    rw [hd', hsep]
    exact Bool.false_ne_true
  rw [digitsOf, numText_cons hc, List.cons_append, List.filter_cons_of_pos hc, List.filter_append,
    hnone, List.nil_append, digitsOf]

theorem drop_length_takeWhile (p : UInt8 → Bool) (s : List UInt8) :
    s.drop (s.takeWhile p).length = s.dropWhile p := by
  induction s with
  | nil => rfl
  | cons c s ih =>
    rw [List.takeWhile_cons, List.dropWhile_cons]
    split
    · exact ih
    · rfl

theorem afterNum_cons {c : UInt8} {s : List UInt8} (hc : test c = true) :
    afterNum test (c :: s) = afterNum test (s.dropWhile (· == ascii '_')) := by
  rw [afterNum, numText_cons hc, List.cons_append, List.length_cons, List.drop_succ_cons,
    List.length_append, ← List.drop_drop, drop_length_takeWhile, afterNum]

theorem afterNum_eq_dropWhile {c : UInt8} {s : List UInt8} (hc : test c = true) :
    afterNum test (c :: s) = (c :: s).dropWhile fun c => test c || c == ascii '_' := by
  rw [afterNum, numText, if_pos hc, List.dropWhile_cons_of_pos (by simp [hc]), List.length_cons,
    List.drop_succ_cons, drop_length_takeWhile]

include hsep in
/-- `read_ap_num` without a limit, from a value that was cut to 64 bits on. -/
theorem readApNum_spec {base : UInt64} {maxChars : Option Nat} {val : UInt64} {s : List UInt8}
    {v : Nat} (hlimit : maxChars = none) (hval : val.toNat = v % 2 ^ 64) :
    ((readApNum test base maxChars val s).of = true ↔
      Detected base.toNat v (digitsOf test s)) ∧
    ((readApNum test base maxChars val s).of = false →
      (readApNum test base maxChars val s).val.toNat =
        denote base.toNat v (digitsOf test s) % 2 ^ 64) ∧
    (readApNum test base maxChars val s).rest = afterNum test s := by
  fun_induction readApNum test base maxChars val s generalizing v with
  | case1 => exact ⟨by simp [digitsOf, numText, detected_nil], fun _ => hval, rfl⟩
  | case2 maxChars val c s hc new hinc =>
    have hchk := (incAndChk_spec base (digitValue c) hval).2
    rw [hinc] at hchk
    rw [digitsOf_cons hsep hc, detected_cons]
    refine ⟨by simp [hchk.mp rfl], fun h => ?_, (afterNum_eq_dropWhile hc).symm⟩
    cases h
  | case3 => cases hlimit
  | case4 maxChars val c s hc new hinc s' _ =>
    rename_i ih
    obtain ⟨hnew, hchk⟩ := incAndChk_spec base (digitValue c) hval
    rw [hinc] at hnew hchk
    have hno : ¬ Wraps base.toNat v (digitValue c).toNat := fun h => by simp [h] at hchk
    rw [digitsOf_cons hsep hc, detected_cons, afterNum_cons hc, or_iff_right hno]
    exact ih (by rw [hlimit]; rfl) hnew
  | case5 maxChars val c s hc =>
    have hnone : numText test (c :: s) = [] := by rw [numText, if_neg hc]
    refine ⟨?_, fun _ => ?_, ?_⟩
    · simp [digitsOf, hnone, detected_nil]
    · rw [digitsOf, hnone]
      exact hval
    · rw [afterNum, hnone]
      rfl

end Loop

/-! ## `char_seq_to_ullong` -/

/-- The base as a number. -/
def Base.base (mode : Base) : Nat := (bases mode).1.toNat

/-- `bases[mode].test` -/
def Base.test (mode : Base) : UInt8 → Bool := (bases mode).2.2

theorem Base.base_pos (mode : Base) : 0 < mode.base := by cases mode <;> decide

theorem Base.sep (mode : Base) : mode.test (ascii '_') = false := by cases mode <;> decide

/-- What the digits of the number at the front of a text denote. -/
def denoted (mode : Base) (s : List UInt8) : Nat := denote mode.base 0 (digitsOf mode.test s)

/-- The number is read with its value, or an overflow is reported if there is one, and its
end is found. -/
structure ReadsExactly (mode : Base) (s : List UInt8) : Prop where
  overflow : (charSeqToUllong s false mode).of = true ↔ 2 ^ 64 ≤ denoted mode s
  value : (charSeqToUllong s false mode).of = false →
    (charSeqToUllong s false mode).val.toNat = denoted mode s
  after : (charSeqToUllong s false mode).rest = afterNum mode.test s

theorem charSeqToUllong_spec (mode : Base) (s : List UInt8) :
    ((charSeqToUllong s false mode).of = true ↔
      Detected mode.base 0 (digitsOf mode.test s)) ∧
    ((charSeqToUllong s false mode).of = false →
      (charSeqToUllong s false mode).val.toNat = denoted mode s % 2 ^ 64) ∧
    (charSeqToUllong s false mode).rest = afterNum mode.test s :=
  readApNum_spec mode.sep rfl rfl

/-- `30000000000000000000` -/
def threeTimesTen19 : List UInt8 := ascii '3' :: List.replicate 19 (ascii '0')

end Ucc.Util
