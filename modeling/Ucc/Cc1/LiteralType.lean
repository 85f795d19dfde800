/-
  Cc1/LiteralType.lean --- the types of integer literals.

  Source: fold_expr_val in src/cc1/ops/expr_val.c, integral_high_bit in
  src/cc1/num.c, enum c_std in src/util/std.h; the literals are those that
  read_integer and read_suffix_int in src/cc1/tokenise.c leave in `currentval`.

  Floating literals are not modelled.  A literal has no type before it is folded,
  and `type_is_signed(NULL)` is 0, so its highest bit is that of the whole word.
-/
import Ucc.Cc1.CastFold
import Ucc.Cc1.Promotion
import Ucc.Util.Escape

set_option autoImplicit false

namespace Ucc.Cc1

open Ucc.Lib
open Ucc.Util (Base)

/-! ## `fold_expr_val` -/

/-- `enum c_std`, "comparable with <" -/
inductive CStd where
  | c89 | c90 | c99 | c11 | c18 | c2x
  deriving DecidableEq, Repr

/-- The place of a standard in `enum c_std`. -/
def CStd.rank : CStd → Nat
  | .c89 => 0
  | .c90 => 1
  | .c99 => 2
  | .c11 => 3
  | .c18 => 4
  | .c2x => 5

/-- `numeric`, as the tokeniser leaves it for an integer; no base bit is set on a
decimal one. -/
structure Literal where
  val : Integral
  suffix : Suffix
  base : Base
  deriving DecidableEq, Repr

/-- What `fold_expr_val` leaves: the type of the literal, its suffix, and whether
"integer constant is so large it is unsigned" was said. -/
structure LiteralFold where
  treeType : IntPrim
  suffix : Suffix
  warned : Bool
  deriving DecidableEq, Repr

/-- `VAL_NON_DECIMAL` -/
def Literal.nonDecimal (num : Literal) : Bool := num.base != .dec

/-- `integral_high_bit`, with no type. -/
def highBit (val : Integral) : Int := if val = 0 then -1 else val.toNat.log2

/-- The type before the value is looked at. -/
def Literal.suffixPrim (num : Literal) : IntPrim :=
  if num.suffix.llong then .llong else if num.suffix.long then .long else .int

/-- The tests of `fold_expr_val` on a value other than 0: the type, its signedness
and the warning. -/
def choosePrim (tg : Target) (std : CStd) (freestanding : Bool) (num : Literal) :
    IntPrim × Bool × Bool :=
  let isSigned := !num.suffix.unsigned
  let canChangeSign := isSigned && num.nonDecimal
  let longMaxBit : Int := 8 * IntPrim.size tg .long - 1
  let highestBit := highBit num.val
  let p := num.suffixPrim
  if p.intrank ≤ IntPrim.intrank .int ∧ highestBit < 31 then
    (.int, canChangeSign || isSigned, false)
  else if p.intrank ≤ IntPrim.intrank .int ∧ highestBit = 31 ∧ (canChangeSign ∨ !isSigned) then
    (.int, false, false)
  -- "only chose long if given by suffix::L"
  else if p.intrank ≤ IntPrim.intrank .long ∧ highestBit < longMaxBit then
    (.long, canChangeSign || isSigned, false)
  -- "in C89 we use a unsigned long for the large integer constants"
  else if p.intrank ≤ IntPrim.intrank .long ∧ highestBit = longMaxBit ∧
      (!isSigned ∨ canChangeSign ∨ std.rank ≤ CStd.rank .c89) then
    (.long, false, false)
  else if p.intrank ≤ IntPrim.intrank .llong ∧ highestBit < 63 then
    (.llong, canChangeSign || isSigned, false)
  else if p.intrank ≤ IntPrim.intrank .llong ∧ highestBit = 63 then
    (.llong, false, isSigned && !freestanding)
  -- "we stick with what we started with"
  else (p, isSigned, false)

/-- The type of a choice. -/
def chosenType (c : IntPrim × Bool × Bool) : IntPrim := if c.2.1 then c.1 else c.1.toUnsigned

/-- The label `chosen`. -/
def Literal.chosen (num : Literal) (c : IntPrim × Bool × Bool) : LiteralFold :=
  ⟨chosenType c, { num.suffix with unsigned := !c.2.1 }, c.2.2⟩

/-- `fold_expr_val`; `none` where one of its assertions fails. -/
def foldExprVal (tg : Target) (std : CStd) (freestanding : Bool) (num : Literal) :
    Option LiteralFold :=
  if num.val = 0 then
    if highBit num.val = -1 then some (num.chosen (num.suffixPrim, !num.suffix.unsigned, false))
    else none
  else if highBit num.val ≠ -1 then some (num.chosen (choosePrim tg std freestanding num))
  else none

/-! ## The lists of the standard -/

/-- C89 and C90 are one language. -/
def CStd.isC89 (std : CStd) : Bool := std.rank ≤ CStd.rank .c90

/-- The types a literal can have, in order.  `long long` is no type of C89, where
the suffix `ll` is an extension. -/
def Literal.candidates (std : CStd) (num : Literal) : List IntPrim :=
  if num.suffix.llong then
    if num.suffix.unsigned then [.ullong]
    else if num.nonDecimal then [.llong, .ullong]
    else [.llong]
  else if num.suffix.long then
    if num.suffix.unsigned then if std.isC89 then [.ulong] else [.ulong, .ullong]
    else if std.isC89 then [.long, .ulong]
    else if num.nonDecimal then [.long, .ulong, .llong, .ullong]
    else [.long, .llong]
  else
    if num.suffix.unsigned then if std.isC89 then [.uint, .ulong] else [.uint, .ulong, .ullong]
    else if std.isC89 then
      if num.nonDecimal then [.int, .uint, .long, .ulong] else [.int, .long, .ulong]
    else if num.nonDecimal then [.int, .uint, .long, .ulong, .llong, .ullong]
    else [.int, .long, .llong]

/-- The types that are left when none of these can represent the value. -/
def Literal.beyond (num : Literal) : List IntPrim :=
  if num.suffix.unsigned then [.ullong] else [.llong, .ullong]

/-- The first type of a list that can represent a literal's value. -/
def Literal.firstOf (tg : Target) (num : Literal) (l : List IntPrim) : Option IntPrim :=
  l.find? fun p => decide (p.Fits tg num.val.toNat)

/-- A decimal literal that no `long` but an `unsigned long` represents, under
`-std=c90` or `-ansi`, where `cc1_std <= STD_C89` does not hold. -/
def Literal.MissedC90 (tg : Target) (std : CStd) (num : Literal) : Prop :=
  std = .c90 ∧ num.base = .dec ∧ !num.suffix.unsigned ∧ !num.suffix.llong ∧
    ¬ IntPrim.Fits tg .long num.val.toNat ∧ IntPrim.Fits tg .ulong num.val.toNat

/-! ## Thresholds -/

theorem fits_signed {tg : Target} {p : IntPrim} {n : Nat} (hp : p ≠ .bool)
    (hs : p.isSigned tg = true) : p.Fits tg n ↔ n < 2 ^ (p.bits tg - 1) := by
  rw [IntPrim.Fits, if_neg hp, hs, InRange, if_pos rfl]
  have hpos : (0 : Int) < 2 ^ (p.bits tg - 1) := by positivity
  constructor
  · rintro ⟨-, h⟩
    exact_mod_cast h
  · intro h
    exact ⟨by omega, by exact_mod_cast h⟩

theorem fits_unsigned {tg : Target} {p : IntPrim} {n : Nat} (hp : p ≠ .bool)
    (hs : p.isSigned tg = false) : p.Fits tg n ↔ n < 2 ^ p.bits tg := by
  rw [IntPrim.Fits, if_neg hp, hs, InRange, if_neg Bool.false_ne_true]
  constructor
  · rintro ⟨-, h⟩
    exact_mod_cast h
  · intro h
    exact ⟨by omega, by exact_mod_cast h⟩

theorem highBit_lt_iff {val : Integral} (hval : val ≠ 0) (k : Nat) :
    highBit val < k ↔ val.toNat < 2 ^ k := by
  have hne : val.toNat ≠ 0 := fun h => hval (BitVec.eq_of_toNat_eq h)
  rw [highBit, if_neg hval, Int.ofNat_lt]
  exact Nat.log2_lt hne

theorem highBit_ne_neg {val : Integral} (hval : val ≠ 0) : highBit val ≠ -1 := by
  rw [highBit, if_neg hval]
  omega

/-- The types that a literal is tested for. -/
inductive Tested : IntPrim → Prop where
  | int : Tested .int
  | long : Tested .long
  | llong : Tested .llong

section Thresholds

variable {tg : Target} {t : IntPrim} {val : Integral}

theorem Tested.fits_iff (ht : Tested t) {n : Nat} : t.Fits tg n ↔ n < 2 ^ (t.bits tg - 1) := by
  cases ht <;> exact fits_signed IntPrim.noConfusion rfl

theorem Tested.fits_unsigned_iff (ht : Tested t) {n : Nat} :
    t.toUnsigned.Fits tg n ↔ n < 2 ^ t.bits tg := by
  cases ht <;> exact fits_unsigned IntPrim.noConfusion rfl

theorem Tested.fits_toUnsigned (ht : Tested t) {n : Nat} (h : t.Fits tg n) :
    t.toUnsigned.Fits tg n :=
  ht.fits_unsigned_iff.2 ((ht.fits_iff.1 h).trans_le (Nat.pow_le_pow_right two_pos (Nat.sub_le ..)))

/-- The value is below the highest bit of a type. -/
theorem Tested.highBit_lt_iff (ht : Tested t) (hval : val ≠ 0) :
    highBit val < (t.bits tg : Int) - 1 ↔ t.Fits tg val.toNat := by
  have hpos := IntPrim.bits_pos tg t
  rw [ht.fits_iff, ← Cc1.highBit_lt_iff hval]
  omega

/-- The value has the highest bit of a type. -/
theorem Tested.highBit_eq_iff (ht : Tested t) (hval : val ≠ 0) :
    highBit val = (t.bits tg : Int) - 1 ↔
      ¬ t.Fits tg val.toNat ∧ t.toUnsigned.Fits tg val.toNat := by
  rw [← ht.highBit_lt_iff hval, ht.fits_unsigned_iff, ← Cc1.highBit_lt_iff hval]
  omega

end Thresholds

/-! ## The first type that fits -/

/-- The types of one length. -/
def stageTypes (t : IntPrim) (unsigned both : Bool) : List IntPrim :=
  if unsigned then [t.toUnsigned] else if both then [t, t.toUnsigned] else [t]

section Choice

variable {tg : Target} {std : CStd} {freestanding : Bool} {num : Literal}

theorem firstOf_append (l m : List IntPrim) :
    num.firstOf tg (l ++ m) = (num.firstOf tg l).or (num.firstOf tg m) :=
  List.find?_append

/-- Two tests for the types of one length, and what follows them. -/
theorem stage_chosen {t : IntPrim} (ht : Tested t) (hval : num.val ≠ 0) {bit : Int}
    (hbit : bit = t.bits tg - 1) {both w : Bool} {C : Prop} [Decidable C]
    {rest : IntPrim × Bool × Bool}
    (hC : ¬ t.Fits tg num.val.toNat → t.toUnsigned.Fits tg num.val.toNat →
      (C ↔ num.suffix.unsigned = true ∨ both = true)) :
    some (chosenType (if highBit num.val < bit then
        (t, (!num.suffix.unsigned && num.nonDecimal) || !num.suffix.unsigned, false)
      else if highBit num.val = bit ∧ C then (t, false, w)
      else rest)) =
    (num.firstOf tg (stageTypes t num.suffix.unsigned both)).or (some (chosenType rest)) := by
  subst hbit
  simp only [ht.highBit_lt_iff hval, ht.highBit_eq_iff hval]
  by_cases hfit : t.Fits tg num.val.toNat
  · have hu := ht.fits_toUnsigned hfit
    cases hs : num.suffix.unsigned <;> cases both <;>
      simp [stageTypes, Literal.firstOf, chosenType, hfit, hu]
  · by_cases hu : t.toUnsigned.Fits tg num.val.toNat
    · have hC := hC hfit hu
      cases hs : num.suffix.unsigned <;> cases both <;>
        simp [stageTypes, Literal.firstOf, chosenType, hfit, hu, hC, hs]
    · cases hs : num.suffix.unsigned <;> cases both <;>
        simp [stageTypes, Literal.firstOf, chosenType, hfit, hu]

/-- The lists, length by length. -/
theorem find_llong (f : IntPrim → Bool) (hll : num.suffix.llong = true) :
    (num.candidates std ++ num.beyond).find? f =
      (stageTypes .llong num.suffix.unsigned true).find? f := by
  cases hu : num.suffix.unsigned <;> cases hd : num.nonDecimal <;>
    simp only [Literal.candidates, Literal.beyond, stageTypes, hll, hu, hd] <;>
    cases hs : f .llong <;> cases ht : f .ullong <;>
    simp [List.find?, IntPrim.toUnsigned, hs, ht]

theorem find_long (f : IntPrim → Bool) (hl : num.suffix.long = true)
    (hll : num.suffix.llong = false) :
    (num.candidates std ++ num.beyond).find? f =
      (stageTypes .long num.suffix.unsigned (num.nonDecimal || std.isC89) ++
        stageTypes .llong num.suffix.unsigned true).find? f := by
  cases hu : num.suffix.unsigned <;> cases hd : num.nonDecimal <;> cases hc : std.isC89 <;>
    simp only [Literal.candidates, Literal.beyond, stageTypes, hl, hll, hu, hd, hc] <;>
    cases hs : f .llong <;> cases ht : f .ullong <;>
    simp [List.find?, IntPrim.toUnsigned, hs, ht]

theorem find_int (f : IntPrim → Bool) (hl : num.suffix.long = false)
    (hll : num.suffix.llong = false) :
    (num.candidates std ++ num.beyond).find? f =
      (stageTypes .int num.suffix.unsigned num.nonDecimal ++
        (stageTypes .long num.suffix.unsigned (num.nonDecimal || std.isC89) ++
          stageTypes .llong num.suffix.unsigned true)).find? f := by
  cases hu : num.suffix.unsigned <;> cases hd : num.nonDecimal <;> cases hc : std.isC89 <;>
    simp only [Literal.candidates, Literal.beyond, stageTypes, hl, hll, hu, hd, hc] <;>
    cases hs : f .llong <;> cases ht : f .ullong <;>
    simp [List.find?, IntPrim.toUnsigned, hs, ht]

/-- The tests for `long long`; the last of them catches every word. -/
theorem llong_chosen (hval : num.val ≠ 0) {w : Bool} {rest : IntPrim × Bool × Bool} :
    some (chosenType (if highBit num.val < 63 then
        (.llong, (!num.suffix.unsigned && num.nonDecimal) || !num.suffix.unsigned, false)
      else if highBit num.val = 63 then (.llong, false, w)
      else rest)) =
    num.firstOf tg (stageTypes .llong num.suffix.unsigned true) := by
  have hword : IntPrim.Fits tg .ullong num.val.toNat :=
    Tested.llong.fits_unsigned_iff.2 num.val.isLt
  have hmem : IntPrim.ullong ∈ stageTypes .llong num.suffix.unsigned true := by
    cases num.suffix.unsigned <;> decide
  have hsome : (num.firstOf tg (stageTypes .llong num.suffix.unsigned true)).isSome := by
    rw [Literal.firstOf, List.find?_isSome]
    exact ⟨.ullong, hmem, decide_eq_true hword⟩
  obtain ⟨t, ht⟩ := Option.isSome_iff_exists.1 hsome
  have hstage := @stage_chosen tg num .llong .llong hval 63 rfl true w True _ rest
    fun _ _ => iff_of_true trivial (.inr rfl)
  rw [ht] at hstage ⊢
  simpa only [and_true, Option.some_or] using hstage

/-- Where `MissedC90` does not hold, `unsigned long` is taken exactly where it is in
the list. -/
theorem takes_ulong_iff (hll : num.suffix.llong = false) (hmiss : ¬ num.MissedC90 tg std)
    (hlong : ¬ IntPrim.Fits tg .long num.val.toNat)
    (hulong : IntPrim.Fits tg .ulong num.val.toNat) :
    ((!!num.suffix.unsigned) = true ∨ (!num.suffix.unsigned && num.nonDecimal) = true ∨
        std.rank ≤ CStd.rank .c89) ↔
      num.suffix.unsigned = true ∨ (num.nonDecimal || std.isC89) = true := by
  cases hu : num.suffix.unsigned with
  | true => simp
  | false =>
    cases hd : num.nonDecimal with
    | true => simp
    | false =>
      have hdec : num.base = .dec := by simpa [Literal.nonDecimal] using hd
      have hc90 : std ≠ .c90 := fun h =>
        hmiss ⟨h, hdec, by simp [hu], by simp [hll], hlong, hulong⟩
      cases std <;> simp [CStd.rank, CStd.isC89] at hc90 ⊢

/-- The tests for `long`, and what follows them. -/
theorem long_chosen (hval : num.val ≠ 0) (hll : num.suffix.llong = false)
    (hmiss : ¬ num.MissedC90 tg std) {rest : IntPrim × Bool × Bool} :
    some (chosenType (if highBit num.val < 8 * (IntPrim.size tg .long : Int) - 1 then
        (.long, (!num.suffix.unsigned && num.nonDecimal) || !num.suffix.unsigned, false)
      else if highBit num.val = 8 * (IntPrim.size tg .long : Int) - 1 ∧
        ((!!num.suffix.unsigned) = true ∨ (!num.suffix.unsigned && num.nonDecimal) = true ∨
          std.rank ≤ CStd.rank .c89) then (.long, false, false)
      else rest)) =
    (num.firstOf tg (stageTypes .long num.suffix.unsigned (num.nonDecimal || std.isC89))).or
      (some (chosenType rest)) :=
  stage_chosen Tested.long hval (by simp [IntPrim.bits]) (takes_ulong_iff hll hmiss)

/-- The tests for `int`, and what follows them. -/
theorem int_chosen (hval : num.val ≠ 0) {rest : IntPrim × Bool × Bool} :
    some (chosenType (if highBit num.val < 31 then
        (.int, (!num.suffix.unsigned && num.nonDecimal) || !num.suffix.unsigned, false)
      else if highBit num.val = 31 ∧
        ((!num.suffix.unsigned && num.nonDecimal) = true ∨ (!!num.suffix.unsigned) = true) then
        (.int, false, false)
      else rest)) =
    (num.firstOf tg (stageTypes .int num.suffix.unsigned num.nonDecimal)).or
      (some (chosenType rest)) := by
  refine stage_chosen Tested.int hval rfl fun _ _ => ?_
  cases num.suffix.unsigned <;> simp

/-- The tests of `fold_expr_val` walk the list of the standard. -/
theorem choosePrim_first (hval : num.val ≠ 0) (hmiss : ¬ num.MissedC90 tg std) :
    num.firstOf tg (num.candidates std ++ num.beyond) =
      some (chosenType (choosePrim tg std freestanding num)) := by
  have hlast := @llong_chosen tg num hval (!num.suffix.unsigned && !freestanding)
    (num.suffixPrim, !num.suffix.unsigned, false)
  cases hll : num.suffix.llong with
  | true =>
    have hp : num.suffixPrim = .llong := if_pos hll
    calc num.firstOf tg (num.candidates std ++ num.beyond)
      _ = num.firstOf tg (stageTypes .llong num.suffix.unsigned true) := find_llong _ hll
      _ = _ := hlast.symm
      _ = _ := by simp [choosePrim, hp, IntPrim.intrank]
  | false =>
    cases hl : num.suffix.long with
    | true =>
      have hp : num.suffixPrim = .long := by simp [Literal.suffixPrim, hl, hll]
      calc num.firstOf tg (num.candidates std ++ num.beyond)
        _ = num.firstOf tg (_ ++ _) := find_long _ hl hll
        _ = _ := firstOf_append _ _
        _ = _ := by rw [← hlast, ← long_chosen hval hll hmiss]
        _ = _ := by simp [choosePrim, hp, IntPrim.intrank]
    | false =>
      have hp : num.suffixPrim = .int := by simp [Literal.suffixPrim, hl, hll]
      calc num.firstOf tg (num.candidates std ++ num.beyond)
        _ = num.firstOf tg (_ ++ (_ ++ _)) := find_int _ hl hll
        _ = _ := by rw [firstOf_append, firstOf_append]
        _ = _ := by rw [← hlast, ← long_chosen hval hll hmiss, ← int_chosen hval]
        _ = _ := by simp [choosePrim, hp, IntPrim.intrank]

/-- 0 takes the first type of the list. -/
theorem zero_first (hval : num.val = 0) :
    num.firstOf tg (num.candidates std ++ num.beyond) =
      some (chosenType (num.suffixPrim, !num.suffix.unsigned, false)) := by
  have hfit {t : IntPrim} (ht : Tested t) {n : Nat} (hn : n = 0) :
      t.Fits tg n ∧ t.toUnsigned.Fits tg n := by
    rw [ht.fits_iff, ht.fits_unsigned_iff, hn]
    exact ⟨Nat.two_pow_pos _, Nat.two_pow_pos _⟩
  have hzero : num.val.toNat = 0 := by rw [hval]; rfl
  obtain ⟨hint, huint⟩ := hfit Tested.int hzero
  obtain ⟨hlong, hulong⟩ := hfit Tested.long hzero
  obtain ⟨hllong, hullong⟩ := hfit Tested.llong hzero
  unfold Literal.firstOf
  cases hll : num.suffix.llong with
  | true =>
    rw [find_llong _ hll]
    cases hu : num.suffix.unsigned <;>
      simp [stageTypes, chosenType, Literal.suffixPrim, hll, hllong, hullong]
  | false =>
    cases hl : num.suffix.long with
    | true =>
      rw [find_long _ hl hll]
      cases hu : num.suffix.unsigned <;> cases num.nonDecimal || std.isC89 <;>
        simp [stageTypes, chosenType, Literal.suffixPrim, hl, hll, hlong, hulong]
    | false =>
      rw [find_int _ hl hll]
      cases hu : num.suffix.unsigned <;> cases num.nonDecimal <;>
        simp [stageTypes, chosenType, Literal.suffixPrim, hl, hll, hint, huint]

/-- `fold_expr_val` returns, with the first type that fits. -/
theorem foldExprVal_first (hmiss : ¬ num.MissedC90 tg std) :
    ∃ r, foldExprVal tg std freestanding num = some r ∧
      num.firstOf tg (num.candidates std ++ num.beyond) = some r.treeType := by
  by_cases hval : num.val = 0
  · have hbit : highBit num.val = -1 := if_pos hval
    refine ⟨num.chosen (num.suffixPrim, !num.suffix.unsigned, false), ?_, zero_first hval⟩
    rw [foldExprVal, if_pos hval, if_pos hbit]
  · refine ⟨num.chosen (choosePrim tg std freestanding num), ?_, choosePrim_first hval hmiss⟩
    rw [foldExprVal, if_neg hval, if_pos (highBit_ne_neg hval)]

end Choice

/-- `fold_expr_val` gives a literal the first type of the standard's list that can
represent its value.  Where none can, and only there, it goes on to `long long` and
`unsigned long long`, or to the latter alone after a `u`. -/
theorem fold_expr_val_takes_first (tg : Target) (std : CStd) (freestanding : Bool) (num : Literal)
    (hmiss : ¬ num.MissedC90 tg std) :
    ∃ r, foldExprVal tg std freestanding num = some r ∧
      (∀ t, num.firstOf tg (num.candidates std) = some t → r.treeType = t) ∧
      (num.firstOf tg (num.candidates std) = none →
        num.firstOf tg num.beyond = some r.treeType) := by
  obtain ⟨r, hr, hfirst⟩ := @foldExprVal_first tg std freestanding num hmiss
  rw [firstOf_append] at hfirst
  refine ⟨r, hr, ?_, ?_⟩
  · intro t ht
    rw [ht, Option.some_or] at hfirst
    exact (Option.some.inj hfirst).symm
  · intro hnone
    rwa [hnone, Option.none_or] at hfirst

/-- `0x80000000` is an `unsigned int`, for 64 bits and C99. -/
theorem fold_expr_val_takes_first_hex :
    ¬ Literal.MissedC90 ⟨.bits64, true⟩ .c99 ⟨0x80000000, {}, .hex⟩ ∧
    ∃ r, foldExprVal ⟨.bits64, true⟩ .c99 false ⟨0x80000000, {}, .hex⟩ = some r ∧
      r.treeType = .uint := by
  have hmiss : ¬ Literal.MissedC90 ⟨.bits64, true⟩ .c99 ⟨0x80000000, {}, .hex⟩ := by
    rintro ⟨h, -⟩
    cases h
  obtain ⟨r, hr, hfirst, -⟩ := fold_expr_val_takes_first ⟨.bits64, true⟩ .c99 false
    ⟨0x80000000, {}, .hex⟩ hmiss
  exact ⟨hmiss, r, hr, hfirst .uint (by decide +kernel)⟩

/-- The decimal `9223372036854775808` is an `unsigned long long` in C99, which is not
in its list; no type of the list can represent it. -/
theorem fold_expr_val_beyond_list :
    foldExprVal ⟨.bits64, true⟩ .c99 false ⟨9223372036854775808, {}, .dec⟩ =
      some ⟨.ullong, ⟨true, false, false⟩, true⟩ ∧
    ¬ ∃ r, foldExprVal ⟨.bits64, true⟩ .c99 false ⟨9223372036854775808, {}, .dec⟩ = some r ∧
      Literal.firstOf ⟨.bits64, true⟩ ⟨9223372036854775808, {}, .dec⟩
        (Literal.candidates .c99 ⟨9223372036854775808, {}, .dec⟩) = some r.treeType := by
  have hnone : Literal.firstOf ⟨.bits64, true⟩ ⟨9223372036854775808, {}, .dec⟩
      (Literal.candidates .c99 ⟨9223372036854775808, {}, .dec⟩) = none := by
    decide +kernel
  refine ⟨by decide +kernel, ?_⟩
  rintro ⟨r, -, h⟩
  rw [hnone] at h
  cases h

end Ucc.Cc1
