/-
  Cc1/Promotion.lean --- the types in which an operator works.

  Source: op_required_promotion and op_promote_types in src/cc1/ops/expr_op.c,
  type_is_promotable in src/cc1/type_is.c, type_intrank, type_primitive_size and
  type_primitive_is_signed in src/cc1/btype.c, type_sign in src/cc1/type_nav.c.

  Operands of integer type only.  `type_intrank` is the place in
  `enum type_primitive`, where `short` stands after `int`.
-/
import Ucc.Cc1.ConstOp
import Ucc.Cc1.FoldSue
import Ucc.Lib.Wrap

set_option autoImplicit false

namespace Ucc.Cc1

open Ucc.Lib

/-! ## The integer types -/

/-- The integer types of `enum type_primitive`, in its order. -/
inductive IntPrim where
  | bool
  | nchar | schar | uchar
  | int | uint
  | short | ushort
  | long | ulong
  | llong | ullong
  deriving DecidableEq, Repr

/-- `IS_32_BIT()` and `cc1_fopt.signed_char`. -/
structure Target where
  arch : Arch
  signedChar : Bool
  deriving DecidableEq, Repr

/-- All integer types. -/
def IntPrim.all : List IntPrim :=
  [.bool, .nchar, .schar, .uchar, .int, .uint, .short, .ushort, .long, .ulong, .llong, .ullong]

/-- All targets. -/
def Target.all : List Target :=
  [⟨.bits32, false⟩, ⟨.bits32, true⟩, ⟨.bits64, false⟩, ⟨.bits64, true⟩]

theorem IntPrim.mem_all (p : IntPrim) : p ∈ IntPrim.all := by
  cases p <;> decide

theorem Target.mem_all (tg : Target) : tg ∈ Target.all := by
  obtain ⟨arch, signedChar⟩ := tg
  cases arch <;> cases signedChar <;> decide

instance (P : IntPrim → Prop) [DecidablePred P] : Decidable (∀ p, P p) :=
  decidable_of_iff (∀ p ∈ IntPrim.all, P p) ⟨fun h p => h p p.mem_all, fun h p _ => h p⟩

instance (P : Target → Prop) [DecidablePred P] : Decidable (∀ tg, P tg) :=
  decidable_of_iff (∀ tg ∈ Target.all, P tg) ⟨fun h tg => h tg tg.mem_all, fun h tg _ => h tg⟩

/-- `type_primitive_size` -/
def IntPrim.size (tg : Target) : IntPrim → Nat
  | .bool | .nchar | .schar | .uchar => 1
  | .short | .ushort => 2
  | .int | .uint => 4
  | .long | .ulong => tg.arch.ulongSize
  | .llong | .ullong => 8

/-- `type_primitive_is_signed` -/
def IntPrim.isSigned (tg : Target) : IntPrim → Bool
  | .nchar => tg.signedChar
  | .schar | .int | .short | .long | .llong => true
  | .bool | .uchar | .uint | .ushort | .ulong | .ullong => false

/-- `type_intrank` -/
def IntPrim.intrank : IntPrim → Int
  | .bool => -1
  | .nchar => 2
  | .schar => 3
  | .uchar => 4
  | .int => 5
  | .uint => 6
  | .short => 7
  | .ushort => 8
  | .long => 9
  | .ulong => 10
  | .llong => 11
  | .ullong => 12

/-- `type_sign`, to the unsigned type. -/
def IntPrim.toUnsigned : IntPrim → IntPrim
  | .nchar | .schar => .uchar
  | .int => .uint
  | .short => .ushort
  | .long => .ulong
  | .llong => .ullong
  | p => p

/-- `expr_promote_int_if_smaller` -/
def IntPrim.promoteIfSmaller (tg : Target) (p : IntPrim) : IntPrim :=
  if p.size tg < IntPrim.size tg .int then .int else p

/-! ## `op_required_promotion` -/

/-- The casts that `op_required_promotion` asks for, and its result. -/
structure Required where
  lhs : Option IntPrim
  rhs : Option IntPrim
  resolved : IntPrim
  deriving DecidableEq, Repr

/-- `op_returns_bool` -/
def opReturnsBool (op : OpType) : Bool :=
  op = .not || opIsComparison op || opIsShortcircuit op

/-- The common type of two operands, and the casts to it. -/
def requiredCommon (tg : Target) (l r : IntPrim) : Required :=
  if l.isSigned tg = r.isSigned tg then
    if l.intrank > r.intrank then ⟨none, some l, l⟩
    else if l.intrank < r.intrank then ⟨some r, none, r⟩
    -- the ranks are equal: "default to larger"
    else if l.intrank = -1 ∧ l.size tg > r.size tg then ⟨none, some l, l⟩
    else if l.intrank = -1 ∧ l.size tg < r.size tg then ⟨some r, none, r⟩
    else ⟨none, none, r⟩
  else if !l.isSigned tg then
    if l.intrank ≥ r.intrank then ⟨none, some l, l⟩
    else if r.size tg > l.size tg then ⟨some r, none, r⟩
    else ⟨some r.toUnsigned, some r.toUnsigned, r.toUnsigned⟩
  else
    if r.intrank ≥ l.intrank then ⟨some r, none, r⟩
    else if l.size tg > r.size tg then ⟨none, some l, l⟩
    else ⟨some l.toUnsigned, some l.toUnsigned, l.toUnsigned⟩

/-- `op_required_promotion` -/
def opRequiredPromotion (tg : Target) (op : OpType) (l r : IntPrim) : Required :=
  match op with
  | .shiftl | .shiftr =>
      if l.intrank < IntPrim.intrank .int then ⟨some .int, none, .int⟩ else ⟨none, none, l⟩
  | .andsc | .orsc => ⟨none, none, .int⟩
  | _ =>
      let p := requiredCommon tg l r
      if opReturnsBool op then { p with resolved := .int } else p

/-! ## Values and conversions -/

/-- The number of bits. -/
def IntPrim.bits (tg : Target) (p : IntPrim) : Nat := 8 * p.size tg

/-- The values of a type. -/
def IntPrim.Fits (tg : Target) (p : IntPrim) (z : Int) : Prop :=
  if p = .bool then z = 0 ∨ z = 1 else InRange (p.isSigned tg) (p.bits tg) z

instance IntPrim.decidableFits (tg : Target) (p : IntPrim) (z : Int) : Decidable (p.Fits tg z) :=
  inferInstanceAs (Decidable (if p = .bool then z = 0 ∨ z = 1
    else InRange (p.isSigned tg) (p.bits tg) z))

/-- A number in a register of the size of a type. -/
def IntPrim.wrap (tg : Target) (p : IntPrim) (z : Int) : Int :=
  Lib.wrap (p.isSigned tg) (p.bits tg) z

/-- Conversion to a type; `out_cast`, with `normalise_bool`. -/
def IntPrim.conv (tg : Target) (p : IntPrim) (z : Int) : Int :=
  if p = .bool then if z = 0 then 0 else 1 else p.wrap tg z

/-! ## The C rules -/

/-- The integer conversion rank of C. -/
def IntPrim.cRank : IntPrim → Nat
  | .bool => 0
  | .nchar | .schar | .uchar => 1
  | .short | .ushort => 2
  | .int | .uint => 3
  | .long | .ulong => 4
  | .llong | .ullong => 5

/-- The integer promotions: `int` has all values of the types below it. -/
def IntPrim.cPromote (p : IntPrim) : IntPrim :=
  if p.cRank < IntPrim.cRank .int then .int else p

/-- The usual arithmetic conversions, on promoted types. -/
def usualOfPromoted (tg : Target) (l r : IntPrim) : IntPrim :=
  if l = r then l
  else if l.isSigned tg = r.isSigned tg then if l.cRank < r.cRank then r else l
  else
    let s := if l.isSigned tg then l else r
    let u := if l.isSigned tg then r else l
    if s.cRank ≤ u.cRank then u
    else if u.size tg < s.size tg then s
    else s.toUnsigned

/-- The usual arithmetic conversions. -/
def usualArith (tg : Target) (l r : IntPrim) : IntPrim :=
  usualOfPromoted tg l.cPromote r.cPromote

/-! ## Conversions keep what they can -/

theorem IntPrim.size_pos (tg : Target) (p : IntPrim) : 0 < p.size tg := by
  revert tg p
  decide

theorem IntPrim.bits_pos (tg : Target) (p : IntPrim) : 0 < p.bits tg :=
  Nat.mul_pos (by decide) (p.size_pos tg)

theorem IntPrim.bits_le (tg : Target) (p : IntPrim) : p.bits tg ≤ 64 := by
  revert tg p
  decide

theorem IntPrim.conv_of_ne {tg : Target} {p : IntPrim} (hp : p ≠ .bool) (z : Int) :
    p.conv tg z = p.wrap tg z := if_neg hp

theorem IntPrim.fits_iff {tg : Target} {p : IntPrim} (hp : p ≠ .bool) {z : Int} :
    p.Fits tg z ↔ InRange (p.isSigned tg) (p.bits tg) z := by
  rw [IntPrim.Fits, if_neg hp]

/-- A value of a type is converted to itself. -/
theorem IntPrim.conv_of_fits {tg : Target} {p : IntPrim} {z : Int} (h : p.Fits tg z) :
    p.conv tg z = z := by
  by_cases hp : p = .bool
  · subst hp
    rcases h with rfl | rfl
    · rfl
    · rfl
  · rw [p.conv_of_ne hp]
    exact wrap_of_inRange (p.bits_pos tg) ((p.fits_iff hp).mp h)

theorem IntPrim.fits_conv (tg : Target) (p : IntPrim) (z : Int) : p.Fits tg (p.conv tg z) := by
  by_cases hp : p = .bool
  · subst hp
    show (if z = 0 then (0 : Int) else 1) = 0 ∨ (if z = 0 then (0 : Int) else 1) = 1
    split
    · exact .inl rfl
    · exact .inr rfl
  · rw [p.fits_iff hp, p.conv_of_ne hp]
    exact inRange_wrap (p.bits_pos tg) _ z

/-- A register of at least the size of a type keeps what the type keeps. -/
theorem IntPrim.conv_wrap {tg : Target} {p q : IntPrim} (hp : p ≠ .bool)
    (h : p.bits tg ≤ q.bits tg) (z : Int) : p.conv tg (q.wrap tg z) = p.conv tg z := by
  rw [p.conv_of_ne hp, p.conv_of_ne hp]
  exact wrap_wrap h z

theorem IntPrim.conv_congr {tg : Target} {p : IntPrim} (hp : p ≠ .bool) {x y : Int}
    (h : x ≡ y [ZMOD 2 ^ p.bits tg]) : p.conv tg x = p.conv tg y := by
  rw [p.conv_of_ne hp, p.conv_of_ne hp]
  exact wrap_congr h

/-- A conversion to a type that is not narrower. -/
theorem IntPrim.conv_modEq {tg : Target} {q : IntPrim} (hq : q ≠ .bool) {w : Nat}
    (h : w ≤ q.bits tg) (z : Int) : q.conv tg z ≡ z [ZMOD 2 ^ w] := by
  rw [q.conv_of_ne hq]
  exact (wrap_modEq _ _ z).of_dvd (pow_dvd_pow 2 h)

/-- A promoted type has the values of the type. -/
theorem IntPrim.fits_promoteIfSmaller {tg : Target} {p : IntPrim} {z : Int} (h : p.Fits tg z) :
    (p.promoteIfSmaller tg).Fits tg z := by
  unfold IntPrim.promoteIfSmaller
  split
  · rename_i hlt
    refine (IntPrim.fits_iff (by decide)).mpr ?_
    by_cases hp : p = .bool
    · subst hp
      show InRange true 32 z
      rcases h with rfl | rfl
      · decide
      · decide
    · have hbits : p.bits tg < IntPrim.bits tg .int := Nat.mul_lt_mul_of_pos_left hlt (by decide)
      exact ((p.fits_iff hp).mp h).widen hbits
  · exact h

/-- The types below `int` are the smaller ones. -/
theorem IntPrim.cPromote_eq (tg : Target) (p : IntPrim) : p.cPromote = p.promoteIfSmaller tg := by
  revert tg p
  decide

end Ucc.Cc1
