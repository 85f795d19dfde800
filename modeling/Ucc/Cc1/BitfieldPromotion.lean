/-
  Cc1/BitfieldPromotion.lean --- the type to which a read is promoted.

  Source: fold_expr_lval2rval in src/cc1/fold.c, with fold_decl_var_fieldwidth for
  the widths that are accepted, and struct_is_lval of src/cc1/ops/expr_struct.c.

  The promotion looks at the width of the field alone, and has two types to offer:
  `int` below its width and `unsigned int` from there on.  What the read finds in
  the field is the matter of Bitfield.lean.
-/
import Ucc.Cc1.Promotion

set_option autoImplicit false

namespace Ucc.Cc1.BitRead

open Ucc.Lib

/-! ## `fold_expr_lval2rval` -/

/-- `enum lvalue_kind` -/
inductive LvalueKind where
  | no | struct | userAssignable
  deriving DecidableEq, Repr

/-- An integral type.  An enumeration is unsigned and has the size that `fold_enum`
gives it; `enumInt` is the `int` of `type_nav_int_enum`. -/
inductive FieldTy where
  | prim (p : IntPrim)
  | enum (size : Nat)
  | enumInt
  deriving DecidableEq, Repr

/-- The types that `fold_expr_lval2rval` tells apart. -/
inductive ReadTy where
  | integral (t : FieldTy)
  | array | func | other
  deriving DecidableEq, Repr

/-- `struct_mem.d`: its type and its width, if it is a bit-field. -/
structure MemberDecl where
  ty : FieldTy
  fieldWidth : Option Nat
  deriving DecidableEq, Repr

/-- An expression; `member` is what a member access refers to. -/
structure ReadExpr where
  ty : ReadTy
  lval : LvalueKind
  member : Option MemberDecl
  deriving DecidableEq, Repr

/-- The casts that are put around an expression. -/
inductive ReadCast where
  | lvalDecay
  | toPrim (p : IntPrim)
  | toEnumInt
  deriving DecidableEq, Repr

/-- `type_decayable` -/
def ReadTy.decayable : ReadTy → Bool
  | .array | .func => true
  | .integral _ | .other => false

/-- `type_is_enum` -/
def ReadTy.isEnum : ReadTy → Bool
  | .integral (.enum _) | .integral .enumInt => true
  | _ => false

/-- `prom`, of a field of `nbits` bits. -/
def promotedPrim (tg : Target) (nbits : Nat) : IntPrim :=
  let uintNbits := 8 * IntPrim.size tg .int
  let sintNbits := uintNbits - 1
  if nbits ≤ sintNbits then .int else .uint

/-- `should_lval2rval` -/
def shouldLval2rval (c99 : Bool) (e : ReadExpr) : Bool :=
  let decayable := e.ty.decayable
  if c99 ∧ decayable then true
  else match e.lval with
    | .no => false
    | .struct => !decayable
    | .userAssignable => true

/-- `fold_expr_lval2rval`: the casts, the innermost first. -/
def foldExprLval2rval (tg : Target) (c99 : Bool) (e : ReadExpr) : List ReadCast :=
  if shouldLval2rval c99 e ∨ e.ty = .func then
    match e.member.bind MemberDecl.fieldWidth with
    -- the promoted type is not an enumeration any more
    | some nbits => [.lvalDecay, .toPrim (promotedPrim tg nbits)]
    | none => if e.ty.isEnum then [.lvalDecay, .toEnumInt] else [.lvalDecay]
  else []

/-! ## Values -/

def FieldTy.size (tg : Target) : FieldTy → Nat
  | .prim p => p.size tg
  | .enum size => size
  | .enumInt => IntPrim.size tg .int

/-- `type_is_signed`; `type_enum` is not. -/
def FieldTy.isSigned (tg : Target) : FieldTy → Bool
  | .prim p => p.isSigned tg
  | .enum _ => false
  | .enumInt => true

/-- The values of a type. -/
def FieldTy.Fits (tg : Target) (t : FieldTy) (z : Int) : Prop :=
  if t = .prim .bool then z = 0 ∨ z = 1 else InRange (t.isSigned tg) (8 * t.size tg) z

/-- The type of a cast, around an expression of type `t`. -/
def ReadCast.ty (t : FieldTy) : ReadCast → FieldTy
  | .lvalDecay => t
  | .toPrim p => .prim p
  | .toEnumInt => .enumInt

/-- The value of a cast. -/
def ReadCast.value (tg : Target) (z : Int) : ReadCast → Int
  | .lvalDecay => z
  | .toPrim p => p.conv tg z
  | .toEnumInt => IntPrim.conv tg .int z

/-- The type of an expression of integral type after the casts. -/
def typeAfter (t : FieldTy) (casts : List ReadCast) : FieldTy := casts.foldl ReadCast.ty t

/-- The value after the casts, where `z` is read. -/
def valueAfter (tg : Target) (z : Int) (casts : List ReadCast) : Int :=
  casts.foldl (ReadCast.value tg) z

/-- A bit-field that `fold_decl_var_fieldwidth` accepts. -/
structure BitfieldDecl (tg : Target) where
  ty : FieldTy
  nbits : Nat
  pos : 0 < nbits
  -- "bitfield too large for ..."
  fits : nbits ≤ 8 * ty.size tg

variable {tg : Target}

/-- The values that a field can hold. -/
def BitfieldDecl.Holds (bf : BitfieldDecl tg) (z : Int) : Prop :=
  if bf.ty = .prim .bool then z = 0 ∨ z = 1 else InRange (bf.ty.isSigned tg) bf.nbits z

/-- A member access that names the field. -/
def BitfieldDecl.access (bf : BitfieldDecl tg) (lval : LvalueKind) : ReadExpr :=
  ⟨.integral bf.ty, lval, some ⟨bf.ty, some bf.nbits⟩⟩

/-- The type after the casts can represent the value, which is the one that was
read. -/
def KeepsValue (bf : BitfieldDecl tg) (casts : List ReadCast) (z : Int) : Prop :=
  (typeAfter bf.ty casts).Fits tg z ∧ valueAfter tg z casts = z

/-! ## The promotion -/

theorem foldExprLval2rval_access (c99 : Bool) (bf : BitfieldDecl tg) (lval : LvalueKind) :
    foldExprLval2rval tg c99 (bf.access lval) =
      if lval = .no then [] else [.lvalDecay, .toPrim (promotedPrim tg bf.nbits)] := by
  cases lval with
  | no => simp [foldExprLval2rval, shouldLval2rval, BitfieldDecl.access, ReadTy.decayable]
  | struct => simp [foldExprLval2rval, shouldLval2rval, BitfieldDecl.access, ReadTy.decayable]
  | userAssignable =>
    simp [foldExprLval2rval, shouldLval2rval, BitfieldDecl.access, ReadTy.decayable]

theorem size_int (tg : Target) : IntPrim.size tg .int = 4 := by
  obtain ⟨arch, sc⟩ := tg
  rfl

theorem promotedPrim_of_lt {nbits : Nat} (h : nbits < 32) : promotedPrim tg nbits = .int := by
  rw [promotedPrim, size_int]
  exact if_pos (by omega)

theorem promotedPrim_of_le {nbits : Nat} (h : 32 ≤ nbits) : promotedPrim tg nbits = .uint := by
  rw [promotedPrim, size_int]
  exact if_neg (by omega)

theorem keepsValue_nil (bf : BitfieldDecl tg) {z : Int} (h : bf.Holds z) :
    KeepsValue bf [] z := by
  refine ⟨?_, rfl⟩
  show bf.ty.Fits tg z
  unfold BitfieldDecl.Holds at h
  unfold FieldTy.Fits
  split at h
  · rename_i hbool
    rwa [if_pos hbool]
  · rename_i hbool
    rw [if_neg hbool]
    exact h.mono bf.fits

/-- A conversion to a type that has the value keeps it. -/
theorem keepsValue_cast_iff (bf : BitfieldDecl tg) (p : IntPrim) (z : Int) :
    KeepsValue bf [.lvalDecay, .toPrim p] z ↔ p.Fits tg z := by
  have hfits : (FieldTy.prim p).Fits tg z ↔ p.Fits tg z := by
    unfold FieldTy.Fits IntPrim.Fits
    simp only [FieldTy.prim.injEq]
    rfl
  constructor
  · intro h
    exact hfits.mp h.1
  · intro h
    exact ⟨hfits.mpr h, IntPrim.conv_of_fits h⟩

theorem int_fits_of_holds (bf : BitfieldDecl tg) (h : bf.nbits < 32) {z : Int}
    (hz : bf.Holds z) : IntPrim.Fits tg .int z := by
  have hbits : IntPrim.bits tg .int = 32 := by rw [IntPrim.bits, size_int]
  rw [IntPrim.fits_iff (by decide), hbits]
  show InRange true 32 z
  unfold BitfieldDecl.Holds at hz
  split at hz
  · rcases hz with rfl | rfl
    · decide
    · decide
  · exact hz.widen h

/-- A field of 32 bits or more is never a `_Bool`. -/
theorem holds_iff_of_le (bf : BitfieldDecl tg) (h : 32 ≤ bf.nbits) (z : Int) :
    bf.Holds z ↔ InRange (bf.ty.isSigned tg) bf.nbits z := by
  have hbool : bf.ty ≠ .prim .bool := by
    intro hty
    have hfits := bf.fits
    rw [hty] at hfits
    have hsize : (FieldTy.prim .bool).size tg = 1 := rfl
    omega
  rw [BitfieldDecl.Holds, if_neg hbool]

theorem uint_fits_iff (z : Int) : IntPrim.Fits tg .uint z ↔ 0 ≤ z ∧ z < 2 ^ 32 := Iff.rfl

/-- `unsigned int` has the values of an unsigned field of its own width, and not those
of a signed or a wider one. -/
theorem uint_fits_all_iff (bf : BitfieldDecl tg) (h : 32 ≤ bf.nbits) :
    (∀ z, bf.Holds z → IntPrim.Fits tg .uint z) ↔
      bf.nbits = 32 ∧ bf.ty.isSigned tg = false := by
  simp only [holds_iff_of_le bf h, uint_fits_iff]
  have hpow : (2 : Int) ^ 32 ≤ 2 ^ bf.nbits := pow_le_pow_right₀ (by decide) h
  cases hs : bf.ty.isSigned tg with
  | true =>
    have hneg : InRange true bf.nbits (-1) := by
      have hpos : (0 : Int) < 2 ^ (bf.nbits - 1) := by positivity
      exact ⟨by omega, by omega⟩
    constructor
    · intro hall
      have := (hall (-1) hneg).1
      omega
    · rintro ⟨-, hfalse⟩
      cases hfalse
  | false =>
    constructor
    · intro hall
      refine ⟨?_, rfl⟩
      by_contra hne
      have hlt : (2 : Int) ^ 32 < 2 ^ bf.nbits :=
        pow_lt_pow_right₀ (by decide) (by omega)
      have := (hall (2 ^ 32) ⟨by positivity, hlt⟩).2
      omega
    · rintro ⟨hn, -⟩ z hz
      rw [hn] at hz
      exact hz

/-- The value of a field is kept exactly where `int` or `unsigned int` has all its
values. -/
theorem bitfield_read_keeps_iff (c99 : Bool) (bf : BitfieldDecl tg) (lval : LvalueKind) :
    (∀ z, bf.Holds z → KeepsValue bf (foldExprLval2rval tg c99 (bf.access lval)) z) ↔
      lval = .no ∨ bf.nbits < 32 ∨ (bf.nbits = 32 ∧ bf.ty.isSigned tg = false) := by
  rw [foldExprLval2rval_access]
  split
  · rename_i hno
    exact iff_of_true (fun z hz => keepsValue_nil bf hz) (Or.inl hno)
  · rename_i hno
    simp only [keepsValue_cast_iff, hno, false_or]
    rcases lt_or_ge bf.nbits 32 with hlt | hge
    · rw [promotedPrim_of_lt hlt]
      exact iff_of_true (fun z hz => int_fits_of_holds bf hlt hz) (Or.inl hlt)
    · rw [promotedPrim_of_le hge, uint_fits_all_iff bf hge, or_iff_right (by omega)]

/-- `long x : 40` -/
def longField : BitfieldDecl ⟨.bits64, true⟩ where
  ty := .prim .long
  nbits := 40
  pos := by decide
  fits := by decide

/-- A field of 40 bits holds `2 ^ 32`, and 0 is read. -/
theorem long_field_truncated :
    longField.Holds (2 ^ 32) ∧
      ¬ KeepsValue longField
        (foldExprLval2rval ⟨.bits64, true⟩ true (longField.access .userAssignable)) (2 ^ 32) ∧
      valueAfter ⟨.bits64, true⟩ (2 ^ 32)
        (foldExprLval2rval ⟨.bits64, true⟩ true (longField.access .userAssignable)) = 0 := by
  refine ⟨?_, ?_, by decide⟩
  · show InRange true 40 (2 ^ 32)
    decide
  · intro h
    exact absurd h.2 (by decide)

end Ucc.Cc1.BitRead
