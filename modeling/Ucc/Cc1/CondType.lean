/-
  Cc1/CondType.lean --- the type of a conditional expression.

  Source: fold_expr_if and gen_expr_if in src/cc1/ops/expr_if.c, with
  op_promote_types of src/cc1/ops/expr_op.c.

  Two arms of integer type.  The arms are not promoted before their common type is
  chosen, so that two narrow arms stay narrow, and a `short` outranks an `int`.
-/
import Ucc.Cc1.Promotion

set_option autoImplicit false

namespace Ucc.Cc1

/-- `op_promote_types`: a cast of an operand, where one is asked for. -/
def castTo (tg : Target) (required : Option IntPrim) (z : Int) : Int :=
  match required with
  | some t => t.conv tg z
  | none => z

/-- The arms and the result after `fold_expr_if`, for arms of integer type. -/
def foldExprIf (tg : Target) (l r : IntPrim) : Required := opRequiredPromotion tg .unknown l r

/-- `gen_expr_if`: the value of the arm that the condition picks. -/
def genExprIf (tg : Target) (l r : IntPrim) (cond : Bool) (a b : Int) : Int :=
  let e := foldExprIf tg l r
  if cond then castTo tg e.lhs a else castTo tg e.rhs b

/-- The result has the common type of the arms, and the value of the arm that is
picked, converted to it. -/
structure CondSound (tg : Target) (l r : IntPrim) : Prop where
  type : (foldExprIf tg l r).resolved = usualArith tg l r
  value : ∀ (cond : Bool) (a b : Int), l.Fits tg a → r.Fits tg b →
    genExprIf tg l r cond a b = (usualArith tg l r).conv tg (if cond then a else b)

/-- One of the arms is at least as wide as `int`, and it is not an `int` or
`unsigned` beside a `short` or `unsigned short`. -/
def CondWide (l r : IntPrim) : Prop :=
  (IntPrim.cRank .int ≤ l.cRank ∨ IntPrim.cRank .int ≤ r.cRank) ∧
    ¬ (l.cRank = IntPrim.cRank .short ∧ r.cRank = IntPrim.cRank .int) ∧
    ¬ (l.cRank = IntPrim.cRank .int ∧ r.cRank = IntPrim.cRank .short)

instance (l r : IntPrim) : Decidable (CondWide l r) :=
  inferInstanceAs (Decidable ((IntPrim.cRank .int ≤ l.cRank ∨ IntPrim.cRank .int ≤ r.cRank) ∧
    ¬ (l.cRank = IntPrim.cRank .short ∧ r.cRank = IntPrim.cRank .int) ∧
    ¬ (l.cRank = IntPrim.cRank .int ∧ r.cRank = IntPrim.cRank .short)))

theorem resolved_eq_usualArith_iff (tg : Target) (l r : IntPrim) :
    (foldExprIf tg l r).resolved = usualArith tg l r ↔ CondWide l r := by
  revert tg l r
  decide

/-- Where the types are wide, each arm gets the common type. -/
theorem foldExprIf_arms (tg : Target) (l r : IntPrim) (h : CondWide l r) :
    (foldExprIf tg l r).lhs.getD l = usualArith tg l r ∧
      (foldExprIf tg l r).rhs.getD r = usualArith tg l r := by
  revert tg l r
  decide

/-- A cast to the common type, or none where the arm has it. -/
theorem castTo_eq {tg : Target} {required : Option IntPrim} {p t : IntPrim}
    (h : required.getD p = t) {z : Int} (hz : p.Fits tg z) :
    castTo tg required z = t.conv tg z := by
  cases required with
  | some t' =>
    obtain rfl : t' = t := h
    rfl
  | none =>
    obtain rfl : p = t := h
    exact (IntPrim.conv_of_fits hz).symm

/-- A conditional expression has the type and the value that C gives it exactly
when its arms are wide. -/
theorem condSound_iff (tg : Target) (l r : IntPrim) : CondSound tg l r ↔ CondWide l r := by
  constructor
  · exact fun hsound => (resolved_eq_usualArith_iff tg l r).mp hsound.type
  · intro hwide
    obtain ⟨hl, hr⟩ := foldExprIf_arms tg l r hwide
    refine ⟨(resolved_eq_usualArith_iff tg l r).mpr hwide, fun cond a b ha hb => ?_⟩
    cases cond with
    | true => exact castTo_eq hl ha
    | false => exact castTo_eq hr hb

/-- `c ? s : i` with a `short` and an `int` is a `short`: 65536 becomes 0. -/
theorem short_or_int_not_sound :
    ¬ ∀ (tg : Target) (l r : IntPrim), CondSound tg l r := by
  intro hall
  have hvalue := (hall ⟨.bits64, true⟩ .short .int).value false 0 65536 (by decide) (by decide)
  exact absurd hvalue (by decide)

end Ucc.Cc1
