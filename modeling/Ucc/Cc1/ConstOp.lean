/-
  Cc1/ConstOp.lean --- constant folding of the operators.

  Source: src/cc1/ops/expr_op.c, src/cc1/const.c, src/cc1/const.h,
  src/cc1/op.c, type_max in src/cc1/type.c.

  The integer and address half of the folder.  An assertion that fails, or an
  ICE, ends the compiler: the folding functions return `none` there.
-/
import Mathlib.Tactic

set_option autoImplicit false

namespace Ucc.Cc1

/-- `integral_t`; `sintegral_t` is the same word read as a signed number. -/
abbrev Integral := BitVec 64

/-! ## Operators and types -/

/-- `enum op_type` -/
inductive OpType where
  | multiply | divide | modulus
  | plus | minus
  | xor | or | and
  | orsc | andsc
  | shiftl | shiftr
  | not | bnot
  | eq | ne
  | le | lt
  | ge | gt
  | signbit | noSignbit
  | unknown
  deriving DecidableEq, Repr

/-- `op_is_comparison` -/
def opIsComparison : OpType → Bool
  | .eq | .ne | .le | .lt | .ge | .gt => true
  | _ => false

/-- `op_is_shortcircuit` -/
def opIsShortcircuit : OpType → Bool
  | .andsc | .orsc => true
  | _ => false

/-- `op_increases`; it is never asked of `op_unknown`. -/
def opIncreases : OpType → Bool
  | .multiply | .plus | .or | .shiftl => true
  | _ => false

/-- The types an operand has after the integer promotions: the integer types
from `int` on, and pointers, of which the folder reads the size of what they
point to. -/
inductive CTy where
  | int | uint
  | long | ulong
  | llong | ullong
  | ptr (next : Nat)
  deriving DecidableEq, Repr

/-- `type_size` -/
def CTy.size : CTy → Nat
  | .int | .uint => 4
  | _ => 8

/-- `type_is_signed`; a pointer is "unspecified", and counts as signed. -/
def CTy.isSigned : CTy → Bool
  | .uint | .ulong | .ullong => false
  | _ => true

/-- `type_is_ptr`: the size of what the type points to. -/
def CTy.isPtr : CTy → Option Nat
  | .ptr next => some next
  | _ => none

/-- `type_max` -/
def typeMax (t : CTy) : Integral :=
  let max : Integral := BitVec.allOnes 64 >>> (64 - 8 * t.size)
  if t.isSigned then max / 2 - 1 else max

/-! ## Arithmetic on constants -/

/-- How `const_op_exec` can fail: with an error text, or by ending the
compiler. -/
inductive ExecErr where
  | error (msg : String)
  | ice
  deriving DecidableEq, Repr

/-- A C truth value. -/
def ofTruth (b : Bool) : Integral := if b then 1 else 0

/-- The `switch` of `const_op_exec`, for two operands. -/
def binaryExec (isSigned : Bool) (l r : Integral) : OpType → Except ExecErr Integral
  | .multiply => .ok (l * r)
  | .eq => .ok (ofTruth (l == r))
  | .ne => .ok (ofTruth (l != r))
  | .le => .ok (ofTruth (if isSigned then l.sle r else l.ule r))
  | .lt => .ok (ofTruth (if isSigned then l.slt r else l.ult r))
  | .ge => .ok (ofTruth (if isSigned then r.sle l else r.ule l))
  | .gt => .ok (ofTruth (if isSigned then r.slt l else r.ult l))
  | .shiftl => .ok (l <<< r)
  | .shiftr => .ok (if isSigned then l.sshiftRight r.toNat else l >>> r)
  | .xor => .ok (l ^^^ r)
  | .or => .ok (l ||| r)
  | .and => .ok (l &&& r)
  | .orsc => .ok (ofTruth (l != 0 || r != 0))
  | .andsc => .ok (ofTruth (l != 0 && r != 0))
  | .modulus =>
      if r = 0 then .error (.error "division by zero")
      else .ok (if isSigned then l.srem r else l.umod r)
  | .divide =>
      if r = 0 then .error (.error "division by zero")
      else .ok (if isSigned then l.sdiv r else l.udiv r)
  | .plus => .ok (l + r)
  | .minus => .ok (l - r)
  | .not => .ok (ofTruth (l == 0))
  | .bnot => .ok (~~~ l)
  | .signbit | .noSignbit | .unknown => .error .ice

/-- The `switch` of `const_op_exec`, with no second operand: the binary
operators read through the null pointer. -/
def unaryExec (l : Integral) : OpType → Except ExecErr Integral
  | .plus => .ok (l + 0)
  | .minus => .ok (-l)
  | .not => .ok (ofTruth (l == 0))
  | .bnot => .ok (~~~ l)
  | _ => .error .ice

/-- The wrap-around of `const_op_exec`, for unsigned types. -/
def wrapAround (op : OpType) (t : CTy) (result : Integral) : Integral :=
  if t.isSigned then result
  else
    let max := typeMax t
    if max = BitVec.allOnes 64 then result
    else if max < result then
      if opIncreases op then result - (max + 1) else result - BitVec.allOnes 64 + max
    else result

/-- `const_op_exec` -/
def constOpExec (l : Integral) (r : Option Integral) (op : OpType) (arithty : CTy) :
    Except ExecErr Integral :=
  match r with
  | some r => (binaryExec arithty.isSigned l r op).map (wrapAround op arithty)
  | none => (unaryExec l op).map (wrapAround op arithty)

/-! ## Constants -/

/-- `bits.addr` of a constant. -/
inductive Addr where
  /-- `CONST_LBL_MEMADDR` -/
  | memaddr (addr : Integral)
  /-- `CONST_LBL_TRUE` -/
  | lblTrue (lbl : String)
  /-- `CONST_LBL_WEAK` -/
  | lblWeak (lbl : String)
  deriving DecidableEq, Repr

/-- The suffix bits of a number. -/
structure Suffix where
  unsigned : Bool := false
  long : Bool := false
  llong : Bool := false
  deriving DecidableEq, Repr

/-- `enum constyness`, with what it carries. -/
inductive Bits where
  | no
  | num (val : Integral) (suffix : Suffix)
  | addr (a : Addr)
  | strk (lbl : String)
  | needAddr (a : Addr)
  deriving DecidableEq, Repr

/-- `consty` -/
structure Consty where
  bits : Bits
  offset : Integral := 0
  nonstandardConst : Bool := false
  deriving DecidableEq, Repr

/-- `CONST_AT_COMPILE_TIME` -/
def Consty.atCompileTime (k : Consty) : Bool :=
  match k.bits with
  | .no | .needAddr _ => false
  | _ => true

/-- `CONST_FOLD_NO` on a fresh constant. -/
def constFoldNo : Consty := { bits := .no }

/-- A number without a suffix. -/
def constNum (val : Integral) : Consty := { bits := .num val {} }

/-- `collapsed_consty` -/
structure Collapsed where
  lbl : Option String
  offset : Integral
  isWeak : Bool
  deriving DecidableEq, Repr

/-- `collapse_const` -/
def collapseConst (k : Consty) : Option Collapsed :=
  match k.bits with
  | .no => none
  | .num val _ => some ⟨none, val + k.offset, false⟩
  | .strk lbl => some ⟨some lbl, k.offset, false⟩
  | .addr (.lblTrue lbl) | .needAddr (.lblTrue lbl) => some ⟨some lbl, k.offset, false⟩
  | .addr (.lblWeak lbl) | .needAddr (.lblWeak lbl) => some ⟨some lbl, k.offset, true⟩
  | .addr (.memaddr a) | .needAddr (.memaddr a) => some ⟨none, a + k.offset, false⟩

/-- `enum eval_truth` -/
inductive EvalTruth where
  | false | true | unknown
  deriving DecidableEq, Repr

/-- `collapsed_consty_to_truth` -/
def Collapsed.toTruth (k : Collapsed) : EvalTruth :=
  if k.isWeak then .unknown else if k.lbl.isSome || k.offset != 0 then .true else .false

/-- `eval_truth_to_consty` -/
def evalTruthToConsty : EvalTruth → Consty
  | .true => constNum 1
  | .false => constNum 0
  | .unknown => constFoldNo

/-- `eval_shortcircuit`: the table, with the second operand last. -/
def evalShortcircuit (op : OpType) : EvalTruth → EvalTruth → EvalTruth
  | .false, r => if op = .andsc then .false else r
  | .true, r => if op = .andsc then r else .true
  -- both could be a constant at some entries, but would lose a side effect
  | .unknown, _ => .unknown

/-! ## Folding an operator -/

/-- An operand: its type and what it folds to. -/
structure Operand where
  ty : CTy
  k : Consty
  deriving DecidableEq, Repr

/-- An operator expression after `fold_expr_op`. -/
structure OpExpr where
  op : OpType
  lhs : Operand
  rhs : Option Operand
  treeType : CTy
  deriving DecidableEq, Repr

/-- `!!l.lbl + !!r.lbl` -/
def labels (l r : Collapsed) : Nat := l.lbl.isSome.toNat + r.lbl.isSome.toNat

/-- Pointer arithmetic in `const_op_num_int`: the number's side is scaled. -/
def applyStep (op : OpType) (lty rty : CTy) (l r : Collapsed) : Option (Collapsed × Collapsed) :=
  if labels l r < 2 ∧ (op = .plus ∨ op = .minus) then
    match lty.isPtr, rty.isPtr with
    | some step, _ =>
        if r.lbl.isSome then none
        else some (l, { r with offset := r.offset * BitVec.ofNat 64 step })
    | none, some step =>
        if l.lbl.isSome then none
        else some ({ l with offset := l.offset * BitVec.ofNat 64 step }, r)
    | none, none => some (l, r)
  else some (l, r)

/-- `const_op_num_int`, with one label among the operands. -/
def foldOneLabel (e : OpExpr) (l r : Collapsed) : Option Consty :=
  let lblSide := if l.lbl.isSome then l else r
  let numSide := if l.lbl.isSome then r else l
  match e.op with
  | .not =>
      if e.rhs.isSome then none
      else if lblSide.isWeak then some constFoldNo else some (constNum 0)
  | .eq | .ne =>
      if numSide.offset = 0 ∧ lblSide.isWeak = false then
        some (constNum (ofTruth (e.op != .eq)))
      else some constFoldNo
  | .plus | .minus =>
      match e.rhs with
      | none => some constFoldNo
      | some rhs =>
          let k := if l.lbl.isSome then e.lhs.k else rhs.k
          if e.op = .plus then some { k with offset := k.offset + numSide.offset }
          else some { k with offset := k.offset - numSide.offset }
  | _ => some constFoldNo

/-- The suffix of a folded number. -/
def numSuffix (e : OpExpr) : Suffix where
  unsigned := !(e.lhs.ty.isSigned || (e.rhs.map fun rhs => rhs.ty.isSigned).getD false)
  long := e.treeType = .long || e.treeType = .ulong
  llong := e.treeType = .llong || e.treeType = .ullong

/-- `const_op_num_int`, with no label among the operands. -/
def foldNumbers (e : OpExpr) (l r : Collapsed) : Option Consty :=
  match constOpExec l.offset (e.rhs.map fun _ => r.offset) e.op e.treeType with
  | .ok v => some { bits := .num v (numSuffix e) }
  | .error (.error _) => some constFoldNo
  | .error .ice => none

/-- `const_op_num_int`, with two labels. -/
def foldTwoLabels (e : OpExpr) (l r : Collapsed) : Option Consty :=
  match e.op with
  | .not | .unknown | .orsc | .andsc => none
  | .eq | .ne =>
      if l.isWeak || r.isWeak then some constFoldNo
      else some (constNum (ofTruth ((e.op == .eq) == (l.lbl == r.lbl))))
  | .minus =>
      if !l.isWeak && !r.isWeak && l.lbl == r.lbl then
        match e.lhs.ty.isPtr with
        | none => none
        | some next =>
            some { bits := .num ((l.offset - r.offset).udiv (BitVec.ofNat 64 next)) {}
                   nonstandardConst := true }
      -- `k` is still all zeros, which is `CONST_NO`
      else some constFoldNo
  | _ => some constFoldNo

/-- `const_op_num_int`; with no second operand, `r` is all zeros. -/
def constOpNumInt (e : OpExpr) : Option Consty := do
  let l ← collapseConst e.lhs.k
  let (l, r) ← match e.rhs with
    | some rhs => do
        let r ← collapseConst rhs.k
        applyStep e.op e.lhs.ty rhs.ty l r
    | none => some (l, ⟨none, 0, false⟩)
  if opIsShortcircuit e.op then
    return evalTruthToConsty (evalShortcircuit e.op l.toTruth r.toTruth)
  else
    match labels l r with
    | 0 => foldNumbers e l r
    | 1 => foldOneLabel e l r
    | _ => foldTwoLabels e l r

/-- `const_shortcircuit`, on an operand that is not constant at compile time. -/
def constShortcircuit (e : OpExpr) : Option Consty :=
  if e.lhs.k.atCompileTime then do
    let l ← collapseConst e.lhs.k
    return evalTruthToConsty (evalShortcircuit e.op l.toTruth .unknown)
  else some constFoldNo

/-- The constant of the second operand; a missing one is the number zero. -/
def OpExpr.rhsConst (e : OpExpr) : Consty :=
  match e.rhs with
  | some rhs => rhs.k
  | none => constNum 0

/-- `fold_const_expr_op` -/
def foldConstExprOp (e : OpExpr) : Option Consty :=
  if e.lhs.k.atCompileTime && e.rhsConst.atCompileTime then do
    let k ← constOpNumInt e
    return { k with
      nonstandardConst :=
        k.nonstandardConst || e.lhs.k.nonstandardConst || e.rhsConst.nonstandardConst }
  else if opIsShortcircuit e.op then constShortcircuit e
  else some constFoldNo

end Ucc.Cc1
