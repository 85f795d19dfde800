/-
  Cc1/OutOp.lean --- operators on the values of the code generator.

  Source: src/cc1/out/op.c, ispow2 and log2ll in src/util/math.c, const_op_exec
  in src/cc1/const.c; impl_op, x86_check_ivfp, x86_shift, x86_idiv, v_to and
  impl_val_str_r in src/cc1/out for the instruction and its operands.

  Integers and pointers, of 64-bit targets.  A value that is not a constant has
  with it what it holds when the code runs: a register or a slot its contents, a
  label its address.  Which register is picked, and when, is left out, and so are
  the retain counts.  `none` is where the compiler stops, where the processor
  traps, and where an instruction is written whose operand is not the value: a
  label is printed as an immediate, also where an instruction writes to it, and a
  `V_REGOFF` is printed as the memory at the address that it stands for.
-/
import Ucc.Cc1.CastFold
import Ucc.Cc1.UnsignedFold
import Ucc.Lib.Narrow

set_option autoImplicit false

namespace Ucc.Cc1.Out

open Ucc.Lib

/-! ## Types -/

/-- The sizes of the integer types. -/
inductive Width where
  | w8 | w16 | w32 | w64
  deriving DecidableEq, Repr

/-- The number of bits. -/
def Width.bits : Width → Nat
  | .w8 => 8
  | .w16 => 16
  | .w32 => 32
  | .w64 => 64

/-- What a pointer points to: `type_size` of it, which is an `unsigned`, whether it is
a VLA, and the number that the code of `vla_size` computes for it. -/
@[ext]
structure Elem where
  size : Nat
  isVla : Bool
  vlaSize : Integral
  lt : size < 2 ^ 32
  deriving Repr

instance : DecidableEq Elem := fun _ _ => decidable_of_iff _ Elem.ext_iff.symm

/-- The types of the values that are not floating. -/
inductive OutTy where
  | int (w : Width) (isSigned : Bool)
  | ptr (next : Elem)
  deriving DecidableEq, Repr

/-- `CHAR_BIT * type_size` -/
def OutTy.bits : OutTy → Nat
  | .int w _ => w.bits
  | .ptr _ => 64

/-- `type_is_signed`; a pointer is "unspecified", and counts as signed. -/
def OutTy.isSigned : OutTy → Bool
  | .int _ isSigned => isSigned
  | .ptr _ => true

/-- `type_nav_btype(type_intptr_t)`, and `type_long` -/
def intptrTy : OutTy := .int .w64 true

theorem one_lt_size : 1 < 2 ^ 32 := by decide

/-- `type_ptr_to(type_void)`: `type_primitive_size(type_void)` is 1. -/
def voidPtrTy : OutTy := .ptr ⟨1, false, 1, one_lt_size⟩

theorem Width.eight_le_bits (w : Width) : 8 ≤ w.bits := by cases w <;> decide

theorem Width.bits_pos (w : Width) : 0 < w.bits := by cases w <;> decide

theorem Width.bits_le (w : Width) : w.bits ≤ 64 := by cases w <;> decide

theorem OutTy.eight_le_bits (t : OutTy) : 8 ≤ t.bits := by
  cases t with
  | int w _ => exact w.eight_le_bits
  | ptr _ => simp only [OutTy.bits]; omega

theorem OutTy.bits_le (t : OutTy) : t.bits ≤ 64 := by
  cases t with
  | int w _ => exact w.bits_le
  | ptr _ => exact le_rfl

/-! ## Values -/

/-- `enum out_val_store`, with what is there when the code runs. -/
inductive OutStore where
  /-- `V_CONST_I` -/
  | constI (val : Integral)
  /-- `V_REG`: the contents of the register, and the offset -/
  | reg (held offset : Integral)
  /-- `V_REGOFF`, the same as an address -/
  | regoff (held offset : Integral)
  /-- `V_LBL`: the address of the label, and the offset -/
  | lbl (addr offset : Integral)
  /-- `V_SPILT`: the contents of the slot, which is not at the frame base -/
  | spilt (held : Integral)
  | flag (set : Bool)
  deriving DecidableEq, Repr

/-- The number that a value stands for, in the low bits. -/
def OutStore.val : OutStore → Integral
  | .constI val => val
  | .reg held offset => held + offset
  | .regoff held offset => held + offset
  | .lbl addr offset => addr + offset
  | .spilt held => held
  | .flag set => ofTruth set

/-- `struct out_val`.  The type of a `V_SPILT` is that of the value, which is what
`v_get_type` gives. -/
structure OutVal where
  ty : OutTy
  store : OutStore
  deriving DecidableEq, Repr

/-- The bits of the value, in its type. -/
def OutVal.bits (v : OutVal) : BitVec v.ty.bits := v.store.val.setWidth _

/-- The value as a number of its type. -/
def OutVal.num (v : OutVal) : Int := readAs v.ty.isSigned v.bits

/-- `out_new_l` -/
def outNewL (ty : OutTy) (val : Integral) : OutVal := ⟨ty, .constI val⟩

/-- A register that holds a number. -/
def inReg (ty : OutTy) (val : Integral) : OutVal := ⟨ty, .reg val 0⟩

/-- `V_CONST_I`, and its number. -/
def OutVal.constI? (v : OutVal) : Option Integral :=
  match v.store with
  | .constI val => some val
  | _ => none

/-- `V_REG` or `V_LBL` -/
def OutVal.isRegOrLbl (v : OutVal) : Bool :=
  match v.store with
  | .reg _ _ | .lbl _ _ => true
  | _ => false

/-- `V_LBL` -/
def OutVal.isLbl (v : OutVal) : Bool :=
  match v.store with
  | .lbl _ _ => true
  | _ => false

/-! ## Operands of an instruction -/

/-- The options that the operators look at: `cc1_fopt.const_fold`,
`cc1_fopt.symbol_arith`, `FOPT_PIC`, and whether the sanitizers of signed or of
pointer overflow are on. -/
structure OutOpts where
  constFold : Bool
  symbolArith : Bool
  pic : Bool
  sanitize : Bool
  deriving DecidableEq, Repr

/-- `v_to` with `TO_REG` -/
def OutVal.toReg (v : OutVal) : OutVal := inReg v.ty v.store.val

/-- `v_to` with `TO_REG | TO_CONST` -/
def OutVal.toRegConst (v : OutVal) : OutVal :=
  match v.store with
  | .constI _ => v
  | _ => v.toReg

/-- `v_to` with `TO_REG | TO_MEM` -/
def OutVal.toRegMem (v : OutVal) : OutVal :=
  match v.store with
  | .lbl _ _ | .regoff _ _ => v
  | _ => v.toReg

/-- `v_to` with `TO_REG | TO_MEM | TO_CONST` -/
def OutVal.toRegMemConst (v : OutVal) : OutVal :=
  match v.store with
  | .constI _ => v
  | _ => v.toRegMem

/-- The type as `integral_high_bit` reads it. -/
def OutTy.intTy (t : OutTy) : IntTy :=
  .int (t.bits / 8) t.isSigned (by have := t.eight_le_bits; omega) (by have := t.bits_le; omega)

/-- `x86_check_ivfp`: a constant of 32 or more bits is moved to a register. -/
def OutVal.checkIvfp (v : OutVal) : OutVal :=
  match v.store with
  | .constI val => if 31 ≤ integralHighBit true val v.ty.intTy then inReg v.ty val else v
  | _ => v

/-- The kinds in the table of `impl_op`. -/
inductive OperandKind where
  | reg | lbl | spilt | constI
  deriving DecidableEq, Repr

/-- `OP_MATCH`: a register or a slot with no offset. -/
def OutVal.matchesKind (v : OutVal) : OperandKind → Bool
  | .reg => match v.store with
      | .reg _ offset => offset = 0
      | _ => false
  | .lbl => v.isLbl
  | .spilt => false
  | .constI => v.constI?.isSome

/-- `ops`: "try in order of most 'difficult' -> least" -/
def operandKinds : List (OperandKind × OperandKind) :=
  [(.reg, .constI), (.lbl, .constI), (.spilt, .constI), (.reg, .lbl), (.lbl, .reg),
    (.spilt, .reg), (.reg, .spilt), (.reg, .reg)]

/-- `op_is_commutative`; it is never asked of `op_unknown`. -/
def opIsCommutative : OpType → Bool
  | .multiply | .plus | .xor | .or | .and | .eq | .ne | .signbit | .noSignbit => true
  | _ => false

/-- The search in the table: whether the operands are swapped, if they are in it. -/
def needSwap (op : OpType) (l r : OutVal) : Option Bool :=
  operandKinds.findSome? fun (a, b) =>
    if l.matchesKind a && r.matchesKind b then some false
    else if opIsCommutative op && r.matchesKind a && l.matchesKind b then some true
    else none

/-- The operands of an instruction of the arithmetic unit; the left one is written
to. -/
def aluOperands (o : OutOpts) (op : OpType) (l r : OutVal) : OutVal × OutVal :=
  let (l, r) := match needSwap op l r with
    | some true => (r, l)
    | some false => (l, r)
    | none =>
        -- "try to keep rhs as const"
        let l := l.toRegMem
        let r := r.toRegMemConst
        (l, if l.isLbl && r.isLbl then r.toReg else r)
  -- "pic mode - can't have direct memory references in add, etc"
  if o.pic then (l.toReg, r.toRegConst) else (l, r)

/-- The operand is a register, which is what an instruction can write to. -/
def OutVal.isReg (v : OutVal) : Bool :=
  match v.store with
  | .reg _ _ => true
  | _ => false

/-- The operand that is read is printed as the value. -/
def OutVal.readable (v : OutVal) : Bool :=
  match v.store with
  | .regoff _ _ => false
  | _ => true

/-! ## Instructions -/

/-- The number of a value in 64 bits, `impl_cast_load`. -/
def OutVal.extended (v : OutVal) : Integral := extend v.ty.isSigned 64 v.bits

/-- `maybe_promote` -/
def promoteOperands (l r : OutVal) : OutVal × OutVal :=
  if l.ty.bits < r.ty.bits then (inReg r.ty l.extended, r)
  else if r.ty.bits < l.ty.bits then (l, inReg l.ty r.extended)
  else (l, r)

/-- The operations of the arithmetic unit. -/
def aluWords {w : Nat} (op : OpType) (a b : BitVec w) : BitVec w :=
  match op with
  | .multiply => a * b
  | .plus => a + b
  | .minus => a - b
  | .xor => a ^^^ b
  | .or => a ||| b
  | .and => a &&& b
  | _ => 0

/-- An instruction of the arithmetic unit. -/
def implAlu (o : OutOpts) (op : OpType) (l r : OutVal) : Option OutVal :=
  let (l, r) := aluOperands o op l r
  if l.isReg && r.readable then
    let (l, r) := promoteOperands l r
    some (inReg l.ty (aluWords op l.store.val r.store.val))
  else none

/-- A shift of a word. -/
def shiftWords {w : Nat} (s : Bool) (op : OpType) (a : BitVec w) (count : Nat) : BitVec w :=
  if op = .shiftl then a <<< count else shrWords s a count

/-- `x86_shift`: the count is an immediate or in `%cl`, and masked by the
processor. -/
def x86Shift (op : OpType) (l r : OutVal) : Option OutVal :=
  let l := l.toRegMem
  if l.isReg then
    let count := r.store.val.toNat % 256 % (if l.ty.bits = 64 then 64 else 32)
    some (inReg l.ty ((shiftWords l.ty.isSigned op l.bits count).setWidth 64))
  else none

/-- A division of a word, or its remainder; `none` is a trap. -/
def idivWords {w : Nat} (s : Bool) (op : OpType) (a b : BitVec w) : Option (BitVec w) :=
  if b = 0 ∨ (s ∧ a = BitVec.intMin w ∧ b = -1) then none
  else some (if op = .modulus then remWords s a b else divWords s a b)

/-- `x86_idiv` can divide by a value of this type: a signed `char` or `short` is
asserted not to be divided, and a byte would be divided together with the one above
it. -/
def OutTy.divides (t : OutTy) : Bool := !(t.isSigned && t.bits < 32) && t.bits != 8

/-- `x86_idiv`: the signedness and the size are those of the right operand. -/
def x86Idiv (op : OpType) (l r : OutVal) : Option OutVal :=
  let r := r.toRegMem
  if r.isReg && r.ty.divides then
    (idivWords r.ty.isSigned op (l.store.val.setWidth r.ty.bits) r.bits).map fun res =>
      inReg l.ty (res.setWidth 64)
  else none

/-- A comparison of two words. -/
def compareWords {w : Nat} (isSigned : Bool) (op : OpType) (a b : BitVec w) : Bool :=
  match op with
  | .eq => a == b
  | .ne => a != b
  | .le => if isSigned then a.sle b else a.ule b
  | .lt => if isSigned then a.slt b else a.ult b
  | .ge => if isSigned then b.sle a else b.ule a
  | .gt => if isSigned then b.slt a else b.ult a
  | _ => false

/-- A comparison of `impl_op`, whose result is a flag. -/
def implCompare (op : OpType) (l r : OutVal) : OutVal :=
  let isSigned := l.ty.isSigned
  let (l, r) := promoteOperands l r
  ⟨.int .w8 false,
    .flag (compareWords isSigned op l.bits ((r.store.val.setWidth _ : BitVec l.ty.bits)))⟩

/-- `impl_op`, of the operators of integers and pointers. -/
def implOp (o : OutOpts) (op : OpType) (l r : OutVal) : Option OutVal :=
  let l := l.checkIvfp
  let r := r.checkIvfp
  match op with
  | .multiply | .plus | .minus | .xor | .or | .and => implAlu o op l r
  | .shiftl | .shiftr => x86Shift op l r
  | .divide | .modulus => x86Idiv op l r
  | .eq | .ne | .le | .lt | .ge | .gt => some (implCompare op l r)
  | .signbit | .noSignbit | .orsc | .andsc | .not | .bnot | .unknown => none

/-! ## `out_op` -/

/-- `calc_ptr_step`, which is an `int`; -1 is for a VLA. -/
def calcPtrStep : OutTy → Int
  | .int _ _ => 1
  | .ptr next => if next.isVla then -1 else (BitVec.ofNat 32 next.size).toInt

/-- `fill_if_type`: `vconst`, and whether it is the right operand. -/
def fillConst (lhs rhs : OutVal) : Option (Integral × Bool) :=
  match rhs.constI?, lhs.constI? with
  | some val, _ => some (val, true)
  | none, some val => some (val, false)
  | none, none => none

/-- `fill_if_type`: `vregp_or_lbl` -/
def fillRegOrLbl (lhs rhs : OutVal) : Option OutVal :=
  if rhs.isRegOrLbl then some rhs else if lhs.isRegOrLbl then some lhs else none

/-- An addition to `bits.regoff.offset` or to `bits.lbl.offset`. -/
def OutVal.addOffset (v : OutVal) (n : Integral) : OutVal :=
  match v.store with
  | .reg held offset => { v with store := .reg held (offset + n) }
  | .lbl addr offset => { v with store := .lbl addr (offset + n) }
  | _ => v

/-- `try_mem_offset` -/
def tryMemOffset (o : OutOpts) (op : OpType) (lhs rhs : OutVal) : Option OutVal :=
  match fillConst lhs rhs, fillRegOrLbl lhs rhs with
  | some (val, constIsRhs), some v =>
      -- "if it's a minus, we enforce an order"
      if (op = .plus ∨ (op = .minus ∧ constIsRhs)) ∧ (v.isLbl = false ∨ o.symbolArith) ∧
          calcPtrStep v.ty ≠ -1 then
        some (v.addOffset
          ((if op = .minus then -1 else 1) * val * BitVec.ofInt 64 (calcPtrStep v.ty)))
      else none
  | _, _ => none

/-- `const_is_noop` -/
def constIsNoop (op : OpType) (val : Integral) (isLhs : Bool) : Bool :=
  match op with
  | .plus | .or | .xor => val = 0
  -- "if we're shifting 0, or shifting _by_ zero, noop"
  | .shiftl | .shiftr => val = 0
  | .multiply => val = 1
  | .and => val = -1
  | .minus => !isLhs && val = 0
  | .divide => !isLhs && val = 1
  | _ => false

/-- What comes before the instruction: the compiler stops, a result, or nothing. -/
inductive Early where
  | stop
  | ret (v : OutVal)
  | go
  deriving DecidableEq, Repr

/-- `try_const_fold` -/
def tryConstFold (op : OpType) (ty : OutTy) (l r : Integral) : Early :=
  match constOpExecOf l (some r) op (ty.bits / 8) ty.isSigned with
  | .ok val => .ret (outNewL ty val)
  | .error (.error _) => .go
  | .error .ice => .stop

/-- The constant folding of `out_op`. -/
def constFolding (o : OutOpts) (op : OpType) (lhs rhs : OutVal) : Early :=
  if o.constFold then
    match lhs.constI?, rhs.constI? with
    | some l, some r =>
        -- "currently we bail if something like (short *)0 + 2 is attempted"
        if calcPtrStep lhs.ty = 1 ∧ calcPtrStep rhs.ty = 1 then tryConstFold op lhs.ty l r
        else .go
    | some l, none => if constIsNoop op l true then .ret rhs else .go
    | none, some r => if constIsNoop op r false then .ret lhs else .go
    | none, none => .go
  else .go

/-- `ispow2` -/
def ispow2 (v : Integral) : Bool := v != 0 && (v &&& (v - 1)) == 0

/-- `log2ll`, of a number that is not 0. -/
def log2ll (v : Integral) : Integral := BitVec.ofNat 64 v.toNat.log2

/-- `try_shift_conv` -/
def tryShiftConv (op : OpType) (lhs rhs : OutVal) : OpType × OutVal × OutVal :=
  if lhs.ty.isSigned then (op, lhs, rhs)
  else if op = .divide then
    match rhs.constI? with
    | some k => if ispow2 k then (.shiftr, lhs, outNewL rhs.ty (log2ll k)) else (op, lhs, rhs)
    | none => (op, lhs, rhs)
  else if op = .multiply then
    match lhs.constI?, rhs.constI? with
    -- "need to swap as shift expects the constant to be rhs"
    | some k, _ => if ispow2 k then (.shiftl, rhs, outNewL lhs.ty (log2ll k)) else (op, lhs, rhs)
    | none, some k =>
        if ispow2 k then (.shiftl, lhs, outNewL rhs.ty (log2ll k)) else (op, lhs, rhs)
    | none, none => (op, lhs, rhs)
  else (op, lhs, rhs)

/-- `try_trunc_conv` -/
def tryTruncConv (op : OpType) (lhs rhs : OutVal) : OpType × OutVal × OutVal :=
  if lhs.ty.isSigned then (op, lhs, rhs)
  else
    match rhs.constI? with
    -- "x % n == x & (n - 1) [when n is a power of 2]"
    | some k => if ispow2 k then (.and, lhs, outNewL rhs.ty (k - 1)) else (op, lhs, rhs)
    | none => (op, lhs, rhs)

/-- The rewriting of an operator that is not `+` or `-`. -/
def rewriteOp (o : OutOpts) (op : OpType) (lhs rhs : OutVal) : OpType × OutVal × OutVal :=
  match op with
  | .multiply | .divide =>
      if (fillConst lhs rhs).isSome && !o.sanitize then tryShiftConv op lhs rhs
      else (op, lhs, rhs)
  | .modulus => if (fillConst lhs rhs).isSome then tryTruncConv op lhs rhs else (op, lhs, rhs)
  | _ => (op, lhs, rhs)

/-- `vla_size`, a `long` that is loaded. -/
def vlaSizeOf (next : Elem) : OutVal := inReg intptrTy next.vlaSize

/-- `is_val_ptr` -/
def isValPtr (v : OutVal) : Option Elem :=
  match v.ty with
  | .ptr next => some next
  | .int _ _ => none

/-- A call of `out_op`. -/
abbrev OutOpCall := OpType → OutVal → OutVal → Option OutVal

/-- The scaling of an integer in `apply_ptr_step`. -/
def scaleIncdec (call : OutOpCall) (next : Elem) (incdec : OutVal) : Option OutVal :=
  let ptrStep := calcPtrStep (.ptr next)
  match incdec.constI? with
  | some val =>
      if ptrStep = -1 then call .multiply incdec (vlaSizeOf next)
      else some (outNewL incdec.ty (val * BitVec.ofInt 64 ptrStep))
  | none =>
      let incdec := match incdec.store with
        | .reg _ _ => incdec
        | _ => incdec.toReg
      call .multiply incdec
        (if ptrStep = -1 then vlaSizeOf next else outNewL intptrTy (BitVec.ofInt 64 ptrStep))

/-- `apply_ptr_step`: the operands, and what to divide by. -/
def applyPtrStep (call : OutOpCall) (lhs rhs : OutVal) :
    Option (OutVal × OutVal × Option OutVal) :=
  match isValPtr lhs, isValPtr rhs with
  | none, none => some (lhs, rhs, none)
  | some next, none => (scaleIncdec call next rhs).map fun r => (lhs, r, none)
  | none, some next => (scaleIncdec call next lhs).map fun l => (l, rhs, none)
  | some next, some _ =>
      -- "difference - divide afterwards"
      let ptrStep := calcPtrStep (.ptr next)
      some (lhs, rhs, some
        (if ptrStep = -1 then vlaSizeOf next
          else outNewL voidPtrTy (BitVec.ofInt 64 ptrStep)))

/-- `out_op`, with the calls that it makes of itself. -/
def outOpWith (call : OutOpCall) (o : OutOpts) (op : OpType) (lhs rhs : OutVal) :
    Option OutVal :=
  match tryMemOffset o op lhs rhs with
  | some v => some v
  | none =>
      match constFolding o op lhs rhs with
      | .stop => none
      | .ret v => some v
      | .go =>
          match op with
          | .plus | .minus => do
              let (l, r, div) ← applyPtrStep call lhs rhs
              let result ← implOp o op l r
              match div with
              | some div => call .divide result div
              | none => some result
          | _ =>
              let (op, l, r) := rewriteOp o op lhs rhs
              implOp o op l r

/-- `out_op`.  It calls itself for a multiplication and for a division only, and these
make no calls. -/
def outOp (o : OutOpts) (op : OpType) (lhs rhs : OutVal) : Option OutVal :=
  outOpWith (outOpWith (fun _ _ _ => none) o) o op lhs rhs

end Ucc.Cc1.Out
