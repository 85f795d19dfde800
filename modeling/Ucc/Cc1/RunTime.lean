/-
  Cc1/RunTime.lean --- what an operator expression is worth at run time.

  The C reading of an operator on operands that are numbers, addresses of
  objects, or contents of memory.  A value is a word, extended to 64 bits the
  way its type says; `none` stands where C gives the expression no value.  The
  addresses of the objects are only known to the linker: an `Env` is one choice
  of them, and `Admissible` says which choices are possible.
-/
import Ucc.Cc1.ConstOp

set_option autoImplicit false

namespace Ucc.Cc1

/-! ## Values of a type -/

/-- The number of value bits. -/
def CTy.bits (t : CTy) : Nat := 8 * t.size

/-- The number that a word stands for. -/
def CTy.read (t : CTy) (v : Integral) : Int := if t.isSigned then v.toInt else v.toNat

/-- The type has this number. -/
def CTy.Fits (t : CTy) (z : Int) : Prop :=
  if t.isSigned then -2 ^ (t.bits - 1) ≤ z ∧ z < 2 ^ (t.bits - 1) else 0 ≤ z ∧ z < 2 ^ t.bits

instance (t : CTy) (z : Int) : Decidable (t.Fits z) :=
  inferInstanceAs (Decidable (if t.isSigned then -2 ^ (t.bits - 1) ≤ z ∧ z < 2 ^ (t.bits - 1)
    else 0 ≤ z ∧ z < 2 ^ t.bits))

/-- The word of a type's size at the low end of `v`, extended. -/
def CTy.extend (t : CTy) (v : Integral) : Integral :=
  match t with
  | .int => (v.truncate 32).signExtend 64
  | .uint => (v.truncate 32).zeroExtend 64
  | _ => v

/-- The value of a computation in a type: signed types have no overflow,
unsigned types wrap around. -/
def CTy.wrap (t : CTy) (z : Int) : Option Integral :=
  if t.isSigned then if t.Fits z then some (BitVec.ofInt 64 z) else none
  else some (BitVec.ofInt 64 (z % 2 ^ t.bits))

/-! ## Objects and their addresses -/

/-- The objects and functions of a program, by label. -/
structure Objects where
  size : String → Nat
  weak : String → Bool
  size_pos : ∀ n, 0 < size n
  /-- `type_size` is an `unsigned` -/
  size_lt : ∀ n, size n < 2 ^ 32

/-- The addresses of the labels, and what is in memory. -/
structure Env where
  addr : String → Integral
  load : Integral → Integral

/-- The labels that a constant names. -/
def Consty.syms (k : Consty) : List String :=
  match k.bits with
  | .strk lbl => [lbl]
  | .addr (.lblTrue lbl) | .needAddr (.lblTrue lbl) => [lbl]
  | .addr (.lblWeak lbl) | .needAddr (.lblWeak lbl) => [lbl]
  | _ => []

/-- An object at this address has no byte at zero and none, nor its end, at the
top of the address space. -/
def Objects.Placed (O : Objects) (n : String) (a : Integral) : Prop :=
  0 < a.toNat ∧ a.toNat + O.size n < 2 ^ 64

/-- Two objects at these addresses have no byte in common. -/
def Objects.Apart (O : Objects) (m n : String) (a b : Integral) : Prop :=
  a.toNat + O.size m ≤ b.toNat ∨ b.toNat + O.size n ≤ a.toNat

/-- The objects that are not weak have storage of their own.  A weak label may
be zero, or the name of any other object. -/
def Env.Admissible (O : Objects) (names : List String) (ρ : Env) : Prop :=
  (∀ n ∈ names, O.weak n = false → O.Placed n (ρ.addr n)) ∧
  ∀ m ∈ names, ∀ n ∈ names, O.weak m = false → O.weak n = false → m ≠ n →
    O.Apart m n (ρ.addr m) (ρ.addr n)

/-- The address of an address constant, without its offset. -/
def Addr.value (ρ : Env) : Addr → Integral
  | .memaddr a => a
  | .lblTrue lbl | .lblWeak lbl => ρ.addr lbl

/-- The number or address that a constant stands for. -/
def Consty.value (ρ : Env) (k : Consty) : Integral :=
  match k.bits with
  | .no => 0
  | .num val _ => val + k.offset
  | .addr a | .needAddr a => a.value ρ + k.offset
  | .strk lbl => ρ.addr lbl + k.offset

/-- The value of an operand: what is in memory, for `CONST_NEED_ADDR`. -/
def Operand.value (ρ : Env) (o : Operand) : Integral :=
  match o.k.bits with
  | .needAddr _ => o.ty.extend (ρ.load (o.k.value ρ))
  | _ => o.k.value ρ

/-! ## Operators -/

/-- The integer operators, on operands of types `t` and, for the count of a
shift, `rt`. -/
def evalInt (op : OpType) (t rt : CTy) (l r : Integral) : Option Integral :=
  match op with
  | .multiply => t.wrap (t.read l * t.read r)
  | .plus => t.wrap (t.read l + t.read r)
  | .minus => t.wrap (t.read l - t.read r)
  | .divide => if t.read r = 0 then none else t.wrap ((t.read l).tdiv (t.read r))
  | .modulus =>
      if t.read r = 0 ∨ ¬ t.Fits ((t.read l).tdiv (t.read r)) then none
      else t.wrap ((t.read l).tmod (t.read r))
  | .xor => some (l ^^^ r)
  | .or => some (l ||| r)
  | .and => some (l &&& r)
  | .shiftl =>
      if rt.read r < 0 ∨ t.bits ≤ rt.read r ∨ t.read l < 0 then none
      else t.wrap (t.read l * 2 ^ (rt.read r).toNat)
  | .shiftr =>
      if rt.read r < 0 ∨ t.bits ≤ rt.read r then none
      else t.wrap (t.read l / 2 ^ (rt.read r).toNat)
  | .lt => some (ofTruth (t.read l < t.read r))
  | .le => some (ofTruth (t.read l ≤ t.read r))
  | .gt => some (ofTruth (t.read r < t.read l))
  | .ge => some (ofTruth (t.read r ≤ t.read l))
  | _ => none

/-- The operators on a pointer and another scalar.  Two pointers may be
subtracted when they are a whole number of elements apart, and ordered when
they are into one object. -/
def evalPtr (op : OpType) (lnext rnext : Option Nat) (sameObject : Bool) (l r : Integral) :
    Option Integral :=
  match op, lnext, rnext with
  | .plus, some step, none => some (l + r * BitVec.ofNat 64 step)
  | .plus, none, some step => some (l * BitVec.ofNat 64 step + r)
  | .minus, some step, none => some (l - r * BitVec.ofNat 64 step)
  | .minus, some step, some _ =>
      if (step : Int) ∣ (l - r).toInt then some (BitVec.ofInt 64 ((l - r).toInt / step)) else none
  | .lt, _, _ => if sameObject then some (ofTruth (l.ult r)) else none
  | .le, _, _ => if sameObject then some (ofTruth (l.ule r)) else none
  | .gt, _, _ => if sameObject then some (ofTruth (r.ult l)) else none
  | .ge, _, _ => if sameObject then some (ofTruth (r.ule l)) else none
  | _, _, _ => none

/-- The binary operators. -/
def evalBinary (op : OpType) (lt rt : CTy) (sameObject : Bool) (l r : Integral) :
    Option Integral :=
  match op with
  | .andsc => some (ofTruth (l != 0 && r != 0))
  | .orsc => some (ofTruth (l != 0 || r != 0))
  | .eq => some (ofTruth (l == r))
  | .ne => some (ofTruth (l != r))
  | op =>
      if lt.isPtr = none ∧ rt.isPtr = none then evalInt op lt rt l r
      else evalPtr op lt.isPtr rt.isPtr sameObject l r

/-- The result type of a binary operator on operand types that
`op_required_promotion` leaves. -/
def binaryType (op : OpType) (l r : CTy) : Option CTy :=
  match op with
  | .multiply | .divide | .modulus | .xor | .or | .and =>
      if l = r ∧ l.isPtr = none then some l else none
  | .plus =>
      match l.isPtr, r.isPtr with
      | none, none => if l = r then some l else none
      | some _, none => if r = .long then some l else none
      | none, some _ => if l = .long then some r else none
      | some _, some _ => none
  | .minus =>
      match l.isPtr, r.isPtr with
      | none, none => if l = r then some l else none
      | some _, none => if r = .long then some l else none
      | none, some _ => none
      | some _, some _ => if l = r then some .long else none
  | .shiftl | .shiftr => if l.isPtr = none ∧ r.isPtr = none then some l else none
  | .andsc | .orsc => some .int
  | .eq | .ne | .le | .lt | .ge | .gt =>
      if l = r ∨ l.isPtr.isSome ∨ r.isPtr.isSome then some .int else none
  | .not | .bnot | .signbit | .noSignbit | .unknown => none

/-- An operand whose constant is one of its type: a number is in range, an
address has a type that holds it, and a label is weak where it says so. -/
structure Operand.Wf (O : Objects) (o : Operand) : Prop where
  const : o.k.bits ≠ .no
  next : ∀ step, o.ty.isPtr = some step → 0 < step ∧ step < 2 ^ 32
  wide : o.k.atCompileTime = true → o.k.syms ≠ [] → o.ty.size = 8
  range : o.k.atCompileTime = true → o.k.syms = [] → ∀ ρ, o.ty.Fits (o.ty.read (o.k.value ρ))
  weak : ∀ c, collapseConst o.k = some c → ∀ n, c.lbl = some n → O.weak n = c.isWeak

/-- A binary operator on well-formed operands. -/
structure BinOp (O : Objects) where
  op : OpType
  lhs : Operand
  rhs : Operand
  ty : CTy
  lhs_wf : lhs.Wf O
  rhs_wf : rhs.Wf O
  typed : binaryType op lhs.ty rhs.ty = some ty

namespace BinOp

variable {O : Objects}

/-- The expression that is folded. -/
def expr (b : BinOp O) : OpExpr := ⟨b.op, b.lhs, some b.rhs, b.ty⟩

/-- The labels of an expression. -/
def syms (b : BinOp O) : List String := b.lhs.k.syms ++ b.rhs.k.syms

/-- Both operands are addresses in one object. -/
def sameObject (b : BinOp O) : Bool :=
  b.lhs.k.syms != [] && b.lhs.k.syms == b.rhs.k.syms

/-- The value of an expression at run time. -/
def eval (b : BinOp O) (ρ : Env) : Option Integral :=
  evalBinary b.op b.lhs.ty b.rhs.ty b.sameObject (b.lhs.value ρ) (b.rhs.value ρ)

/-- Whatever constant the folder gives is the value at run time, wherever the
objects are and whatever is in memory. -/
def FoldsSoundly (b : BinOp O) : Prop :=
  ∀ k, foldConstExprOp b.expr = some k → k.bits ≠ .no →
    ∀ ρ, ρ.Admissible O b.syms → ∀ v, b.eval ρ = some v → k.value ρ = v

end BinOp

end Ucc.Cc1
