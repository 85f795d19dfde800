/-
  Cc1/AsmInit.lean --- the data that is emitted for an initialiser.

  Source: asm_declare_init, static_val, asm_out_fp, asm_declare_pad,
  asm_declare_init_bitfields, bitfields_out and bitfields_add in src/cc1/out/asm.c,
  integral_str in src/cc1/num.c, type_size in src/cc1/type.c.

  A type is one that has been folded: every member of a struct or a union has its
  offset with it.  An initialiser is one that decl_init.c has braced up: an entry for
  each member, `none` for `DYNARRAY_NULL` and after the last one.  Arrays without a
  size are left out, and the texts of comments.
-/
import Ucc.Cc1.CastFold
import Ucc.Cc1.Storage
import Ucc.Lib.Image

set_option autoImplicit false

namespace Ucc.Cc1.Data

open Ucc.Lib

/-! ## Types -/

/-- A scalar type.  Integers, pointers and enums have `2 ^ log` bytes. -/
inductive ScalarType where
  | integral (log : Nat) (le : log ≤ 3) (isSigned : Bool)
  | float
  | double
  | ldouble

/-- `type_primitive_size` -/
def ScalarType.size (arch : Arch) : ScalarType → Nat
  | .integral log _ _ => 2 ^ log
  | .float => 4
  | .double => match arch with
    | .bits32 => 4
    | .bits64 => 8
  | .ldouble => match arch with
    | .bits32 => 12
    | .bits64 => 16

/-- The declaration of a bit-field, after `fold_sue`.  One with a name has a width. -/
structure BitfieldDecl where
  named : Bool
  ty : BfType
  width : Nat
  le : width ≤ 8 * ty.size
  pos : named = true → width ≠ 0
  packed : Bool
  place : Placement

/-- The declaration of an ordinary member, after `fold_sue`; its type apart. -/
structure MemberDecl where
  align : Align
  packed : Bool
  place : Placement

/-- `struct_union_enum_st`, after `fold_sue`; its members apart. -/
structure SueDecl where
  prim : SuePrimitive
  packed : Bool
  aligned : Option Align
  size : Nat
  align : Nat
  lt : size < 2 ^ 32

mutual

/-- The type of an object. -/
inductive ObjType where
  | scalar (s : ScalarType)
  | array (elem : ObjType) (len : Nat)
  | sue (su : SueDecl) (members : ObjMembers)

/-- The members of a struct or a union. -/
inductive ObjMembers where
  | nil
  | decl (d : MemberDecl) (ref : ObjType) (rest : ObjMembers)
  | bitfield (b : BitfieldDecl) (rest : ObjMembers)

end

/-- Induction over the types that a type is made of. -/
theorem ObjType.induct {P : ObjType → Prop} {Q : ObjMembers → Prop}
    (scalar : ∀ s, P (.scalar s)) (array : ∀ elem len, P elem → P (.array elem len))
    (sue : ∀ su ms, Q ms → P (.sue su ms)) (nil : Q .nil)
    (decl : ∀ d ref rest, P ref → Q rest → Q (.decl d ref rest))
    (bitfield : ∀ b rest, Q rest → Q (.bitfield b rest)) (t : ObjType) : P t :=
  @ObjType.rec P Q scalar array sue nil decl bitfield t

/-- Induction over a list of members. -/
theorem ObjMembers.induct {Q : ObjMembers → Prop} (nil : Q .nil)
    (decl : ∀ d ref rest, Q rest → Q (.decl d ref rest))
    (bitfield : ∀ b rest, Q rest → Q (.bitfield b rest)) (ms : ObjMembers) : Q ms :=
  @ObjMembers.rec (fun _ => True) Q (fun _ => trivial) (fun _ _ _ => trivial)
    (fun _ _ _ => trivial) nil (fun d ref rest _ => decl d ref rest) bitfield ms

/-- `type_size` -/
def ObjType.size (arch : Arch) : ObjType → Nat
  | .scalar s => s.size arch
  | .array elem len => len * elem.size arch % 2 ^ 32
  | .sue su _ => su.size

theorem ScalarType.size_lt (arch : Arch) (s : ScalarType) : s.size arch < 2 ^ 32 := by
  cases s with
  | integral log le isSigned =>
    have hle : 2 ^ log ≤ 2 ^ 3 := Nat.pow_le_pow_right (by decide) le
    show 2 ^ log < 2 ^ 32
    omega
  | float => exact (by decide : 4 < 2 ^ 32)
  | double => cases arch <;> decide
  | ldouble => cases arch <;> decide

theorem ObjType.size_lt (arch : Arch) (t : ObjType) : t.size arch < 2 ^ 32 := by
  cases t with
  | scalar s => exact s.size_lt arch
  | array elem len => exact Nat.mod_lt _ (by decide)
  | sue su ms => exact su.lt

/-- What `fold_sue` reads of the members. -/
def ObjMembers.members (arch : Arch) : ObjMembers → List Member
  | .nil => []
  | .decl d ref rest =>
      ⟨.normal (ref.size arch) d.align (ref.size_lt arch), d.packed⟩ :: rest.members arch
  | .bitfield b rest => ⟨.bitfield b.ty b.width b.le, b.packed⟩ :: rest.members arch

/-- What `fold_sue` has written into them. -/
def ObjMembers.placements : ObjMembers → List Placement
  | .nil => []
  | .decl d _ rest => d.place :: rest.placements
  | .bitfield b rest => b.place :: rest.placements

/-- A struct or a union as `fold_sue` is given it. -/
def SueDecl.toSue (su : SueDecl) (members : List Member) : Sue :=
  ⟨su.prim, su.packed, su.aligned, members⟩

mutual

/-- `fold_sue` has been over every struct and union of the type. -/
def ObjType.Folded (arch : Arch) : ObjType → Prop
  | .scalar _ => True
  | .array elem _ => elem.Folded arch
  | .sue su ms =>
      foldSue arch (su.toSue (ms.members arch)) = .ok ⟨ms.placements, su.size, su.align⟩ ∧
        ms.Folded arch

def ObjMembers.Folded (arch : Arch) : ObjMembers → Prop
  | .nil => True
  | .decl _ ref rest => ref.Folded arch ∧ rest.Folded arch
  | .bitfield _ rest => rest.Folded arch

end

/-! ## Initialisers -/

/-- What is known of an address: a number, or a label. -/
inductive Operand where
  | num (v : Integral)
  | label (lbl : String)
  deriving DecidableEq

/-- `consty`, for a constant.  A floating constant comes with the bits that
`impl_fp_bits` gives for it as a `float` and as a `double`. -/
inductive Constant where
  | num (v : Integral)
  | fp (single : BitVec 32) (double : Integral)
  | addr (base : Operand) (offset : Integral)
  deriving DecidableEq

/-- `decl_init`.  `lit` is a brace with nothing in it but a compound literal of the
struct or union that it initialises, with the entries of the literal.  `copy` stands
for each element of a range, which has its own `struct init_cpy`. -/
inductive Init where
  | scalar (k : Constant)
  | brace (inits : List (Option Init))
  | lit (inits : List (Option Init))
  | copy (cpy : Nat) (rangeInit : Init)

/-- An entry of an array, with a copy resolved. -/
def Init.resolve : Option Init → Option Init
  | some (.copy _ rangeInit) => some rangeInit
  | init => init

/-! ## Directives -/

/-- A directive of the assembler: zeros, or a number of `size` bytes. -/
inductive Directive where
  | space (n : Nat)
  | value (size : Nat) (base : Operand) (offset : Integral)
  deriving DecidableEq

/-- The number that is assembled, with the addresses of the labels. -/
def Operand.value (symbols : String → Integral) : Operand → Integral
  | .num v => v
  | .label lbl => symbols lbl

/-- The bytes of a directive, on a little-endian machine. -/
def Directive.bytes (symbols : String → Integral) : Directive → List (BitVec 8)
  | .space n => List.replicate n 0
  | .value size base offset => leBytes size (base.value symbols + offset)

/-- The bytes of a list of directives. -/
def assemble (symbols : String → Integral) (ds : List Directive) : List (BitVec 8) :=
  ds.flatMap (Directive.bytes symbols)

/-- Why nothing is emitted. -/
inductive InitFault where
  /-- "unbraced struct", "brace init expected" -/
  | unbraced
  /-- "scalar init expected", "mismatching init types" -/
  | notScalar
  /-- "negative struct pad" -/
  | negativePad
  /-- "no asm type index for byte size" -/
  | noDirective
  /-- "bad float type", "TODO" -/
  | badFloat
  /-- a bit-field's value is no integer -/
  | notIntegral
  /-- the entries of an array or a union are read through a null pointer -/
  | nullInits
  /-- no member of a union has the index of its entry -/
  | noMember
  /-- bit-fields to emit, but no first one -/
  | noGroup
  /-- a fault of `type_primitive_not_less_than_size` -/
  | sue (f : SueFault)
  deriving DecidableEq

/-- What the emission depends on. -/
structure Target where
  arch : Arch
  castWBuiltinTypes : Bool

/-- `asm_declare_pad` -/
def asmDeclarePad (pad : Nat) : List Directive := if pad = 0 then [] else [.space pad]

/-- The rest of an object of `size` bytes, in `unsigned`. -/
def padRest (size sub : Nat) : List Directive := asmDeclarePad ((size + 2 ^ 32 - sub) % 2 ^ 32)

/-- `asm_declare_init_type`: the size of the directive for a type of this size. -/
def asmDeclareInitType (size : Nat) : Except InitFault Nat :=
  if size = 1 ∨ size = 2 ∨ size = 4 ∨ size = 8 then .ok size else .error .noDirective

/-- `integral_str` -/
def integralStr (tg : Target) (v : Integral) (size : Nat) (isSigned : Bool) : Integral :=
  let (v', sv) := integralTruncate tg.castWBuiltinTypes v size
  if isSigned then sv else v'

/-- `asm_out_fp` -/
def asmOutFp (ty : ScalarType) (single : BitVec 32) (double : Integral) :
    Except InitFault (List Directive) :=
  match ty with
  | .float => .ok [.value 4 (.num (single.setWidth 64)) 0]
  | .double => .ok [.value 8 (.num double) 0]
  | .ldouble | .integral _ _ _ => .error .badFloat

/-- `type_is_signed` -/
def ScalarType.isSigned : ScalarType → Bool
  | .integral _ _ isSigned => isSigned
  | .float | .double | .ldouble => true

/-- `static_val` -/
def staticVal (tg : Target) (ty : ScalarType) : Constant → Except InitFault (List Directive)
  | .fp single double => asmOutFp ty single double
  | .num v => do
      let size ← asmDeclareInitType (ty.size tg.arch)
      .ok [.value size (.num (integralStr tg v (ty.size tg.arch) ty.isSigned)) 0]
  | .addr base offset => do
      let size ← asmDeclareInitType (ty.size tg.arch)
      .ok [.value size base offset]

/-! ## Bit-fields -/

/-- `struct bitfield_val` -/
structure BitfieldVal where
  val : Integral
  offset : Nat
  width : Nat
  deriving DecidableEq

/-- The number that holds a group of bit-fields. -/
def groupValue (tg : Target) (vals : List BitfieldVal) : Integral :=
  vals.foldl
    (fun v b => v ||| ((integralTruncateBits tg.castWBuiltinTypes b.val b.width).1 <<< b.offset)) 0

/-- `asm_declare_init_bitfields` -/
def asmDeclareInitBitfields (tg : Target) (vals : List BitfieldVal) (size : Nat) :
    Except InitFault (List Directive) :=
  if (vals.map BitfieldVal.width).sum > 0 then do
    let size ← asmDeclareInitType size
    .ok [.value size (.num (groupValue tg vals)) 0]
  else .ok []

/-- `bitfield_val_set`: the value of a bit-field that has no initialiser is 0. -/
def bitfieldValSet (di : Option Init) : Except InitFault Integral :=
  match di with
  | none => .ok 0
  | some (.scalar (.num v)) => .ok v
  | some (.scalar _) => .error .notIntegral
  | some _ => .error .notScalar

/-! ## Structs -/

/-- The locals of `asm_declare_init` for a struct: `firstBf` is the first of the
bit-fields that have not been emitted yet. -/
structure Walk where
  endOfLast : Nat
  bitfields : List BitfieldVal
  firstBf : Option BitfieldDecl

/-- Before the first member. -/
def Walk.init : Walk := ⟨0, [], none⟩

/-- "prev struct padding" -/
def Walk.pad (w : Walk) (structOffset : Nat) : Except InitFault (List Directive) :=
  if w.endOfLast ≤ structOffset then .ok (asmDeclarePad (structOffset - w.endOfLast))
  else .error .negativePad

/-- `decl_size_align_inc_bitfield`, the size -/
def sizeIncBitfield (tg : Target) (b : BitfieldDecl) : Except InitFault Nat :=
  match declSizeAlignIncBitfield tg.arch b.width with
  | .error f => .error (.sue f)
  | .ok (size, _) => .ok size

/-- `bitfields_out`, with the type of the first bit-field. -/
def Walk.flushRef (tg : Target) (w : Walk) : Except InitFault (List Directive) :=
  match w.firstBf with
  | none => .error .noGroup
  | some f => asmDeclareInitBitfields tg w.bitfields f.ty.size

/-- `bitfields_out`, with `decl_type_for_bitfield` of the first bit-field. -/
def Walk.flushSmall (tg : Target) (w : Walk) : Except InitFault (List Directive) :=
  match w.firstBf with
  | none => .error .noGroup
  | some f => do
      let size ← sizeIncBitfield tg f
      asmDeclareInitBitfields tg w.bitfields size

/-- A member that is no bit-field, up to its own initialiser.  The padding in front of
it comes before the bit-fields that are still to be emitted. -/
def Walk.decl (tg : Target) (w : Walk) (d : MemberDecl) (size : Nat) :
    Except InitFault (List Directive × Walk) := do
  let pad ← w.pad d.place.structOffset
  let flush ← if w.bitfields ≠ [] then w.flushSmall tg else .ok []
  .ok (pad ++ flush,
    ⟨(d.place.structOffset + size) % 2 ^ 32, [], if w.bitfields ≠ [] then none else w.firstBf⟩)

/-- A bit-field. -/
def Walk.bitfield (tg : Target) (w : Walk) (b : BitfieldDecl) (di : Option Init) :
    Except InitFault (List Directive × Walk) := do
  -- only pad if we're not on a bitfield or we're on the first bitfield
  let pad ← if w.firstBf.isNone then w.pad b.place.structOffset else .ok []
  let opens := w.firstBf.isNone || b.place.firstBitfield
  let flush ← if opens && w.firstBf.isSome then w.flushRef tg else .ok []
  let w : Walk :=
    if opens then
      { w with
        bitfields := if w.firstBf.isNone then w.bitfields else []
        firstBf := if b.width = 0 then none else some b }
    else w
  let w : Walk ←
    if b.width = 0 then .ok w
    else do
      let val ← bitfieldValSet di
      .ok { w with bitfields := w.bitfields ++ [⟨val, b.place.structOffsetBitfield, b.width⟩] }
  let w : Walk ←
    if b.place.firstBitfield then do
      let size ← sizeIncBitfield tg b
      .ok { w with endOfLast := (b.place.structOffset + size) % 2 ^ 32 }
    else .ok w
  .ok (pad ++ flush, w)

/-- After the last member. -/
def Walk.finish (tg : Target) (size : Nat) (w : Walk) : Except InitFault (List Directive) := do
  let flush ← if w.bitfields ≠ [] then w.flushRef tg else .ok []
  .ok (flush ++ padRest size w.endOfLast)

/-! ## Initialisers of any type -/

/-- The loop over the elements of an array, each emitted by `elem`. -/
def asmDeclareElems (elem : Option Init → Except InitFault (List Directive)) :
    Nat → List (Option Init) → Except InitFault (List Directive)
  | 0, _ => .ok []
  | n + 1, inits => do
      let this ← elem (Init.resolve (inits.headD none))
      let more ← asmDeclareElems elem n inits.tail
      .ok (this ++ more)

mutual

/-- `asm_declare_init` -/
def ObjType.asmDeclareInit (tg : Target) :
    ObjType → Option Init → Except InitFault (List Directive)
  | .scalar s, init =>
      match init with
      | none => .ok (asmDeclarePad (s.size tg.arch))
      | some (.scalar k) => staticVal tg s k
      | some _ => .error .notScalar
  | .array elem len, init =>
      match init with
      | none => .ok (asmDeclarePad (len * elem.size tg.arch % 2 ^ 32))
      | some (.brace inits) =>
          if inits = [] ∧ 0 < len then .error .nullInits
          else asmDeclareElems (elem.asmDeclareInit tg) len inits
      | some _ => .error .unbraced
  | .sue su ms, init =>
      match init with
      | none => .ok (asmDeclarePad su.size)
      | some (.brace inits) =>
          match su.prim with
          | .struct_ => ms.asmDeclareStruct tg su.size inits .init
          | .union_ =>
              if inits = [] then .error .nullInits else ms.asmDeclareUnion tg su.size inits
      | some (.lit inits) =>
          match su.prim with
          | .struct_ => ms.asmDeclareStruct tg su.size inits .init
          -- the literal is taken for the initialiser of the first member
          | .union_ => .error .notScalar
      | some _ => .error .unbraced

/-- The members of a struct, with the entries from theirs on. -/
def ObjMembers.asmDeclareStruct (tg : Target) (size : Nat) :
    ObjMembers → List (Option Init) → Walk → Except InitFault (List Directive)
  | .nil, _, w => w.finish tg size
  | .decl d ref rest, inits, w => do
      let (before, w) ← w.decl tg d (ref.size tg.arch)
      let this ← ref.asmDeclareInit tg (inits.headD none)
      let more ← rest.asmDeclareStruct tg size inits.tail w
      .ok (before ++ this ++ more)
  | .bitfield b rest, inits, w => do
      let (before, w) ← w.bitfield tg b (inits.headD none)
      let more ← rest.asmDeclareStruct tg size inits.tail w
      .ok (before ++ more)

/-- The first member of a union that has an entry. -/
def ObjMembers.asmDeclareUnion (tg : Target) (size : Nat) :
    ObjMembers → List (Option Init) → Except InitFault (List Directive)
  | .nil, inits => if inits.all Option.isNone then .ok (padRest size 0) else .error .noMember
  | .decl _ ref rest, inits =>
      match inits with
      | [] => .ok (padRest size 0)
      | none :: inits => rest.asmDeclareUnion tg size inits
      | some init :: _ => do
          let this ← ref.asmDeclareInit tg (some init)
          .ok (this ++ padRest size (ref.size tg.arch))
  | .bitfield b rest, inits =>
      match inits with
      | [] => .ok (padRest size 0)
      | none :: inits => rest.asmDeclareUnion tg size inits
      | some init :: _ => do
          let val ← bitfieldValSet (some init)
          let this ← asmDeclareInitBitfields tg [⟨val, 0, b.width⟩] b.ty.size
          .ok (this ++ padRest size b.ty.size)

end

end Ucc.Cc1.Data
