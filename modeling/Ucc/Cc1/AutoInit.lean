/-
  Cc1/AutoInit.lean --- the assignments that initialise an object on the stack.

  Source: decl_init_create_assignments_base, decl_init_create_assignment_from_copy,
  sue_base_for_init_assignment and decl_init_is_zero_fold in src/cc1/decl_init.c,
  const_expr_zero in src/cc1/const.c.

  An object is at an address, and the assignments are made in order.  A store to a
  bit-field changes its bits alone, `__builtin_memset` and `__builtin_memcpy` the bytes
  that they name.  An initialiser that is a compound literal is left out.
-/
import Ucc.Cc1.DataImage

set_option autoImplicit false

namespace Ucc.Cc1.Data

open Ucc.Lib

/-! ## Zeros -/

/-- `const_expr_and_zero`: the offset of an address is not looked at, and -0.0 is zero. -/
def Constant.isZero : Constant → Bool
  | .num v => v == 0
  | .fp _ double => double <<< 1 == 0
  | .addr (.num v) _ => v == 0
  | .addr (.label _) _ => false

mutual

/-- `decl_init_is_zero_fold` -/
def Init.isZero : Init → Bool
  | .scalar k => k.isZero
  | .brace inits => initsZero inits
  | .lit _ => false
  | .copy _ rangeInit => rangeInit.isZero

def initsZero : List (Option Init) → Bool
  | [] => true
  | none :: rest => initsZero rest
  | some init :: rest => init.isZero && initsZero rest

end

/-- `!init || decl_init_is_zero_fold(init, stab)` -/
def zeroInit : Option Init → Bool
  | none => true
  | some init => init.isZero

/-! ## Assignments -/

/-- One of the expressions that are joined by commas. -/
inductive Assign where
  /-- `__builtin_memset(addr, 0, size)` -/
  | zero (addr size : Nat)
  /-- a constant into a scalar -/
  | scalar (addr : Nat) (ty : ScalarType) (k : Constant)
  /-- a constant into `width` bits, from bit `pos` of memory on -/
  | bitfield (pos width : Nat) (k : Constant)
  /-- `__builtin_memcpy(dst, src, size)` -/
  | copy (dst src size : Nat)

/-- Why there are no assignments. -/
inductive AutoFault where
  /-- "copy got through assignment" -/
  | copyThrough
  /-- "zero width bitfield init in union?" -/
  | zeroWidth
  /-- "oob member init" -/
  | outOfBounds
  /-- an expression for an aggregate, or a list for a scalar -/
  | mismatch
  deriving DecidableEq

/-- `first_instance` of each `struct init_cpy`. -/
abbrev Firsts : Type := Nat → Option Nat

/-- The assignments, and the first instances after them. -/
abbrev Assigned : Type := Except AutoFault (List Assign × Firsts)

/-- One element of an array, the first instance of a range or a copy of it. -/
def assignEntry (elem : Option Init → Nat → Firsts → Assigned) (size : Nat) (di : Option Init)
    (addr : Nat) (firsts : Firsts) : Assigned :=
  match di with
  | some (.copy cpy rangeInit) =>
      match firsts cpy with
      | some last => .ok ([.copy addr last size], firsts)
      | none => elem (some rangeInit) addr (Function.update firsts cpy (some addr))
  | di => elem di addr firsts

/-- The loop over the elements of an array, the next one at `addr`. -/
def assignElems (elem : Option Init → Nat → Firsts → Assigned) (size : Nat) :
    Nat → List (Option Init) → Nat → Firsts → Assigned
  | 0, _, _, firsts => .ok ([], firsts)
  | n + 1, inits, addr, firsts => do
      let (this, firsts) ← assignEntry elem size (inits.headD none) addr firsts
      let (more, firsts) ← assignElems elem size n inits.tail (addr + size) firsts
      .ok (this ++ more, firsts)

/-- The assignment to a bit-field of the object at `addr`. -/
def BitfieldDecl.assign (b : BitfieldDecl) (init : Option Init) (addr : Nat) :
    Except AutoFault (List Assign) :=
  if zeroInit init then .ok [.zero (addr + b.place.structOffset) b.ty.size]
  else match init with
    | some (.scalar k) =>
        .ok [.bitfield (8 * (addr + b.place.structOffset) + b.place.structOffsetBitfield) b.width k]
    | some (.copy _ _) => .error .copyThrough
    | _ => .error .mismatch

mutual

/-- `decl_init_create_assignments_base`, for the object at `addr`. -/
def ObjType.createAssignments (arch : Arch) :
    ObjType → Option Init → Nat → Firsts → Assigned
  | .scalar s, init, addr, firsts =>
      if zeroInit init then .ok ([.zero addr (s.size arch)], firsts)
      else match init with
        | some (.scalar k) => .ok ([.scalar addr s k], firsts)
        | some (.copy _ _) => .error .copyThrough
        | _ => .error .mismatch
  | .array elem len, init, addr, firsts =>
      if zeroInit init then .ok ([.zero addr (len * elem.size arch % 2 ^ 32)], firsts)
      else match init with
        | some (.brace inits) =>
            assignElems (elem.createAssignments arch) (elem.size arch) len inits addr firsts
        | some (.copy _ _) => .error .copyThrough
        | _ => .error .mismatch
  | .sue su ms, init, addr, firsts =>
      if zeroInit init then .ok ([.zero addr su.size], firsts)
      else match init with
        | some (.brace inits) =>
            match su.prim with
            | .struct_ => ms.assignStruct arch inits addr firsts
            | .union_ => ms.assignUnion arch su.size inits addr firsts
        | some (.copy _ _) => .error .copyThrough
        | _ => .error .mismatch

/-- The members of a struct, with the entries from theirs on. -/
def ObjMembers.assignStruct (arch : Arch) :
    ObjMembers → List (Option Init) → Nat → Firsts → Assigned
  | .nil, _, _, firsts => .ok ([], firsts)
  | .decl d ref rest, inits, addr, firsts => do
      let (this, firsts) ←
        ref.createAssignments arch (inits.headD none) (addr + d.place.structOffset) firsts
      let (more, firsts) ← rest.assignStruct arch inits.tail addr firsts
      .ok (this ++ more, firsts)
  | .bitfield b rest, inits, addr, firsts => do
      -- 0-width bitfield
      let this ← if !b.named && b.width == 0 then .ok [] else b.assign (inits.headD none) addr
      let (more, firsts) ← rest.assignStruct arch inits.tail addr firsts
      .ok (this ++ more, firsts)

/-- The first member of a union that has an entry. -/
def ObjMembers.assignUnion (arch : Arch) (size : Nat) :
    ObjMembers → List (Option Init) → Nat → Firsts → Assigned
  | .nil, inits, addr, firsts =>
      if inits.all Option.isNone then .ok ([.zero addr size], firsts) else .error .outOfBounds
  | .decl d ref rest, inits, addr, firsts =>
      match inits with
      | [] => .ok ([.zero addr size], firsts)
      | none :: inits => rest.assignUnion arch size inits addr firsts
      | some init :: _ =>
          ref.createAssignments arch (some init) (addr + d.place.structOffset) firsts
  | .bitfield b rest, inits, addr, firsts =>
      match inits with
      | [] => .ok ([.zero addr size], firsts)
      | none :: inits => rest.assignUnion arch size inits addr firsts
      | some init :: _ =>
          if !b.named && b.width == 0 then .error .zeroWidth
          else do
            let this ← b.assign (some init) addr
            .ok (this, firsts)

end

/-! ## Memory -/

/-- Memory, bit by bit. -/
abbrev Bits : Type := Nat → Bool

/-- `width` bits from bit `pos` on have the bits of `v`. -/
def Bits.put (m : Bits) (pos width : Nat) (v : Nat → Bool) : Bits :=
  fun k => if pos ≤ k ∧ k < pos + width then v (k - pos) else m k

/-- The integer that a constant is in a bit-field. -/
def Constant.bits (symbols : String → Integral) : Constant → Integral
  | .num v => v
  | .addr base offset => base.value symbols + offset
  | .fp _ double => double

/-- An assignment is made. -/
def Assign.exec (arch : Arch) (symbols : String → Integral) (m : Bits) : Assign → Bits
  | .zero addr size => m.put (8 * addr) (8 * size) fun _ => false
  | .scalar addr ty k =>
      m.put (8 * addr) (8 * ty.size arch) fun i => (k.value symbols ty).getLsbD i
  | .bitfield pos width k => m.put pos width fun i => (k.bits symbols).getLsbD i
  | .copy dst src size => m.put (8 * dst) (8 * size) fun i => m (8 * src + i)

/-- Assignments are made in order. -/
def execAll (arch : Arch) (symbols : String → Integral) (m : Bits) (as : List Assign) : Bits :=
  as.foldl (Assign.exec arch symbols) m

end Ucc.Cc1.Data
