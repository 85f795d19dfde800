/-
  Cc1/DataImage.lean --- what the data of an initialiser is to be.

  Source: decl_init_brace_up_array2, decl_init_brace_up_sue2,
  decl_init_brace_up_aggregate and decl_init_is_struct_copy in src/cc1/decl_init.c.

  `Normal` says which initialisers are braced up for a type.  `Occurs` places the
  value of each member at its offset, bit by bit, and zeros everywhere else.
-/
import Ucc.Cc1.AsmInit
import Ucc.Cc1.Overlap

set_option autoImplicit false

namespace Ucc.Cc1.Data

open Ucc.Lib

/-! ## Initialisers that have been braced up -/

/-- The constants of a scalar type. -/
def Constant.FitsIn : Constant → ScalarType → Prop
  | .num _, .integral _ _ _ => True
  | .addr _ _, .integral _ _ _ => True
  | .fp _ _, .float => True
  | .fp _ _, .double => True
  | .fp _ _, .ldouble => True
  | _, _ => False

/-- The entry of a bit-field: none where it has no name. -/
def BitfieldDecl.Normal (b : BitfieldDecl) (init : Option Init) : Prop :=
  init = none ∨ b.named = true ∧ ∃ v, init = some (.scalar (.num v))

/-- There is a member that can be initialised. -/
def ObjMembers.hasNamed : ObjMembers → Bool
  | .nil => false
  | .decl _ _ _ => true
  | .bitfield b rest => b.named || rest.hasNamed

mutual

/-- An initialiser as it is after it has been braced up. -/
def ObjType.Normal : ObjType → Option Init → Prop
  | .scalar s, init =>
      match init with
      | none => True
      | some (.scalar k) => k.FitsIn s
      | some _ => False
  | .array elem len, init =>
      match init with
      | none => True
      | some (.brace inits) =>
          (inits = [] → len = 0) ∧ inits.length ≤ len ∧
            ∀ i < len, elem.Normal (Init.resolve (inits.getD i none))
      | some _ => False
  | .sue su ms, init =>
      match init with
      | none => True
      | some (.brace inits) | some (.lit inits) =>
          match su.prim with
          | .struct_ => ms.NormalStruct inits
          | .union_ =>
              inits = [none] ∨ ms.NormalUnion inits ∨ inits = [] ∧ ms.hasNamed = false
      | some _ => False

/-- The entries of a struct, one for each member up to the last one given. -/
def ObjMembers.NormalStruct : ObjMembers → List (Option Init) → Prop
  | .nil, inits => inits = []
  | .decl _ ref rest, inits => ref.Normal (inits.headD none) ∧ rest.NormalStruct inits.tail
  | .bitfield b rest, inits => b.Normal (inits.headD none) ∧ rest.NormalStruct inits.tail

/-- The entries of a union: none up to the member that is initialised. -/
def ObjMembers.NormalUnion : ObjMembers → List (Option Init) → Prop
  | .nil, _ => False
  | .decl _ ref rest, inits =>
      match inits with
      | [] => False
      | none :: inits => rest.NormalUnion inits
      | some init :: inits => inits = [] ∧ ref.Normal (some init)
  | .bitfield b rest, inits =>
      match inits with
      | [] => False
      | none :: inits => rest.NormalUnion inits
      | some init :: inits => inits = [] ∧ b.Normal (some init)

end

mutual

/-- A union somewhere in the object is initialised with a compound literal. -/
def ObjType.UnionLit : ObjType → Option Init → Prop
  | .scalar _, _ => False
  | .array elem len, init =>
      match init with
      | some (.brace inits) => ∃ i < len, elem.UnionLit (Init.resolve (inits.getD i none))
      | _ => False
  | .sue su ms, init =>
      match init with
      | some (.brace inits) =>
          match su.prim with
          | .struct_ => ms.UnionLitStruct inits
          | .union_ => ms.UnionLitUnion inits
      | some (.lit inits) =>
          match su.prim with
          | .struct_ => ms.UnionLitStruct inits
          | .union_ => True
      | _ => False

def ObjMembers.UnionLitStruct : ObjMembers → List (Option Init) → Prop
  | .nil, _ => False
  | .decl _ ref rest, inits =>
      ref.UnionLit (inits.headD none) ∨ rest.UnionLitStruct inits.tail
  | .bitfield _ rest, inits => rest.UnionLitStruct inits.tail

def ObjMembers.UnionLitUnion : ObjMembers → List (Option Init) → Prop
  | .nil, _ => False
  | .decl _ ref rest, inits =>
      match inits with
      | [] => False
      | none :: inits => rest.UnionLitUnion inits
      | some init :: _ => ref.UnionLit (some init)
  | .bitfield _ rest, inits =>
      match inits with
      | [] => False
      | none :: inits => rest.UnionLitUnion inits
      | some _ :: _ => False

end

/-! ## The image of an object -/

/-- The low bits of a number, in `size` bytes from `pos` on. -/
def Holds (image : Nat → Bool) (pos size : Nat) (v : Integral) : Prop :=
  ∀ k < 8 * size, image (8 * pos + k) = v.getLsbD k

/-- The number that a constant of a scalar type stands for. -/
def Constant.value (symbols : String → Integral) (s : ScalarType) : Constant → Integral
  | .num v => v
  | .addr base offset => base.value symbols + offset
  | .fp single double => match s with
    | .float => single.setWidth 64
    | _ => double

/-- The value of a bit-field. -/
def bitfieldValue : Option Init → Integral
  | some (.scalar (.num v)) => v
  | _ => 0

/-- A bit-field is at its offset and its bit offset. -/
def BitfieldDecl.Occurs (image : Nat → Bool) (b : BitfieldDecl) (init : Option Init) (pos : Nat) :
    Prop :=
  ∀ k < b.width, image (8 * (pos + b.place.structOffset) + b.place.structOffsetBitfield + k) =
    (bitfieldValue init).getLsbD k

/-- Bit `k` of a struct belongs to this bit-field. -/
def BitfieldDecl.Covers (b : BitfieldDecl) (k : Nat) : Prop :=
  8 * b.place.structOffset + b.place.structOffsetBitfield ≤ k ∧
    k < 8 * b.place.structOffset + b.place.structOffsetBitfield + b.width

/-- Bit `k` of a struct belongs to this member, of `size` bytes. -/
def MemberDecl.Covers (d : MemberDecl) (size k : Nat) : Prop :=
  8 * d.place.structOffset ≤ k ∧ k < 8 * (d.place.structOffset + size)

/-- Bit `k` belongs to a member that has a value. -/
def ObjMembers.Covers (arch : Arch) : ObjMembers → Nat → Prop
  | .nil, _ => False
  | .decl d ref rest, k => d.Covers (ref.size arch) k ∨ rest.Covers arch k
  | .bitfield b rest, k => b.named = true ∧ b.Covers k ∨ rest.Covers arch k

/-- Bit `k` belongs to the member of a union that is initialised. -/
def ObjMembers.CoversUnion (arch : Arch) : ObjMembers → List (Option Init) → Nat → Prop
  | .nil, _, _ => False
  | .decl d ref rest, inits, k =>
      match inits with
      | [] => False
      | none :: inits => rest.CoversUnion arch inits k
      | some _ :: _ => d.Covers (ref.size arch) k
  | .bitfield b rest, inits, k =>
      match inits with
      | [] => False
      | none :: inits => rest.CoversUnion arch inits k
      | some _ :: _ => b.Covers k

mutual

/-- The object of this type at byte `pos` has the values of the initialiser in its
members, and zeros in all other bits. -/
def ObjType.Occurs (arch : Arch) (symbols : String → Integral) (image : Nat → Bool) :
    ObjType → Option Init → Nat → Prop
  | .scalar s, init, pos =>
      match init with
      | none => Holds image pos (s.size arch) 0
      | some (.scalar k) => Holds image pos (s.size arch) (k.value symbols s)
      | some _ => False
  | .array elem len, init, pos =>
      match init with
      | none => Holds image pos (len * elem.size arch % 2 ^ 32) 0
      | some (.brace inits) =>
          ∀ i < len, elem.Occurs arch symbols image (Init.resolve (inits.getD i none))
            (pos + i * elem.size arch)
      | some _ => False
  | .sue su ms, init, pos =>
      match init with
      | none => Holds image pos su.size 0
      | some (.brace inits) | some (.lit inits) =>
          match su.prim with
          | .struct_ =>
              ms.OccursStruct arch symbols image inits pos ∧
                ∀ k < 8 * su.size, ¬ ms.Covers arch k → image (8 * pos + k) = false
          | .union_ =>
              ms.OccursUnion arch symbols image inits pos ∧
                ∀ k < 8 * su.size, ¬ ms.CoversUnion arch inits k → image (8 * pos + k) = false
      | some _ => False

def ObjMembers.OccursStruct (arch : Arch) (symbols : String → Integral) (image : Nat → Bool) :
    ObjMembers → List (Option Init) → Nat → Prop
  | .nil, _, _ => True
  | .decl d ref rest, inits, pos =>
      ref.Occurs arch symbols image (inits.headD none) (pos + d.place.structOffset) ∧
        rest.OccursStruct arch symbols image inits.tail pos
  | .bitfield b rest, inits, pos =>
      (b.named = true → b.Occurs image (inits.headD none) pos) ∧
        rest.OccursStruct arch symbols image inits.tail pos

def ObjMembers.OccursUnion (arch : Arch) (symbols : String → Integral) (image : Nat → Bool) :
    ObjMembers → List (Option Init) → Nat → Prop
  | .nil, _, _ => True
  | .decl d ref rest, inits, pos =>
      match inits with
      | [] => True
      | none :: inits => rest.OccursUnion arch symbols image inits pos
      | some init :: _ =>
          ref.Occurs arch symbols image (some init) (pos + d.place.structOffset)
  | .bitfield b rest, inits, pos =>
      match inits with
      | [] => True
      | none :: inits => rest.OccursUnion arch symbols image inits pos
      | some init :: _ => b.Occurs image (some init) pos

end

/-- The data emitted for an initialiser has the size of the type and is the image of
the object, whatever the addresses of the labels. -/
def ObjType.Emits (tg : Target) (t : ObjType) (init : Option Init) : Prop :=
  ∃ ds, t.asmDeclareInit tg init = .ok ds ∧ ∀ symbols : String → Integral,
    (assemble symbols ds).length = t.size tg.arch ∧
      t.Occurs tg.arch symbols (bitAt (assemble symbols ds)) init 0

/-! ## Types whose data is emitted in place -/

/-- The bit-fields that have not been emitted: the first of them, and where the last
one with a name ends. -/
structure Group where
  first : BitfieldDecl
  top : Nat

/-- The bytes that `decl_type_for_bitfield` takes for the group. -/
def Group.small (arch : Arch) (g : Group) : Nat := reserved arch g.first.width

/-- A bit-field opens a group. -/
def BitfieldDecl.group (b : BitfieldDecl) : Group := ⟨b, if b.named then b.width else 0⟩

/-- A further bit-field of the group. -/
def Group.add (g : Group) (b : BitfieldDecl) : Group :=
  { g with top := if b.named then b.place.structOffsetBitfield + b.width else g.top }

/-- Behind the type of each group of bit-fields the next group starts at once.  Where
an ordinary member is next, it starts behind the smaller type, which has room for the
group.  The last group of a struct has a smaller type of the same size. -/
def ObjMembers.Tight (arch : Arch) : ObjMembers → Option Group → Prop
  | .nil, g => ∀ g' ∈ g, g'.small arch = g'.first.ty.size
  | .decl d _ rest, g =>
      (∀ g' ∈ g, g'.top = 0 ∨
        d.place.structOffset = g'.first.place.structOffset + g'.small arch ∧
          g'.top ≤ 8 * g'.small arch) ∧
        rest.Tight arch none
  | .bitfield b rest, g =>
      if b.width = 0 then rest.Tight arch g
      else if b.place.firstBitfield then
        (∀ g' ∈ g, b.place.structOffset = g'.first.place.structOffset + g'.first.ty.size) ∧
          rest.Tight arch (some b.group)
      else rest.Tight arch (g.map (·.add b))

/-- The layout of a struct stays below `2 ^ 32`. -/
def SueDecl.NoWrap (arch : Arch) (su : SueDecl) (ms : ObjMembers) : Prop :=
  let sue := su.toSue (ms.members arch)
  sue.sizeAt (endOf 0 (sue.acts arch)) < 2 ^ 32

instance (arch : Arch) (su : SueDecl) (ms : ObjMembers) : Decidable (su.NoWrap arch ms) :=
  inferInstanceAs (Decidable (_ < _))

mutual

/-- There is no `long double`, on a 32-bit target no `double`, no size wraps, each
struct is tight, and in each union some member can be initialised and those that can
be lie at its start and inside it. -/
def ObjType.Sound (arch : Arch) : ObjType → Prop
  | .scalar s => s ≠ .ldouble ∧ (s = .double → arch = .bits64)
  | .array elem len => (len ≠ 0 → elem.Sound arch) ∧ len * elem.size arch < 2 ^ 32
  | .sue su ms =>
      match su.prim with
      | .struct_ => su.NoWrap arch ms ∧ ms.Tight arch none ∧ ms.SoundStruct arch
      | .union_ => ms.hasNamed = true ∧ ms.SoundUnion arch su.size

def ObjMembers.SoundStruct (arch : Arch) : ObjMembers → Prop
  | .nil => True
  | .decl _ ref rest => ref.Sound arch ∧ rest.SoundStruct arch
  | .bitfield _ rest => rest.SoundStruct arch

def ObjMembers.SoundUnion (arch : Arch) (size : Nat) : ObjMembers → Prop
  | .nil => True
  | .decl _ ref rest => ref.Sound arch ∧ ref.size arch ≤ size ∧ rest.SoundUnion arch size
  | .bitfield b rest =>
      (b.named = true →
        b.place.structOffset = 0 ∧ b.place.structOffsetBitfield = 0 ∧ b.ty.size ≤ size) ∧
        rest.SoundUnion arch size

end

end Ucc.Cc1.Data
