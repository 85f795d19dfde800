/-
  Cc1/FoldSue.lean --- the layout of structs and unions.

  Source: src/cc1/fold_sue.c, with `pack_to_align` and `pack_next` of
  src/cc1/pack.c, `decl_type_for_bitfield` of src/cc1/decl.c and
  `type_primitive_not_less_than_size` of src/cc1/type.c.

  `unsigned long` has 64 bits and `unsigned` has 32.  A member is what the loop
  of `fold_sue` reads of a declaration: its size and alignment, or the type and
  the width of a bit-field, and whether it is packed.  Warnings, and the members
  that are dropped or that stop the compilation before the layout, are left out.
-/
import Ucc.Lib.Round

set_option autoImplicit false

namespace Ucc.Cc1

/-! ## Packing -/

/-- `pack_to_align`.  `-align` is computed in `unsigned` and widened, so the
upper half of the result is cleared. -/
def packToAlign (sz align : Nat) : Nat :=
  ((sz + align - 1) % 2 ^ 64) &&& ((2 ^ 32 - align) % 2 ^ 32)

/-- `pack_next`: the start of the member and the offset after it. -/
def packNext (offset sz align : Nat) : Nat × Nat :=
  let start := packToAlign offset align
  (start, (start + sz) % 2 ^ 64)

theorem packToAlign_eq {sz k : Nat} (hsz : sz < 2 ^ 63) (hk : k ≤ 31) :
    packToAlign sz (2 ^ k) = Lib.roundUp sz (2 ^ k) % 2 ^ 32 := by
  have hpow : 2 ^ k ≤ 2 ^ 31 := Nat.pow_le_pow_right (by omega) hk
  have hpos : 0 < 2 ^ k := Nat.two_pow_pos k
  rw [← Lib.mask_eq_roundUp (by omega) sz, packToAlign, Nat.mod_eq_of_lt (a := sz + 2 ^ k - 1),
    Nat.mod_eq_of_lt (a := 2 ^ 32 - 2 ^ k)]
  · omega
  · omega

/-! ## Members -/

/-- An alignment: a power of two that an `int` can hold. -/
structure Align where
  log : Nat
  le : log ≤ 30
  deriving DecidableEq, Repr

/-- The number of bytes of an alignment. -/
def Align.bytes (a : Align) : Nat := 2 ^ a.log

def charAlign : Align := ⟨0, by decide⟩

def intAlign : Align := ⟨2, by decide⟩

def vectorAlign : Align := ⟨4, by decide⟩

/-- The type of a bit-field: its size is that of an integer type. -/
structure BfType where
  sizeLog : Nat
  le : sizeLog ≤ 3
  align : Align
  deriving DecidableEq, Repr

/-- `type_size` of the type of a bit-field. -/
def BfType.size (ty : BfType) : Nat := 2 ^ ty.sizeLog

/-- What a member is. -/
inductive MemberKind where
  /-- an ordinary member, nested structs included -/
  | normal (size : Nat) (align : Align) (lt : size < 2 ^ 32)
  /-- an array without a size -/
  | flexArray (align : Align)
  /-- a bit-field, which is no wider than its type -/
  | bitfield (ty : BfType) (width : Nat) (le : width ≤ 8 * ty.size)
  deriving DecidableEq, Repr

def charKind : MemberKind := .normal 1 charAlign (by decide)

def intKind : MemberKind := .normal 4 intAlign (by decide)

/-- A member of a struct or a union. -/
structure Member where
  kind : MemberKind
  packed : Bool
  deriving DecidableEq, Repr

/-- `IS_32_BIT()`. -/
inductive Arch where
  | bits32
  | bits64
  deriving DecidableEq, Repr

/-- `type_primitive_size(type_ulong)`. -/
def Arch.ulongSize : Arch → Nat
  | .bits32 => 4
  | .bits64 => 8

/-- The size of `type_primitive_not_less_than_size`: the first of `ulong`,
`uint`, `ushort` and `uchar` that is no larger than `sz`. -/
def typePrimitiveNotLessThanSize (arch : Arch) (sz : Nat) : Option Nat :=
  [arch.ulongSize, 4, 2, 1].find? fun prim => decide (sz ≥ prim)

/-- The faults of `fold_sue`. -/
inductive SueFault where
  /-- an internal assertion -/
  | ice
  /-- "flexible array not at end of struct" -/
  | flexNotAtEnd
  /-- "flexible array in a union" -/
  | flexInUnion
  deriving DecidableEq, Repr

/-- The size and alignment of `decl_type_for_bitfield`, which
`decl_size_align_inc_bitfield` returns: a type with room for whole bytes of
`bits`, rounded up, but no larger than that. -/
def declSizeAlignIncBitfield (arch : Arch) (bits : Nat) : Except SueFault (Nat × Nat) :=
  let bytes := bits / 8
  let bytes := if bits % 8 ≠ 0 then bytes + 1 else bytes
  match typePrimitiveNotLessThanSize arch bytes with
  | none => .error .ice
  | some size => .ok (size, size)

/-! ## State of the loop -/

/-- The locals of `fold_sue`, with `struct bitfield_state`. -/
structure LayoutState where
  offset : Nat
  realignNext : Bool
  masterTy : Option BfType
  currentOff : Nat
  firstOff : Nat
  currentLimit : Nat
  alignMax : Nat
  szMax : Nat
  deriving DecidableEq, Repr

/-- The state before the first member. -/
def LayoutState.init : LayoutState := ⟨0, false, none, 0, 0, 0, 1, 0⟩

/-- What the layout records in a member's declaration. -/
structure Placement where
  structOffset : Nat
  structOffsetBitfield : Nat
  firstBitfield : Bool
  masterTy : Option BfType
  deriving DecidableEq, Repr

/-- `struct_pack_finish_bitfield`. -/
def structPackFinishBitfield (st : LayoutState) : LayoutState :=
  match st.masterTy with
  | none => st
  | some ty =>
      if st.offset % ty.size ≠ 0 then
        { st with offset := (st.offset + (ty.size - st.offset % ty.size)) % 2 ^ 64 }
      else st

/-- Open a new group of bit-fields. -/
def openBitfield (arch : Arch) (st : LayoutState) (ty : BfType) (bits : Nat) :
    Except SueFault (Placement × Nat × Nat × LayoutState) :=
  let st :=
    if st.realignNext || st.currentOff != 0 then
      structPackFinishBitfield { st with realignNext := false, currentOff := 0 }
    else st
  let st := { st with masterTy := some ty, currentLimit := 8 * ty.size }
  match declSizeAlignIncBitfield arch bits with
  | .error f => .error f
  | .ok (sz, align) =>
      let sz := packToAlign sz align % 2 ^ 32
      let (start, offset) := packNext st.offset sz align
      let start := start % 2 ^ 32
      .ok (⟨start, 0, true, some ty⟩, sz, ty.align.bytes,
        { st with offset := offset, firstOff := start })

/-- `fold_sue_calc_fieldwidth`: the placement of a bit-field, and the size and
alignment it adds to the struct. -/
def foldSueCalcFieldwidth (arch : Arch) (st : LayoutState) (ty : BfType) (bits : Nat) :
    Except SueFault (Placement × Nat × Nat × LayoutState) :=
  let opened :=
    if bits = 0 then
      .ok (⟨st.offset % 2 ^ 32, 0, false, none⟩, 0, 0, { st with realignNext := true })
    else if st.realignNext || st.currentOff == 0
        || decide (st.currentOff + bits > st.currentLimit) then
      openBitfield arch st ty bits
    else
      .ok (⟨st.firstOff, 0, false, st.masterTy⟩, 0, 0, st)
  match opened with
  | .error f => .error f
  | .ok (p, sz, align, st) =>
      let p := { p with structOffsetBitfield := st.currentOff }
      let st := { st with currentOff := st.currentOff + bits }
      -- exactly reached the limit, reset bitfield indexing
      let st :=
        if st.currentOff = st.currentLimit then
          structPackFinishBitfield { st with currentOff := 0 }
        else st
      .ok (p, sz, align, st)

/-- `fold_sue_apply_normal_offset`. -/
def foldSueApplyNormalOffset (st : LayoutState) (sz align : Nat) : Placement × LayoutState :=
  let (start, offset) := packNext st.offset sz align
  (⟨start % 2 ^ 32, 0, false, none⟩, { st with currentOff := 0, offset := offset })

/-- `sue->primitive`. -/
inductive SuePrimitive where
  | struct_
  | union_
  deriving DecidableEq, Repr

/-- The end of the loop body: what the member adds to the whole. -/
def LayoutState.account (st : LayoutState) (sz align : Nat) : LayoutState :=
  { st with alignMax := max st.alignMax align, szMax := max st.szMax sz }

/-- An ordinary member of a struct is placed; one of a union stays at 0. -/
def placeNormal (prim : SuePrimitive) (st : LayoutState) (sz align : Nat) :
    Placement × LayoutState :=
  let (p, st) :=
    match prim with
    | .struct_ => foldSueApplyNormalOffset st sz align
    | .union_ => (⟨0, 0, false, none⟩, st)
  (p, st.account sz align)

/-- The alignment of a member, 1 where it is packed. -/
def effectiveAlign (packed : Bool) (align : Nat) : Nat := if packed then 1 else align

/-- The body of the loop of `fold_sue`; `last` when no member follows. -/
def foldSueMember (arch : Arch) (prim : SuePrimitive) (packed last : Bool) (st : LayoutState)
    (m : Member) : Except SueFault (Placement × LayoutState) :=
  let packed := packed || m.packed
  match m.kind with
  | .normal size align _ => .ok (placeNormal prim st size (effectiveAlign packed align.bytes))
  | .flexArray align =>
      if !last then .error .flexNotAtEnd
      else if prim = .union_ then .error .flexInUnion
      else .ok (placeNormal prim st 0 (effectiveAlign packed align.bytes))
  | .bitfield ty bits _ =>
      match foldSueCalcFieldwidth arch st ty bits with
      | .error f => .error f
      | .ok (p, sz, align, st) => .ok (p, st.account sz (effectiveAlign packed align))

/-- The loop of `fold_sue`. -/
def foldSueLoop (arch : Arch) (prim : SuePrimitive) (packed : Bool) :
    LayoutState → List Member → Except SueFault (List Placement × LayoutState)
  | st, [] => .ok ([], st)
  | st, m :: ms =>
      match foldSueMember arch prim packed ms.isEmpty st m with
      | .error f => .error f
      | .ok (p, st) =>
          match foldSueLoop arch prim packed st ms with
          | .error f => .error f
          | .ok (ps, st) => .ok (p :: ps, st)

/-- A struct or a union before it is folded.  `aligned` is the largest of its
alignment attributes. -/
structure Sue where
  prim : SuePrimitive
  packed : Bool
  aligned : Option Align
  members : List Member
  deriving DecidableEq, Repr

/-- A folded struct or union. -/
structure Layout where
  placements : List Placement
  size : Nat
  align : Nat
  deriving DecidableEq, Repr

/-- `fold_get_max_align_attribute`. -/
def foldGetMaxAlignAttribute (aligned : Option Align) (min : Nat) : Nat :=
  match aligned with
  | none => min
  | some a => max min a.bytes

/-- The size and alignment after the loop. -/
def foldSueFinish (sue : Sue) (st : LayoutState) : Nat × Nat :=
  let align := st.alignMax
  let size := packToAlign (if sue.prim = .struct_ then st.offset else st.szMax) align % 2 ^ 32
  let size := packToAlign size align % 2 ^ 32
  -- `check_sue_align_attr`
  let align := foldGetMaxAlignAttribute sue.aligned align
  let size := packToAlign size align % 2 ^ 32
  (size, align)

/-- `fold_sue`, for a struct or a union. -/
def foldSue (arch : Arch) (sue : Sue) : Except SueFault Layout :=
  match foldSueLoop arch sue.prim sue.packed .init sue.members with
  | .error f => .error f
  | .ok (ps, st) =>
      let (size, align) := foldSueFinish sue st
      .ok ⟨ps, size, align⟩

end Ucc.Cc1
