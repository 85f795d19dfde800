/-
  Cc1/Storage.lean --- the storage that the members of a struct take.

  Source: src/cc1/fold_sue.c.

  Which bit-fields share storage depends on their types and widths only, not on
  any offset.  `Ctl` is the part of the loop's state that decides it, and `Act`
  is what a member does to the storage.  The loop of `fold_sue` is the run of
  these actions in machine arithmetic; `foldSueMember_spec` says so.
-/
import Ucc.Cc1.FoldSue
import Ucc.Lib.Interval

set_option autoImplicit false

namespace Ucc.Cc1

open Ucc.Lib

/-! ## What a member does to the storage -/

/-- What a member does to the storage of a struct. -/
inductive Act where
  /-- a zero-width bit-field takes no storage -/
  | none
  /-- a bit-field that joins the unit before it; the offset is then rounded up
  to `fill` -/
  | extend (bits fill : Nat)
  /-- a bit-field that opens a unit: round up to `before`, reserve `reserve`
  bytes at a multiple of their number, and round up to `fill` -/
  | unit (before reserve bits fill : Nat)
  /-- an ordinary member -/
  | member (align size : Nat)
  deriving DecidableEq, Repr

/-- The part of the state that does not depend on offsets. -/
structure Ctl where
  realignNext : Bool
  masterTy : Option BfType
  currentOff : Nat
  currentLimit : Nat
  deriving DecidableEq, Repr

/-- Before the first member. -/
def Ctl.init : Ctl := ⟨false, none, 0, 0⟩

/-- The size of the type of the last unit. -/
def Ctl.masterSize (c : Ctl) : Nat :=
  match c.masterTy with
  | none => 1
  | some ty => ty.size

/-- A bit-field of this width opens a unit. -/
def Ctl.opens (c : Ctl) (bits : Nat) : Bool :=
  c.realignNext || c.currentOff == 0 || decide (c.currentOff + bits > c.currentLimit)

/-- The bytes reserved for a unit, from the width of its first bit-field. -/
def reserved (arch : Arch) (bits : Nat) : Nat :=
  (typePrimitiveNotLessThanSize arch ((bits + 7) / 8)).getD 1

/-- What a member does. -/
def Ctl.act (arch : Arch) (packed : Bool) (c : Ctl) (m : Member) : Act :=
  match m.kind with
  | .normal size align _ => .member (effectiveAlign (packed || m.packed) align.bytes) size
  | .flexArray align => .member (effectiveAlign (packed || m.packed) align.bytes) 0
  | .bitfield ty bits _ =>
      if bits = 0 then .none
      else if c.opens bits then
        .unit (if c.realignNext || c.currentOff != 0 then c.masterSize else 1)
          (reserved arch bits) bits (if bits = 8 * ty.size then ty.size else 1)
      else .extend bits (if c.currentOff + bits = c.currentLimit then c.masterSize else 1)

/-- The state after a member. -/
def Ctl.next (c : Ctl) (m : Member) : Ctl :=
  match m.kind with
  | .normal _ _ _ => { c with currentOff := 0 }
  | .flexArray _ => { c with currentOff := 0 }
  | .bitfield ty bits _ =>
      if bits = 0 then { c with realignNext := true }
      else if c.opens bits then
        ⟨false, some ty, if bits = 8 * ty.size then 0 else bits, 8 * ty.size⟩
      else
        { c with currentOff := if c.currentOff + bits = c.currentLimit then 0
                               else c.currentOff + bits }

/-- What the members do, one after the other. -/
def Ctl.acts (arch : Arch) (packed : Bool) : Ctl → List Member → List Act
  | _, [] => []
  | c, m :: ms => c.act arch packed m :: (c.next m).acts arch packed ms

/-- The alignment a member gives to its struct; 0 for none. -/
def Ctl.alignOf (packed : Bool) (c : Ctl) (m : Member) : Nat :=
  match m.kind with
  | .normal _ align _ => effectiveAlign (packed || m.packed) align.bytes
  | .flexArray align => effectiveAlign (packed || m.packed) align.bytes
  | .bitfield ty bits _ =>
      effectiveAlign (packed || m.packed)
        (if bits ≠ 0 ∧ c.opens bits then ty.align.bytes else 0)

/-- The alignment of a struct, from that of the members so far. -/
def Ctl.alignMax (packed : Bool) : Ctl → Nat → List Member → Nat
  | _, a, [] => a
  | c, a, m :: ms => (c.next m).alignMax packed (max a (c.alignOf packed m)) ms

/-- The state of the loop without its offsets. -/
def LayoutState.ctl (st : LayoutState) : Ctl :=
  ⟨st.realignNext, st.masterTy, st.currentOff, st.currentLimit⟩

/-- A unit is never full between two members, and its limit is that of its
type. -/
structure Ctl.Ok (c : Ctl) : Prop where
  off : c.currentOff = 0 ∨ c.currentOff < c.currentLimit
  limit : c.currentLimit = match c.masterTy with
    | none => 0
    | some ty => 8 * ty.size

theorem Ctl.init_ok : Ctl.init.Ok := ⟨.inl rfl, rfl⟩

theorem BfType.size_pos (ty : BfType) : 0 < ty.size := Nat.two_pow_pos _

/-- `struct_pack_finish_bitfield` on the offset. -/
def finishTo (offset size : Nat) : Nat :=
  if offset % size ≠ 0 then (offset + (size - offset % size)) % 2 ^ 64 else offset

@[simp] theorem finishTo_one (o : Nat) : finishTo o 1 = o := by
  simp [finishTo, Nat.mod_one]

theorem structPackFinishBitfield_eq (st : LayoutState) :
    structPackFinishBitfield st = { st with offset := finishTo st.offset st.ctl.masterSize } := by
  obtain ⟨offset, realign, master, off, first, limit, al, sz⟩ := st
  cases master with
  | none => simp [structPackFinishBitfield, LayoutState.ctl, Ctl.masterSize]
  | some ty =>
    simp only [structPackFinishBitfield, LayoutState.ctl, Ctl.masterSize, finishTo]
    by_cases h : offset % ty.size = 0
    · simp [h]
    · simp [h]

theorem declSizeAlignIncBitfield_eq (arch : Arch) {bits : Nat} (h : bits ≠ 0) :
    declSizeAlignIncBitfield arch bits = .ok (reserved arch bits, reserved arch bits) := by
  have hbytes : (if bits % 8 ≠ 0 then bits / 8 + 1 else bits / 8) = (bits + 7) / 8 := by
    split <;> omega
  have hpos : 1 ≤ (bits + 7) / 8 := by omega
  unfold declSizeAlignIncBitfield reserved
  simp only [hbytes]
  cases hp : typePrimitiveNotLessThanSize arch ((bits + 7) / 8) with
  | some size => rfl
  | none =>
    have hnone := List.find?_eq_none.mp hp 1 (by simp)
    simp [hpos] at hnone

theorem reserved_pow (arch : Arch) (bits : Nat) : ∃ j ≤ 3, reserved arch bits = 2 ^ j := by
  unfold reserved typePrimitiveNotLessThanSize
  cases hp : List.find? (fun prim => decide ((bits + 7) / 8 ≥ prim)) [arch.ulongSize, 4, 2, 1] with
  | none => exact ⟨0, by omega, rfl⟩
  | some size =>
    have hmem := List.mem_of_find?_eq_some hp
    have hulong : arch.ulongSize = 4 ∨ arch.ulongSize = 8 := by
      cases arch
      · exact .inl rfl
      · exact .inr rfl
    simp only [List.mem_cons, List.not_mem_nil, or_false] at hmem
    rcases hmem with rfl | rfl | rfl | rfl
    · rcases hulong with h | h
      · exact ⟨2, by omega, h⟩
      · exact ⟨3, by omega, h⟩
    · exact ⟨2, by omega, rfl⟩
    · exact ⟨1, by omega, rfl⟩
    · exact ⟨0, by omega, rfl⟩

/-! ## The loop body runs the action of its member -/

/-- The number of bits of a member. -/
def Member.width (m : Member) : Nat :=
  match m.kind with
  | .normal size _ _ => 8 * size
  | .flexArray _ => 0
  | .bitfield _ bits _ => bits

/-- The bits of a member, where it was placed. -/
def Placement.interval (p : Placement) (m : Member) : Interval :=
  ⟨8 * p.structOffset + p.structOffsetBitfield, m.width⟩

/-- What the loop body does for the action `a` of the member `m`. -/
def Act.Runs (a : Act) (st : LayoutState) (m : Member) (p : Placement) (st' : LayoutState) :
    Prop :=
  match a with
  | .none =>
      m.width = 0 ∧ st'.offset = st.offset ∧ st'.firstOff = st.firstOff ∧
        st'.currentOff = st.currentOff
  | .extend bits fill =>
      p.interval m = ⟨8 * st.firstOff + st.currentOff, bits⟩ ∧ bits ≠ 0 ∧
        st.currentOff ≠ 0 ∧ st'.offset = finishTo st.offset fill ∧
        st'.firstOff = st.firstOff ∧
        (st'.currentOff = 0 ∨ st'.currentOff = st.currentOff + bits)
  | .unit before reserve bits fill =>
      let start := packToAlign (finishTo st.offset before) reserve
      p.interval m = ⟨8 * (start % 2 ^ 32), bits⟩ ∧ bits ≠ 0 ∧
        st'.offset = finishTo ((start + reserve) % 2 ^ 64) fill ∧
        st'.firstOff = start % 2 ^ 32 ∧ (st'.currentOff = 0 ∨ st'.currentOff = bits)
  | .member align size =>
      let start := packToAlign st.offset align
      p.interval m = ⟨8 * (start % 2 ^ 32), 8 * size⟩ ∧
        st'.offset = (start + size) % 2 ^ 64 ∧ st'.currentOff = 0

theorem placeNormal_struct (st : LayoutState) (sz align : Nat) :
    placeNormal .struct_ st sz align =
      (⟨(packNext st.offset sz align).1 % 2 ^ 32, 0, false, none⟩,
        { st with
          currentOff := 0
          offset := (packNext st.offset sz align).2
          alignMax := max st.alignMax align
          szMax := max st.szMax sz }) := rfl

/-- A zero-width bit-field only asks for a new unit. -/
theorem foldSueCalcFieldwidth_zero (arch : Arch) {st : LayoutState} (hok : st.ctl.Ok)
    (ty : BfType) :
    foldSueCalcFieldwidth arch st ty 0 =
      .ok (⟨st.offset % 2 ^ 32, st.currentOff, false, none⟩, 0, 0,
        { st with realignNext := true }) := by
  obtain ⟨offset, realign, master, off, first, limit, al, sz⟩ := st
  obtain ⟨hoff, hlimit⟩ := hok
  simp only [LayoutState.ctl] at hoff hlimit
  simp only [foldSueCalcFieldwidth, if_true, Nat.add_zero]
  split
  · rename_i hfull
    -- only before the first unit, whose limit is 0
    obtain rfl : off = 0 := by omega
    cases master with
    | none => simp [structPackFinishBitfield]
    | some ty' =>
      have hpos := ty'.size_pos
      simp only at hlimit hfull
      omega
  · rfl

theorem foldSueCalcFieldwidth_open (arch : Arch) (st : LayoutState) (ty : BfType) {bits : Nat}
    (hbits : bits ≠ 0) (hopen : st.ctl.opens bits = true) :
    let before := if st.realignNext || st.currentOff != 0 then st.ctl.masterSize else 1
    let fill := if bits = 8 * ty.size then ty.size else 1
    let next := packNext (finishTo st.offset before) (reserved arch bits) (reserved arch bits)
    foldSueCalcFieldwidth arch st ty bits =
      .ok (⟨next.1 % 2 ^ 32, 0, true, some ty⟩, reserved arch bits, ty.align.bytes,
        { st with
          offset := finishTo next.2 fill
          realignNext := false
          masterTy := some ty
          currentOff := if bits = 8 * ty.size then 0 else bits
          firstOff := next.1 % 2 ^ 32
          currentLimit := 8 * ty.size }) := by
  intro before fill next
  have hreserve : packToAlign (reserved arch bits) (reserved arch bits) % 2 ^ 32 =
      reserved arch bits := by
    obtain ⟨j, hj, hr⟩ := reserved_pow arch bits
    have hle : 2 ^ j ≤ 2 ^ 3 := Nat.pow_le_pow_right (by omega) hj
    rw [hr, packToAlign_eq (by omega) (by omega), roundUp_eq_self (Nat.two_pow_pos j) dvd_rfl]
    omega
  have hopened : openBitfield arch st ty bits =
      .ok (⟨next.1 % 2 ^ 32, 0, true, some ty⟩, reserved arch bits, ty.align.bytes,
        { st with
          offset := next.2
          realignNext := false
          masterTy := some ty
          currentOff := 0
          firstOff := next.1 % 2 ^ 32
          currentLimit := 8 * ty.size }) := by
    simp only [openBitfield, declSizeAlignIncBitfield_eq arch hbits, hreserve]
    by_cases hround : (st.realignNext || st.currentOff != 0) = true
    · have hbefore : before = st.ctl.masterSize := if_pos hround
      simp only [next, hbefore, hround, if_true, structPackFinishBitfield_eq]
      rfl
    · have hbefore : before = 1 := if_neg hround
      have hquiet : st.realignNext = false ∧ st.currentOff = 0 := by
        simpa using hround
      simp only [next, hbefore, hround, finishTo_one]
      simp [hquiet]
  have hcond : (st.realignNext || st.currentOff == 0
      || decide (st.currentOff + bits > st.currentLimit)) = true := hopen
  simp only [foldSueCalcFieldwidth, if_neg hbits, hcond, if_true, hopened, Nat.zero_add]
  by_cases hfull : bits = 8 * ty.size
  · have hfill : fill = ty.size := if_pos hfull
    simp only [if_pos hfull, structPackFinishBitfield_eq, hfill]
    rfl
  · have hfill : fill = 1 := if_neg hfull
    simp only [if_neg hfull, hfill, finishTo_one]

theorem foldSueCalcFieldwidth_extend (arch : Arch) (st : LayoutState) (ty : BfType) {bits : Nat}
    (hbits : bits ≠ 0) (hopen : st.ctl.opens bits = false) :
    let full := st.currentOff + bits = st.currentLimit
    foldSueCalcFieldwidth arch st ty bits =
      .ok (⟨st.firstOff, st.currentOff, false, st.masterTy⟩, 0, 0,
        { st with
          offset := finishTo st.offset (if full then st.ctl.masterSize else 1)
          currentOff := if full then 0 else st.currentOff + bits }) := by
  intro full
  have hcond : (st.realignNext || st.currentOff == 0
      || decide (st.currentOff + bits > st.currentLimit)) = false := hopen
  simp only [foldSueCalcFieldwidth, if_neg hbits, hcond, Bool.false_eq_true, if_false]
  by_cases hfull : st.currentOff + bits = st.currentLimit
  · simp only [full, if_pos hfull, structPackFinishBitfield_eq]
    rfl
  · simp only [full, if_neg hfull, finishTo_one]

theorem foldSueMember_spec {arch : Arch} {packed last : Bool} {st st' : LayoutState}
    {m : Member} {p : Placement} (hok : st.ctl.Ok)
    (h : foldSueMember arch .struct_ packed last st m = .ok (p, st')) :
    st'.ctl = st.ctl.next m ∧ st'.alignMax = max st.alignMax (st.ctl.alignOf packed m) ∧
      (st.ctl.act arch packed m).Runs st m p st' := by
  obtain ⟨kind, mpacked⟩ := m
  cases kind with
  | normal size align lt =>
    simp only [foldSueMember, placeNormal_struct, Except.ok.injEq, Prod.mk.injEq] at h
    obtain ⟨rfl, rfl⟩ := h
    exact ⟨rfl, rfl, rfl, rfl, rfl⟩
  | flexArray align =>
    simp only [foldSueMember, placeNormal_struct] at h
    split at h
    · cases h
    · simp only [reduceCtorEq, if_false, Except.ok.injEq, Prod.mk.injEq] at h
      obtain ⟨rfl, rfl⟩ := h
      exact ⟨rfl, rfl, rfl, rfl, rfl⟩
  | bitfield ty bits le =>
    simp only [foldSueMember] at h
    by_cases hbits : bits = 0
    · subst hbits
      rw [foldSueCalcFieldwidth_zero arch hok] at h
      simp only [Except.ok.injEq, Prod.mk.injEq] at h
      obtain ⟨rfl, rfl⟩ := h
      exact ⟨rfl, rfl, rfl, rfl, rfl, rfl⟩
    cases hopen : st.ctl.opens bits with
    | true =>
      rw [foldSueCalcFieldwidth_open arch st ty hbits hopen] at h
      simp only [Except.ok.injEq, Prod.mk.injEq] at h
      obtain ⟨rfl, rfl⟩ := h
      refine ⟨?_, ?_, ?_⟩
      · simp only [Ctl.next, if_neg hbits, hopen, if_true]
        rfl
      · simp only [Ctl.alignOf, hopen, hbits, ne_eq, not_false_eq_true, and_self, if_true]
        rfl
      · simp only [Ctl.act, if_neg hbits, hopen, if_true]
        refine ⟨rfl, hbits, rfl, rfl, ?_⟩
        show (if bits = 8 * ty.size then 0 else bits) = 0 ∨ _
        split
        · exact .inl rfl
        · exact .inr rfl
    | false =>
      rw [foldSueCalcFieldwidth_extend arch st ty hbits hopen] at h
      simp only [Except.ok.injEq, Prod.mk.injEq] at h
      obtain ⟨rfl, rfl⟩ := h
      refine ⟨?_, ?_, ?_⟩
      · simp only [Ctl.next, if_neg hbits, hopen, Bool.false_eq_true, if_false]
        rfl
      · simp only [Ctl.alignOf, hopen, Bool.false_eq_true, and_false, if_false]
        rfl
      · simp only [Ctl.act, if_neg hbits, hopen, Bool.false_eq_true, if_false]
        have hoff : st.currentOff ≠ 0 := by
          simp only [Ctl.opens, LayoutState.ctl, Bool.or_eq_false_iff] at hopen
          simpa using hopen.1.2
        refine ⟨rfl, hbits, hoff, rfl, rfl, ?_⟩
        show (if st.currentOff + bits = st.currentLimit then 0 else st.currentOff + bits) = 0 ∨ _
        split
        · exact .inl rfl
        · exact .inr rfl

end Ucc.Cc1
