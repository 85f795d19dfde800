/-
  Cc1/DataStruct.lean --- the members of a struct are emitted at their offsets.

  Source: asm_declare_init in src/cc1/out/asm.c, fold_sue_calc_fieldwidth and fold_sue
  in src/cc1/fold_sue.c, decl_size_align_inc_bitfield in src/cc1/decl.c.

  The loop of `asm_declare_init` and that of `fold_sue` go over the members side by
  side.  `Between` relates their states: the offset of the one to the end of the last
  member of the other, and the unit of the one to the bit-fields that the other has
  not emitted.
-/
import Ucc.Cc1.DataSound

set_option autoImplicit false

namespace Ucc.Cc1.Data

open Ucc.Lib

variable {tg : Target} {symbols : String → Integral} {image : Nat → Bool} {pos : Nat}

/-! ## One turn of fold_sue -/

section Layout

variable {arch : Arch} {packed last : Bool} {st st' : LayoutState} {p : Placement}

theorem foldSueMember_bitfield {ty : BfType} {bits : Nat} {le : bits ≤ 8 * ty.size}
    {packed' : Bool}
    (h : foldSueMember arch .struct_ packed last st ⟨.bitfield ty bits le, packed'⟩ = .ok (p, st')) :
    ∃ sz align st₀, foldSueCalcFieldwidth arch st ty bits = .ok (p, sz, align, st₀) ∧
      st' = st₀.account sz (effectiveAlign (packed || packed') align) := by
  simp only [foldSueMember] at h
  split at h
  · cases h
  · rename_i p₀ sz align st₀ hcalc
    simp only [Except.ok.injEq, Prod.mk.injEq] at h
    obtain ⟨rfl, rfl⟩ := h
    exact ⟨sz, align, st₀, hcalc, rfl⟩

/-- An ordinary member, while the offset stays below `2 ^ 32`. -/
theorem foldSueMember_decl {size : Nat} {align : Align} {lt : size < 2 ^ 32} {packed' : Bool}
    (ho : st.offset < 2 ^ 32)
    (hnext : (st.ctl.act arch packed ⟨.normal size align lt, packed'⟩).next st.offset < 2 ^ 32)
    (h : foldSueMember arch .struct_ packed last st ⟨.normal size align lt, packed'⟩ =
      .ok (p, st')) :
    st.offset ≤ p.structOffset ∧ st'.offset = p.structOffset + size ∧
      st'.offset < 2 ^ 32 ∧ st'.currentOff = 0 := by
  have hpow := effectiveAlign_isPow (packed || packed') align
  have hle := le_roundUp hpow.pos st.offset
  simp only [foldSueMember, placeNormal_struct, Except.ok.injEq, Prod.mk.injEq] at h
  obtain ⟨rfl, rfl⟩ := h
  simp only [Ctl.act, Act.next] at hnext
  simp only [packNext, packToAlign_isPow (show st.offset < 2 ^ 33 by omega) hpow]
  rw [Nat.mod_eq_of_lt (show roundUp st.offset _ < 2 ^ 32 by omega),
    Nat.mod_eq_of_lt (show roundUp st.offset _ < 2 ^ 32 by omega),
    Nat.mod_eq_of_lt (show roundUp st.offset _ + size < 2 ^ 64 by omega)]
  exact ⟨hle, rfl, hnext, trivial⟩

variable {b : BitfieldDecl}

/-- What `fold_sue` reads of a bit-field. -/
def BitfieldDecl.member (b : BitfieldDecl) : Member := ⟨.bitfield b.ty b.width b.le, b.packed⟩

/-- A bit-field without a width. -/
theorem foldSueMember_zero (hok : st.ctl.Ok) (ho : st.offset < 2 ^ 32) (hzero : b.width = 0)
    (h : foldSueMember arch .struct_ packed last st b.member = .ok (b.place, st')) :
    b.place.structOffset = st.offset ∧ b.place.firstBitfield = false ∧
      st'.offset = st.offset ∧ st'.firstOff = st.firstOff ∧ st'.realignNext = true := by
  obtain ⟨sz, align, st₀, hcalc, rfl⟩ := foldSueMember_bitfield h
  rw [hzero, foldSueCalcFieldwidth_zero arch hok] at hcalc
  simp only [Except.ok.injEq, Prod.mk.injEq] at hcalc
  obtain ⟨hp, -, -, rfl⟩ := hcalc
  rw [← hp, Nat.mod_eq_of_lt ho]
  exact ⟨rfl, rfl, rfl, rfl, rfl⟩

/-- A bit-field that opens a unit. -/
theorem foldSueMember_open (ho : st.offset < 2 ^ 32) (hne : b.width ≠ 0)
    (hopen : st.ctl.opens b.width = true)
    (hnext : (st.ctl.act arch packed b.member).next st.offset < 2 ^ 32)
    (h : foldSueMember arch .struct_ packed last st b.member = .ok (b.place, st')) :
    st.offset ≤ b.place.structOffset ∧ b.place.structOffsetBitfield = 0 ∧
      b.place.firstBitfield = true ∧ st'.firstOff = b.place.structOffset ∧
      b.place.structOffset + reserved arch b.width ≤ st'.offset ∧ st'.offset < 2 ^ 32 ∧
      st'.currentLimit = 8 * b.ty.size ∧
      (st'.currentOff ≠ 0 → st'.currentOff = b.width) := by
  obtain ⟨sz, align, st₀, hcalc, rfl⟩ := foldSueMember_bitfield h
  rw [foldSueCalcFieldwidth_open arch st b.ty hne hopen] at hcalc
  simp only [Except.ok.injEq, Prod.mk.injEq] at hcalc
  obtain ⟨hp, -, -, rfl⟩ := hcalc
  simp only [Ctl.act, BitfieldDecl.member, if_neg hne, hopen, if_true, Act.next] at hnext
  generalize hbefore :
    (if st.ctl.realignNext || st.ctl.currentOff != 0 then st.ctl.masterSize else 1) = before at hnext
  generalize hfill : (if b.width = 8 * b.ty.size then b.ty.size else 1) = fill at hnext
  have hbefore' :
      (if st.realignNext || st.currentOff != 0 then st.ctl.masterSize else 1) = before := hbefore
  have hpowb : IsPow 3 before := by
    rw [← hbefore]
    split
    · exact st.ctl.masterSize_isPow
    · exact IsPow.one 3
  have hpowf : IsPow 3 fill := by
    rw [← hfill]
    split
    · exact b.ty.size_isPow
    · exact IsPow.one 3
  have hpowr : IsPow 3 (reserved arch b.width) := reserved_pow arch b.width
  have hle₁ := le_roundUp hpowb.pos st.offset
  have hle₂ := le_roundUp hpowr.pos (roundUp st.offset before)
  have hle₃ := le_roundUp hpowf.pos
    (roundUp (roundUp st.offset before) (reserved arch b.width) + reserved arch b.width)
  simp only [hbefore', packNext, finishTo_eq (show st.offset ≤ 2 ^ 33 by omega) hpowb,
    packToAlign_isPow (show roundUp st.offset before < 2 ^ 33 by omega)
      (hpowr.mono (by omega))] at hp ⊢
  generalize hstart : roundUp (roundUp st.offset before) (reserved arch b.width) = start
    at hnext hle₂ hle₃ hp ⊢
  rw [Nat.mod_eq_of_lt (show start < 2 ^ 32 by omega),
    Nat.mod_eq_of_lt (show start < 2 ^ 32 by omega)] at hp
  simp only [LayoutState.account, Nat.mod_eq_of_lt (show start < 2 ^ 32 by omega),
    Nat.mod_eq_of_lt (show start + reserved arch b.width < 2 ^ 64 by omega),
    finishTo_eq (show start + reserved arch b.width ≤ 2 ^ 33 by omega) hpowf, ← hp]
  refine ⟨by omega, trivial, trivial, trivial, hle₃, hnext, trivial, ?_⟩
  split
  · exact fun h0 => absurd rfl h0
  · exact fun _ => rfl

/-- A bit-field that joins the unit before it. -/
theorem foldSueMember_extend (ho : st.offset < 2 ^ 32) (hne : b.width ≠ 0)
    (hopen : st.ctl.opens b.width = false)
    (hnext : (st.ctl.act arch packed b.member).next st.offset < 2 ^ 32)
    (h : foldSueMember arch .struct_ packed last st b.member = .ok (b.place, st')) :
    st.realignNext = false ∧ st.currentOff ≠ 0 ∧ st.currentOff + b.width ≤ st.currentLimit ∧
      b.place.structOffset = st.firstOff ∧ b.place.structOffsetBitfield = st.currentOff ∧
      b.place.firstBitfield = false ∧ st'.firstOff = st.firstOff ∧ st.offset ≤ st'.offset ∧
      st'.offset < 2 ^ 32 ∧ st'.currentLimit = st.currentLimit ∧
      (st'.currentOff ≠ 0 → st'.currentOff = st.currentOff + b.width) := by
  obtain ⟨sz, align, st₀, hcalc, rfl⟩ := foldSueMember_bitfield h
  rw [foldSueCalcFieldwidth_extend arch st b.ty hne hopen] at hcalc
  simp only [Except.ok.injEq, Prod.mk.injEq] at hcalc
  obtain ⟨hp, -, -, rfl⟩ := hcalc
  have hcond := hopen
  simp only [Ctl.opens, LayoutState.ctl, Bool.or_eq_false_iff, beq_eq_false_iff_ne] at hcond
  obtain ⟨⟨hrealign, hoff⟩, hle⟩ := hcond
  have hlimit : st.currentOff + b.width ≤ st.currentLimit := by simpa using hle
  simp only [Ctl.act, BitfieldDecl.member, if_neg hne, hopen, Bool.false_eq_true, if_false,
    Act.next] at hnext
  generalize hfill :
    (if st.ctl.currentOff + b.width = st.ctl.currentLimit then st.ctl.masterSize else 1) = fill
    at hnext
  have hfill' :
      (if st.currentOff + b.width = st.currentLimit then st.ctl.masterSize else 1) = fill := hfill
  have hpowf : IsPow 3 fill := by
    rw [← hfill]
    split
    · exact st.ctl.masterSize_isPow
    · exact IsPow.one 3
  have hround := le_roundUp hpowf.pos st.offset
  simp only [LayoutState.account, hfill', finishTo_eq (show st.offset ≤ 2 ^ 33 by omega) hpowf]
  refine ⟨hrealign, hoff, hlimit, by rw [← hp], by rw [← hp], by rw [← hp], trivial, hround,
    hnext, trivial, ?_⟩
  split
  · exact fun h0 => absurd rfl h0
  · exact fun _ => rfl

end Layout

/-! ## Between two members -/

/-- Where the next byte goes. -/
def Walk.start (w : Walk) : Nat :=
  match w.firstBf with
  | none => w.endOfLast
  | some f => f.place.structOffset

/-- The bit-fields that have not been emitted, and the unit that `fold_sue` is in. -/
structure Pending (arch : Arch) (st : LayoutState) (g : Group) (vals : List BitfieldVal) :
    Prop where
  nonempty : vals ≠ []
  width : g.first.width ≠ 0
  first : st.firstOff = g.first.place.structOffset
  le : g.first.place.structOffset + g.small arch ≤ st.offset
  fields : Fields (8 * g.first.ty.size) vals
  room : g.top ≤ 8 * g.first.ty.size
  named : ∀ v ∈ vals, v.val ≠ 0 → v.offset + v.width ≤ g.top
  unit : st.realignNext = false → st.currentOff ≠ 0 →
    st.currentLimit = 8 * g.first.ty.size ∧ g.top ≤ st.currentOff ∧
      ∀ v ∈ vals, v.offset + v.width ≤ st.currentOff

/-- The states of the two loops between two members. -/
inductive Between (arch : Arch) (st : LayoutState) : Walk → Option Group → Prop where
  | plain (hopens : st.realignNext = true ∨ st.currentOff = 0) :
      Between arch st ⟨st.offset, [], none⟩ none
  | pending {g : Group} {vals : List BitfieldVal} (h : Pending arch st g vals) :
      Between arch st
        ⟨g.first.place.structOffset + g.small arch, vals, some g.first⟩ (some g)

/-- Bit `k` belongs to a bit-field that has a value and has not been emitted. -/
def Walk.Covers (w : Walk) (k : Nat) : Prop :=
  ∃ v ∈ w.bitfields, v.val ≠ 0 ∧
    8 * w.start + v.offset ≤ k ∧ k < 8 * w.start + v.offset + v.width

/-- The bit-fields that have not been emitted, up to the last one with a name, are at
their places, and there are zeros beside them up to byte `stop`. -/
def Walk.Placed (w : Walk) (g : Option Group) (image : Nat → Bool) (pos stop : Nat) : Prop :=
  (∀ g' ∈ g, ∀ v ∈ w.bitfields, v.offset + v.width ≤ g'.top → ∀ k < v.width,
    image (8 * (pos + w.start) + v.offset + k) = v.val.getLsbD k) ∧
  ∀ k, 8 * w.start ≤ k → k < 8 * stop → ¬ w.Covers k → image (8 * pos + k) = false

/-- Zeros are right where no bit-field is to be emitted. -/
theorem Walk.placed_plain {eol stop : Nat} (h : Holds image (pos + eol) (stop - eol) 0) :
    (⟨eol, [], none⟩ : Walk).Placed none image pos stop := by
  rw [holds_zero] at h
  refine ⟨fun g' hg' => absurd hg' (by simp), fun k hlo hhi _ => ?_⟩
  have hlo' : 8 * eol ≤ k := hlo
  have hbit := h (k - 8 * eol) (by omega)
  rwa [show 8 * (pos + eol) + (k - 8 * eol) = 8 * pos + k by omega] at hbit

/-- A group is right in any type that has room for its bit-fields with a name. -/
theorem Pending.placed {arch : Arch} {st : LayoutState} {g : Group} {vals : List BitfieldVal}
    (h : Pending arch st g vals) {eol bytes : Nat} (hroom : g.top ≤ 8 * bytes)
    (hlies : Holds image (pos + g.first.place.structOffset) bytes (groupValue tg vals)) :
    (⟨eol, vals, some g.first⟩ : Walk).Placed (some g) image pos
      (g.first.place.structOffset + bytes) := by
  have hlimit : 8 * g.first.ty.size ≤ 64 := by
    have hle := g.first.ty.size_isPow.le
    omega
  constructor
  · intro g' hg' v hv htop k hk
    obtain rfl : g = g' := by simpa using hg'
    have hbit := hlies (v.offset + k) (by omega)
    rw [h.fields.value hlimit hv hk] at hbit
    rw [← hbit]
    show image (8 * (pos + g.first.place.structOffset) + v.offset + k) = _
    rw [Nat.add_assoc]
  · intro k hlo hhi hcov
    have hlo' : 8 * g.first.place.structOffset ≤ k := hlo
    have hbit := hlies (k - 8 * g.first.place.structOffset) (by omega)
    rw [h.fields.zero hlimit] at hbit
    · rwa [show 8 * (pos + g.first.place.structOffset) + (k - 8 * g.first.place.structOffset) =
        8 * pos + k by omega] at hbit
    · intro v hv hval hrange
      refine hcov ⟨v, hv, hval, ?_, ?_⟩
      · show 8 * g.first.place.structOffset + v.offset ≤ k
        omega
      · show k < 8 * g.first.place.structOffset + v.offset + v.width
        omega

/-- A group without names is all zeros. -/
theorem Pending.placed_zero {arch : Arch} {st : LayoutState} {g : Group}
    {vals : List BitfieldVal} (h : Pending arch st g vals) {eol stop : Nat} (htop : g.top = 0)
    (hzero : Holds image (pos + g.first.place.structOffset)
      (stop - g.first.place.structOffset) 0) :
    (⟨eol, vals, some g.first⟩ : Walk).Placed (some g) image pos stop := by
  rw [holds_zero] at hzero
  constructor
  · intro g' hg' v hv hle
    obtain rfl : g = g' := by simpa using hg'
    have hpos := h.fields.width v hv
    omega
  · intro k hlo hhi _
    have hlo' : 8 * g.first.place.structOffset ≤ k := hlo
    have hbit := hzero (k - 8 * g.first.place.structOffset) (by omega)
    rwa [show 8 * (pos + g.first.place.structOffset) + (k - 8 * g.first.place.structOffset) =
      8 * pos + k by omega] at hbit

theorem Pending.groupValue_zero {arch : Arch} {st : LayoutState} {g : Group}
    {vals : List BitfieldVal} (h : Pending arch st g vals) (htop : g.top = 0) :
    groupValue tg vals = 0 := by
  have hlimit : 8 * g.first.ty.size ≤ 64 := by
    have hle := g.first.ty.size_isPow.le
    omega
  refine BitVec.eq_of_getLsbD_eq fun i _ => ?_
  rw [h.fields.zero hlimit]
  · exact BitVec.getLsbD_zero.symm
  · intro v hv hval
    have hpos := h.fields.width v hv
    have hle := h.named v hv hval
    omega

/-! ## One turn of asm_declare_init -/

theorem sizeIncBitfield_eq {b : BitfieldDecl} (h : b.width ≠ 0) :
    sizeIncBitfield tg b = .ok (reserved tg.arch b.width) := by
  simp only [sizeIncBitfield, declSizeAlignIncBitfield_eq tg.arch h]

theorem Walk.pad_eq {w : Walk} {off : Nat} (h : w.endOfLast ≤ off) :
    w.pad off = .ok (asmDeclarePad (off - w.endOfLast)) := if_pos h

theorem bitfieldValSet_eq {b : BitfieldDecl} {di : Option Init} (h : b.Normal di) :
    bitfieldValSet di = .ok (bitfieldValue di) := by
  rcases h with rfl | ⟨-, v, rfl⟩
  · rfl
  · rfl

theorem named_of_value {b : BitfieldDecl} {di : Option Init} (h : b.Normal di)
    (hval : bitfieldValue di ≠ 0) : b.named = true := by
  rcases h with rfl | ⟨hnamed, -⟩
  · exact absurd rfl hval
  · exact hnamed

/-- A bit-field without a width changes nothing. -/
theorem Walk.bitfield_zero {st : LayoutState} {w : Walk} {g : Option Group} {b : BitfieldDecl}
    (hw : Between tg.arch st w g) (di : Option Init) (hzero : b.width = 0)
    (hoff : b.place.structOffset = st.offset) (hfirst : b.place.firstBitfield = false) :
    w.bitfield tg b di = .ok ([], w) := by
  cases hw with
  | plain hopens =>
    simp [Walk.bitfield, Walk.pad, hoff, hzero, hfirst, asmDeclarePad]
    rfl
  | pending h =>
    simp [Walk.bitfield, hzero, hfirst]
    rfl

/-- A turn's code fills the object up to byte `stop`, with the bit-fields that were
left to emit. -/
structure Walk.Fills (w : Walk) (g : Option Group) (before : List Directive) (stop : Nat) :
    Prop where
  le : w.start ≤ stop
  length : ∀ symbols, (assemble symbols before).length = stop - w.start
  placed : ∀ (symbols : String → Integral) (image : Nat → Bool) (pos : Nat),
    Lies image (pos + w.start) (assemble symbols before) → w.Placed g image pos stop

theorem Walk.fills_pad {eol off : Nat} (hle : eol ≤ off) :
    (⟨eol, [], none⟩ : Walk).Fills none (asmDeclarePad (off - eol)) off where
  le := hle
  length := fun _ => length_pad _
  placed := fun _ _ _ hlies => Walk.placed_plain (lies_pad.mp hlies)

/-- The group in the type of its first bit-field. -/
theorem Pending.fills_ref {st : LayoutState} {g : Group} {vals : List BitfieldVal}
    (h : Pending tg.arch st g vals) (eol : Nat) :
    ∃ before, (⟨eol, vals, some g.first⟩ : Walk).flushRef tg = .ok before ∧
      (⟨eol, vals, some g.first⟩ : Walk).Fills (some g) before
        (g.first.place.structOffset + g.first.ty.size) := by
  refine ⟨_, asmDeclareInitBitfields_ok h.fields h.nonempty g.first.ty.le, ?_⟩
  refine ⟨Nat.le_add_right _ _, fun _ => ?_, fun symbols image pos hlies => ?_⟩
  · rw [assemble_value, length_leBytes]
    show g.first.ty.size = g.first.place.structOffset + _ - g.first.place.structOffset
    omega
  · exact h.placed h.room (lies_group hlies)

/-- The group in the smaller type, in front of an ordinary member. -/
theorem Pending.fills_small {st : LayoutState} {g : Group} {vals : List BitfieldVal}
    (h : Pending tg.arch st g vals) {off : Nat}
    (hoff : g.first.place.structOffset + g.small tg.arch ≤ off)
    (htight : g.top = 0 ∨
      off = g.first.place.structOffset + g.small tg.arch ∧ g.top ≤ 8 * g.small tg.arch) :
    let w : Walk := ⟨g.first.place.structOffset + g.small tg.arch, vals, some g.first⟩
    ∃ flush, w.flushSmall tg = .ok flush ∧
      w.Fills (some g) (asmDeclarePad (off - w.endOfLast) ++ flush) off := by
  intro w
  obtain ⟨log, hlog, hsmall⟩ := reserved_pow tg.arch g.first.width
  have hflush : w.flushSmall tg = .ok [.value (2 ^ log) (.num (groupValue tg vals)) 0] := by
    show (do
      let size ← sizeIncBitfield tg g.first
      asmDeclareInitBitfields tg vals size) = _
    rw [sizeIncBitfield_eq h.width, hsmall]
    exact asmDeclareInitBitfields_ok h.fields h.nonempty hlog
  have hsize : g.small tg.arch = 2 ^ log := hsmall
  refine ⟨_, hflush, ⟨(Nat.le_add_right _ _).trans hoff, fun symbols => ?_,
    fun symbols image pos hlies => ?_⟩⟩
  · rw [assemble_append, List.length_append, length_pad, assemble_value, length_leBytes]
    show off - (g.first.place.structOffset + g.small tg.arch) + 2 ^ log =
      off - g.first.place.structOffset
    omega
  · rw [assemble_append, lies_append, length_pad] at hlies
    obtain ⟨hpad, hgroup⟩ := hlies
    rcases htight with htop | ⟨heq, hroom⟩
    · refine h.placed_zero htop ?_
      have hzero := lies_group hgroup
      rw [h.groupValue_zero htop] at hzero
      have hall := (lies_pad.mp hpad).add hzero
      rwa [show off - w.endOfLast + 2 ^ log = off - g.first.place.structOffset by
        show off - (g.first.place.structOffset + g.small tg.arch) + 2 ^ log = _
        omega] at hall
    · have hnone : off - w.endOfLast = 0 := by
        show off - (g.first.place.structOffset + g.small tg.arch) = 0
        omega
      rw [hnone, Nat.add_zero] at hgroup
      rw [heq]
      have hroom' : g.top ≤ 8 * 2 ^ log := by rw [← hsize]; exact hroom
      rw [hsize]
      exact h.placed hroom' (lies_group hgroup)

/-- A bit-field that opens a group. -/
theorem Walk.bitfield_open {st : LayoutState} {w : Walk} {g : Option Group} {b : BitfieldDecl}
    {di : Option Init} (hw : Between tg.arch st w g) (hdi : b.Normal di) (hne : b.width ≠ 0)
    (hoff : st.offset ≤ b.place.structOffset) (hzero : b.place.structOffsetBitfield = 0)
    (hfirst : b.place.firstBitfield = true)
    (hlt : b.place.structOffset + reserved tg.arch b.width < 2 ^ 32)
    (htight : ∀ g' ∈ g,
      b.place.structOffset = g'.first.place.structOffset + g'.first.ty.size) :
    ∃ before, w.bitfield tg b di = .ok (before,
        ⟨b.place.structOffset + b.group.small tg.arch, [⟨bitfieldValue di, 0, b.width⟩],
          some b⟩) ∧
      w.Fills g before b.place.structOffset := by
  have hsmall : (b.place.structOffset + reserved tg.arch b.width) % 2 ^ 32 =
      b.place.structOffset + b.group.small tg.arch := Nat.mod_eq_of_lt hlt
  cases hw with
  | plain hopens =>
    refine ⟨_, ?_, Walk.fills_pad hoff⟩
    simp only [Walk.bitfield, Option.isNone_none, if_true, Walk.pad_eq (w := ⟨st.offset, [], none⟩)
      hoff, Bool.true_or, Option.isSome_none, Bool.and_false, hne, if_false, hfirst,
      bitfieldValSet_eq hdi, sizeIncBitfield_eq hne, hzero]
    show Except.ok _ = _
    rw [← hsmall]
    simp
  | pending h =>
    rename_i g vals
    obtain ⟨before, hflush, hfills⟩ := h.fills_ref
      (g.first.place.structOffset + g.small tg.arch)
    rw [← htight g rfl] at hfills
    refine ⟨before, ?_, hfills⟩
    simp only [Walk.bitfield, Option.isNone_some, Bool.false_eq_true, if_false, Bool.false_or,
      hfirst, Option.isSome_some, Bool.and_self, if_true, hflush, hne, bitfieldValSet_eq hdi,
      sizeIncBitfield_eq hne, hzero]
    show Except.ok _ = _
    rw [← hsmall]
    simp

/-- A bit-field that joins the group. -/
theorem Walk.bitfield_extend {w : Walk} {g : Group} {vals : List BitfieldVal} {b : BitfieldDecl}
    {di : Option Init} {eol : Nat} (hw : w = ⟨eol, vals, some g.first⟩) (hdi : b.Normal di)
    (hne : b.width ≠ 0) (hfirst : b.place.firstBitfield = false) :
    w.bitfield tg b di = .ok ([],
      ⟨eol, vals ++ [⟨bitfieldValue di, b.place.structOffsetBitfield, b.width⟩],
        some g.first⟩) := by
  subst hw
  simp only [Walk.bitfield, Option.isNone_some, Bool.false_eq_true, if_false, Bool.false_or,
    hfirst, hne, bitfieldValSet_eq hdi]
  rfl

/-- An ordinary member. -/
theorem Walk.decl_ok {st : LayoutState} {w : Walk} {g : Option Group} {d : MemberDecl}
    (hw : Between tg.arch st w g) (size : Nat) (hoff : st.offset ≤ d.place.structOffset)
    (hlt : d.place.structOffset + size < 2 ^ 32)
    (htight : ∀ g' ∈ g, g'.top = 0 ∨
      d.place.structOffset = g'.first.place.structOffset + g'.small tg.arch ∧
        g'.top ≤ 8 * g'.small tg.arch) :
    ∃ before, w.decl tg d size = .ok (before, ⟨d.place.structOffset + size, [], none⟩) ∧
      w.Fills g before d.place.structOffset := by
  cases hw with
  | plain hopens =>
    refine ⟨_, ?_, Walk.fills_pad hoff⟩
    simp only [Walk.decl, Walk.pad_eq (w := ⟨st.offset, [], none⟩) hoff]
    show Except.ok _ = _
    rw [Nat.mod_eq_of_lt hlt]
    simp
  | pending h =>
    rename_i g vals
    have hle := h.le.trans hoff
    obtain ⟨flush, hflush, hfills⟩ := h.fills_small hle (htight g rfl)
    refine ⟨_, ?_, hfills⟩
    have hpad : (⟨g.first.place.structOffset + g.small tg.arch, vals, some g.first⟩ : Walk).pad
        d.place.structOffset = .ok (asmDeclarePad (d.place.structOffset -
          (g.first.place.structOffset + g.small tg.arch))) := Walk.pad_eq hle
    simp only [Walk.decl, hpad, ne_eq, h.nonempty, not_false_eq_true, if_true, hflush]
    show Except.ok _ = _
    rw [Nat.mod_eq_of_lt hlt]

/-! ## The states after a turn -/

section After

variable {arch : Arch} {packed last : Bool} {st st' : LayoutState} {w : Walk} {g : Option Group}
  {b : BitfieldDecl} {di : Option Init}

theorem Between.after_zero (hw : Between arch st w g) (hoff : st'.offset = st.offset)
    (hfirst : st'.firstOff = st.firstOff) (hrealign : st'.realignNext = true) :
    Between arch st' w g := by
  cases hw with
  | plain hopens =>
    rw [← hoff]
    exact .plain (.inl hrealign)
  | pending h =>
    exact .pending
      { h with
        first := hfirst.trans h.first
        le := by rw [hoff]; exact h.le
        unit := fun hno => absurd (hrealign.symm.trans hno) (by decide) }

/-- The place of a bit-field that opens a group. -/
theorem Between.after_open (hdi : b.Normal di) (hne : b.width ≠ 0)
    (hfirst : st'.firstOff = b.place.structOffset)
    (hle : b.place.structOffset + reserved arch b.width ≤ st'.offset)
    (hlimit : st'.currentLimit = 8 * b.ty.size)
    (hoff : st'.currentOff ≠ 0 → st'.currentOff = b.width) :
    Between arch st'
      ⟨b.place.structOffset + b.group.small arch, [⟨bitfieldValue di, 0, b.width⟩], some b⟩
      (some b.group) := by
  have hroom : b.group.top ≤ b.width := by
    unfold BitfieldDecl.group
    split
    · exact le_rfl
    · exact Nat.zero_le _
  have hsingle : ∀ {P : BitfieldVal → Prop}, P ⟨bitfieldValue di, 0, b.width⟩ →
      ∀ v ∈ [(⟨bitfieldValue di, 0, b.width⟩ : BitfieldVal)], P v := by
    intro P hP v hv
    obtain rfl := List.mem_singleton.mp hv
    exact hP
  refine Between.pending (g := b.group) ⟨List.cons_ne_nil _ _, hne, hfirst, hle, ⟨?_, ?_, ?_⟩,
    hroom.trans b.le, ?_, fun _ hopen => ⟨hlimit, ?_, ?_⟩⟩
  · exact hsingle hne
  · exact hsingle (by rw [Nat.zero_add]; exact b.le)
  · exact List.pairwise_singleton _ _
  · refine hsingle fun hval => ?_
    have hnamed := named_of_value hdi hval
    rw [BitfieldDecl.group, if_pos hnamed, Nat.zero_add]
  · rw [hoff hopen]
    exact hroom
  · refine hsingle ?_
    rw [hoff hopen, Nat.zero_add]

/-- A bit-field that joins a group. -/
theorem Pending.after_extend {g : Group} {vals : List BitfieldVal} (h : Pending arch st g vals)
    (hdi : b.Normal di) (hne : b.width ≠ 0) (hrealign : st.realignNext = false)
    (hopen : st.currentOff ≠ 0) (hin : st.currentOff + b.width ≤ st.currentLimit)
    (hplace : b.place.structOffsetBitfield = st.currentOff)
    (hfirst : st'.firstOff = st.firstOff) (hle : st.offset ≤ st'.offset)
    (hlimit : st'.currentLimit = st.currentLimit)
    (hoff : st'.currentOff ≠ 0 → st'.currentOff = st.currentOff + b.width) :
    Pending arch st' (g.add b)
      (vals ++ [⟨bitfieldValue di, b.place.structOffsetBitfield, b.width⟩]) := by
  obtain ⟨hmax, htop, hends⟩ := h.unit hrealign hopen
  have htop' : (g.add b).top ≤ st.currentOff + b.width := by
    unfold Group.add
    dsimp only
    split
    · rw [hplace]
    · omega
  have hmono : g.top ≤ (g.add b).top := by
    unfold Group.add
    dsimp only
    split
    · omega
    · exact le_rfl
  have hsnoc : ∀ {P : BitfieldVal → Prop}, (∀ v ∈ vals, P v) →
      P ⟨bitfieldValue di, b.place.structOffsetBitfield, b.width⟩ →
      ∀ v ∈ vals ++ [⟨bitfieldValue di, b.place.structOffsetBitfield, b.width⟩], P v := by
    intro P hvals hP v hv
    rcases List.mem_append.mp hv with hv | hv
    · exact hvals v hv
    · obtain rfl := List.mem_singleton.mp hv
      exact hP
  refine ⟨by simp, h.width, hfirst.trans h.first, h.le.trans hle, ⟨?_, ?_, ?_⟩, ?_, ?_,
    fun _ hopen' => ⟨hlimit.trans hmax, ?_, ?_⟩⟩
  · exact hsnoc h.fields.width hne
  · refine hsnoc h.fields.within ?_
    show b.place.structOffsetBitfield + b.width ≤ 8 * g.first.ty.size
    omega
  · refine List.pairwise_append.mpr ⟨h.fields.inOrder, List.pairwise_singleton _ _, ?_⟩
    intro v hv v' hv'
    obtain rfl := List.mem_singleton.mp hv'
    have hend := hends v hv
    show v.offset + v.width ≤ b.place.structOffsetBitfield
    omega
  · show (g.add b).top ≤ 8 * g.first.ty.size
    omega
  · refine hsnoc (fun v hv hval => (h.named v hv hval).trans hmono) fun hval => ?_
    have hnamed := named_of_value hdi hval
    simp only [Group.add, hnamed, if_true, le_refl]
  · rw [hoff hopen']
    exact htop'
  · rw [hoff hopen']
    refine hsnoc (fun v hv => (hends v hv).trans (Nat.le_add_right _ _)) ?_
    show b.place.structOffsetBitfield + b.width ≤ st.currentOff + b.width
    omega

end After

/-! ## The members of a struct -/

/-- Each member's type is emitted right, with the entry of the member. -/
def ObjMembers.EachGood (tg : Target) : ObjMembers → List (Option Init) → Prop
  | .nil, _ => True
  | .decl _ ref rest, inits => ref.Good tg (inits.headD none) ∧ rest.EachGood tg inits.tail
  | .bitfield _ rest, inits => rest.EachGood tg inits.tail

/-- From between two members on, the rest of the struct is filled. -/
def ObjMembers.StructGood (tg : Target) (size : Nat) (ms : ObjMembers)
    (inits : List (Option Init)) (w : Walk) (g : Option Group) : Prop :=
  ∃ ds, ms.asmDeclareStruct tg size inits w = .ok ds ∧ w.start ≤ size ∧
    ∀ symbols : String → Integral, (assemble symbols ds).length = size - w.start ∧
      ∀ image pos, Lies image (pos + w.start) (assemble symbols ds) →
        (∀ g' ∈ g, ∀ v ∈ w.bitfields, v.offset + v.width ≤ g'.top → ∀ k < v.width,
          image (8 * (pos + w.start) + v.offset + k) = v.val.getLsbD k) ∧
        ms.OccursStruct tg.arch symbols image inits pos ∧
        ∀ k, 8 * w.start ≤ k → k < 8 * size → ¬ w.Covers k → ¬ ms.Covers tg.arch k →
          image (8 * pos + k) = false

/-- At the end of the members. -/
theorem structGood_nil {st : LayoutState} {size : Nat} {w : Walk} {g : Option Group}
    {inits : List (Option Init)} (hw : Between tg.arch st w g) (hsize : st.offset ≤ size)
    (hlt : size < 2 ^ 32) (htight : ObjMembers.nil.Tight tg.arch g) :
    ObjMembers.nil.StructGood tg size inits w g := by
  cases hw with
  | plain hopens =>
    refine ⟨asmDeclarePad (size - st.offset), ?_, hsize, fun symbols => ⟨length_pad _, ?_⟩⟩
    · simp only [ObjMembers.asmDeclareStruct, Walk.finish, padRest_eq hsize hlt]
      rfl
    · intro image pos hlies
      have hplaced := Walk.placed_plain (lies_pad.mp hlies)
      exact ⟨hplaced.1, trivial, fun k hlo hhi hcov _ => hplaced.2 k hlo hhi hcov⟩
  | pending h =>
    rename_i g vals
    have hsame : g.small tg.arch = g.first.ty.size := htight g rfl
    obtain ⟨flush, hflush, hfills⟩ := h.fills_ref
      (g.first.place.structOffset + g.small tg.arch)
    rw [← hsame] at hfills
    have hend := h.le.trans hsize
    have hle := hfills.le
    refine ⟨flush ++ asmDeclarePad (size - (g.first.place.structOffset + g.small tg.arch)), ?_,
      hle.trans hend, fun symbols => ?_⟩
    · simp only [ObjMembers.asmDeclareStruct, Walk.finish, ne_eq, h.nonempty, not_false_eq_true,
        if_true, hflush, padRest_eq hend hlt]
      rfl
    · have hlen := hfills.length symbols
      refine ⟨?_, fun image pos hlies => ?_⟩
      · rw [assemble_append, List.length_append, hlen, length_pad]
        omega
      · rw [assemble_append, lies_append, hlen] at hlies
        obtain ⟨hbefore, hpad⟩ := hlies
        obtain ⟨hvals, hzeros⟩ := hfills.placed symbols image pos hbefore
        refine ⟨hvals, trivial, fun k hlo hhi hcov _ => ?_⟩
        by_cases hin : k < 8 * (g.first.place.structOffset + g.small tg.arch)
        · exact hzeros k hlo hin hcov
        · have hbit := holds_zero.mp (lies_pad.mp hpad)
            (k - 8 * (g.first.place.structOffset + g.small tg.arch)) (by omega)
          have hpos : 8 * (pos + Walk.start ⟨g.first.place.structOffset + g.small tg.arch, vals,
              some g.first⟩ + (g.first.place.structOffset + g.small tg.arch -
              Walk.start ⟨g.first.place.structOffset + g.small tg.arch, vals, some g.first⟩)) +
              (k - 8 * (g.first.place.structOffset + g.small tg.arch)) = 8 * pos + k := by
            omega
          rwa [hpos] at hbit

/-- A bit-field without a width, and the rest. -/
theorem structGood_zero {size : Nat} {rest : ObjMembers} {inits : List (Option Init)} {w : Walk}
    {g : Option Group} {b : BitfieldDecl} (hzero : b.width = 0)
    (hstep : w.bitfield tg b (inits.headD none) = .ok ([], w))
    (hrest : rest.StructGood tg size inits.tail w g) :
    (ObjMembers.bitfield b rest).StructGood tg size inits w g := by
  obtain ⟨more, hmore, hle, hrest⟩ := hrest
  refine ⟨more, ?_, hle, fun symbols => ?_⟩
  · simp only [ObjMembers.asmDeclareStruct, hstep]
    show (do
      let more ← rest.asmDeclareStruct tg size inits.tail w
      Except.ok ([] ++ more)) = _
    rw [hmore]
    rfl
  obtain ⟨hlen, hlies⟩ := hrest symbols
  refine ⟨hlen, fun image pos hall => ?_⟩
  obtain ⟨hval, hocc, hzeros⟩ := hlies image pos hall
  refine ⟨hval, ⟨fun _ k hk => absurd hk (by omega), hocc⟩, fun k hlo hhi hcov hout => ?_⟩
  simp only [ObjMembers.Covers, not_or] at hout
  exact hzeros k hlo hhi hcov hout.2

/-- A bit-field that opens a group, and the rest. -/
theorem structGood_open {size : Nat} {rest : ObjMembers} {inits : List (Option Init)} {w : Walk}
    {g : Option Group} {b : BitfieldDecl} {before : List Directive}
    (hdi : b.Normal (inits.headD none)) (hzero : b.place.structOffsetBitfield = 0)
    (hstep : w.bitfield tg b (inits.headD none) = .ok (before,
      ⟨b.place.structOffset + b.group.small tg.arch,
        [⟨bitfieldValue (inits.headD none), 0, b.width⟩], some b⟩))
    (hfills : w.Fills g before b.place.structOffset)
    (hrest : rest.StructGood tg size inits.tail
      ⟨b.place.structOffset + b.group.small tg.arch,
        [⟨bitfieldValue (inits.headD none), 0, b.width⟩], some b⟩ (some b.group)) :
    (ObjMembers.bitfield b rest).StructGood tg size inits w g := by
  obtain ⟨more, hmore, hle, hrest⟩ := hrest
  have hle' : b.place.structOffset ≤ size := hle
  refine ⟨before ++ more, ?_, hfills.le.trans hle', fun symbols => ?_⟩
  · simp only [ObjMembers.asmDeclareStruct, hstep]
    show (do
      let more ← rest.asmDeclareStruct tg size inits.tail _
      Except.ok (before ++ more)) = _
    rw [hmore]
    rfl
  obtain ⟨hlen, hlies⟩ := hrest symbols
  have hlen' : (assemble symbols more).length = size - b.place.structOffset := hlen
  have hbefore := hfills.length symbols
  have hstart := hfills.le
  refine ⟨by rw [assemble_append, List.length_append, hbefore, hlen']; omega,
    fun image pos hall => ?_⟩
  rw [assemble_append, lies_append, hbefore] at hall
  obtain ⟨hvals, hzeros⟩ := hfills.placed symbols image pos hall.1
  have hpos : pos + w.start + (b.place.structOffset - w.start) = pos + b.place.structOffset := by
    omega
  rw [hpos] at hall
  obtain ⟨hval, hocc, hzeros'⟩ := hlies image pos hall.2
  refine ⟨hvals, ⟨fun hnamed k hk => ?_, hocc⟩, fun k hlo hhi hcov hout => ?_⟩
  · have htop : 0 + b.width ≤ b.group.top := by
      rw [BitfieldDecl.group, if_pos hnamed, Nat.zero_add]
    have hbit := hval b.group rfl _ (List.mem_singleton_self _) htop k hk
    rw [hzero]
    exact hbit
  · simp only [ObjMembers.Covers, not_or] at hout
    by_cases hin : k < 8 * b.place.structOffset
    · exact hzeros k hlo hin hcov
    · refine hzeros' k (Nat.not_lt.mp hin) hhi ?_ hout.2
      rintro ⟨v, hv, hne, hcover⟩
      obtain rfl := List.mem_singleton.mp hv
      refine hout.1 ⟨named_of_value hdi hne, ?_⟩
      unfold BitfieldDecl.Covers
      rw [hzero]
      exact hcover

/-- A bit-field that joins the group, and the rest. -/
theorem structGood_extend {size : Nat} {rest : ObjMembers} {inits : List (Option Init)}
    {g : Group} {vals : List BitfieldVal} {b : BitfieldDecl} {eol : Nat}
    (hdi : b.Normal (inits.headD none)) (hne : b.width ≠ 0)
    (hfirst : b.place.firstBitfield = false) (hmono : g.top ≤ (g.add b).top)
    (hoff : b.place.structOffset = g.first.place.structOffset)
    (hrest : rest.StructGood tg size inits.tail
      ⟨eol, vals ++ [⟨bitfieldValue (inits.headD none), b.place.structOffsetBitfield, b.width⟩],
        some g.first⟩ (some (g.add b))) :
    (ObjMembers.bitfield b rest).StructGood tg size inits ⟨eol, vals, some g.first⟩ (some g) := by
  obtain ⟨more, hmore, hle, hrest⟩ := hrest
  have hstep : Walk.bitfield tg ⟨eol, vals, some g.first⟩ b (inits.headD none) = _ :=
    Walk.bitfield_extend rfl hdi hne hfirst
  refine ⟨more, ?_, hle, fun symbols => ?_⟩
  · simp only [ObjMembers.asmDeclareStruct, hstep]
    show (do
      let more ← rest.asmDeclareStruct tg size inits.tail _
      Except.ok ([] ++ more)) = _
    rw [hmore]
    rfl
  obtain ⟨hlen, hlies⟩ := hrest symbols
  refine ⟨hlen, fun image pos hall => ?_⟩
  obtain ⟨hval, hocc, hzeros⟩ := hlies image pos hall
  refine ⟨fun g' hg' v hv htop => ?_, ⟨fun hnamed k hk => ?_, hocc⟩, fun k hlo hhi hcov hout => ?_⟩
  · obtain rfl : g = g' := by simpa using hg'
    exact hval _ rfl v (List.mem_append_left _ hv) (htop.trans hmono)
  · have htop : b.place.structOffsetBitfield + b.width ≤ (g.add b).top := by
      simp only [Group.add, hnamed, if_true, le_refl]
    have hbit := hval _ rfl _ (List.mem_append_right _ (List.mem_singleton_self _)) htop k hk
    rw [hoff]
    exact hbit
  · simp only [ObjMembers.Covers, not_or] at hout
    refine hzeros k hlo hhi ?_ hout.2
    rintro ⟨v, hv, hval', hcover⟩
    rcases List.mem_append.mp hv with hv | hv
    · exact hcov ⟨v, hv, hval', hcover⟩
    · obtain rfl := List.mem_singleton.mp hv
      refine hout.1 ⟨named_of_value hdi hval', ?_⟩
      unfold BitfieldDecl.Covers
      rw [hoff]
      exact hcover

/-- An ordinary member, and the rest. -/
theorem structGood_decl {size : Nat} {rest : ObjMembers} {inits : List (Option Init)} {w : Walk}
    {g : Option Group} {d : MemberDecl} {ref : ObjType} {before : List Directive}
    (hstep : w.decl tg d (ref.size tg.arch) =
      .ok (before, ⟨d.place.structOffset + ref.size tg.arch, [], none⟩))
    (hfills : w.Fills g before d.place.structOffset)
    (hgood : ref.Good tg (inits.headD none))
    (hrest : rest.StructGood tg size inits.tail
      ⟨d.place.structOffset + ref.size tg.arch, [], none⟩ none) :
    (ObjMembers.decl d ref rest).StructGood tg size inits w g := by
  obtain ⟨more, hmore, hle, hrest⟩ := hrest
  obtain ⟨this, hthis, hgood⟩ := hgood
  have hle' : d.place.structOffset + ref.size tg.arch ≤ size := hle
  have hstart := hfills.le
  refine ⟨before ++ this ++ more, ?_, by omega, fun symbols => ?_⟩
  · simp only [ObjMembers.asmDeclareStruct, hstep]
    show (do
      let this ← ref.asmDeclareInit tg (inits.headD none)
      let more ← rest.asmDeclareStruct tg size inits.tail _
      Except.ok (before ++ this ++ more)) = _
    rw [hthis]
    show (do
      let more ← rest.asmDeclareStruct tg size inits.tail _
      Except.ok (before ++ this ++ more)) = _
    rw [hmore]
    rfl
  obtain ⟨hlen, hlies⟩ := hrest symbols
  obtain ⟨hsize, hthis⟩ := hgood symbols
  have hlen' : (assemble symbols more).length = size - (d.place.structOffset + ref.size tg.arch) :=
    hlen
  have hbefore := hfills.length symbols
  refine ⟨by simp only [assemble_append, List.length_append, hbefore, hsize, hlen']; omega,
    fun image pos hall => ?_⟩
  rw [assemble_append, assemble_append, lies_append, lies_append, List.length_append, hbefore,
    hsize] at hall
  obtain ⟨⟨hpad, hmember⟩, htail⟩ := hall
  obtain ⟨hvals, hzeros⟩ := hfills.placed symbols image pos hpad
  rw [show pos + w.start + (d.place.structOffset - w.start) = pos + d.place.structOffset by omega]
    at hmember
  rw [show pos + w.start + (d.place.structOffset - w.start + ref.size tg.arch) =
    pos + (d.place.structOffset + ref.size tg.arch) by omega] at htail
  obtain ⟨-, hocc, hzeros'⟩ := hlies image pos htail
  refine ⟨hvals, ⟨hthis image _ hmember, hocc⟩, fun k hlo hhi hcov hout => ?_⟩
  simp only [ObjMembers.Covers, not_or] at hout
  by_cases hin : k < 8 * d.place.structOffset
  · exact hzeros k hlo hin hcov
  · have hbeyond : 8 * (d.place.structOffset + ref.size tg.arch) ≤ k := by
      by_contra hmem
      exact hout.1 ⟨Nat.not_lt.mp hin, Nat.not_le.mp hmem⟩
    refine hzeros' k hbeyond hhi ?_ hout.2
    rintro ⟨v, hv, -⟩
    exact absurd hv List.not_mem_nil

/-- While the offset stays below `2 ^ 32`, it is the one of unbounded arithmetic. -/
theorem runs_next {st st' : LayoutState} {m : Member} {p : Placement} {a : Act}
    (hpow : a.Pow) (hruns : a.Runs st m p st') (ho : st.offset < 2 ^ 32)
    (hnext : a.next st.offset < 2 ^ 32) : st'.offset = a.next st.offset := by
  cases a with
  | none => exact hruns.2.1
  | extend bits fill =>
    obtain ⟨-, -, -, hoff, -⟩ := hruns
    rw [hoff, finishTo_eq (by omega) hpow]
    rfl
  | unit before reserve bits fill =>
    obtain ⟨hbefore, hreserve, hfill⟩ := hpow
    obtain ⟨-, -, hoff, -⟩ := hruns
    have hle₁ := le_roundUp hbefore.pos st.offset
    have hle₂ := le_roundUp hreserve.pos (roundUp st.offset before)
    have hle₃ := le_roundUp hfill.pos (roundUp (roundUp st.offset before) reserve + reserve)
    simp only [Act.next] at hnext
    rw [hoff, finishTo_eq (by omega) hbefore,
      packToAlign_isPow (by omega) (hreserve.mono (by omega)), Nat.mod_eq_of_lt (by omega),
      Nat.mod_eq_of_lt (by omega), finishTo_eq (by omega) hfill]
    rfl
  | member align bytes =>
    obtain ⟨halign, -⟩ := hpow
    obtain ⟨-, hoff, -⟩ := hruns
    simp only [Act.next] at hnext
    rw [hoff, packToAlign_isPow (by omega) halign, Nat.mod_eq_of_lt (by omega),
      Nat.mod_eq_of_lt (by omega)]
    rfl

/-- One turn of the layout, while it stays below `2 ^ 32`. -/
theorem foldSueLoop_turn {arch : Arch} {packed : Bool} {st stF : LayoutState} {m : Member}
    {ms : List Member} {p : Placement} {ps : List Placement} (hok : st.ctl.Ok)
    (ho : st.offset < 2 ^ 32)
    (hloop : foldSueLoop arch .struct_ packed st (m :: ms) = .ok (p :: ps, stF))
    (hend : endOf st.offset (st.ctl.acts arch packed (m :: ms)) < 2 ^ 32) :
    ∃ st₁, foldSueMember arch .struct_ packed ms.isEmpty st m = .ok (p, st₁) ∧
      foldSueLoop arch .struct_ packed st₁ ms = .ok (ps, stF) ∧ st₁.ctl.Ok ∧
      (st.ctl.act arch packed m).next st.offset < 2 ^ 32 ∧ st₁.offset < 2 ^ 32 ∧
      endOf st₁.offset (st₁.ctl.acts arch packed ms) < 2 ^ 32 := by
  obtain ⟨p', st₁, ps', hm, hl, hps⟩ := foldSueLoop_cons hloop
  obtain ⟨rfl, rfl⟩ := List.cons.inj hps
  obtain ⟨hctl, -, hruns⟩ := foldSueMember_spec hok hm
  have hnext := (le_endOf (Ctl.acts_pow arch packed (st.ctl.next m) ms) _).trans_lt hend
  have hoff := runs_next (Ctl.act_pow arch packed st.ctl m) hruns ho hnext
  refine ⟨st₁, hm, hl, by rw [hctl]; exact hok.next m, hnext, by rw [hoff]; exact hnext, ?_⟩
  rw [hoff, hctl]
  exact hend

/-- The members of a struct, from any point between two of them on. -/
theorem ObjMembers.structGood {packed : Bool} {size : Nat} (hlt : size < 2 ^ 32)
    {stF : LayoutState} (hsize : stF.offset ≤ size) (ms : ObjMembers) :
    ∀ (st : LayoutState) (inits : List (Option Init)) (w : Walk) (g : Option Group),
      Between tg.arch st w g → st.ctl.Ok → st.offset < 2 ^ 32 →
      foldSueLoop tg.arch .struct_ packed st (ms.members tg.arch) = .ok (ms.placements, stF) →
      endOf st.offset (st.ctl.acts tg.arch packed (ms.members tg.arch)) < 2 ^ 32 →
      ms.Tight tg.arch g → ms.NormalStruct inits → ms.EachGood tg inits →
      ms.StructGood tg size inits w g := by
  induction ms using ObjMembers.induct with
  | nil =>
    intro st inits w g hw _ _ hloop _ htight _ _
    cases hloop
    exact structGood_nil hw hsize hlt htight
  | decl d ref rest ih =>
    intro st inits w g hw hok ho hloop hend htight hnormal hgood
    obtain ⟨st₁, hm, hl, hok₁, hnext, ho₁, hend₁⟩ := foldSueLoop_turn hok ho hloop hend
    obtain ⟨hle, hoff, -, hcur⟩ := foldSueMember_decl ho hnext hm
    obtain ⟨hgap, htight⟩ := htight
    obtain ⟨before, hstep, hfills⟩ := Walk.decl_ok hw (ref.size tg.arch) hle
      (by rw [← hoff]; exact ho₁) hgap
    refine structGood_decl hstep hfills hgood.1 ?_
    rw [← hoff]
    exact ih st₁ inits.tail _ none (.plain (.inr hcur)) hok₁ ho₁ hl hend₁ htight hnormal.2 hgood.2
  | bitfield b rest ih =>
    intro st inits w g hw hok ho hloop hend htight hnormal hgood
    obtain ⟨st₁, hm, hl, hok₁, hnext, ho₁, hend₁⟩ := foldSueLoop_turn hok ho hloop hend
    obtain ⟨hdi, hnormal⟩ := hnormal
    by_cases hzero : b.width = 0
    · obtain ⟨hoff, hfirst, hsame, hfirst₁, hrealign⟩ := foldSueMember_zero hok ho hzero hm
      simp only [ObjMembers.Tight, if_pos hzero] at htight
      have hstep : w.bitfield tg b (inits.headD none) = _ :=
        Walk.bitfield_zero hw (inits.headD none) hzero hoff hfirst
      exact structGood_zero hzero hstep
        (ih st₁ inits.tail w g (hw.after_zero hsame hfirst₁ hrealign) hok₁ ho₁ hl hend₁ htight
          hnormal hgood)
    simp only [ObjMembers.Tight, if_neg hzero] at htight
    cases hopen : st.ctl.opens b.width with
    | true =>
      obtain ⟨hle, hbit, hfirst, hfirst₁, hle₁, -, hlimit, hcur⟩ :=
        foldSueMember_open ho hzero hopen hnext hm
      simp only [hfirst, if_true] at htight
      obtain ⟨before, hstep, hfills⟩ := Walk.bitfield_open hw hdi hzero hle hbit hfirst
        (hle₁.trans_lt ho₁) htight.1
      refine structGood_open hdi hbit hstep hfills ?_
      exact ih st₁ inits.tail _ _ (Between.after_open hdi hzero hfirst₁ hle₁ hlimit hcur) hok₁ ho₁
        hl hend₁ htight.2 hnormal hgood
    | false =>
      obtain ⟨hrealign, hcur, hin, hplace, hbit, hfirst, hfirst₁, hle, -, hlimit, hcur₁⟩ :=
        foldSueMember_extend ho hzero hopen hnext hm
      simp only [hfirst, Bool.false_eq_true, if_false] at htight
      cases hw with
      | plain hopens =>
        rcases hopens with h | h
        · exact absurd (h.symm.trans hrealign) (by decide)
        · exact absurd h hcur
      | pending h =>
        rename_i g vals
        have hafter := h.after_extend hdi hzero hrealign hcur hin hbit hfirst₁ hle hlimit hcur₁
        have hmono : g.top ≤ (g.add b).top := by
          have htop := (h.unit hrealign hcur).2.1
          unfold Group.add
          dsimp only
          split
          · omega
          · exact le_rfl
        exact structGood_extend hdi hzero hfirst hmono (hplace.trans h.first)
          (ih st₁ inits.tail _ _ (.pending hafter) hok₁ ho₁ hl hend₁ htight hnormal hgood)

end Ucc.Cc1.Data
