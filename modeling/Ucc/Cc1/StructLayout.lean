/-
  Cc1/StructLayout.lean --- the layout of structs without bit-fields, and of unions.

  Source: src/cc1/fold_sue.c, src/cc1/pack.c.

  A struct without bit-fields is laid out greedily: each member at the next
  multiple of its alignment.  `pack_to_align` masks with an `unsigned`, and sizes
  and offsets are `unsigned`, so the layout is the greedy one exactly when the
  struct ends below `2 ^ 32`.

  A union goes through the same loop.  Its ordinary members do not touch the state
  of the bit-fields, and its bit-fields are placed one after the other as in a
  struct: only the first of them is at the start of the union.
-/
import Ucc.Cc1.Overlap

set_option autoImplicit false

namespace Ucc.Cc1

open Ucc.Lib

/-! ## Greedy layout -/

/-- What a greedy layout reads of a member. -/
structure Item where
  size : Nat
  align : Nat
  deriving DecidableEq, Repr

/-- The offsets of the items from `o` on, each at the next multiple of its
alignment. -/
def greedyOffsets : Nat → List Item → List Nat
  | _, [] => []
  | o, i :: is => roundUp o i.align :: greedyOffsets (roundUp o i.align + i.size) is

/-- The end of the last item. -/
def greedyEnd : Nat → List Item → Nat
  | o, [] => o
  | o, i :: is => greedyEnd (roundUp o i.align + i.size) is

/-- The largest alignment. -/
def greedyAlign : List Item → Nat
  | [] => 1
  | i :: is => max i.align (greedyAlign is)

theorem le_greedyEnd {is : List Item} (hpos : ∀ i ∈ is, 0 < i.align) (o : Nat) :
    o ≤ greedyEnd o is := by
  induction is generalizing o with
  | nil => exact le_rfl
  | cons i is ih =>
    have hround := le_roundUp (hpos i List.mem_cons_self) o
    have hrest := ih (fun j hj => hpos j (List.mem_cons_of_mem _ hj)) (roundUp o i.align + i.size)
    simp only [greedyEnd]
    omega

theorem greedyOffsets_aligned (o : Nat) (is : List Item) :
    ∀ x ∈ (greedyOffsets o is).zip is, x.2.align ∣ x.1 := by
  induction is generalizing o with
  | nil => exact fun x hx => nomatch hx
  | cons i is ih =>
    intro x hx
    rcases List.mem_cons.mp hx with rfl | hx
    · exact dvd_roundUp o i.align
    · exact ih _ x hx

theorem greedyAlign_isPow {is : List Item} (hpow : ∀ i ∈ is, IsPow 30 i.align) :
    IsPow 30 (greedyAlign is) := by
  induction is with
  | nil => exact IsPow.one 30
  | cons i is ih =>
    exact (hpow i List.mem_cons_self).max
      (.inr (ih fun j hj => hpow j (List.mem_cons_of_mem _ hj)))

/-! ## Structs without bit-fields -/

/-- The size and the effective alignment of an ordinary member. -/
def Member.item (packed : Bool) (m : Member) : Item :=
  match m.kind with
  | .normal size align _ => ⟨size, effectiveAlign (packed || m.packed) align.bytes⟩
  | .flexArray align => ⟨0, effectiveAlign (packed || m.packed) align.bytes⟩
  | .bitfield _ _ _ => ⟨0, 1⟩

/-- A bit-field. -/
def Member.isBitfield (m : Member) : Bool :=
  match m.kind with
  | .bitfield _ _ _ => true
  | _ => false

/-- A flexible array. -/
def Member.isFlexArray (m : Member) : Bool :=
  match m.kind with
  | .flexArray _ => true
  | _ => false

/-- No bit-fields, and no flexible array except as the last member. -/
def PlainMembers : List Member → Prop
  | [] => True
  | m :: ms => m.isBitfield = false ∧ (m.isFlexArray = true → ms = []) ∧ PlainMembers ms

/-- What the greedy layout reads of a struct. -/
def Sue.items (sue : Sue) : List Item := sue.members.map (Member.item sue.packed)

/-- The largest alignment of a member, or the one that the struct asks for. -/
def Sue.greedyAlign (sue : Sue) : Nat :=
  foldGetMaxAlignAttribute sue.aligned (Cc1.greedyAlign sue.items)

/-- The end of the last member, rounded up to the alignment. -/
def Sue.greedySize (sue : Sue) : Nat := roundUp (greedyEnd 0 sue.items) sue.greedyAlign

/-- The layout is the greedy one. -/
structure Layout.Greedy (l : Layout) (sue : Sue) : Prop where
  offsets : l.placements.map Placement.structOffset = greedyOffsets 0 sue.items
  align : l.align = sue.greedyAlign
  size : l.size = sue.greedySize
  size_dvd : l.align ∣ l.size
  aligned : ∀ x ∈ l.placements.zip sue.members, (x.2.item sue.packed).align ∣ x.1.structOffset

theorem Member.item_isPow (packed : Bool) (m : Member) : IsPow 30 (m.item packed).align := by
  unfold Member.item
  split
  · exact effectiveAlign_isPow _ _
  · exact effectiveAlign_isPow _ _
  · exact IsPow.one 30

theorem Member.item_size_lt (packed : Bool) (m : Member) : (m.item packed).size < 2 ^ 32 := by
  unfold Member.item
  split
  · rename_i size align lt _
    exact lt
  · exact Nat.two_pow_pos 32
  · exact Nat.two_pow_pos 32

theorem Sue.items_isPow (sue : Sue) : ∀ i ∈ sue.items, IsPow 30 i.align := by
  intro i hi
  obtain ⟨m, -, rfl⟩ := List.mem_map.mp hi
  exact m.item_isPow sue.packed

/-- The body of the loop places an ordinary member. -/
theorem foldSueMember_plain (arch : Arch) (packed last : Bool) (st : LayoutState) {m : Member}
    (hbits : m.isBitfield = false) (hflex : m.isFlexArray = true → last = true) :
    let next := packNext st.offset (m.item packed).size (m.item packed).align
    ∃ p st₁, foldSueMember arch .struct_ packed last st m = .ok (p, st₁) ∧
      p.structOffset = next.1 % 2 ^ 32 ∧ st₁.offset = next.2 ∧
      st₁.alignMax = max st.alignMax (m.item packed).align := by
  obtain ⟨kind, mpacked⟩ := m
  cases kind with
  | normal size align lt => exact ⟨_, _, rfl, rfl, rfl, rfl⟩
  | flexArray align =>
    obtain rfl := hflex rfl
    exact ⟨_, _, rfl, rfl, rfl, rfl⟩
  | bitfield ty bits le => cases hbits

/-- One member, while the struct ends below `2 ^ 32`. -/
theorem packNext_eq {o : Nat} {i : Item} (ho : o < 2 ^ 32) (hpow : IsPow 30 i.align)
    (hlt : roundUp o i.align < 2 ^ 32) (hsize : i.size < 2 ^ 32) :
    packNext o i.size i.align = (roundUp o i.align, roundUp o i.align + i.size) := by
  simp only [packNext]
  rw [packToAlign_isPow (by omega) hpow, Nat.mod_eq_of_lt hlt, Nat.mod_eq_of_lt (by omega)]

theorem foldSueLoop_step {arch : Arch} {prim : SuePrimitive} {packed : Bool}
    {st st₁ stF : LayoutState} {m : Member} {ms : List Member} {p : Placement}
    {ps : List Placement} (hstep : foldSueMember arch prim packed ms.isEmpty st m = .ok (p, st₁))
    (hloop : foldSueLoop arch prim packed st₁ ms = .ok (ps, stF)) :
    foldSueLoop arch prim packed st (m :: ms) = .ok (p :: ps, stF) := by
  rw [foldSueLoop, hstep]
  simp only
  rw [hloop]

/-- The loop over ordinary members: the alignment in any case, the offsets while
they stay below `2 ^ 32`. -/
theorem foldSueLoop_plain (arch : Arch) (packed : Bool) (ms : List Member) (st : LayoutState)
    (hms : PlainMembers ms) (hal : 1 ≤ st.alignMax) :
    ∃ ps stF, foldSueLoop arch .struct_ packed st ms = .ok (ps, stF) ∧
      stF.alignMax = max st.alignMax (greedyAlign (ms.map (Member.item packed))) ∧
      (greedyEnd st.offset (ms.map (Member.item packed)) < 2 ^ 32 →
        ps.map Placement.structOffset =
            greedyOffsets st.offset (ms.map (Member.item packed)) ∧
          stF.offset = greedyEnd st.offset (ms.map (Member.item packed))) := by
  induction ms generalizing st with
  | nil => exact ⟨[], st, rfl, (max_eq_left hal).symm, fun _ => ⟨rfl, rfl⟩⟩
  | cons m ms ih =>
    obtain ⟨hbits, hflex, hrest⟩ := hms
    have hlast : m.isFlexArray = true → ms.isEmpty = true := fun h => by
      rw [hflex h]
      rfl
    obtain ⟨p, st₁, hstep, hp, hoff₁, hal₁⟩ :=
      foldSueMember_plain arch packed ms.isEmpty st hbits hlast
    obtain ⟨ps, stF, hloop, hmax, hoffs⟩ := ih st₁ hrest (by rw [hal₁]; exact le_max_of_le_left hal)
    refine ⟨p :: ps, stF, ?_, ?_, ?_⟩
    · exact foldSueLoop_step hstep hloop
    · rw [hmax, hal₁]
      exact max_assoc _ _ _
    · intro hend
      simp only [List.map_cons, greedyEnd] at hend
      have hpos : ∀ i ∈ ms.map (Member.item packed), 0 < i.align := by
        intro i hi
        obtain ⟨m', -, rfl⟩ := List.mem_map.mp hi
        exact (m'.item_isPow packed).pos
      have hle := le_greedyEnd hpos (roundUp st.offset (m.item packed).align + (m.item packed).size)
      have hround := le_roundUp (m.item_isPow packed).pos st.offset
      have hpack := packNext_eq (i := m.item packed) (o := st.offset) (by omega)
        (m.item_isPow packed) (by omega) (m.item_size_lt packed)
      rw [hpack] at hp hoff₁
      rw [hoff₁] at hoffs
      obtain ⟨hps, hoff⟩ := hoffs hend
      refine ⟨?_, hoff⟩
      simp only [List.map_cons, greedyOffsets, hp, hps]
      rw [Nat.mod_eq_of_lt (by omega)]

theorem IsPow.dvd_of_le {n a b : Nat} (ha : IsPow n a) (hb : IsPow n b) (h : a ≤ b) : a ∣ b := by
  obtain ⟨j, -, rfl⟩ := ha
  obtain ⟨k, -, rfl⟩ := hb
  exact Nat.pow_dvd_pow 2 ((Nat.pow_le_pow_iff_right (by omega)).mp h)

theorem IsPow.dvd_top {n a : Nat} (ha : IsPow n a) : a ∣ 2 ^ n := by
  obtain ⟨k, hk, rfl⟩ := ha
  exact Nat.pow_dvd_pow 2 hk

theorem le_foldGetMaxAlignAttribute (aligned : Option Align) (a : Nat) :
    a ≤ foldGetMaxAlignAttribute aligned a := by
  cases aligned with
  | none => exact le_rfl
  | some b => exact le_max_left _ _

/-- The struct's own alignment is a multiple of its members', so that only it
counts for the size. -/
theorem sizeAt_foldGetMaxAlignAttribute {a : Nat} (ha : IsPow 30 a) (aligned : Option Align)
    (o : Nat) :
    sizeAt a (foldGetMaxAlignAttribute aligned a) o =
      roundUp o (foldGetMaxAlignAttribute aligned a) := by
  have ha' := foldGetMaxAlignAttribute_isPow aligned ha
  exact roundUp_roundUp ha.pos ha'.pos (ha.dvd_of_le ha' (le_foldGetMaxAlignAttribute aligned a))

/-- A struct without bit-fields has a layout, and it is the greedy one exactly when
the greedy size is a 32-bit number. -/
theorem foldSue_greedy_iff (arch : Arch) {sue : Sue} (hs : sue.prim = .struct_)
    (hms : PlainMembers sue.members) :
    ∃ l, foldSue arch sue = .ok l ∧ (l.Greedy sue ↔ sue.greedySize < 2 ^ 32) := by
  obtain ⟨ps, stF, hloop, hmax, hoffs⟩ :=
    foldSueLoop_plain arch sue.packed sue.members .init hms le_rfl
  have hpow := greedyAlign_isPow sue.items_isPow
  have halign : stF.alignMax = greedyAlign sue.items := by
    rw [hmax]
    exact max_eq_right hpow.pos
  refine ⟨⟨ps, (foldSueFinish sue stF).1, (foldSueFinish sue stF).2⟩, ?_, ?_⟩
  · rw [foldSue, hs, hloop]
  constructor
  · intro hgreedy
    rw [← hgreedy.size]
    exact foldSueFinish_lt sue stF
  · intro hlt
    have hpos' := (foldGetMaxAlignAttribute_isPow sue.aligned hpow).pos
    have hend : greedyEnd 0 sue.items < 2 ^ 32 := lt_of_le_of_lt (le_roundUp hpos' _) hlt
    obtain ⟨hps, hoff⟩ := hoffs hend
    have hsize : (foldSueFinish sue stF).1 = sue.greedySize := by
      rw [foldSueFinish_size (if_pos hs) (by rw [hoff]; exact hend.le) (halign ▸ hpow), halign,
        sizeAt_foldGetMaxAlignAttribute hpow, hoff]
      exact if_pos hlt
    have hal : (foldSueFinish sue stF).2 = sue.greedyAlign := by
      show foldGetMaxAlignAttribute sue.aligned stF.alignMax = _
      rw [halign]
      rfl
    refine ⟨hps, hal, hsize, ?_, ?_⟩
    · simp only [hal, hsize]
      exact dvd_roundUp _ _
    · intro x hx
      have hmem := List.mem_map_of_mem (f := Prod.map Placement.structOffset
        (Member.item sue.packed)) hx
      rw [← List.zip_map, hps] at hmem
      exact greedyOffsets_aligned 0 sue.items _ hmem

/-- `struct { char c; int i; char rest[]; }`. -/
def charIntFlex : Sue :=
  ⟨.struct_, false, none,
    [⟨charKind, false⟩, ⟨intKind, false⟩, ⟨.flexArray charAlign, false⟩]⟩

theorem foldSue_greedy_iff_charIntFlex :
    charIntFlex.prim = .struct_ ∧ PlainMembers charIntFlex.members ∧
      ∃ l, foldSue .bits64 charIntFlex = .ok l ∧
        (l.Greedy charIntFlex ↔ charIntFlex.greedySize < 2 ^ 32) := by
  have hms : PlainMembers charIntFlex.members :=
    ⟨rfl, by rintro ⟨⟩, rfl, by rintro ⟨⟩, rfl, fun _ => rfl, trivial⟩
  exact ⟨rfl, hms, foldSue_greedy_iff .bits64 rfl hms⟩

/-- `struct { char a[4294967295]; int b; }`. -/
def hugeArray : Sue :=
  ⟨.struct_, false, none,
    [⟨.normal 4294967295 charAlign (by decide), false⟩, ⟨intKind, false⟩]⟩

/-- `b` is placed at 0, under `a`. -/
theorem hugeArray_not_greedy :
    ¬ ∀ (arch : Arch) (sue : Sue) (l : Layout), sue.prim = .struct_ →
      PlainMembers sue.members → foldSue arch sue = .ok l → l.Greedy sue := by
  intro hall
  have hgreedy := hall .bits64 hugeArray ⟨[⟨0, 0, false, none⟩, ⟨0, 0, false, none⟩], 4, 4⟩ rfl
    ⟨rfl, by rintro ⟨⟩, rfl, by rintro ⟨⟩, trivial⟩ (by decide)
  exact absurd hgreedy.offsets (by decide)

/-! ## Unions -/

/-- A bit-field that takes up bits. -/
def Member.isUnit (m : Member) : Bool :=
  match m.kind with
  | .bitfield _ bits _ => bits != 0
  | _ => false

/-- The number of bytes that a member needs. -/
def Member.needs (m : Member) : Nat :=
  match m.kind with
  | .normal size _ _ => size
  | .flexArray _ => 0
  | .bitfield _ bits _ => (bits + 7) / 8

/-- The bytes that a union gives to a member, and the alignment that the member
gives to the union: for a bit-field, those of a unit of its own. -/
def Member.unionItem (arch : Arch) (packed : Bool) (m : Member) : Item :=
  match m.kind with
  | .normal size align _ => ⟨size, effectiveAlign (packed || m.packed) align.bytes⟩
  | .flexArray align => ⟨0, effectiveAlign (packed || m.packed) align.bytes⟩
  | .bitfield ty bits _ =>
      if bits = 0 then ⟨0, 1⟩
      else ⟨reserved arch bits, effectiveAlign (packed || m.packed) ty.align.bytes⟩

/-- The largest size. -/
def largest : List Item → Nat
  | [] => 0
  | i :: is => max i.size (largest is)

/-- The items of a union. -/
def Sue.unionItems (arch : Arch) (sue : Sue) : List Item :=
  sue.members.map (Member.unionItem arch sue.packed)

/-- The largest alignment of a member, or the one that the union asks for. -/
def Sue.unionAlign (arch : Arch) (sue : Sue) : Nat :=
  foldGetMaxAlignAttribute sue.aligned (Cc1.greedyAlign (sue.unionItems arch))

/-- The bytes given to the largest member, rounded up to the alignment. -/
def Sue.unionSize (arch : Arch) (sue : Sue) : Nat :=
  roundUp (largest (sue.unionItems arch)) (sue.unionAlign arch)

/-- Every member is at the start of the union, and has room in it. -/
structure Layout.UnionLayout (l : Layout) (sue : Sue) : Prop where
  offsets : ∀ p ∈ l.placements, p.structOffset = 0 ∧ p.structOffsetBitfield = 0
  room : ∀ m ∈ sue.members, m.needs ≤ l.size
  size_dvd : l.align ∣ l.size

/-- No bit-field stands after one that takes up bits. -/
def OneUnit (ms : List Member) : Prop :=
  ms.Pairwise fun a b => a.isUnit = true → b.isBitfield = false

/-- No bit-field stands after one that takes up bits, what is given to a bit-field
is enough for it or made up for by the rest of the union, and the size of the union
is a 32-bit number. -/
structure Sue.UnionFits (arch : Arch) (sue : Sue) : Prop where
  oneUnit : OneUnit sue.members
  room : ∀ m ∈ sue.members, m.isBitfield = true → m.needs ≤ sue.unionSize arch
  lt : sue.unionSize arch < 2 ^ 32

/-- At the start of the union. -/
def Placement.AtStart (p : Placement) : Prop :=
  p.structOffset = 0 ∧ p.structOffsetBitfield = 0

/-- What a member adds to the size and the alignment. -/
def Adds (st st' : LayoutState) (i : Item) : Prop :=
  st'.szMax = max st.szMax i.size ∧ st'.alignMax = max st.alignMax i.align

/-- What all members add to the size and the alignment. -/
def AddsAll (st st' : LayoutState) (is : List Item) : Prop :=
  st'.szMax = max st.szMax (largest is) ∧ st'.alignMax = max st.alignMax (greedyAlign is)

theorem AddsAll.nil {st : LayoutState} (h : 1 ≤ st.alignMax) : AddsAll st st [] :=
  ⟨(max_eq_left (Nat.zero_le _)).symm, (max_eq_left h).symm⟩

theorem AddsAll.cons {st st₁ st' : LayoutState} {i : Item} {is : List Item}
    (hstep : Adds st st₁ i) (hrest : AddsAll st₁ st' is) : AddsAll st st' (i :: is) := by
  obtain ⟨hsz, hal⟩ := hstep
  obtain ⟨hsz', hal'⟩ := hrest
  rw [hsz] at hsz'
  rw [hal] at hal'
  exact ⟨hsz'.trans (max_assoc _ _ _), hal'.trans (max_assoc _ _ _)⟩

/-- Before a bit-field that takes up bits. -/
structure Fresh (st : LayoutState) : Prop where
  offset : st.offset = 0
  master : st.masterTy = none
  off : st.currentOff = 0
  limit : st.currentLimit = 0
  align : 1 ≤ st.alignMax

/-- After a bit-field that takes up bits. -/
structure Used (st : LayoutState) : Prop where
  ok : st.ctl.Ok
  pos : 0 < st.offset
  le : st.offset ≤ 8
  align : 1 ≤ st.alignMax

theorem Fresh.ok {st : LayoutState} (h : Fresh st) : st.ctl.Ok := by
  refine ⟨.inl h.off, ?_⟩
  simp only [LayoutState.ctl, h.master]
  exact h.limit

theorem Adds.align {st st₁ : LayoutState} {i : Item} (h : Adds st st₁ i)
    (hal : 1 ≤ st.alignMax) : 1 ≤ st₁.alignMax := by
  rw [h.2]
  exact le_max_of_le_left hal

/-- An ordinary member of a union only counts for its size and alignment. -/
theorem foldSueMember_union_normal (arch : Arch) (packed last : Bool) (st : LayoutState)
    {m : Member} (hbits : m.isBitfield = false) (hflex : m.isFlexArray = false) :
    ∃ p st₁, foldSueMember arch .union_ packed last st m = .ok (p, st₁) ∧ p.AtStart ∧
      Adds st st₁ (m.unionItem arch packed) ∧
      st₁ = { st with szMax := st₁.szMax, alignMax := st₁.alignMax } := by
  obtain ⟨kind, mpacked⟩ := m
  cases kind with
  | normal size align lt => exact ⟨_, _, rfl, ⟨rfl, rfl⟩, ⟨rfl, rfl⟩, rfl⟩
  | flexArray align => cases hflex
  | bitfield ty bits le => cases hbits

/-- A bit-field of width 0 before any other. -/
theorem foldSueMember_fresh_zero (arch : Arch) (packed last : Bool) {st : LayoutState}
    {m : Member} (hst : Fresh st) (hbits : m.isBitfield = true) (hunit : m.isUnit = false) :
    ∃ p st₁, foldSueMember arch .union_ packed last st m = .ok (p, st₁) ∧ p.AtStart ∧
      Adds st st₁ (m.unionItem arch packed) ∧ Fresh st₁ := by
  obtain ⟨kind, mpacked⟩ := m
  cases kind with
  | normal size align lt => cases hbits
  | flexArray align => cases hbits
  | bitfield ty bits le =>
    obtain rfl : bits = 0 := by simpa [Member.isUnit] using hunit
    simp only [foldSueMember, foldSueCalcFieldwidth_zero arch hst.ok]
    have heff : effectiveAlign (packed || mpacked) 0 ≤ 1 := by
      unfold effectiveAlign
      split <;> omega
    have hal : max st.alignMax (effectiveAlign (packed || mpacked) 0) = st.alignMax :=
      max_eq_left (heff.trans hst.align)
    have hfresh : Fresh (({ st with realignNext := true } : LayoutState).account 0
        (effectiveAlign (packed || mpacked) 0)) :=
      ⟨hst.offset, hst.master, hst.off, hst.limit, hst.align.trans hal.ge⟩
    refine ⟨_, _, rfl, ⟨?_, hst.off⟩, ⟨rfl, ?_⟩, hfresh⟩
    · simp [hst.offset]
    · exact hal.trans (max_eq_left hst.align).symm

/-- The first bit-field that takes up bits. -/
theorem foldSueMember_fresh_unit (arch : Arch) (packed last : Bool) {st : LayoutState}
    {m : Member} (hst : Fresh st) (hunit : m.isUnit = true) :
    ∃ p st₁, foldSueMember arch .union_ packed last st m = .ok (p, st₁) ∧ p.AtStart ∧
      Adds st st₁ (m.unionItem arch packed) ∧ Used st₁ := by
  obtain ⟨kind, mpacked⟩ := m
  cases kind with
  | normal size align lt => cases hunit
  | flexArray align => cases hunit
  | bitfield ty bits le =>
    have hbits : bits ≠ 0 := by simpa [Member.isUnit] using hunit
    have hopen : st.ctl.opens bits = true := by
      simp [Ctl.opens, LayoutState.ctl, hst.off]
    obtain ⟨j, hj, hr⟩ := reserved_pow arch bits
    have hpow : IsPow 3 (reserved arch bits) := ⟨j, hj, hr⟩
    have hpack : packNext 0 (reserved arch bits) (reserved arch bits) =
        (0, reserved arch bits) := by
      simp only [packNext]
      rw [packToAlign_isPow (by decide) (hpow.mono (by omega)),
        roundUp_eq_self hpow.pos (dvd_zero _), Nat.zero_mod, Nat.zero_add,
        Nat.mod_eq_of_lt (lt_of_le_of_lt hpow.le (by decide))]
    have hbefore : (if st.realignNext || st.currentOff != 0 then st.ctl.masterSize else 1) = 1 := by
      simp [LayoutState.ctl, Ctl.masterSize, hst.master]
    have hcalc := foldSueCalcFieldwidth_open arch st ty hbits hopen
    simp only [hbefore, finishTo_one, hst.offset, hpack] at hcalc
    simp only [foldSueMember, hcalc]
    refine ⟨_, _, rfl, ⟨rfl, rfl⟩, ?_, ?_⟩
    · simp only [Adds, Member.unionItem, if_neg hbits]
      exact ⟨rfl, rfl⟩
    · have hfill : IsPow 3 (if bits = 8 * ty.size then ty.size else 1) := by
        split
        · exact ty.size_isPow
        · exact IsPow.one 3
      have hfinish := finishTo_eq (o := reserved arch bits) (hpow.le.trans (by decide)) hfill
      refine ⟨⟨?_, rfl⟩, ?_, ?_, le_max_of_le_left hst.align⟩
      · show (if bits = 8 * ty.size then 0 else bits) = 0 ∨
          (if bits = 8 * ty.size then 0 else bits) < 8 * ty.size
        split
        · exact .inl rfl
        · exact .inr (by omega)
      · show 0 < finishTo _ _
        rw [hfinish]
        exact hpow.pos.trans_le (le_roundUp hfill.pos _)
      · show finishTo _ _ ≤ 8
        rw [hfinish]
        exact roundUp_le hfill.pos hpow.le hfill.dvd_top

/-- A bit-field after one that takes up bits is not at the start. -/
theorem foldSueMember_used (arch : Arch) (packed last : Bool) {st : LayoutState} {m : Member}
    (hst : Used st) (hbits : m.isBitfield = true) :
    ∃ p st₁, foldSueMember arch .union_ packed last st m = .ok (p, st₁) ∧ ¬ p.AtStart := by
  obtain ⟨kind, mpacked⟩ := m
  cases kind with
  | normal size align lt => cases hbits
  | flexArray align => cases hbits
  | bitfield ty bits le =>
    have hle := hst.le
    have hpos := hst.pos
    by_cases hzero : bits = 0
    · subst hzero
      simp only [foldSueMember, foldSueCalcFieldwidth_zero arch hst.ok]
      refine ⟨_, _, rfl, fun hstart => ?_⟩
      have hoff : st.offset % 2 ^ 32 = 0 := hstart.1
      omega
    cases hopen : st.ctl.opens bits with
    | true =>
      simp only [foldSueMember, foldSueCalcFieldwidth_open arch st ty hzero hopen]
      refine ⟨_, _, rfl, fun hstart => ?_⟩
      -- the new unit starts after the first one
      have hbefore : IsPow 3
          (if st.realignNext || st.currentOff != 0 then st.ctl.masterSize else 1) := by
        split
        · exact st.ctl.masterSize_isPow
        · exact IsPow.one 3
      obtain ⟨j, hj, hr⟩ := reserved_pow arch bits
      have hpow : IsPow 3 (reserved arch bits) := ⟨j, hj, hr⟩
      have hoff : packToAlign (finishTo st.offset _) (reserved arch bits) % 2 ^ 32 = 0 := hstart.1
      have hge := le_roundUp hbefore.pos st.offset
      have hlt := roundUp_lt hbefore.pos st.offset
      have hbefore_le := hbefore.le
      rw [finishTo_eq (by omega) hbefore,
        packToAlign_isPow (by omega) (hpow.mono (by omega))] at hoff
      have hge' := le_roundUp hpow.pos (roundUp st.offset
        (if st.realignNext || st.currentOff != 0 then st.ctl.masterSize else 1))
      have hlt' := roundUp_lt hpow.pos (roundUp st.offset
        (if st.realignNext || st.currentOff != 0 then st.ctl.masterSize else 1))
      have hpow_le := hpow.le
      omega
    | false =>
      simp only [foldSueMember, foldSueCalcFieldwidth_extend arch st ty hzero hopen]
      refine ⟨_, _, rfl, fun hstart => ?_⟩
      have hoff : st.currentOff = 0 := hstart.2
      simp [Ctl.opens, LayoutState.ctl, hoff] at hopen

/-! ### The loop over the members of a union -/

theorem foldSueCalcFieldwidth_ok (arch : Arch) {st : LayoutState} (hok : st.ctl.Ok) (ty : BfType)
    (bits : Nat) : ∃ r, foldSueCalcFieldwidth arch st ty bits = .ok r := by
  by_cases hzero : bits = 0
  · subst hzero
    exact ⟨_, foldSueCalcFieldwidth_zero arch hok ty⟩
  cases hopen : st.ctl.opens bits with
  | true => exact ⟨_, foldSueCalcFieldwidth_open arch st ty hzero hopen⟩
  | false => exact ⟨_, foldSueCalcFieldwidth_extend arch st ty hzero hopen⟩

/-- A bit-field is handled in a union as in a struct. -/
theorem foldSueMember_bitfield_ctl {arch : Arch} {packed last : Bool} {st st₁ : LayoutState}
    {m : Member} {p : Placement} (hok : st.ctl.Ok) (hbits : m.isBitfield = true)
    (h : foldSueMember arch .union_ packed last st m = .ok (p, st₁)) : st₁.ctl.Ok := by
  obtain ⟨kind, mpacked⟩ := m
  cases kind with
  | normal size align lt => cases hbits
  | flexArray align => cases hbits
  | bitfield ty bits le =>
    have hstruct : foldSueMember arch .struct_ packed last st ⟨.bitfield ty bits le, mpacked⟩ =
      .ok (p, st₁) := h
    rw [(foldSueMember_spec hok hstruct).1]
    exact hok.next _

/-- A union without flexible arrays has a layout. -/
theorem foldSueLoop_union_ok (arch : Arch) (packed : Bool) (ms : List Member) (st : LayoutState)
    (hok : st.ctl.Ok) (hflex : ∀ m ∈ ms, m.isFlexArray = false) :
    ∃ ps stF, foldSueLoop arch .union_ packed st ms = .ok (ps, stF) := by
  induction ms generalizing st with
  | nil => exact ⟨[], st, rfl⟩
  | cons m ms ih =>
    have hstep : ∃ p st₁, foldSueMember arch .union_ packed ms.isEmpty st m = .ok (p, st₁) ∧
        st₁.ctl.Ok := by
      cases hbits : m.isBitfield with
      | false =>
        obtain ⟨p, st₁, hstep, -, -, heq⟩ := foldSueMember_union_normal arch packed ms.isEmpty st
          hbits (hflex m List.mem_cons_self)
        refine ⟨p, st₁, hstep, ?_⟩
        rw [heq]
        exact hok
      | true =>
        have hm : ∃ r, foldSueMember arch .union_ packed ms.isEmpty st m = .ok r := by
          obtain ⟨kind, mpacked⟩ := m
          cases kind with
          | normal size align lt => cases hbits
          | flexArray align => cases hbits
          | bitfield ty bits le =>
            obtain ⟨r, hr⟩ := foldSueCalcFieldwidth_ok arch hok ty bits
            simp only [foldSueMember, hr]
            exact ⟨_, rfl⟩
        obtain ⟨⟨p, st₁⟩, hstep⟩ := hm
        exact ⟨p, st₁, hstep, foldSueMember_bitfield_ctl hok hbits hstep⟩
    obtain ⟨p, st₁, hstep, hok₁⟩ := hstep
    obtain ⟨ps, stF, hloop⟩ := ih st₁ hok₁ fun m' hm' => hflex m' (List.mem_cons_of_mem _ hm')
    exact ⟨p :: ps, stF, foldSueLoop_step hstep hloop⟩

/-- From a point after the first unit, every member is at the start exactly when no
bit-field follows. -/
theorem foldSueLoop_used (arch : Arch) (packed : Bool) (ms : List Member) (st : LayoutState)
    (hst : Used st) (hflex : ∀ m ∈ ms, m.isFlexArray = false) :
    ∃ ps stF, foldSueLoop arch .union_ packed st ms = .ok (ps, stF) ∧
      ((∀ p ∈ ps, p.AtStart) ↔ ∀ m ∈ ms, m.isBitfield = false) ∧
      ((∀ m ∈ ms, m.isBitfield = false) →
        AddsAll st stF (ms.map (Member.unionItem arch packed))) := by
  induction ms generalizing st with
  | nil =>
    refine ⟨[], st, rfl, ?_, fun _ => AddsAll.nil hst.align⟩
    simp
  | cons m ms ih =>
    have hflex' : ∀ m' ∈ ms, m'.isFlexArray = false :=
      fun m' hm' => hflex m' (List.mem_cons_of_mem _ hm')
    cases hbits : m.isBitfield with
    | false =>
      obtain ⟨p, st₁, hstep, hstart, hadds, heq⟩ := foldSueMember_union_normal arch packed
        ms.isEmpty st hbits (hflex m List.mem_cons_self)
      have hst₁ : Used st₁ := by
        refine ⟨?_, ?_, ?_, hadds.align hst.align⟩
        · rw [heq]
          exact hst.ok
        · rw [heq]
          exact hst.pos
        · rw [heq]
          exact hst.le
      obtain ⟨ps, stF, hloop, hiff, hall⟩ := ih st₁ hst₁ hflex'
      refine ⟨p :: ps, stF, foldSueLoop_step hstep hloop, ?_, ?_⟩
      · rw [List.forall_mem_cons, List.forall_mem_cons, hiff]
        simp [hstart, hbits]
      · intro hnone
        exact AddsAll.cons hadds (hall fun m' hm' => hnone m' (List.mem_cons_of_mem _ hm'))
    | true =>
      obtain ⟨p, st₁, hstep, hstart⟩ := foldSueMember_used arch packed ms.isEmpty hst hbits
      obtain ⟨ps, stF, hloop⟩ := foldSueLoop_union_ok arch packed ms st₁
        (foldSueMember_bitfield_ctl hst.ok hbits hstep) hflex'
      have hsome : ¬ ∀ m' ∈ m :: ms, m'.isBitfield = false := fun hnone => by
        simp [hbits] at hnone
      refine ⟨p :: ps, stF, foldSueLoop_step hstep hloop, ?_, fun hnone => absurd hnone hsome⟩
      exact iff_of_false (fun hall => hstart (hall p List.mem_cons_self)) hsome

/-- From a point before the first unit, every member is at the start exactly when no
bit-field follows the first unit. -/
theorem foldSueLoop_fresh (arch : Arch) (packed : Bool) (ms : List Member) (st : LayoutState)
    (hst : Fresh st) (hflex : ∀ m ∈ ms, m.isFlexArray = false) :
    ∃ ps stF, foldSueLoop arch .union_ packed st ms = .ok (ps, stF) ∧
      ((∀ p ∈ ps, p.AtStart) ↔ OneUnit ms) ∧
      (OneUnit ms → AddsAll st stF (ms.map (Member.unionItem arch packed))) := by
  induction ms generalizing st with
  | nil =>
    refine ⟨[], st, rfl, ?_, fun _ => AddsAll.nil hst.align⟩
    simp [OneUnit]
  | cons m ms ih =>
    have hflex' : ∀ m' ∈ ms, m'.isFlexArray = false :=
      fun m' hm' => hflex m' (List.mem_cons_of_mem _ hm')
    cases hunit : m.isUnit with
    | true =>
      obtain ⟨p, st₁, hstep, hstart, hadds, hst₁⟩ :=
        foldSueMember_fresh_unit arch packed ms.isEmpty hst hunit
      obtain ⟨ps, stF, hloop, hiff, hall⟩ := foldSueLoop_used arch packed ms st₁ hst₁ hflex'
      have hone : OneUnit (m :: ms) ↔ ∀ m' ∈ ms, m'.isBitfield = false := by
        rw [OneUnit, List.pairwise_cons]
        refine ⟨fun h m' hm' => h.1 m' hm' hunit, fun h => ⟨fun m' hm' _ => h m' hm', ?_⟩⟩
        exact List.pairwise_of_forall_mem_list fun a _ b hb _ => h b hb
      refine ⟨p :: ps, stF, foldSueLoop_step hstep hloop, ?_, ?_⟩
      · rw [List.forall_mem_cons, hiff, hone]
        simp [hstart]
      · intro h
        exact AddsAll.cons hadds (hall (hone.mp h))
    | false =>
      have hstep : ∃ p st₁, foldSueMember arch .union_ packed ms.isEmpty st m = .ok (p, st₁) ∧
          p.AtStart ∧ Adds st st₁ (m.unionItem arch packed) ∧ Fresh st₁ := by
        cases hbits : m.isBitfield with
        | true => exact foldSueMember_fresh_zero arch packed ms.isEmpty hst hbits hunit
        | false =>
          obtain ⟨p, st₁, hstep, hstart, hadds, heq⟩ := foldSueMember_union_normal arch packed
            ms.isEmpty st hbits (hflex m List.mem_cons_self)
          have hal := hadds.align hst.align
          refine ⟨p, st₁, hstep, hstart, hadds, ?_⟩
          rw [heq] at hal ⊢
          exact ⟨hst.offset, hst.master, hst.off, hst.limit, hal⟩
      obtain ⟨p, st₁, hstep, hstart, hadds, hst₁⟩ := hstep
      obtain ⟨ps, stF, hloop, hiff, hall⟩ := ih st₁ hst₁ hflex'
      have hone : OneUnit (m :: ms) ↔ OneUnit ms := by
        rw [OneUnit, List.pairwise_cons, OneUnit]
        simp [hunit]
      refine ⟨p :: ps, stF, foldSueLoop_step hstep hloop, ?_, ?_⟩
      · rw [List.forall_mem_cons, hiff, hone]
        simp [hstart]
      · intro h
        exact AddsAll.cons hadds (hall (hone.mp h))

/-! ### The size of a union -/

theorem largest_le {is : List Item} {n : Nat} (h : ∀ i ∈ is, i.size ≤ n) : largest is ≤ n := by
  induction is with
  | nil => exact Nat.zero_le n
  | cons i is ih =>
    exact max_le (h i List.mem_cons_self) (ih fun j hj => h j (List.mem_cons_of_mem _ hj))

theorem le_largest {is : List Item} {i : Item} (h : i ∈ is) : i.size ≤ largest is := by
  induction is with
  | nil => cases h
  | cons j is ih =>
    rcases List.mem_cons.mp h with rfl | h
    · exact le_max_left _ _
    · exact le_max_of_le_right (ih h)

theorem Member.unionItem_isPow (arch : Arch) (packed : Bool) (m : Member) :
    IsPow 30 (m.unionItem arch packed).align := by
  unfold Member.unionItem
  split
  · exact effectiveAlign_isPow _ _
  · exact effectiveAlign_isPow _ _
  · split
    · exact IsPow.one 30
    · exact effectiveAlign_isPow _ _

theorem Member.unionItem_size_lt (arch : Arch) (packed : Bool) (m : Member) :
    (m.unionItem arch packed).size < 2 ^ 32 := by
  unfold Member.unionItem
  split
  · rename_i size align lt _
    exact lt
  · exact Nat.two_pow_pos 32
  · rename_i ty bits le _
    split
    · exact Nat.two_pow_pos 32
    · obtain ⟨j, hj, hr⟩ := reserved_pow arch bits
      show reserved arch bits < 2 ^ 32
      rw [hr]
      exact Nat.pow_lt_pow_right (by decide) (by omega)

/-- A member that needs nothing is given nothing. -/
theorem Member.unionItem_size_zero (arch : Arch) (packed : Bool) {m : Member}
    (h : m.needs = 0) : (m.unionItem arch packed).size = 0 := by
  obtain ⟨kind, mpacked⟩ := m
  cases kind with
  | normal size align lt => exact h
  | flexArray align => rfl
  | bitfield ty bits le =>
    have hbits : (bits + 7) / 8 = 0 := h
    simp only [Member.unionItem]
    rw [if_pos (by omega)]

/-- An ordinary member is given what it needs. -/
theorem Member.needs_eq (arch : Arch) (packed : Bool) {m : Member} (h : m.isBitfield = false) :
    m.needs = (m.unionItem arch packed).size := by
  obtain ⟨kind, mpacked⟩ := m
  cases kind with
  | normal size align lt => rfl
  | flexArray align => rfl
  | bitfield ty bits le => cases h

theorem Sue.needs_le_unionSize (arch : Arch) {sue : Sue} (hpos : 0 < sue.unionAlign arch)
    {m : Member} (hm : m ∈ sue.members) (h : m.isBitfield = false) :
    m.needs ≤ sue.unionSize arch := by
  rw [m.needs_eq arch sue.packed h]
  exact (le_largest (List.mem_map_of_mem hm)).trans (le_roundUp hpos _)

/-- A union without flexible arrays has a layout, and each of its members is at its
start with room for it exactly when the union fits. -/
theorem foldSue_union_iff (arch : Arch) {sue : Sue} (hu : sue.prim = .union_)
    (hflex : ∀ m ∈ sue.members, m.isFlexArray = false) :
    ∃ l, foldSue arch sue = .ok l ∧ (l.UnionLayout sue ↔ sue.UnionFits arch) := by
  obtain ⟨ps, stF, hloop, hiff, hall⟩ := foldSueLoop_fresh arch sue.packed sue.members .init
    ⟨rfl, rfl, rfl, rfl, le_rfl⟩ hflex
  refine ⟨⟨ps, (foldSueFinish sue stF).1, (foldSueFinish sue stF).2⟩, ?_, ?_⟩
  · rw [foldSue, hu, hloop]
  by_cases hone : OneUnit sue.members
  · obtain ⟨hsz, hal⟩ := hall hone
    have hpow : IsPow 30 (greedyAlign (sue.unionItems arch)) := by
      refine greedyAlign_isPow fun i hi => ?_
      obtain ⟨m, -, rfl⟩ := List.mem_map.mp hi
      exact m.unionItem_isPow arch sue.packed
    have halign : stF.alignMax = greedyAlign (sue.unionItems arch) :=
      hal.trans (max_eq_right hpow.pos)
    have hszMax : stF.szMax = largest (sue.unionItems arch) :=
      hsz.trans (max_eq_right (Nat.zero_le _))
    have hlargest : largest (sue.unionItems arch) ≤ 2 ^ 32 := by
      refine largest_le fun i hi => ?_
      obtain ⟨m, -, rfl⟩ := List.mem_map.mp hi
      exact (m.unionItem_size_lt arch sue.packed).le
    have hnotStruct : (if sue.prim = .struct_ then stF.offset else stF.szMax) =
        largest (sue.unionItems arch) := by
      rw [hu, if_neg (by decide), hszMax]
    have hsize : (foldSueFinish sue stF).1 =
        if sue.unionSize arch < 2 ^ 32 then sue.unionSize arch else 0 := by
      rw [foldSueFinish_size hnotStruct hlargest (halign ▸ hpow), halign,
        sizeAt_foldGetMaxAlignAttribute hpow]
      rfl
    have halign' : (foldSueFinish sue stF).2 = sue.unionAlign arch := by
      show foldGetMaxAlignAttribute sue.aligned stF.alignMax = _
      rw [halign]
      rfl
    have hpos : 0 < sue.unionAlign arch := (foldGetMaxAlignAttribute_isPow sue.aligned hpow).pos
    constructor
    · intro hl
      have hlt : sue.unionSize arch < 2 ^ 32 := by
        by_contra hge
        -- the size wraps to 0, so that no member needs anything
        have hzero : largest (sue.unionItems arch) ≤ 0 := by
          refine largest_le fun i hi => ?_
          obtain ⟨m, hm, rfl⟩ := List.mem_map.mp hi
          have hroom := hl.room m hm
          simp only [hsize, if_neg hge] at hroom
          exact (Member.unionItem_size_zero arch sue.packed (by omega)).le
        rw [Sue.unionSize, Nat.le_zero.mp hzero, roundUp_eq_self hpos (dvd_zero _)] at hge
        omega
      refine ⟨hone, fun m hm _ => ?_, hlt⟩
      have hroom := hl.room m hm
      simp only [hsize, if_pos hlt] at hroom
      exact hroom
    · intro hfits
      rw [if_pos hfits.lt] at hsize
      refine ⟨hiff.mpr hone, fun m hm => ?_, ?_⟩
      · simp only [hsize]
        cases hbits : m.isBitfield with
        | true => exact hfits.room m hm hbits
        | false => exact Sue.needs_le_unionSize arch hpos hm hbits
      · simp only [hsize, halign']
        exact dvd_roundUp _ _
  · exact iff_of_false (fun hl => hone (hiff.mp hl.offsets)) fun hfits => hone hfits.oneUnit

/-- `union { int a:3; char c[3]; }`. -/
def threeBitsOrChars : Sue :=
  ⟨.union_, false, none,
    [⟨.bitfield intType 3 (by decide), false⟩, ⟨.normal 3 charAlign (by decide), false⟩]⟩

theorem foldSue_union_iff_threeBitsOrChars :
    threeBitsOrChars.prim = .union_ ∧
      (∀ m ∈ threeBitsOrChars.members, m.isFlexArray = false) ∧
      ∃ l, foldSue .bits64 threeBitsOrChars = .ok l ∧
        (l.UnionLayout threeBitsOrChars ↔ threeBitsOrChars.UnionFits .bits64) :=
  ⟨rfl, by decide, foldSue_union_iff .bits64 rfl (by decide)⟩

/-- `union { int a:3; int b:4; }`. -/
def twoBitfields : Sue :=
  ⟨.union_, false, none,
    [⟨.bitfield intType 3 (by decide), false⟩, ⟨.bitfield intType 4 (by decide), false⟩]⟩

/-- `b` is placed at bit 3, after `a`. -/
theorem twoBitfields_not_at_start :
    ¬ ∀ (arch : Arch) (sue : Sue) (l : Layout), sue.prim = .union_ →
      (∀ m ∈ sue.members, m.isFlexArray = false) → foldSue arch sue = .ok l →
        l.UnionLayout sue := by
  intro hall
  have hl := hall .bits64 twoBitfields
    ⟨[⟨0, 0, true, some intType⟩, ⟨0, 3, false, some intType⟩], 4, 4⟩ rfl (by decide) (by decide)
  have hstart := hl.offsets ⟨0, 3, false, some intType⟩ (by decide)
  exact absurd hstart.2 (by decide)

end Ucc.Cc1
