/-
  Cc1/AutoImage.lean --- what each bit of an initialised object is to be.

  Source: decl_init_create_assignments_base in src/cc1/decl_init.c, asm_declare_init in
  src/cc1/out/asm.c; fold_sue in src/cc1/fold_sue.c for the places of the members.

  A bit of an object is given by the initialiser, or it is padding.  Static data has a
  zero in each bit of padding, an object on the stack has whatever was there.
-/
import Ucc.Cc1.AutoInit
import Ucc.Cc1.DataEmit

set_option autoImplicit false

namespace Ucc.Cc1.Data

open Ucc.Lib

instance (b : BitfieldDecl) (k : Nat) : Decidable (b.Covers k) :=
  inferInstanceAs (Decidable (_ ∧ _))

instance (d : MemberDecl) (size k : Nat) : Decidable (d.Covers size k) :=
  inferInstanceAs (Decidable (_ ∧ _))

/-! ## Bits -/

/-- The first bit of a bit-field in its struct. -/
def BitfieldDecl.start (b : BitfieldDecl) : Nat :=
  8 * b.place.structOffset + b.place.structOffsetBitfield

/-- Bit `k` of a struct, in a bit-field. -/
def BitfieldDecl.bit (b : BitfieldDecl) (init : Option Init) (k : Nat) : Bool :=
  (bitfieldValue init).getLsbD (k - b.start)

mutual

/-- Bit `k` of an object with this initialiser, `none` in padding. -/
def ObjType.bit (arch : Arch) (symbols : String → Integral) :
    ObjType → Option Init → Nat → Option Bool
  | .scalar s, init, k =>
      match init with
      | none => some false
      | some (.scalar c) => some ((c.value symbols s).getLsbD k)
      | some _ => none
  | .array elem _, init, k =>
      match init with
      | none => some false
      | some (.brace inits) =>
          elem.bit arch symbols (Init.resolve (inits.getD (k / (8 * elem.size arch)) none))
            (k % (8 * elem.size arch))
      | some _ => none
  | .sue su ms, init, k =>
      match init with
      | none => some false
      | some (.brace inits) | some (.lit inits) =>
          match su.prim with
          | .struct_ => ms.bitStruct arch symbols inits k
          | .union_ =>
              if inits.all Option.isNone then some false else ms.bitUnion arch symbols inits k
      | some _ => none

def ObjMembers.bitStruct (arch : Arch) (symbols : String → Integral) :
    ObjMembers → List (Option Init) → Nat → Option Bool
  | .nil, _, _ => none
  | .decl d ref rest, inits, k =>
      if d.Covers (ref.size arch) k then
        ref.bit arch symbols (inits.headD none) (k - 8 * d.place.structOffset)
      else rest.bitStruct arch symbols inits.tail k
  | .bitfield b rest, inits, k =>
      if b.named = true ∧ b.Covers k then some (b.bit (inits.headD none) k)
      else rest.bitStruct arch symbols inits.tail k

def ObjMembers.bitUnion (arch : Arch) (symbols : String → Integral) :
    ObjMembers → List (Option Init) → Nat → Option Bool
  | .nil, _, _ => none
  | .decl d ref rest, inits, k =>
      match inits with
      | [] => none
      | none :: inits => rest.bitUnion arch symbols inits k
      | some init :: _ =>
          if d.Covers (ref.size arch) k then
            ref.bit arch symbols (some init) (k - 8 * d.place.structOffset)
          else none
  | .bitfield b rest, inits, k =>
      match inits with
      | [] => none
      | none :: inits => rest.bitUnion arch symbols inits k
      | some init :: _ => if b.Covers k then some (b.bit (some init) k) else none

end

/-- The object at `addr` has the values of the initialiser, whatever its padding is. -/
def ObjType.Has (arch : Arch) (symbols : String → Integral) (t : ObjType) (init : Option Init)
    (m : Bits) (addr : Nat) : Prop :=
  ∀ k < 8 * t.size arch, ∀ v, t.bit arch symbols init k = some v → m (8 * addr + k) = v

variable {arch : Arch} {symbols : String → Integral} {image : Bits} {pos : Nat}

/-! ## The image of static data -/

theorem covers_sub {d : MemberDecl} {size k : Nat} (pos : Nat) (h : d.Covers size k) :
    k - 8 * d.place.structOffset < 8 * size ∧
      8 * (pos + d.place.structOffset) + (k - 8 * d.place.structOffset) = 8 * pos + k := by
  obtain ⟨hlo, hhi⟩ := h
  omega

/-- The element of an array that bit `k` is in. -/
theorem elem_of_bit {len size k : Nat} (hk : k < 8 * (len * size)) :
    k / (8 * size) < len ∧ k % (8 * size) < 8 * size := by
  have hk' : k < len * (8 * size) := by rwa [Nat.mul_left_comm]
  have hsize : 0 < 8 * size := Nat.pos_of_mul_pos_left (Nat.zero_lt_of_lt hk')
  exact ⟨Nat.div_lt_of_lt_mul (by rwa [Nat.mul_comm]), Nat.mod_lt k hsize⟩

theorem BitfieldDecl.occurs_bit {b : BitfieldDecl} {init : Option Init}
    (h : b.Occurs image init pos) {k : Nat} (hk : b.Covers k) :
    image (8 * pos + k) = b.bit init k := by
  obtain ⟨hlo, hhi⟩ := hk
  have hbit := h (k - b.start) (by unfold BitfieldDecl.start; omega)
  rwa [show 8 * (pos + b.place.structOffset) + b.place.structOffsetBitfield + (k - b.start) =
    8 * pos + k by unfold BitfieldDecl.start; omega] at hbit

theorem not_coversUnion {ms : ObjMembers} {inits : List (Option Init)}
    (h : inits.all Option.isNone = true) (k : Nat) : ¬ ms.CoversUnion arch inits k := by
  induction ms using ObjMembers.induct generalizing inits with
  | nil => exact id
  | decl d ref rest ih =>
    cases inits with
    | nil => exact id
    | cons e inits =>
      cases e with
      | none => exact ih (by simpa using h)
      | some init => simp at h
  | bitfield b rest ih =>
    cases inits with
    | nil => exact id
    | cons e inits =>
      cases e with
      | none => exact ih (by simpa using h)
      | some init => simp at h

/-- What is shown of the members of a struct and of a union. -/
def ObjMembers.PartsBit (arch : Arch) (symbols : String → Integral) (image : Bits)
    (ms : ObjMembers) : Prop :=
  (∀ inits pos, ms.OccursStruct arch symbols image inits pos →
    ∀ k v, ms.bitStruct arch symbols inits k = some v → image (8 * pos + k) = v) ∧
    ∀ inits pos, ms.OccursUnion arch symbols image inits pos →
      ∀ k v, ms.bitUnion arch symbols inits k = some v → image (8 * pos + k) = v

/-- An object with zeros in its padding. -/
theorem ObjType.occurs_has (t : ObjType) :
    ∀ init pos, t.Occurs arch symbols image init pos → t.Has arch symbols init image pos := by
  induction t using ObjType.induct (Q := ObjMembers.PartsBit arch symbols image) with
  | scalar s =>
    intro init pos hocc k hk v hv
    cases init with
    | none =>
      rw [← Option.some.inj hv]
      exact holds_zero.mp hocc k hk
    | some init =>
      cases init with
      | scalar c =>
        rw [← Option.some.inj hv]
        exact hocc k hk
      | brace inits => cases hv
      | lit inits => cases hv
      | copy cpy rangeInit => cases hv
  | array elem len ih =>
    intro init pos hocc k hk v hv
    cases init with
    | none =>
      rw [← Option.some.inj hv]
      exact holds_zero.mp hocc k hk
    | some init =>
      cases init with
      | scalar c => cases hv
      | lit inits => cases hv
      | copy cpy rangeInit => cases hv
      | brace inits =>
        have hle : len * elem.size arch % 2 ^ 32 ≤ len * elem.size arch := Nat.mod_le _ _
        obtain ⟨hi, hlt⟩ := elem_of_bit (hk.trans_le (Nat.mul_le_mul_left 8 hle))
        have hbit := ih _ _ (hocc _ hi) _ hlt v hv
        rwa [Nat.mul_add, Nat.mul_left_comm, Nat.add_assoc, Nat.mul_comm (k / _) _,
          Nat.div_add_mod] at hbit
  | sue su ms ih =>
    intro init pos hocc k hk v hv
    obtain ⟨hstruct, hunion⟩ := ih
    have hbraced : ∀ inits, (ObjType.sue su ms).Occurs arch symbols image (some (.brace inits)) pos →
        (ObjType.sue su ms).bit arch symbols (some (.brace inits)) k = some v →
        image (8 * pos + k) = v := by
      intro inits hocc hv
      cases hprim : su.prim with
      | struct_ =>
        simp only [ObjType.Occurs, ObjType.bit, hprim] at hocc hv
        exact hstruct inits pos hocc.1 k v hv
      | union_ =>
        simp only [ObjType.Occurs, ObjType.bit, hprim] at hocc hv
        split at hv
        · rename_i hnone
          rw [← Option.some.inj hv]
          exact hocc.2 k hk (not_coversUnion hnone k)
        · exact hunion inits pos hocc.1 k v hv
    cases init with
    | none =>
      rw [← Option.some.inj hv]
      exact holds_zero.mp hocc k hk
    | some init =>
      cases init with
      | scalar c => cases hv
      | copy cpy rangeInit => cases hv
      | brace inits => exact hbraced inits hocc hv
      | lit inits => exact hbraced inits hocc hv
  | nil => exact ⟨fun _ _ _ _ _ hv => (by cases hv), fun _ _ _ _ _ hv => (by cases hv)⟩
  | decl d ref rest href hrest =>
    constructor
    · rintro inits pos ⟨hthis, hmore⟩ k v hv
      simp only [ObjMembers.bitStruct] at hv
      split at hv
      · rename_i hin
        have hsub := covers_sub pos hin
        rw [← hsub.2]
        exact href _ _ hthis _ hsub.1 v hv
      · exact hrest.1 _ _ hmore k v hv
    · intro inits pos hocc k v hv
      cases inits with
      | nil => cases hv
      | cons e inits =>
        cases e with
        | none => exact hrest.2 inits pos hocc k v hv
        | some init =>
          simp only [ObjMembers.bitUnion] at hv
          split at hv
          · rename_i hin
            have hsub := covers_sub pos hin
            rw [← hsub.2]
            exact href _ _ hocc _ hsub.1 v hv
          · cases hv
  | bitfield b rest hrest =>
    constructor
    · rintro inits pos ⟨hthis, hmore⟩ k v hv
      simp only [ObjMembers.bitStruct] at hv
      split at hv
      · rename_i hin
        rw [← Option.some.inj hv]
        exact BitfieldDecl.occurs_bit (hthis hin.1) hin.2
      · exact hrest.1 _ _ hmore k v hv
    · intro inits pos hocc k v hv
      cases inits with
      | nil => cases hv
      | cons e inits =>
        cases e with
        | none => exact hrest.2 inits pos hocc k v hv
        | some init =>
          simp only [ObjMembers.bitUnion] at hv
          split at hv
          · rename_i hin
            rw [← Option.some.inj hv]
            exact BitfieldDecl.occurs_bit hocc hin
          · cases hv

/-! ## Where the members are -/

/-- No member with a value starts in front of `front`, or of the end of the one before
it, and all end within `limit` bits. -/
def ObjMembers.Spread (arch : Arch) (limit : Nat) : ObjMembers → Nat → Prop
  | .nil, front => front ≤ limit
  | .decl d ref rest, front =>
      front ≤ 8 * d.place.structOffset ∧
        rest.Spread arch limit (8 * (d.place.structOffset + ref.size arch))
  | .bitfield b rest, front =>
      if b.named then front ≤ b.start ∧ rest.Spread arch limit (b.start + b.width)
      else rest.Spread arch limit front

mutual

/-- In each struct the members follow each other, in each union they are at its start,
and no array wraps. -/
def ObjType.Laid (arch : Arch) : ObjType → Prop
  | .scalar _ => True
  | .array elem len => (len ≠ 0 → elem.Laid arch) ∧ len * elem.size arch < 2 ^ 32
  | .sue su ms =>
      match su.prim with
      | .struct_ => ms.Spread arch (8 * su.size) 0 ∧ ms.LaidStruct arch
      | .union_ => ms.LaidUnion arch su.size

def ObjMembers.LaidStruct (arch : Arch) : ObjMembers → Prop
  | .nil => True
  | .decl _ ref rest => ref.Laid arch ∧ rest.LaidStruct arch
  | .bitfield _ rest => rest.LaidStruct arch

def ObjMembers.LaidUnion (arch : Arch) (size : Nat) : ObjMembers → Prop
  | .nil => True
  | .decl d ref rest =>
      d.place.structOffset = 0 ∧ ref.size arch ≤ size ∧ ref.Laid arch ∧ rest.LaidUnion arch size
  | .bitfield b rest =>
      (b.named = true → b.start = 0 ∧ b.width ≤ 8 * size) ∧ rest.LaidUnion arch size

end

theorem ObjMembers.Spread.le_limit {limit front : Nat} {ms : ObjMembers}
    (h : ms.Spread arch limit front) : front ≤ limit := by
  induction ms using ObjMembers.induct generalizing front with
  | nil => exact h
  | decl d ref rest ih =>
    obtain ⟨hle, h⟩ := h
    have hrest := ih h
    omega
  | bitfield b rest ih =>
    simp only [ObjMembers.Spread] at h
    split at h
    · obtain ⟨hle, h⟩ := h
      have hrest := ih h
      omega
    · exact ih h

/-- Between two members of `fold_sue`, every value ends by bit `front`: in front of the
next byte, or in the unit that is open, up to its last bit-field with a name. -/
inductive FrontAt (arch : Arch) (st : LayoutState) : Option Group → Nat → Prop where
  | plain {front : Nat} (hopens : st.realignNext = true ∨ st.currentOff = 0)
      (hle : front ≤ 8 * st.offset) : FrontAt arch st none front
  | group {g : Group} {front : Nat} (hfirst : st.firstOff = g.first.place.structOffset)
      (hsmall : g.first.place.structOffset + g.small arch ≤ st.offset)
      (hle : front ≤ 8 * g.first.place.structOffset + g.top)
      (hroom : g.top ≤ 8 * g.first.ty.size)
      (hunit : st.realignNext = false → st.currentOff ≠ 0 →
        st.currentLimit = 8 * g.first.ty.size ∧ g.top ≤ st.currentOff) :
      FrontAt arch st (some g) front

/-- The members of a struct, from any point between two of them on. -/
theorem ObjMembers.spread {packed : Bool} {size : Nat} {stF : LayoutState}
    (hsize : stF.offset ≤ size) (ms : ObjMembers) :
    ∀ (st : LayoutState) (g : Option Group) (front : Nat), FrontAt arch st g front →
      st.ctl.Ok → st.offset < 2 ^ 32 →
      foldSueLoop arch .struct_ packed st (ms.members arch) = .ok (ms.placements, stF) →
      endOf st.offset (st.ctl.acts arch packed (ms.members arch)) < 2 ^ 32 →
      ms.Tight arch g → ms.Spread arch (8 * size) front := by
  induction ms using ObjMembers.induct with
  | nil =>
    intro st g front hfront _ _ hloop _ htight
    cases hloop
    show front ≤ 8 * size
    cases hfront with
    | plain hopens hle => omega
    | group hfirst hsmall hle hroom hunit =>
      have hsame := htight _ rfl
      omega
  | decl d ref rest ih =>
    intro st g front hfront hok ho hloop hend htight
    obtain ⟨st₁, hm, hl, hok₁, hnext, ho₁, hend₁⟩ := foldSueLoop_turn hok ho hloop hend
    obtain ⟨hle₁, hoff, -, hcur⟩ := foldSueMember_decl ho hnext hm
    obtain ⟨hgap, htight⟩ := htight
    refine ⟨?_, ih st₁ none _ (.plain (.inr hcur) ?_) hok₁ ho₁ hl hend₁ htight⟩
    · cases hfront with
      | plain hopens hle => omega
      | group hfirst hsmall hle hroom hunit =>
        rcases hgap _ rfl with htop | ⟨hplace, htop⟩
        · omega
        · omega
    · rw [hoff]
  | bitfield b rest ih =>
    intro st g front hfront hok ho hloop hend htight
    obtain ⟨st₁, hm, hl, hok₁, hnext, ho₁, hend₁⟩ := foldSueLoop_turn hok ho hloop hend
    by_cases hzero : b.width = 0
    · obtain ⟨hoff, hfirst, hsame, hfirst₁, hrealign⟩ := foldSueMember_zero hok ho hzero hm
      simp only [ObjMembers.Tight, if_pos hzero] at htight
      have hnamed : b.named = false := by
        by_contra hne
        exact b.pos (by simpa using hne) hzero
      simp only [ObjMembers.Spread, hnamed, Bool.false_eq_true, if_false]
      refine ih st₁ g front ?_ hok₁ ho₁ hl hend₁ htight
      cases hfront with
      | plain hopens hle => exact .plain (.inl hrealign) (by omega)
      | group hfirst' hsmall hle hroom hunit =>
        refine .group (hfirst₁.trans hfirst') (by omega) hle hroom fun hfalse => ?_
        rw [hrealign] at hfalse
        cases hfalse
    simp only [ObjMembers.Tight, if_neg hzero] at htight
    have hwidth := b.le
    cases hopen : st.ctl.opens b.width with
    | true =>
      obtain ⟨hle₁, hbit, hfirst, hfirst₁, hsmall₁, -, hlimit, hcur⟩ :=
        foldSueMember_open ho hzero hopen hnext hm
      simp only [hfirst, if_true] at htight
      have hstart : front ≤ 8 * b.place.structOffset := by
        cases hfront with
        | plain hopens hle => omega
        | group hfirst' hsmall hle hroom hunit =>
          have hplace := htight.1 _ rfl
          omega
      have hpos : b.start = 8 * b.place.structOffset := by
        rw [BitfieldDecl.start, hbit, Nat.add_zero]
      have hgroup : ∀ front', front' ≤ 8 * b.place.structOffset + b.group.top →
          rest.Spread arch (8 * size) front' := by
        intro front' hfront'
        have htop : b.group.top ≤ b.width := by
          unfold BitfieldDecl.group
          dsimp only
          split
          · exact le_rfl
          · exact Nat.zero_le _
        refine ih st₁ _ front' (.group hfirst₁ hsmall₁ hfront' (htop.trans hwidth) ?_)
          hok₁ ho₁ hl hend₁ htight.2
        intro _ hne
        exact ⟨hlimit, htop.trans (hcur hne).ge⟩
      cases hnamed : b.named with
      | true =>
        simp only [ObjMembers.Spread, hnamed, if_true]
        refine ⟨hstart.trans hpos.ge, hgroup _ ?_⟩
        simp only [BitfieldDecl.group, hnamed, if_true, hpos]
        exact le_rfl
      | false =>
        simp only [ObjMembers.Spread, hnamed, Bool.false_eq_true, if_false]
        exact hgroup _ (hstart.trans (Nat.le_add_right _ _))
    | false =>
      obtain ⟨hrealign, hcur, hin, hplace, hbit, hfirst, hfirst₁, hle₁, -, hlimit, hcur₁⟩ :=
        foldSueMember_extend ho hzero hopen hnext hm
      simp only [hfirst, Bool.false_eq_true, if_false] at htight
      cases hfront with
      | plain hopens hle =>
        rcases hopens with h | h
        · exact absurd (h.symm.trans hrealign) (by decide)
        · exact absurd h hcur
      | group hfirst' hsmall hle hroom hunit =>
        rename_i g
        obtain ⟨hlim, htop⟩ := hunit hrealign hcur
        have hpos : b.start = 8 * g.first.place.structOffset + st.currentOff := by
          rw [BitfieldDecl.start, hplace, hbit, hfirst']
        cases hnamed : b.named with
        | true =>
          have hadd : (g.add b).top = st.currentOff + b.width := by
            simp only [Group.add, hnamed, if_true, hbit]
          simp only [ObjMembers.Spread, hnamed, if_true]
          refine ⟨by omega, ih st₁ _ _ ?_ hok₁ ho₁ hl hend₁ htight⟩
          refine .group (hfirst₁.trans hfirst') (hsmall.trans hle₁) ?_ ?_ fun _ hne => ⟨?_, ?_⟩
          · rw [hadd, hpos, Nat.add_assoc]
            exact le_rfl
          · rw [hadd]
            exact hin.trans hlim.le
          · rw [hlimit, hlim]
            rfl
          · rw [hadd, hcur₁ hne]
        | false =>
          have hadd : (g.add b).top = g.top := by
            simp only [Group.add, hnamed, Bool.false_eq_true, if_false]
          simp only [ObjMembers.Spread, hnamed, Bool.false_eq_true, if_false]
          refine ih st₁ _ _ ?_ hok₁ ho₁ hl hend₁ htight
          refine .group (hfirst₁.trans hfirst') (hsmall.trans hle₁) ?_ ?_ fun _ hne => ⟨?_, ?_⟩
          · rw [hadd]
            exact hle
          · rw [hadd]
            exact hroom
          · rw [hlimit, hlim]
            rfl
          · rw [hadd, hcur₁ hne]
            omega

/-- What is shown of the members of a struct and of a union. -/
def ObjMembers.PartsLaid (arch : Arch) (ms : ObjMembers) : Prop :=
  ms.Folded arch →
    (ms.SoundStruct arch → ms.LaidStruct arch) ∧
      ∀ size, ms.AtStart → ms.SoundUnion arch size → ms.LaidUnion arch size

theorem ObjType.laid (t : ObjType) : t.Folded arch → t.Sound arch → t.Laid arch := by
  induction t using ObjType.induct (Q := ObjMembers.PartsLaid arch) with
  | scalar s => exact fun _ _ => trivial
  | array elem len ih => exact fun hfold hsound => ⟨fun hlen => ih hfold (hsound.1 hlen), hsound.2⟩
  | sue su ms ih =>
    intro hfold hsound
    obtain ⟨hstruct, hunion⟩ := ih hfold.2
    cases hprim : su.prim with
    | struct_ =>
      simp only [ObjType.Sound, ObjType.Laid, hprim] at hsound ⊢
      obtain ⟨hwrap, htight, hsound⟩ := hsound
      obtain ⟨stF, hloop, hsize, hend⟩ := foldSue_struct hprim hfold hwrap
      exact ⟨ms.spread hsize .init none 0 (.plain (.inr rfl) (Nat.zero_le _)) Ctl.init_ok
        (by decide) hloop hend htight, hstruct hsound⟩
    | union_ =>
      simp only [ObjType.Sound, ObjType.Laid, hprim] at hsound ⊢
      exact hunion su.size (foldSue_union hprim hfold) hsound.2
  | nil => exact fun _ => ⟨fun _ => trivial, fun _ _ _ => trivial⟩
  | decl d ref rest href hrest =>
    intro hfold
    obtain ⟨hstruct, hunion⟩ := hrest hfold.2
    exact ⟨fun hsound => ⟨href hfold.1 hsound.1, hstruct hsound.2⟩,
      fun size hstart hsound =>
        ⟨hstart.1, hsound.2.1, href hfold.1 hsound.1, hunion size hstart.2 hsound.2.2⟩⟩
  | bitfield b rest hrest =>
    intro hfold
    obtain ⟨hstruct, hunion⟩ := hrest hfold
    refine ⟨hstruct, fun size hstart hsound => ⟨fun hnamed => ?_, hunion size hstart hsound.2⟩⟩
    obtain ⟨hoff, hbit, hle⟩ := hsound.1 hnamed
    have hwidth := b.le
    refine ⟨?_, by omega⟩
    rw [BitfieldDecl.start, hoff, hbit]

/-! ## Initialisers that are assigned right -/

/-- A constant that is taken for zero has no bits. -/
def Constant.Plain (s : ScalarType) (c : Constant) : Prop :=
  c.isZero = true → ∀ symbols : String → Integral, c.value symbols s = 0

/-- The bytes that are cleared for a bit-field hold all of it, lie inside the struct and
have no value in front of it. -/
def BitfieldDecl.Clears (b : BitfieldDecl) (front size : Nat) : Prop :=
  front ≤ 8 * b.place.structOffset ∧ b.place.structOffset + b.ty.size ≤ size ∧
    b.place.structOffsetBitfield + b.width ≤ 8 * b.ty.size

mutual

/-- The initialiser is no compound literal and has no -0.0, a bit-field that is cleared
inside an object that is not is `Clears`, and each range is one `struct init_cpy`, with
the element type and the initialiser that are stored for it.  `active` are the ranges
that this is inside of. -/
def ObjType.Assignable (arch : Arch) (store : Nat → Option (ObjType × Init)) :
    ObjType → Option Init → List Nat → Prop
  | .scalar s, init, _ =>
      match init with
      | some (.scalar c) => c.Plain s
      | _ => True
  | .array elem len, init, active =>
      match init with
      | some (.brace inits) => ∀ i < len, match inits.getD i none with
          | some (.copy cpy rangeInit) =>
              store cpy = some (elem, rangeInit) ∧ cpy ∉ active ∧
                elem.Assignable arch store (some rangeInit) (cpy :: active)
          | di => elem.Assignable arch store di active
      | _ => True
  | .sue su ms, init, active =>
      match init with
      | some (.brace inits) =>
          match su.prim with
          | .struct_ => ms.AssignableStruct arch store su.size (initsZero inits) inits 0 active
          | .union_ => ms.AssignableUnion arch store inits active
      | some (.lit _) => False
      | _ => True

def ObjMembers.AssignableStruct (arch : Arch) (store : Nat → Option (ObjType × Init))
    (size : Nat) (zero : Bool) : ObjMembers → List (Option Init) → Nat → List Nat → Prop
  | .nil, _, _, _ => True
  | .decl d ref rest, inits, _, active =>
      ref.Assignable arch store (inits.headD none) active ∧
        rest.AssignableStruct arch store size zero inits.tail
          (8 * (d.place.structOffset + ref.size arch)) active
  | .bitfield b rest, inits, front, active =>
      (zero = false → b.width ≠ 0 → zeroInit (inits.headD none) = true → b.Clears front size) ∧
        rest.AssignableStruct arch store size zero inits.tail
          (if b.named then b.start + b.width else front) active

def ObjMembers.AssignableUnion (arch : Arch) (store : Nat → Option (ObjType × Init)) :
    ObjMembers → List (Option Init) → List Nat → Prop
  | .nil, _, _ => True
  | .decl _ ref rest, inits, active =>
      match inits with
      | [] => True
      | none :: inits => rest.AssignableUnion arch store inits active
      | some init :: _ => ref.Assignable arch store (some init) active
  | .bitfield _ rest, inits, active =>
      match inits with
      | [] => True
      | none :: inits => rest.AssignableUnion arch store inits active
      | some _ :: _ => True

end

/-! ## Zeros -/

variable {store : Nat → Option (ObjType × Init)}

theorem zeroInit_headD {inits : List (Option Init)} (h : initsZero inits = true) :
    zeroInit (inits.headD none) = true := by
  cases inits with
  | nil => rfl
  | cons e inits =>
    cases e with
    | none => rfl
    | some init =>
      simp only [initsZero, Bool.and_eq_true] at h
      exact h.1

theorem initsZero_tail {inits : List (Option Init)} (h : initsZero inits = true) :
    initsZero inits.tail = true := by
  cases inits with
  | nil => rfl
  | cons e inits =>
    cases e with
    | none => exact h
    | some init =>
      simp only [initsZero, Bool.and_eq_true] at h
      exact h.2

theorem zeroInit_getD {inits : List (Option Init)} (h : initsZero inits = true) (i : Nat) :
    zeroInit (inits.getD i none) = true := by
  induction i generalizing inits with
  | zero =>
    have hhead := zeroInit_headD h
    cases inits <;> exact hhead
  | succ i ih =>
    have htail := ih (initsZero_tail h)
    cases inits <;> exact htail

theorem initsZero_of_none {inits : List (Option Init)} (h : inits.all Option.isNone = true) :
    initsZero inits = true := by
  induction inits with
  | nil => rfl
  | cons e inits ih =>
    cases e with
    | none => exact ih (by simpa using h)
    | some init => simp at h

theorem BitfieldDecl.Normal.value_zero {b : BitfieldDecl} {init : Option Init} (h : b.Normal init)
    (hzero : zeroInit init = true) : bitfieldValue init = 0 := by
  rcases h with rfl | ⟨-, v, rfl⟩
  · rfl
  · exact eq_of_beq hzero

theorem BitfieldDecl.bit_zero {b : BitfieldDecl} {init : Option Init} (h : b.Normal init)
    (hzero : zeroInit init = true) (k : Nat) : b.bit init k = false := by
  rw [BitfieldDecl.bit, h.value_zero hzero]
  exact BitVec.getLsbD_zero

/-- What is shown of the members of a struct and of a union. -/
def ObjMembers.PartsZero (arch : Arch) (symbols : String → Integral)
    (store : Nat → Option (ObjType × Init)) (ms : ObjMembers) : Prop :=
  (∀ size zero inits front active, ms.LaidStruct arch → ms.NormalStruct inits →
    ms.AssignableStruct arch store size zero inits front active → initsZero inits = true →
    ∀ k v, ms.bitStruct arch symbols inits k = some v → v = false) ∧
    ∀ size inits active, ms.LaidUnion arch size → ms.NormalUnion inits →
      ms.AssignableUnion arch store inits active → initsZero inits = true →
      ∀ k v, ms.bitUnion arch symbols inits k = some v → v = false

/-- An initialiser that is taken for zero is zero in every bit. -/
theorem ObjType.bit_zero (t : ObjType) :
    ∀ init active, t.Laid arch → t.Normal init → t.Assignable arch store init active →
      zeroInit init = true →
      ∀ k < 8 * t.size arch, ∀ v, t.bit arch symbols init k = some v → v = false := by
  induction t using ObjType.induct (Q := ObjMembers.PartsZero arch symbols store) with
  | scalar s =>
    intro init active _ hnormal hassign hzero k _ v hv
    cases init with
    | none => exact (Option.some.inj hv).symm
    | some init =>
      cases init with
      | scalar c =>
        rw [← Option.some.inj hv, hassign hzero symbols]
        exact BitVec.getLsbD_zero
      | brace inits => cases hv
      | lit inits => cases hv
      | copy cpy rangeInit => cases hv
  | array elem len ih =>
    intro init active hlaid hnormal hassign hzero k hk v hv
    cases init with
    | none => exact (Option.some.inj hv).symm
    | some init =>
      cases init with
      | scalar c => cases hv
      | lit inits => cases hv
      | copy cpy rangeInit => cases hv
      | brace inits =>
        rw [ObjType.size, Nat.mod_eq_of_lt hlaid.2] at hk
        obtain ⟨hi, hlt⟩ := elem_of_bit hk
        have hlen : len ≠ 0 := Nat.ne_zero_of_lt hi
        have hentry := hassign _ hi
        have hnormal' := hnormal.2.2 _ hi
        have hzero' : zeroInit (inits.getD (k / (8 * elem.size arch)) none) = true :=
          zeroInit_getD hzero _
        simp only [ObjType.bit] at hv
        generalize inits.getD (k / (8 * elem.size arch)) none = di at hentry hnormal' hzero' hv
        have helem := ih (Init.resolve di)
        cases di with
        | none => exact helem active (hlaid.1 hlen) hnormal' hentry hzero' _ hlt v hv
        | some init =>
          cases init with
          | copy cpy rangeInit =>
            exact helem _ (hlaid.1 hlen) hnormal' hentry.2.2 hzero' _ hlt v hv
          | scalar c => exact helem active (hlaid.1 hlen) hnormal' hentry hzero' _ hlt v hv
          | brace inits => exact helem active (hlaid.1 hlen) hnormal' hentry hzero' _ hlt v hv
          | lit inits => exact helem active (hlaid.1 hlen) hnormal' hentry hzero' _ hlt v hv
  | sue su ms ih =>
    intro init active hlaid hnormal hassign hzero k hk v hv
    obtain ⟨hstruct, hunion⟩ := ih
    cases init with
    | none => exact (Option.some.inj hv).symm
    | some init =>
      cases init with
      | scalar c => cases hv
      | copy cpy rangeInit => cases hv
      | lit inits => exact hassign.elim
      | brace inits =>
        cases hprim : su.prim with
        | struct_ =>
          simp only [ObjType.Laid, ObjType.Normal, ObjType.Assignable, ObjType.bit, hprim] at *
          exact hstruct _ _ inits _ active hlaid.2 hnormal hassign hzero k v hv
        | union_ =>
          simp only [ObjType.Laid, ObjType.Normal, ObjType.Assignable, ObjType.bit, hprim] at *
          split at hv
          · exact (Option.some.inj hv).symm
          · rename_i hne
            rcases hnormal with rfl | hnormal | ⟨rfl, -⟩
            · exact absurd rfl hne
            · exact hunion _ inits active hlaid hnormal hassign hzero k v hv
            · exact absurd rfl hne
  | nil => exact ⟨fun _ _ _ _ _ _ _ _ _ _ _ hv => (by cases hv), fun _ _ _ _ h => h.elim⟩
  | decl d ref rest href hrest =>
    constructor
    · intro size zero inits front active hlaid hnormal hassign hzero k v hv
      simp only [ObjMembers.bitStruct] at hv
      split at hv
      · rename_i hin
        exact href _ active hlaid.1 hnormal.1 hassign.1 (zeroInit_headD hzero) _
          (covers_sub 0 hin).1 v hv
      · exact hrest.1 size zero _ _ active hlaid.2 hnormal.2 hassign.2 (initsZero_tail hzero) k v hv
    · intro size inits active hlaid hnormal hassign hzero k v hv
      cases inits with
      | nil => exact hnormal.elim
      | cons e inits =>
        cases e with
        | none => exact hrest.2 size inits active hlaid.2.2.2 hnormal hassign hzero k v hv
        | some init =>
          simp only [ObjMembers.bitUnion] at hv
          split at hv
          · rename_i hin
            exact href _ active hlaid.2.2.1 hnormal.2 hassign (zeroInit_headD hzero) _
              (covers_sub 0 hin).1 v hv
          · cases hv
  | bitfield b rest hrest =>
    constructor
    · intro size zero inits front active hlaid hnormal hassign hzero k v hv
      simp only [ObjMembers.bitStruct] at hv
      split at hv
      · rw [← Option.some.inj hv]
        exact BitfieldDecl.bit_zero hnormal.1 (zeroInit_headD hzero) k
      · exact hrest.1 size zero _ _ active hlaid hnormal.2 hassign.2 (initsZero_tail hzero) k v hv
    · intro size inits active hlaid hnormal hassign hzero k v hv
      cases inits with
      | nil => exact hnormal.elim
      | cons e inits =>
        cases e with
        | none => exact hrest.2 size inits active hlaid.2 hnormal hassign hzero k v hv
        | some init =>
          simp only [ObjMembers.bitUnion] at hv
          split at hv
          · rw [← Option.some.inj hv]
            exact BitfieldDecl.bit_zero hnormal.2 (zeroInit_headD hzero) k
          · cases hv

end Ucc.Cc1.Data
