/-
  Cc1/DataEmit.lean --- static data, for every type and initialiser.

  Source: asm_declare_init in src/cc1/out/asm.c.

  Arrays and unions, and the theorem: the data of a sound type is the image of the
  object, unless a union is initialised with a compound literal, which is the one
  initialiser that is taken as constant but cannot be emitted.
-/
import Ucc.Cc1.DataStruct

set_option autoImplicit false

namespace Ucc.Cc1.Data

open Ucc.Lib

variable {tg : Target} {symbols : String → Integral} {image : Nat → Bool} {pos : Nat}

/-! ## Structs -/

/-- The offset after the last member. -/
theorem foldSueLoop_end {arch : Arch} {packed : Bool} {stF : LayoutState} (ms : List Member)
    (st : LayoutState) (ps : List Placement) (hok : st.ctl.Ok) (ho : st.offset < 2 ^ 32)
    (hloop : foldSueLoop arch .struct_ packed st ms = .ok (ps, stF))
    (hend : endOf st.offset (st.ctl.acts arch packed ms) < 2 ^ 32) :
    stF.offset = endOf st.offset (st.ctl.acts arch packed ms) := by
  induction ms generalizing st ps with
  | nil =>
    cases hloop
    rfl
  | cons m ms ih =>
    obtain ⟨p, st₁, ps', hm, hl, rfl⟩ := foldSueLoop_cons hloop
    obtain ⟨hctl, -, hruns⟩ := foldSueMember_spec hok hm
    have hnext := (le_endOf (Ctl.acts_pow arch packed (st.ctl.next m) ms) _).trans_lt hend
    have hoff := runs_next (Ctl.act_pow arch packed st.ctl m) hruns ho hnext
    have hrest := ih st₁ ps' (by rw [hctl]; exact hok.next m) (by rw [hoff]; exact hnext) hl
      (by rw [hoff, hctl]; exact hend)
    rw [hrest, hoff, hctl]
    rfl

/-- `fold_sue` has placed the members of a struct inside it. -/
theorem foldSue_struct {arch : Arch} {su : SueDecl} {ms : ObjMembers} (hprim : su.prim = .struct_)
    (hfold : (ObjType.sue su ms).Folded arch) (hwrap : su.NoWrap arch ms) :
    ∃ stF, foldSueLoop arch .struct_ su.packed .init (ms.members arch) = .ok (ms.placements, stF) ∧
      stF.offset ≤ su.size ∧ endOf 0 (Ctl.init.acts arch su.packed (ms.members arch)) < 2 ^ 32 := by
  obtain ⟨hfold, -⟩ := hfold
  have hstruct : (su.toSue (ms.members arch)).prim = .struct_ := hprim
  unfold foldSue at hfold
  rw [hstruct] at hfold
  split at hfold
  · cases hfold
  · rename_i ps stF hloop
    obtain ⟨hal, haF⟩ := foldSueLoop_alignMax _ .init stF ps Ctl.init_ok (IsPow.one 30) hloop
    have haF' := foldGetMaxAlignAttribute_isPow su.aligned haF
    simp only [Except.ok.injEq, Layout.mk.injEq] at hfold
    obtain ⟨rfl, hsize, -⟩ := hfold
    have hfit : sizeAt stF.alignMax (foldGetMaxAlignAttribute su.aligned stF.alignMax)
        (endOf 0 (Ctl.init.acts arch su.packed (ms.members arch))) < 2 ^ 32 := by
      rw [hal]
      exact hwrap
    have hle := le_sizeAt haF.pos haF'.pos
      (o := endOf 0 (Ctl.init.acts arch su.packed (ms.members arch)))
    have hend := foldSueLoop_end _ .init _ Ctl.init_ok (by decide) hloop (hle.trans_lt hfit)
    have hend' : stF.offset =
      endOf 0 (Ctl.init.acts arch su.packed (ms.members arch)) := hend
    have hfin : su.size = sizeAt stF.alignMax
        (foldGetMaxAlignAttribute su.aligned stF.alignMax) stF.offset := by
      rw [← hsize, foldSueFinish_size (n := stF.offset) (if_pos hstruct) (by rw [hend']; omega) haF,
        if_pos]
      · rfl
      · rw [hend']
        exact hfit
    rw [hend'] at hfin
    exact ⟨stF, hloop, by rw [hend', hfin]; exact hle, hle.trans_lt hfit⟩

theorem structType_good {su : SueDecl} {ms : ObjMembers} {inits : List (Option Init)}
    (hprim : su.prim = .struct_) (hfold : (ObjType.sue su ms).Folded tg.arch)
    (hwrap : su.NoWrap tg.arch ms) (htight : ms.Tight tg.arch none)
    (hnormal : ms.NormalStruct inits) (hgood : ms.EachGood tg inits) :
    ms.StructGood tg su.size inits .init none := by
  obtain ⟨stF, hloop, hsize, hend⟩ := foldSue_struct hprim hfold hwrap
  exact ms.structGood su.lt hsize .init inits .init none (.plain (.inr rfl)) Ctl.init_ok
    (by decide) hloop hend htight hnormal hgood

/-! ## Arrays -/

/-- The elements of an array, one after the other. -/
theorem asmDeclareElems_good {elem : ObjType} (n : Nat) (inits : List (Option Init))
    (hgood : ∀ i < n, elem.Good tg (Init.resolve (inits.getD i none))) :
    ∃ ds, asmDeclareElems (elem.asmDeclareInit tg) n inits = .ok ds ∧
      ∀ symbols : String → Integral,
        (assemble symbols ds).length = n * elem.size tg.arch ∧ ∀ image pos,
          Lies image pos (assemble symbols ds) → ∀ i < n,
            elem.Occurs tg.arch symbols image (Init.resolve (inits.getD i none))
              (pos + i * elem.size tg.arch) := by
  induction n generalizing inits with
  | zero =>
    refine ⟨[], rfl, fun symbols => ⟨?_, fun image pos _ i hi => absurd hi (Nat.not_lt_zero i)⟩⟩
    rw [Nat.zero_mul]
    rfl
  | succ n ih =>
    have htail : ∀ i, inits.tail.getD i none = inits.getD (i + 1) none := by
      intro i
      cases inits <;> rfl
    have hhead : inits.headD none = inits.getD 0 none := by
      cases inits <;> rfl
    obtain ⟨this, hthis, hfirst⟩ := hgood 0 (Nat.zero_lt_succ n)
    obtain ⟨more, hmore, hrest⟩ := ih inits.tail fun i hi => by
      rw [htail]
      exact hgood (i + 1) (Nat.succ_lt_succ hi)
    refine ⟨this ++ more, ?_, fun symbols => ?_⟩
    · rw [asmDeclareElems, hhead, hthis]
      show (do
        let more ← asmDeclareElems (elem.asmDeclareInit tg) n inits.tail
        Except.ok (this ++ more)) = _
      rw [hmore]
      rfl
    obtain ⟨hlen, hocc⟩ := hfirst symbols
    obtain ⟨hlen', hocc'⟩ := hrest symbols
    refine ⟨by rw [assemble_append, List.length_append, hlen, hlen', Nat.succ_mul, Nat.add_comm],
      fun image pos hlies i hi => ?_⟩
    rw [assemble_append, lies_append, hlen] at hlies
    cases i with
    | zero =>
      rw [Nat.zero_mul, Nat.add_zero]
      exact hocc image pos hlies.1
    | succ i =>
      have hnext := hocc' image _ hlies.2 i (Nat.lt_of_succ_lt_succ hi)
      rw [htail] at hnext
      rwa [Nat.succ_mul, Nat.add_comm (i * _), ← Nat.add_assoc]

/-! ## Unions -/

/-- The ordinary members are at the start. -/
def ObjMembers.AtStart : ObjMembers → Prop
  | .nil => True
  | .decl d _ rest => d.place.structOffset = 0 ∧ rest.AtStart
  | .bitfield _ rest => rest.AtStart

theorem atStart_of_union {arch : Arch} {packed : Bool} {stF : LayoutState} (ms : ObjMembers) :
    ∀ st : LayoutState,
      foldSueLoop arch .union_ packed st (ms.members arch) = .ok (ms.placements, stF) →
      ms.AtStart := by
  induction ms using ObjMembers.induct with
  | nil => exact fun _ _ => trivial
  | decl d ref rest ih =>
    intro st hloop
    obtain ⟨p, st₁, ps, hm, hl, hps⟩ := foldSueLoop_cons hloop
    obtain ⟨rfl, rfl⟩ := List.cons.inj hps
    simp only [foldSueMember, placeNormal, Except.ok.injEq, Prod.mk.injEq] at hm
    refine ⟨?_, ih st₁ hl⟩
    rw [← hm.1]
  | bitfield b rest ih =>
    intro st hloop
    obtain ⟨p, st₁, ps, hm, hl, hps⟩ := foldSueLoop_cons hloop
    obtain ⟨rfl, rfl⟩ := List.cons.inj hps
    exact ih st₁ hl

/-- `fold_sue` has placed the members of a union at its start. -/
theorem foldSue_union {arch : Arch} {su : SueDecl} {ms : ObjMembers} (hprim : su.prim = .union_)
    (hfold : (ObjType.sue su ms).Folded arch) : ms.AtStart := by
  obtain ⟨hfold, -⟩ := hfold
  unfold foldSue at hfold
  rw [show (su.toSue (ms.members arch)).prim = .union_ from hprim] at hfold
  split at hfold
  · cases hfold
  · rename_i ps stF hloop
    simp only [Except.ok.injEq, Layout.mk.injEq] at hfold
    obtain ⟨rfl, -⟩ := hfold
    exact atStart_of_union ms .init hloop

/-- The type of the member that is initialised is emitted right. -/
def ObjMembers.SelectedGood (tg : Target) : ObjMembers → List (Option Init) → Prop
  | .nil, _ => True
  | .decl _ ref rest, inits =>
      match inits with
      | [] => True
      | none :: inits => rest.SelectedGood tg inits
      | some init :: _ => ref.Good tg (some init)
  | .bitfield _ rest, inits =>
      match inits with
      | [] => True
      | none :: inits => rest.SelectedGood tg inits
      | some _ :: _ => True

/-- The union is filled. -/
def ObjMembers.UnionGood (tg : Target) (size : Nat) (ms : ObjMembers)
    (inits : List (Option Init)) : Prop :=
  ∃ ds, ms.asmDeclareUnion tg size inits = .ok ds ∧
    ∀ symbols : String → Integral, (assemble symbols ds).length = size ∧
      ∀ image pos, Lies image pos (assemble symbols ds) →
        ms.OccursUnion tg.arch symbols image inits pos ∧
          ∀ k < 8 * size, ¬ ms.CoversUnion tg.arch inits k → image (8 * pos + k) = false

theorem unionGood_nil {size : Nat} (hlt : size < 2 ^ 32) (ms : ObjMembers) :
    ms.UnionGood tg size [] := by
  refine ⟨asmDeclarePad size, ?_, fun symbols => ⟨length_pad _, fun image pos hlies => ⟨?_, ?_⟩⟩⟩
  · rw [← Nat.sub_zero size, ← padRest_eq (Nat.zero_le size) hlt, Nat.sub_zero]
    cases ms <;> rfl
  · cases ms <;> exact trivial
  · exact fun k hk _ => holds_zero.mp (lies_pad.mp hlies) k hk

/-- No member is initialised. -/
theorem unionGood_none {size : Nat} (hlt : size < 2 ^ 32) (ms : ObjMembers) :
    ms.UnionGood tg size [none] := by
  cases ms with
  | nil =>
    refine ⟨asmDeclarePad size, ?_, fun symbols =>
      ⟨length_pad _, fun image pos hlies => ⟨trivial, ?_⟩⟩⟩
    · rw [← Nat.sub_zero size, ← padRest_eq (Nat.zero_le size) hlt, Nat.sub_zero]
      rfl
    · exact fun k hk _ => holds_zero.mp (lies_pad.mp hlies) k hk
  | decl d ref rest => exact unionGood_nil hlt rest
  | bitfield b rest => exact unionGood_nil hlt rest

/-- A member of `sub` bytes, and zeros behind it. -/
theorem length_member_rest {size sub : Nat} {ds : List Directive}
    (hlen : (assemble symbols ds).length = sub) (hle : sub ≤ size) (hlt : size < 2 ^ 32) :
    (assemble symbols (ds ++ padRest size sub)).length = size := by
  rw [padRest_eq hle hlt, assemble_append, List.length_append, hlen, length_pad]
  omega

theorem lies_member_rest {size sub : Nat} {ds : List Directive}
    (hlen : (assemble symbols ds).length = sub) (hle : sub ≤ size) (hlt : size < 2 ^ 32)
    (hlies : Lies image pos (assemble symbols (ds ++ padRest size sub))) :
    Lies image pos (assemble symbols ds) ∧
      ∀ k, 8 * sub ≤ k → k < 8 * size → image (8 * pos + k) = false := by
  rw [padRest_eq hle hlt, assemble_append, lies_append, hlen] at hlies
  refine ⟨hlies.1, fun k hlo hhi => ?_⟩
  have hbit := holds_zero.mp (lies_pad.mp hlies.2) (k - 8 * sub) (by omega)
  rwa [show 8 * (pos + sub) + (k - 8 * sub) = 8 * pos + k by omega] at hbit

/-- The bit-field of a union that is initialised. -/
theorem unionGood_bitfield {size : Nat} (hlt : size < 2 ^ 32) {b : BitfieldDecl}
    {rest : ObjMembers} {init : Init} {inits : List (Option Init)}
    (hdi : b.Normal (some init))
    (hplace : b.named = true →
      b.place.structOffset = 0 ∧ b.place.structOffsetBitfield = 0 ∧ b.ty.size ≤ size) :
    (ObjMembers.bitfield b rest).UnionGood tg size (some init :: inits) := by
  have hnamed : b.named = true := by
    rcases hdi with h | ⟨h, -⟩
    · cases h
    · exact h
  obtain ⟨hoff, hbit, hle⟩ := hplace hnamed
  have hfields : Fields (8 * b.ty.size) [⟨bitfieldValue (some init), 0, b.width⟩] := by
    refine ⟨fun v hv => ?_, fun v hv => ?_, List.pairwise_singleton _ _⟩
    · obtain rfl := List.mem_singleton.mp hv
      exact b.pos hnamed
    · obtain rfl := List.mem_singleton.mp hv
      exact (Nat.zero_add _).trans_le b.le
  have hlimit : 8 * b.ty.size ≤ 64 := by
    have hmax := b.ty.size_isPow.le
    omega
  refine ⟨[.value b.ty.size (.num (groupValue tg [⟨bitfieldValue (some init), 0, b.width⟩])) 0] ++
    padRest size b.ty.size, ?_, fun symbols => ?_⟩
  · simp only [ObjMembers.asmDeclareUnion, bitfieldValSet_eq hdi]
    show (do
      let this ← asmDeclareInitBitfields tg [⟨bitfieldValue (some init), 0, b.width⟩]
        b.ty.size
      Except.ok (this ++ padRest size b.ty.size)) = _
    have hsize : b.ty.size = 2 ^ b.ty.sizeLog := rfl
    rw [hsize, asmDeclareInitBitfields_ok hfields (List.cons_ne_nil _ _) b.ty.le]
    rfl
  have hlen : (assemble symbols [.value b.ty.size
      (.num (groupValue tg [⟨bitfieldValue (some init), 0, b.width⟩])) 0]).length =
      b.ty.size := by
    rw [assemble_value, length_leBytes]
  refine ⟨length_member_rest hlen hle hlt,
    fun image pos hlies => ?_⟩
  obtain ⟨hmember, hrest⟩ := lies_member_rest hlen hle hlt hlies
  have hholds : Holds image pos (2 ^ b.ty.sizeLog) _ := lies_group hmember
  refine ⟨fun k hk => ?_, fun k hk hcov => ?_⟩
  · have hwidth := b.le
    have hval := hholds k (by show k < 8 * b.ty.size; omega)
    have hfield : (groupValue tg _).getLsbD (0 + k) = _ :=
      hfields.value hlimit (List.mem_singleton_self _) hk
    rw [Nat.zero_add] at hfield
    rw [hoff, hbit, Nat.add_zero, Nat.add_zero, hval, hfield]
  · by_cases hin : k < 8 * b.ty.size
    · rw [hholds k hin, hfields.zero hlimit]
      intro v hv _ hrange
      obtain rfl := List.mem_singleton.mp hv
      refine hcov ?_
      show b.Covers k
      unfold BitfieldDecl.Covers
      rw [hoff, hbit]
      omega
    · exact hrest k (Nat.not_lt.mp hin) hk

/-- The member of a union that is initialised. -/
theorem ObjMembers.unionGood {size : Nat} (hlt : size < 2 ^ 32) (ms : ObjMembers) :
    ∀ inits : List (Option Init), ms.AtStart → ms.SoundUnion tg.arch size →
      ms.NormalUnion inits → ms.SelectedGood tg inits → ms.UnionGood tg size inits := by
  induction ms using ObjMembers.induct with
  | nil => exact fun inits _ _ hnormal _ => hnormal.elim
  | decl d ref rest ih =>
    intro inits hstart hsound hnormal hgood
    obtain ⟨hzero, hstart⟩ := hstart
    obtain ⟨-, hle, hsound⟩ := hsound
    cases inits with
    | nil => exact unionGood_nil hlt _
    | cons e inits =>
      cases e with
      | none => exact ih inits hstart hsound hnormal hgood
      | some init =>
        obtain ⟨this, hthis, hgood⟩ := hgood
        refine ⟨this ++ padRest size (ref.size tg.arch), ?_, fun symbols => ?_⟩
        · simp only [ObjMembers.asmDeclareUnion, hthis]
          rfl
        obtain ⟨hlen, hocc⟩ := hgood symbols
        refine ⟨length_member_rest hlen hle hlt,
          fun image pos hlies => ?_⟩
        obtain ⟨hmember, hrest⟩ := lies_member_rest hlen hle hlt hlies
        refine ⟨?_, fun k hk hcov => hrest k ?_ hk⟩
        · show ref.Occurs tg.arch symbols image (some init) (pos + d.place.structOffset)
          rw [hzero, Nat.add_zero]
          exact hocc image pos hmember
        · by_contra hin
          refine hcov ⟨?_, ?_⟩
          · rw [hzero]
            exact Nat.zero_le _
          · rw [hzero, Nat.zero_add]
            exact Nat.not_le.mp hin
  | bitfield b rest ih =>
    intro inits hstart hsound hnormal hgood
    obtain ⟨hplace, hsound⟩ := hsound
    cases inits with
    | nil => exact unionGood_nil hlt _
    | cons e inits =>
      cases e with
      | none => exact ih inits hstart hsound hnormal hgood
      | some init =>
        exact unionGood_bitfield hlt hnormal.2 hplace

/-! ## Any type -/

/-- What is shown of the members of a struct and of a union. -/
def ObjMembers.PartsGood (tg : Target) (ms : ObjMembers) : Prop :=
  ms.Folded tg.arch →
    (ms.SoundStruct tg.arch → ∀ inits, ms.NormalStruct inits → ¬ ms.UnionLitStruct inits →
      ms.EachGood tg inits) ∧
    ∀ size, ms.SoundUnion tg.arch size → ∀ inits, ms.NormalUnion inits →
      ¬ ms.UnionLitUnion inits → ms.SelectedGood tg inits

theorem partsGood_decl {d : MemberDecl} {ref : ObjType} {rest : ObjMembers}
    (href : ref.Folded tg.arch → ref.Sound tg.arch → ∀ init, ref.Normal init →
      ¬ ref.UnionLit init → ref.Good tg init)
    (hrest : rest.PartsGood tg) : (ObjMembers.decl d ref rest).PartsGood tg := by
  rintro ⟨hfold, hfolds⟩
  obtain ⟨hstruct, hunion⟩ := hrest hfolds
  refine ⟨fun hsound inits hnormal hlit => ?_, fun size hsound inits hnormal hlit => ?_⟩
  · obtain ⟨hlit, hlits⟩ := not_or.mp hlit
    exact ⟨href hfold hsound.1 _ hnormal.1 hlit, hstruct hsound.2 _ hnormal.2 hlits⟩
  · cases inits with
    | nil => trivial
    | cons e inits =>
      cases e with
      | none => exact hunion size hsound.2.2 inits hnormal hlit
      | some init => exact href hfold hsound.1 _ hnormal.2 hlit

theorem partsGood_bitfield {b : BitfieldDecl} {rest : ObjMembers} (hrest : rest.PartsGood tg) :
    (ObjMembers.bitfield b rest).PartsGood tg := by
  intro hfolds
  obtain ⟨hstruct, hunion⟩ := hrest hfolds
  refine ⟨fun hsound inits hnormal hlit => hstruct hsound _ hnormal.2 hlit,
    fun size hsound inits hnormal hlit => ?_⟩
  cases inits with
  | nil => trivial
  | cons e inits =>
    cases e with
    | none => exact hunion size hsound.2 inits hnormal hlit
    | some init => trivial

/-- A braced initialiser, or a literal, of a struct. -/
theorem sueType_good_struct {su : SueDecl} {ms : ObjMembers} {inits : List (Option Init)}
    {init : Init} (hprim : su.prim = .struct_)
    (hinit : init = .brace inits ∨ init = .lit inits)
    (hfold : (ObjType.sue su ms).Folded tg.arch) (hsound : (ObjType.sue su ms).Sound tg.arch)
    (hnormal : ms.NormalStruct inits) (hgood : ms.EachGood tg inits) :
    (ObjType.sue su ms).Good tg (some init) := by
  simp only [ObjType.Sound, hprim] at hsound
  obtain ⟨ds, hds, -, hocc⟩ :=
    structType_good hprim hfold hsound.1 hsound.2.1 hnormal hgood
  refine ⟨ds, ?_, fun symbols => ?_⟩
  · rcases hinit with rfl | rfl
    · simp only [ObjType.asmDeclareInit, hprim, hds]
    · simp only [ObjType.asmDeclareInit, hprim, hds]
  obtain ⟨hlen, hlies⟩ := hocc symbols
  refine ⟨hlen, fun image pos hall => ?_⟩
  obtain ⟨-, hmembers, hzeros⟩ := hlies image pos hall
  have hplain : ms.OccursStruct tg.arch symbols image inits pos ∧
      ∀ k < 8 * su.size, ¬ ms.Covers tg.arch k → image (8 * pos + k) = false := by
    refine ⟨hmembers, fun k hk hcov => hzeros k (Nat.zero_le k) hk ?_ hcov⟩
    rintro ⟨v, hv, -⟩
    exact absurd hv List.not_mem_nil
  rcases hinit with rfl | rfl
  · simpa only [ObjType.Occurs, hprim] using hplain
  · simpa only [ObjType.Occurs, hprim] using hplain

/-- A braced initialiser of a union. -/
theorem sueType_good_union {su : SueDecl} {ms : ObjMembers} {inits : List (Option Init)}
    (hprim : su.prim = .union_) (hne : inits ≠ []) (hgood : ms.UnionGood tg su.size inits) :
    (ObjType.sue su ms).Good tg (some (.brace inits)) := by
  obtain ⟨ds, hds, hocc⟩ := hgood
  refine ⟨ds, ?_, fun symbols => ?_⟩
  · simp only [ObjType.asmDeclareInit, hprim, if_neg hne, hds]
  obtain ⟨hlen, hlies⟩ := hocc symbols
  refine ⟨hlen, fun image pos hall => ?_⟩
  simpa only [ObjType.Occurs, hprim] using hlies image pos hall

theorem ObjMembers.NormalUnion.ne_nil {ms : ObjMembers} {inits : List (Option Init)}
    (h : ms.NormalUnion inits) : inits ≠ [] := by
  rintro rfl
  cases ms with
  | nil => exact h
  | decl d ref rest => exact h
  | bitfield b rest => exact h

/-- Every sound type. -/
theorem ObjType.good (t : ObjType) :
    t.Folded tg.arch → t.Sound tg.arch → ∀ init, t.Normal init → ¬ t.UnionLit init →
      t.Good tg init := by
  induction t using ObjType.induct (Q := ObjMembers.PartsGood tg) with
  | scalar s =>
    intro _ hsound init hnormal _
    cases init with
    | none => exact ObjType.good_none _
    | some init =>
      cases init with
      | scalar k => exact staticVal_good hsound hnormal
      | brace inits => exact hnormal.elim
      | lit inits => exact hnormal.elim
      | copy cpy rangeInit => exact hnormal.elim
  | array elem len ih =>
    intro hfold hsound init hnormal hlit
    obtain ⟨helem, hlt⟩ := hsound
    cases init with
    | none => exact ObjType.good_none _
    | some init =>
      cases init with
      | scalar k => exact hnormal.elim
      | lit inits => exact hnormal.elim
      | copy cpy rangeInit => exact hnormal.elim
      | brace inits =>
        obtain ⟨hempty, -, hentries⟩ := hnormal
        have hgood : ∀ i < len, elem.Good tg (Init.resolve (inits.getD i none)) := fun i hi =>
          ih hfold (helem (by omega)) _ (hentries i hi) fun h => hlit ⟨i, hi, h⟩
        obtain ⟨ds, hds, hocc⟩ := asmDeclareElems_good len inits hgood
        have hnull : ¬ (inits = [] ∧ 0 < len) := fun h => by
          have hlen := hempty h.1
          omega
        refine ⟨ds, ?_, fun symbols => ?_⟩
        · simp only [ObjType.asmDeclareInit, if_neg hnull, hds]
        obtain ⟨hlen, hlies⟩ := hocc symbols
        refine ⟨?_, hlies⟩
        rw [hlen]
        exact (Nat.mod_eq_of_lt hlt).symm
  | sue su ms ih =>
    intro hfold hsound init hnormal hlit
    obtain ⟨hstruct, hunion⟩ := ih hfold.2
    cases init with
    | none => exact ObjType.good_none _
    | some init =>
      cases hprim : su.prim with
      | struct_ =>
        have hsound' := hsound
        simp only [ObjType.Sound, hprim] at hsound'
        cases init with
        | scalar k => exact hnormal.elim
        | copy cpy rangeInit => exact hnormal.elim
        | brace inits =>
          simp only [ObjType.Normal, ObjType.UnionLit, hprim] at hnormal hlit
          exact sueType_good_struct hprim (.inl rfl) hfold hsound hnormal
            (hstruct hsound'.2.2 inits hnormal hlit)
        | lit inits =>
          simp only [ObjType.Normal, ObjType.UnionLit, hprim] at hnormal hlit
          exact sueType_good_struct hprim (.inr rfl) hfold hsound hnormal
            (hstruct hsound'.2.2 inits hnormal hlit)
      | union_ =>
        simp only [ObjType.Sound, hprim] at hsound
        cases init with
        | scalar k => exact hnormal.elim
        | copy cpy rangeInit => exact hnormal.elim
        | lit inits =>
          simp only [ObjType.UnionLit, hprim, not_true] at hlit
        | brace inits =>
          simp only [ObjType.Normal, ObjType.UnionLit, hprim] at hnormal hlit
          rcases hnormal with rfl | hnormal | ⟨-, hnone⟩
          · exact sueType_good_union hprim (List.cons_ne_nil _ _) (unionGood_none su.lt ms)
          · exact sueType_good_union hprim hnormal.ne_nil
              (ms.unionGood su.lt inits (foldSue_union hprim hfold) hsound.2 hnormal
                (hunion su.size hsound.2 inits hnormal hlit))
          · rw [hsound.1] at hnone
            cases hnone
  | nil => exact fun _ => ⟨fun _ _ _ _ => trivial, fun _ _ _ h _ => h.elim⟩
  | decl d ref rest href hrest => exact partsGood_decl href hrest
  | bitfield b rest hrest => exact partsGood_bitfield hrest

/-! ## Unions that are initialised with a literal -/

/-- Nothing is emitted. -/
def Fails {α : Type} (x : Except InitFault α) : Prop := ∃ f, x = .error f

theorem Fails.bind {α β : Type} {x : Except InitFault α} (h : Fails x)
    (k : α → Except InitFault β) : Fails (x >>= k) := by
  obtain ⟨f, rfl⟩ := h
  exact ⟨f, rfl⟩

theorem fails_bind {α β : Type} (x : Except InitFault α) {k : α → Except InitFault β}
    (h : ∀ a, Fails (k a)) : Fails (x >>= k) := by
  cases x with
  | error f => exact ⟨f, rfl⟩
  | ok a => exact h a

theorem asmDeclareElems_fails {elem : Option Init → Except InitFault (List Directive)} {n i : Nat}
    (hi : i < n) {inits : List (Option Init)}
    (h : Fails (elem (Init.resolve (inits.getD i none)))) :
    Fails (asmDeclareElems elem n inits) := by
  induction n generalizing i inits with
  | zero => exact absurd hi (Nat.not_lt_zero i)
  | succ n ih =>
    unfold asmDeclareElems
    cases i with
    | zero =>
      have hhead : inits.headD none = inits.getD 0 none := by
        cases inits <;> rfl
      rw [hhead]
      exact h.bind _
    | succ i =>
      have htail : inits.tail.getD i none = inits.getD (i + 1) none := by
        cases inits <;> rfl
      refine fails_bind _ fun this => (ih (Nat.lt_of_succ_lt_succ hi) ?_).bind _
      rw [htail]
      exact h

/-- What is shown of the members of a struct and of a union. -/
def ObjMembers.PartsFail (tg : Target) (ms : ObjMembers) : Prop :=
  (∀ size inits w, ms.UnionLitStruct inits → Fails (ms.asmDeclareStruct tg size inits w)) ∧
    ∀ size inits, ms.UnionLitUnion inits → Fails (ms.asmDeclareUnion tg size inits)

/-- A literal for a union, anywhere in the object. -/
theorem ObjType.unionLit_fails (t : ObjType) :
    ∀ init, t.UnionLit init → Fails (t.asmDeclareInit tg init) := by
  induction t using ObjType.induct (Q := ObjMembers.PartsFail tg) with
  | scalar s => exact fun init hlit => hlit.elim
  | array elem len ih =>
    intro init hlit
    cases init with
    | none => exact hlit.elim
    | some init =>
      cases init with
      | scalar k => exact hlit.elim
      | lit inits => exact hlit.elim
      | copy cpy rangeInit => exact hlit.elim
      | brace inits =>
        obtain ⟨i, hi, hlit⟩ := hlit
        simp only [ObjType.asmDeclareInit]
        split
        · exact ⟨_, rfl⟩
        · exact asmDeclareElems_fails hi (ih _ hlit)
  | sue su ms ih =>
    intro init hlit
    obtain ⟨hstruct, hunion⟩ := ih
    cases init with
    | none => exact hlit.elim
    | some init =>
      cases init with
      | scalar k => exact hlit.elim
      | copy cpy rangeInit => exact hlit.elim
      | brace inits =>
        cases hprim : su.prim with
        | struct_ =>
          simp only [ObjType.UnionLit, ObjType.asmDeclareInit, hprim] at hlit ⊢
          exact hstruct _ _ _ hlit
        | union_ =>
          simp only [ObjType.UnionLit, ObjType.asmDeclareInit, hprim] at hlit ⊢
          split
          · exact ⟨_, rfl⟩
          · exact hunion _ _ hlit
      | lit inits =>
        cases hprim : su.prim with
        | struct_ =>
          simp only [ObjType.UnionLit, ObjType.asmDeclareInit, hprim] at hlit ⊢
          exact hstruct _ _ _ hlit
        | union_ =>
          simp only [ObjType.asmDeclareInit, hprim]
          exact ⟨_, rfl⟩
  | nil => exact ⟨fun _ _ _ h => h.elim, fun _ _ h => h.elim⟩
  | decl d ref rest href hrest =>
    refine ⟨fun size inits w hlit => ?_, fun size inits hlit => ?_⟩
    · simp only [ObjMembers.asmDeclareStruct]
      refine fails_bind _ fun before => ?_
      rcases hlit with hlit | hlit
      · exact (href _ hlit).bind _
      · exact fails_bind _ fun this => (hrest.1 _ _ _ hlit).bind _
    · cases inits with
      | nil => exact hlit.elim
      | cons e inits =>
        cases e with
        | none => exact hrest.2 size inits hlit
        | some init => exact (href _ hlit).bind _
  | bitfield b rest hrest =>
    refine ⟨fun size inits w hlit => ?_, fun size inits hlit => ?_⟩
    · simp only [ObjMembers.asmDeclareStruct]
      exact fails_bind _ fun before => (hrest.1 _ _ _ hlit).bind _
    · cases inits with
      | nil => exact hlit.elim
      | cons e inits =>
        cases e with
        | none => exact hrest.2 size inits hlit
        | some init => exact hlit.elim

theorem two_le_three : 2 ≤ 3 := by decide

theorem one_le_three : 1 ≤ 3 := by decide

/-- `int`, `short` and `char`. -/
def intScalar : ObjType := .scalar (.integral 2 two_le_three true)

def shortScalar : ObjType := .scalar (.integral 1 one_le_three true)

def charScalar : ObjType := .scalar (.integral 0 (Nat.zero_le 3) true)

theorem shortLog_le : 1 ≤ 30 := by decide

def shortAlign : Align := ⟨1, shortLog_le⟩

theorem twelve_le : 12 ≤ 8 * intType.size := by decide

theorem four_le : 4 ≤ 8 * intType.size := by decide

/-- `int a:12` at the start of a struct. -/
def twelveBits : BitfieldDecl :=
  ⟨true, intType, 12, twelve_le, fun _ => (by decide : (12 : Nat) ≠ 0), false,
    ⟨0, 0, true, some intType⟩⟩

/-- `int b:4` behind it. -/
def fourBits : BitfieldDecl :=
  ⟨true, intType, 4, four_le, fun _ => (by decide : (4 : Nat) ≠ 0), false,
    ⟨0, 12, false, some intType⟩⟩

theorem four_lt : 4 < 2 ^ 32 := by decide

theorem twelve_lt : 12 < 2 ^ 32 := by decide

/-- `union { int i; char c; }` -/
def intOrChar : ObjType :=
  .sue ⟨.union_, false, none, 4, 4, four_lt⟩
    (.decl ⟨intAlign, false, ⟨0, 0, false, none⟩⟩ intScalar
      (.decl ⟨charAlign, false, ⟨0, 0, false, none⟩⟩ charScalar .nil))

/-- `struct { int a:12, b:4; short s; char t[3]; union { int i; char c; } u; }` -/
def mixedStruct : ObjType :=
  .sue ⟨.struct_, false, none, 12, 4, twelve_lt⟩
    (.bitfield twelveBits (.bitfield fourBits
      (.decl ⟨shortAlign, false, ⟨2, 0, false, none⟩⟩ shortScalar
        (.decl ⟨charAlign, false, ⟨4, 0, false, none⟩⟩ (.array charScalar 3)
          (.decl ⟨intAlign, false, ⟨8, 0, false, none⟩⟩ intOrChar .nil)))))

/-- An integer constant. -/
def numInit (v : Integral) : Option Init := some (.scalar (.num v))

/-- `{ 0xabc, 5, -2, { 1, 2 }, { .c = 7 } }` -/
def mixedInit : Option Init :=
  some (.brace [numInit 0xabc, numInit 5, numInit (-2), some (.brace [numInit 1, numInit 2]),
    some (.brace [none, numInit 7])])

/-- Without the builtin types of the host, for 64 bits. -/
def plainTarget : Target := ⟨.bits64, false⟩

example : mixedStruct.asmDeclareInit plainTarget mixedInit =
    .ok [.value 2 (.num 0x5abc) 0, .value 2 (.num (-2)) 0,
      .value 1 (.num 1) 0, .value 1 (.num 2) 0, .space 1, .space 1,
      .value 1 (.num 7) 0, .space 3] := by decide

/-- Where an `int` follows, the padding is emitted in front of the bit-field. -/
example : (⟨2, [⟨0xabc, 0, 12⟩], some twelveBits⟩ : Walk).decl plainTarget
    ⟨intAlign, false, ⟨4, 0, false, none⟩⟩ 4 =
      .ok ([.space 2, .value 2 (.num 0xabc) 0], ⟨8, [], none⟩) := rfl

end Ucc.Cc1.Data
