/-
  Cc1/SlotAlign.lean --- the alignment of automatic storage.

  Source: align_sz, out_aalloc and v_aalloc_noop in src/cc1/out/stack.c,
  pack_next and pack_to_align in src/cc1/pack.c.

  A slot is addressed by its lower end, which is the size of the frame once the
  slot is in it.  `pack_next` rounds the size of the frame before it adds the
  slot, so that the address is a multiple of the alignment only if the size of
  the slot is one.  `align_sz` sees to that for sizes below the alignment.
-/
import Ucc.Cc1.StackAlign

set_option autoImplicit false

namespace Ucc.Cc1.Stack

/-! ## Runs -/

/-- One operation on the frame, or `v_aalloc_noop`. -/
def FrameCtx.autoStep (s : FrameCtx) : AlignOp → Option FrameCtx
  | .frame op => s.step op
  | .aallocNoop sz align =>
      if (s.phase = .prologue ∨ s.phase = .body) ∧ sz < 2 ^ 32 then
        some (s.setCurStackSz ((s.curStackSz + alignSz sz align) % 2 ^ 64))
      else none

/-- The operations in order. -/
def FrameCtx.autoRun (s : FrameCtx) (ops : List AlignOp) : Option FrameCtx :=
  Lib.steps FrameCtx.autoStep s ops

/-- The value that `out_aalloc` returns. -/
def FrameCtx.aallocVal (s : FrameCtx) (sz : Nat) (align : Align) : OutVal :=
  (s.grow sz align).newBpBelow (some ((s.grow sz align).topSlot sz align))

/-- A call of `out_aalloc` in a run, and the state in which it is made. -/
def AallocCall (s : FrameCtx) (ops : List AlignOp) (t : FrameCtx) (sz : Nat) (align : Align) :
    Prop :=
  ∃ pre post, ops = pre ++ .frame (.aalloc sz align) :: post ∧ s.autoRun pre = some t

/-- With a frame base that is a multiple of the largest alignment asked for, every
`out_aalloc` returns an address that is a multiple of its alignment. -/
def AutoAligned (s : FrameCtx) (ops : List AlignOp) : Prop :=
  ∀ (bp : Int) (largest : Align),
    (∀ t sz align, AallocCall s ops t sz align → align.log ≤ largest.log) →
    (largest.bytes : Int) ∣ bp →
    ∀ t sz align, AallocCall s ops t sz align →
      ∀ off, (t.aallocVal sz align).frameOffset = some off → (align.bytes : Int) ∣ bp + off

/-! ## One call -/

/-- What `pack_to_align` gives is a multiple, also where it is cut to 32 bits. -/
theorem dvd_packToAlign (n : Nat) (a : Align) : a.bytes ∣ packToAlign n a.bytes := by
  have hle := a.le
  have hpow : 2 ^ a.log ≤ 2 ^ 30 := Nat.pow_le_pow_right (by omega) hle
  have hpos : 0 < 2 ^ a.log := Nat.two_pow_pos _
  unfold packToAlign Align.bytes
  rw [Nat.mod_eq_of_lt (a := 2 ^ 32 - 2 ^ a.log) (by omega), Lib.and_mask (by omega)]
  exact Nat.dvd_mul_left _ _

/-- The size of a slot is a multiple of its alignment. -/
theorem dvd_alignSz_iff (sz : Nat) (a : Align) :
    a.bytes ∣ alignSz sz a ↔ sz ≤ a.bytes ∨ a.bytes ∣ sz := by
  unfold alignSz
  split
  · rename_i hlt
    have hpow : a.bytes ∣ 2 ^ 32 := Nat.pow_dvd_pow 2 (by have := a.le; omega)
    have hdvd : a.bytes ∣ packToAlign sz a.bytes % 2 ^ 32 :=
      (Nat.dvd_mod_iff hpow).2 (dvd_packToAlign sz a)
    exact iff_of_true hdvd (Or.inl hlt.le)
  · rename_i hge
    constructor
    · exact Or.inr
    · rintro (hle | hdvd)
      · have heq : sz = a.bytes := by omega
        rw [heq]
      · exact hdvd

/-- The address is aligned exactly if the size of the slot is. -/
theorem dvd_grow_iff (s : FrameCtx) (sz : Nat) (a : Align) :
    a.bytes ∣ (s.grow sz a).curStackSz ↔ sz ≤ a.bytes ∨ a.bytes ∣ sz := by
  have hpow : a.bytes ∣ 2 ^ 64 := Nat.pow_dvd_pow 2 (by have := a.le; omega)
  have hcur : (s.grow sz a).curStackSz =
      (packToAlign s.curStackSz a.bytes + alignSz sz a) % 2 ^ 64 := rfl
  rw [hcur, Nat.dvd_mod_iff hpow, Nat.dvd_add_right (dvd_packToAlign _ a), dvd_alignSz_iff]

theorem frameOffset_aallocVal (s : FrameCtx) (sz : Nat) (a : Align) :
    (s.aallocVal sz a).frameOffset = some (-((s.grow sz a).curStackSz : Int)) := rfl

/-- From a frame base that is a multiple of the alignment. -/
theorem dvd_aallocVal_iff (s : FrameCtx) (sz : Nat) (a : Align) {bp off : Int}
    (hbp : (a.bytes : Int) ∣ bp) (hoff : (s.aallocVal sz a).frameOffset = some off) :
    (a.bytes : Int) ∣ bp + off ↔ sz ≤ a.bytes ∨ a.bytes ∣ sz := by
  obtain rfl := Option.some.inj ((frameOffset_aallocVal s sz a).symm.trans hoff)
  rw [dvd_add_right hbp, Int.dvd_neg, Int.natCast_dvd_natCast, dvd_grow_iff]

/-! ## Whole runs -/

theorem Align.bytes_dvd {a b : Align} (h : a.log ≤ b.log) : a.bytes ∣ b.bytes :=
  Nat.pow_dvd_pow 2 h

/-- Every `out_aalloc` that is asked for in a run that gets to its end is made. -/
theorem exists_aallocCall {s f : FrameCtx} {ops : List AlignOp} {sz : Nat} {a : Align}
    (hrun : s.autoRun ops = some f) (hmem : .frame (.aalloc sz a) ∈ ops) :
    ∃ t, AallocCall s ops t sz a := by
  obtain ⟨pre, post, rfl⟩ := List.append_of_mem hmem
  obtain ⟨t, ht, -⟩ := Lib.steps_append hrun
  exact ⟨t, pre, post, rfl, ht⟩

/-- The alignment that is largest of all. -/
def maxAlignment : Align := ⟨30, le_rfl⟩

/-- The addresses of a run are aligned exactly if every slot that is asked for is no
larger than its alignment or a multiple of it. -/
theorem automatic_storage_aligned_iff {s f : FrameCtx} {ops : List AlignOp}
    (hrun : s.autoRun ops = some f) :
    AutoAligned s ops ↔
      ∀ sz a, .frame (.aalloc sz a) ∈ ops → sz ≤ a.bytes ∨ a.bytes ∣ sz := by
  constructor
  · intro h sz a hmem
    obtain ⟨t, hcall⟩ := exists_aallocCall hrun hmem
    have hdvd := h 0 maxAlignment (fun t sz a _ => a.le) (dvd_zero _) t sz a hcall _
      (frameOffset_aallocVal t sz a)
    exact (dvd_aallocVal_iff t sz a (dvd_zero _) (frameOffset_aallocVal t sz a)).1 hdvd
  · intro h bp largest hlargest hbp t sz a hcall off hoff
    have hle := hlargest t sz a hcall
    have hbp' : (a.bytes : Int) ∣ bp :=
      (Int.natCast_dvd_natCast.2 (Align.bytes_dvd hle)).trans hbp
    obtain ⟨pre, post, rfl, -⟩ := hcall
    exact (dvd_aallocVal_iff t sz a hbp' hoff).2 (h sz a (by simp))

/-- An `int`, a gap and a `char[32]` that is aligned to 16 bytes. -/
def alignedOps : List AlignOp :=
  [.frame .prologueEnd, .frame (.aalloc 4 intAlign), .aallocNoop 3 charAlign,
    .frame (.release 0), .frame (.aalloc 32 vectorAlign)]

theorem automatic_storage_aligned_array :
    (∃ f, FrameCtx.init.autoRun alignedOps = some f) ∧ AutoAligned FrameCtx.init alignedOps := by
  have hrun : (FrameCtx.init.autoRun alignedOps).isSome = true := by decide
  obtain ⟨f, hf⟩ := Option.isSome_iff_exists.1 hrun
  refine ⟨⟨f, hf⟩, (automatic_storage_aligned_iff hf).2 ?_⟩
  intro sz a hmem
  simp only [alignedOps, List.mem_cons, AlignOp.frame.injEq, FrameOp.aalloc.injEq, reduceCtorEq,
    List.not_mem_nil, or_false, false_or] at hmem
  rcases hmem with ⟨rfl, rfl⟩ | ⟨rfl, rfl⟩
  · exact Or.inl (by decide)
  · exact Or.inr (by decide)

/-- `_Alignas(16) char a[17]` in an empty frame is at `bp - 17`. -/
theorem seventeen_bytes_not_aligned :
    ¬ AutoAligned FrameCtx.init
      [.frame .prologueEnd, .frame (.aalloc 17 ⟨4, by decide⟩)] := by
  intro h
  have hdvd := h 0 maxAlignment (fun t sz a _ => a.le) (dvd_zero _) FrameCtx.init.prologueEnd 17
    ⟨4, by decide⟩ ⟨[.frame .prologueEnd], [], rfl, rfl⟩ (-17) (by decide)
  revert hdvd
  decide

end Ucc.Cc1.Stack
