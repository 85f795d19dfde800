/-
  Cc1/StackAlign.lean --- the stack pointer at calls, and the red zone.

  Source: out_call and out_func_epilogue in src/cc1/out/func.c, v_aalloc_noop
  in src/cc1/out/stack.c.

  `Cc1/Stack.lean` with `v_aalloc_noop` added, which nothing in the compiler
  calls: its bytes are part of the frame, but out_func_epilogue leaves them out
  of what it subtracts from the stack pointer.  Functions with an `alloca`, and
  `stack_realign`, are not in these runs.  The frame base is the stack pointer
  after `pushq %rbp`, and code in the body of a function does not move the stack
  pointer, so that it has one value at every call.

  `pack_to_align` gives 32 bits: a frame of 4 GiB or more is cut.
-/
import Ucc.Cc1.StackSlots

set_option autoImplicit false

namespace Ucc.Cc1.Stack

/-! ## The frame, with `v_aalloc_noop` -/

/-- The frame, `stack_n_alloc`, and `redzone` of out_func_epilogue. -/
structure AlignCtx where
  frame : FrameCtx
  stackNAlloc : Nat
  redzone : Bool
  deriving DecidableEq, Repr

/-- The state at the end of `out_perfunc_init`. -/
def AlignCtx.init : AlignCtx := ⟨FrameCtx.init, 0, false⟩

/-- The operations on a frame. -/
inductive AlignOp where
  | frame (op : FrameOp)
  | aallocNoop (sz : Nat) (align : Align)
  deriving DecidableEq, Repr

/-- The operations of functions without `alloca` and without `stack_realign`. -/
def FrameOp.plain : FrameOp → Bool
  | .allocaPush | .allocaPop | .stackRealign _ => false
  | _ => true

/-- `v_aalloc_noop` -/
def AlignCtx.aallocNoop (s : AlignCtx) (sz : Nat) (align : Align) : AlignCtx :=
  { s with
    frame := s.frame.setCurStackSz ((s.frame.curStackSz + alignSz sz align) % 2 ^ 64)
    stackNAlloc := s.stackNAlloc + alignSz sz align }

/-- Whether out_func_epilogue leaves the frame in the red zone. -/
def FrameOp.redzone (s : FrameCtx) : FrameOp → Bool
  | .epilogue moptRedZone => s.calleeSave.redZone moptRedZone
  | _ => false

/-- One operation. -/
def AlignCtx.step (s : AlignCtx) : AlignOp → Option AlignCtx
  | .frame op =>
      if op.plain then
        (s.frame.step op).map fun f => { s with frame := f, redzone := op.redzone s.frame }
      else none
  | .aallocNoop sz align =>
      if (s.frame.phase = .prologue ∨ s.frame.phase = .body) ∧ sz < 2 ^ 32 then
        some (s.aallocNoop sz align)
      else none

/-- The operations in order. -/
def AlignCtx.run (s : AlignCtx) (ops : List AlignOp) : Option AlignCtx :=
  Lib.steps AlignCtx.step s ops

/-- The stack pointer in the body of a function that ends as `f`, from the frame
base: `stack_adj` is subtracted, unless the frame is in the red zone. -/
def AlignCtx.sp (f : AlignCtx) : Int :=
  if f.redzone then 0 else -((f.frame.maxStackSz : Int) - f.stackNAlloc)

/-- An area that is in use in `s`. -/
def AlignCtx.Live (s f : AlignCtx) (a : Area) : Prop := s.frame.Live f.frame a

/-- At every call instruction the stack pointer is a multiple of 16. -/
def AlignedAtCalls (ops : List AlignOp) (f : AlignCtx) : Prop :=
  ∀ entry : Int, entry % 16 = 8 → ∀ words, .frame (.callReserve words) ∈ ops →
    (entry - wordSize + f.sp) % 16 = 0

/-- The frame has every slot that is used and the arguments of every call. -/
def FrameCovers (ops : List AlignOp) (f : AlignCtx) : Prop :=
  ∀ pre post s, ops = pre ++ post → AlignCtx.init.run pre = some s →
    ∀ a, s.Live f a → a.bytes f.sp ⊆ Set.Ico (-f.frame.maxStackSz) 0

/-- A frame that is not reserved is that of a function without calls, and is
within 128 bytes of the stack pointer. -/
def RedZoneKept (ops : List AlignOp) (f : AlignCtx) : Prop :=
  f.redzone = true →
    (∀ words, .frame (.callReserve words) ∉ ops) ∧
    ∀ pre post s, ops = pre ++ post → AlignCtx.init.run pre = some s →
      ∀ a, s.Live f a → a.bytes f.sp ⊆ Set.Ico (f.sp - 128) f.sp

/-- The frame of a function whose code is made with `ops`. -/
def FrameSound (ops : List AlignOp) : Prop :=
  ∀ f, AlignCtx.init.run ops = some f → f.frame.phase = .done →
    AlignedAtCalls ops f ∧ FrameCovers ops f ∧ RedZoneKept ops f

/-- The condition on the state before an operation: sizes that are rounded stay
below 4 GiB, and the bytes of `v_aalloc_noop`, in a function that makes calls,
are a multiple of 16 and leave room for the arguments of the calls. -/
def AlignCtx.Guard (s : AlignCtx) (op : AlignOp) (_rest : List AlignOp) : Prop :=
  match op with
  | .frame (.saveCallRegs _) | .frame .saveVariadic | .frame (.callReserve _) =>
      s.frame.Fits wordAlign
  | .frame (.aalloc _ align) => s.frame.Fits align
  | .frame (.epilogue _) =>
      s.frame.maxStackSz + 2 * (s.frame.usedCalleeSaved * wordSize + wordSize) +
          s.frame.stackCallspace + s.frame.maxAlign ≤ 2 ^ 32 ∧
        (s.frame.hadCall = true →
          16 ∣ s.stackNAlloc ∧ s.frame.stackCallspace + s.stackNAlloc ≤ s.frame.maxStackSz)
  | _ => True

instance (s : AlignCtx) (op : AlignOp) (rest : List AlignOp) : Decidable (s.Guard op rest) :=
  match op with
  | .frame op =>
      match op with
      | .saveCallRegs _ | .saveVariadic | .callReserve _ =>
          inferInstanceAs (Decidable (s.frame.Fits wordAlign))
      | .aalloc _ align => inferInstanceAs (Decidable (s.frame.Fits align))
      | .epilogue _ => inferInstanceAs (Decidable (_ ∧ (s.frame.hadCall = true → _ ∧ _)))
      | .stackRealign _ | .prologueEnd | .stackNeedalign _ | .new _ | .dup _ _ | .reuse _ _ _
      | .overwrite _ _ | .setPhi _ _ | .retain _ | .release _ | .adealloc _ | .useCalleeSaved
      | .callDone | .allocaPush | .allocaPop | .funcEnd => inferInstanceAs (Decidable True)
  | .aallocNoop _ _ => inferInstanceAs (Decidable True)

/-! ## The slots of a step -/

/-- The sizes that an operation rounds stay below 4 GiB. -/
def FrameCtx.RoundFits (s : FrameCtx) : FrameOp → Prop
  | .saveCallRegs _ | .saveVariadic | .callReserve _ => s.Fits wordAlign
  | .aalloc _ align => s.Fits align
  | _ => True

/-- A slot in the frame as it is now. -/
def Slot.In (σ : Slot) (s : FrameCtx) : Prop := σ.size ≤ σ.depth ∧ σ.depth ≤ s.maxStackSz

namespace FrameCtx

variable {s t : FrameCtx} {op : FrameOp} {σ : Slot}

theorem topSlot_in {sz : Nat} {a : Align} (hfit : s.Fits a) (hsz : sz < 2 ^ 32) :
    ((s.grow sz a).topSlot sz a).In (s.grow sz a) := by
  have hbelow := topSlot_grow_below hfit hsz
  have hmax := s.grow_max sz a
  refine ⟨by omega, ?_⟩
  change (s.grow sz a).curStackSz ≤ _
  omega

/-- The slots of a change to one value. -/
theorem liveSlot_of_modify {i : Nat} {f : OutVal → OutVal}
    (h : (s.modifyVal i f).LiveSlot σ)
    (hf : ∀ v σ, s.vals[i]? = some v → 0 < (f v).retains → (f v).slot = some σ → s.LiveSlot σ) :
    s.LiveSlot σ := by
  rcases liveSlot_modifyVal h with h | ⟨v, hv, hpos, hslot⟩
  · exact h
  · exact hf v σ hv hpos hslot

theorem liveSlot_of_drop {i : Nat} (h : (s.drop i).LiveSlot σ) : s.LiveSlot σ := by
  refine liveSlot_of_modify h fun v σ hv hpos hslot => ?_
  change 0 < v.retains - 1 at hpos
  exact Or.inr ⟨v, List.mem_of_getElem? hv, by omega, hslot⟩

theorem liveSlot_of_tryStackReclaim (h : s.tryStackReclaim.LiveSlot σ) : s.LiveSlot σ := by
  obtain ⟨n, heq, -⟩ := s.tryStackReclaim_eq
  rw [heq] at h
  exact h

theorem liveSlot_of_release {i : Nat} (hstep : s.release i = some t) (h : t.LiveSlot σ) :
    s.LiveSlot σ := by
  unfold FrameCtx.release at hstep
  split at hstep
  · obtain rfl := Option.some.inj hstep
    split at h
    · exact liveSlot_of_drop (liveSlot_of_tryStackReclaim h)
    · exact liveSlot_of_drop h
  · cases hstep

theorem liveSlot_of_adealloc {i : Nat} (hstep : s.adealloc i = some t) (h : t.LiveSlot σ) :
    s.LiveSlot σ := by
  unfold FrameCtx.adealloc at hstep
  split at hstep
  · rename_i u hu
    obtain rfl := Option.some.inj hstep
    exact liveSlot_of_release hu (liveSlot_of_tryStackReclaim h)
  · cases hstep

/-- A value that is added refers to nothing new. -/
theorem liveSlot_of_addVal {v : OutVal}
    (h : ({ s with vals := s.vals ++ [v] } : FrameCtx).LiveSlot σ)
    (hv : ∀ σ, v.slot = some σ → s.LiveSlot σ) : s.LiveSlot σ := by
  rcases liveSlot_append (s := s) h rfl (List.append_nil _).symm with h | h | ⟨w, hw, hslot⟩
  · exact h
  · exact absurd h List.not_mem_nil
  · rw [List.mem_singleton.mp hw] at hslot
    exact hv σ hslot

/-- What `generate` makes live was live, or is the new slot of an `out_aalloc`. -/
theorem liveSlot_of_generate (hstep : s.generate op = some t) (hfit : s.RoundFits op)
    (h : t.LiveSlot σ) : s.LiveSlot σ ∨ σ.In t := by
  cases op with
  | aalloc sz a =>
    simp only [FrameCtx.generate, Option.ite_none_right_eq_some, Option.some.injEq] at hstep
    obtain ⟨hsz, rfl⟩ := hstep
    rcases liveSlot_append (s := s) h rfl (List.append_nil _).symm with h | h | ⟨v, hv, hslot⟩
    · exact Or.inl h
    · exact absurd h List.not_mem_nil
    · rw [List.mem_singleton.mp hv] at hslot
      obtain rfl := Option.some.inj hslot
      exact Or.inr (topSlot_in hfit hsz)
  | stackNeedalign a =>
    obtain rfl := Option.some.inj hstep
    exact Or.inl h
  | new store =>
    obtain rfl := Option.some.inj hstep
    exact Or.inl (liveSlot_of_addVal h fun σ hσ => absurd hσ (by simp))
  | dup i store =>
    obtain ⟨v, hv, rfl⟩ := Option.map_eq_some_iff.mp hstep
    exact Or.inl (liveSlot_of_addVal h fun σ hσ => liveSlot_of_retained hv hσ)
  | reuse i store keep =>
    obtain ⟨v, hv, rfl⟩ := Option.map_eq_some_iff.mp hstep
    refine Or.inl (liveSlot_of_modify h fun w σ hw hpos hslot => ?_)
    obtain ⟨hget, -⟩ := retained_eq_some hv
    obtain rfl := Option.some.inj (hget.symm.trans hw)
    cases keep with
    | true => exact liveSlot_of_retained hv hslot
    | false => exact absurd hslot (by simp)
  | overwrite d i =>
    obtain ⟨v, hv, rfl⟩ := Option.map_eq_some_iff.mp hstep
    exact Or.inl (liveSlot_of_modify h fun _ _ _ _ hslot => liveSlot_of_retained hv hslot)
  | setPhi i phi =>
    obtain ⟨v, hv, rfl⟩ := Option.map_eq_some_iff.mp hstep
    exact Or.inl (liveSlot_of_modify h fun w _ hw hpos hslot =>
      Or.inr ⟨w, List.mem_of_getElem? hw, hpos, hslot⟩)
  | retain i =>
    obtain ⟨v, hv, rfl⟩ := Option.map_eq_some_iff.mp hstep
    refine Or.inl (liveSlot_of_modify h fun w σ hw hpos hslot => ?_)
    obtain ⟨hget, -⟩ := retained_eq_some hv
    obtain rfl := Option.some.inj (hget.symm.trans hw)
    exact liveSlot_of_retained hv hslot
  | release i => exact Or.inl (liveSlot_of_release hstep h)
  | adealloc i => exact Or.inl (liveSlot_of_adealloc hstep h)
  | useCalleeSaved | allocaPush =>
    obtain rfl := Option.some.inj hstep
    exact Or.inl h
  | allocaPop =>
    simp only [FrameCtx.generate, Option.ite_none_right_eq_some, Option.some.injEq] at hstep
    obtain ⟨-, rfl⟩ := hstep
    exact Or.inl h
  | saveCallRegs | saveVariadic | stackRealign | prologueEnd | callReserve | callDone | funcEnd
  | epilogue => cases hstep

/-- What a step makes live was live, or is a new slot in the frame. -/
theorem liveSlot_of_step (hstep : s.step op = some t) (hfit : s.RoundFits op)
    (h : t.LiveSlot σ) : s.LiveSlot σ ∨ σ.In t := by
  cases stepTo_of_step hstep with
  | @saveCallRegs n hph hn =>
    have hsz : n * wordSize < 2 ^ 32 := by
      change n * 8 < 2 ^ 32
      omega
    have hcur := le_grow_cur hfit hsz
    have hmax := s.grow_max (n * wordSize) wordAlign
    rw [alignSz_words] at hcur
    have harg : ∀ k < n, ((s.grow (n * wordSize) wordAlign).argSlot k).In
        (s.grow (n * wordSize) wordAlign) := by
      intro k hk
      unfold Slot.In argSlot
      change n * 8 < 2 ^ 32 at hsz
      change s.curStackSz + n * 8 ≤ _ at hcur
      change 8 ≤ _ - k * 8 ∧ _ - k * 8 ≤ _
      omega
    rcases liveSlot_append (s := s) h rfl rfl with h | h | ⟨v, hv, hslot⟩
    · exact Or.inl h
    · obtain ⟨k, hk, rfl⟩ := List.mem_map.mp h
      exact Or.inr (harg k (List.mem_range.mp hk))
    · obtain ⟨k, hk, rfl⟩ := List.mem_map.mp hv
      obtain rfl := Option.some.inj hslot
      exact Or.inr (harg k (List.mem_range.mp hk))
  | saveVariadic hph =>
    rcases liveSlot_append (s := s) h rfl rfl with h | h | ⟨v, hv, hslot⟩
    · exact Or.inl h
    · rw [List.mem_singleton.mp h]
      exact Or.inr (topSlot_in hfit (by decide))
    · rw [List.mem_singleton.mp hv] at hslot
      exact absurd hslot (by simp [newBpBelow])
  | stackRealign hph | prologueEnd hph | callDone hph | funcEnd hph hout => exact Or.inl h
  | generate hph hgen => exact liveSlot_of_generate hgen hfit h
  | callReserve hph hout hsz =>
    left
    unfold FrameCtx.callReserve at h
    dsimp only at h
    split at h
    · exact h
    · split at h
      · exact h
      · rcases liveSlot_append (s := s) h rfl (List.append_nil _).symm with h | h | ⟨v, hv, hslot⟩
        · exact h
        · exact absurd h List.not_mem_nil
        · rw [List.mem_singleton.mp hv] at hslot
          exact absurd hslot (by simp [newBpBelow])
  | release hph hrel => exact Or.inl (liveSlot_of_release hrel h)
  | epilogue hph =>
    obtain ⟨-, -, hvals, hpin, -⟩ := s.calleeSave_keeps
    left
    rcases h with hσ | ⟨v, hv, hpos, hσ⟩
    · exact Or.inl (hpin ▸ hσ)
    · exact Or.inr ⟨v, hvals ▸ hv, hpos, hσ⟩

/-! ## The sizes of a step -/

/-- What holds of the sizes while the code of a function is made. -/
structure Sizes (s : FrameCtx) : Prop where
  space : s.stackCallspace ≤ s.maxStackSz
  call : ∀ n, s.outgoing = some n → n ≤ s.stackCallspace ∧ s.hadCall = true
  had : s.hadCall = true → 16 ≤ s.maxAlign
  align : s.maxAlign = 0 ∨ ∃ a : Align, s.maxAlign = a.bytes
  saves : s.calleeSaves = none
  alloca : s.allocaCount = 0

theorem sizes_init : Sizes init where
  space := le_rfl
  call := nofun
  had := nofun
  align := Or.inl rfl
  saves := rfl
  alloca := rfl

/-- Everything that `Sizes` is about is the same, but for a larger frame. -/
structure SameSizes (s t : FrameCtx) : Prop where
  max : s.maxStackSz ≤ t.maxStackSz
  callspace : t.stackCallspace = s.stackCallspace
  outgoing : t.outgoing = s.outgoing
  had : t.hadCall = s.hadCall
  align : t.maxAlign = s.maxAlign
  saves : t.calleeSaves = s.calleeSaves
  alloca : t.allocaCount = s.allocaCount

theorem SameSizes.trans {u : FrameCtx} (h : SameSizes s t) (h' : SameSizes t u) :
    SameSizes s u :=
  ⟨h.max.trans h'.max, h'.callspace.trans h.callspace, h'.outgoing.trans h.outgoing,
    h'.had.trans h.had, h'.align.trans h.align, h'.saves.trans h.saves, h'.alloca.trans h.alloca⟩

theorem Sizes.same (h : s.Sizes) (hst : SameSizes s t) : t.Sizes where
  space := by
    rw [hst.callspace]
    exact h.space.trans hst.max
  call := by
    rw [hst.outgoing, hst.callspace, hst.had]
    exact h.call
  had := by
    rw [hst.had, hst.align]
    exact h.had
  align := by
    rw [hst.align]
    exact h.align
  saves := hst.saves.trans h.saves
  alloca := hst.alloca.trans h.alloca

theorem sameSizes_setCurStackSz (s : FrameCtx) (n : Nat) : SameSizes s (s.setCurStackSz n) :=
  ⟨(grows_setCurStackSz s n).max, rfl, rfl, rfl, rfl, rfl, rfl⟩

theorem sameSizes_tryStackReclaim (s : FrameCtx) : SameSizes s s.tryStackReclaim := by
  obtain ⟨n, heq, -⟩ := s.tryStackReclaim_eq
  rw [heq]
  exact ⟨le_rfl, rfl, rfl, rfl, rfl, rfl, rfl⟩

theorem sameSizes_modifyVal (s : FrameCtx) (i : Nat) (f : OutVal → OutVal) :
    SameSizes s (s.modifyVal i f) := ⟨le_rfl, rfl, rfl, rfl, rfl, rfl, rfl⟩

theorem sameSizes_release {i : Nat} (h : s.release i = some t) : SameSizes s t := by
  unfold FrameCtx.release at h
  split at h
  · obtain rfl := Option.some.inj h
    split
    · exact (sameSizes_modifyVal s i _).trans (sameSizes_tryStackReclaim _)
    · exact sameSizes_modifyVal s i _
  · cases h

theorem sameSizes_adealloc {i : Nat} (h : s.adealloc i = some t) : SameSizes s t := by
  unfold FrameCtx.adealloc at h
  split at h
  · rename_i u hu
    obtain rfl := Option.some.inj h
    exact (sameSizes_release hu).trans (sameSizes_tryStackReclaim _)
  · cases h

theorem Sizes.stackNeedalign (h : s.Sizes) (a : Align) : (s.stackNeedalign a.bytes).Sizes where
  space := h.space
  call := h.call
  had := fun hh => (h.had hh).trans (le_max_left _ _)
  align := by
    change max s.maxAlign a.bytes = 0 ∨ ∃ b : Align, max s.maxAlign a.bytes = b.bytes
    rcases le_total s.maxAlign a.bytes with hle | hle
    · exact Or.inr ⟨a, max_eq_right hle⟩
    · rw [max_eq_left hle]
      exact h.align
  saves := h.saves
  alloca := h.alloca

theorem Sizes.generate (h : s.Sizes) (hplain : op.plain = true)
    (hstep : s.generate op = some t) : t.Sizes := by
  cases op with
  | aalloc sz a =>
    simp only [FrameCtx.generate, Option.ite_none_right_eq_some, Option.some.injEq] at hstep
    obtain ⟨-, rfl⟩ := hstep
    have hgrow := sameSizes_setCurStackSz s (packNext s.curStackSz (alignSz sz a) a.bytes).2
    exact h.same ⟨hgrow.max, rfl, rfl, rfl, rfl, rfl, rfl⟩
  | stackNeedalign a =>
    obtain rfl := Option.some.inj hstep
    exact h.stackNeedalign a
  | new store | useCalleeSaved =>
    obtain rfl := Option.some.inj hstep
    exact h.same ⟨le_rfl, rfl, rfl, rfl, rfl, rfl, rfl⟩
  | dup i store | reuse i store keep | overwrite d i | setPhi i phi | retain i =>
    obtain ⟨v, hv, rfl⟩ := Option.map_eq_some_iff.mp hstep
    exact h.same ⟨le_rfl, rfl, rfl, rfl, rfl, rfl, rfl⟩
  | release i => exact h.same (sameSizes_release hstep)
  | adealloc i => exact h.same (sameSizes_adealloc hstep)
  | allocaPush | allocaPop => cases hplain
  | saveCallRegs | saveVariadic | stackRealign | prologueEnd | callReserve | callDone | funcEnd
  | epilogue => cases hstep

/-- The argument space, in a frame that has been marked for a call. -/
theorem Sizes.reserve {words : Nat} (h : s.Sizes) (hhad : s.hadCall = true)
    (hsz : words * wordSize < 2 ^ 32) (hfit : s.Fits wordAlign) :
    Sizes { s.grow (words * wordSize) wordAlign with
      vals := s.vals ++ [(s.grow (words * wordSize) wordAlign).newBpBelow none]
      stackCallspace :=
        if s.stackCallspace < words * wordSize then words * wordSize else s.stackCallspace
      stackPtrManipulated := true
      outgoing := some (words * wordSize) } := by
  have hcur := le_grow_cur hfit hsz
  have hmax := s.grow_max (words * wordSize) wordAlign
  rw [alignSz_words] at hcur
  have hspace := h.space
  refine ⟨?_, ?_, h.had, h.align, h.saves, h.alloca⟩
  · change (if s.stackCallspace < words * wordSize then _ else s.stackCallspace) ≤
      (s.grow (words * wordSize) wordAlign).maxStackSz
    split <;> omega
  · rintro n ⟨⟩
    refine ⟨?_, hhad⟩
    change words * wordSize ≤ if s.stackCallspace < words * wordSize then _ else s.stackCallspace
    split <;> omega

theorem Sizes.callReserve {words : Nat} (h : s.Sizes) (hout : s.outgoing = none)
    (hsz : words * wordSize < 2 ^ 32) (hfit : s.Fits wordAlign) :
    (s.callReserve words).Sizes := by
  have hmarked : ({ s.stackNeedalign 16 with hadCall := true } : FrameCtx).Sizes := by
    have halign := h.stackNeedalign ⟨4, by decide⟩
    exact ⟨halign.space, fun n hn => absurd (hout.symm.trans hn) (by simp),
      fun _ => le_max_right _ _, halign.align, halign.saves, halign.alloca⟩
  unfold FrameCtx.callReserve
  dsimp only
  split
  · exact hmarked
  · rw [if_neg (not_not_intro hmarked.alloca)]
    exact hmarked.reserve rfl hsz hfit

/-- Every operation but the last one keeps the sizes in order. -/
theorem Sizes.step (h : s.Sizes) (hplain : op.plain = true) (hfit : s.RoundFits op)
    (hstep : s.step op = some t) (hdone : t.phase ≠ .done) : t.Sizes := by
  cases stepTo_of_step hstep with
  | @saveCallRegs n hph hn =>
    have hgrow := sameSizes_setCurStackSz s
      (packNext s.curStackSz (alignSz (n * wordSize) wordAlign) wordAlign.bytes).2
    exact h.same ⟨hgrow.max, rfl, rfl, rfl, rfl, rfl, rfl⟩
  | saveVariadic hph =>
    have hgrow := sameSizes_setCurStackSz s
      (packNext s.curStackSz (alignSz variadicBytes wordAlign) wordAlign.bytes).2
    exact h.same ⟨hgrow.max, rfl, rfl, rfl, rfl, rfl, rfl⟩
  | stackRealign hph => cases hplain
  | prologueEnd hph | funcEnd hph hout => exact h.same ⟨le_rfl, rfl, rfl, rfl, rfl, rfl, rfl⟩
  | generate hph hgen => exact h.generate hplain hgen
  | callReserve hph hout hsz => exact h.callReserve hout hsz hfit
  | callDone hph => exact ⟨h.space, nofun, h.had, h.align, h.saves, h.alloca⟩
  | release hph hrel => exact h.same (sameSizes_release hrel)
  | epilogue hph => exact absurd rfl hdone

/-! ## The last rounding -/

theorem hadCall_calleeSave (s : FrameCtx) : s.calleeSave.hadCall = s.hadCall := by
  unfold calleeSave
  split <;> rfl

/-- A function that makes a call has a frame of a multiple of 16 bytes. -/
theorem Sizes.sixteen_dvd {r : Bool} (h : s.Sizes) (hhad : s.hadCall = true)
    (hfit : s.calleeSave.maxStackSz + s.maxAlign ≤ 2 ^ 32) :
    16 ∣ (s.epilogue r).maxStackSz := by
  have hle := h.had hhad
  obtain ⟨a, ha⟩ := h.align.resolve_left (by omega)
  have hlog : 4 ≤ a.log := by
    by_contra hlt
    have hsmall : 2 ^ a.log ≤ 2 ^ 3 := Nat.pow_le_pow_right (by decide) (by omega)
    rw [ha, Align.bytes] at hle
    omega
  have hdvd : 16 ∣ a.bytes := pow_dvd_pow 2 hlog
  change 16 ∣ if s.calleeSave.maxAlign ≠ 0
    then packToAlign s.calleeSave.maxStackSz s.calleeSave.maxAlign else s.calleeSave.maxStackSz
  rw [s.calleeSave_keeps.1, if_pos (by omega), ha]
  rw [ha] at hfit
  rw [packToAlign_bytes hfit]
  exact hdvd.trans (Lib.dvd_roundUp _ _)

/-- The callee saves are in the frame before it is rounded. -/
theorem calleeSave_in (hnone : s.calleeSaves = none)
    (hfit : s.maxStackSz + 2 * (s.usedCalleeSaved * wordSize + wordSize) + s.stackCallspace +
      s.maxAlign ≤ 2 ^ 32) :
    s.maxStackSz ≤ s.calleeSave.maxStackSz ∧
      s.calleeSave.maxStackSz + s.maxAlign ≤ 2 ^ 32 ∧
      ∀ σ, s.calleeSave.calleeSaves = some σ → σ.In s.calleeSave := by
  rcases Nat.eq_zero_or_pos s.usedCalleeSaved with hzero | hpos
  · have heq : s.calleeSave = s := if_pos hzero
    rw [heq]
    refine ⟨le_rfl, by omega, fun σ hσ => ?_⟩
    exact absurd (hσ.symm.trans hnone) (by simp)
  · obtain ⟨top, hlo, hhi, hmax, hslot⟩ := calleeSave_used (s := s) (by omega) hpos (by omega)
    refine ⟨by omega, by omega, fun σ hσ => ?_⟩
    obtain rfl := Option.some.inj (hσ.symm.trans hslot)
    constructor
    · change s.usedCalleeSaved * wordSize ≤ top
      omega
    · change top ≤ s.calleeSave.maxStackSz
      omega

theorem hadCall_of_release {i : Nat} (h : s.release i = some t) : t.hadCall = s.hadCall :=
  (sameSizes_release h).had

theorem hadCall_generate (h : s.generate op = some t) : t.hadCall = s.hadCall := by
  cases op with
  | aalloc sz a | allocaPop =>
    simp only [FrameCtx.generate, Option.ite_none_right_eq_some, Option.some.injEq] at h
    obtain ⟨-, rfl⟩ := h
    rfl
  | stackNeedalign a | new store | useCalleeSaved | allocaPush =>
    obtain rfl := Option.some.inj h
    rfl
  | dup i store | reuse i store keep | overwrite d i | setPhi i phi | retain i =>
    obtain ⟨v, hv, rfl⟩ := Option.map_eq_some_iff.mp h
    rfl
  | release i => exact (sameSizes_release h).had
  | adealloc i => exact (sameSizes_adealloc h).had
  | saveCallRegs | saveVariadic | stackRealign | prologueEnd | callReserve | callDone | funcEnd
  | epilogue => cases h

theorem hadCall_callReserve (s : FrameCtx) (words : Nat) :
    (s.callReserve words).hadCall = true := by
  unfold FrameCtx.callReserve
  dsimp only
  split
  · rfl
  · split <;> rfl

/-- A call stays noted. -/
theorem hadCall_step (h : s.step op = some t) (hhad : s.hadCall = true) : t.hadCall = true := by
  cases stepTo_of_step h with
  | saveCallRegs hph hn | saveVariadic hph | stackRealign hph | prologueEnd hph | callDone hph
  | funcEnd hph hout => exact hhad
  | generate hph hgen => rwa [hadCall_generate hgen]
  | callReserve hph hout hsz => exact hadCall_callReserve s _
  | release hph hrel => rwa [hadCall_of_release hrel]
  | epilogue hph => exact (hadCall_calleeSave s).trans hhad

end FrameCtx

/-! ## Runs -/

namespace AlignCtx

variable {s t : AlignCtx} {op : AlignOp}

/-- What a step can be. -/
theorem step_cases (h : s.step op = some t) :
    (∃ fop f, op = .frame fop ∧ fop.plain = true ∧ s.frame.step fop = some f ∧
      t = { s with frame := f, redzone := fop.redzone s.frame }) ∨
    (∃ sz align, op = .aallocNoop sz align ∧
      (s.frame.phase = .prologue ∨ s.frame.phase = .body) ∧ t = s.aallocNoop sz align) := by
  cases op with
  | frame fop =>
    simp only [AlignCtx.step, Option.ite_none_right_eq_some] at h
    obtain ⟨hplain, hmap⟩ := h
    obtain ⟨f, hf, rfl⟩ := Option.map_eq_some_iff.mp hmap
    exact Or.inl ⟨fop, f, rfl, hplain, hf, rfl⟩
  | aallocNoop sz align =>
    simp only [AlignCtx.step, Option.ite_none_right_eq_some, Option.some.injEq] at h
    obtain ⟨⟨hph, -⟩, rfl⟩ := h
    exact Or.inr ⟨sz, align, rfl, hph, rfl⟩

theorem roundFits_of_guard {fop : FrameOp} {rest : List AlignOp}
    (h : s.Guard (.frame fop) rest) : s.frame.RoundFits fop := by
  cases fop <;> first | exact h | trivial

/-- What holds while the code of a function is made. -/
structure Inv (s : AlignCtx) : Prop where
  sizes : s.frame.Sizes
  slots : ∀ σ, s.frame.LiveSlot σ → σ.In s.frame

theorem inv_init : Inv init where
  sizes := FrameCtx.sizes_init
  slots := fun σ h => absurd h (FrameCtx.not_liveSlot_init σ)

/-- What only grows. -/
structure Later (s t : AlignCtx) : Prop where
  max : s.frame.maxStackSz ≤ t.frame.maxStackSz
  callspace : s.frame.stackCallspace ≤ t.frame.stackCallspace
  had : s.frame.hadCall = true → t.frame.hadCall = true

theorem Later.refl (s : AlignCtx) : Later s s := ⟨le_rfl, le_rfl, id⟩

theorem Later.trans {u : AlignCtx} (h : Later s t) (h' : Later t u) : Later s u :=
  ⟨h.max.trans h'.max, h.callspace.trans h'.callspace, h'.had ∘ h.had⟩

theorem later_step (h : s.step op = some t) (hdone : t.frame.phase ≠ .done) :
    s.frame.phase ≠ .done ∧ Later s t := by
  rcases step_cases h with ⟨fop, f, rfl, -, hf, rfl⟩ | ⟨sz, align, rfl, hph, rfl⟩
  · have hgrow := FrameCtx.grows_step hf hdone
    exact ⟨FrameCtx.phase_ne_done_of_step hf, hgrow.max, hgrow.callspace,
      FrameCtx.hadCall_step hf⟩
  · have hgrow := FrameCtx.grows_setCurStackSz s.frame
      ((s.frame.curStackSz + alignSz sz align) % 2 ^ 64)
    refine ⟨?_, hgrow.max, le_rfl, id⟩
    rcases hph with hph | hph <;> simp [hph]

theorem later_run {ops : List AlignOp} (h : s.run ops = some t) (hdone : t.frame.phase ≠ .done) :
    s.frame.phase ≠ .done ∧ Later s t := by
  refine Lib.steps_relates (R := fun s t =>
    t.frame.phase ≠ .done → s.frame.phase ≠ .done ∧ Later s t) ?_ ?_ ?_ h hdone
  · exact fun s hs => ⟨hs, Later.refl s⟩
  · intro s t u hst htu hu
    obtain ⟨ht, hlater⟩ := htu hu
    exact ⟨(hst ht).1, (hst ht).2.trans hlater⟩
  · exact fun s op t hstep ht => later_step hstep ht

/-- Every operation but the last one keeps the invariant. -/
theorem Inv.step {rest : List AlignOp} (h : s.Inv) (hguard : s.Guard op rest)
    (hstep : s.step op = some t) (hdone : t.frame.phase ≠ .done) : t.Inv := by
  have hmax := (later_step hstep hdone).2.max
  rcases step_cases hstep with ⟨fop, f, rfl, hplain, hf, rfl⟩ | ⟨sz, align, rfl, hph, rfl⟩
  · have hfit := roundFits_of_guard hguard
    refine ⟨h.sizes.step hplain hfit hf hdone, fun σ hσ => ?_⟩
    rcases FrameCtx.liveSlot_of_step hf hfit hσ with hold | hnew
    · exact ⟨(h.slots σ hold).1, (h.slots σ hold).2.trans hmax⟩
    · exact hnew
  · refine ⟨h.sizes.same (FrameCtx.sameSizes_setCurStackSz _ _), fun σ hσ => ?_⟩
    exact ⟨(h.slots σ hσ).1, (h.slots σ hσ).2.trans hmax⟩

theorem Inv.run {pre post : List AlignOp}
    (hguard : Lib.Guarded AlignCtx.step Guard s (pre ++ post)) (h : s.run pre = some t)
    (hs : s.Inv) (hdone : t.frame.phase ≠ .done) :
    t.Inv ∧ Lib.Guarded AlignCtx.step Guard t post := by
  have hrun := Lib.Guarded.invariant (I := fun t _ => t.frame.phase ≠ .done → t.Inv) ?_ hguard
    h (fun _ => hs)
  · exact ⟨hrun.1 hdone, hrun.2⟩
  · intro s op ops t hinv hop hstep ht
    exact (hinv (later_step hstep ht).1).step hop hstep ht

/-- A call in a run is noted at its end. -/
theorem hadCall_of_mem {ops : List AlignOp} {words : Nat} (h : s.run ops = some t)
    (hmem : .frame (.callReserve words) ∈ ops) (hdone : t.frame.phase ≠ .done) :
    t.frame.hadCall = true := by
  obtain ⟨pre, post, rfl⟩ := List.append_of_mem hmem
  obtain ⟨u, -, hrest⟩ := Lib.steps_append h
  obtain ⟨v, hv, hpost⟩ := Lib.steps_cons hrest
  refine (later_run hpost hdone).2.had ?_
  rcases step_cases hv with ⟨fop, f, hop, -, hf, rfl⟩ | ⟨sz, align, hop, -⟩
  · cases hop
    cases FrameCtx.stepTo_of_step hf with
    | generate hph hgen => cases hgen
    | callReserve hph hout hsz => exact FrameCtx.hadCall_callReserve _ _
  · cases hop

/-! ## The end of the function -/

/-- The state after out_func_epilogue. -/
def epilogue (p : AlignCtx) (r : Bool) : AlignCtx :=
  { p with frame := p.frame.epilogue r, redzone := p.frame.calleeSave.redZone r }

theorem eq_epilogue_of_done (h : s.step op = some t) (hdone : t.frame.phase = .done) :
    ∃ r, op = .frame (.epilogue r) ∧ t = s.epilogue r := by
  rcases step_cases h with ⟨fop, f, rfl, -, hf, rfl⟩ | ⟨sz, align, rfl, hph, rfl⟩
  · obtain ⟨r, rfl, rfl⟩ := FrameCtx.eq_epilogue_of_done hf hdone
    exact ⟨r, rfl, rfl⟩
  · change s.frame.phase = .done at hdone
    rcases hph with hph | hph
    · cases hph.symm.trans hdone
    · cases hph.symm.trans hdone

theorem redzone_of_hadCall {p : AlignCtx} {r : Bool} (h : p.frame.hadCall = true) :
    (p.epilogue r).redzone = false := by
  change p.frame.calleeSave.redZone r = false
  simp [FrameCtx.redZone, FrameCtx.hadCall_calleeSave, h]

/-- The condition on the epilogue. -/
def Ends (p : AlignCtx) : Prop := ∀ r, p.Guard (.frame (.epilogue r)) []

section
variable {p : AlignCtx} {r : Bool}

/-- An area in use is a slot in the frame before it is rounded, or the arguments
of a call. -/
theorem live_cases {a : Area} (hs : s.Inv) (hlater : Later s p) (hp : p.Inv) (hends : p.Ends)
    (hlive : s.Live (p.epilogue r) a) :
    (∃ σ : Slot, σ.In p.frame.calleeSave ∧ ∀ sp, a.bytes sp = σ.bytes) ∨
      ∃ n, a = .outgoing n ∧ n ≤ p.frame.stackCallspace ∧ p.frame.hadCall = true := by
  obtain ⟨hmax, -, hsaves⟩ := FrameCtx.calleeSave_in hp.sizes.saves (hends r).1
  cases a with
  | slot σ =>
    have hin := hs.slots σ hlive
    exact Or.inl ⟨σ, ⟨hin.1, hin.2.trans (hlater.max.trans hmax)⟩, fun _ => rfl⟩
  | outgoing n =>
    obtain ⟨hn, hhad⟩ := hs.sizes.call n hlive
    exact Or.inr ⟨n, rfl, hn.trans hlater.callspace, hlater.had hhad⟩
  | calleeSaves σ => exact Or.inl ⟨σ, hsaves σ hlive, fun _ => rfl⟩

theorem covers_epilogue {a : Area} (hs : s.Inv) (hlater : Later s p) (hp : p.Inv)
    (hends : p.Ends) (hlive : s.Live (p.epilogue r) a) :
    a.bytes (p.epilogue r).sp ⊆ Set.Ico (-(p.epilogue r).frame.maxStackSz) 0 := by
  obtain ⟨hmax, hround, -⟩ := FrameCtx.calleeSave_in hp.sizes.saves (hends r).1
  have hle := @FrameCtx.le_epilogue_max p.frame r hp.sizes.align hround
  change _ ⊆ Set.Ico (-((p.frame.epilogue r).maxStackSz : Int)) 0
  rcases live_cases hs hlater hp hends hlive with ⟨σ, ⟨hsize, hdepth⟩, hbytes⟩ | ⟨n, rfl, hn, hhad⟩
  · rw [hbytes]
    rintro x ⟨hlo, hhi⟩
    exact ⟨by omega, by omega⟩
  · have hroom := ((hends r).2 hhad).2
    rintro x ⟨hlo, hhi⟩
    rw [AlignCtx.sp, redzone_of_hadCall hhad] at hlo hhi
    change -(((p.frame.epilogue r).maxStackSz : Int) - p.stackNAlloc) ≤ x at hlo
    change x < -(((p.frame.epilogue r).maxStackSz : Int) - p.stackNAlloc) + n at hhi
    exact ⟨by omega, by omega⟩

theorem redzone_epilogue {a : Area} (hs : s.Inv) (hlater : Later s p) (hp : p.Inv)
    (hends : p.Ends) (hzone : (p.epilogue r).redzone = true) (hlive : s.Live (p.epilogue r) a) :
    a.bytes (p.epilogue r).sp ⊆ Set.Ico ((p.epilogue r).sp - 128) (p.epilogue r).sp := by
  have hsmall : p.frame.calleeSave.maxStackSz < 128 := by
    change p.frame.calleeSave.redZone r = true at hzone
    simp only [FrameCtx.redZone, Bool.and_eq_true, decide_eq_true_eq] at hzone
    exact hzone.1.1.2
  have hsp : (p.epilogue r).sp = 0 := by
    rw [AlignCtx.sp, hzone]
    rfl
  rcases live_cases hs hlater hp hends hlive with ⟨σ, ⟨hsize, hdepth⟩, hbytes⟩ | ⟨n, rfl, hn, hhad⟩
  · rw [hbytes, hsp]
    rintro x ⟨hlo, hhi⟩
    exact ⟨by omega, by omega⟩
  · rw [redzone_of_hadCall hhad] at hzone
    cases hzone

theorem aligned_epilogue (hp : p.Inv) (hends : p.Ends) (hhad : p.frame.hadCall = true)
    {entry : Int} (hentry : entry % 16 = 8) :
    (entry - wordSize + (p.epilogue r).sp) % 16 = 0 := by
  obtain ⟨-, hround, -⟩ := FrameCtx.calleeSave_in hp.sizes.saves (hends r).1
  obtain ⟨j, hj⟩ := @FrameCtx.Sizes.sixteen_dvd p.frame r hp.sizes hhad hround
  obtain ⟨k, hk⟩ := ((hends r).2 hhad).1
  rw [AlignCtx.sp, redzone_of_hadCall hhad]
  change (entry - (8 : Nat) + -(((p.frame.epilogue r).maxStackSz : Int) - p.stackNAlloc)) % 16 = 0
  rw [hj, hk]
  push_cast
  omega

end

end AlignCtx

/-- A function that saves an argument, has a local, and calls a function with
eight arguments while it holds a value in a callee-saved register. -/
def callingOps : List AlignOp :=
  [.frame (.saveCallRegs 1), .frame .prologueEnd, .frame (.aalloc 24 wordAlign),
    .frame .useCalleeSaved, .frame (.callReserve 2), .frame .callDone, .frame (.adealloc 2),
    .frame (.adealloc 1), .frame .funcEnd, .frame (.release 0), .frame (.epilogue true)]

/-- A function with two arrays of 2 GiB that makes a call. -/
def twoArrayOps : List AlignOp :=
  ([.frame .prologueEnd, .frame (.aalloc (2 ^ 31) wordAlign),
    .frame (.aalloc (2 ^ 31) wordAlign)] : List AlignOp) ++
  ([.frame (.callReserve 0), .frame .callDone, .frame (.adealloc 0), .frame (.adealloc 1),
    .frame .funcEnd, .frame (.epilogue true)] : List AlignOp)

end Ucc.Cc1.Stack
