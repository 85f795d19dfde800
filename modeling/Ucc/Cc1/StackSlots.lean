/-
  Cc1/StackSlots.lean --- when the slots of a stack frame do not overlap.

  A single number, `cur_stack_sz`, says what part of the frame is taken.
  `v_try_stack_reclaim` sets it to the lowest offset that a retained value has,
  whatever the slots are: the register save area of a variadic function, which
  no value refers to after the prologue, a slot that only a phi value refers to,
  and the start of a slot whose values point further in, can all be given away.
  The arguments of a call are stored at the stack pointer, but the space that
  is set aside for them is not: a slot that is made during the call can be at
  the bottom of the frame, where the arguments are.  And `pack_to_align` drops
  the upper half of a size.

  `Guard` excludes these steps.  In a run that meets it the live slots are above
  `cur_stack_sz`, which is the invariant from which everything else follows.
-/
import Ucc.Cc1.Stack

set_option autoImplicit false

namespace Ucc.Cc1.Stack

/-! ## The condition -/

/-- The value keeps a reclaim from going above the start of `σ`. -/
def OutVal.Anchors (v : OutVal) (σ : Slot) : Prop :=
  v.counts = true ∧ ∃ off, v.frameOffset = some off ∧ off ≤ -σ.depth

/-- If the stack is reclaimed, a retained value is at or below each live slot. -/
def FrameCtx.SafeReclaim (s : FrameCtx) : Prop :=
  s.phase = .body → s.reclaims = true → ∀ σ, s.LiveSlot σ → ∃ v ∈ s.vals, v.Anchors σ

/-- The size of the stack can be rounded up in 32 bits. -/
def FrameCtx.Fits (s : FrameCtx) (align : Align) : Prop := s.curStackSz + align.bytes ≤ 2 ^ 32

/-- The operations that take a part of the frame. -/
def FrameOp.allocates : FrameOp → Bool
  | .saveCallRegs _ | .saveVariadic | .aalloc _ _ | .callReserve _ => true
  | _ => false

/-- More of the frame will be taken. -/
def Allocates (rest : List FrameOp) : Prop := ∃ op ∈ rest, op.allocates = true

theorem Allocates.cons {op : FrameOp} {rest : List FrameOp} (h : Allocates rest) :
    Allocates (op :: rest) := by
  obtain ⟨op', hop', halloc⟩ := h
  exact ⟨op', List.mem_cons_of_mem _ hop', halloc⟩

/-- The function has callee saves, or will have. -/
def FrameCtx.WillSave (s : FrameCtx) (rest : List FrameOp) : Prop :=
  0 < s.usedCalleeSaved ∨ .useCalleeSaved ∈ rest

/-- The condition on the state before an operation, and on the operations that
follow. -/
def FrameCtx.Guard (s : FrameCtx) (op : FrameOp) (rest : List FrameOp) : Prop :=
  match op with
  | .saveCallRegs _ | .saveVariadic | .callReserve _ => s.Fits wordAlign
  | .stackRealign align => s.Fits align
  | .aalloc _ align => s.Fits align ∧ (s.outgoing = none ∨ s.WillSave rest)
  | .release i =>
      Allocates rest → (∃ v, s.retained i = some v ∧ v.retains = 1) → (s.drop i).SafeReclaim
  | .adealloc i => Allocates rest → (s.drop i).SafeReclaim
  | .epilogue _ =>
      s.maxStackSz + 2 * (s.usedCalleeSaved * wordSize + wordSize) + s.stackCallspace +
        s.maxAlign ≤ 2 ^ 32
  | _ => True

instance (v : OutVal) (σ : Slot) : Decidable (v.Anchors σ) :=
  match h : v.frameOffset with
  | some off =>
      decidable_of_iff (v.counts = true ∧ off ≤ -σ.depth) (by simp [OutVal.Anchors, h])
  | none => isFalse (by simp [OutVal.Anchors, h])

instance (s : FrameCtx) : Decidable s.SafeReclaim :=
  decidable_of_iff (s.phase = .body → s.reclaims = true →
    ∀ σ ∈ s.liveSlots, ∃ v ∈ s.vals, v.Anchors σ)
    (by simp only [FrameCtx.SafeReclaim, FrameCtx.mem_liveSlots])

instance (s : FrameCtx) (align : Align) : Decidable (s.Fits align) :=
  inferInstanceAs (Decidable (_ ≤ _))

instance (rest : List FrameOp) : Decidable (Allocates rest) :=
  inferInstanceAs (Decidable (∃ op ∈ rest, op.allocates = true))

instance (s : FrameCtx) (rest : List FrameOp) : Decidable (s.WillSave rest) :=
  inferInstanceAs (Decidable (_ ∨ _))

instance (s : FrameCtx) (i : Nat) :
    Decidable (∃ v, s.retained i = some v ∧ v.retains = 1) :=
  match h : s.retained i with
  | some v => decidable_of_iff (v.retains = 1) (by simp)
  | none => isFalse (by simp)

instance (s : FrameCtx) (op : FrameOp) (rest : List FrameOp) : Decidable (s.Guard op rest) :=
  match op with
  | .saveCallRegs _ | .saveVariadic | .callReserve _ =>
      inferInstanceAs (Decidable (s.Fits wordAlign))
  | .stackRealign align => inferInstanceAs (Decidable (s.Fits align))
  | .aalloc _ align =>
      inferInstanceAs (Decidable (s.Fits align ∧ (s.outgoing = none ∨ s.WillSave rest)))
  | .release i =>
      inferInstanceAs (Decidable (Allocates rest →
        (∃ v, s.retained i = some v ∧ v.retains = 1) → (s.drop i).SafeReclaim))
  | .adealloc i => inferInstanceAs (Decidable (Allocates rest → (s.drop i).SafeReclaim))
  | .epilogue _ => inferInstanceAs (Decidable (_ ≤ 2 ^ 32))
  | .prologueEnd | .stackNeedalign _ | .new _ | .dup _ _ | .reuse _ _ _ | .overwrite _ _
  | .setPhi _ _ | .retain _ | .useCalleeSaved | .callDone | .allocaPush | .allocaPop
  | .funcEnd => inferInstanceAs (Decidable True)

/-! ## Sizes -/

theorem Align.bytes_pos (a : Align) : 0 < a.bytes := Nat.two_pow_pos a.log

theorem packToAlign_bytes {n : Nat} {a : Align} (h : n + a.bytes ≤ 2 ^ 32) :
    packToAlign n a.bytes = Lib.roundUp n a.bytes := by
  have hlt := Lib.roundUp_lt (Align.bytes_pos a) n
  rw [Align.bytes, packToAlign_eq (by omega) (by have := a.le; omega)]
  exact Nat.mod_eq_of_lt (by rw [← Align.bytes]; omega)

theorem alignSz_lt {sz : Nat} (h : sz < 2 ^ 32) (a : Align) : alignSz sz a < 2 ^ 32 := by
  unfold alignSz
  split
  · exact Nat.mod_lt _ (by decide)
  · exact h

theorem alignSz_words (n : Nat) : alignSz (n * wordSize) wordAlign = n * wordSize := by
  unfold alignSz
  split
  · rename_i h
    have hn : n = 0 := by
      change 8 > n * 8 at h
      omega
    subst hn
    decide
  · rfl

namespace FrameCtx

variable {s t : FrameCtx} {rest : List FrameOp}

theorem grow_cur {sz : Nat} {a : Align} (hfit : s.Fits a) (hsz : sz < 2 ^ 32) :
    (s.grow sz a).curStackSz = Lib.roundUp s.curStackSz a.bytes + alignSz sz a := by
  have hlt := Lib.roundUp_lt (Align.bytes_pos a) s.curStackSz
  have hsz' := alignSz_lt hsz a
  unfold Fits at hfit
  change (packToAlign s.curStackSz a.bytes + alignSz sz a) % 2 ^ 64 = _
  rw [packToAlign_bytes hfit]
  exact Nat.mod_eq_of_lt (by omega)

theorem le_grow_cur {sz : Nat} {a : Align} (hfit : s.Fits a) (hsz : sz < 2 ^ 32) :
    s.curStackSz + alignSz sz a ≤ (s.grow sz a).curStackSz := by
  have hle := Lib.le_roundUp (Align.bytes_pos a) s.curStackSz
  rw [grow_cur hfit hsz]
  omega

theorem setCurStackSz_max (s : FrameCtx) (sz : Nat) :
    (s.setCurStackSz sz).maxStackSz = max s.maxStackSz sz := by
  unfold setCurStackSz
  change (if sz > s.maxStackSz then sz else s.maxStackSz) = _
  split <;> omega

theorem grow_max (s : FrameCtx) (sz : Nat) (a : Align) :
    (s.grow sz a).maxStackSz = max s.maxStackSz (s.grow sz a).curStackSz :=
  s.setCurStackSz_max _

/-! ## Reclaim -/

theorem lowestOffset_le (lowest : Int) (vs : List OutVal) : lowestOffset lowest vs ≤ lowest := by
  induction vs generalizing lowest with
  | nil => exact le_rfl
  | cons v vs ih =>
    unfold lowestOffset
    split
    · split
      · refine (ih _).trans ?_
        split <;> omega
      · exact ih lowest
    · exact ih lowest

theorem lowestOffset_le_of_mem {lowest off : Int} {vs : List OutVal} {v : OutVal} (hv : v ∈ vs)
    (hcounts : v.counts = true) (hoff : v.frameOffset = some off) :
    lowestOffset lowest vs ≤ off := by
  induction vs generalizing lowest with
  | nil => exact absurd hv List.not_mem_nil
  | cons w vs ih =>
    unfold lowestOffset
    rcases List.mem_cons.mp hv with rfl | hv
    · rw [if_pos hcounts, hoff]
      refine (lowestOffset_le _ vs).trans ?_
      split <;> omega
    · split
      · split
        · exact ih hv
        · exact ih hv
      · exact ih hv

/-- A reclaim changes the current size only. -/
theorem tryStackReclaim_eq (s : FrameCtx) :
    ∃ n, s.tryStackReclaim = { s with curStackSz := n } ∧
      (n = s.curStackSz ∨ s.reclaims = true ∧ n = (-lowestOffset 0 s.vals).toNat) := by
  unfold tryStackReclaim
  split
  · rename_i hrec
    dsimp only
    split
    · exact ⟨_, rfl, Or.inr ⟨hrec, rfl⟩⟩
    · exact ⟨_, rfl, Or.inl rfl⟩
  · exact ⟨_, rfl, Or.inl rfl⟩

/-! ## The invariant -/

/-- What holds while the code of a function is made, with `rest` to come. -/
structure Inv (s : FrameCtx) (rest : List FrameOp) : Prop where
  size_le : ∀ σ, s.LiveSlot σ → σ.size ≤ σ.depth
  depth_le : ∀ σ, s.LiveSlot σ → σ.depth ≤ s.maxStackSz
  below : s.phase = .prologue ∨ s.phase = .body → Allocates rest →
    ∀ σ, s.LiveSlot σ → σ.depth ≤ s.curStackSz
  disjoint : {σ | s.LiveSlot σ}.PairwiseDisjoint Slot.bytes
  call : ∀ n, s.outgoing = some n →
    n ≤ s.stackCallspace ∧ s.stackPtrManipulated = true ∧ n ≤ s.maxStackSz ∧
      (s.WillSave rest ∨ ∀ σ, s.LiveSlot σ → σ.depth + n ≤ s.maxStackSz)
  prologue : s.phase = .prologue → s.outgoing = none
  saves : s.calleeSaves = none
  align : s.maxAlign = 0 ∨ ∃ a : Align, s.maxAlign = a.bytes

theorem not_liveSlot_init (σ : Slot) : ¬ init.LiveSlot σ := by
  rintro (h | ⟨v, h, -⟩)
  · exact absurd h List.not_mem_nil
  · exact absurd h List.not_mem_nil

theorem init_inv (rest : List FrameOp) : Inv init rest where
  size_le := fun σ h => absurd h (not_liveSlot_init σ)
  depth_le := fun σ h => absurd h (not_liveSlot_init σ)
  below := fun _ _ σ h => absurd h (not_liveSlot_init σ)
  disjoint := fun σ h => absurd h (not_liveSlot_init σ)
  call := by
    rintro n ⟨⟩
  prologue := fun _ => rfl
  saves := rfl
  align := Or.inl rfl

/-- Passing over an operation that saves no register. -/
theorem Inv.next {op : FrameOp} (h : s.Inv (op :: rest)) (hop : .useCalleeSaved ≠ op) :
    s.Inv rest := by
  refine ⟨h.size_le, h.depth_le, fun hph hall => h.below hph hall.cons, h.disjoint,
    fun n hn => ?_, h.prologue, h.saves, h.align⟩
  obtain ⟨hspace, hsp, hmax, hcall⟩ := h.call n hn
  refine ⟨hspace, hsp, hmax, hcall.imp_left ?_⟩
  rintro (hused | hmem)
  · exact Or.inl hused
  · exact Or.inr ((List.mem_cons.mp hmem).resolve_left hop)

theorem Inv.below_of_allocates {op : FrameOp} (h : s.Inv (op :: rest))
    (hgen : s.phase = .prologue ∨ s.phase = .body) (hop : op.allocates = true) :
    ∀ σ, s.LiveSlot σ → σ.depth ≤ s.curStackSz :=
  h.below hgen ⟨op, List.mem_cons_self, hop⟩

/-- Two slots one of which ends where the other one starts, or further down. -/
theorem slot_disjoint {σ τ : Slot} (h : σ.depth + τ.size ≤ τ.depth) :
    Disjoint σ.bytes τ.bytes := by
  rw [Set.disjoint_left]
  rintro x ⟨hlo, -⟩ ⟨-, hhi⟩
  omega

/-- A change of the values alone that makes no slot live. -/
theorem Inv.setVals {vals : List OutVal} (h : s.Inv rest)
    (hlive : ∀ σ, { s with vals := vals }.LiveSlot σ → s.LiveSlot σ) :
    { s with vals := vals }.Inv rest where
  size_le := fun σ hσ => h.size_le σ (hlive σ hσ)
  depth_le := fun σ hσ => h.depth_le σ (hlive σ hσ)
  below := fun hph hall σ hσ => h.below hph hall σ (hlive σ hσ)
  disjoint := h.disjoint.subset hlive
  call := by
    intro n hn
    obtain ⟨hspace, hsp, hmax, hcall⟩ := h.call n hn
    refine ⟨hspace, hsp, hmax, hcall.imp_right fun hdepth σ hσ => hdepth σ (hlive σ hσ)⟩
  prologue := h.prologue
  saves := h.saves
  align := h.align

/-- Slots that are made below all that is taken. -/
theorem Inv.extend {N : Slot → Prop} (h : s.Inv rest)
    (hbelow : ∀ σ, s.LiveSlot σ → σ.depth ≤ s.curStackSz)
    (hlive : ∀ σ, t.LiveSlot σ → s.LiveSlot σ ∨ N σ)
    (hN : ∀ σ, N σ → s.curStackSz + σ.size ≤ σ.depth ∧ σ.depth ≤ t.curStackSz)
    (hdisj : {σ | N σ}.PairwiseDisjoint Slot.bytes)
    (hcur : s.curStackSz ≤ t.curStackSz)
    (hmax : t.maxStackSz = max s.maxStackSz t.curStackSz)
    (hcall : ∀ n, t.outgoing = some n →
      n ≤ t.stackCallspace ∧ t.stackPtrManipulated = true ∧ n ≤ t.maxStackSz ∧
        (t.WillSave rest ∨ ∀ σ, t.LiveSlot σ → σ.depth + n ≤ t.maxStackSz))
    (hpro : t.phase = .prologue → t.outgoing = none) (hsaves : t.calleeSaves = none)
    (halign : t.maxAlign = 0 ∨ ∃ a : Align, t.maxAlign = a.bytes) : t.Inv rest where
  size_le := by
    intro σ hσ
    rcases hlive σ hσ with hσ | hσ
    · exact h.size_le σ hσ
    · have := hN σ hσ
      omega
  depth_le := by
    intro σ hσ
    rcases hlive σ hσ with hσ | hσ
    · have := h.depth_le σ hσ
      omega
    · have := hN σ hσ
      omega
  below := by
    intro _ _ σ hσ
    rcases hlive σ hσ with hσ | hσ
    · exact (hbelow σ hσ).trans hcur
    · exact (hN σ hσ).2
  disjoint := by
    intro σ hσ τ hτ hne
    have hcross : ∀ σ τ, s.LiveSlot σ → N τ → Disjoint σ.bytes τ.bytes := by
      intro σ τ hσ hτ
      have hdepth := hbelow σ hσ
      have hnew := hN τ hτ
      exact slot_disjoint (by omega)
    rcases hlive σ hσ with hσ | hσ <;> rcases hlive τ hτ with hτ | hτ
    · exact h.disjoint hσ hτ hne
    · exact hcross σ τ hσ hτ
    · exact (hcross τ σ hτ hσ).symm
    · exact hdisj hσ hτ hne
  call := hcall
  prologue := hpro
  saves := hsaves
  align := halign

/-! ## Steps -/

theorem retained_eq_some {i : Nat} {v : OutVal} (h : s.retained i = some v) :
    s.vals[i]? = some v ∧ 0 < v.retains := by
  unfold retained at h
  split at h
  · rename_i w hw
    split at h
    · rename_i hpos
      obtain rfl := Option.some.inj h
      exact ⟨hw, hpos⟩
    · exact absurd h (by simp)
  · exact absurd h (by simp)

/-- The slot of a retained value is live. -/
theorem liveSlot_of_retained {i : Nat} {v : OutVal} {σ : Slot} (h : s.retained i = some v)
    (hσ : v.slot = some σ) : s.LiveSlot σ := by
  obtain ⟨hget, hpos⟩ := retained_eq_some h
  exact Or.inr ⟨v, List.mem_of_getElem? hget, hpos, hσ⟩

/-- A slot that is live after one value has changed is live before, or is that
of the new value. -/
theorem liveSlot_modifyVal {i : Nat} {f : OutVal → OutVal} {σ : Slot}
    (h : (s.modifyVal i f).LiveSlot σ) :
    s.LiveSlot σ ∨ ∃ v, s.vals[i]? = some v ∧ 0 < (f v).retains ∧ (f v).slot = some σ := by
  rcases h with hpin | ⟨v, hv, hpos, hslot⟩
  · exact Or.inl (Or.inl hpin)
  · obtain ⟨j, hj⟩ := List.mem_iff_getElem?.mp hv
    change (s.vals.modify i f)[j]? = some v at hj
    rcases eq_or_ne i j with rfl | hij
    · rw [List.getElem?_modify_eq] at hj
      obtain ⟨w, hw, rfl⟩ := Option.map_eq_some_iff.mp hj
      exact Or.inr ⟨w, hw, hpos, hslot⟩
    · rw [List.getElem?_modify_ne f s.vals hij] at hj
      exact Or.inl (Or.inr ⟨v, List.mem_of_getElem? hj, hpos, hslot⟩)

/-- A slot that is live after values and slots have been added. -/
theorem liveSlot_append {vs : List OutVal} {ps : List Slot} {σ : Slot} (h : t.LiveSlot σ)
    (hvals : t.vals = s.vals ++ vs) (hpin : t.pinned = s.pinned ++ ps) :
    s.LiveSlot σ ∨ σ ∈ ps ∨ ∃ v ∈ vs, v.slot = some σ := by
  rcases h with h | ⟨w, hw, hpos, hslot⟩
  · rw [hpin, List.mem_append] at h
    rcases h with h | h
    · exact Or.inl (Or.inl h)
    · exact Or.inr (Or.inl h)
  · rw [hvals, List.mem_append] at hw
    rcases hw with hw | hw
    · exact Or.inl (Or.inr ⟨w, hw, hpos, hslot⟩)
    · exact Or.inr (Or.inr ⟨w, hw, hslot⟩)

theorem Inv.modifyVal {i : Nat} {f : OutVal → OutVal} (h : s.Inv rest)
    (hf : ∀ v σ, s.vals[i]? = some v → 0 < (f v).retains → (f v).slot = some σ → s.LiveSlot σ) :
    (s.modifyVal i f).Inv rest := by
  refine h.setVals fun σ hσ => ?_
  rcases liveSlot_modifyVal hσ with hσ | ⟨v, hv, hpos, hslot⟩
  · exact hσ
  · exact hf v σ hv hpos hslot

theorem Inv.addVal {v : OutVal} (h : s.Inv rest) (hv : ∀ σ, v.slot = some σ → s.LiveSlot σ) :
    { s with vals := s.vals ++ [v] }.Inv rest := by
  refine h.setVals fun σ hσ => ?_
  rcases liveSlot_append (s := s) hσ rfl (List.append_nil _).symm with hσ | hσ | ⟨w, hw, hσ⟩
  · exact hσ
  · exact absurd hσ List.not_mem_nil
  · rw [List.mem_singleton.mp hw] at hσ
    exact hv σ hσ

theorem Inv.drop (h : s.Inv rest) (i : Nat) : (s.drop i).Inv rest := by
  refine h.modifyVal fun v σ hv hpos hslot => ?_
  change 0 < v.retains - 1 at hpos
  exact Or.inr ⟨v, List.mem_of_getElem? hv, by omega, hslot⟩

/-- The values that anchor the live slots keep the stack from being given away. -/
theorem Inv.tryStackReclaim (h : s.Inv rest) (hsafe : Allocates rest → s.SafeReclaim) :
    s.tryStackReclaim.Inv rest := by
  obtain ⟨n, heq, hn⟩ := s.tryStackReclaim_eq
  rw [heq]
  refine ⟨h.size_le, h.depth_le, ?_, h.disjoint, h.call, h.prologue, h.saves, h.align⟩
  intro hgen hall σ hσ
  change σ.depth ≤ n
  change s.phase = .prologue ∨ s.phase = .body at hgen
  rcases hn with rfl | ⟨hrec, rfl⟩
  · exact h.below hgen hall σ hσ
  · have hph : s.phase = .body := by
      rcases hgen with hph | hph
      · simp [reclaims, hph] at hrec
      · exact hph
    obtain ⟨v, hv, hcounts, off, hoff, hle⟩ := hsafe hall hph hrec σ hσ
    have hlow := @lowestOffset_le_of_mem 0 off s.vals v hv hcounts hoff
    omega

theorem Inv.release {i : Nat} (h : s.Inv rest) (hguard : s.Guard (.release i) rest)
    (hstep : s.release i = some t) : t.Inv rest := by
  unfold FrameCtx.release at hstep
  split at hstep
  · rename_i v hv
    obtain rfl := Option.some.inj hstep
    split
    · rename_i hone
      exact (h.drop i).tryStackReclaim fun hall => hguard hall ⟨v, hv, hone⟩
    · exact h.drop i
  · exact absurd hstep (by simp)

/-- A second reclaim, after the one of the release, has nothing left to do. -/
theorem tryStackReclaim_idem (s : FrameCtx) :
    s.tryStackReclaim.tryStackReclaim = s.tryStackReclaim := by
  obtain ⟨n, heq, rfl | ⟨hrec, rfl⟩⟩ := s.tryStackReclaim_eq
  · rw [heq]
    exact heq
  · rw [heq]
    have hrec' : ({ s with curStackSz := (-lowestOffset 0 s.vals).toNat } : FrameCtx).reclaims
        = true := hrec
    rw [tryStackReclaim, if_pos hrec']
    simp

theorem Inv.adealloc {i : Nat} (h : s.Inv rest) (hguard : s.Guard (.adealloc i) rest)
    (hstep : s.adealloc i = some t) : t.Inv rest := by
  unfold FrameCtx.adealloc FrameCtx.release at hstep
  cases hv : s.retained i with
  | none => simp [hv] at hstep
  | some v =>
    rw [hv] at hstep
    obtain rfl := Option.some.inj hstep
    split
    · rw [tryStackReclaim_idem]
      exact (h.drop i).tryStackReclaim hguard
    · exact (h.drop i).tryStackReclaim hguard

/-! ## Allocation -/

section Allocation

variable {sz : Nat} {a : Align}

theorem topSlot_grow_below (hfit : s.Fits a) (hsz : sz < 2 ^ 32) :
    s.curStackSz + ((s.grow sz a).topSlot sz a).size ≤ ((s.grow sz a).topSlot sz a).depth :=
  le_grow_cur hfit hsz

theorem pairwiseDisjoint_eq (τ : Slot) : {σ | σ = τ}.PairwiseDisjoint Slot.bytes := by
  rintro σ rfl σ' rfl hne
  exact absurd rfl hne

theorem Inv.aalloc (h : s.Inv rest) (hbelow : ∀ σ, s.LiveSlot σ → σ.depth ≤ s.curStackSz)
    (hsz : sz < 2 ^ 32) (hguard : s.Guard (.aalloc sz a) rest) : (s.aalloc sz a).Inv rest := by
  obtain ⟨hfit, hout⟩ := hguard
  have hcur := le_grow_cur hfit hsz
  have hmax := s.grow_max sz a
  refine Inv.extend (N := fun σ => σ = (s.grow sz a).topSlot sz a) h hbelow ?_ ?_ ?_ ?_ ?_ ?_ ?_
    h.saves h.align
  · intro σ hσ
    rcases liveSlot_append (s := s) hσ rfl (List.append_nil _).symm with hσ | hσ | ⟨v, hv, hσ⟩
    · exact Or.inl hσ
    · exact absurd hσ List.not_mem_nil
    · rw [List.mem_singleton.mp hv] at hσ
      exact Or.inr (Option.some.inj hσ).symm
  · rintro σ rfl
    exact ⟨topSlot_grow_below hfit hsz, le_rfl⟩
  · exact pairwiseDisjoint_eq _
  · exact (Nat.le_add_right _ _).trans hcur
  · exact hmax
  · intro n hn
    obtain ⟨hspace, hsp, hle, -⟩ := h.call n hn
    refine ⟨hspace, hsp, ?_, Or.inl ?_⟩
    · change n ≤ (s.grow sz a).maxStackSz
      omega
    · rcases hout with hnone | hused
      · exact absurd (hnone.symm.trans hn) (by simp)
      · exact hused
  · exact h.prologue

/-- What is saved in the prologue: there is no call yet. -/
theorem Inv.extend_prologue {N : Slot → Prop} {w : List OutVal} {q : List Slot}
    (h : s.Inv rest) (hbelow : ∀ σ, s.LiveSlot σ → σ.depth ≤ s.curStackSz)
    (hpro : s.phase = .prologue) (hsz : sz < 2 ^ 32) (hfit : s.Fits a)
    (hnew : ∀ σ, σ ∈ q ∨ (∃ v ∈ w, v.slot = some σ) → N σ)
    (hN : ∀ σ, N σ →
      s.curStackSz + σ.size ≤ σ.depth ∧ σ.depth ≤ (s.grow sz a).curStackSz)
    (hdisj : {σ | N σ}.PairwiseDisjoint Slot.bytes) (next : Nat) :
    Inv { s.grow sz a with vals := s.vals ++ w, pinned := s.pinned ++ q, nextId := next } rest := by
  have hnone : ∀ n, s.outgoing ≠ some n := by
    intro n hn
    exact absurd (hn.symm.trans (h.prologue hpro)) (by simp)
  refine Inv.extend (N := N) h hbelow ?_ hN hdisj ?_ (s.grow_max sz a) ?_ h.prologue
    h.saves h.align
  · intro σ hσ
    rcases liveSlot_append (s := s) hσ rfl rfl with hσ | hσ
    · exact Or.inl hσ
    · exact Or.inr (hnew σ hσ)
  · exact (Nat.le_add_right _ _).trans (le_grow_cur hfit hsz)
  · intro n hn
    exact absurd hn (hnone n)

theorem Inv.saveVariadic (h : s.Inv rest)
    (hbelow : ∀ σ, s.LiveSlot σ → σ.depth ≤ s.curStackSz) (hpro : s.phase = .prologue)
    (hfit : s.Fits wordAlign) :
    s.saveVariadic.Inv rest := by
  refine Inv.extend_prologue (N := fun σ => σ = (s.grow variadicBytes wordAlign).topSlot
    variadicBytes wordAlign) h hbelow hpro (by decide) hfit ?_ ?_ (pairwiseDisjoint_eq _) _
  · rintro σ (hσ | ⟨v, hv, hσ⟩)
    · exact List.mem_singleton.mp hσ
    · rw [List.mem_singleton.mp hv] at hσ
      exact absurd hσ (by simp [newBpBelow])
  · rintro σ rfl
    exact ⟨topSlot_grow_below hfit (by decide), le_rfl⟩

theorem argSlot_disjoint {n k k' : Nat} (hcur : n * wordSize ≤ s.curStackSz) (hk : k < k')
    (hk' : k' < n) : Disjoint (s.argSlot k').bytes (s.argSlot k).bytes := by
  refine slot_disjoint ?_
  change s.curStackSz - k' * 8 + 8 ≤ s.curStackSz - k * 8
  change n * 8 ≤ s.curStackSz at hcur
  omega

theorem Inv.saveCallRegs {n : Nat} (h : s.Inv rest)
    (hbelow : ∀ σ, s.LiveSlot σ → σ.depth ≤ s.curStackSz) (hpro : s.phase = .prologue)
    (hfit : s.Fits wordAlign) (hn : n ≤ 6 + 8) : (s.saveCallRegs n).Inv rest := by
  have hsz : n * wordSize < 2 ^ 32 := by
    change n * 8 < 2 ^ 32
    omega
  have hcur := le_grow_cur hfit hsz
  rw [alignSz_words] at hcur
  generalize hg : s.grow (n * wordSize) wordAlign = g at hcur
  have hinv := Inv.extend_prologue (N := fun σ => ∃ k, k < n ∧ σ = g.argSlot k)
    (w := (List.range n).map g.argVal) (q := (List.range n).map g.argSlot) h hbelow hpro hsz hfit
    ?_ ?_ ?_ (s.nextId + n)
  · subst hg
    exact hinv
  · rintro σ (hσ | ⟨v, hv, hσ⟩)
    · obtain ⟨k, hk, rfl⟩ := List.mem_map.mp hσ
      exact ⟨k, List.mem_range.mp hk, rfl⟩
    · obtain ⟨k, hk, rfl⟩ := List.mem_map.mp hv
      exact ⟨k, List.mem_range.mp hk, (Option.some.inj hσ).symm⟩
  · rintro σ ⟨k, hk, rfl⟩
    rw [hg]
    change s.curStackSz + 8 ≤ g.curStackSz - k * 8 ∧ g.curStackSz - k * 8 ≤ g.curStackSz
    change s.curStackSz + n * 8 ≤ g.curStackSz at hcur
    omega
  · rintro σ ⟨k, hk, rfl⟩ σ' ⟨k', hk', rfl⟩ hne
    have hblock : n * wordSize ≤ g.curStackSz := (Nat.le_add_left _ _).trans hcur
    rcases Nat.lt_trichotomy k k' with hlt | rfl | hlt
    · exact (argSlot_disjoint hblock hlt hk').symm
    · exact absurd rfl hne
    · exact argSlot_disjoint hblock hlt hk

theorem Inv.stackRealign (h : s.Inv rest) (hpro : s.phase = .prologue) (hfit : s.Fits a) :
    (s.stackRealign a).Inv rest := by
  have hround : packToAlign s.curStackSz a.bytes % 2 ^ 32 = Lib.roundUp s.curStackSz a.bytes := by
    have hlt := Lib.roundUp_lt (Align.bytes_pos a) s.curStackSz
    unfold Fits at hfit
    rw [packToAlign_bytes hfit]
    exact Nat.mod_eq_of_lt (by omega)
  have hle : s.curStackSz ≤ (s.stackRealign a).curStackSz := by
    change s.curStackSz ≤ packToAlign s.curStackSz a.bytes % 2 ^ 32
    rw [hround]
    exact Lib.le_roundUp (Align.bytes_pos a) _
  refine ⟨h.size_le, fun σ hσ => ?_, fun hgen hall σ hσ => ?_, h.disjoint, fun n hn => ?_,
    h.prologue, h.saves, h.align⟩
  · refine (h.depth_le σ hσ).trans ?_
    rw [FrameCtx.stackRealign, setCurStackSz_max]
    exact le_max_left _ _
  · exact (h.below hgen hall σ hσ).trans hle
  · exact absurd (hn.symm.trans (h.prologue hpro)) (by simp)

theorem Inv.stackNeedalign (h : s.Inv rest) (a : Align) : (s.stackNeedalign a.bytes).Inv rest := by
  refine ⟨h.size_le, h.depth_le, h.below, h.disjoint, h.call, h.prologue, h.saves, ?_⟩
  change max s.maxAlign a.bytes = 0 ∨ ∃ b : Align, max s.maxAlign a.bytes = b.bytes
  rcases le_total s.maxAlign a.bytes with hle | hle
  · exact Or.inr ⟨a, max_eq_right hle⟩
  · rw [max_eq_left hle]
    exact h.align

theorem Inv.callReserve {words : Nat} (h : s.Inv rest)
    (hbelow : ∀ σ, s.LiveSlot σ → σ.depth ≤ s.curStackSz) (hbody : s.phase = .body)
    (hsz : words * wordSize < 2 ^ 32) (hfit : s.Fits wordAlign) (hout : s.outgoing = none) :
    (s.callReserve words).Inv rest := by
  have hnone : ∀ n, s.outgoing ≠ some n := by
    intro n hn
    exact absurd (hn.symm.trans hout) (by simp)
  have halign := h.stackNeedalign ⟨4, by omega⟩
  unfold FrameCtx.callReserve
  dsimp only
  split
  · exact ⟨h.size_le, h.depth_le, h.below, h.disjoint, h.call, h.prologue, h.saves,
      halign.align⟩
  · split
    · exact ⟨h.size_le, h.depth_le, h.below, h.disjoint, fun n hn => absurd hn (hnone n),
        h.prologue, h.saves, halign.align⟩
    · have hcur := le_grow_cur hfit hsz
      have hmax := s.grow_max (words * wordSize) wordAlign
      rw [alignSz_words] at hcur
      have hlive : ∀ σ, FrameCtx.LiveSlot { s.grow (words * wordSize) wordAlign with
          vals := s.vals ++ [(s.grow (words * wordSize) wordAlign).newBpBelow none] } σ →
          s.LiveSlot σ := by
        intro σ hσ
        rcases liveSlot_append (s := s) hσ rfl (List.append_nil _).symm with hσ | hσ | ⟨v, hv, hσ⟩
        · exact hσ
        · exact absurd hσ List.not_mem_nil
        · rw [List.mem_singleton.mp hv] at hσ
          exact absurd hσ (by simp [newBpBelow])
      refine Inv.extend (s := s) (N := fun _ => False) h hbelow
        (fun σ hσ => Or.inl (hlive σ hσ)) (fun σ hσ => hσ.elim) (fun σ hσ => hσ.elim)
        ((Nat.le_add_right _ _).trans hcur) hmax ?_ ?_ h.saves halign.align
      · intro n hn
        obtain rfl := Option.some.inj hn
        refine ⟨?_, rfl, ?_, Or.inr fun σ hσ => ?_⟩
        · change words * wordSize ≤ if s.stackCallspace < words * wordSize then words * wordSize
            else s.stackCallspace
          split <;> omega
        · change words * wordSize ≤ (s.grow (words * wordSize) wordAlign).maxStackSz
          omega
        · have hdepth := hbelow σ (hlive σ hσ)
          change σ.depth + words * wordSize ≤ (s.grow (words * wordSize) wordAlign).maxStackSz
          omega
      · intro hpro
        exact absurd (hbody.symm.trans hpro) (by decide)

end Allocation

theorem Inv.generate {op : FrameOp} (h : s.Inv (op :: rest))
    (hgen : s.phase = .prologue ∨ s.phase = .body) (hguard : s.Guard op rest)
    (hstep : s.generate op = some t) : t.Inv rest := by
  cases op with
  | aalloc sz a =>
    simp only [FrameCtx.generate, Option.ite_none_right_eq_some, Option.some.injEq] at hstep
    obtain ⟨hsz, rfl⟩ := hstep
    exact (h.next (by simp)).aalloc (h.below_of_allocates hgen rfl) hsz hguard
  | stackNeedalign a =>
    obtain rfl := Option.some.inj hstep
    exact (h.next (by simp)).stackNeedalign a
  | new store =>
    obtain rfl := Option.some.inj hstep
    exact (h.next (by simp)).addVal fun σ hσ => absurd hσ (by simp)
  | dup i store =>
    obtain ⟨v, hv, rfl⟩ := Option.map_eq_some_iff.mp hstep
    exact (h.next (by simp)).addVal fun σ hσ => liveSlot_of_retained hv hσ
  | reuse i store keep =>
    obtain ⟨v, hv, rfl⟩ := Option.map_eq_some_iff.mp hstep
    refine (h.next (by simp)).modifyVal fun w σ hw hpos hslot => ?_
    obtain ⟨hget, -⟩ := retained_eq_some hv
    obtain rfl := Option.some.inj (hget.symm.trans hw)
    cases keep with
    | true => exact liveSlot_of_retained hv hslot
    | false => exact absurd hslot (by simp)
  | overwrite d i =>
    obtain ⟨v, hv, rfl⟩ := Option.map_eq_some_iff.mp hstep
    exact (h.next (by simp)).modifyVal fun w σ _ _ hslot => liveSlot_of_retained hv hslot
  | setPhi i phi =>
    obtain ⟨v, hv, rfl⟩ := Option.map_eq_some_iff.mp hstep
    exact (h.next (by simp)).modifyVal fun w σ hw hpos hslot =>
      Or.inr ⟨w, List.mem_of_getElem? hw, hpos, hslot⟩
  | retain i =>
    obtain ⟨v, hv, rfl⟩ := Option.map_eq_some_iff.mp hstep
    refine (h.next (by simp)).modifyVal fun w σ hw hpos hslot => ?_
    obtain ⟨hget, -⟩ := retained_eq_some hv
    obtain rfl := Option.some.inj (hget.symm.trans hw)
    exact liveSlot_of_retained hv hslot
  | release i => exact (h.next (by simp)).release hguard hstep
  | adealloc i => exact (h.next (by simp)).adealloc hguard hstep
  | useCalleeSaved =>
    obtain rfl := Option.some.inj hstep
    refine ⟨h.size_le, h.depth_le, fun hph hall => h.below hph hall.cons, h.disjoint,
      fun n hn => ?_, h.prologue, h.saves, h.align⟩
    obtain ⟨hspace, hsp, hmax, -⟩ := h.call n hn
    exact ⟨hspace, hsp, hmax, Or.inl (Or.inl (Nat.succ_pos _))⟩
  | allocaPush =>
    obtain rfl := Option.some.inj hstep
    have h := h.next (by simp)
    exact ⟨h.size_le, h.depth_le, h.below, h.disjoint, h.call, h.prologue, h.saves, h.align⟩
  | allocaPop =>
    simp only [FrameCtx.generate, Option.ite_none_right_eq_some, Option.some.injEq] at hstep
    obtain ⟨-, rfl⟩ := hstep
    have h := h.next (by simp)
    exact ⟨h.size_le, h.depth_le, h.below, h.disjoint, h.call, h.prologue, h.saves, h.align⟩
  | saveCallRegs n => exact absurd hstep (by simp [FrameCtx.generate])
  | saveVariadic => exact absurd hstep (by simp [FrameCtx.generate])
  | stackRealign a => exact absurd hstep (by simp [FrameCtx.generate])
  | prologueEnd => exact absurd hstep (by simp [FrameCtx.generate])
  | callReserve words => exact absurd hstep (by simp [FrameCtx.generate])
  | callDone => exact absurd hstep (by simp [FrameCtx.generate])
  | funcEnd => exact absurd hstep (by simp [FrameCtx.generate])
  | epilogue r => exact absurd hstep (by simp [FrameCtx.generate])

/-- What a step can be. -/
inductive StepTo (s : FrameCtx) : FrameOp → FrameCtx → Prop where
  | saveCallRegs {n : Nat} (hph : s.phase = .prologue) (hn : n ≤ 6 + 8) :
      StepTo s (.saveCallRegs n) (s.saveCallRegs n)
  | saveVariadic (hph : s.phase = .prologue) : StepTo s .saveVariadic s.saveVariadic
  | stackRealign {a : Align} (hph : s.phase = .prologue) :
      StepTo s (.stackRealign a) (s.stackRealign a)
  | prologueEnd (hph : s.phase = .prologue) : StepTo s .prologueEnd s.prologueEnd
  | generate {op : FrameOp} {t : FrameCtx} (hph : s.phase = .prologue ∨ s.phase = .body)
      (h : s.generate op = some t) : StepTo s op t
  | callReserve {words : Nat} (hph : s.phase = .body) (hout : s.outgoing = none)
      (hsz : words * wordSize < 2 ^ 32) : StepTo s (.callReserve words) (s.callReserve words)
  | callDone (hph : s.phase = .body) : StepTo s .callDone { s with outgoing := none }
  | funcEnd (hph : s.phase = .body) (hout : s.outgoing = none) :
      StepTo s .funcEnd { s with phase := .finishing }
  | release {i : Nat} {t : FrameCtx} (hph : s.phase = .finishing) (h : s.release i = some t) :
      StepTo s (.release i) t
  | epilogue {r : Bool} (hph : s.phase = .finishing) : StepTo s (.epilogue r) (s.epilogue r)

theorem stepTo_of_step {op : FrameOp} (h : s.step op = some t) : StepTo s op t := by
  unfold FrameCtx.step at h
  split at h
  · rename_i hph
    split at h
    · simp only [Option.ite_none_right_eq_some, Option.some.injEq] at h
      obtain ⟨hn, rfl⟩ := h
      exact .saveCallRegs hph hn
    · obtain rfl := Option.some.inj h
      exact .saveVariadic hph
    · obtain rfl := Option.some.inj h
      exact .stackRealign hph
    · obtain rfl := Option.some.inj h
      exact .prologueEnd hph
    · exact .generate (Or.inl hph) h
  · rename_i hph
    split at h
    · simp only [Option.ite_none_right_eq_some, Option.some.injEq] at h
      obtain ⟨⟨hout, hsz⟩, rfl⟩ := h
      exact .callReserve hph hout hsz
    · obtain rfl := Option.some.inj h
      exact .callDone hph
    · simp only [Option.ite_none_right_eq_some, Option.some.injEq] at h
      obtain ⟨hout, rfl⟩ := h
      exact .funcEnd hph hout
    · exact .generate (Or.inr hph) h
  · rename_i hph
    split at h
    · exact .release hph h
    · simp only [Option.ite_none_right_eq_some, Option.some.injEq] at h
      obtain ⟨-, rfl⟩ := h
      exact .epilogue hph
    · exact absurd h (by simp)
  · exact absurd h (by simp)

/-- Every operation but the last one keeps the invariant. -/
theorem Inv.step {op : FrameOp} (h : s.Inv (op :: rest)) (hguard : s.Guard op rest)
    (hstep : s.step op = some t) (hdone : t.phase ≠ .done) : t.Inv rest := by
  cases stepTo_of_step hstep with
  | saveCallRegs hph hn =>
    exact (h.next (by simp)).saveCallRegs (h.below_of_allocates (Or.inl hph) rfl) hph hguard hn
  | saveVariadic hph =>
    exact (h.next (by simp)).saveVariadic (h.below_of_allocates (Or.inl hph) rfl) hph hguard
  | stackRealign hph => exact (h.next (by simp)).stackRealign hph hguard
  | prologueEnd hph =>
    have h := h.next (by simp)
    exact ⟨h.size_le, h.depth_le, fun _ => h.below (Or.inl hph), h.disjoint, h.call,
      fun _ => h.prologue hph, h.saves, h.align⟩
  | generate hph hgen => exact h.generate hph hguard hgen
  | callReserve hph hout hsz =>
    exact (h.next (by simp)).callReserve (h.below_of_allocates (Or.inr hph) rfl) hph hsz hguard
      hout
  | callDone hph =>
    have h := h.next (by simp)
    refine ⟨h.size_le, h.depth_le, h.below, h.disjoint, ?_, fun _ => rfl, h.saves, h.align⟩
    rintro n ⟨⟩
  | funcEnd hph hout =>
    have h := h.next (by simp)
    refine ⟨h.size_le, h.depth_le, ?_, h.disjoint, h.call, fun _ => hout, h.saves, h.align⟩
    rintro (hpro | hbody)
    · cases hpro
    · cases hbody
  | release hph hrel => exact (h.next (by simp)).release hguard hrel
  | epilogue hph => exact absurd rfl hdone

/-! ## What later states keep -/

/-- The sizes that only grow while the code of a function is made. -/
structure Grows (s t : FrameCtx) : Prop where
  max : s.maxStackSz ≤ t.maxStackSz
  callspace : s.stackCallspace ≤ t.stackCallspace
  used : s.usedCalleeSaved ≤ t.usedCalleeSaved
  sp : s.stackPtrManipulated = true → t.stackPtrManipulated = true

theorem Grows.refl (s : FrameCtx) : Grows s s := ⟨le_rfl, le_rfl, le_rfl, id⟩

theorem Grows.trans {u : FrameCtx} (h : Grows s t) (h' : Grows t u) : Grows s u :=
  ⟨h.max.trans h'.max, h.callspace.trans h'.callspace, h.used.trans h'.used, h'.sp ∘ h.sp⟩

/-- The same, within one phase. -/
structure Stays (s t : FrameCtx) : Prop extends Grows s t where
  phase : t.phase = s.phase

theorem Stays.trans {u : FrameCtx} (h : Stays s t) (h' : Stays t u) : Stays s u :=
  ⟨h.toGrows.trans h'.toGrows, h'.phase.trans h.phase⟩

theorem grows_setCurStackSz (s : FrameCtx) (n : Nat) : Grows s (s.setCurStackSz n) := by
  refine ⟨?_, le_rfl, le_rfl, id⟩
  rw [setCurStackSz_max]
  exact le_max_left _ _

theorem stays_tryStackReclaim (s : FrameCtx) : Stays s s.tryStackReclaim := by
  obtain ⟨n, heq, -⟩ := s.tryStackReclaim_eq
  rw [heq]
  exact ⟨⟨le_rfl, le_rfl, le_rfl, id⟩, rfl⟩

theorem stays_release {i : Nat} (h : s.release i = some t) : Stays s t := by
  unfold FrameCtx.release at h
  split at h
  · obtain rfl := Option.some.inj h
    have hdrop : Stays s (s.drop i) := ⟨⟨le_rfl, le_rfl, le_rfl, id⟩, rfl⟩
    split
    · exact hdrop.trans (stays_tryStackReclaim _)
    · exact hdrop
  · exact absurd h (by simp)

theorem stays_adealloc {i : Nat} (h : s.adealloc i = some t) : Stays s t := by
  unfold FrameCtx.adealloc at h
  split at h
  · rename_i u hu
    obtain rfl := Option.some.inj h
    exact (stays_release hu).trans (stays_tryStackReclaim _)
  · exact absurd h (by simp)

theorem stays_callReserve (s : FrameCtx) (words : Nat) : Stays s (s.callReserve words) := by
  unfold FrameCtx.callReserve
  dsimp only
  split
  · exact ⟨⟨le_rfl, le_rfl, le_rfl, id⟩, rfl⟩
  · split
    · exact ⟨⟨le_rfl, le_rfl, le_rfl, fun _ => rfl⟩, rfl⟩
    · refine ⟨⟨(grows_setCurStackSz s _).max, ?_, le_rfl, fun _ => rfl⟩, rfl⟩
      change s.stackCallspace ≤ if s.stackCallspace < words * wordSize then words * wordSize
        else s.stackCallspace
      split <;> omega

theorem stays_generate {op : FrameOp} (h : s.generate op = some t) : Stays s t := by
  cases op with
  | aalloc sz a =>
    simp only [FrameCtx.generate, Option.ite_none_right_eq_some, Option.some.injEq] at h
    obtain ⟨-, rfl⟩ := h
    have hgrow := grows_setCurStackSz s (packNext s.curStackSz (alignSz sz a) a.bytes).2
    exact ⟨⟨hgrow.max, le_rfl, le_rfl, id⟩, rfl⟩
  | release i => exact stays_release h
  | adealloc i => exact stays_adealloc h
  | useCalleeSaved =>
    obtain rfl := Option.some.inj h
    exact ⟨⟨le_rfl, le_rfl, Nat.le_succ _, id⟩, rfl⟩
  | allocaPop =>
    simp only [FrameCtx.generate, Option.ite_none_right_eq_some, Option.some.injEq] at h
    obtain ⟨-, rfl⟩ := h
    exact ⟨⟨le_rfl, le_rfl, le_rfl, id⟩, rfl⟩
  | dup i store =>
    obtain ⟨v, -, rfl⟩ := Option.map_eq_some_iff.mp h
    exact ⟨⟨le_rfl, le_rfl, le_rfl, id⟩, rfl⟩
  | reuse i store keep =>
    obtain ⟨v, -, rfl⟩ := Option.map_eq_some_iff.mp h
    exact ⟨⟨le_rfl, le_rfl, le_rfl, id⟩, rfl⟩
  | overwrite d i =>
    obtain ⟨v, -, rfl⟩ := Option.map_eq_some_iff.mp h
    exact ⟨⟨le_rfl, le_rfl, le_rfl, id⟩, rfl⟩
  | setPhi i phi =>
    obtain ⟨v, -, rfl⟩ := Option.map_eq_some_iff.mp h
    exact ⟨⟨le_rfl, le_rfl, le_rfl, id⟩, rfl⟩
  | retain i =>
    obtain ⟨v, -, rfl⟩ := Option.map_eq_some_iff.mp h
    exact ⟨⟨le_rfl, le_rfl, le_rfl, id⟩, rfl⟩
  | stackNeedalign a | new store | allocaPush =>
    obtain rfl := Option.some.inj h
    exact ⟨⟨le_rfl, le_rfl, le_rfl, id⟩, rfl⟩
  | saveCallRegs n | saveVariadic | stackRealign a | prologueEnd | callReserve words | callDone
  | funcEnd | epilogue r => exact absurd h (by simp [FrameCtx.generate])

theorem grows_step {op : FrameOp} (h : s.step op = some t) (hdone : t.phase ≠ .done) :
    Grows s t := by
  cases stepTo_of_step h with
  | saveCallRegs hph hn => exact ⟨(grows_setCurStackSz s _).max, le_rfl, le_rfl, id⟩
  | saveVariadic hph => exact ⟨(grows_setCurStackSz s _).max, le_rfl, le_rfl, id⟩
  | stackRealign hph => exact grows_setCurStackSz s _
  | prologueEnd hph | callDone hph | funcEnd hph hout => exact ⟨le_rfl, le_rfl, le_rfl, id⟩
  | generate hph hgen => exact (stays_generate hgen).toGrows
  | callReserve hph hout hsz => exact (stays_callReserve s _).toGrows
  | release hph hrel => exact (stays_release hrel).toGrows
  | epilogue hph => exact absurd rfl hdone

theorem phase_ne_done_of_step {op : FrameOp} (h : s.step op = some t) : s.phase ≠ .done := by
  intro hph
  unfold FrameCtx.step at h
  rw [hph] at h
  exact absurd h (by simp)

theorem grows_run {ops : List FrameOp} (h : s.run ops = some t) (hdone : t.phase ≠ .done) :
    s.phase ≠ .done ∧ Grows s t := by
  refine Lib.steps_relates (R := fun s t => t.phase ≠ .done → s.phase ≠ .done ∧ Grows s t)
    ?_ ?_ ?_ h hdone
  · exact fun s hs => ⟨hs, Grows.refl s⟩
  · intro s t u hst htu hu
    obtain ⟨ht, hgrow⟩ := htu hu
    exact ⟨(hst ht).1, (hst ht).2.trans hgrow⟩
  · exact fun s op t hstep ht => ⟨phase_ne_done_of_step hstep, grows_step hstep ht⟩

/-- The invariant at every point of a run that meets the condition. -/
theorem Inv.run {pre post : List FrameOp}
    (hguard : Lib.Guarded FrameCtx.step Guard s (pre ++ post)) (h : s.run pre = some t)
    (hs : s.Inv (pre ++ post)) (hdone : t.phase ≠ .done) :
    t.Inv post ∧ Lib.Guarded FrameCtx.step Guard t post := by
  have hrun := Lib.Guarded.invariant (I := fun t rest => t.phase ≠ .done → t.Inv rest) ?_ hguard
    h (fun _ => hs)
  · exact ⟨hrun.1 hdone, hrun.2⟩
  · intro s op ops t hinv hop hstep ht
    exact (hinv (phase_ne_done_of_step hstep)).step hop hstep ht

theorem willSave_step {op : FrameOp} (h : s.step op = some t) (hdone : t.phase ≠ .done)
    (hsave : s.WillSave (op :: rest)) : t.WillSave rest := by
  rcases hsave with hused | hmem
  · exact Or.inl (hused.trans_le (grows_step h hdone).used)
  · rcases List.mem_cons.mp hmem with rfl | hmem
    · cases stepTo_of_step h with
      | generate hph hgen =>
        obtain rfl := Option.some.inj hgen
        exact Or.inl (Nat.succ_pos _)
    · exact Or.inr hmem

/-- The callee saves that were announced have been noted when the epilogue comes. -/
theorem used_of_willSave {ops : List FrameOp} {r : Bool} (h : s.run ops = some t)
    (hdone : t.phase ≠ .done) (hsave : s.WillSave (ops ++ [.epilogue r])) :
    0 < t.usedCalleeSaved := by
  induction ops generalizing s with
  | nil =>
    obtain rfl := Option.some.inj h
    exact hsave.resolve_right (by simp)
  | cons op ops ih =>
    obtain ⟨u, hu, hrest⟩ := Lib.steps_cons h
    exact ih hrest (willSave_step hu (grows_run hrest hdone).1 hsave)

/-! ## The end of the function -/

/-- Where the end of a function puts what is left: the callee saves are below
all slots, and the arguments of calls below these. -/
structure Closes (s f : FrameCtx) : Prop where
  max : s.maxStackSz ≤ f.maxStackSz
  callspace : 0 < s.usedCalleeSaved → s.maxStackSz + s.stackCallspace ≤ f.maxStackSz
  saves : ∀ σ, f.calleeSaves = some σ → 0 < s.usedCalleeSaved ∧
    s.maxStackSz + σ.size ≤ σ.depth ∧ σ.depth + s.stackCallspace ≤ f.maxStackSz
  sp : s.stackPtrManipulated = true → f.sp = -f.maxStackSz

theorem calleeSave_used (hfit : s.maxStackSz + wordSize ≤ 2 ^ 32) (hused : 0 < s.usedCalleeSaved)
    (hsz : s.usedCalleeSaved * wordSize < 2 ^ 32) :
    ∃ top, s.maxStackSz + s.usedCalleeSaved * wordSize ≤ top ∧
      top < s.maxStackSz + s.usedCalleeSaved * wordSize + wordSize ∧
      s.calleeSave.maxStackSz = top + (top - s.maxStackSz + s.stackCallspace) ∧
      s.calleeSave.calleeSaves = some ⟨s.nextId, top, s.usedCalleeSaved * wordSize⟩ := by
  generalize hu : ({ s with curStackSz := s.maxStackSz } : FrameCtx) = u
  have hcur := @grow_cur u (s.usedCalleeSaved * wordSize) wordAlign (by subst hu; exact hfit) hsz
  have hmax := u.grow_max (s.usedCalleeSaved * wordSize) wordAlign
  have hle := Lib.le_roundUp (Align.bytes_pos wordAlign) u.curStackSz
  have hlt := Lib.roundUp_lt (Align.bytes_pos wordAlign) u.curStackSz
  rw [alignSz_words] at hcur
  have hcurU : u.curStackSz = s.maxStackSz := by rw [← hu]
  have hmaxU : u.maxStackSz = s.maxStackSz := by rw [← hu]
  have hword : Align.bytes wordAlign = wordSize := rfl
  have hpos : 0 < s.usedCalleeSaved * wordSize := Nat.mul_pos hused (by decide)
  refine ⟨(u.grow (s.usedCalleeSaved * wordSize) wordAlign).curStackSz, by omega, by omega, ?_, ?_⟩
  · rw [calleeSave, if_neg hused.ne']
    dsimp only
    rw [hu]
    have htop : (u.grow (s.usedCalleeSaved * wordSize) wordAlign).maxStackSz
        = (u.grow (s.usedCalleeSaved * wordSize) wordAlign).curStackSz := by omega
    rw [htop, if_pos (by omega)]
  · rw [calleeSave, if_neg hused.ne']
    dsimp only
    rw [hu, topSlot, alignSz_words, ← hu]
    rfl

theorem calleeSave_keeps (s : FrameCtx) :
    s.calleeSave.maxAlign = s.maxAlign ∧
      s.calleeSave.stackPtrManipulated = s.stackPtrManipulated ∧
      s.calleeSave.vals = s.vals ∧ s.calleeSave.pinned = s.pinned ∧
      s.calleeSave.outgoing = s.outgoing := by
  unfold calleeSave
  split
  · exact ⟨rfl, rfl, rfl, rfl, rfl⟩
  · exact ⟨rfl, rfl, rfl, rfl, rfl⟩

/-- The last rounding does not lose anything. -/
theorem le_epilogue_max {r : Bool} (halign : s.maxAlign = 0 ∨ ∃ a : Align, s.maxAlign = a.bytes)
    (hfit : s.calleeSave.maxStackSz + s.maxAlign ≤ 2 ^ 32) :
    s.calleeSave.maxStackSz ≤ (s.epilogue r).maxStackSz := by
  change _ ≤ if s.calleeSave.maxAlign ≠ 0
    then packToAlign s.calleeSave.maxStackSz s.calleeSave.maxAlign else s.calleeSave.maxStackSz
  rw [s.calleeSave_keeps.1]
  split
  · rename_i hne
    obtain ⟨a, ha⟩ := halign.resolve_left hne
    rw [ha] at hfit ⊢
    rw [packToAlign_bytes hfit]
    exact Lib.le_roundUp (Align.bytes_pos a) _
  · exact le_rfl

theorem closes_epilogue {r : Bool} (halign : s.maxAlign = 0 ∨ ∃ a : Align, s.maxAlign = a.bytes)
    (hnone : s.calleeSaves = none)
    (hfit : s.maxStackSz + 2 * (s.usedCalleeSaved * wordSize + wordSize) + s.stackCallspace +
      s.maxAlign ≤ 2 ^ 32) : Closes s (s.epilogue r) := by
  have hsp : s.stackPtrManipulated = true → (s.epilogue r).sp = -(s.epilogue r).maxStackSz := by
    intro hsp
    have hzone : s.calleeSave.redZone r = false := by
      simp [redZone, s.calleeSave_keeps.2.1, hsp]
    unfold epilogue
    simp [hzone]
  have hsaves : (s.epilogue r).calleeSaves = s.calleeSave.calleeSaves := rfl
  rcases Nat.eq_zero_or_pos s.usedCalleeSaved with hzero | hpos
  · have heq : s.calleeSave = s := if_pos hzero
    have hmax := @le_epilogue_max s r halign (by rw [heq]; omega)
    rw [heq] at hmax hsaves
    refine ⟨hmax, fun hused => by omega, fun σ hσ => ?_, hsp⟩
    exact absurd (hσ.symm.trans (hsaves.trans hnone)) (by simp)
  · obtain ⟨top, hlo, hhi, hmaxEq, hslot⟩ :=
      calleeSave_used (s := s) (by omega) hpos (by omega)
    have hmax := @le_epilogue_max s r halign (by omega)
    refine ⟨by omega, fun _ => by omega, fun σ hσ => ?_, hsp⟩
    obtain rfl := Option.some.inj (hσ.symm.trans (hsaves.trans hslot))
    refine ⟨hpos, hlo, ?_⟩
    change top + s.stackCallspace ≤ (s.epilogue r).maxStackSz
    omega

theorem Inv.closes {r : Bool} (h : s.Inv rest) (hguard : s.Guard (.epilogue r) []) :
    Closes s (s.epilogue r) := closes_epilogue h.align h.saves hguard

/-- There is room for the arguments of a call below each slot. -/
theorem Inv.slot_above_call {p f : FrameCtx} {n : Nat} {σ : Slot} (h : s.Inv rest)
    (hgrow : Grows s p) (hsave : s.WillSave rest → 0 < p.usedCalleeSaved) (hclose : Closes p f)
    (hn : s.outgoing = some n) (hσ : s.LiveSlot σ) :
    σ.depth + n ≤ f.maxStackSz := by
  obtain ⟨hspace, -, -, hcall⟩ := h.call n hn
  have hdepth := h.depth_le σ hσ
  have hspace' := hgrow.callspace
  have hmax := hgrow.max
  rcases hcall with hused | hroom
  · have hclosed := hclose.callspace (hsave hused)
    omega
  · have hroom' := hroom σ hσ
    have hclosed := hclose.max
    omega

/-- The areas of a state of the run, in the frame that the function ends with. -/
theorem Inv.apart {p f : FrameCtx} (h : s.Inv rest) (hgrow : Grows s p)
    (hsave : s.WillSave rest → 0 < p.usedCalleeSaved) (hclose : Closes p f) : s.Apart f := by
  have hmax := hgrow.max.trans hclose.max
  have hsp : ∀ n, s.outgoing = some n → f.sp = -f.maxStackSz := fun n hn =>
    hclose.sp (hgrow.sp (h.call n hn).2.1)
  have hslotCall : ∀ σ n, s.LiveSlot σ → s.outgoing = some n →
      Disjoint σ.bytes (Set.Ico f.sp (f.sp + n)) := by
    intro σ n hσ hn
    have hroom := h.slot_above_call hgrow hsave hclose hn hσ
    rw [hsp n hn, Set.disjoint_left]
    rintro x ⟨hlo, -⟩ ⟨-, hhi⟩
    omega
  have hslotSaves : ∀ σ τ, s.LiveSlot σ → f.calleeSaves = some τ →
      Disjoint σ.bytes τ.bytes := by
    intro σ τ hσ hτ
    have hdepth := (h.depth_le σ hσ).trans hgrow.max
    have hbelow := (hclose.saves τ hτ).2.1
    exact slot_disjoint (by omega)
  have hcallSaves : ∀ n τ, s.outgoing = some n → f.calleeSaves = some τ →
      Disjoint (Set.Ico f.sp (f.sp + n)) τ.bytes := by
    intro n τ hn hτ
    have hspace := (h.call n hn).1.trans hgrow.callspace
    have habove := (hclose.saves τ hτ).2.2
    rw [hsp n hn, Set.disjoint_left]
    rintro x ⟨-, hhi⟩ ⟨hlo, -⟩
    omega
  constructor
  · rintro (σ | n | σ) ha (τ | m | τ) hb hne
    · exact h.disjoint ha hb (fun heq => hne (congrArg Area.slot heq))
    · exact hslotCall σ m ha hb
    · exact hslotSaves σ τ ha hb
    · exact (hslotCall τ n hb ha).symm
    · exact absurd (congrArg Area.outgoing (Option.some.inj (ha.symm.trans hb))) hne
    · exact hcallSaves n τ ha hb
    · exact (hslotSaves τ σ hb ha).symm
    · exact (hcallSaves m σ hb ha).symm
    · exact absurd (congrArg Area.calleeSaves (Option.some.inj (ha.symm.trans hb))) hne
  · rintro (σ | n | σ) ha x ⟨hlo, hhi⟩
    · have hdepth := h.depth_le σ ha
      have hsize := h.size_le σ ha
      exact ⟨by omega, by omega⟩
    · have hle := (h.call n ha).2.2.1
      rw [hsp n ha] at hlo hhi
      exact ⟨hlo, by omega⟩
    · obtain ⟨-, hbelow, habove⟩ := hclose.saves σ ha
      exact ⟨by omega, by omega⟩

/-- The epilogue makes nothing live and ends nothing. -/
theorem live_of_epilogue {r : Bool} {f : FrameCtx} {a : Area} (h : (s.epilogue r).Live f a) :
    s.Live f a := by
  obtain ⟨-, -, hvals, hpin, hout⟩ := s.calleeSave_keeps
  cases a with
  | slot σ =>
    rcases h with hσ | ⟨v, hv, hpos, hσ⟩
    · exact Or.inl (hpin ▸ hσ)
    · exact Or.inr ⟨v, hvals ▸ hv, hpos, hσ⟩
  | outgoing n => exact hout.symm.trans h
  | calleeSaves σ => exact h

theorem apart_epilogue {r : Bool} (h : s.Apart (s.epilogue r)) :
    (s.epilogue r).Apart (s.epilogue r) :=
  ⟨h.1.subset fun _ => live_of_epilogue, fun a ha => h.2 a (live_of_epilogue ha)⟩

/-- Only the epilogue ends a function. -/
theorem eq_epilogue_of_done {op : FrameOp} (h : s.step op = some t) (hdone : t.phase = .done) :
    ∃ r, op = .epilogue r ∧ t = s.epilogue r := by
  have hbefore := phase_ne_done_of_step h
  cases stepTo_of_step h with
  | saveCallRegs hph hn | saveVariadic hph | stackRealign hph | callDone hph =>
    exact absurd hdone hbefore
  | prologueEnd hph | funcEnd hph hout => cases hdone
  | generate hph hgen => exact absurd ((stays_generate hgen).phase.symm.trans hdone) hbefore
  | callReserve hph hout hsz =>
    exact absurd ((stays_callReserve s _).phase.symm.trans hdone) hbefore
  | release hph hrel => exact absurd ((stays_release hrel).phase.symm.trans hdone) hbefore
  | epilogue hph => exact ⟨_, rfl, rfl⟩

end FrameCtx

/-- A variadic function that keeps a `va_list` below its register save area, calls
a function with eight arguments while it holds a value in a callee-saved
register, and enters a block after the call. -/
def keptOps : List FrameOp :=
  [.saveCallRegs 1, .saveVariadic, .prologueEnd, .aalloc 24 wordAlign, .useCalleeSaved,
    .callReserve 2, .new (.inReg .reg regSp 0), .aalloc 8 wordAlign, .callDone, .adealloc 3,
    .release 5, .release 4, .aalloc 16 vectorAlign, .adealloc 6, .adealloc 2, .funcEnd,
    .release 0, .epilogue true]

/-- The operations of a variadic function `f(int n, ...)` that calls another
function and then enters a block with a `va_list`: the value of the call is
released before the block is entered. -/
def variadicOps : List FrameOp :=
  ([.saveCallRegs 1, .saveVariadic, .prologueEnd, .callReserve 0, .callDone,
    .new (.inReg .reg ⟨0, false⟩ 0), .release 2] : List FrameOp) ++
  ([.aalloc 24 wordAlign] : List FrameOp) ++
  ([.adealloc 3, .funcEnd, .release 0, .epilogue true] : List FrameOp)

end Ucc.Cc1.Stack
