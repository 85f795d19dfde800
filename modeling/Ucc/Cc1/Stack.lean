/-
  Cc1/Stack.lean --- the stack frame of a function while its code is made.

  Source: src/cc1/out/stack.c, `v_try_stack_reclaim` and `out_val_release` of
  src/cc1/out/val.c, `out_func_prologue` and `out_func_epilogue` of
  src/cc1/out/func.c, and of src/cc1/out/x86_64.c `impl_reg_frame_const`,
  `impl_func_prologue_save_call_regs`, `impl_func_prologue_save_variadic` and
  the argument space of `impl_call`.

  A word has 8 bytes.  Of an `out_val` the frame sees the retain count, whether
  it has a `phiblock`, and the register and offset of the kinds that have one.
  `FrameOp` has the operations on the frame, and those with which the rest of
  the generator makes, copies and changes values.  An operation that the source
  stops at with an assertion has no result.

  The byte ranges are recorded beside the state: `slot` says of a value which
  slot it refers to, `pinned` has the saved arguments and the register save
  area, and `outgoing` is the space for the arguments of a call in progress.
  Nothing that the code computes depends on these.

  `v_aalloc_noop` has no caller, so `stack_n_alloc` stays 0.  A function that
  uses no stack and is given no frame is not followed to its end.
-/
import Ucc.Cc1.FoldSue
import Ucc.Lib.Steps
import Mathlib.Order.CompletePartialOrder

set_option autoImplicit false

namespace Ucc.Cc1.Stack

/-! ## Values -/

/-- `struct vreg`. -/
structure VReg where
  idx : Nat
  isFloat : Bool
  deriving DecidableEq, Repr

/-- `REG_BP`. -/
def regBp : VReg := ⟨14, false⟩

/-- `REG_SP`. -/
def regSp : VReg := ⟨15, false⟩

/-- `impl_reg_frame_const`. -/
def implRegFrameConst (r : VReg) (sp : Bool) : Bool :=
  if r.isFloat then false
  else if r.idx = regBp.idx then true
  else if r.idx = regSp.idx then sp
  else false

/-- The kinds of `enum out_val_store` that hold a register and an offset. -/
inductive RegStore where
  | reg
  | spilt
  | regoff
  deriving DecidableEq, Repr

/-- `enum out_val_store`, with `bits.regoff` where it is used. -/
inductive Store where
  | constI
  | constF
  | lbl
  | flag
  | inReg (kind : RegStore) (reg : VReg) (offset : Int)
  deriving DecidableEq, Repr

/-- A part of the frame: the bytes from `depth` below the frame base on. -/
structure Slot where
  id : Nat
  depth : Nat
  size : Nat
  deriving DecidableEq, Repr

/-- The bytes of a slot, as offsets from the frame base. -/
def Slot.bytes (σ : Slot) : Set Int := Set.Ico (-σ.depth) (-σ.depth + σ.size)

/-- `struct out_val`. -/
structure OutVal where
  store : Store
  retains : Nat
  phi : Bool
  slot : Option Slot
  deriving DecidableEq, Repr

/-- Where a function's code is. -/
inductive Phase where
  /-- `in_prologue` is set -/
  | prologue
  | body
  /-- from `release_arg_vals` on -/
  | finishing
  | done
  deriving DecidableEq, Repr

/-- The part of `struct out_ctx` that is about the frame. -/
structure FrameCtx where
  curStackSz : Nat
  maxStackSz : Nat
  stackCallspace : Nat
  maxAlign : Nat
  initialStackSz : Nat
  stackVariadicOffset : Nat
  phase : Phase
  allocaCount : Nat
  hadCall : Bool
  stackPtrManipulated : Bool
  /-- the number of registers in `used_callee_saved` -/
  usedCalleeSaved : Nat
  /-- what `%rsp` is at, from the frame base, once the frame is made -/
  sp : Int
  vals : List OutVal
  pinned : List Slot
  outgoing : Option Nat
  calleeSaves : Option Slot
  nextId : Nat
  deriving DecidableEq, Repr

/-- The state at the end of `out_perfunc_init`. -/
def FrameCtx.init : FrameCtx where
  curStackSz := 0
  maxStackSz := 0
  stackCallspace := 0
  maxAlign := 0
  initialStackSz := 0
  stackVariadicOffset := 0
  phase := .prologue
  allocaCount := 0
  hadCall := false
  stackPtrManipulated := false
  usedCalleeSaved := 0
  sp := 0
  vals := []
  pinned := []
  outgoing := none
  calleeSaves := none
  nextId := 0

/-- `platform_word_size()`, also as an alignment. -/
def wordSize : Nat := 8

def wordAlign : Align := ⟨3, by omega⟩

/-! ## Allocation -/

/-- `align_sz`. -/
def alignSz (sz : Nat) (align : Align) : Nat :=
  if align.bytes > sz then packToAlign sz align.bytes % 2 ^ 32 else sz

/-- `v_set_cur_stack_sz`. -/
def FrameCtx.setCurStackSz (s : FrameCtx) (sz : Nat) : FrameCtx :=
  { s with
    curStackSz := sz
    maxStackSz := if sz > s.maxStackSz then sz else s.maxStackSz }

/-- What `out_aalloc` does to the sizes. -/
def FrameCtx.grow (s : FrameCtx) (sz : Nat) (align : Align) : FrameCtx :=
  s.setCurStackSz (packNext s.curStackSz (alignSz sz align) align.bytes).2

/-- The slot that `out_aalloc` has just made. -/
def FrameCtx.topSlot (s : FrameCtx) (sz : Nat) (align : Align) : Slot :=
  ⟨s.nextId, s.curStackSz, alignSz sz align⟩

/-- `v_new_bp3_below` at the current size of the stack. -/
def FrameCtx.newBpBelow (s : FrameCtx) (slot : Option Slot) : OutVal :=
  ⟨.inReg .reg regBp (-s.curStackSz), 1, false, slot⟩

/-- `out_aalloc`. -/
def FrameCtx.aalloc (s : FrameCtx) (sz : Nat) (align : Align) : FrameCtx :=
  let s := s.grow sz align
  { s with
    vals := s.vals ++ [s.newBpBelow (some (s.topSlot sz align))]
    nextId := s.nextId + 1 }

/-! ## Release and reclaim -/

/-- A value that `v_try_stack_reclaim` looks at. -/
def OutVal.counts (v : OutVal) : Bool := v.retains ≠ 0 && !v.phi

/-- A value for which `v_try_stack_reclaim` gives up. -/
def OutVal.blocks (v : OutVal) : Bool :=
  v.counts &&
    match v.store with
    | .inReg _ r _ => !implRegFrameConst r false
    | _ => false

/-- The offset of a value from the frame base. -/
def OutVal.frameOffset (v : OutVal) : Option Int :=
  match v.store with
  | .inReg _ r off => if implRegFrameConst r false then some off else none
  | _ => none

/-- The loop of `v_try_stack_reclaim`. -/
def lowestOffset : Int → List OutVal → Int
  | lowest, [] => lowest
  | lowest, v :: vs =>
      if v.counts then
        match v.frameOffset with
        | some off => lowestOffset (if off < lowest then off else lowest) vs
        | none => lowestOffset lowest vs
      else lowestOffset lowest vs

/-- The conditions under which `v_try_stack_reclaim` gets to its end. -/
def FrameCtx.reclaims (s : FrameCtx) : Bool :=
  decide (s.phase ≠ .prologue) && decide (s.allocaCount = 0) && !s.vals.any OutVal.blocks

/-- `v_try_stack_reclaim`.  `reclaim` is unsigned: it is above 0 whenever the
two sizes differ. -/
def FrameCtx.tryStackReclaim (s : FrameCtx) : FrameCtx :=
  if s.reclaims then
    let lowest := (-lowestOffset 0 s.vals).toNat
    if s.curStackSz ≠ lowest then { s with curStackSz := lowest } else s
  else s

/-- A change to one value. -/
def FrameCtx.modifyVal (s : FrameCtx) (i : Nat) (f : OutVal → OutVal) : FrameCtx :=
  { s with vals := s.vals.modify i f }

/-- `--retains`. -/
def FrameCtx.drop (s : FrameCtx) (i : Nat) : FrameCtx :=
  s.modifyVal i fun v => { v with retains := v.retains - 1 }

/-- The value at `i`, if it is retained. -/
def FrameCtx.retained (s : FrameCtx) (i : Nat) : Option OutVal :=
  match s.vals[i]? with
  | some v => if v.retains > 0 then some v else none
  | none => none

/-- `out_val_release`. -/
def FrameCtx.release (s : FrameCtx) (i : Nat) : Option FrameCtx :=
  match s.retained i with
  | some v => some (if v.retains = 1 then (s.drop i).tryStackReclaim else s.drop i)
  | none => none

/-- `out_adealloc`. -/
def FrameCtx.adealloc (s : FrameCtx) (i : Nat) : Option FrameCtx :=
  match s.release i with
  | some s => some s.tryStackReclaim
  | none => none

/-! ## Prologue -/

/-- `v_stack_needalign`. -/
def FrameCtx.stackNeedalign (s : FrameCtx) (align : Nat) : FrameCtx :=
  { s with maxAlign := max s.maxAlign align }

/-- `stack_realign`. -/
def FrameCtx.stackRealign (s : FrameCtx) (align : Align) : FrameCtx :=
  s.setCurStackSz (packToAlign s.curStackSz align.bytes % 2 ^ 32)

/-- The slot of the `k`th saved register argument. -/
def FrameCtx.argSlot (s : FrameCtx) (k : Nat) : Slot :=
  ⟨s.nextId + k, s.curStackSz - k * wordSize, wordSize⟩

/-- The value of the `k`th saved register argument: `stack_loc` starts at the
bottom of the block and is moved up a word after each register. -/
def FrameCtx.argVal (s : FrameCtx) (k : Nat) : OutVal :=
  ⟨.inReg .regoff regBp (-s.curStackSz + (k * wordSize : Nat)), 1, false, some (s.argSlot k)⟩

/-- `impl_func_prologue_save_call_regs`, of `n` registers. -/
def FrameCtx.saveCallRegs (s : FrameCtx) (n : Nat) : FrameCtx :=
  let s := s.grow (n * wordSize) wordAlign
  { s with
    vals := s.vals ++ (List.range n).map s.argVal
    pinned := s.pinned ++ (List.range n).map s.argSlot
    nextId := s.nextId + n }

/-- `(N_CALL_REGS_I + N_CALL_REGS_F * 2) * pws`. -/
def variadicBytes : Nat := (6 + 8 * 2) * wordSize

/-- `impl_func_prologue_save_variadic`, which releases the value of the area
before it returns. -/
def FrameCtx.saveVariadic (s : FrameCtx) : FrameCtx :=
  let s := s.grow variadicBytes wordAlign
  { s with
    vals := s.vals ++ [{ s.newBpBelow none with retains := 0 }]
    pinned := s.pinned ++ [s.topSlot variadicBytes wordAlign]
    nextId := s.nextId + 1 }

/-- The end of `out_func_prologue`. -/
def FrameCtx.prologueEnd (s : FrameCtx) : FrameCtx :=
  { s with
    stackVariadicOffset := s.curStackSz
    initialStackSz := s.curStackSz
    phase := .body }

/-! ## Calls -/

/-- The argument space of `impl_call`, for `words` arguments that are not passed
in registers.  After an `alloca` the space is taken below the frame. -/
def FrameCtx.callReserve (s : FrameCtx) (words : Nat) : FrameCtx :=
  let s := { s.stackNeedalign 16 with hadCall := true }
  if words = 0 then s
  else if s.allocaCount ≠ 0 then { s with stackPtrManipulated := true }
  else
    let bytes := words * wordSize
    let s := s.grow bytes wordAlign
    { s with
      vals := s.vals ++ [s.newBpBelow none]
      stackCallspace := if s.stackCallspace < bytes then bytes else s.stackCallspace
      stackPtrManipulated := true
      outgoing := some bytes }

/-! ## Epilogue -/

/-- The callee saves of `out_func_epilogue`. -/
def FrameCtx.calleeSave (s : FrameCtx) : FrameCtx :=
  if s.usedCalleeSaved = 0 then s
  else
    let bytes := s.usedCalleeSaved * wordSize
    let t := { s with curStackSz := s.maxStackSz }.grow bytes wordAlign
    let diff := t.maxStackSz - s.maxStackSz
    { t with
      maxStackSz := if diff ≠ 0 then t.maxStackSz + (diff + s.stackCallspace) else t.maxStackSz
      calleeSaves := some (t.topSlot bytes wordAlign)
      nextId := t.nextId + 1 }

/-- Whether `out_func_epilogue` leaves the frame in the red zone. -/
def FrameCtx.redZone (s : FrameCtx) (moptRedZone : Bool) : Bool :=
  moptRedZone && decide (s.maxStackSz < 128) && !s.hadCall && !s.stackPtrManipulated

/-- `out_func_epilogue`. -/
def FrameCtx.epilogue (s : FrameCtx) (moptRedZone : Bool) : FrameCtx :=
  let s := s.calleeSave
  let redzone := s.redZone moptRedZone
  let sz := if s.maxAlign ≠ 0 then packToAlign s.maxStackSz s.maxAlign else s.maxStackSz
  { s with maxStackSz := sz, sp := if redzone then 0 else -sz, phase := .done }

/-! ## Runs -/

/-- What the generator does to the frame and to the values. -/
inductive FrameOp where
  | saveCallRegs (n : Nat)
  | saveVariadic
  | stackRealign (align : Align)
  | prologueEnd
  | aalloc (sz : Nat) (align : Align)
  | stackNeedalign (align : Align)
  /-- `v_new` of a value that refers to no slot -/
  | new (store : Store)
  /-- a new value that refers to what another one refers to -/
  | dup (i : Nat) (store : Store)
  /-- a value that is used again, for the same slot or for none -/
  | reuse (i : Nat) (store : Store) (keep : Bool)
  /-- `out_val_overwrite` -/
  | overwrite (d s : Nat)
  | setPhi (i : Nat) (phi : Bool)
  | retain (i : Nat)
  | release (i : Nat)
  | adealloc (i : Nat)
  /-- `mark_callee_save_reg_as_used` of one more register -/
  | useCalleeSaved
  | callReserve (words : Nat)
  | callDone
  | allocaPush
  | allocaPop
  /-- the code of the function is made, `release_arg_vals` is next -/
  | funcEnd
  | epilogue (moptRedZone : Bool)
  deriving DecidableEq, Repr

/-- The operations that both the prologue and the body can make. -/
def FrameCtx.generate (s : FrameCtx) : FrameOp → Option FrameCtx
  | .aalloc sz align => if sz < 2 ^ 32 then some (s.aalloc sz align) else none
  | .stackNeedalign align => some (s.stackNeedalign align.bytes)
  | .new store => some { s with vals := s.vals ++ [⟨store, 1, false, none⟩] }
  | .dup i store =>
      (s.retained i).map fun v => { s with vals := s.vals ++ [⟨store, 1, false, v.slot⟩] }
  | .reuse i store keep =>
      (s.retained i).map fun _ =>
        s.modifyVal i fun v =>
          { v with store := store, slot := if keep then v.slot else none }
  | .overwrite d i =>
      (s.retained i).map fun w =>
        s.modifyVal d fun v => { v with store := w.store, slot := w.slot }
  | .setPhi i phi => (s.retained i).map fun _ => s.modifyVal i fun v => { v with phi := phi }
  | .retain i =>
      (s.retained i).map fun _ => s.modifyVal i fun v => { v with retains := v.retains + 1 }
  | .release i => s.release i
  | .adealloc i => s.adealloc i
  | .useCalleeSaved => some { s with usedCalleeSaved := s.usedCalleeSaved + 1 }
  | .allocaPush => some { s with allocaCount := s.allocaCount + 1 }
  | .allocaPop =>
      if s.allocaCount > 0 then some { s with allocaCount := s.allocaCount - 1 } else none
  | _ => none

/-- One operation. -/
def FrameCtx.step (s : FrameCtx) (op : FrameOp) : Option FrameCtx :=
  match s.phase with
  | .prologue =>
      match op with
      | .saveCallRegs n => if n ≤ 6 + 8 then some (s.saveCallRegs n) else none
      | .saveVariadic => some s.saveVariadic
      | .stackRealign align => some (s.stackRealign align)
      | .prologueEnd => some s.prologueEnd
      | op => s.generate op
  | .body =>
      match op with
      | .callReserve words =>
          if s.outgoing = none ∧ words * wordSize < 2 ^ 32 then some (s.callReserve words)
          else none
      | .callDone => some { s with outgoing := none }
      | .funcEnd => if s.outgoing = none then some { s with phase := .finishing } else none
      | op => s.generate op
  | .finishing =>
      match op with
      | .release i => s.release i
      | .epilogue moptRedZone =>
          if s.allocaCount = 0 then some (s.epilogue moptRedZone) else none
      | _ => none
  | .done => none

/-- The operations in order. -/
def FrameCtx.run (s : FrameCtx) (ops : List FrameOp) : Option FrameCtx :=
  Lib.steps FrameCtx.step s ops

/-! ## Liveness -/

/-- The slots in use: those of the whole function, and those that a retained
value refers to. -/
def FrameCtx.LiveSlot (s : FrameCtx) (σ : Slot) : Prop :=
  σ ∈ s.pinned ∨ ∃ v ∈ s.vals, 0 < v.retains ∧ v.slot = some σ

instance (s : FrameCtx) (σ : Slot) : Decidable (s.LiveSlot σ) :=
  inferInstanceAs (Decidable (_ ∨ _))

/-- The same as a list. -/
def FrameCtx.liveSlots (s : FrameCtx) : List Slot :=
  s.pinned ++ (s.vals.filter fun v => decide (0 < v.retains)).filterMap OutVal.slot

theorem FrameCtx.mem_liveSlots {s : FrameCtx} {σ : Slot} : σ ∈ s.liveSlots ↔ s.LiveSlot σ := by
  simp [liveSlots, LiveSlot, and_assoc]

/-- The areas of a frame. -/
inductive Area where
  | slot (σ : Slot)
  | outgoing (bytes : Nat)
  | calleeSaves (σ : Slot)

/-- The bytes of an area.  The arguments of a call are at the stack pointer. -/
def Area.bytes (sp : Int) : Area → Set Int
  | .slot σ => σ.bytes
  | .outgoing n => Set.Ico sp (sp + n)
  | .calleeSaves σ => σ.bytes

/-- The areas in use in `s`, in a function that ends as `f`.  The callee saves
are in use from the prologue to the epilogue. -/
def FrameCtx.Live (s f : FrameCtx) : Area → Prop
  | .slot σ => s.LiveSlot σ
  | .outgoing n => s.outgoing = some n
  | .calleeSaves σ => f.calleeSaves = some σ

/-- The areas in use do not overlap and are inside the frame. -/
def FrameCtx.Apart (s f : FrameCtx) : Prop :=
  {a | s.Live f a}.PairwiseDisjoint (Area.bytes f.sp) ∧
    ∀ a, s.Live f a → a.bytes f.sp ⊆ Set.Ico (-f.maxStackSz) 0

/-- At every point of a function whose code is made with `ops`. -/
def SlotsApart (ops : List FrameOp) : Prop :=
  ∀ f, FrameCtx.init.run ops = some f → f.phase = .done →
    ∀ pre post s, ops = pre ++ post → FrameCtx.init.run pre = some s → s.Apart f

end Ucc.Cc1.Stack
