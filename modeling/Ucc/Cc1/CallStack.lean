/-
  Cc1/CallStack.lean --- the stack pointer across a call.

  Source: calling_convs, x86_caller_cleanup, x86_func_nargs, impl_func_epilogue
  and impl_call in src/cc1/out/x86_64.c.

  Of a calling convention only the number of integer registers and who cleans
  the stack matter here.  A convention with callee cleanup has `retq` pop a word
  for every parameter, whether the caller has put it on the stack or in a
  register.
-/
import Ucc.Cc1.Call
import Ucc.Cc1.FoldSue

set_option autoImplicit false

namespace Ucc.Cc1

/-! ## Conventions -/

/-- `enum calling_conv` -/
inductive CallingConv where
  | x64Sysv | x64Ms | cdecl | stdcall | fastcall
  deriving DecidableEq, Repr

/-- `struct calling_conv_desc` -/
structure CallingConvDesc where
  callerCleanup : Bool
  nCallRegs : Nat
  deriving DecidableEq, Repr

/-- `calling_convs` -/
def callingConvs : CallingConv → CallingConvDesc
  | .x64Sysv => ⟨true, 6⟩
  | .x64Ms => ⟨true, 4⟩
  | .cdecl => ⟨true, 0⟩
  | .stdcall => ⟨false, 0⟩
  | .fastcall => ⟨false, 2⟩

/-- A function that is not variadic, with its convention. -/
structure Callee where
  conv : CallingConv
  ty : FnTy
  deriving DecidableEq, Repr

/-- `x86_caller_cleanup` -/
def Callee.callerCleanup (f : Callee) : Bool := (callingConvs f.conv).callerCleanup

/-- `x86_func_nargs` -/
def Callee.nargs (f : Callee) : Nat := f.ty.params.length

/-! ## The code around a call -/

/-- The instructions that move the stack pointer. -/
inductive SpInsn where
  | sub (n : Nat)
  | add (n : Nat)
  | callq
  /-- `retq $n` -/
  | retq (n : Nat)
  deriving DecidableEq, Repr

/-- The stack pointer after an instruction. -/
def SpInsn.exec (sp : Int) : SpInsn → Int
  | .sub n => sp - n
  | .add n => sp + n
  | .callq => sp - wordSize
  | .retq n => sp + wordSize + n

/-- The stack pointer after some instructions. -/
def execSp (sp : Int) (insns : List SpInsn) : Int := insns.foldl SpInsn.exec sp

/-- What `impl_call` reads of the function it is in. -/
structure CallerCtx where
  allocaCount : Nat
  maxAlign : Nat
  deriving DecidableEq, Repr

/-- `arg_stack` of `impl_call` -/
structure ArgStack where
  bytesz : Nat
  restorePushback : Bool
  pop : Bool
  deriving DecidableEq, Repr

/-- The bytes of the arguments that have no register. -/
def Callee.stackBytes (f : Callee) : Nat :=
  wordSize * (intArgs f.ty.params + f.ty.stret.hidden - (callingConvs f.conv).nCallRegs) +
    wordSize * (fpArgs f.ty.params - nCallRegsF)

/-- How `impl_call` sets up `arg_stack`; `v_stack_needalign` comes first. -/
def argStack (ctx : CallerCtx) (f : Callee) : ArgStack :=
  if f.stackBytes = 0 then ⟨0, false, false⟩
  else if ctx.allocaCount ≠ 0 then
    ⟨packToAlign f.stackBytes (max ctx.maxAlign 16), !f.callerCleanup, true⟩
  -- the space is part of the frame
  else ⟨f.stackBytes, !f.callerCleanup, false⟩

/-- The caller's code before the call. -/
def beforeCall (ctx : CallerCtx) (f : Callee) : List SpInsn :=
  let stk := argStack ctx f
  if stk.pop then [.sub stk.bytesz] else []

/-- `impl_func_epilogue`, after `leaveq`. -/
def implFuncEpilogue (f : Callee) : SpInsn :=
  if f.callerCleanup then .retq 0 else .retq (f.nargs * wordSize)

/-- The caller's code after the call. -/
def afterCall (ctx : CallerCtx) (f : Callee) : List SpInsn :=
  let stk := argStack ctx f
  if stk.bytesz = 0 then []
  else if stk.restorePushback then
    -- "we wanted to pop anyway - callee did it for us"
    if stk.pop then [] else [.sub stk.bytesz]
  else if stk.pop then [.add stk.bytesz]
  else []

/-- All that moves the stack pointer from before the call to after it; the
callee is at its entry again when it gets to `retq`. -/
def callSequence (ctx : CallerCtx) (f : Callee) : List SpInsn :=
  beforeCall ctx f ++ [.callq, implFuncEpilogue f] ++ afterCall ctx f

/-- What some instructions add to the stack pointer. -/
def spChange (insns : List SpInsn) : Int := execSp 0 insns

/-- The bytes that `retq` pops besides the return address. -/
def poppedByCallee (f : Callee) : Int := spChange [implFuncEpilogue f] - wordSize

/-- The caller takes as much as the callee's return and the caller give back, and
the stack pointer is where it was. -/
def Balanced (ctx : CallerCtx) (f : Callee) : Prop :=
  -spChange (beforeCall ctx f) = poppedByCallee f + spChange (afterCall ctx f) ∧
    ∀ sp, execSp sp (callSequence ctx f) = sp

/-- The caller cleans up, or a word for every parameter is as much as the
arguments without a register take, with the padding that they have after an
`alloca`. -/
def CleansAlike (ctx : CallerCtx) (f : Callee) : Prop :=
  f.callerCleanup = true ∨
    f.nargs * wordSize =
      if f.stackBytes = 0 ∨ ctx.allocaCount = 0 then f.stackBytes
      else packToAlign f.stackBytes (max ctx.maxAlign 16)

/-! ## Balance -/

theorem execSp_eq_add (sp : Int) (insns : List SpInsn) :
    execSp sp insns = sp + spChange insns := by
  unfold spChange execSp
  induction insns generalizing sp with
  | nil => simp
  | cons i insns ih =>
    simp only [List.foldl_cons]
    rw [ih, ih (i.exec 0)]
    cases i <;> simp only [SpInsn.exec] <;> omega

theorem spChange_append (xs ys : List SpInsn) :
    spChange (xs ++ ys) = spChange xs + spChange ys := by
  unfold spChange
  rw [show execSp 0 (xs ++ ys) = execSp (execSp 0 xs) ys from List.foldl_append ..]
  exact execSp_eq_add _ _

theorem spChange_callSequence (ctx : CallerCtx) (f : Callee) :
    spChange (callSequence ctx f) =
      spChange (beforeCall ctx f) + poppedByCallee f + spChange (afterCall ctx f) := by
  have hcall : spChange [.callq, implFuncEpilogue f] = poppedByCallee f := by
    rw [show [SpInsn.callq, implFuncEpilogue f] = [.callq] ++ [implFuncEpilogue f] from rfl,
      spChange_append, poppedByCallee]
    simp only [spChange, execSp, List.foldl_cons, List.foldl_nil, SpInsn.exec]
    omega
  rw [callSequence, spChange_append, spChange_append, hcall]

theorem balanced_iff_spChange (ctx : CallerCtx) (f : Callee) :
    Balanced ctx f ↔ spChange (callSequence ctx f) = 0 := by
  have hseq := spChange_callSequence ctx f
  constructor
  · rintro ⟨-, hsp⟩
    have h0 := hsp 0
    rwa [execSp_eq_add, Int.zero_add] at h0
  · intro h
    refine ⟨by omega, fun sp => ?_⟩
    rw [execSp_eq_add, h, Int.add_zero]

theorem argStack_restore {ctx : CallerCtx} {f : Callee} (h : (argStack ctx f).bytesz ≠ 0) :
    (argStack ctx f).restorePushback = !f.callerCleanup := by
  unfold argStack at h ⊢
  split
  · rename_i hz
    simp [hz] at h
  · split <;> rfl

theorem argStack_bytesz (ctx : CallerCtx) (f : Callee) :
    (argStack ctx f).bytesz =
      if f.stackBytes = 0 ∨ ctx.allocaCount = 0 then f.stackBytes
      else packToAlign f.stackBytes (max ctx.maxAlign 16) := by
  unfold argStack
  by_cases hz : f.stackBytes = 0
  · rw [if_pos hz, if_pos (Or.inl hz), hz]
  · by_cases ha : ctx.allocaCount = 0
    · rw [if_neg hz, if_neg (not_not_intro ha), if_pos (Or.inr ha)]
    · rw [if_neg hz, if_pos ha, if_neg (by tauto)]

/-- What the caller's own instructions add: nothing where it cleans up, and
otherwise it takes the space of the arguments once. -/
theorem spChange_caller (ctx : CallerCtx) (f : Callee) :
    spChange (beforeCall ctx f) + spChange (afterCall ctx f) =
      if f.callerCleanup then 0 else -((argStack ctx f).bytesz : Int) := by
  unfold beforeCall afterCall
  dsimp only
  by_cases hz : (argStack ctx f).bytesz = 0
  · rw [if_pos hz, hz]
    split <;> simp [spChange, execSp, SpInsn.exec]
  · rw [if_neg hz, argStack_restore hz]
    cases hp : (argStack ctx f).pop <;> cases hc : f.callerCleanup <;>
      simp [spChange, execSp, SpInsn.exec]

/-- A call leaves the stack pointer where it was when the caller cleans up, and
otherwise exactly when every parameter's word is space for an argument on the
stack. -/
theorem call_balanced_iff (ctx : CallerCtx) (f : Callee) :
    Balanced ctx f ↔ CleansAlike ctx f := by
  have hseq := spChange_callSequence ctx f
  have hcaller := spChange_caller ctx f
  rw [balanced_iff_spChange, CleansAlike, ← argStack_bytesz]
  cases hc : f.callerCleanup with
  | true =>
    have hpop : poppedByCallee f = 0 := by
      simp [poppedByCallee, implFuncEpilogue, hc, spChange, execSp, SpInsn.exec]
    rw [hc, if_pos rfl] at hcaller
    exact iff_of_true (by omega) (Or.inl rfl)
  | false =>
    have hpop : poppedByCallee f = ((f.nargs * wordSize : Nat) : Int) := by
      simp [poppedByCallee, implFuncEpilogue, hc, spChange, execSp, SpInsn.exec]
    rw [hc, if_neg (by decide)] at hcaller
    constructor
    · intro h
      right
      omega
    · rintro (h | h)
      · cases h
      · omega

/-- `stdcall` has no integer registers: without an `alloca` it is balanced when no
floating argument is in a register, or one makes up for the hidden pointer. -/
theorem stdcall_cleansAlike_iff {ctx : CallerCtx} (ha : ctx.allocaCount = 0) (ty : FnTy) :
    CleansAlike ctx ⟨.stdcall, ty⟩ ↔ min (fpArgs ty.params) nCallRegsF = ty.stret.hidden := by
  have hlen := length_eq_args ty.params
  simp only [CleansAlike, ha, or_true, if_true, Callee.callerCleanup, Callee.nargs,
    Callee.stackBytes, callingConvs, wordSize, nCallRegsF]
  constructor
  · rintro (h | h)
    · cases h
    · omega
  · intro h
    right
    omega

/-- `fastcall` is balanced, without an `alloca`, for functions without
parameters only. -/
theorem fastcall_cleansAlike_iff {ctx : CallerCtx} (ha : ctx.allocaCount = 0) (ty : FnTy) :
    CleansAlike ctx ⟨.fastcall, ty⟩ ↔ ty.params = [] := by
  have hlen := length_eq_args ty.params
  have hhidden : ty.stret.hidden ≤ 1 := by cases ty.stret <;> decide
  rw [← List.length_eq_zero_iff]
  simp only [CleansAlike, ha, or_true, if_true, Callee.callerCleanup, Callee.nargs,
    Callee.stackBytes, callingConvs, wordSize, nCallRegsF]
  constructor
  · rintro (h | h)
    · cases h
    · omega
  · intro h
    right
    omega

/-- `void __attribute__((fastcall)) f(int)` -/
def fastcallInt : Callee := ⟨.fastcall, ⟨none, [.int], false⟩⟩

/-- The argument is in a register, and the callee pops a word for it. -/
theorem fastcallInt_pops_a_word :
    execSp 0 (callSequence ⟨0, 0⟩ fastcallInt) = 8 ∧ ¬ Balanced ⟨0, 0⟩ fastcallInt := by
  refine ⟨by decide, ?_⟩
  rintro ⟨-, hsp⟩
  exact absurd (hsp 0) (by decide)

end Ucc.Cc1
