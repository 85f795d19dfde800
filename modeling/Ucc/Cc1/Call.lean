/-
  Cc1/Call.lean --- where the arguments of a call are.

  Source: src/cc1/out/x86_64.c (impl_func_prologue_save_call_regs, impl_call,
  x86_stret), src/cc1/funcargs.c (funcargs_ty_calc).

  The SysV convention, for functions without struct parameters.  The caller and
  the callee walk the arguments with counters of their own; a register argument
  is named by its index in the table of registers that both sides use.
-/
import Mathlib.Tactic

set_option autoImplicit false

namespace Ucc.Cc1

/-! ## Types -/

/-- What a parameter is passed as: `type_is_floating` or not. -/
inductive ArgClass where
  | int | float
  deriving DecidableEq, Repr

/-- `n_call_regs` of `conv_x64_sysv`, and `N_CALL_REGS_I`. -/
def nCallRegsI : Nat := 6

/-- `N_CALL_REGS_F` -/
def nCallRegsF : Nat := 8

/-- `platform_word_size` -/
def wordSize : Nat := 8

/-- `enum stret` -/
inductive Stret where
  | scalar | regs | memcpy
  deriving DecidableEq, Repr

/-- `x86_stret`, from the size of a struct that is returned. -/
def x86Stret (pccStructReturn : Bool) (su : Option Nat) : Stret :=
  match su with
  | none => .scalar
  | some size =>
      if pccStructReturn then .memcpy
      else if 2 * wordSize < size then .memcpy
      else .regs

/-- A function type: the size of the struct it returns, if it returns one, and
its parameters; and whether structs are returned through memory. -/
structure FnTy where
  su : Option Nat
  params : List ArgClass
  pccStructReturn : Bool := false
  deriving DecidableEq, Repr

/-- How a function returns its value. -/
def FnTy.stret (f : FnTy) : Stret := x86Stret f.pccStructReturn f.su

/-- The integer half of `funcargs_ty_calc`. -/
def intArgs (args : List ArgClass) : Nat := args.count .int

/-- The floating half of `funcargs_ty_calc`. -/
def fpArgs (args : List ArgClass) : Nat := args.count .float

/-- One for the hidden pointer to the struct that is returned. -/
def Stret.hidden : Stret → Nat
  | .memcpy => 1
  | _ => 0

/-! ## The callee -/

/-- Where a parameter is taken from. -/
inductive CalleePlace where
  /-- `call_regs[i]` -/
  | reg (i : Nat)
  /-- `xmm i` -/
  | sse (i : Nat)
  /-- `off` bytes above the frame pointer -/
  | bp (off : Nat)
  deriving DecidableEq, Repr

/-- The loop of `impl_func_prologue_save_call_regs`. -/
def prologueLoop (nCallI nCallF : Nat) (iI iF iArgStk : Nat) : List ArgClass → List CalleePlace
  | [] => []
  | .float :: args =>
      if nCallF ≤ iF then
        .bp ((iArgStk + 2) * wordSize) :: prologueLoop nCallI nCallF iI iF (iArgStk + 1) args
      else .sse iF :: prologueLoop nCallI nCallF iI (iF + 1) iArgStk args
  | .int :: args =>
      if nCallI ≤ iI then
        .bp ((iArgStk + 2) * wordSize) :: prologueLoop nCallI nCallF iI iF (iArgStk + 1) args
      else .reg iI :: prologueLoop nCallI nCallF (iI + 1) iF iArgStk args

/-- The arguments as the callee walks them, with the hidden pointer first. -/
def FnTy.allArgs (f : FnTy) : List ArgClass := List.replicate f.stret.hidden .int ++ f.params

/-- `impl_func_prologue_save_call_regs`: the places of `FnTy.allArgs`. -/
def saveCallRegs (f : FnTy) : List CalleePlace :=
  prologueLoop (min nCallRegsI (intArgs f.params + f.stret.hidden))
    (min nCallRegsF (fpArgs f.params)) 0 0 0 f.allArgs

/-! ## The caller -/

/-- Where an argument is put. -/
inductive CallerPlace where
  | reg (i : Nat)
  | sse (i : Nat)
  /-- `off` bytes above the stack pointer -/
  | sp (off : Nat)
  | nowhere
  deriving DecidableEq, Repr

/-- The argument space that `impl_call` reserves, in bytes. -/
def argStackBytes (stret : Stret) (args : List ArgClass) : Nat :=
  wordSize * (intArgs args + stret.hidden - nCallRegsI) + wordSize * (fpArgs args - nCallRegsF)

/-- The first pass of `impl_call`: the offsets of the arguments that are put on
the stack. -/
def stackPass (nints nfloats off : Nat) : List ArgClass → List (Option Nat)
  | [] => []
  | .float :: args =>
      if nCallRegsF ≤ nfloats then
        some off :: stackPass nints (nfloats + 1) (off + wordSize) args
      else none :: stackPass nints (nfloats + 1) off args
  | .int :: args =>
      if nCallRegsI ≤ nints then
        some off :: stackPass (nints + 1) nfloats (off + wordSize) args
      else none :: stackPass (nints + 1) nfloats off args

/-- The second pass of `impl_call`: the registers; `none` for an argument that
is "already pushed". -/
def regPass (nints nfloats : Nat) : List ArgClass → List (Option CallerPlace)
  | [] => []
  | .float :: args =>
      (if nfloats < nCallRegsF then some (.sse nfloats) else none) ::
        regPass nints (nfloats + 1) args
  | .int :: args =>
      (if nints < nCallRegsI then some (.reg nints) else none) ::
        regPass (nints + 1) nfloats args

/-- Where an argument is after both passes. -/
def finalPlace (stacked : Option Nat) (reg : Option CallerPlace) : CallerPlace :=
  match reg, stacked with
  | some place, _ => place
  | none, some off => .sp off
  | none, none => .nowhere

/-- `impl_call`: the places of the arguments.  The hidden pointer is counted in
the second pass only. -/
def implCall (stret : Stret) (args : List ArgClass) : List CallerPlace :=
  List.zipWith finalPlace
    (if 0 < argStackBytes stret args then stackPass 0 0 0 args
     else List.replicate args.length none)
    (regPass stret.hidden 0 args)

/-- Where `impl_call` puts the hidden pointer. -/
def implCallHidden (stret : Stret) : List CallerPlace := List.replicate stret.hidden (.reg 0)

/-! ## Agreement -/

/-- The place a parameter is taken from is the place it was put.  The call
pushes the return address and the prologue the frame pointer, so the frame
pointer is two words below the stack pointer at the call. -/
def Meets : CalleePlace → CallerPlace → Prop
  | .reg i, .reg j => i = j
  | .sse i, .sse j => i = j
  | .bp off, .sp off' => off = off' + 2 * wordSize
  | _, _ => False

/-- Caller and callee agree on every argument and on the hidden pointer. -/
def ArgsAgree (f : FnTy) : Prop :=
  List.Forall₂ Meets (saveCallRegs f) (implCallHidden f.stret ++ implCall f.stret f.params)

@[simp] theorem intArgs_nil : intArgs [] = 0 := rfl

@[simp] theorem fpArgs_nil : fpArgs [] = 0 := rfl

@[simp] theorem intArgs_int (args : List ArgClass) :
    intArgs (.int :: args) = intArgs args + 1 := by
  simp [intArgs]

@[simp] theorem intArgs_float (args : List ArgClass) : intArgs (.float :: args) = intArgs args := by
  simp [intArgs]

@[simp] theorem fpArgs_float (args : List ArgClass) :
    fpArgs (.float :: args) = fpArgs args + 1 := by
  simp [fpArgs]

@[simp] theorem fpArgs_int (args : List ArgClass) : fpArgs (.int :: args) = fpArgs args := by
  simp [fpArgs]

theorem length_eq_args (args : List ArgClass) : args.length = intArgs args + fpArgs args := by
  induction args with
  | nil => rfl
  | cons t args ih =>
    cases t with
    | int =>
      rw [List.length_cons, intArgs_int, fpArgs_int, ih]
      omega
    | float =>
      rw [List.length_cons, intArgs_float, fpArgs_float, ih]
      omega

/-- With room in the registers nothing is put on the stack. -/
theorem stackPass_none {nints nfloats : Nat} (off : Nat) {args : List ArgClass}
    (hi : nints + intArgs args ≤ nCallRegsI) (hf : nfloats + fpArgs args ≤ nCallRegsF) :
    stackPass nints nfloats off args = List.replicate args.length none := by
  induction args generalizing nints nfloats with
  | nil => rfl
  | cons c args ih =>
    cases c with
    | int =>
      rw [intArgs_int] at hi
      rw [stackPass, if_neg (by omega), ih (by omega) (by simpa using hf)]
      rfl
    | float =>
      rw [fpArgs_float] at hf
      rw [stackPass, if_neg (by omega), ih (by simpa using hi) (by omega)]
      rfl

/-- The first pass may always be made. -/
theorem implCall_eq (stret : Stret) (args : List ArgClass) :
    implCall stret args =
      List.zipWith finalPlace (stackPass 0 0 0 args) (regPass stret.hidden 0 args) := by
  unfold implCall
  split
  · rfl
  · next h =>
    unfold argStackBytes wordSize at h
    rw [stackPass_none 0 (by omega) (by omega)]

/-- The two sides, in step: `hidden` registers are taken before the first
argument, and the callee's counters stop where the registers end. -/
theorem places_meet {hidden nCallI nCallF : Nat} {args : List ArgClass} {ni nf stk : Nat}
    (hI : nCallI = min nCallRegsI (hidden + ni + intArgs args))
    (hF : nCallF = min nCallRegsF (nf + fpArgs args))
    (hroom : hidden = 0 ∨ ni + intArgs args + hidden ≤ nCallRegsI) :
    List.Forall₂ Meets
      (prologueLoop nCallI nCallF (min nCallRegsI (hidden + ni)) (min nCallRegsF nf) stk args)
      (List.zipWith finalPlace (stackPass ni nf (stk * wordSize) args)
        (regPass (hidden + ni) nf args)) := by
  induction args generalizing ni nf stk with
  | nil => exact .nil
  | cons c args ih =>
    have hnext : ∀ ni' nf' stk', hidden + ni + intArgs (c :: args) = hidden + ni' + intArgs args →
        nf + fpArgs (c :: args) = nf' + fpArgs args →
        List.Forall₂ Meets
          (prologueLoop nCallI nCallF (min nCallRegsI (hidden + ni')) (min nCallRegsF nf') stk'
            args)
          (List.zipWith finalPlace (stackPass ni' nf' (stk' * wordSize) args)
            (regPass (hidden + ni') nf' args)) := by
      intro ni' nf' stk' hi hf
      exact ih (by rw [hI, hi]) (by rw [hF, hf]) (by omega)
    cases c with
    | int =>
      rw [intArgs_int] at hI hroom
      rw [prologueLoop, stackPass, regPass]
      have hstep := hnext (ni + 1) nf
      rw [intArgs_int, fpArgs_int] at hstep
      by_cases hreg : hidden + ni < nCallRegsI
      · rw [if_neg (by omega), if_neg (by omega), if_pos hreg, List.zipWith_cons_cons]
        refine .cons ?_ ?_
        · change min nCallRegsI (hidden + ni) = hidden + ni
          omega
        · have hmin : min nCallRegsI (hidden + ni) + 1 = min nCallRegsI (hidden + (ni + 1)) := by
            omega
          rw [hmin]
          exact hstep stk (by omega) rfl
      · rw [if_pos (by omega), if_pos (by omega), if_neg hreg, List.zipWith_cons_cons]
        refine .cons ?_ ?_
        · change (stk + 2) * wordSize = stk * wordSize + 2 * wordSize
          exact Nat.add_mul stk 2 wordSize
        · have hmin : min nCallRegsI (hidden + ni) = min nCallRegsI (hidden + (ni + 1)) := by
            omega
          have hoff : stk * wordSize + wordSize = (stk + 1) * wordSize :=
            (Nat.succ_mul stk wordSize).symm
          rw [hmin, hoff]
          exact hstep (stk + 1) (by omega) rfl
    | float =>
      rw [fpArgs_float] at hF
      rw [prologueLoop, stackPass, regPass]
      have hstep := hnext ni (nf + 1)
      rw [intArgs_float, fpArgs_float] at hstep
      by_cases hreg : nf < nCallRegsF
      · rw [if_neg (by omega), if_neg (by omega), if_pos hreg, List.zipWith_cons_cons]
        refine .cons ?_ ?_
        · change min nCallRegsF nf = nf
          omega
        · have hmin : min nCallRegsF nf + 1 = min nCallRegsF (nf + 1) := by omega
          rw [hmin]
          exact hstep stk rfl (by omega)
      · rw [if_pos (by omega), if_pos (by omega), if_neg hreg, List.zipWith_cons_cons]
        refine .cons ?_ ?_
        · change (stk + 2) * wordSize = stk * wordSize + 2 * wordSize
          exact Nat.add_mul stk 2 wordSize
        · have hmin : min nCallRegsF nf = min nCallRegsF (nf + 1) := by omega
          have hoff : stk * wordSize + wordSize = (stk + 1) * wordSize :=
            (Nat.succ_mul stk wordSize).symm
          rw [hmin, hoff]
          exact hstep (stk + 1) rfl (by omega)

/-- With the hidden pointer, the sixth integer argument is in no register and
is not put on the stack. -/
theorem sixth_nowhere {args : List ArgClass} {ni nf off : Nat} (hni : ni < nCallRegsI)
    (hargs : nCallRegsI ≤ ni + intArgs args) :
    CallerPlace.nowhere ∈
      List.zipWith finalPlace (stackPass ni nf off args) (regPass (1 + ni) nf args) := by
  induction args generalizing ni nf off with
  | nil =>
    rw [intArgs_nil] at hargs
    omega
  | cons c args ih =>
    cases c with
    | int =>
      rw [intArgs_int] at hargs
      rw [stackPass, regPass, if_neg (by omega), List.zipWith_cons_cons]
      by_cases hlast : 1 + ni < nCallRegsI
      · apply List.mem_cons_of_mem
        rw [Nat.add_assoc]
        exact ih (by omega) (by omega)
      · rw [if_neg hlast]
        exact List.mem_cons_self
    | float =>
      rw [intArgs_float] at hargs
      rw [stackPass, regPass]
      split
      · exact List.mem_cons_of_mem _ (ih hni hargs)
      · exact List.mem_cons_of_mem _ (ih hni hargs)

theorem forall₂_meets_nowhere {ps : List CalleePlace} {qs : List CallerPlace}
    (h : List.Forall₂ Meets ps qs) : CallerPlace.nowhere ∉ qs := by
  induction h with
  | nil => exact List.not_mem_nil
  | @cons p q ps qs hmeets _ ih =>
    rw [List.mem_cons, not_or]
    refine ⟨?_, ih⟩
    rintro rfl
    cases p <;> exact hmeets

/-- Caller and callee agree, if and only if the function does not return a
struct through memory or has fewer integer parameters than there are registers
for them. -/
theorem argsAgree_iff (f : FnTy) :
    ArgsAgree f ↔ ¬ (f.stret = .memcpy ∧ nCallRegsI ≤ intArgs f.params) := by
  unfold ArgsAgree saveCallRegs FnTy.allArgs implCallHidden
  rw [implCall_eq]
  by_cases hmem : f.stret = .memcpy
  · rw [hmem]
    change List.Forall₂ Meets
      (prologueLoop (min nCallRegsI (intArgs f.params + 1)) (min nCallRegsF (fpArgs f.params))
        0 0 0 (.int :: f.params))
      (.reg 0 :: List.zipWith finalPlace (stackPass 0 0 0 f.params) (regPass 1 0 f.params)) ↔ _
    rw [prologueLoop, if_neg (by unfold nCallRegsI; omega), List.forall₂_cons]
    constructor
    · rintro ⟨-, hall⟩ ⟨-, hints⟩
      refine forall₂_meets_nowhere hall ?_
      exact sixth_nowhere (by decide) (by rwa [Nat.zero_add])
    · intro hints
      have hfew : intArgs f.params < nCallRegsI := by simpa using hints
      refine ⟨rfl, ?_⟩
      exact @places_meet 1 _ _ f.params 0 0 0 (by omega) (by omega) (by omega)
  · have hhidden : f.stret.hidden = 0 := by
      cases hs : f.stret with
      | memcpy => exact absurd hs hmem
      | scalar => rfl
      | regs => rfl
    rw [hhidden, List.replicate_zero, List.replicate_zero, List.nil_append, List.nil_append]
    constructor
    · rintro - ⟨h, -⟩
      exact hmem h
    · intro _
      exact @places_meet 0 _ _ f.params 0 0 0 (by omega) (by omega) (.inl rfl)

/-- A function of six integers that returns a struct of 24 bytes. -/
theorem not_argsAgree_six : ¬ ∀ f : FnTy, ArgsAgree f := by
  intro h
  apply forall₂_meets_nowhere (h ⟨some 24, List.replicate 6 .int, false⟩)
  decide

end Ucc.Cc1
