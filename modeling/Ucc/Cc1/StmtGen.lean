/-
  Cc1/StmtGen.lean --- from statements to blocks.

  Source: gen_stmt_* of src/cc1/ops/stmt_*.c, src/cc1/out/ctrl.c,
  blk_terminate_condjmp in src/cc1/out/blk.c, impl_branch in
  src/cc1/out/x86_64.c, label_getblk in src/cc1/label.c, and the parts of
  out_func_prologue and out_func_epilogue in src/cc1/out/func.c that start and end
  the code of a function.

  Expressions are opaque: `gen_expr` puts an evaluation into the current block.  An
  expression whose value is known when it is generated branches without a
  condition.  `merge_preds`, `last_used_blk` and the scopes of variables serve the
  layout of the blocks and the stack only, and are not kept.  `goto *` is an extension
  that is not in the language here.
-/
import Mathlib.Tactic

set_option autoImplicit false

namespace Ucc.Cc1.Flow

/-! ## Statements -/

/-- An expression.  `const` is the value that it has as a `V_CONST_I` or
`V_CONST_F`. -/
structure Expr where
  id : Nat
  const : Option Int
  deriving DecidableEq, Repr

/-- What a `case`, a range of cases or `default` stands for. -/
inductive CaseLabel where
  | value (k : Int)
  | range (lo hi : Int)
  | default
  deriving DecidableEq, Repr

/-- `stmt`.  A label is the label that its name was resolved to; an `if` without
`else` has a `noop` there. -/
inductive Stmt where
  | expr (e : Expr)
  | noop
  | code (stmts : List Stmt)
  | if_ (e : Expr) (lhs rhs : Stmt)
  | while_ (e : Expr) (lhs : Stmt)
  | do_ (lhs : Stmt) (e : Expr)
  | for_ (init test inc : Option Expr) (lhs : Stmt)
  | switch (e : Expr) (lhs : Stmt)
  | case (l : CaseLabel) (lhs : Stmt)
  | break_
  | continue_
  | goto (lbl : Nat)
  | label (lbl : Nat) (lhs : Stmt)
  | return_ (e : Option Expr)

mutual
/-- The cases of the enclosing switch, in the order in which
`fold_stmt_and_add_to_curswitch` adds them. -/
def Stmt.cases : Stmt → List CaseLabel
  | .case l lhs => lhs.cases ++ [l]
  | .code stmts => casesOf stmts
  | .if_ _ lhs rhs => lhs.cases ++ rhs.cases
  | .while_ _ lhs | .do_ lhs _ | .for_ _ _ _ lhs | .label _ lhs => lhs.cases
  | .expr _ | .noop | .switch _ _ | .break_ | .continue_ | .goto _ | .return_ _ => []
def casesOf : List Stmt → List CaseLabel
  | [] => []
  | s :: stmts => s.cases ++ casesOf stmts
end

/-! ## Blocks -/

/-- What a conditional jump tests: an expression, or the expression of a switch
against a case. -/
inductive Test where
  | truth (e : Expr)
  | eq (k : Int) (e : Expr)
  | lt (e : Expr) (k : Int)
  | gt (e : Expr) (k : Int)
  deriving DecidableEq

/-- The expression that is tested. -/
def Test.expr : Test → Expr
  | .truth e | .eq _ e | .lt e _ | .gt e _ => e

/-- The result of a test, for a value of the expression. -/
def Test.holds : Test → Int → Bool
  | .truth _, v => v ≠ 0
  | .eq k _, v => k = v
  | .lt _ k, v => v < k
  | .gt _ k, v => v > k

/-- `blk->type` and its bits. -/
inductive BlkType where
  | uninit
  | terminal
  | nextBlock (next : Nat)
  | cond (t : Test) (ifTrue ifFalse : Nat)
  deriving DecidableEq

/-- `blk->desc`; the block of a label has its spelling. -/
inductive Desc where
  | label (lbl : Nat)
  | named (desc : String)
  deriving DecidableEq

/-- `out_blk`, with the evaluations that its instructions make. -/
structure OutBlk where
  desc : Desc
  evals : List Expr
  type : BlkType

/-- `out_ctx` -/
structure OutCtx where
  blk : Nat → OutBlk
  nblks : Nat
  currentBlk : Option Nat
  labelToBlk : Nat → Option Nat
  epilogueBlk : Nat
  /-- no assertion has failed -/
  ok : Bool

/-- `out_blk_new` -/
def outBlkNew (desc : Desc) (c : OutCtx) : Nat × OutCtx :=
  (c.nblks, { c with
    blk := Function.update c.blk c.nblks ⟨desc, [], .uninit⟩
    nblks := c.nblks + 1 })

/-- `out_current_blk` -/
def outCurrentBlk (b : Nat) (c : OutCtx) : OutCtx := { c with currentBlk := some b }

/-- Give the current block its type, if there is one. -/
def terminate (type : BlkType) (c : OutCtx) : OutCtx :=
  match c.currentBlk with
  | none => c
  | some b =>
      { c with
        ok := c.ok && (c.blk b).type == .uninit
        blk := Function.update c.blk b { c.blk b with type := type }
        currentBlk := none }

/-- `out_ctrl_transfer` -/
def outCtrlTransfer (next : Nat) (c : OutCtx) : OutCtx := terminate (.nextBlock next) c

/-- `out_ctrl_transfer_make_current` -/
def outCtrlTransferMakeCurrent (next : Nat) (c : OutCtx) : OutCtx :=
  outCurrentBlk next (outCtrlTransfer next c)

/-- `blk_terminate_condjmp` -/
def blkTerminateCondjmp (t : Test) (ifTrue ifFalse : Nat) (c : OutCtx) : OutCtx :=
  terminate (.cond t ifTrue ifFalse) c

/-- `impl_branch` -/
def implBranch (t : Test) (ifTrue ifFalse : Nat) (c : OutCtx) : OutCtx :=
  match t.expr.const with
  | some v => outCtrlTransfer (if t.holds v then ifTrue else ifFalse) c
  | none => blkTerminateCondjmp t ifTrue ifFalse c

/-- `out_ctrl_branch` -/
def outCtrlBranch (t : Test) (ifTrue ifFalse : Nat) (c : OutCtx) : OutCtx :=
  outCurrentBlk ifTrue (implBranch t ifTrue ifFalse c)

/-- `gen_expr`: nothing is put out where there is no current block. -/
def genExpr (e : Expr) (c : OutCtx) : OutCtx :=
  match c.currentBlk with
  | none => c
  | some b =>
      { c with blk := Function.update c.blk b { c.blk b with evals := (c.blk b).evals ++ [e] } }

/-- An expression that may be missing. -/
def genOptional (e : Option Expr) (c : OutCtx) : OutCtx :=
  match e with
  | none => c
  | some e => genExpr e c

/-- `label_getblk` -/
def labelGetblk (lbl : Nat) (c : OutCtx) : Nat × OutCtx :=
  match c.labelToBlk lbl with
  | some b => (b, c)
  | none =>
      let (b, c) := outBlkNew (.label lbl) c
      (b, { c with labelToBlk := Function.update c.labelToBlk lbl (some b) })

/-! ## Generating statements -/

/-- The blocks that enclosing statements have made for `break`, `continue` and the
cases of a switch. -/
structure Targets where
  blkBreak : Option Nat
  blkContinue : Option Nat
  caseBlk : CaseLabel → Option Nat

/-- A jump to the block of an enclosing statement; outside of such a statement it
has been refused before. -/
def transferTo (target : Option Nat) (c : OutCtx) : OutCtx :=
  match target with
  | some b => outCtrlTransfer b c
  | none => { c with ok := false }

section Gen

/- `blk_is_empty`, which depends on the instructions that evaluations are made of, on
comments and on debug locations. -/
variable (isEmpty : OutCtx → Nat → Bool)

/-- `new_block_for_scope` -/
def newBlockForScope (desc : String) (c : OutCtx) : OutCtx :=
  match c.currentBlk with
  | none => c
  | some b =>
      if isEmpty c b then c
      else
        let (next, c) := outBlkNew (.named desc) c
        outCtrlTransferMakeCurrent next c

/-- The jump of a switch to one of its cases, and the block for the other values. -/
def genCase (e : Expr) (l : CaseLabel) (c : OutCtx) : Nat × OutCtx :=
  let (cancel, c) := outBlkNew (.named "case_next") c
  let (blk, c) := outBlkNew (.named "case") c
  let c := match l with
    | .range lo hi =>
        let (test2, c) := outBlkNew (.named "range_true") c
        let c := outCtrlBranch (.lt e lo) cancel test2 c
        let c := outCurrentBlk test2 c
        outCtrlBranch (.gt e hi) cancel blk c
    | .value k => outCtrlBranch (.eq k e) blk cancel c
    | .default => c
  (blk, outCurrentBlk cancel c)

/-- The loop of `gen_stmt_switch` over the cases, with `case_blk` of each. -/
def genCases (e : Expr) : List CaseLabel → (CaseLabel → Option Nat) → OutCtx →
    (CaseLabel → Option Nat) × OutCtx
  | [], blks, c => (blks, c)
  | l :: ls, blks, c =>
      let (blk, c) := genCase e l c
      genCases e ls (Function.update blks l (some blk)) c

/-- The jump of a switch to its `default`, or else to its end. -/
def genDefault (hasDefault : Bool) (fin : Nat) (blks : CaseLabel → Option Nat) (c : OutCtx) :
    (CaseLabel → Option Nat) × OutCtx :=
  if hasDefault then
    let (blk, c) := outBlkNew (.named "default") c
    (Function.update blks .default (some blk), outCtrlTransfer blk c)
  else (blks, outCtrlTransfer fin c)

mutual
/-- `gen_stmt` -/
def genStmt : Stmt → Targets → OutCtx → OutCtx
  | .expr e, _, c => genExpr e c
  | .noop, _, c => c
  | .code stmts, t, c =>
      let c := newBlockForScope isEmpty "scope_enter" c
      let c := genStmts stmts t c
      newBlockForScope isEmpty "scope_leave" c
  | .if_ e lhs rhs, t, c =>
      let (blkTrue, c) := outBlkNew (.named "if_true") c
      let (blkFalse, c) := outBlkNew (.named "if_false") c
      let (blkFi, c) := outBlkNew (.named "fi") c
      let c := genExpr e (newBlockForScope isEmpty "scope_enter" c)
      let c := outCtrlBranch (.truth e) blkTrue blkFalse c
      let c := genStmt lhs t (outCurrentBlk blkTrue c)
      let c := outCtrlTransfer blkFi c
      let c := genStmt rhs t (outCurrentBlk blkFalse c)
      let c := outCtrlTransfer blkFi c
      newBlockForScope isEmpty "scope_leave" (outCurrentBlk blkFi c)
  | .while_ e lhs, t, c =>
      let (blkBody, c) := outBlkNew (.named "while_body") c
      let (blkCont, c) := outBlkNew (.named "while_cont") c
      let (blkBreak, c) := outBlkNew (.named "while_break") c
      let c := outCurrentBlk blkCont (outCtrlTransfer blkCont c)
      let c := genExpr e (newBlockForScope isEmpty "scope_enter" c)
      let c := outCtrlBranch (.truth e) blkBody blkBreak c
      let c := genStmt lhs { t with blkBreak := some blkBreak, blkContinue := some blkCont }
        (outCurrentBlk blkBody c)
      let c := outCtrlTransfer blkCont c
      newBlockForScope isEmpty "scope_leave" (outCurrentBlk blkBreak c)
  | .do_ lhs e, t, c =>
      let (begin, c) := outBlkNew (.named "do_begin") c
      let (blkCont, c) := outBlkNew (.named "do_test") c
      let (blkBreak, c) := outBlkNew (.named "do_end") c
      let c := outCurrentBlk begin (outCtrlTransfer begin c)
      let c := genStmt lhs { t with blkBreak := some blkBreak, blkContinue := some blkCont } c
      let c := outCurrentBlk blkCont (outCtrlTransfer blkCont c)
      let c := outCtrlBranch (.truth e) begin blkBreak (genExpr e c)
      outCurrentBlk blkBreak c
  | .for_ init test inc lhs, t, c =>
      let (blkTest, c) := outBlkNew (.named "for_test") c
      let (blkBody, c) := outBlkNew (.named "for_body") c
      let (blkEnd, c) := outBlkNew (.named "for_end") c
      let (blkInc, c) := outBlkNew (.named "for_inc") c
      let c := genOptional init (newBlockForScope isEmpty "scope_enter" c)
      let c := outCtrlTransferMakeCurrent blkTest c
      let c := match test with
        | some e => outCtrlBranch (.truth e) blkBody blkEnd (genExpr e c)
        | none => outCtrlTransfer blkBody c
      let c := genStmt lhs { t with blkBreak := some blkEnd, blkContinue := some blkInc }
        (outCurrentBlk blkBody c)
      let c := outCurrentBlk blkInc (outCtrlTransfer blkInc c)
      let c := outCtrlTransfer blkTest (genOptional inc c)
      newBlockForScope isEmpty "scope_leave" (outCurrentBlk blkEnd c)
  | .switch e lhs, t, c =>
      let (blkSwitchEnd, c) := outBlkNew (.named "switch_fin") c
      let c := genExpr e (newBlockForScope isEmpty "scope_enter" c)
      let (blks, c) := genCases e (lhs.cases.filter (· ≠ .default)) (fun _ => none) c
      let (blks, c) := genDefault (lhs.cases.contains .default) blkSwitchEnd blks c
      let (body, c) := outBlkNew (.named "switch_body") c
      let c := genStmt lhs { t with blkBreak := some blkSwitchEnd, caseBlk := blks }
        (outCurrentBlk body c)
      let c := outCurrentBlk blkSwitchEnd (outCtrlTransfer blkSwitchEnd c)
      newBlockForScope isEmpty "scope_leave" c
  | .case l lhs, t, c =>
      match t.caseBlk l with
      | some b => genStmt lhs t (outCtrlTransferMakeCurrent b c)
      | none => { c with ok := false }
  | .break_, t, c => transferTo t.blkBreak c
  | .continue_, t, c => transferTo t.blkContinue c
  | .goto lbl, _, c =>
      let (target, c) := labelGetblk lbl c
      outCtrlTransfer target c
  | .label lbl lhs, t, c =>
      let (thisblk, c) := labelGetblk lbl c
      genStmt lhs t (outCtrlTransferMakeCurrent thisblk c)
  | .return_ e, _, c =>
      let c := genOptional e c
      { outCtrlTransfer c.epilogueBlk c with currentBlk := none }
/-- The statements of a block. -/
def genStmts : List Stmt → Targets → OutCtx → OutCtx
  | [], _, c => c
  | s :: stmts, t, c => genStmts stmts t (genStmt s t c)
end

/-- At the start of the body: `postprologue_blk` is 0 and `epilogue_blk` is 1. -/
def OutCtx.init : OutCtx where
  blk := fun b => ⟨.named (if b = 0 then "postprologue" else "epilogue"), [], .uninit⟩
  nblks := 2
  currentBlk := some 0
  labelToBlk := fun _ => none
  epilogueBlk := 1
  ok := true

/-- The end of a function, in `out_func_epilogue`. -/
def outFuncEpilogue (c : OutCtx) : OutCtx :=
  let c := match c.currentBlk with
    | none => c
    | some b => if (c.blk b).type = .uninit then outCtrlTransfer c.epilogueBlk c else c
  terminate .terminal (outCurrentBlk c.epilogueBlk c)

/-- No loop and no switch around the body. -/
def noTargets : Targets := ⟨none, none, fun _ => none⟩

/-- The blocks of a function. -/
def genFunc (body : Stmt) : OutCtx := outFuncEpilogue (genStmt isEmpty body noTargets .init)

end Gen

end Ucc.Cc1.Flow
