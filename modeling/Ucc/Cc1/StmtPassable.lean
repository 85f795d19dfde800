/-
  Cc1/StmtPassable.lean --- whether control can pass a statement.

  Source: fold_passable, fold_func_is_passable and fold_global_func in src/cc1/fold.c,
  the functions named `*_passable` in src/cc1/ops, fold_code_escapable in
  src/cc1/ops/stmt_for.c, stmt_walk and stmt_walk_first_return in src/cc1/stmt.c.

  The statements, and what is left to do after one, are those of the machine that stands
  for the C standard.  Expressions have no statements in them.  A `goto *e` is an
  expression that does not come back: where it jumps to, another execution starts.

  The analysis looks at each statement from its start.  What it finds not to be passable
  ends in a jump (`jumpsOff`).  An execution can still come to the end of such a statement
  by a jump that is not foreseen: behind what stops it, or out of a `do` loop.
-/
import Ucc.Cc1.StmtSim

set_option autoImplicit false

namespace Ucc.Cc1.Flow

open Ucc.Lib

/-! ## The analysis -/

mutual
/-- `fold_code_escapable`: a `goto` is there, or a `break` that is in no switch;
`depth` is `switch_depth`. -/
def Stmt.escapable (depth : Nat) : Stmt → Bool
  | .break_ => depth == 0
  | .goto _ => true
  | .switch _ lhs => lhs.escapable (depth + 1)
  | .code stmts => escapableAny depth stmts
  | .if_ _ lhs rhs => lhs.escapable depth || rhs.escapable depth
  | .while_ _ lhs | .do_ lhs _ | .for_ _ _ _ lhs | .case _ lhs | .label _ lhs =>
      lhs.escapable depth
  | .expr _ | .noop | .continue_ | .return_ _ => false
def escapableAny (depth : Nat) : List Stmt → Bool
  | [] => false
  | s :: stmts => s.escapable depth || escapableAny depth stmts
end

/-- What is asked of expressions: `const_expr_and_non_zero`, and whether an expression
that is a statement is a call of a function that does not return. -/
structure ExprFacts where
  nonZero : Expr → Bool
  noreturn : Expr → Bool

/-- A `for` has no condition, or one that is constant and not zero. -/
def ExprFacts.endless (F : ExprFacts) (test : Option Expr) : Bool := test.all F.nonZero

mutual
/-- The functions that `f_passable` points to, but for the one of a `goto`. -/
def Stmt.passableWith (F : ExprFacts) (goto : Nat → Bool) : Stmt → Bool
  | .expr e => !F.noreturn e
  | .noop => true
  | .code stmts => passableAll F goto stmts
  | .if_ _ lhs rhs => rhs.passableWith F goto || lhs.passableWith F goto
  | .while_ e lhs => if F.nonZero e then lhs.escapable 0 else true
  | .do_ lhs e => if lhs.passableWith F goto then !F.nonZero e else false
  | .for_ _ test _ lhs => if F.endless test then lhs.escapable 0 else true
  | .switch _ _ => true
  | .case _ lhs | .label _ lhs => lhs.passableWith F goto
  | .break_ | .continue_ | .return_ _ => false
  | .goto lbl => goto lbl
/-- `code_passable` -/
def passableAll (F : ExprFacts) (goto : Nat → Bool) : List Stmt → Bool
  | [] => true
  | s :: stmts => if s.passableWith F goto then passableAll F goto stmts else false
end

/-- `goto_passable` in a function with the given body; `checking` are the labels whose
`doing_passable_check` is set.  It takes one turn for each label. -/
def gotoPassable (F : ExprFacts) (body : Stmt) : Nat → List Nat → Nat → Bool
  | 0, _, _ => false
  | n + 1, checking, lbl =>
      match findLabel lbl body .stop with
      | none => true
      | some (next, _) =>
          -- "infinite loop"
          if lbl ∈ checking then false
          else next.passableWith F (gotoPassable F body n (lbl :: checking))

/-- What `fold_passable` depends on: the function, for the labels. -/
structure PassableCtx extends ExprFacts where
  body : Stmt

/-- `fold_passable` -/
def PassableCtx.foldPassable (P : PassableCtx) (s : Stmt) : Bool :=
  s.passableWith P.toExprFacts
    (gotoPassable P.toExprFacts P.body (P.body.labels.length + 1) [])

/-! ### The turns are enough -/

mutual
theorem isSome_findLabel (lbl : Nat) (s : Stmt) (k : Cont) :
    (findLabel lbl s k).isSome = decide (lbl ∈ s.labels) := by
  cases s with
  | expr _ | noop | break_ | continue_ | goto _ | return_ _ => rfl
  | code stmts => exact isSome_findLabels lbl stmts k
  | if_ e lhs rhs =>
    rw [findLabel, Option.isSome_or, isSome_findLabel lbl lhs, isSome_findLabel lbl rhs]
    simp [Stmt.labels]
  | while_ _ lhs | do_ lhs _ | for_ _ _ _ lhs | switch _ lhs | case _ lhs =>
    exact isSome_findLabel lbl lhs _
  | label l lhs =>
    rw [findLabel]
    by_cases heq : l = lbl
    · simp [Stmt.labels, heq]
    · rw [if_neg heq, isSome_findLabel lbl lhs]
      simp [Stmt.labels, Ne.symm heq]
theorem isSome_findLabels (lbl : Nat) (stmts : List Stmt) (k : Cont) :
    (findLabels lbl stmts k).isSome = decide (lbl ∈ labelsOf stmts) := by
  cases stmts with
  | nil => rfl
  | cons s stmts =>
    rw [findLabels, Option.isSome_or, isSome_findLabel lbl s, isSome_findLabels lbl stmts]
    simp [labelsOf]
end

/-! ## Functions -/

mutual
/-- `stmt_walk_first_return` finds one. -/
def Stmt.returns : Stmt → Bool
  | .return_ _ => true
  | .code stmts => returnsAny stmts
  | .if_ _ lhs rhs => lhs.returns || rhs.returns
  | .while_ _ lhs | .do_ lhs _ | .for_ _ _ _ lhs | .switch _ lhs | .case _ lhs | .label _ lhs =>
      lhs.returns
  | .expr _ | .noop | .break_ | .continue_ | .goto _ => false
def returnsAny : List Stmt → Bool
  | [] => false
  | s :: stmts => s.returns || returnsAny stmts
end

/-- The declaration of a function with a body, and the options that are read. -/
structure FuncDecl extends ExprFacts where
  spel : String
  stmts : List Stmt
  attrNoreturn : Bool
  retVoid : Bool
  /-- `cc1_std >= STD_C99` -/
  c99 : Bool
  freestanding : Bool

/-- Where its statements stand. -/
def FuncDecl.ctx (d : FuncDecl) : PassableCtx := ⟨d.toExprFacts, .code d.stmts⟩

/-- `DECL_IS_HOSTED_MAIN` -/
def FuncDecl.isHostedMain (d : FuncDecl) : Bool := !d.freestanding && d.spel == "main"

/-- `warn_passable_func` -/
def warnPassableFunc (d : FuncDecl) : String :=
  "control reaches end of non-void function " ++ d.spel

/-- `fold_func_is_passable`, with its warnings. -/
def foldFuncIsPassable (d : FuncDecl) (warn : Bool) : Bool × List String :=
  let passable := d.ctx.foldPassable (.code d.stmts)
  if d.attrNoreturn then
    let nonVoid := if d.retVoid then []
      else ["function \"" ++ d.spel ++ "\" marked no-return has a non-void return value"]
    let returns := if passable then
        ["function \"" ++ d.spel ++ "\" marked no-return implicitly returns"]
      else if returnsAny d.stmts then
        ["function \"" ++ d.spel ++ "\" marked no-return returns"]
      else []
    (passable, nonVoid ++ returns)
  else if d.retVoid then (false, [])
  else (passable, if passable && warn then [warnPassableFunc d] else [])

/-- `return 0`, at the end of `main` -/
def zeroReturn : Stmt := .return_ (some ⟨0, some 0⟩)

/-- `fold_global_func`: the statements of the function, and the warnings. -/
def foldGlobalFunc (d : FuncDecl) : List Stmt × List String :=
  let (passable, warnings) := foldFuncIsPassable d false
  if passable then
    if d.c99 && d.isHostedMain then (d.stmts ++ [zeroReturn], warnings)
    else if d.retVoid then (d.stmts, warnings)
    else (d.stmts, warnings ++ [warnPassableFunc d])
  else (d.stmts, warnings)

/-! ## The executions of a statement -/

/-- How a statement is entered: at its start, or by a jump to a label or a case in it. -/
inductive Entry where
  | start
  | label (lbl : Nat)
  | case (l : CaseLabel)

/-- Where an execution of a statement is: before it, in it, or somewhere else. -/
inductive Spot where
  | enter (e : Entry)
  | within (st : State)
  | left

/-- It has come to the end of the statement. -/
def Spot.fellOff : Spot := .within (.done .stop)

/-- A jump that may leave the statement. -/
def jumpTo : Option State → Move Spot Expr Int
  | some st => .tau (.within st)
  | none => .tau .left

/-- A step of the abstract machine. -/
def inner : Move State Expr Int → Move Spot Expr Int
  | .tau st => .tau (.within st)
  | .ask e f => .ask e fun v => .within (f v)
  | .halt => .halt
  | .stuck => .stuck

/-- The abstract machine in a statement. -/
def executeIn (root : Stmt) : Spot → Move Spot Expr Int
  | .enter .start => .tau (.within (.exec root .stop))
  | .enter (.label lbl) => jumpTo ((findLabel lbl root .stop).map fun (s, k) => .exec s k)
  | .enter (.case l) => jumpTo ((findCase (· = l) root .stop).map fun (s, k) => .exec s k)
  | .within (.exec .break_ k) => jumpTo (k.afterBreak.map .done)
  | .within (.exec .continue_ k) => jumpTo (k.afterContinue.map .done)
  | .within (.exec (.goto lbl) _) =>
      jumpTo ((findLabel lbl root .stop).map fun (s, k) => .exec s k)
  | .within (.exec (.return_ (some e)) _) => .ask e fun _ => .left
  | .within (.exec (.return_ none) _) => .tau .left
  | .within st => inner (execute root st)
  | .left => .halt

/-- The answers: a constant has its value, what is taken for not zero is not zero, and a
function that does not return does not. -/
structure ExprFacts.Right (F : ExprFacts) (e : Expr) (v : Int) : Prop where
  allows : e.Allows v
  nonZero : F.nonZero e = true → v ≠ 0
  returns : F.noreturn e = false

/-- The places that an execution of a statement comes to, if `ok` holds of each place
before its step. -/
inductive Comes (F : ExprFacts) (root : Stmt) (ok : Spot → Prop) : Spot → Prop
  | enter (e : Entry) : Comes F root ok (.enter e)
  | tau {p q : Spot} (h : Comes F root ok p) (hok : ok p) (hm : executeIn root p = .tau q) :
      Comes F root ok q
  | ask {p : Spot} {e : Expr} {f : Int → Spot} {v : Int} (h : Comes F root ok p) (hok : ok p)
      (hm : executeIn root p = .ask e f) (hv : F.Right e v) : Comes F root ok (f v)

/-! ## Jumps that the analysis does not see -/

mutual
/-- A statement always ends in a jump, or not at all, if it is executed from its start
and no `break` or `continue` is taken for its `do` loops. -/
def Stmt.jumpsOff (F : ExprFacts) : Stmt → Bool
  | .break_ | .continue_ | .goto _ | .return_ _ => true
  | .noop | .switch _ _ => false
  | .expr e => F.noreturn e
  | .code stmts => jumpsOffAny F stmts
  | .if_ _ lhs rhs => lhs.jumpsOff F && rhs.jumpsOff F
  | .while_ e lhs => F.nonZero e && !lhs.escapable 0
  | .do_ lhs e => lhs.jumpsOff F || F.nonZero e
  | .for_ _ test _ lhs => F.endless test && !lhs.escapable 0
  | .case _ lhs | .label _ lhs => lhs.jumpsOff F
def jumpsOffAny (F : ExprFacts) : List Stmt → Bool
  | [] => false
  | s :: stmts => s.jumpsOff F || jumpsOffAny F stmts
end

mutual
theorem jumpsOff_of_passableWith {F : ExprFacts} {goto : Nat → Bool} (s : Stmt)
    (h : s.passableWith F goto = false) : s.jumpsOff F = true := by
  cases s with
  | break_ | continue_ | goto _ | return_ _ => rfl
  | noop | switch _ _ => cases h
  | expr e => simpa [Stmt.passableWith, Stmt.jumpsOff] using h
  | code stmts => exact jumpsOffAny_of_passableAll stmts h
  | if_ e lhs rhs =>
    rw [Stmt.passableWith, Bool.or_eq_false_iff] at h
    rw [Stmt.jumpsOff, jumpsOff_of_passableWith lhs h.2, jumpsOff_of_passableWith rhs h.1]
    rfl
  | while_ e lhs =>
    rw [Stmt.passableWith] at h
    split at h <;> simp_all [Stmt.jumpsOff]
  | for_ init test inc lhs =>
    rw [Stmt.passableWith] at h
    split at h <;> simp_all [Stmt.jumpsOff]
  | do_ lhs e =>
    rw [Stmt.passableWith] at h
    split at h
    · simp_all [Stmt.jumpsOff]
    · rename_i hlhs
      rw [Stmt.jumpsOff, jumpsOff_of_passableWith lhs (Bool.eq_false_iff.mpr hlhs), Bool.true_or]
  | case _ lhs | label _ lhs => exact jumpsOff_of_passableWith lhs h
theorem jumpsOffAny_of_passableAll {F : ExprFacts} {goto : Nat → Bool} (stmts : List Stmt)
    (h : passableAll F goto stmts = false) : jumpsOffAny F stmts = true := by
  cases stmts with
  | nil => cases h
  | cons s stmts =>
    rw [passableAll] at h
    split at h
    · rw [jumpsOffAny, jumpsOffAny_of_passableAll stmts h, Bool.or_true]
    · rename_i hs
      rw [jumpsOffAny, jumpsOff_of_passableWith s (Bool.eq_false_iff.mpr hs), Bool.true_or]
end

/-- The analysis finds no other statement not to be passable. -/
theorem PassableCtx.jumpsOff {P : PassableCtx} {s : Stmt} (h : P.foldPassable s = false) :
    s.jumpsOff P.toExprFacts = true :=
  jumpsOff_of_passableWith s h

theorem jumpsOffAny_iff {F : ExprFacts} {stmts : List Stmt} :
    jumpsOffAny F stmts = true ↔ ∃ s ∈ stmts, s.jumpsOff F = true := by
  induction stmts with
  | nil => simp [jumpsOffAny]
  | cons s stmts ih => rw [jumpsOffAny, Bool.or_eq_true, ih, List.exists_mem_cons_iff]

/-- A loop whose condition is constant and not zero ends in a jump if none leaves it. -/
theorem jumpsOff_loop {nonZero escapable : Bool} :
    (nonZero && !escapable) = true ↔ nonZero = true ∧ escapable = false := by
  rw [Bool.and_eq_true, Bool.not_eq_true']

/-- The `do` loop that a `break` leaves, if it is one. -/
def Cont.brokenDo : Cont → Option (Stmt × Expr)
  | .seq _ k => k.brokenDo
  | .doBody lhs e _ => some (lhs, e)
  | .stop | .whileBody _ _ _ | .forBody _ _ _ _ | .forTest _ _ _ _ | .switchBody _ => none

/-- The `do` loop that a `continue` goes on with, if it is one. -/
def Cont.continuedDo : Cont → Option (Stmt × Expr)
  | .seq _ k | .switchBody k => k.continuedDo
  | .doBody lhs e _ => some (lhs, e)
  | .stop | .whileBody _ _ _ | .forBody _ _ _ _ | .forTest _ _ _ _ => none

mutual
/-- A jump into a statement that ends in one lands where it still does; `hit` tells where
the target is.  In a block, a statement ends in a jump that comes after the one with the
target, or that one does, and the jump lands in it where it does. -/
def ExprFacts.landsShut (F : ExprFacts) (hit : Stmt → Bool) : Stmt → Bool
  | .code stmts => F.landsShutIn hit stmts
  | .if_ _ lhs rhs => if hit lhs then F.landsShut hit lhs else F.landsShut hit rhs
  | .do_ lhs e => F.nonZero e || F.landsShut hit lhs
  | .case _ lhs | .label _ lhs => !hit lhs || F.landsShut hit lhs
  | .while_ _ _ | .for_ _ _ _ _ | .switch _ _ | .expr _ | .noop | .break_ | .continue_ | .goto _
  | .return_ _ => true
def ExprFacts.landsShutIn (F : ExprFacts) (hit : Stmt → Bool) : List Stmt → Bool
  | [] => true
  | s :: stmts =>
      if hit s then jumpsOffAny F stmts || (s.jumpsOff F && F.landsShut hit s)
      else F.landsShutIn hit stmts
end

/-- A label is in a statement. -/
def hasLabel (lbl : Nat) (s : Stmt) : Bool := lbl ∈ s.labels

/-- A case is in a statement, and in no switch there. -/
def hasCase (l : CaseLabel) (s : Stmt) : Bool := l ∈ s.cases

/-- What is asked of a place before its step.  A jump to a label or a case, but for those
of a switch, lands where a statement that ends in a jump still does.  A `do` loop that a
`break` leaves has a body that does not, and no condition that is constant and not zero;
one that a `continue` goes on with has such a condition, or such a body. -/
def ExprFacts.Foreseen (F : ExprFacts) (root : Stmt) : Spot → Prop
  | .enter (.label lbl) => F.landsShut (hasLabel lbl) root = true
  | .enter (.case l) => F.landsShut (hasCase l) root = true
  | .within (.exec .break_ k) =>
      ∀ lhs e, k.brokenDo = some (lhs, e) → lhs.jumpsOff F = false ∧ F.nonZero e = false
  | .within (.exec .continue_ k) =>
      ∀ lhs e, k.continuedDo = some (lhs, e) → lhs.jumpsOff F = false ∨ F.nonZero e = true
  | .within (.exec (.goto lbl) _) => F.landsShut (hasLabel lbl) root = true
  | _ => True

end Ucc.Cc1.Flow
