/-
  Cc1/StmtMachine.lean --- what the statements of a function do, and what its
  blocks do.

  The first machine is the one of the C standard: it executes a statement with what
  is left to do behind it.  The second walks through the blocks.  Both ask for the
  value of each expression they evaluate; an expression with a known value has only
  that one.
-/
import Ucc.Lib.Asking
import Ucc.Cc1.StmtGen

set_option autoImplicit false

namespace Ucc.Cc1.Flow

open Ucc.Lib

/-- The values an evaluation can have. -/
def Expr.Allows (e : Expr) (v : Int) : Prop := ∀ k ∈ e.const, v = k

/-! ## The abstract machine -/

/-- What is left to do after a statement. -/
inductive Cont where
  /-- the end of the function -/
  | stop
  | seq (stmts : List Stmt) (k : Cont)
  /-- in the body of a loop -/
  | whileBody (e : Expr) (lhs : Stmt) (k : Cont)
  | doBody (lhs : Stmt) (e : Expr) (k : Cont)
  | forBody (test inc : Option Expr) (lhs : Stmt) (k : Cont)
  /-- in front of the test of a loop -/
  | forTest (test inc : Option Expr) (lhs : Stmt) (k : Cont)
  /-- in the body of a switch -/
  | switchBody (k : Cont)

/-- What is left to do after a `break`. -/
def Cont.afterBreak : Cont → Option Cont
  | .seq _ k => k.afterBreak
  | .whileBody _ _ k | .doBody _ _ k | .forBody _ _ _ k | .switchBody k => some k
  | .forTest _ _ _ _ | .stop => none

/-- What is left to do after a `continue`. -/
def Cont.afterContinue : Cont → Option Cont
  | .seq _ k | .switchBody k => k.afterContinue
  | .whileBody e lhs k => some (.whileBody e lhs k)
  | .doBody lhs e k => some (.doBody lhs e k)
  | .forBody test inc lhs k => some (.forBody test inc lhs k)
  | .forTest _ _ _ _ | .stop => none

mutual
/-- The statement behind a label, with what is left to do after it. -/
def findLabel (lbl : Nat) : Stmt → Cont → Option (Stmt × Cont)
  | .label l lhs, k => if l = lbl then some (lhs, k) else findLabel lbl lhs k
  | .case _ lhs, k => findLabel lbl lhs k
  | .code stmts, k => findLabels lbl stmts k
  | .if_ _ lhs rhs, k => (findLabel lbl lhs k).or (findLabel lbl rhs k)
  | .while_ e lhs, k => findLabel lbl lhs (.whileBody e lhs k)
  | .do_ lhs e, k => findLabel lbl lhs (.doBody lhs e k)
  | .for_ _ test inc lhs, k => findLabel lbl lhs (.forBody test inc lhs k)
  | .switch _ lhs, k => findLabel lbl lhs (.switchBody k)
  | .expr _, _ | .noop, _ | .break_, _ | .continue_, _ | .goto _, _ | .return_ _, _ => none
def findLabels (lbl : Nat) : List Stmt → Cont → Option (Stmt × Cont)
  | [], _ => none
  | s :: stmts, k => (findLabel lbl s (.seq stmts k)).or (findLabels lbl stmts k)
end

/-- A case stands for a value. -/
def CaseLabel.covers : CaseLabel → Int → Bool
  | .value k, v => k = v
  | .range lo hi, v => lo ≤ v ∧ v ≤ hi
  | .default, _ => false

mutual
/-- The statement behind a case of the enclosing switch. -/
def findCase (p : CaseLabel → Bool) : Stmt → Cont → Option (Stmt × Cont)
  | .case l lhs, k => if p l then some (lhs, k) else findCase p lhs k
  | .label _ lhs, k => findCase p lhs k
  | .code stmts, k => findCases p stmts k
  | .if_ _ lhs rhs, k => (findCase p lhs k).or (findCase p rhs k)
  | .while_ e lhs, k => findCase p lhs (.whileBody e lhs k)
  | .do_ lhs e, k => findCase p lhs (.doBody lhs e k)
  | .for_ _ test inc lhs, k => findCase p lhs (.forBody test inc lhs k)
  | .expr _, _ | .noop, _ | .switch _ _, _ | .break_, _ | .continue_, _ | .goto _, _
  | .return_ _, _ => none
def findCases (p : CaseLabel → Bool) : List Stmt → Cont → Option (Stmt × Cont)
  | [], _ => none
  | s :: stmts, k => (findCase p s (.seq stmts k)).or (findCases p stmts k)
end

/-- A state of the abstract machine. -/
inductive State where
  | exec (s : Stmt) (k : Cont)
  | done (k : Cont)

/-- Where a switch goes on with a value. -/
def enterSwitch (v : Int) (lhs : Stmt) (k : Cont) : State :=
  match (findCase (·.covers v) lhs (.switchBody k)).or
      (findCase (· = .default) lhs (.switchBody k)) with
  | some (s, k') => .exec s k'
  | none => .done k

/-- Go on with `s`, if there is such a state. -/
def goOn : Option State → Move State Expr Int
  | some s => .tau s
  | none => .stuck

/-- The abstract machine in the function with the given body. -/
def execute (body : Stmt) : State → Move State Expr Int
  | .exec s k =>
      match s with
      | .expr e => .ask e fun _ => .done k
      | .noop => .tau (.done k)
      | .code stmts => .tau (.done (.seq stmts k))
      | .if_ e lhs rhs => .ask e fun v => .exec (if v ≠ 0 then lhs else rhs) k
      | .while_ e lhs => .tau (.done (.whileBody e lhs k))
      | .do_ lhs e => .tau (.exec lhs (.doBody lhs e k))
      | .for_ init test inc lhs =>
          match init with
          | some e => .ask e fun _ => .done (.forTest test inc lhs k)
          | none => .tau (.done (.forTest test inc lhs k))
      | .switch e lhs => .ask e fun v => enterSwitch v lhs k
      | .case _ lhs => .tau (.exec lhs k)
      | .break_ => goOn (k.afterBreak.map .done)
      | .continue_ => goOn (k.afterContinue.map .done)
      | .goto lbl => goOn ((findLabel lbl body .stop).map fun (s, k) => .exec s k)
      | .label _ lhs => .tau (.exec lhs k)
      | .return_ e =>
          match e with
          | some e => .ask e fun _ => .done .stop
          | none => .tau (.done .stop)
  | .done k =>
      match k with
      | .stop => .halt
      | .seq [] k => .tau (.done k)
      | .seq (s :: stmts) k => .tau (.exec s (.seq stmts k))
      | .whileBody e lhs k =>
          .ask e fun v => if v ≠ 0 then .exec lhs (.whileBody e lhs k) else .done k
      | .doBody lhs e k =>
          .ask e fun v => if v ≠ 0 then .exec lhs (.doBody lhs e k) else .done k
      | .forTest test inc lhs k =>
          match test with
          | some e =>
              .ask e fun v => if v ≠ 0 then .exec lhs (.forBody test inc lhs k) else .done k
          | none => .tau (.exec lhs (.forBody test inc lhs k))
      | .forBody test inc lhs k =>
          match inc with
          | some e => .ask e fun _ => .done (.forTest test inc lhs k)
          | none => .tau (.done (.forTest test inc lhs k))
      | .switchBody k => .tau (.done k)

/-! ## The walk through the blocks -/

/-- A place in a block, and the latest value of each expression. -/
structure Place where
  blk : Nat
  at_ : Nat
  val : Expr → Int

/-- The walk through a graph of blocks. -/
def walk (g : Nat → OutBlk) (p : Place) : Move Place Expr Int :=
  match (g p.blk).evals[p.at_]? with
  | some e => .ask e fun v => ⟨p.blk, p.at_ + 1, Function.update p.val e v⟩
  | none =>
      match (g p.blk).type with
      | .nextBlock next => .tau ⟨next, 0, p.val⟩
      | .cond t ifTrue ifFalse =>
          .tau ⟨if t.holds (p.val t.expr) then ifTrue else ifFalse, 0, p.val⟩
      | .terminal => .halt
      | .uninit => .stuck

/-! ## Functions -/

/-- Two cases that no value belongs to at once, and that are not both `default`. -/
def CaseLabel.Apart (l l' : CaseLabel) : Prop :=
  l ≠ l' ∧ ∀ v, ¬(l.covers v = true ∧ l'.covers v = true)

mutual
/-- The labels that a statement defines. -/
def Stmt.labels : Stmt → List Nat
  | .label lbl lhs => lbl :: lhs.labels
  | .code stmts => labelsOf stmts
  | .if_ _ lhs rhs => lhs.labels ++ rhs.labels
  | .while_ _ lhs | .do_ lhs _ | .for_ _ _ _ lhs | .switch _ lhs | .case _ lhs => lhs.labels
  | .expr _ | .noop | .break_ | .continue_ | .goto _ | .return_ _ => []
def labelsOf : List Stmt → List Nat
  | [] => []
  | s :: stmts => s.labels ++ labelsOf stmts
end

/-- What may stand in a statement: `break`, `continue`, `case`. -/
structure Within where
  loopOrSwitch : Bool
  loop : Bool
  switch : Bool

mutual
/-- What the compiler has checked of a statement: where jumps stand, that labels are
defined, and that the cases of a switch differ. -/
def Stmt.Checked (defined : List Nat) (w : Within) : Stmt → Prop
  | .expr _ | .noop | .return_ _ => True
  | .code stmts => CheckedAll defined w stmts
  | .if_ _ lhs rhs => lhs.Checked defined w ∧ rhs.Checked defined w
  | .while_ _ lhs | .do_ lhs _ | .for_ _ _ _ lhs =>
      lhs.Checked defined ⟨true, true, w.switch⟩
  | .switch _ lhs => lhs.cases.Pairwise CaseLabel.Apart ∧ lhs.Checked defined ⟨true, w.loop, true⟩
  | .case _ lhs => w.switch = true ∧ lhs.Checked defined w
  | .break_ => w.loopOrSwitch = true
  | .continue_ => w.loop = true
  | .goto lbl => lbl ∈ defined
  | .label _ lhs => lhs.Checked defined w
def CheckedAll (defined : List Nat) (w : Within) : List Stmt → Prop
  | [] => True
  | s :: stmts => s.Checked defined w ∧ CheckedAll defined w stmts
end

/-- The body of a function that has been checked. -/
structure Function where
  body : Stmt
  nodup : body.labels.Nodup
  checked : body.Checked body.labels ⟨false, false, false⟩

end Ucc.Cc1.Flow
