/-
  Cpp/ExprEval.lean --- the value of a controlling expression.

  Source: expr_eval in src/cpp2/expr.c.

  An operand that C does not evaluate is walked all the same (its nodes are
  freed on the way), with `noop` set so that nothing is computed.  The flag does
  not reach every node: the right operand of an operator and the arms of `?:`
  get a fresh one.  `cEval` is the evaluation that C describes, and `quiet` says
  when the walk makes no division by zero.

  A number is a `long`: two's complement, and the counts of shifts are taken
  modulo 64, where C leaves the value open.
-/
import Ucc.Cpp.Expr

set_option autoImplicit false

namespace Ucc.Cpp

/-! ## The operators -/

/-- `expr_n` -/
abbrev ExprN := BitVec 64

/-- How an evaluation ends early. -/
inductive EvalStop where
  /-- `CPP_DIE` -/
  | die (msg : String)
  /-- `ICE` -/
  | ice (msg : String)
  deriving DecidableEq, Repr

/-- A C truth value. -/
def truth (b : Bool) : ExprN := if b then 1 else 0

/-- The `switch` for `E_UOP`. -/
def EOp.unary (o : EOp) (n : ExprN) : Option ExprN :=
  match o with
  | .minus => some (-n)
  | .not => some (truth (n == 0))
  | .bnot => some (~~~ n)
  | _ => none

/-- The `switch` for `E_OP`. -/
def EOp.binary (o : EOp) (a b : ExprN) : Option ExprN :=
  match o with
  | .divide => some (a.sdiv b)
  | .modulus => some (a.srem b)
  | .multiply => some (a * b)
  | .plus => some (a + b)
  | .minus => some (a - b)
  | .xor => some (a ^^^ b)
  | .or => some (a ||| b)
  | .and => some (a &&& b)
  | .orsc => some (truth (a != 0 || b != 0))
  | .andsc => some (truth (a != 0 && b != 0))
  | .shiftl => some (a <<< (b.toNat % 64))
  | .shiftr => some (a.sshiftRight (b.toNat % 64))
  | .eq => some (truth (a == b))
  | .ne => some (truth (a != b))
  | .le => some (truth (a.sle b))
  | .lt => some (truth (a.slt b))
  | .ge => some (truth (b.sle a))
  | .gt => some (truth (b.slt a))
  | .not | .bnot | .question => none

/-- `skip_rhs` -/
def EOp.skipRhs (o : EOp) (a : ExprN) : Bool :=
  match o with
  | .andsc => a == 0
  | .orsc => a != 0
  | _ => false

/-- The operators that check their right operand. -/
def EOp.divides : EOp → Bool
  | .divide | .modulus => true
  | _ => false

/-- `CPP_DIE("%s by zero")` -/
def byZero (o : EOp) : String := (if o = .divide then "division" else "modulo") ++ " by zero"

/-- The operator on two numbers. -/
def EOp.apply (o : EOp) (a b : ExprN) : Except EvalStop ExprN :=
  if o.divides ∧ b = 0 then .error (.die (byZero o))
  else
    match o.binary a b with
    | some v => .ok v
    | none => .error (.ice "bad op")

/-- The operator on a number. -/
def EOp.applyUnary (o : EOp) (n : ExprN) : Except EvalStop ExprN :=
  match o.unary n with
  | some v => .ok v
  | none => .error (.ice "bad op")

/-! ## The evaluator -/

/-- `expr_eval`; the flag in front of `noop` is `*had_ident`. -/
def exprEval : Expr → Bool → Bool → Except EvalStop (ExprN × Bool)
  | .ident, _, _ => .ok (0, true)
  | .num v, hadIdent, _ => .ok (BitVec.ofInt 64 v, hadIdent)
  | .uop o e, hadIdent, noop => do
      let (n, hadIdent) ← exprEval e hadIdent noop
      if noop then return (0, hadIdent)
      return (← o.applyUnary n, hadIdent)
  | .op o lhs rhs, hadIdent, noop => do
      let (a, hadIdent) ← exprEval lhs hadIdent noop
      let (b, hadIdent) ← exprEval rhs hadIdent (o.skipRhs a)
      if noop then return (0, hadIdent)
      return (← o.apply a b, hadIdent)
  | .top e ifTrue ifFalse, hadIdent, noop => do
      let (a, hadIdent) ← exprEval e hadIdent noop
      let (b, hadIdent) ← exprEval ifTrue hadIdent (a == 0)
      let (c, hadIdent) ← exprEval ifFalse hadIdent (a != 0)
      return (if a != 0 then b else c, hadIdent)

/-! ## What C says -/

/-- The evaluation of C: an operand that is not needed is not evaluated. -/
def cEval : Expr → Except EvalStop ExprN
  | .ident => .ok 0
  | .num v => .ok (BitVec.ofInt 64 v)
  | .uop o e => do o.applyUnary (← cEval e)
  | .op o lhs rhs => do
      let a ← cEval lhs
      if o.skipRhs a then return truth (a != 0)
      o.apply a (← cEval rhs)
  | .top e ifTrue ifFalse => do
      if (← cEval e) != 0 then cEval ifTrue else cEval ifFalse

/-- The operators stand where C has them. -/
def Expr.Wf : Expr → Prop
  | .ident => True
  | .num _ => True
  | .uop o e => o.isUnary = true ∧ e.Wf
  | .op o lhs rhs => (o ≠ .not ∧ o ≠ .bnot ∧ o ≠ .question) ∧ lhs.Wf ∧ rhs.Wf
  | .top e ifTrue ifFalse => e.Wf ∧ ifTrue.Wf ∧ ifFalse.Wf

/-- A controlling expression. -/
structure ExprTree where
  expr : Expr
  wf : expr.Wf

/-- `expr_eval` stops at a division by zero when the evaluation of C meets one,
and otherwise returns the value. -/
def EvaluatesLikeC (e : Expr) : Prop :=
  ∀ hadIdent,
    ((∃ msg, exprEval e hadIdent false = .error (.die msg)) ↔ ∃ msg, cEval e = .error (.die msg)) ∧
    ∀ v, cEval e = .ok v → ∃ hadIdent', exprEval e hadIdent false = .ok (v, hadIdent')

/-! ## What is walked -/

/-- The value of an expression, where it has one. -/
def cValue (e : Expr) : ExprN := (cEval e).toOption.getD 0

/-- What an expression is worth when it is walked with `noop` set: an operator
is worth zero, and an arm of `?:` has its value. -/
def skippedValue : Expr → ExprN
  | .num v => BitVec.ofInt 64 v
  | .top e ifTrue ifFalse =>
      if skippedValue e != 0 then cValue ifTrue else cValue ifFalse
  | _ => 0

/-- What an operand is worth on the walk. -/
def walkedValue (e : Expr) (noop : Bool) : ExprN := if noop then skippedValue e else cValue e

/-- No operator that is computed on the walk divides by zero.  With `noop` set
an operator is not computed, but its right operand is walked as if it were
needed, unless `&&` or `||` skip it again; and so is the arm of a `?:` that its
condition picks. -/
def quiet : Expr → Bool → Bool
  | .ident, _ => true
  | .num _, _ => true
  | .uop _ e, noop => quiet e noop
  | .op o lhs rhs, noop =>
      quiet lhs noop && quiet rhs (o.skipRhs (walkedValue lhs noop)) &&
        (noop || !o.divides || cValue rhs != 0)
  | .top e ifTrue ifFalse, noop =>
      quiet e noop && quiet ifTrue (walkedValue e noop == 0) &&
        quiet ifFalse (walkedValue e noop != 0)

/-- The evaluation of C meets a division by zero. -/
def DividesByZero (e : Expr) : Prop := ∃ msg, cEval e = .error (.die msg)

/-! ## One operator -/

section
variable {o : EOp} {a b : ExprN}

theorem EOp.apply_of_ne_zero (ho : o ≠ .not ∧ o ≠ .bnot ∧ o ≠ .question)
    (hb : o.divides = true → b ≠ 0) : ∃ v, o.apply a b = .ok v := by
  have hcond : ¬ (o.divides = true ∧ b = 0) := fun h => hb h.1 h.2
  unfold EOp.apply
  rw [if_neg hcond]
  cases o with
  | not => exact absurd rfl ho.1
  | bnot => exact absurd rfl ho.2.1
  | question => exact absurd rfl ho.2.2
  | _ => exact ⟨_, rfl⟩

theorem EOp.apply_zero (ho : o.divides = true) : o.apply a 0 = .error (.die (byZero o)) :=
  if_pos ⟨ho, rfl⟩

/-- The right operand does not count where it is skipped. -/
theorem EOp.apply_of_skipRhs (h : o.skipRhs a = true) : o.apply a b = .ok (truth (a != 0)) := by
  cases o with
  | andsc =>
    have ha : a = 0 := by simpa [EOp.skipRhs] using h
    simp [EOp.apply, EOp.divides, EOp.binary, ha]
  | orsc =>
    have ha : (a != 0) = true := h
    simp only [EOp.apply, EOp.divides, EOp.binary, ha, Bool.true_or, Bool.false_eq_true, false_and,
      if_false]
  | _ => cases h

theorem EOp.not_skipRhs_of_divides (h : o.divides = true) : o.skipRhs a = false := by
  cases o with
  | divide | modulus => rfl
  | _ => cases h

theorem EOp.applyUnary_ok (ho : o.isUnary = true) : ∃ v, o.applyUnary a = .ok v := by
  cases o with
  | not | bnot | minus => exact ⟨_, rfl⟩
  | _ => cases ho

end

theorem cEval_eq_of_ok {e : Expr} (h : ∃ v, cEval e = .ok v) : cEval e = .ok (cValue e) := by
  obtain ⟨v, hv⟩ := h
  rw [cValue, hv]
  rfl

theorem cValue_of_ok {e : Expr} {v : ExprN} (h : cEval e = .ok v) : cValue e = v := by
  rw [cValue, h]
  rfl

theorem walkedValue_false (e : Expr) : walkedValue e false = cValue e := rfl

theorem quiet_op {o : EOp} {lhs rhs : Expr} {noop : Bool} :
    quiet (.op o lhs rhs) noop = true ↔
      quiet lhs noop = true ∧ quiet rhs (o.skipRhs (walkedValue lhs noop)) = true ∧
        (noop = false → o.divides = true → cValue rhs ≠ 0) := by
  cases noop <;> cases hd : o.divides <;> simp [quiet, hd, and_assoc]

theorem quiet_top {e ifTrue ifFalse : Expr} {noop : Bool} :
    quiet (.top e ifTrue ifFalse) noop = true ↔
      quiet e noop = true ∧ quiet ifTrue (walkedValue e noop == 0) = true ∧
        quiet ifFalse (walkedValue e noop != 0) = true := by
  simp [quiet, and_assoc]

/-! ## The walk -/

/-- Where the walk is quiet, the evaluation of C has a value. -/
theorem cEval_of_quiet (e : Expr) (hwf : e.Wf) (h : quiet e false = true) :
    cEval e = .ok (cValue e) := by
  apply cEval_eq_of_ok
  induction e with
  | ident => exact ⟨_, rfl⟩
  | num v => exact ⟨_, rfl⟩
  | uop o e ih =>
    obtain ⟨n, hn⟩ := ih hwf.2 h
    obtain ⟨v, hv⟩ := @EOp.applyUnary_ok o n hwf.1
    exact ⟨v, by rw [cEval, hn]; exact hv⟩
  | op o lhs rhs ihl ihr =>
    obtain ⟨hl, hr, hzero⟩ := quiet_op.1 h
    obtain ⟨a, ha⟩ := ihl hwf.2.1 hl
    rw [walkedValue_false, cValue_of_ok ha] at hr
    cases hs : o.skipRhs a with
    | true => exact ⟨_, by simp only [cEval, ha, bind, Except.bind, hs]; rfl⟩
    | false =>
      rw [hs] at hr
      obtain ⟨b, hb⟩ := ihr hwf.2.2 hr
      have hne := hzero rfl
      rw [cValue_of_ok hb] at hne
      obtain ⟨v, hv⟩ := @EOp.apply_of_ne_zero o a b hwf.1 hne
      exact ⟨v, by simp only [cEval, ha, hb, bind, Except.bind, hs]; exact hv⟩
  | top e ifTrue ifFalse ihe iht ihf =>
    obtain ⟨he, ht, hf⟩ := quiet_top.1 h
    obtain ⟨a, ha⟩ := ihe hwf.1 he
    rw [walkedValue_false, cValue_of_ok ha] at ht hf
    cases hz : a == 0 with
    | true =>
      have hnz : (a != 0) = false := by rw [bne, hz]; rfl
      rw [hnz] at hf
      obtain ⟨v, hv⟩ := ihf hwf.2.2 hf
      exact ⟨v, by simp only [cEval, ha, bind, Except.bind, hnz]; exact hv⟩
    | false =>
      have hnz : (a != 0) = true := by rw [bne, hz]; rfl
      rw [hz] at ht
      obtain ⟨v, hv⟩ := iht hwf.2.1 ht
      exact ⟨v, by simp only [cEval, ha, bind, Except.bind, hnz]; exact hv⟩

/-- The value of a conditional is that of the arm its condition picks. -/
theorem walkedValue_top {e ifTrue ifFalse : Expr} {noop : Bool}
    (h : noop = false → cEval (.top e ifTrue ifFalse) =
      if cValue e != 0 then cEval ifTrue else cEval ifFalse) :
    walkedValue (.top e ifTrue ifFalse) noop =
      if walkedValue e noop != 0 then cValue ifTrue else cValue ifFalse := by
  cases noop with
  | true => rfl
  | false =>
    have hc := h rfl
    rw [walkedValue_false, walkedValue_false]
    cases hnz : cValue e != 0 with
    | true =>
      rw [hnz] at hc
      exact congrArg (fun r => r.toOption.getD 0) hc
    | false =>
      rw [hnz] at hc
      exact congrArg (fun r => r.toOption.getD 0) hc

/-- A quiet walk returns what the expression is worth on it. -/
theorem exprEval_of_quiet (e : Expr) (hwf : e.Wf) (hadIdent noop : Bool)
    (h : quiet e noop = true) :
    ∃ hadIdent', exprEval e hadIdent noop = .ok (walkedValue e noop, hadIdent') := by
  induction e generalizing hadIdent noop with
  | ident => cases noop <;> exact ⟨_, rfl⟩
  | num v => cases noop <;> exact ⟨_, rfl⟩
  | uop o e ih =>
    obtain ⟨h1, he⟩ := ih hwf.2 hadIdent noop h
    cases noop with
    | true => exact ⟨h1, by simp only [exprEval, he, bind, Except.bind]; rfl⟩
    | false =>
      obtain ⟨v, hv⟩ := @EOp.applyUnary_ok o (cValue e) hwf.1
      have hc := cEval_of_quiet e hwf.2 h
      have hval : cValue (.uop o e) = v := cValue_of_ok (by rw [cEval, hc]; exact hv)
      refine ⟨h1, ?_⟩
      rw [walkedValue_false, hval]
      simp only [exprEval, he, bind, Except.bind, walkedValue_false, hv]
      rfl
  | op o lhs rhs ihl ihr =>
    have hq := h
    obtain ⟨hl, hr, hzero⟩ := quiet_op.1 h
    obtain ⟨h1, hlhs⟩ := ihl hwf.2.1 hadIdent noop hl
    obtain ⟨h2, hrhs⟩ := ihr hwf.2.2 h1 (o.skipRhs (walkedValue lhs noop)) hr
    refine ⟨h2, ?_⟩
    cases noop with
    | true =>
      simp only [exprEval, hlhs, hrhs, bind, Except.bind]
      rfl
    | false =>
      rw [walkedValue_false] at hlhs hrhs hr
      have hc := cEval_of_quiet _ hwf hq
      have happly : o.apply (cValue lhs) (walkedValue rhs (o.skipRhs (cValue lhs))) =
          cEval (.op o lhs rhs) := by
        have hcl := cEval_of_quiet lhs hwf.2.1 hl
        cases hs : o.skipRhs (cValue lhs) with
        | true =>
          rw [EOp.apply_of_skipRhs hs]
          simp only [cEval, hcl, bind, Except.bind, hs]
          rfl
        | false =>
          rw [hs] at hr
          have hcr := cEval_of_quiet rhs hwf.2.2 hr
          simp only [cEval, hcl, hcr, bind, Except.bind, hs]
          rfl
      simp only [exprEval, hlhs, hrhs, bind, Except.bind, happly, hc]
      rfl
  | top e ifTrue ifFalse ihe iht ihf =>
    have hq := h
    obtain ⟨he, ht, hf⟩ := quiet_top.1 h
    obtain ⟨h1, hcond⟩ := ihe hwf.1 hadIdent noop he
    obtain ⟨h2, hthen⟩ := iht hwf.2.1 h1 (walkedValue e noop == 0) ht
    obtain ⟨h3, helse⟩ := ihf hwf.2.2 h2 (walkedValue e noop != 0) hf
    refine ⟨h3, ?_⟩
    have hval := @walkedValue_top e ifTrue ifFalse noop (by
      rintro rfl
      simp only [cEval, cEval_of_quiet e hwf.1 he, bind, Except.bind])
    simp only [exprEval, hcond, hthen, helse, bind, Except.bind, hval]
    cases hz : walkedValue e noop == 0 with
    | true =>
      have hnz : (walkedValue e noop != 0) = false := by rw [bne, hz]; rfl
      rw [hnz]
      rfl
    | false =>
      have hnz : (walkedValue e noop != 0) = true := by rw [bne, hz]; rfl
      rw [hnz]
      rfl

/-- A walk that is not quiet stops. -/
theorem exprEval_of_not_quiet (e : Expr) (hwf : e.Wf) (hadIdent noop : Bool)
    (h : quiet e noop = false) : ∃ msg, exprEval e hadIdent noop = .error (.die msg) := by
  induction e generalizing hadIdent noop with
  | ident => cases h
  | num v => cases h
  | uop o e ih =>
    obtain ⟨msg, hmsg⟩ := ih hwf.2 hadIdent noop h
    exact ⟨msg, by simp only [exprEval, hmsg, bind, Except.bind]⟩
  | op o lhs rhs ihl ihr =>
    cases hl : quiet lhs noop with
    | false =>
      obtain ⟨msg, hmsg⟩ := ihl hwf.2.1 hadIdent noop hl
      exact ⟨msg, by simp only [exprEval, hmsg, bind, Except.bind]⟩
    | true =>
      obtain ⟨h1, hlhs⟩ := exprEval_of_quiet lhs hwf.2.1 hadIdent noop hl
      cases hr : quiet rhs (o.skipRhs (walkedValue lhs noop)) with
      | false =>
        obtain ⟨msg, hmsg⟩ := ihr hwf.2.2 h1 _ hr
        exact ⟨msg, by simp only [exprEval, hlhs, hmsg, bind, Except.bind]⟩
      | true =>
        obtain ⟨h2, hrhs⟩ := exprEval_of_quiet rhs hwf.2.2 h1 _ hr
        have hdiv : noop = false ∧ o.divides = true ∧ cValue rhs = 0 := by
          simp only [quiet, hl, hr, Bool.true_and, Bool.or_eq_false_iff] at h
          obtain ⟨⟨hn, hd⟩, hz⟩ := h
          refine ⟨hn, by simpa using hd, ?_⟩
          simpa using hz
        obtain ⟨rfl, hd, hz⟩ := hdiv
        rw [EOp.not_skipRhs_of_divides hd] at hrhs
        rw [walkedValue_false, hz] at hrhs
        refine ⟨byZero o, ?_⟩
        simp only [exprEval, hlhs, EOp.not_skipRhs_of_divides hd, hrhs, bind, Except.bind,
          EOp.apply_zero hd]
        rfl
  | top e ifTrue ifFalse ihe iht ihf =>
    cases he : quiet e noop with
    | false =>
      obtain ⟨msg, hmsg⟩ := ihe hwf.1 hadIdent noop he
      exact ⟨msg, by simp only [exprEval, hmsg, bind, Except.bind]⟩
    | true =>
      obtain ⟨h1, hcond⟩ := exprEval_of_quiet e hwf.1 hadIdent noop he
      cases ht : quiet ifTrue (walkedValue e noop == 0) with
      | false =>
        obtain ⟨msg, hmsg⟩ := iht hwf.2.1 h1 _ ht
        exact ⟨msg, by simp only [exprEval, hcond, hmsg, bind, Except.bind]⟩
      | true =>
        obtain ⟨h2, hthen⟩ := exprEval_of_quiet ifTrue hwf.2.1 h1 _ ht
        have hf : quiet ifFalse (walkedValue e noop != 0) = false := by
          simpa only [quiet, he, ht, Bool.true_and] using h
        obtain ⟨msg, hmsg⟩ := ihf hwf.2.2 h2 _ hf
        exact ⟨msg, by simp only [exprEval, hcond, hthen, hmsg, bind, Except.bind]⟩

/-- `0 && (2 + 1 / 0)` -/
def guardedDivision : Expr :=
  .op .andsc (.num 0) (.op .plus (.num 2) (.op .divide (.num 1) (.num 0)))

end Ucc.Cpp
