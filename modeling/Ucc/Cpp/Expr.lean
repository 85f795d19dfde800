/-
  Cpp/Expr.lean --- the parser for controlling expressions.

  Source: src/cpp2/expr.c, with the token kinds of src/cpp2/expr_tok.h.

  The three parsing functions call each other, so each takes a bound on the
  depth of its calls and returns `none` when it runs out.  A run that returns
  returns the same with a larger bound, and `exprParse` starts with a bound that
  always suffices.
-/
import Ucc.Lib.Partial

set_option autoImplicit false

namespace Ucc.Cpp

open Ucc.Lib

/-! ## Tokens -/

/-- The tokens for which `is_op` holds. -/
inductive EOp where
  | multiply
  | divide
  | modulus
  | plus
  | minus
  | xor
  | or
  | and
  | orsc
  | andsc
  | shiftl
  | shiftr
  | not
  | bnot
  | eq
  | ne
  | le
  | lt
  | ge
  | gt
  | question
  deriving DecidableEq, Repr, Inhabited

/-- `enum tok`.  The end of the input is the empty token list; `other` is any
further ASCII character. -/
inductive ETok where
  | ident
  | num (v : Int)
  | lparen
  | rparen
  | colon
  | op (o : EOp)
  | other (c : Char)
  deriving DecidableEq, Repr, Inhabited

/-- `struct expr`. -/
inductive Expr where
  | ident
  | num (v : Int)
  | op (o : EOp) (lhs rhs : Expr)
  | uop (o : EOp) (e : Expr)
  | top (e ifTrue ifFalse : Expr)
  deriving DecidableEq, Repr, Inhabited

/-- `MAX_PRI`. -/
def maxPri : Nat := 20

/-- The precedence of an operator, from `expr_init`: smaller binds tighter. -/
def EOp.precedence : EOp → Nat
  | .multiply | .divide | .modulus => 1
  | .plus | .minus => 2
  | .shiftl | .shiftr => 3
  | .le | .lt | .ge | .gt => 4
  | .eq | .ne => 5
  | .and => 6
  | .xor => 7
  | .or => 8
  | .andsc => 9
  | .orsc => 10
  | .question => 11
  | .not | .bnot => maxPri

/-- `PRECEDENCE(tok_cur)`. -/
def precedence : List ETok → Nat
  | .op o :: _ => o.precedence
  | _ => maxPri

/-- The operators that `parse_primary` accepts in front of an operand. -/
def EOp.isUnary : EOp → Bool
  | .not | .bnot | .minus => true
  | _ => false

/-- `tok_cur_num` once `tok_next` has moved past the number `v`: a number that
follows has overwritten it. -/
def tokCurNum (v : Int) : List ETok → Int
  | .num w :: _ => w
  | _ => v

/-! ## The parser -/

/-- The errors of the parser. -/
inductive ExprFault where
  /-- "close paren expected" -/
  | closeParenExpected
  /-- "expression expected (got %s)" -/
  | expressionExpected (got : Option ETok)
  /-- "colon expected for ternary-? operator" -/
  | colonExpected
  /-- "'%s' at end of expression" -/
  | trailing
  deriving DecidableEq, Repr, Inhabited

/-- A result of the parser, or nothing when the calls went too deep. -/
abbrev ParseM := Partial ExprFault

/-- Move past `t`, or stop with `f`. -/
def expect (t : ETok) (f : ExprFault) : List ETok → ParseM (List ETok)
  | [] => .die f
  | t' :: ts => if t' = t then pure ts else .die f

mutual
/-- `parse_primary`. -/
def parsePrimary : Nat → List ETok → ParseM (Expr × List ETok)
  | 0, _ => .deep
  | n + 1, ts =>
      match ts with
      | .ident :: ts => pure (.ident, ts)
      | .num v :: ts => pure (.num (tokCurNum v ts), ts)
      | .lparen :: ts => do
          let (e, ts) ← parse n ts
          let ts ← expect .rparen .closeParenExpected ts
          pure (e, ts)
      | .op o :: ts =>
          if o.isUnary then do
            let (e, ts) ← parsePrimary n ts
            pure (.uop o e, ts)
          else .die (.expressionExpected (some (.op o)))
      | ts => .die (.expressionExpected ts.head?)
/-- `parse_rhs`; each turn of its loop is a call. -/
def parseRhs : Nat → Expr → Nat → List ETok → ParseM (Expr × List ETok)
  | 0, _, _, _ => .deep
  | n + 1, lhs, priority, ts =>
      match ts with
      | .op o :: ts =>
          if o.precedence > priority then pure (lhs, .op o :: ts)
          else if o = .question then do
            let (ifT, ts) ← parse n ts
            let ts ← expect .colon .colonExpected ts
            let (rhs, ts) ← parse n ts
            parseRhs n (.top lhs ifT rhs) priority ts
          else do
            let (rhs, ts) ← parsePrimary n ts
            -- the next operator is tighter: give it our rhs as its lhs
            let (rhs, ts) ←
              (if precedence ts < o.precedence then parseRhs n rhs (precedence ts) ts
              else pure (rhs, ts))
            parseRhs n (.op o lhs rhs) priority ts
      | ts => pure (lhs, ts)
/-- `parse`. -/
def parse : Nat → List ETok → ParseM (Expr × List ETok)
  | 0, _ => .deep
  | n + 1, ts => do
      let (e, ts) ← parsePrimary n ts
      parseRhs n e maxPri ts
end

example (n : Nat) (e : Expr) (ts : List ETok) :
    parsePrimary (n + 1) (.ident :: ts) = pure (.ident, ts) ∧
      parseRhs (n + 1) e maxPri [] = pure (e, []) := by
  simp [parsePrimary, parseRhs]

/-- `expr_parse`. -/
def exprParse (ts : List ETok) : ParseM Expr := do
  let (e, ts) ← parse (2 * ts.length + 2) ts
  match ts with
  | [] => pure e
  | _ :: _ => .die .trailing

/-! ## The bound on the depth of calls -/

/-- One more level of calls changes nothing that returned. -/
theorem parse_le_succ (n : Nat) :
    (∀ ts, (parsePrimary n ts).Le (parsePrimary (n + 1) ts)) ∧
    (∀ lhs p ts, (parseRhs n lhs p ts).Le (parseRhs (n + 1) lhs p ts)) ∧
    (∀ ts, (parse n ts).Le (parse (n + 1) ts)) := by
  induction n with
  | zero => exact ⟨fun _ => .inl rfl, fun _ _ _ => .inl rfl, fun _ => .inl rfl⟩
  | succ n ih =>
    obtain ⟨ihPrimary, ihRhs, ihParse⟩ := ih
    refine ⟨fun ts => ?_, fun lhs p ts => ?_, fun ts => ?_⟩
    · unfold parsePrimary
      split
      · exact .refl _
      · exact .refl _
      · exact (ihParse _).bind fun _ => .refl _
      · split
        · exact (ihPrimary _).bind fun _ => .refl _
        · exact .refl _
      · exact .refl _
    · unfold parseRhs
      split
      · split
        · exact .refl _
        · split
          · refine (ihParse _).bind fun r => (Partial.Le.refl _).bind fun ts' => ?_
            exact (ihParse _).bind fun r => ihRhs _ _ _
          · refine (ihPrimary _).bind fun r => Partial.Le.bind ?_ fun r => ihRhs _ _ _
            split
            · exact ihRhs _ _ _
            · exact .refl _
      · exact .refl _
    · rw [parse, parse]
      exact (ihPrimary _).bind fun r => ihRhs _ _ _

theorem parsePrimary_grows (ts : List ETok) : Grows fun n => parsePrimary n ts :=
  fun n => (parse_le_succ n).1 ts

theorem parseRhs_grows (lhs : Expr) (p : Nat) (ts : List ETok) :
    Grows fun n => parseRhs n lhs p ts :=
  fun n => (parse_le_succ n).2.1 lhs p ts

theorem parse_grows (ts : List ETok) : Grows fun n => parse n ts :=
  fun n => (parse_le_succ n).2.2 ts

/-! ## What each call returns -/

theorem expect_eq_pure {t : ETok} {f : ExprFault} {ts ts' : List ETok} :
    expect t f ts = pure ts' ↔ ts = t :: ts' := by
  cases ts with
  | nil => simp [expect, Partial.die_ne_pure]
  | cons t' ts =>
    by_cases h : t' = t
    · simp [expect, h, Partial.pure_inj]
    · simp [expect, h, Partial.die_ne_pure]

theorem ret_primary_ident {ts : List ETok} {r : Expr × List ETok} :
    Ret (fun n => parsePrimary n (.ident :: ts)) r ↔ r = (.ident, ts) := by
  have hcall : ∀ n, parsePrimary (n + 1) (.ident :: ts) = pure (.ident, ts) := by
    intro n
    rw [parsePrimary]
  rw [ret_call rfl hcall, ret_const, Partial.pure_inj, eq_comm]

theorem ret_primary_num {v : Int} {ts : List ETok} {r : Expr × List ETok} :
    Ret (fun n => parsePrimary n (.num v :: ts)) r ↔ r = (.num (tokCurNum v ts), ts) := by
  have hcall : ∀ n, parsePrimary (n + 1) (.num v :: ts) = pure (.num (tokCurNum v ts), ts) := by
    intro n
    rw [parsePrimary]
  rw [ret_call rfl hcall, ret_const, Partial.pure_inj, eq_comm]

theorem ret_primary_paren {ts ts' : List ETok} {e : Expr} :
    Ret (fun n => parsePrimary n (.lparen :: ts)) (e, ts') ↔
      Ret (fun n => parse n ts) (e, .rparen :: ts') := by
  have hcall : ∀ n, parsePrimary (n + 1) (.lparen :: ts) = (do
      let r ← parse n ts
      let ts₁ ← expect .rparen .closeParenExpected r.2
      pure (r.1, ts₁)) := by
    intro n
    rw [parsePrimary]
  rw [ret_call rfl hcall, ret_bind (parse_grows ts) fun r => grows_const _]
  constructor
  · rintro ⟨⟨e₁, ts₁⟩, hparse, hrest⟩
    obtain ⟨ts₂, hts, hr⟩ := Partial.bind_eq_pure.mp (ret_const.mp hrest)
    rw [expect_eq_pure] at hts
    obtain ⟨rfl, rfl⟩ := Prod.mk.inj (Partial.pure_inj.mp hr)
    subst hts
    exact hparse
  · intro hparse
    exact ⟨_, hparse, ret_const.mpr rfl⟩

theorem ret_primary_unary {o : EOp} (ho : o.isUnary = true) {ts ts' : List ETok} {e : Expr} :
    Ret (fun n => parsePrimary n (.op o :: ts)) (e, ts') ↔
      ∃ e₁, Ret (fun n => parsePrimary n ts) (e₁, ts') ∧ e = .uop o e₁ := by
  have hcall : ∀ n, parsePrimary (n + 1) (.op o :: ts) = (do
      let r ← parsePrimary n ts
      pure (.uop o r.1, r.2)) := by
    intro n
    rw [parsePrimary, if_pos ho]
  rw [ret_call rfl hcall, ret_bind (parsePrimary_grows ts) fun r => grows_const _]
  constructor
  · rintro ⟨⟨e₁, ts₁⟩, hprim, hrest⟩
    obtain ⟨rfl, rfl⟩ := Prod.mk.inj (Partial.pure_inj.mp (ret_const.mp hrest))
    exact ⟨e₁, hprim, rfl⟩
  · rintro ⟨e₁, hprim, rfl⟩
    exact ⟨_, hprim, ret_const.mpr rfl⟩

theorem ret_parse {ts ts' : List ETok} {e : Expr} :
    Ret (fun n => parse n ts) (e, ts') ↔
      ∃ e₁ ts₁, Ret (fun n => parsePrimary n ts) (e₁, ts₁) ∧
        Ret (fun n => parseRhs n e₁ maxPri ts₁) (e, ts') := by
  have hcall : ∀ n, parse (n + 1) ts = (do
      let r ← parsePrimary n ts
      parseRhs n r.1 maxPri r.2) := by
    intro n
    rw [parse]
  rw [ret_call rfl hcall,
    ret_bind (parsePrimary_grows ts) fun r => parseRhs_grows r.1 maxPri r.2]
  simp only [Prod.exists]

/-- No operator within the priority: `parse_rhs` returns its left side. -/
theorem ret_rhs_stop {lhs : Expr} {p : Nat} {ts : List ETok} {r : Expr × List ETok}
    (hstop : ∀ o ts', ts = .op o :: ts' → p < o.precedence) :
    Ret (fun n => parseRhs n lhs p ts) r ↔ r = (lhs, ts) := by
  have hcall : ∀ n, parseRhs (n + 1) lhs p ts = pure (lhs, ts) := by
    intro n
    unfold parseRhs
    split
    · rename_i o ts'
      rw [if_pos (hstop o ts' rfl)]
    · rfl
  rw [ret_call rfl hcall, ret_const, Partial.pure_inj, eq_comm]

theorem ret_rhs_question {lhs : Expr} {p : Nat} {ts : List ETok} {r : Expr × List ETok}
    (hp : EOp.question.precedence ≤ p) :
    Ret (fun n => parseRhs n lhs p (.op .question :: ts)) r ↔
      ∃ ifT ts₁ rhs ts₂, Ret (fun n => parse n ts) (ifT, .colon :: ts₁) ∧
        Ret (fun n => parse n ts₁) (rhs, ts₂) ∧
        Ret (fun n => parseRhs n (.top lhs ifT rhs) p ts₂) r := by
  have hcall : ∀ n, parseRhs (n + 1) lhs p (.op .question :: ts) = (do
      let r₁ ← parse n ts
      let ts₁ ← expect .colon .colonExpected r₁.2
      let r₂ ← parse n ts₁
      parseRhs n (.top lhs r₁.1 r₂.1) p r₂.2) := by
    intro n
    rw [parseRhs, if_neg (by omega), if_pos rfl]
  have hlast : ∀ (ifT : Expr) (ts₁ : List ETok),
      Grows fun n => parse n ts₁ >>= fun r₂ => parseRhs n (.top lhs ifT r₂.1) p r₂.2 :=
    fun _ ts₁ => (parse_grows ts₁).bind fun r₂ => parseRhs_grows _ p r₂.2
  rw [ret_call rfl hcall, ret_bind (parse_grows ts) fun r₁ =>
    (grows_const (expect .colon .colonExpected r₁.2)).bind (hlast r₁.1)]
  constructor
  · rintro ⟨⟨ifT, ts₀⟩, hthen, hrest⟩
    rw [ret_bind (grows_const _) (hlast ifT)] at hrest
    obtain ⟨ts₁, hcolon, hrest⟩ := hrest
    rw [ret_const, expect_eq_pure] at hcolon
    subst hcolon
    rw [ret_bind (parse_grows ts₁) fun r₂ => parseRhs_grows _ p r₂.2] at hrest
    obtain ⟨⟨rhs, ts₂⟩, helse, hrest⟩ := hrest
    exact ⟨ifT, ts₁, rhs, ts₂, hthen, helse, hrest⟩
  · rintro ⟨ifT, ts₁, rhs, ts₂, hthen, helse, hrest⟩
    refine ⟨_, hthen, ?_⟩
    rw [ret_bind (grows_const _) (hlast ifT)]
    refine ⟨ts₁, ret_const.mpr (expect_eq_pure.mpr rfl), ?_⟩
    rw [ret_bind (parse_grows ts₁) fun r₂ => parseRhs_grows _ p r₂.2]
    exact ⟨_, helse, hrest⟩

/-- The right operand of `o`, after its first operand `rhs`. -/
def parseOperand (n : Nat) (o : EOp) (rhs : Expr) (ts : List ETok) :
    ParseM (Expr × List ETok) :=
  if precedence ts < o.precedence then parseRhs n rhs (precedence ts) ts else pure (rhs, ts)

theorem parseOperand_grows (o : EOp) (rhs : Expr) (ts : List ETok) :
    Grows fun n => parseOperand n o rhs ts := by
  unfold parseOperand
  split
  · exact parseRhs_grows rhs (precedence ts) ts
  · exact grows_const _

theorem ret_operand_tight {o : EOp} {rhs : Expr} {ts : List ETok} {r : Expr × List ETok}
    (h : precedence ts < o.precedence) :
    Ret (fun n => parseOperand n o rhs ts) r ↔
      Ret (fun n => parseRhs n rhs (precedence ts) ts) r := by
  simp only [parseOperand, if_pos h]

theorem ret_operand_loose {o : EOp} {rhs : Expr} {ts : List ETok} {r : Expr × List ETok}
    (h : o.precedence ≤ precedence ts) :
    Ret (fun n => parseOperand n o rhs ts) r ↔ r = (rhs, ts) := by
  simp only [parseOperand, if_neg (not_lt.mpr h)]
  rw [ret_const, Partial.pure_inj, eq_comm]

theorem ret_rhs_op {o : EOp} {lhs : Expr} {p : Nat} {ts : List ETok} {r : Expr × List ETok}
    (ho : o ≠ .question) (hp : o.precedence ≤ p) :
    Ret (fun n => parseRhs n lhs p (.op o :: ts)) r ↔
      ∃ rhs ts₁ rhs' ts₂, Ret (fun n => parsePrimary n ts) (rhs, ts₁) ∧
        Ret (fun n => parseOperand n o rhs ts₁) (rhs', ts₂) ∧
        Ret (fun n => parseRhs n (.op o lhs rhs') p ts₂) r := by
  have hcall : ∀ n, parseRhs (n + 1) lhs p (.op o :: ts) = (do
      let r₁ ← parsePrimary n ts
      let r₂ ← parseOperand n o r₁.1 r₁.2
      parseRhs n (.op o lhs r₂.1) p r₂.2) := by
    intro n
    rw [parseRhs, if_neg (by omega), if_neg ho]
    rfl
  have hlast : ∀ r₁ : Expr × List ETok, Grows fun n =>
      parseOperand n o r₁.1 r₁.2 >>= fun r₂ => parseRhs n (.op o lhs r₂.1) p r₂.2 :=
    fun r₁ => (parseOperand_grows o r₁.1 r₁.2).bind fun r₂ => parseRhs_grows _ p r₂.2
  rw [ret_call rfl hcall, ret_bind (parsePrimary_grows ts) hlast]
  constructor
  · rintro ⟨⟨rhs, ts₁⟩, hprim, hrest⟩
    rw [ret_bind (parseOperand_grows o rhs ts₁) fun r₂ => parseRhs_grows _ p r₂.2] at hrest
    obtain ⟨⟨rhs', ts₂⟩, hop, hrest⟩ := hrest
    exact ⟨rhs, ts₁, rhs', ts₂, hprim, hop, hrest⟩
  · rintro ⟨rhs, ts₁, rhs', ts₂, hprim, hop, hrest⟩
    refine ⟨_, hprim, ?_⟩
    rw [ret_bind (parseOperand_grows o rhs ts₁) fun r₂ => parseRhs_grows _ p r₂.2]
    exact ⟨_, hop, hrest⟩

/-! ## Enough depth -/

theorem expect_ne_deep (t : ETok) (f : ExprFault) (ts : List ETok) : expect t f ts ≠ .deep := by
  unfold expect
  split
  · exact fun h => nomatch h
  · split <;> exact fun h => nomatch h

/-- How much of the input a call that returns has read. -/
theorem parse_consumes (n : Nat) :
    (∀ ts r, parsePrimary n ts = pure r → r.2.length < ts.length) ∧
    (∀ lhs p ts r, parseRhs n lhs p ts = pure r → r.2.length ≤ ts.length) ∧
    (∀ ts r, parse n ts = pure r → r.2.length < ts.length) := by
  induction n with
  | zero =>
    exact ⟨fun _ r h => absurd h (Partial.deep_ne_pure r),
      fun _ _ _ r h => absurd h (Partial.deep_ne_pure r),
      fun _ r h => absurd h (Partial.deep_ne_pure r)⟩
  | succ n ih =>
    obtain ⟨ihPrimary, ihRhs, ihParse⟩ := ih
    refine ⟨fun ts r h => ?_, fun lhs p ts r h => ?_, fun ts r h => ?_⟩
    · unfold parsePrimary at h
      split at h
      · cases Partial.pure_inj.mp h
        simp
      · cases Partial.pure_inj.mp h
        simp
      · obtain ⟨r₁, hparse, h⟩ := Partial.bind_eq_pure.mp h
        obtain ⟨ts₂, hts, h⟩ := Partial.bind_eq_pure.mp h
        cases Partial.pure_inj.mp h
        have hlen := ihParse _ _ hparse
        rw [expect_eq_pure.mp hts] at hlen
        simp only [List.length_cons] at hlen ⊢
        omega
      · split at h
        · obtain ⟨r₁, hprim, h⟩ := Partial.bind_eq_pure.mp h
          cases Partial.pure_inj.mp h
          have hlen := ihPrimary _ _ hprim
          simp only [List.length_cons]
          omega
        · exact absurd h (Partial.die_ne_pure _ _)
      · exact absurd h (Partial.die_ne_pure _ _)
    · unfold parseRhs at h
      split at h
      · split at h
        · cases Partial.pure_inj.mp h
          exact le_rfl
        · split at h
          · obtain ⟨r₁, hthen, h⟩ := Partial.bind_eq_pure.mp h
            obtain ⟨ts₁, hts, h⟩ := Partial.bind_eq_pure.mp h
            obtain ⟨r₂, helse, h⟩ := Partial.bind_eq_pure.mp h
            have h₁ := ihParse _ _ hthen
            have h₂ := ihParse _ _ helse
            have h₃ := ihRhs _ _ _ _ h
            rw [expect_eq_pure.mp hts] at h₁
            simp only [List.length_cons] at h₁ ⊢
            omega
          · obtain ⟨r₁, hprim, h⟩ := Partial.bind_eq_pure.mp h
            obtain ⟨r₂, hop, h⟩ := Partial.bind_eq_pure.mp h
            have h₁ := ihPrimary _ _ hprim
            have h₂ : r₂.2.length ≤ r₁.2.length := by
              split at hop
              · exact ihRhs _ _ _ _ hop
              · cases Partial.pure_inj.mp hop
                exact le_rfl
            have h₃ := ihRhs _ _ _ _ h
            simp only [List.length_cons]
            omega
      · cases Partial.pure_inj.mp h
        exact le_rfl
    · rw [parse] at h
      obtain ⟨r₁, hprim, h⟩ := Partial.bind_eq_pure.mp h
      have h₁ := ihPrimary _ _ hprim
      have h₂ := ihRhs _ _ _ _ h
      omega

/-- Two levels of calls for each token are enough. -/
theorem parse_ne_deep (n : Nat) :
    (∀ ts, 2 * ts.length + 1 ≤ n → parsePrimary n ts ≠ .deep) ∧
    (∀ lhs p ts, 2 * ts.length + 1 ≤ n → parseRhs n lhs p ts ≠ .deep) ∧
    (∀ ts, 2 * ts.length + 2 ≤ n → parse n ts ≠ .deep) := by
  induction n with
  | zero => exact ⟨fun _ h => by omega, fun _ _ _ h => by omega, fun _ h => by omega⟩
  | succ n ih =>
    obtain ⟨ihPrimary, ihRhs, ihParse⟩ := ih
    obtain ⟨hPrimary, hRhs, hParse⟩ := parse_consumes n
    refine ⟨fun ts hn => ?_, fun lhs p ts hn => ?_, fun ts hn => ?_⟩
    · unfold parsePrimary
      split
      · exact fun h => nomatch h
      · exact fun h => nomatch h
      · simp only [List.length_cons] at hn
        refine Partial.bind_ne_deep (ihParse _ (by omega)) fun r hr => ?_
        exact Partial.bind_ne_deep (expect_ne_deep _ _ _) fun ts₁ _ h => nomatch h
      · simp only [List.length_cons] at hn
        split
        · exact Partial.bind_ne_deep (ihPrimary _ (by omega)) fun _ _ h => nomatch h
        · exact fun h => nomatch h
      · exact fun h => nomatch h
    · unfold parseRhs
      split
      · simp only [List.length_cons] at hn
        split
        · exact fun h => nomatch h
        · split
          · refine Partial.bind_ne_deep (ihParse _ (by omega)) fun r₁ h₁ => ?_
            have hlen₁ := hParse _ _ h₁
            refine Partial.bind_ne_deep (expect_ne_deep _ _ _) fun ts₁ hts => ?_
            rw [expect_eq_pure.mp hts, List.length_cons] at hlen₁
            refine Partial.bind_ne_deep (ihParse _ (by omega)) fun r₂ h₂ => ?_
            have hlen₂ := hParse _ _ h₂
            exact ihRhs _ _ _ (by omega)
          · refine Partial.bind_ne_deep (ihPrimary _ (by omega)) fun r₁ h₁ => ?_
            have hlen₁ := hPrimary _ _ h₁
            refine Partial.bind_ne_deep ?_ fun r₂ hop => ?_
            · split
              · exact ihRhs _ _ _ (by omega)
              · exact fun h => nomatch h
            · have hlen₂ : r₂.2.length ≤ r₁.2.length := by
                split at hop
                · exact hRhs _ _ _ _ hop
                · cases Partial.pure_inj.mp hop
                  exact le_rfl
              exact ihRhs _ _ _ (by omega)
      · exact fun h => nomatch h
    · rw [parse]
      refine Partial.bind_ne_deep (ihPrimary _ (by omega)) fun r₁ h₁ => ?_
      have hlen := hPrimary _ _ h₁
      exact ihRhs _ _ _ (by omega)

/-- `expr_parse` returns a tree when `parse` reads the whole input. -/
theorem exprParse_eq_pure {ts : List ETok} {e : Expr} :
    exprParse ts = pure e ↔ Ret (fun n => parse n ts) (e, []) := by
  constructor
  · intro h
    obtain ⟨⟨e₁, ts₁⟩, hparse, hrest⟩ := Partial.bind_eq_pure.mp h
    cases ts₁ with
    | nil =>
      cases Partial.pure_inj.mp hrest
      exact ⟨_, hparse⟩
    | cons t ts₁ => exact absurd hrest (Partial.die_ne_pure _ _)
  · rintro ⟨m, hm⟩
    have hbound : parse (2 * ts.length + 2) ts = pure (e, []) := by
      rcases le_total m (2 * ts.length + 2) with hle | hle
      · exact (parse_grows ts).le hle hm
      · -- the smaller bound suffices, and growing it to `m` changes nothing
        rcases (parse_grows ts).mono hle with hdeep | heq
        · exact absurd hdeep ((parse_ne_deep _).2.2 ts le_rfl)
        · exact heq.trans hm
    exact Partial.bind_eq_pure.mpr ⟨_, hbound, rfl⟩

end Ucc.Cpp
