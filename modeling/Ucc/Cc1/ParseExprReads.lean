/-
  Cc1/ParseExprReads.lean --- the parser reads every expression of the grammar.

  Source: src/cc1/parse_expr.c and src/cc1/parse_init.c.
-/
import Ucc.Cc1.ParseExprGrammar

set_option autoImplicit false

namespace Ucc.Cc1.ParseExpr

open Ucc.Lib

/-! ## Tokens that continue an expression -/

/-- The level of the binary operators that an operator belongs to. -/
def opRank : OpType → Nat
  | .multiply | .divide | .modulus => 4
  | .plus | .minus => 5
  | .shiftl | .shiftr => 6
  | .lt | .gt | .le | .ge => 7
  | .eq | .ne => 8
  | .and => 9
  | .xor => 10
  | .or => 11
  | .andsc => 12
  | .orsc => 13
  | _ => 17

/-- The level of the expressions that a token continues; 17 when it continues
none. -/
def Token.cont : Token → Nat
  | .openSquare | .openParen | .dot | .ptr | .increment | .decrement | .openBlock => 1
  | .op o => opRank o
  | .question => 14
  | .assign | .opAssign _ => 15
  | .comma => 16
  | _ => 17

/-- The next token does not continue an expression of level `n`. -/
def Follows (n : Nat) (ts : List Token) : Prop := ∀ t ∈ ts.head?, n < t.cont

@[simp] theorem follows_cons (n : Nat) (t : Token) (ts : List Token) :
    Follows n (t :: ts) ↔ n < t.cont := by
  simp [Follows]

theorem Follows.mono {m n : Nat} {ts : List Token} (h : Follows n ts) (hmn : m ≤ n) :
    Follows m ts :=
  fun t ht => lt_of_le_of_lt hmn (h t ht)

theorem mem_ops_iff (l : Level) (o : OpType) : o ∈ l.ops ↔ opRank o = l.rank := by
  cases l <;> cases o <;> decide

theorem four_le_rank (l : Level) : 4 ≤ l.rank := by
  cases l <;> decide

theorem rank_le_thirteen (l : Level) : l.rank ≤ 13 := by
  cases l <;> decide

/-! ## Calls that return -/

variable {α : Type} {cx : Context} {st : Bool}

/-- From `ts`, a function of the parser reads `x` and comes to `rest`, for every
bound on its calls that is large enough. -/
def Reads (cx : Context) (f : Parsers → Stream → ParseM (α × Stream)) (ts : List Token) (x : α)
    (rest : List Token) : Prop :=
  ∀ b, Settles (fun n => f (parser cx n) ⟨ts, b⟩) (x, ⟨rest, b⟩)

/-- A function that returns without a call. -/
theorem reads_of_forall {f : Parsers → Stream → ParseM (α × Stream)} {ts rest : List Token} {x : α}
    (h : ∀ p b, f p ⟨ts, b⟩ = pure (x, ⟨rest, b⟩)) : Reads cx f ts x rest :=
  fun b => settles_of_forall fun n => h (parser cx n) b

theorem Reads.of_toks {f : Parsers → Stream → ParseM (α × Stream)} {ts ts' rest : List Token}
    {x : α} (h : Reads cx f ts x rest) (hts : ts' = ts) : Reads cx f ts' x rest := by
  rw [hts]
  exact h

section Call

variable {ts rest : List Token} {e e' : Tree} {l : Level}

theorem Reads.unary (h : Reads cx (fun p => parseExprUnary cx p st) ts e rest) :
    Reads cx (fun p => p.unary st) ts e rest :=
  fun b => (h b).call fun _ => rfl

theorem Reads.postfixWith (h : Reads cx (fun p => parseExprPostfixWith cx p st e) ts e' rest) :
    Reads cx (fun p => p.postfixWith st e) ts e' rest :=
  fun b => (h b).call fun _ => rfl

theorem Reads.level (h : Reads cx (fun p => parseExprGeneric p st l) ts e rest) :
    Reads cx (fun p => p.level l st) ts e rest :=
  fun b => (h b).call fun _ => rfl

theorem Reads.operators (h : Reads cx (fun p => parseOperator p st l e) ts e' rest) :
    Reads cx (fun p => p.operators l st e) ts e' rest :=
  fun b => (h b).call fun _ => rfl

theorem Reads.conditional (h : Reads cx (fun p => parseExprConditional p st) ts e rest) :
    Reads cx (fun p => p.conditional st) ts e rest :=
  fun b => (h b).call fun _ => rfl

theorem Reads.assignment (h : Reads cx (fun p => parseExprAssignment p st) ts e rest) :
    Reads cx (fun p => p.assignment st) ts e rest :=
  fun b => (h b).call fun _ => rfl

theorem Reads.exp (h : Reads cx (fun p => parseExprExp p st) ts e rest) :
    Reads cx (fun p => p.exp st) ts e rest :=
  fun b => (h b).call fun _ => rfl

theorem Reads.args {a : Args} (h : Reads cx (fun p => parseArg p st) ts a rest) :
    Reads cx (fun p => p.args st) ts a rest :=
  fun b => (h b).call fun _ => rfl

theorem Reads.labels {lbls : Labels} (h : Reads cx (fun p => parseLabel cx p st) ts lbls rest) :
    Reads cx (fun p => p.labels st) ts lbls rest :=
  fun b => (h b).call fun _ => rfl

theorem Reads.init {i : Init} (h : Reads cx (fun p => parseInit p st) ts i rest) :
    Reads cx (fun p => p.init st) ts i rest :=
  fun b => (h b).call fun _ => rfl

theorem Reads.inits {is : Inits} (h : Reads cx (fun p => parseInits p st) ts is rest) :
    Reads cx (fun p => p.inits st) ts is rest :=
  fun b => (h b).call fun _ => rfl

theorem Reads.desigs {m : Bool} {d : Desig × Bool}
    (h : Reads cx (fun p => parseDesigs p st m) ts d rest) :
    Reads cx (fun p => p.desigs st m) ts d rest :=
  fun b => (h b).call fun _ => rfl

end Call

/-! ## The postfix operators -/

section Postfix

variable {ts ts' rest : List Token} {e e' : Tree}

theorem postfixWith_stop (h : Follows 1 rest) :
    Reads cx (fun p => p.postfixWith st e) rest e rest := by
  refine (reads_of_forall fun p b => ?_).postfixWith
  unfold parseExprPostfixWith
  cases rest with
  | nil => rfl
  | cons t ts =>
    rw [follows_cons] at h
    cases t <;> first | rfl | exact absurd h (by decide)

theorem reads_index {i : Tree} (hi : Reads cx (fun p => p.exp st) ts i (.closeSquare :: ts'))
    (h : Reads cx (fun p => p.postfixWith st (.deref (.op .plus e i true))) ts' e' rest) :
    Reads cx (fun p => p.postfixWith st e) (.openSquare :: ts) e' rest := by
  refine Reads.postfixWith fun b => ?_
  exact (hi b).bind (h b)

theorem reads_call (hspel : e.identSpel.bind cx.builtinParse = none)
    (h : Reads cx (fun p => p.postfixWith st (.funcall e .nil)) ts e' rest) :
    Reads cx (fun p => p.postfixWith st e) (.openParen :: .closeParen :: ts) e' rest := by
  refine Reads.postfixWith fun b => ?_
  have hcall : ∀ n, parseCall cx (parser cx n) st e ⟨.closeParen :: ts, b⟩ =
      pure (.funcall e .nil, ⟨.closeParen :: ts, b⟩) := by
    intro n
    rw [parseCall, hspel]
    rfl
  exact (settles_of_forall hcall).bind (h b)

theorem reads_callArgs {args : Args} (hspel : e.identSpel.bind cx.builtinParse = none)
    (hhead : ∀ t ∈ ts.head?, t ≠ .closeParen)
    (ha : Reads cx (fun p => p.args st) ts args (.closeParen :: ts'))
    (h : Reads cx (fun p => p.postfixWith st (.funcall e args)) ts' e' rest) :
    Reads cx (fun p => p.postfixWith st e) (.openParen :: ts) e' rest := by
  refine Reads.postfixWith fun b => ?_
  have hargs : ∀ p : Parsers, parseFuncargs p st ⟨ts, b⟩ = p.args st ⟨ts, b⟩ := by
    intro p
    unfold parseFuncargs
    cases ts with
    | nil => rfl
    | cons t ts => cases t <;> first | rfl | exact absurd rfl (hhead _ rfl)
  have hcall : Settles (fun n => parseCall cx (parser cx n) st e ⟨ts, b⟩)
      (.funcall e args, ⟨.closeParen :: ts', b⟩) := by
    simp only [parseCall, hspel, hargs]
    exact (ha b).bind (settles_of_forall fun _ => rfl)
  exact hcall.bind (h b)

theorem reads_member (dot : Bool) (member : String)
    (h : Reads cx (fun p => p.postfixWith st (.struct e dot member)) ts e' rest) :
    Reads cx (fun p => p.postfixWith st e)
      ((if dot then .dot else .ptr) :: .identifier member :: ts) e' rest := by
  refine Reads.postfixWith fun b => ?_
  cases dot <;> exact h b

theorem reads_post (inc : Bool)
    (h : Reads cx (fun p => p.postfixWith st (.assignCompound e (.val 1) (stepOp inc) true))
      ts e' rest) :
    Reads cx (fun p => p.postfixWith st e) (stepTok inc :: ts) e' rest := by
  refine Reads.postfixWith fun b => ?_
  cases inc <;> exact h b

end Postfix

/-! ## Type names and the first token of an expression -/

theorem parseType_toks {t : TypeName} (ht : t.Ok cx) {ts : List Token}
    (hts : ∀ u ∈ ts.head?, ∀ d, u ≠ .typeRest d) :
    parseType cx (t.toks ++ ts) = (some t, ts) := by
  cases t with
  | named t => rfl
  | tdef spel rest =>
    have htdef : cx.atTdef spel = true := ht
    cases rest with
    | some d => simp [TypeName.toks, parseType, htdef]
    | none =>
      cases ts with
      | nil => simp [TypeName.toks, parseType, htdef]
      | cons u ts =>
        cases u with
        | typeRest d => exact absurd rfl (hts _ rfl d)
        | _ => simp [TypeName.toks, parseType, htdef]

/-- The tokens that an expression starts with. -/
def Token.starts (cx : Context) : Token → Bool
  | .numeric _ | .string _ | .generic | .openParen | .increment | .decrement | .op _ | .whatOf _ =>
      true
  | .identifier spel => !cx.atTdef spel
  | _ => false

theorem parseType_starts {t : Token} (ht : t.starts cx = true) (ts : List Token) :
    parseType cx (t :: ts) = (none, t :: ts) := by
  cases t with
  | identifier spel =>
    have htdef : cx.atTdef spel = false := by simpa [Token.starts] using ht
    cases ts with
    | nil => simp [parseType, htdef]
    | cons u ts => cases u <;> simp [parseType, htdef]
  | _ => first | rfl | cases ht

/-- Tokens of which the first starts an expression. -/
def Starts (cx : Context) (ts : List Token) : Prop := ∃ t us, ts = t :: us ∧ t.starts cx = true

theorem Starts.append {ts : List Token} (h : Starts cx ts) (us : List Token) :
    Starts cx (ts ++ us) := by
  obtain ⟨t, ts', rfl, ht⟩ := h
  exact ⟨t, ts' ++ us, rfl, ht⟩

/-- Tokens that begin as an expression does.  An identifier in front of a colon
would be taken for a designator. -/
def Begins (cx : Context) (ts : List Token) : Prop :=
  ∃ t us, ts = t :: us ∧ t.starts cx = true ∧ ∀ spel, t = .identifier spel → us.head? ≠ some .colon

theorem Begins.starts {ts : List Token} (h : Begins cx ts) : Starts cx ts := by
  obtain ⟨t, us, hts, ht, -⟩ := h
  exact ⟨t, us, hts, ht⟩

theorem Begins.append {ts us : List Token} (h : Begins cx ts) (hus : us.head? ≠ some .colon) :
    Begins cx (ts ++ us) := by
  obtain ⟨t, ts', rfl, ht, hcolon⟩ := h
  refine ⟨t, ts' ++ us, rfl, ht, fun spel hspel => ?_⟩
  cases ts' with
  | nil => exact hus
  | cons u ts' => exact hcolon spel hspel

theorem begins_cons (t : Token) (ht : t.starts cx = true) (hid : ∀ spel, t ≠ .identifier spel)
    (us : List Token) : Begins cx (t :: us) :=
  ⟨t, us, rfl, ht, fun spel hspel => absurd hspel (hid spel)⟩

/-- An expression begins as an expression does.  The recursion is on its leftmost
operand. -/
theorem Cst.begins : ∀ (c : Cst), c.WellFormed cx → Begins cx c.toks
  | .numeric _, _ => begins_cons (.numeric _) rfl (by simp) _
  | .string _, _ => begins_cons (.string _) rfl (by simp) _
  | .identifier spel, h =>
      ⟨.identifier spel, [], rfl, by
        have htdef : cx.atTdef spel = false := h
        simp [Token.starts, htdef], fun _ _ => by simp⟩
  | .generic _ _, _ => begins_cons .generic rfl (by simp) _
  | .paren _, _ => begins_cons .openParen rfl (by simp) _
  | .compoundLit _ _, _ => begins_cons .openParen rfl (by simp) _
  | .index c _, h => (c.begins h.2.1).append (by simp)
  | .call c, h => (c.begins h.2.1).append (by simp)
  | .callArgs c _, h => (c.begins h.2.1).append (by simp)
  | .member c dot _, h => (c.begins h.2).append (by cases dot <;> simp)
  | .post c inc, h => (c.begins h.2).append (by cases inc <;> simp [stepTok])
  | .pre inc _, _ =>
      begins_cons (stepTok inc) (by cases inc <;> rfl) (by cases inc <;> simp [stepTok]) _
  | .addr _, _ => begins_cons (.op .and) rfl (by simp) _
  | .addrLbl _, _ => begins_cons (.op .andsc) rfl (by simp) _
  | .deref _, _ => begins_cons (.op .multiply) rfl (by simp) _
  | .unary _ _, _ => begins_cons (.op _) rfl (by simp) _
  | .sizeofType _ _, _ => begins_cons (.whatOf _) rfl (by simp) _
  | .sizeofExpr _ _, _ => begins_cons (.whatOf _) rfl (by simp) _
  | .cast _ _, _ => begins_cons .openParen rfl (by simp) _
  | .bin _ _ lhs _, h => (lhs.begins h.2.2.1).append (by simp)
  | .cond c _ _, h => (c.begins h.2.1).append (by simp)
  | .condElse c _, h => (c.begins h.2.1).append (by simp)
  | .assign lhs _, h => (lhs.begins h.2.1).append (by simp)
  | .opAssign _ lhs _, h => (lhs.begins h.2.1).append (by simp)
  | .comma lhs _, h => (lhs.begins h.1).append (by simp)

/-! ## Primary and unary expressions -/

section Unary

variable {ts ts' rest : List Token} {e e' : Tree} {t : TypeName}

theorem closeParen_not_typeRest (us : List Token) :
    ∀ u ∈ (Token.closeParen :: us).head?, ∀ d, u ≠ .typeRest d := by
  simp

theorem reads_paren (hstarts : Starts cx ts)
    (h : Reads cx (fun p => p.exp st) ts e (.closeParen :: rest)) :
    Reads cx (fun p => parseExprPrimary cx p st) (.openParen :: ts) (.inParens e) rest := by
  intro b
  have hinner : Settles (fun n => parseParenthesised cx (parser cx n) st ⟨ts, b⟩)
      (.inParens e, ⟨rest, b⟩) := by
    have hblock : (Stream.mk ts b).atOpenBlock = false := by
      obtain ⟨u, us, rfl, hu⟩ := hstarts
      cases u <;> first | rfl | cases hu
    simp only [parseParenthesised, hblock, Bool.false_eq_true, if_false]
    exact (h b).bind (settles_of_forall fun _ => rfl)
  obtain ⟨u, us, rfl, hu⟩ := hstarts
  simp only [parseExprPrimary, parseType_starts hu]
  exact hinner

theorem reads_compoundLit (ht : t.Ok cx) {init : Init}
    (h : Reads cx (fun p => p.init st) (.openBlock :: ts) init rest) :
    Reads cx (fun p => parseExprPrimary cx p st)
      (.openParen :: (t.toks ++ .closeParen :: .openBlock :: ts)) (.compoundLit t init st)
      rest := by
  intro b
  simp only [parseExprPrimary, parseType_toks ht (closeParen_not_typeRest _)]
  exact (h b).bind (settles_of_forall fun _ => rfl)

theorem reads_cast (ht : t.Ok cx) (hstarts : Starts cx ts)
    (h : Reads cx (fun p => p.unary st) ts e rest) :
    Reads cx (fun p => parseExprPrimary cx p st) (.openParen :: (t.toks ++ .closeParen :: ts))
      (.cast e t) rest := by
  intro b
  have hblock : (Stream.mk ts b).atOpenBlock = false := by
    obtain ⟨u, us, rfl, hu⟩ := hstarts
    cases u <;> first | rfl | cases hu
  simp only [parseExprPrimary, parseType_toks ht (closeParen_not_typeRest _), eatCloseParen, hblock,
    Bool.false_eq_true, if_false]
  exact (h b).bind (settles_of_forall fun _ => rfl)

theorem reads_generic {lbls : Labels}
    (htest : Reads cx (fun p => p.assignment st) ts e ts')
    (h : Reads cx (fun p => p.labels st) ts' lbls rest) :
    Reads cx (fun p => parseExprPrimary cx p st) (.generic :: .openParen :: ts)
      (.generic e lbls) rest := by
  intro b
  have hsel : Settles (fun n => parseExprGenericSelection (parser cx n) st ⟨.openParen :: ts, b⟩)
      (.generic e lbls, ⟨rest, b⟩) :=
    (htest b).bind ((h b).bind (settles_of_forall fun _ => rfl))
  exact hsel

theorem reads_postfixExpr (he : Reads cx (fun p => parseExprPrimary cx p st) ts e ts')
    (h : Reads cx (fun p => p.postfixWith st e) ts' e' rest) :
    Reads cx (fun p => parseExprPostfix cx p st) ts e' rest :=
  fun b => (he b).bind (h b)

/-- The tokens that a primary expression starts with. -/
def Token.startsPrimary : Token → Bool
  | .numeric _ | .string _ | .identifier _ | .generic | .openParen => true
  | _ => false

theorem reads_unary_postfixExpr (hts : ∃ t us, ts = t :: us ∧ t.startsPrimary = true)
    (h : Reads cx (fun p => parseExprPostfix cx p st) ts e rest) :
    Reads cx (fun p => p.unary st) ts e rest := by
  obtain ⟨t, us, rfl, ht⟩ := hts
  refine Reads.unary fun b => ?_
  have hturn : ∀ p, parseExprUnary cx p st ⟨t :: us, b⟩ =
      parseExprPostfix cx p st ⟨t :: us, b⟩ := by
    intro p
    cases t <;> first | rfl | cases ht
  simp only [hturn]
  exact h b

theorem reads_pre (inc : Bool) (h : Reads cx (fun p => p.unary st) ts e rest) :
    Reads cx (fun p => p.unary st) (stepTok inc :: ts)
      (.assignCompound e (.val 1) (stepOp inc) false) rest := by
  refine Reads.unary fun b => ?_
  cases inc <;> exact (h b).bind (settles_of_forall fun _ => rfl)

theorem reads_addr (h : Reads cx (fun p => p.unary st) ts e rest) :
    Reads cx (fun p => p.unary st) (.op .and :: ts) (.addr e) rest :=
  Reads.unary fun b => (h b).bind (settles_of_forall fun _ => rfl)

theorem reads_addrLbl (lbl : String) :
    Reads cx (fun p => p.unary st) (.op .andsc :: .identifier lbl :: rest) (.addrLbl lbl st) rest :=
  Reads.unary fun _ => settles_of_forall fun _ => rfl

theorem reads_deref (h : Reads cx (fun p => p.unary st) ts e rest) :
    Reads cx (fun p => p.unary st) (.op .multiply :: ts) (.deref e) rest :=
  Reads.unary fun b => (h b).bind (settles_of_forall fun _ => rfl)

theorem reads_inFront {o : OpType} (ho : standsInFront o = true)
    (h : Reads cx (fun p => p.unary st) ts e rest) :
    Reads cx (fun p => p.unary st) (.op o :: ts) (.unary o e) rest := by
  refine Reads.unary fun b => ?_
  cases o <;> first | exact (h b).bind (settles_of_forall fun _ => rfl) | cases ho

theorem reads_sizeofType (w : WhatOf) (ht : t.Ok cx) (hrest : Follows 1 rest) :
    Reads cx (fun p => p.unary st) (.whatOf w :: .openParen :: (t.toks ++ .closeParen :: rest))
      (.sizeofType t w) rest := by
  refine Reads.unary (reads_of_forall fun p b => ?_)
  have hblock : (Stream.mk rest b).atOpenBlock = false := by
    cases rest with
    | nil => rfl
    | cons u us =>
      rw [follows_cons] at hrest
      cases u <;> first | rfl | exact absurd hrest (by decide)
  simp only [parseExprUnary, parseExprSizeofAlignof, parseType_toks ht (closeParen_not_typeRest _),
    eatCloseParen, hblock, Bool.false_eq_true, if_false]

/-- The operand of `sizeof` starts with a type in parentheses: a compound literal. -/
theorem reads_sizeof_compoundLit (w : WhatOf) (ht : t.Ok cx) {init : Init}
    (hinit : Reads cx (fun p => p.init false) (.openBlock :: ts) init ts')
    (h : Reads cx (fun p => p.postfixWith false (.compoundLit t init false)) ts' e rest) :
    Reads cx (fun p => p.unary st)
      (.whatOf w :: .openParen :: (t.toks ++ .closeParen :: .openBlock :: ts))
      (.sizeofExpr e w) rest := by
  refine Reads.unary fun b => ?_
  simp only [parseExprUnary, parseExprSizeofAlignof, parseType_toks ht (closeParen_not_typeRest _)]
  exact (hinit b).bind ((h b).bind (settles_of_forall fun _ => rfl))

/-- Any other operand of `sizeof`. -/
theorem reads_sizeofExpr (w : WhatOf)
    (htype : ∀ us, ts = .openParen :: us → parseType cx us = (none, us))
    (h : Reads cx (fun p => p.unary false) ts e rest) :
    Reads cx (fun p => p.unary st) (.whatOf w :: ts) (.sizeofExpr e w) rest := by
  refine Reads.unary fun b => ?_
  have hof : ∀ p, parseExprSizeofAlignof cx p w ⟨ts, b⟩ =
      p.unary false ⟨ts, b⟩ >>= fun x => pure (.sizeofExpr x.1 w, x.2) := by
    intro p
    unfold parseExprSizeofAlignof
    cases ts with
    | nil => rfl
    | cons u us =>
      cases u with
      | openParen =>
        dsimp only
        rw [htype us rfl]
      | _ => rfl
  simp only [parseExprUnary, hof]
  exact (h b).bind (settles_of_forall fun _ => rfl)

end Unary

/-! ## Operators, from the binary ones to the comma -/

section Operators

variable {ts ts' rest : List Token} {e e' rhs : Tree} {l : Level}

theorem operators_stop (h : Follows l.rank rest) :
    Reads cx (fun p => p.operators l st e) rest e rest := by
  refine (reads_of_forall fun p b => ?_).operators
  unfold parseOperator
  cases rest with
  | nil => rfl
  | cons t ts =>
    cases t with
    | op o =>
      rw [follows_cons] at h
      have ho : o ∉ l.ops := by
        rw [mem_ops_iff]
        exact h.ne'
      simp only [ho, if_false]
    | _ => rfl

theorem reads_operator {o : OpType} (ho : o ∈ l.ops)
    (hrhs : Reads cx (fun p => parseAbove p st l.above) ts rhs ts')
    (h : Reads cx (fun p => p.operators l st (.op o e rhs false)) ts' e' rest) :
    Reads cx (fun p => p.operators l st e) (.op o :: ts) e' rest := by
  refine Reads.operators fun b => ?_
  simp only [parseOperator, ho, if_true]
  exact (hrhs b).bind (h b)

theorem reads_level (he : Reads cx (fun p => parseAbove p st l.above) ts e ts')
    (h : Reads cx (fun p => p.operators l st e) ts' e' rest) :
    Reads cx (fun p => p.level l st) ts e' rest :=
  Reads.level fun b => (he b).bind (h b)

theorem conditional_stop (h : Follows 14 rest)
    (he : Reads cx (fun p => p.level .logicalOr st) ts e rest) :
    Reads cx (fun p => p.conditional st) ts e rest := by
  refine Reads.conditional fun b => ?_
  refine (he b).bind (settles_of_forall fun n => ?_)
  cases rest with
  | nil => rfl
  | cons t us =>
    rw [follows_cons] at h
    cases t <;> first | rfl | exact absurd h (by decide)

theorem reads_cond {lhs : Tree} (hstarts : Starts cx ts')
    (he : Reads cx (fun p => p.level .logicalOr st) ts e (.question :: ts')) {us : List Token}
    (hlhs : Reads cx (fun p => p.exp st) ts' lhs (.colon :: us))
    (hrhs : Reads cx (fun p => p.conditional st) us rhs rest) :
    Reads cx (fun p => p.conditional st) ts (.cond e lhs rhs) rest := by
  refine Reads.conditional fun b => ?_
  obtain ⟨u, vs, rfl, hu⟩ := hstarts
  have hthen : Settles (fun n => (parser cx n).exp st ⟨u :: vs, b⟩ >>= fun x =>
      (parser cx n).conditional st (eatColon x.2) >>= fun y =>
        (pure (.cond e x.1 y.1, y.2) : ParseM (Tree × Stream))) (.cond e lhs rhs, ⟨rest, b⟩) :=
    (hlhs b).bind ((hrhs b).bind (settles_of_forall fun _ => rfl))
  refine (he b).bind ?_
  cases u <;> first | exact hthen | cases hu

theorem reads_condElse
    (he : Reads cx (fun p => p.level .logicalOr st) ts e (.question :: .colon :: ts'))
    (hrhs : Reads cx (fun p => p.conditional st) ts' rhs rest) :
    Reads cx (fun p => p.conditional st) ts (.condElse e rhs) rest :=
  Reads.conditional fun b => (he b).bind ((hrhs b).bind (settles_of_forall fun _ => rfl))

theorem assignment_stop (h : Follows 15 rest)
    (he : Reads cx (fun p => p.conditional st) ts e rest) :
    Reads cx (fun p => p.assignment st) ts e rest := by
  refine Reads.assignment fun b => ?_
  refine (he b).bind (settles_of_forall fun n => ?_)
  cases rest with
  | nil => rfl
  | cons t us =>
    rw [follows_cons] at h
    cases t <;> first | rfl | exact absurd h (lt_irrefl 15)

theorem reads_assign (he : Reads cx (fun p => p.conditional st) ts e (.assign :: ts'))
    (hrhs : Reads cx (fun p => p.assignment st) ts' rhs rest) :
    Reads cx (fun p => p.assignment st) ts (.assign e rhs) rest :=
  Reads.assignment fun b => (he b).bind ((hrhs b).bind (settles_of_forall fun _ => rfl))

theorem reads_opAssign {o : OpType}
    (he : Reads cx (fun p => p.conditional st) ts e (.opAssign o :: ts'))
    (hrhs : Reads cx (fun p => p.assignment st) ts' rhs rest) :
    Reads cx (fun p => p.assignment st) ts (.assignCompound e rhs o false) rest :=
  Reads.assignment fun b => (he b).bind ((hrhs b).bind (settles_of_forall fun _ => rfl))

theorem exp_stop (h : Follows 16 rest) (he : Reads cx (fun p => p.assignment st) ts e rest) :
    Reads cx (fun p => p.exp st) ts e rest := by
  refine Reads.exp fun b => ?_
  refine (he b).bind (settles_of_forall fun n => ?_)
  cases rest with
  | nil => rfl
  | cons t us =>
    rw [follows_cons] at h
    cases t <;> first | rfl | exact absurd h (by decide)

theorem reads_comma (he : Reads cx (fun p => p.assignment st) ts e (.comma :: ts'))
    (hrhs : Reads cx (fun p => p.exp st) ts' rhs rest) :
    Reads cx (fun p => p.exp st) ts (.comma e rhs) rest :=
  Reads.exp fun b => (he b).bind ((hrhs b).bind (settles_of_forall fun _ => rfl))

end Operators

/-! ## Lists: arguments, associations and initialisers -/

section Lists

variable {ts ts' rest : List Token} {e : Tree}

theorem reads_arg_last (he : Reads cx (fun p => p.assignment st) ts e (.closeParen :: rest)) :
    Reads cx (fun p => p.args st) ts (.cons e .nil) (.closeParen :: rest) :=
  Reads.args fun b => (he b).bind (settles_of_forall fun _ => rfl)

theorem reads_arg_cons {args : Args}
    (he : Reads cx (fun p => p.assignment st) ts e (.comma :: ts'))
    (h : Reads cx (fun p => p.args st) ts' args rest) :
    Reads cx (fun p => p.args st) ts (.cons e args) rest :=
  Reads.args fun b => (he b).bind ((h b).bind (settles_of_forall fun _ => rfl))

theorem parseLabelType_toks {t : Option TypeName} (ht : ∀ ty ∈ t, ty.Ok cx) (b : Bool) :
    parseLabelType cx ⟨labelToks t ++ .colon :: ts, b⟩ = pure (t, ⟨.colon :: ts, b⟩) := by
  cases t with
  | none => rfl
  | some ty =>
    have hty := parseType_toks (ht ty rfl) (show ∀ u ∈ (Token.colon :: ts).head?, ∀ d,
      u ≠ .typeRest d by simp)
    unfold parseLabelType
    rw [labelToks]
    simp only [hty]
    cases ty with
    | named t => rfl
    | tdef spel r => cases r <;> rfl

theorem reads_label_last {t : Option TypeName} (ht : ∀ ty ∈ t, ty.Ok cx)
    (he : Reads cx (fun p => p.assignment st) ts e (.closeParen :: rest)) :
    Reads cx (fun p => p.labels st) (.comma :: (labelToks t ++ .colon :: ts))
      (.cons t e .nil) rest := by
  refine Reads.labels fun b => ?_
  refine (settles_of_forall fun _ => parseLabelType_toks ht b).bind ?_
  exact (he b).bind (settles_of_forall fun _ => rfl)

theorem reads_label_cons {t : Option TypeName} (ht : ∀ ty ∈ t, ty.Ok cx) {lbls : Labels}
    (he : Reads cx (fun p => p.assignment st) ts e (.comma :: ts'))
    (h : Reads cx (fun p => p.labels st) (.comma :: ts') lbls rest) :
    Reads cx (fun p => p.labels st) (.comma :: (labelToks t ++ .colon :: ts))
      (.cons t e lbls) rest := by
  refine Reads.labels fun b => ?_
  refine (settles_of_forall fun _ => parseLabelType_toks ht b).bind ?_
  exact (he b).bind ((h b).bind (settles_of_forall fun _ => rfl))

theorem reads_scalar (hstarts : Starts cx ts)
    (he : Reads cx (fun p => p.assignment st) ts e rest) :
    Reads cx (fun p => p.init st) ts (.scalar e) rest := by
  refine Reads.init fun b => ?_
  have hturn : ∀ p, parseInit p st ⟨ts, b⟩ =
      p.assignment st ⟨ts, b⟩ >>= fun x => pure (.scalar x.1, x.2) := by
    intro p
    obtain ⟨u, us, rfl, hu⟩ := hstarts
    cases u <;> first | rfl | cases hu
  simp only [hturn]
  exact (he b).bind (settles_of_forall fun _ => rfl)

theorem reads_brace {is : Inits}
    (h : Reads cx (fun p => p.inits st) ts is (.closeBlock :: rest)) :
    Reads cx (fun p => p.init st) (.openBlock :: ts) (.brace is) rest :=
  Reads.init fun b => (h b).bind (settles_of_forall fun _ => rfl)

theorem reads_inits_nil :
    Reads cx (fun p => p.inits st) (.closeBlock :: rest) .nil (.closeBlock :: rest) :=
  Reads.inits fun _ => settles_of_forall fun _ => rfl

theorem Reads.initItem {is : Inits} (hhead : ts.head? ≠ some .closeBlock)
    (h : Reads cx (fun p => parseInitItem p st) ts is rest) :
    Reads cx (fun p => p.inits st) ts is rest := by
  refine Reads.inits fun b => ?_
  cases ts with
  | nil => exact h b
  | cons u us => cases u <;> first | exact h b | exact absurd rfl hhead

theorem reads_inits_last {d : Desig} {i : Init} (hhead : ts.head? ≠ some .closeBlock)
    (hd : Reads cx (fun p => parseDesignation p st) ts d ts')
    (hi : Reads cx (fun p => p.init st) ts' i (.closeBlock :: rest)) :
    Reads cx (fun p => p.inits st) ts (.cons d i .nil) (.closeBlock :: rest) :=
  Reads.initItem hhead fun b => (hd b).bind ((hi b).bind (settles_of_forall fun _ => rfl))

theorem reads_inits_cons {d : Desig} {i : Init} {is : Inits} {us : List Token}
    (hhead : ts.head? ≠ some .closeBlock)
    (hd : Reads cx (fun p => parseDesignation p st) ts d ts')
    (hi : Reads cx (fun p => p.init st) ts' i (.comma :: us))
    (h : Reads cx (fun p => p.inits st) us is rest) :
    Reads cx (fun p => p.inits st) ts (.cons d i is) rest :=
  Reads.initItem hhead fun b =>
    (hd b).bind ((hi b).bind ((h b).bind (settles_of_forall fun _ => rfl)))

/-- No designator in front of an initialiser. -/
theorem reads_designation_nil (hts : Begins cx ts ∨ ts.head? = some .openBlock) :
    Reads cx (fun p => parseDesignation p st) ts .nil ts := by
  refine reads_of_forall fun p b => ?_
  rcases hts with ⟨u, us, rfl, hu, hcolon⟩ | hblock
  · cases u with
    | identifier spel =>
      cases us with
      | nil => rfl
      | cons v vs => cases v <;> first | rfl | exact absurd rfl (hcolon spel rfl)
    | _ => first | rfl | cases hu
  · cases ts with
    | nil => rfl
    | cons u us => cases u <;> first | rfl | cases hblock

theorem reads_designation {d : Desig} {mayOmit : Bool}
    (hhead : ts.head? = some .dot ∨ ts.head? = some .openSquare)
    (h : Reads cx (fun p => parseDesigs p st false) ts (d, mayOmit) (.assign :: rest)) :
    Reads cx (fun p => parseDesignation p st) ts d rest := by
  intro b
  have hturn : Settles (fun n => parseDesigs (parser cx n) st false ⟨ts, b⟩ >>= fun x =>
      pure (x.1.1, if x.1.2 then skipAssign x.2 else eatAssign x.2))
      (d, ⟨rest, b⟩) := by
    refine (h b).bind (settles_of_forall fun _ => ?_)
    cases mayOmit <;> rfl
  cases ts with
  | nil => rcases hhead with hhead | hhead <;> cases hhead
  | cons u us => cases u <;> first | exact hturn | (rcases hhead with hhead | hhead <;> cases hhead)

theorem reads_desigs_stop (mayOmit : Bool) :
    Reads cx (fun p => parseDesigs p st mayOmit) (.assign :: rest) (.nil, mayOmit)
      (.assign :: rest) :=
  reads_of_forall fun _ _ => rfl

theorem reads_desigs_struct {mayOmit : Bool} {d : Desig × Bool} (member : String)
    (h : Reads cx (fun p => parseDesigs p st mayOmit) ts d rest) :
    Reads cx (fun p => parseDesigs p st mayOmit) (.dot :: .identifier member :: ts)
      (.struct member d.1, d.2) rest :=
  fun b => (h.desigs b).bind (settles_of_forall fun _ => rfl)

theorem reads_desigs_ar {mayOmit : Bool} {d : Desig × Bool}
    (he : Reads cx (fun p => p.exp st) ts e (.closeSquare :: ts'))
    (h : Reads cx (fun p => parseDesigs p st true) ts' d rest) :
    Reads cx (fun p => parseDesigs p st mayOmit) (.openSquare :: ts) (.ar e d.1, d.2) rest :=
  fun b => (he b).bind ((h.desigs b).bind (settles_of_forall fun _ => rfl))

theorem reads_desigs_range {mayOmit : Bool} {d : Desig × Bool} {hi : Tree} {us : List Token}
    (he : Reads cx (fun p => p.exp st) ts e (.elipsis :: ts'))
    (hhi : Reads cx (fun p => p.exp st) ts' hi (.closeSquare :: us))
    (h : Reads cx (fun p => parseDesigs p st true) us d rest) :
    Reads cx (fun p => parseDesigs p st mayOmit) (.openSquare :: ts) (.range e hi d.1, d.2) rest :=
  fun b => (he b).bind ((hhi b).bind ((h.desigs b).bind (settles_of_forall fun _ => rfl)))

end Lists

end Ucc.Cc1.ParseExpr
