/-
  Cc1/ParseStmtReads.lean --- the parser reads every statement of the grammar.

  Source: src/cc1/parse_stmt.c.
-/
import Ucc.Cc1.ParseStmtGrammar

set_option autoImplicit false

namespace Ucc.Cc1.ParseStmt

open Ucc.Lib Ucc.Cc1.ParseExpr

variable {Scope D α β : Type} {o : Outer Scope D}

/-! ## Calls that return -/

/-- From `ts` and with `next` statements numbered, a function reads `x` and comes to
`rest` and `next'`, for every bound on its calls that is large enough. -/
def StmtReads (f : Nat → StmtStream → StmtM (α × StmtStream)) (ts : List Token) (next : Nat) (x : α)
    (rest : List Token) (next' : Nat) : Prop :=
  ∀ b, Settles (fun n => f n ⟨⟨ts, b⟩, next⟩) (x, ⟨⟨rest, b⟩, next'⟩)

/-- `parse_stmt` reads a statement. -/
def StmtAt (o : Outer Scope D) (ctx : StmtCtx Scope) (ts : List Token) (next : Nat) (t : Stmt D)
    (rest : List Token) (next' : Nat) : Prop :=
  StmtReads (fun n => (stmtParser o n).stmt ctx) ts next t rest next'

theorem settles_lift {x : Nat → ParseM α} {a : α} (h : Settles x a) :
    Settles (fun n => liftFault (x n)) a := by
  obtain ⟨n, hn⟩ := h
  refine ⟨n, fun m hm => ?_⟩
  show liftFault (x m) = pure a
  rw [hn m hm]
  rfl

variable {ctx : StmtCtx Scope} {scope scope' : Scope} {ts ts' us rest : List Token}
  {next next₁ next₂ : Nat} {c : Cst}

/-- Another parser reads on. -/
theorem settles_with {f : Nat → Stream → ParseM (α × Stream)} {x : α} {b b' : Bool}
    (h : Settles (fun n => f n ⟨ts, b⟩) (x, ⟨rest, b'⟩)) :
    Settles (fun n => (⟨⟨ts, b⟩, next⟩ : StmtStream).with (f n)) (x, ⟨⟨rest, b'⟩, next⟩) :=
  (settles_lift h).bind (settles_of_forall fun _ => rfl)

theorem reads_exp (h : c.WellFormed (o.cx scope)) (hrest : Follows 16 rest) :
    StmtReads (fun n => parseExp o n scope) (c.toks ++ rest) next (c.parsed false) rest next :=
  fun b => settles_with ((c.parses h).atExp false rest hrest b)

theorem reads_constant (h : c.WellFormed (o.cx scope)) (hlevel : c.level ≤ 15)
    (hrest : Follows 15 rest) :
    StmtReads (fun n => parseConstant o n scope) (c.toks ++ rest) next (c.parsed false) rest next :=
  fun b => settles_with ((c.parses h).atAssignment hlevel false rest hrest b)

theorem reads_stmt {t : Stmt D}
    (h : StmtReads (fun n => parseStmt o n (stmtParser o n) ctx) ts next t rest next₁) :
    StmtAt o ctx ts next t rest next₁ :=
  fun b => (h b).call fun _ => rfl

theorem reads_decls {ds : List D × Scope}
    (h : StmtReads (fun n => parseDecls o (stmtParser o n) scope) ts next ds rest next₁) :
    StmtReads (fun n => (stmtParser o n).decls scope) ts next ds rest next₁ :=
  fun b => (h b).call fun _ => rfl

theorem reads_stmts {x : Stmts D × Bool}
    (h : StmtReads (fun n => parseStmts o (stmtParser o n) ctx) ts next x rest next₁) :
    StmtReads (fun n => (stmtParser o n).stmts ctx) ts next x rest next₁ :=
  fun b => (h b).call fun _ => rfl

theorem reads_andDecls {t : Stmt D}
    (h : StmtReads (fun n => parseStmtAndDecls o (stmtParser o n) ctx) ts next t rest next₁) :
    StmtReads (fun n => (stmtParser o n).andDecls ctx) ts next t rest next₁ :=
  fun b => (h b).call fun _ => rfl

/-! ## What a statement starts with -/

/-- An expression is no declaration and starts as no statement does. -/
theorem atDecl_of_begins {cx : Context} (h : Begins cx ts) (rest : List Token) :
    atDeclIn cx.atTdef (ts ++ rest) = false := by
  obtain ⟨t, us, rfl, ht, -⟩ := h
  cases t with
  | identifier spel => simpa [Token.starts, atDeclIn] using ht
  | _ => first | rfl | cases ht

/-- A statement that starts with an expression is one. -/
theorem parseStmt_expr (h : Begins (o.cx ctx.scope) ts) (hrest : rest.head? ≠ some .colon) (n : Nat)
    (p : StmtParsers Scope D) (b : Bool) :
    parseStmt o n p ctx ⟨⟨ts ++ rest, b⟩, next⟩ =
      parseExp o n ctx.scope ⟨⟨ts ++ rest, b⟩, next⟩ >>= fun r =>
        pure (.expr r.1, r.2.eat eatSemicolon) := by
  obtain ⟨t, us, hts, ht, hcolon⟩ := h.append hrest
  rw [hts]
  cases t with
  | identifier spel =>
    have hcolon := hcolon spel rfl
    cases us with
    | nil => rfl
    | cons u us => cases u <;> first | rfl | exact absurd rfl hcolon
  | _ => first | rfl | cases ht

/-! ## Tests -/

variable {test : Test D} {lhs rhs : Stmt D}

theorem Outer.atDecl_new (o : Outer Scope D) (ts : List Token) :
    o.atDecl (o.symtabNew scope) ts = o.atDecl scope ts := by
  simp only [Outer.atDecl, o.atTdef_new]

theorem test_expr (h : c.WellFormed (o.cx (o.testScope scope))) (rest : List Token)
    (next : Nat) :
    StmtReads (fun n => parseTestInitExpr o n scope)
      (.openParen :: (c.toks ++ .closeParen :: rest)) next (⟨none, c.parsed false⟩, o.testScope scope)
      rest next := by
  intro b
  have hdecl : o.atDecl (o.testScope scope) (c.toks ++ .closeParen :: rest) = false :=
    atDecl_of_begins (c.begins h) _
  have hexp : ∀ n, parseTestInitExpr o n scope
      ⟨⟨.openParen :: (c.toks ++ .closeParen :: rest), b⟩, next⟩ =
      parseTestExp o n (o.testScope scope) ⟨⟨c.toks ++ .closeParen :: rest, b⟩, next⟩ := fun n => by
    simp only [parseTestInitExpr, StmtStream.eat, eatOpenParen, hdecl, Bool.false_eq_true, if_false]
  simp only [hexp]
  exact (reads_exp h (by simp [Token.cont]) b).bind (settles_of_forall fun _ => rfl)

/-- A test with a declaration reads it first. -/
theorem parseTestInitExpr_decl {d : D} {spel : String}
    (hd : o.DeclReads (o.symtabNew (o.testScope scope)) ts d spel scope') (n : Nat) (b : Bool) :
    parseTestInitExpr o n scope ⟨⟨.openParen :: (ts ++ rest), b⟩, next⟩ =
      parseTestDecl o n (o.testScope scope) ⟨⟨ts ++ rest, b⟩, next⟩ := by
  have hdecl : o.atDecl (o.testScope scope) (ts ++ rest) = true := by
    rw [← o.atDecl_new]
    exact hd.starts rest
  simp only [parseTestInitExpr, StmtStream.eat, eatOpenParen, hdecl, if_true]

theorem test_decl {d : D} {spel : String}
    (hd : o.DeclReads (o.symtabNew (o.testScope scope)) ts d spel scope') (rest : List Token)
    (next : Nat) :
    StmtReads (fun n => parseTestInitExpr o n scope) (.openParen :: (ts ++ .closeParen :: rest)) next
      (⟨some d, .identifier spel⟩, scope') rest next := by
  intro b
  simp only [parseTestInitExpr_decl hd]
  exact (settles_with (settles_of_forall fun _ => hd.reads .closeParen rest b (.inr rfl))).bind
    (settles_of_forall fun _ => rfl)

theorem test_declExpr {d : D} {spel : String}
    (hd : o.DeclReads (o.symtabNew (o.testScope scope)) ts d spel scope')
    (h : c.WellFormed (o.cx scope')) (rest : List Token) (next : Nat) :
    StmtReads (fun n => parseTestInitExpr o n scope)
      (.openParen :: (ts ++ tokenSemicolon :: (c.toks ++ .closeParen :: rest))) next
      (⟨some d, c.parsed false⟩, scope') rest next := by
  intro b
  simp only [parseTestInitExpr_decl hd]
  have hread : Settles (fun n => parseExp o n scope' ⟨⟨c.toks ++ .closeParen :: rest, b⟩, next⟩ >>=
      fun r => (pure ((⟨some d, r.1⟩, scope'), r.2.eat ParseExpr.eatCloseParen) :
        StmtM ((Test D × Scope) × StmtStream)))
      ((⟨some d, c.parsed false⟩, scope'), ⟨⟨rest, b⟩, next⟩) :=
    (reads_exp h (by simp [Token.cont]) b).bind (settles_of_forall fun _ => rfl)
  exact (settles_with (settles_of_forall fun _ => hd.reads tokenSemicolon _ b (.inl rfl))).bind hread

theorem TestDerives.reads (h : TestDerives o scope ts test scope') (rest : List Token)
    (next : Nat) :
    StmtReads (fun n => parseTestInitExpr o n scope) (.openParen :: (ts ++ .closeParen :: rest)) next
      (test, scope') rest next := by
  cases h with
  | expr h => exact test_expr h rest next
  | decl hd => exact test_decl hd rest next
  | declExpr hd h =>
    rw [List.append_assoc, List.cons_append]
    exact test_declExpr hd h rest next

/-! ## Statements around others -/

variable {id : Nat}

theorem reads_if (ht : StmtReads (fun n => parseTestInitExpr o n ctx.scope) ts next (test, scope) ts'
      next)
    (hl : StmtAt o { ctx with scope := scope } ts' next lhs rest
      next₁) (hrest : rest.head? ≠ some tokenElse) :
    StmtAt o ctx (tokenIf :: ts) next (.if_ test lhs) rest next₁ := by
  refine reads_stmt fun b => (ht b).bind ((hl b).bind (settles_of_forall fun n => ?_))
  cases rest with
  | nil => rfl
  | cons t us =>
    cases t with
    | other k =>
      by_cases hk : k = 2
      · subst hk
        exact absurd rfl hrest
      · simp [hk]
    | _ => rfl

theorem reads_ifElse
    (ht : StmtReads (fun n => parseTestInitExpr o n ctx.scope) ts next (test, scope) ts' next)
    (hl : StmtAt o { ctx with scope := scope } ts' next lhs (tokenElse :: us) next₁)
    (hr : StmtAt o { ctx with scope := scope } us next₁ rhs rest next₂) :
    StmtAt o ctx (tokenIf :: ts) next (.ifElse test lhs rhs) rest next₂ :=
  reads_stmt fun b => (ht b).bind ((hl b).bind ((hr b).bind (settles_of_forall fun _ => rfl)))

theorem reads_switch
    (ht : StmtReads (fun n => parseTestInitExpr o n ctx.scope) ts (next + 1) (test, scope) ts'
      (next + 1))
    (hl : StmtAt o (ctx.inSwitch next scope) ts' (next + 1) lhs rest next₁) :
    StmtAt o ctx (tokenSwitch :: ts) next (.switch_ next test lhs) rest next₁ :=
  reads_stmt fun b => (ht b).bind ((hl b).bind (settles_of_forall fun _ => rfl))

theorem reads_while
    (ht : StmtReads (fun n => parseTestInitExpr o n ctx.scope) ts (next + 1) (test, scope) ts'
      (next + 1))
    (hl : StmtAt o (ctx.inLoop next scope) ts' (next + 1) lhs rest next₁) :
    StmtAt o ctx (tokenWhile :: ts) next (.while_ next test lhs) rest next₁ :=
  reads_stmt fun b => (ht b).bind ((hl b).bind (settles_of_forall fun _ => rfl))

theorem reads_do
    (hl : StmtAt o (ctx.inLoop next ctx.scope) ts (next + 1) lhs
      (tokenWhile :: .openParen :: (c.toks ++ .closeParen :: tokenSemicolon :: rest)) next₁)
    (h : c.WellFormed (o.cx ctx.scope)) :
    StmtAt o ctx (tokenDo :: ts) next (.do_ next lhs (c.parsed false)) rest next₁ :=
  reads_stmt fun b => (hl b).bind ((reads_exp h (by simp [Token.cont]) b).bind
    (settles_of_forall fun _ => rfl))

theorem reads_for {init : ForInit D} {e inc : Option Tree} {us' : List Token}
    (hi : StmtReads (fun n => parseForInit o n (o.symtabNew ctx.scope)) ts (next + 1) (init, scope) us
      (next + 1))
    (ht : StmtReads (fun n => parseForWhile o n scope) us (next + 1) e us' (next + 1))
    (hn : StmtReads (fun n => parseForInc o n scope) us' (next + 1) inc ts' (next + 1))
    (hl : StmtAt o (ctx.inLoop next scope) ts' (next + 1) lhs rest next₁) :
    StmtAt o ctx (tokenFor :: .openParen :: ts) next (.for_ next init e inc lhs) rest next₁ :=
  reads_stmt fun b => (hi b).bind ((ht b).bind ((hn b).bind ((hl b).bind
    (settles_of_forall fun _ => rfl))))

/-! ## The parts of a `for` -/

theorem follows_stop {k : Nat} (ts : List Token) : Follows 16 (.other k :: ts) := by
  simp [Token.cont]

/-- Where an expression starts there is no semicolon and no parenthesis. -/
theorem parseForWhile_exp (h : Begins (o.cx scope) ts) (n : Nat) (b : Bool) :
    parseForWhile o n scope ⟨⟨ts, b⟩, next⟩ =
      parseExp o n scope ⟨⟨ts, b⟩, next⟩ >>= fun r => pure (some r.1, r.2.eat eatSemicolon) := by
  obtain ⟨t, us, rfl, ht, -⟩ := h
  cases t <;> first | rfl | cases ht

theorem parseForInc_exp (h : Begins (o.cx scope) ts) (n : Nat) (b : Bool) :
    parseForInc o n scope ⟨⟨ts, b⟩, next⟩ =
      parseExp o n scope ⟨⟨ts, b⟩, next⟩ >>= fun r =>
        pure (some r.1, r.2.eat ParseExpr.eatCloseParen) := by
  obtain ⟨t, us, rfl, ht, -⟩ := h
  cases t <;> first | rfl | cases ht

theorem parseReturn_exp (h : Begins (o.cx ctx.scope) ts) (n : Nat) (b : Bool) :
    (parseReturn o n ctx ⟨⟨ts, b⟩, next⟩ : StmtM (Stmt D × StmtStream)) =
      parseExp o n ctx.scope ⟨⟨ts, b⟩, next⟩ >>= fun r =>
        pure (.return_ (some r.1), r.2.eat eatSemicolon) := by
  obtain ⟨t, us, rfl, ht, -⟩ := h
  cases t <;> first | rfl | cases ht

theorem forWhile_reads {e : Option Tree} (h : OptDerives o scope tokenSemicolon ts e)
    (rest : List Token) (next : Nat) :
    StmtReads (fun n => parseForWhile o n scope) (ts ++ rest) next e rest next := by
  intro b
  cases h with
  | none => exact settles_of_forall fun _ => rfl
  | some h =>
    rename_i c
    rw [List.append_assoc]
    have hbegins : Begins (o.cx scope) (c.toks ++ ([tokenSemicolon] ++ rest)) :=
      (c.begins h).append (by simp)
    simp only [parseForWhile_exp hbegins]
    exact (reads_exp h (follows_stop _) b).bind (settles_of_forall fun _ => rfl)

theorem forInc_reads {e : Option Tree} (h : OptDerives o scope .closeParen ts e)
    (rest : List Token) (next : Nat) :
    StmtReads (fun n => parseForInc o n scope) (ts ++ rest) next e rest next := by
  intro b
  cases h with
  | none => exact settles_of_forall fun _ => rfl
  | some h =>
    rename_i c
    rw [List.append_assoc]
    have hbegins : Begins (o.cx scope) (c.toks ++ ([.closeParen] ++ rest)) :=
      (c.begins h).append (by simp)
    simp only [parseForInc_exp hbegins]
    exact (reads_exp h (by simp [Token.cont]) b).bind (settles_of_forall fun _ => rfl)

theorem reads_return {e : Option Tree} (h : OptDerives o ctx.scope tokenSemicolon ts e)
    (rest : List Token) (next : Nat) :
    StmtAt o ctx (tokenReturn :: (ts ++ rest)) next (.return_ e : Stmt D) rest next := by
  refine reads_stmt fun b => ?_
  show Settles (fun n => parseReturn o n ctx ⟨⟨ts ++ rest, b⟩, next⟩) _
  cases h with
  | none => exact settles_of_forall fun _ => rfl
  | some h =>
    rename_i c
    rw [List.append_assoc]
    have hbegins : Begins (o.cx ctx.scope) (c.toks ++ ([tokenSemicolon] ++ rest)) :=
      (c.begins h).append (by simp)
    simp only [parseReturn_exp hbegins]
    exact (reads_exp h (follows_stop _) b).bind (settles_of_forall fun _ => rfl)

theorem parseForInit_first (h : ∀ us, ts ≠ tokenSemicolon :: us) (n : Nat) (b : Bool) :
    (parseForInit o n scope ⟨⟨ts, b⟩, next⟩ : StmtM ((ForInit D × Scope) × StmtStream)) =
      parseForFirst o n scope ⟨⟨ts, b⟩, next⟩ := by
  unfold parseForInit
  split
  · rename_i ts' hts
    exact absurd hts (h ts')
  · rfl

theorem forInit_reads {init : ForInit D} (h : InitDerives o scope ts init scope')
    (rest : List Token) (next : Nat) :
    StmtReads (fun n => parseForInit o n scope) (ts ++ rest) next (init, scope') rest next := by
  intro b
  cases h with
  | none => exact settles_of_forall fun _ => rfl
  | decls hd =>
    have hne : ∀ us, ts ++ rest ≠ tokenSemicolon :: us := by
      intro us hts
      have hdecl := hd.starts rest
      rw [hts] at hdecl
      cases hdecl
    simp only [parseForInit_first hne]
    exact (settles_with (settles_of_forall fun _ => hd.reads rest b)).bind
      (settles_of_forall fun _ => rfl)
  | expr h =>
    rename_i c
    rw [List.append_assoc]
    have hbegins : Begins (o.cx scope) (c.toks ++ ([tokenSemicolon] ++ rest)) :=
      (c.begins h).append (by simp)
    obtain ⟨t, us, hts, ht, -⟩ := hbegins
    have hne : ∀ us, c.toks ++ ([tokenSemicolon] ++ rest) ≠ tokenSemicolon :: us := by
      intro vs hvs
      obtain ⟨rfl, -⟩ := List.cons.inj (hts.symm.trans hvs)
      cases ht
    simp only [parseForInit_first hne]
    have hgroup := o.group_none scope ⟨c.toks ++ ([tokenSemicolon] ++ rest), b⟩
      (atDecl_of_begins (c.begins h) _)
    have hread : Settles (fun n => parseExp o n scope
        ⟨⟨c.toks ++ ([tokenSemicolon] ++ rest), b⟩, next⟩ >>= fun r =>
          (pure ((.expr r.1, scope), r.2.eat eatSemicolon) :
            StmtM ((ForInit D × Scope) × StmtStream)))
        ((.expr (c.parsed false), scope), ⟨⟨rest, b⟩, next⟩) :=
      (reads_exp h (follows_stop _) b).bind (settles_of_forall fun _ => rfl)
    exact (settles_with (settles_of_forall fun _ => hgroup)).bind hread

/-! ## Labels and jumps -/

theorem reads_gotoComputed (h : c.WellFormed (o.cx ctx.scope)) (rest : List Token) (next : Nat) :
    StmtAt o ctx (tokenGoto :: .op .multiply :: (c.toks ++ tokenSemicolon :: rest)) next
      (.gotoComputed (c.parsed false) : Stmt D) rest next :=
  reads_stmt fun b => (reads_exp h (follows_stop _) b).bind (settles_of_forall fun _ => rfl)

theorem reads_label (spel : String)
    (hl : StmtAt o ctx ts next lhs rest next₁) :
    StmtAt o ctx (.identifier spel :: .colon :: ts) next (.label spel lhs) rest next₁ :=
  reads_stmt fun b => (hl b).bind (settles_of_forall fun _ => rfl)

theorem reads_default
    (hl : StmtAt o ctx ts next lhs rest next₁) :
    StmtAt o ctx (.default :: .colon :: ts) next (.default_ ctx.switchTarget lhs) rest next₁ :=
  reads_stmt fun b => (hl b).bind (settles_of_forall fun _ => rfl)

theorem reads_case (h : c.WellFormed (o.cx ctx.scope)) (hlevel : c.level ≤ 15)
    (hl : StmtAt o ctx ts next lhs rest next₁) :
    StmtAt o ctx (tokenCase :: (c.toks ++ .colon :: ts)) next
      (.case_ ctx.switchTarget (c.parsed false) lhs) rest next₁ :=
  reads_stmt fun b => (reads_constant h hlevel (by simp [Token.cont]) b).bind
    ((hl b).bind (settles_of_forall fun _ => rfl))

theorem reads_caseRange {c₂ : Cst} (h : c.WellFormed (o.cx ctx.scope)) (hlevel : c.level ≤ 15)
    (h₂ : c₂.WellFormed (o.cx ctx.scope)) (hlevel₂ : c₂.level ≤ 15)
    (hl : StmtAt o ctx ts next lhs rest next₁) :
    StmtAt o ctx (tokenCase :: (c.toks ++ .elipsis :: (c₂.toks ++ .colon :: ts))) next
      (.caseRange ctx.switchTarget (c.parsed false) (c₂.parsed false) lhs) rest next₁ :=
  reads_stmt fun b => (reads_constant h hlevel (by simp [Token.cont]) b).bind
    ((reads_constant h₂ hlevel₂ (by simp [Token.cont]) b).bind
      ((hl b).bind (settles_of_forall fun _ => rfl)))

theorem reads_expr (h : c.WellFormed (o.cx ctx.scope)) (rest : List Token) (next : Nat) :
    StmtAt o ctx (c.toks ++ tokenSemicolon :: rest) next
      (.expr (c.parsed false) : Stmt D) rest next := by
  refine reads_stmt fun b => ?_
  have hstmt : ∀ n (p : StmtParsers Scope D), parseStmt o n p ctx
      ⟨⟨c.toks ++ tokenSemicolon :: rest, b⟩, next⟩ =
        parseExp o n ctx.scope ⟨⟨c.toks ++ tokenSemicolon :: rest, b⟩, next⟩ >>= fun r =>
          pure (.expr r.1, r.2.eat eatSemicolon) :=
    fun n p => parseStmt_expr (c.begins h) (by simp) n p b
  simp only [hstmt]
  exact (reads_exp h (follows_stop _) b).bind (settles_of_forall fun _ => rfl)

end Ucc.Cc1.ParseStmt
