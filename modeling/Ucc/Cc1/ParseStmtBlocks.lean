/-
  Cc1/ParseStmtBlocks.lean --- the blocks of the grammar, and every statement.

  Source: parse_stmt_and_decls and parse_stmt_block in src/cc1/parse_stmt.c.

  The loop over declarations stops at the first statement, because no statement starts as a
  declaration does.  The loop over statements stops at the brace, or at a declaration; the
  rest of the block is then a block of its own.
-/
import Ucc.Cc1.ParseStmtReads

set_option autoImplicit false

namespace Ucc.Cc1.ParseStmt

open Ucc.Lib Ucc.Cc1.ParseExpr

variable {Scope D α : Type} {o : Outer Scope D}
  {ctx : StmtCtx Scope} {scope scope' : Scope} {ts us rest : List Token}
  {next next₁ next₂ : Nat} {c : Cst}

/-! ## What a statement starts with -/

/-- Tokens of a statement that is no label. -/
def Plain (o : Outer Scope D) (scope : Scope) (ts : List Token) : Prop :=
  ∃ t us, ts = t :: us ∧ t ≠ .closeBlock ∧ t ≠ tokenElse ∧
    (∀ spel, t = .identifier spel → us.head? ≠ some .colon) ∧ o.atDecl scope ts = false

/-- A label, or a statement that is none. -/
def StmtStarts (o : Outer Scope D) (scope : Scope) (ts : List Token) : Prop :=
  (∃ spel us, ts = .identifier spel :: .colon :: us) ∨ Plain o scope ts

theorem plain_cons {t : Token} (hclose : t ≠ .closeBlock) (helse : t ≠ tokenElse)
    (hid : ∀ spel, t ≠ .identifier spel) (hdecl : ∀ us, o.atDecl scope (t :: us) = false) :
    Plain o scope (t :: us) :=
  ⟨t, us, rfl, hclose, helse, fun spel hspel => absurd hspel (hid spel), hdecl us⟩

theorem plain_of_begins (h : Begins (o.cx scope) ts) (hrest : rest.head? ≠ some .colon) :
    Plain o scope (ts ++ rest) := by
  have hdecl := atDecl_of_begins h rest
  obtain ⟨t, us, hts, ht, hcolon⟩ := h.append hrest
  refine ⟨t, us, hts, ?_, ?_, hcolon, hdecl⟩
  · rintro rfl
    cases ht
  · rintro rfl
    cases ht

theorem plain_other {k : Nat} (helse : k ≠ 2) (hdecl : k ∉ declTokens) (us : List Token) :
    Plain o scope (.other k :: us) :=
  plain_cons (by simp) (by simpa using helse) (by simp) fun us => by
    simpa [Outer.atDecl, atDeclIn] using hdecl

theorem StmtDerives.starts {t : Stmt D} {dangles : Bool}
    (h : StmtDerives o ctx next ts t next₁ dangles) (rest : List Token) :
    StmtStarts o ctx.scope (ts ++ rest) := by
  cases h with
  | label spel hl => exact .inl ⟨spel, _, rfl⟩
  | expr h =>
    rename_i c
    rw [List.append_assoc]
    exact .inr (plain_of_begins (c.begins h) (by simp))
  | block ht => exact .inr (plain_cons (by simp) (by simp) (by simp) fun _ => rfl)
  | default_ hl => exact .inr (plain_cons (by simp) (by simp) (by simp) fun _ => rfl)
  | _ => exact .inr (plain_other (by decide) (by decide) _)

theorem StmtStarts.head_ne (h : StmtStarts o scope ts) :
    ts.head? ≠ some .closeBlock ∧ ts.head? ≠ some tokenElse := by
  obtain ⟨spel, us, rfl⟩ | ⟨t, us, rfl, hclose, helse, -⟩ := h
  · simp
  · exact ⟨by simpa using hclose, by simpa using helse⟩

/-- Behind a statement of a block there is no `else`. -/
theorem StmtsDerive.head_ne_else {first : Bool} {stmts : Stmts D}
    (h : StmtsDerive o first ctx next ts stmts next₁) (rest : List Token) :
    (ts ++ .closeBlock :: rest).head? ≠ some tokenElse := by
  cases h with
  | nil => simp
  | cons hs h =>
    rw [List.append_assoc]
    exact (hs.starts _).head_ne.2
  | nested hdecl hlabel ht =>
    intro hhead
    have h := hdecl (.closeBlock :: rest)
    obtain ⟨us, hus⟩ := List.head?_eq_some_iff.1 hhead
    rw [hus] at h
    cases h

/-! ## Declarations -/

/-- The loop over declarations stops where there is none. -/
theorem DeclsDerive.reads {ds : List D} (h : DeclsDerive o scope ts ds scope')
    (hrest : o.atDecl scope' rest = false) (next : Nat) :
    StmtReads (fun n => (stmtParser o n).decls scope) (ts ++ rest) next (ds, scope') rest next := by
  induction h with
  | nil =>
    refine reads_decls fun b => ?_
    exact (settles_with (settles_of_forall fun _ => o.group_none _ ⟨rest, b⟩ hrest)).bind
      (settles_of_forall fun _ => rfl)
  | cons hd h ih =>
    refine reads_decls fun b => ?_
    rw [List.append_assoc]
    exact (settles_with (settles_of_forall fun _ => hd.reads _ b)).bind
      ((ih hrest b).bind (settles_of_forall fun _ => rfl))

theorem firstDecls_reads {ds : List D} (h : DeclsDerive o (o.symtabNew scope) ts ds scope')
    (hrest : o.atDecl scope' rest = false) (next : Nat) :
    StmtReads (fun n => parseFirstDecls o (stmtParser o n) scope) (ts ++ rest) next (ds, scope') rest
      next := by
  intro b
  cases h with
  | nil =>
    rw [o.atDecl_new] at hrest
    have hfirst : ∀ p : StmtParsers Scope D, parseFirstDecls o p scope ⟨⟨rest, b⟩, next⟩ =
        pure (([], o.symtabNew scope), ⟨⟨rest, b⟩, next⟩) := fun p => by
      simp only [parseFirstDecls, hrest, Bool.false_eq_true, if_false]
    exact settles_of_forall fun n => hfirst _
  | cons hd h =>
    rename_i vs ws d ds
    have hdecl : o.atDecl scope (vs ++ ws ++ rest) = true := by
      rw [← o.atDecl_new, List.append_assoc]
      exact hd.starts _
    have hfirst : ∀ p : StmtParsers Scope D, parseFirstDecls o p scope
        ⟨⟨vs ++ ws ++ rest, b⟩, next⟩ = p.decls (o.symtabNew scope) ⟨⟨vs ++ ws ++ rest, b⟩, next⟩ :=
      fun p => by simp only [parseFirstDecls, hdecl, if_true]
    simp only [hfirst]
    exact (DeclsDerive.cons hd h).reads hrest next b

/-! ## The statements of a block -/

/-- The parser reads what is in the braces of a block. -/
def CodeReads (o : Outer Scope D) (ctx : StmtCtx Scope) (next : Nat) (ts : List Token) (t : Stmt D)
    (next₁ : Nat) : Prop :=
  ∀ rest, StmtReads (fun n => (stmtParser o n).andDecls ctx) (ts ++ .closeBlock :: rest) next t
    (.closeBlock :: rest) next₁

/-- The second loop reads the statements of a block, up to the brace or up to further
declarations, which are read as a block. -/
def StmtsRead (o : Outer Scope D) (first : Bool) (ctx : StmtCtx Scope) (next : Nat)
    (ts : List Token) (stmts : Stmts D) (next₁ : Nat) : Prop :=
  ∀ rest,
    StmtReads (fun n => (stmtParser o n).stmts ctx) (ts ++ .closeBlock :: rest) next (stmts, false)
      (.closeBlock :: rest) next₁ ∨
    ∃ before t us next', stmts = before.snoc t ∧ (first = true → before ≠ .nil) ∧
      StmtReads (fun n => (stmtParser o n).stmts ctx) (ts ++ .closeBlock :: rest) next (before, true)
        us next' ∧
      StmtReads (fun n => (stmtParser o n).andDecls ctx) us next' t (.closeBlock :: rest) next₁

variable {s t lhs : Stmt D} {stmts : Stmts D} {decls : List D} {first atDecl : Bool}

/-- The second loop parses the labels itself. -/
theorem settles_succ {x : Nat → StmtM α} {a : α} (h : Settles x a) :
    Settles (fun n => x (n + 1)) a := by
  obtain ⟨n, hn⟩ := h
  exact ⟨n, fun m hm => hn (m + 1) (by omega)⟩

theorem parseStmts_label (spel : String) (n : Nat) (b : Bool) :
    parseStmts o (stmtParser o n) ctx ⟨⟨.identifier spel :: .colon :: ts, b⟩, next⟩ =
      (stmtParser o (n + 1)).stmt ctx ⟨⟨.identifier spel :: .colon :: ts, b⟩, next⟩ >>= fun r =>
        parseStmtThen (stmtParser o n) ctx r.1 r.2 :=
  rfl

theorem parseStmts_plain (h : Plain o ctx.scope ts) (p : StmtParsers Scope D) (b : Bool) :
    parseStmts o p ctx ⟨⟨ts, b⟩, next⟩ =
      p.stmt ctx ⟨⟨ts, b⟩, next⟩ >>= fun r => parseStmtThen p ctx r.1 r.2 := by
  obtain ⟨t, us, rfl, hclose, -, hlabel, hdecl⟩ := h
  unfold parseStmts
  split
  · rename_i spel vs hts
    obtain ⟨rfl, rfl⟩ := List.cons.inj hts
    exact absurd rfl (hlabel spel rfl)
  · rename_i vs hts
    exact absurd (List.cons.inj hts).1 hclose
  · simp only [hdecl, Bool.false_eq_true, if_false]

/-- The second loop stops at a declaration. -/
theorem parseStmts_decl (hdecl : o.atDecl ctx.scope ts = true)
    (hlabel : ∀ spel us, ts ≠ .identifier spel :: .colon :: us) (p : StmtParsers Scope D) (b : Bool) :
    parseStmts o p ctx ⟨⟨ts, b⟩, next⟩ = pure ((.nil, true), ⟨⟨ts, b⟩, next⟩) := by
  unfold parseStmts
  split
  · rename_i spel vs hts
    exact absurd hts (hlabel spel vs)
  · rename_i vs hts
    obtain rfl : ts = .closeBlock :: vs := hts
    cases hdecl
  · simp only [hdecl, if_true]

/-- A turn of the second loop. -/
theorem reads_stmts_cons {ts' : List Token} (hstart : StmtStarts o ctx.scope ts)
    (hs : StmtAt o ctx ts next s ts' next₁)
    (h : StmtReads (fun n => (stmtParser o n).stmts ctx) ts' next₁ (stmts, atDecl) rest next₂) :
    StmtReads (fun n => (stmtParser o n).stmts ctx) ts next (.cons s stmts, atDecl) rest next₂ := by
  refine reads_stmts fun b => ?_
  have hthen : Settles (fun n => parseStmtThen (stmtParser o n) ctx s ⟨⟨ts', b⟩, next₁⟩)
      ((.cons s stmts, atDecl), ⟨⟨rest, b⟩, next₂⟩) :=
    (h b).bind (settles_of_forall fun _ => rfl)
  obtain ⟨spel, us, rfl⟩ | hplain := hstart
  · simp only [parseStmts_label]
    exact (settles_succ (hs b)).bind hthen
  · simp only [parseStmts_plain hplain]
    exact (hs b).bind hthen

theorem stmtsRead_nil : StmtsRead o first ctx next [] .nil next :=
  fun _ => .inl (reads_stmts fun _ => settles_of_forall fun _ => rfl)

theorem stmtsRead_cons {ts : List Token} (hstart : ∀ rest, StmtStarts o ctx.scope (ts ++ rest))
    (hs : ∀ rest, StmtAt o ctx (ts ++ (us ++ .closeBlock :: rest))
      next s (us ++ .closeBlock :: rest) next₁)
    (h : StmtsRead o false ctx next₁ us stmts next₂) :
    StmtsRead o first ctx next (ts ++ us) (.cons s stmts) next₂ := by
  intro rest
  rw [List.append_assoc]
  obtain hstop | ⟨before, t, vs, next', rfl, -, hbefore, hnest⟩ := h rest
  · exact .inl (reads_stmts_cons (hstart _) (hs rest) hstop)
  · exact .inr ⟨.cons s before, t, vs, next', rfl, fun _ => by simp,
      reads_stmts_cons (hstart _) (hs rest) hbefore, hnest⟩

theorem stmtsRead_nested (hdecl : ∀ rest, o.atDecl ctx.scope (ts ++ rest) = true)
    (hlabel : ∀ rest spel us, ts ++ rest ≠ .identifier spel :: .colon :: us)
    (ht : CodeReads o ctx next ts t next₁) :
    StmtsRead o false ctx next ts (.cons t .nil) next₁ := by
  intro rest
  refine .inr ⟨.nil, t, ts ++ .closeBlock :: rest, next, rfl, by simp, ?_, ht rest⟩
  exact reads_stmts fun b => settles_of_forall fun n => parseStmts_decl (hdecl _) (hlabel _) _ b

/-! ## Blocks -/

theorem parseAfterDecls_stmts (hts : ts.head? ≠ some .closeBlock) (p : StmtParsers Scope D)
    (b : Bool) :
    parseAfterDecls p ctx decls ⟨⟨ts, b⟩, next⟩ =
      p.stmts ctx ⟨⟨ts, b⟩, next⟩ >>= fun r => parseNested p ctx decls r.1.1 r.1.2 r.2 := by
  unfold parseAfterDecls
  split
  · rename_i us hus
    exact absurd (congrArg List.head? hus) hts
  · rfl

/-- What is behind the declarations of a block. -/
theorem afterDecls_reads (hs : StmtsRead o true ctx next us stmts next₁)
    (hstart : ∀ rest, (us ++ Token.closeBlock :: rest).head? ≠ some .closeBlock)
    (rest : List Token) :
    StmtReads (fun n => parseAfterDecls (stmtParser o n) ctx decls) (us ++ .closeBlock :: rest) next
      (.code decls stmts) (.closeBlock :: rest) next₁ := by
  intro b
  simp only [parseAfterDecls_stmts (hstart rest)]
  obtain hstop | ⟨before, t, vs, next', rfl, hne, hbefore, hnest⟩ := hs rest
  · exact (hstop b).bind (settles_of_forall fun _ => rfl)
  · refine (hbefore b).bind ?_
    cases before with
    | nil => exact absurd rfl (hne rfl)
    | cons s before => exact (hnest b).bind (settles_of_forall fun _ => rfl)

/-- A block that ends behind its declarations. -/
theorem afterDecls_nil (rest : List Token) (next : Nat) :
    StmtReads (fun n => parseAfterDecls (stmtParser o n) ctx decls) (.closeBlock :: rest) next
      (.code decls .nil) (.closeBlock :: rest) next :=
  fun _ => settles_of_forall fun _ => rfl

theorem reads_block
    (h : StmtReads (fun n => (stmtParser o n).andDecls ctx) ts next t (.closeBlock :: rest) next₁) :
    StmtAt o ctx (.openBlock :: ts) next t rest next₁ :=
  reads_stmt fun b => (h b).bind (settles_of_forall fun _ => rfl)

/-- The first statement of a block is no declaration. -/
theorem StmtStarts.not_decl (h : StmtStarts o scope (us ++ .closeBlock :: rest))
    (hfirst : ∀ spel vs, us = .identifier spel :: .colon :: vs → (o.cx scope).atTdef spel = false) :
    o.atDecl scope (us ++ .closeBlock :: rest) = false := by
  obtain ⟨spel, vs, hus⟩ | ⟨-, -, -, -, -, -, hdecl⟩ := h
  · rw [hus]
    cases us with
    | nil => cases hus
    | cons t us =>
      obtain ⟨rfl, htail⟩ := List.cons.inj hus
      cases us with
      | nil => cases htail
      | cons t us =>
        obtain ⟨rfl, -⟩ := List.cons.inj htail
        exact hfirst spel us rfl
  · exact hdecl

theorem StmtsDerive.first_starts (h : StmtsDerive o true ctx next us stmts next₁) :
    (us = [] ∧ stmts = .nil ∧ next₁ = next) ∨ ∀ rest, StmtStarts o ctx.scope (us ++ rest) := by
  cases h with
  | nil => exact .inl ⟨rfl, rfl, rfl⟩
  | cons hs h =>
    refine .inr fun rest => ?_
    rw [List.append_assoc]
    exact hs.starts _

theorem code_reads (hd : DeclsDerive o (o.symtabNew ctx.scope) ts decls scope)
    (hs : StmtsRead o true { ctx with scope := scope } next us stmts next₁)
    (hstart : (us = [] ∧ stmts = .nil ∧ next₁ = next) ∨ ∀ rest, StmtStarts o scope (us ++ rest))
    (hfirst : ∀ spel vs, us = .identifier spel :: .colon :: vs → (o.cx scope).atTdef spel = false) :
    CodeReads o ctx next (ts ++ us) (.code decls stmts) next₁ := by
  intro rest
  rw [List.append_assoc]
  obtain ⟨rfl, rfl, rfl⟩ | hstart := hstart
  · exact reads_andDecls fun b => (firstDecls_reads hd rfl _ b).bind (afterDecls_nil rest _ b)
  · have hstop := (hstart (.closeBlock :: rest)).not_decl hfirst
    exact reads_andDecls fun b => (firstDecls_reads hd hstop next b).bind
      (afterDecls_reads hs (fun rest => (hstart _).head_ne.1) rest b)

/-! ## Every statement -/

mutual

/-- The parser reads a statement of the grammar, unless its `if` has no `else` and one
follows. -/
theorem StmtDerives.reads {o : Outer Scope D} {ctx : StmtCtx Scope} {next next₁ : Nat}
    {ts : List Token} {t : Stmt D} {dangles : Bool} :
    StmtDerives o ctx next ts t next₁ dangles →
      ∀ rest, (dangles = true → rest.head? ≠ some tokenElse) →
        StmtAt o ctx (ts ++ rest) next t rest next₁
  | .noop, _, _ => reads_stmt fun _ => settles_of_forall fun _ => rfl
  | .break_, _, _ => reads_stmt fun _ => settles_of_forall fun _ => rfl
  | .continue_, _, _ => reads_stmt fun _ => settles_of_forall fun _ => rfl
  | .goto_ _, _, _ => reads_stmt fun _ => settles_of_forall fun _ => rfl
  | .return_ he, rest, _ => reads_return he rest _
  | .gotoComputed h, rest, _ => by
      simpa only [List.cons_append, List.append_assoc, List.nil_append] using
        reads_gotoComputed h rest _
  | .if_ ht hl, rest, hrest => by
      simpa only [List.cons_append, List.append_assoc] using
        reads_if (ht.reads _ _) (hl.reads rest fun _ => hrest rfl) (hrest rfl)
  | .ifElse ht hl hr, rest, hrest => by
      simpa only [List.cons_append, List.append_assoc] using
        reads_ifElse (ht.reads _ _) (hl.reads _ (fun h => by cases h)) (hr.reads rest hrest)
  | .switch_ ht hl, rest, hrest => by
      simpa only [List.cons_append, List.append_assoc] using
        reads_switch (ht.reads _ _) (hl.reads rest hrest)
  | .while_ ht hl, rest, hrest => by
      simpa only [List.cons_append, List.append_assoc] using
        reads_while (ht.reads _ _) (hl.reads rest hrest)
  | .do_ hl h, rest, _ => by
      simpa only [List.cons_append, List.append_assoc, List.nil_append] using
        reads_do (hl.reads _ (fun _ => by simp)) h
  | .for_ hi ht hn hl, rest, hrest => by
      simpa only [List.cons_append, List.append_assoc] using
        reads_for (forInit_reads hi _ _) (forWhile_reads ht _ _) (forInc_reads hn _ _)
          (hl.reads rest hrest)
  | .label spel hl, rest, hrest => reads_label spel (hl.reads rest hrest)
  | .case_ hlevel h hl, rest, hrest => by
      simpa only [List.cons_append, List.append_assoc] using
        reads_case h hlevel (hl.reads rest hrest)
  | .caseRange hlevel h hlevel₂ h₂ hl, rest, hrest => by
      simpa only [List.cons_append, List.append_assoc] using
        reads_caseRange h hlevel h₂ hlevel₂ (hl.reads rest hrest)
  | .default_ hl, rest, hrest => reads_default (hl.reads rest hrest)
  | .block ht, rest, _ => by
      simpa only [List.cons_append, List.append_assoc, List.nil_append] using
        reads_block (ht.reads rest)
  | .expr h, rest, _ => by
      simpa only [List.append_assoc, List.cons_append, List.nil_append] using reads_expr h rest _

theorem CodeDerives.reads {o : Outer Scope D} {ctx : StmtCtx Scope} {next next₁ : Nat}
    {ts : List Token} {t : Stmt D} : CodeDerives o ctx next ts t next₁ → CodeReads o ctx next ts t next₁
  | .code hd hs hfirst => code_reads hd hs.reads hs.first_starts hfirst

theorem StmtsDerive.reads {o : Outer Scope D} {first : Bool} {ctx : StmtCtx Scope}
    {next next₁ : Nat} {ts : List Token} {stmts : Stmts D} :
    StmtsDerive o first ctx next ts stmts next₁ → StmtsRead o first ctx next ts stmts next₁
  | .nil => stmtsRead_nil
  | .cons hs h => stmtsRead_cons hs.starts (fun rest => hs.reads _ fun _ => h.head_ne_else rest)
      h.reads
  | .nested hdecl hlabel ht => stmtsRead_nested hdecl hlabel ht.reads

end

/-- `parse_stmt` reads every statement of the grammar to its end, without an error, and
returns its tree; unless an `else` follows that could be its own. -/
theorem stmt_reads_derivation (o : Outer Scope D) (ctx : StmtCtx Scope) (next next₁ : Nat)
    (ts : List Token) (t : Stmt D) (dangles : Bool)
    (h : StmtDerives o ctx next ts t next₁ dangles) (rest : List Token)
    (hrest : dangles = true → rest.head? ≠ some tokenElse) (hadError : Bool) :
    ∃ n, ∀ m, n ≤ m → (stmtParser o m).stmt ctx ⟨⟨ts ++ rest, hadError⟩, next⟩ =
      pure (t, ⟨⟨rest, hadError⟩, next₁⟩) :=
  h.reads rest hrest hadError

/-- A scope without typedefs, builtins and blocks. -/
def scopeOfVars : Context where
  atTdef := fun _ => false
  builtinParse := fun _ => none
  parseBlock := fun _ => .die (.expressionExpected none)
  parseStmtBlock := fun _ => .die (.expressionExpected none)

/-- Variables of the type `int`, which has the number 30. -/
def intVars : Outer (List String) String where
  cx := fun _ => scopeOfVars
  symtabNew := id
  symtabNewTransparent := id
  c99 := true
  parseDecl := fun scope s =>
    match s.toks with
    | .other 30 :: .identifier x :: ts => pure ((x, x, x :: scope), ⟨ts, s.hadError⟩)
    | _ => .die (.expressionExpected none)
  parseDeclGroup := fun scope s =>
    if atDeclIn (fun _ => false) s.toks then
      match s.toks with
      | .other 30 :: .identifier x :: .other 61 :: ts =>
          pure (some (x, x :: scope), ⟨ts, s.hadError⟩)
      | _ => .die (.expressionExpected none)
    else pure (none, s)
  atTdef_new := fun _ => rfl
  group_none := fun _ _ h => by simp [scopeOfVars] at h; simp [h]

theorem intVars_group (scope : List String) (x : String) :
    intVars.GroupReads scope [.other 30, .identifier x, tokenSemicolon] x (x :: scope) where
  starts := fun _ => rfl
  notLabel := fun _ _ _ => by simp
  reads := fun _ _ => rfl

theorem intVars_var (scope : List String) (x : String) :
    (Cst.identifier x).WellFormed (intVars.cx scope) := by
  simp [Cst.WellFormed, intVars, scopeOfVars]

theorem intVars_test (scope : List String) (x : String) :
    TestDerives intVars scope [.identifier x] ⟨none, .identifier x⟩ scope :=
  .expr (intVars_var scope x)

/-- `{ int x; for(int i; i; ) if(x) if(i) break; else continue; int y; switch(y) case 1: y; }`
at the start of a function. -/
theorem stmt_reads_mixed : ∃ n, ∀ m, n ≤ m →
    (stmtParser intVars m).stmt ⟨none, none, none, []⟩ ⟨⟨[.openBlock,
      .other 30, .identifier "x", tokenSemicolon,
      tokenFor, .openParen, .other 30, .identifier "i", tokenSemicolon, .identifier "i",
        tokenSemicolon, .closeParen,
      tokenIf, .openParen, .identifier "x", .closeParen,
      tokenIf, .openParen, .identifier "i", .closeParen, tokenBreak, tokenSemicolon,
      tokenElse, tokenContinue, tokenSemicolon,
      .other 30, .identifier "y", tokenSemicolon,
      tokenSwitch, .openParen, .identifier "y", .closeParen, tokenCase, .numeric 1, .colon,
        .identifier "y", tokenSemicolon, .closeBlock], false⟩, 0⟩ =
      pure (.code ["x"] (.cons
        (.for_ 0 (.decls "i") (some (.identifier "i")) none
          (.if_ ⟨none, .identifier "x"⟩
            (.ifElse ⟨none, .identifier "i"⟩ (.break_ (some 0)) (.continue_ (some 0)))))
        (.cons (.code ["y"] (.cons
          (.switch_ 1 ⟨none, .identifier "y"⟩
            (.case_ (some 1) (.numeric 1) (.expr (.identifier "y")))) .nil)) .nil)),
        ⟨⟨[], false⟩, 2⟩) :=
  stmt_reads_derivation intVars ⟨none, none, none, []⟩ 0 2 _ _ false
    (.block (.code (.cons (intVars_group [] "x") .nil)
      (.cons
        (.for_ (.decls (intVars_group ["x"] "i")) (.some (intVars_var ["i", "x"] "i")) .none
          (.if_ (intVars_test _ "x") (.ifElse (intVars_test _ "i") .break_ .continue_)))
        (.nested (fun _ => rfl) (fun _ _ _ => by simp)
          (.code (.cons (intVars_group ["x"] "y") .nil)
            (.cons (.switch_ (intVars_test _ "y")
              (.case_ (c := .numeric 1) (by decide) (by simp [Cst.WellFormed])
                (.expr (intVars_var ["y", "x"] "y")))) .nil)
            (by simp)))) (by simp)))
    [] (by simp) false

end Ucc.Cc1.ParseStmt
