/-
  Cc1/ParseStmt.lean --- the parser for statements.

  Source: src/cc1/parse_stmt.c; parse_at_decl and the start of parse_decl_group in
  src/cc1/parse_type.c, flow_fold in src/cc1/ops/stmt_if.c.

  Declarations are read by parse_type.c, which `Outer` supplies with its scopes.  The
  statements that are left by `break`, continued or switched in are numbered as they are
  made.  Attributes, static assertions, local labels, warnings and what is folded of a
  statement are left out.

  As in Cc1/ParseExpr.lean each function is written over a record of those it calls, and
  `stmtParser n` is that record for calls at most `n` deep.
-/
import Ucc.Cc1.ParseExprTrees

set_option autoImplicit false

namespace Ucc.Cc1.ParseStmt

open Ucc.Lib Ucc.Cc1.ParseExpr

/-! ## Tokens and trees -/

@[match_pattern] abbrev tokenDo : Token := .other 0
@[match_pattern] abbrev tokenIf : Token := .other 1
@[match_pattern] abbrev tokenElse : Token := .other 2
@[match_pattern] abbrev tokenWhile : Token := .other 3
@[match_pattern] abbrev tokenFor : Token := .other 4
@[match_pattern] abbrev tokenBreak : Token := .other 5
@[match_pattern] abbrev tokenContinue : Token := .other 6
@[match_pattern] abbrev tokenReturn : Token := .other 7
@[match_pattern] abbrev tokenSwitch : Token := .other 8
@[match_pattern] abbrev tokenCase : Token := .other 9
@[match_pattern] abbrev tokenGoto : Token := .other 11
@[match_pattern] abbrev tokenSemicolon : Token := .other 61

/-- The test of a statement, with the declaration in front of it. -/
structure Test (D : Type) where
  init : Option D
  e : Tree

/-- What is in front of the first `;` of a `for`. -/
inductive ForInit (D : Type) where
  | none
  | decls (d : D)
  | expr (e : Tree)

mutual

/-- `stmt`.  A target is the number of a statement, and none where there is no such
statement around; `id` is the number of the statement itself. -/
inductive Stmt (D : Type) where
  | noop
  | break_ (target : Option Nat)
  | continue_ (target : Option Nat)
  | return_ (e : Option Tree)
  | goto_ (spel : String)
  | gotoComputed (e : Tree)
  | if_ (test : Test D) (lhs : Stmt D)
  | ifElse (test : Test D) (lhs rhs : Stmt D)
  | switch_ (id : Nat) (test : Test D) (lhs : Stmt D)
  | while_ (id : Nat) (test : Test D) (lhs : Stmt D)
  | do_ (id : Nat) (lhs : Stmt D) (e : Tree)
  | for_ (id : Nat) (init : ForInit D) (test inc : Option Tree) (lhs : Stmt D)
  | label (spel : String) (lhs : Stmt D)
  | case_ (target : Option Nat) (e : Tree) (lhs : Stmt D)
  | caseRange (target : Option Nat) (e e₂ : Tree) (lhs : Stmt D)
  | default_ (target : Option Nat) (lhs : Stmt D)
  | code (decls : List D) (stmts : Stmts D)
  | expr (e : Tree)

inductive Stmts (D : Type) where
  | nil
  | cons (s : Stmt D) (rest : Stmts D)

end

variable {Scope D : Type}

/-- `dynarray_add` -/
def Stmts.snoc : Stmts D → Stmt D → Stmts D
  | .nil, t => .cons t .nil
  | .cons s rest, t => .cons s (rest.snoc t)

/-! ## What is around the parser -/

/-- The tokens that start a declaration, less type names. -/
def declTokens : List Nat :=
  [14, 15, 27, 28, 29, 30, 31, 32, 33, 34, 35, 36, 37, 38, 39, 40, 41, 42, 43, 44, 45, 46, 49, 50,
    51, 52, 53]

/-- `parse_at_decl`, given what `parse_at_tdef` says. -/
def atDeclIn (atTdef : String → Bool) : List Token → Bool
  | .extension :: ts => atDeclIn atTdef ts
  | .typeName _ :: _ => true
  | .identifier spel :: _ => atTdef spel
  | .other t :: _ => t ∈ declTokens
  | _ => false

/-- The scopes, the parser for declarations and what the parser for expressions asks. -/
structure Outer (Scope D : Type) where
  cx : Scope → Context
  /-- `symtab_new` -/
  symtabNew : Scope → Scope
  /-- `symtab_new_transparent` -/
  symtabNewTransparent : Scope → Scope
  /-- `cc1_std >= STD_C99` -/
  c99 : Bool
  /-- `parse_decl` with `DECL_SPEL_NEED`: the declaration, its name, the scope with it -/
  parseDecl : Scope → Stream → ParseM ((D × String × Scope) × Stream)
  /-- `parse_decl_group`: the declarations and the scope with them, or nothing -/
  parseDeclGroup : Scope → Stream → ParseM (Option (D × Scope) × Stream)
  /-- there are no declarations in a new scope -/
  atTdef_new : ∀ scope, (cx (symtabNew scope)).atTdef = Context.atTdef (cx scope)
  /-- `parse_decl_group` returns 0 where there is no type -/
  group_none : ∀ scope (s : Stream), atDeclIn (cx scope).atTdef s.toks = false →
    parseDeclGroup scope s = pure (none, s)

/-- `parse_at_decl` -/
def Outer.atDecl (o : Outer Scope D) (scope : Scope) (ts : List Token) : Bool :=
  atDeclIn (o.cx scope).atTdef ts

/-- The scope of a test. -/
def Outer.testScope (o : Outer Scope D) (scope : Scope) : Scope :=
  if o.c99 then o.symtabNew scope else o.symtabNewTransparent scope

/-- `struct stmt_ctx` -/
structure StmtCtx (Scope : Type) where
  continueTarget : Option Nat
  breakTarget : Option Nat
  switchTarget : Option Nat
  scope : Scope

/-- The errors that end the parser. -/
inductive StmtFault where
  | expr (f : ParseFault)
  /-- "got another decl - should've been handled already" -/
  | anotherDecl

/-- The tokens, and how many statements have a number. -/
structure StmtStream where
  s : Stream
  next : Nat

abbrev StmtM : Type → Type := Partial StmtFault

/-- An error of another parser. -/
def liftFault {α : Type} : ParseM α → StmtM α
  | none => .deep
  | some (.error f) => .die (.expr f)
  | some (.ok a) => pure a

/-- Another parser reads on. -/
def StmtStream.with {α : Type} (st : StmtStream) (f : Stream → ParseM (α × Stream)) :
    StmtM (α × StmtStream) := do
  let r ← liftFault (f st.s)
  pure (r.1, ⟨r.2, st.next⟩)

/-- The tokens behind the current one. -/
def StmtStream.at (st : StmtStream) (ts : List Token) : StmtStream := ⟨{ st.s with toks := ts }, st.next⟩

/-- `EAT`, for a token that the parser for expressions does not know. -/
def eatOther (t : Nat) (s : Stream) : Stream :=
  match s.toks with
  | .other t' :: ts => if t' = t then { s with toks := ts } else { s with hadError := true }
  | _ => { s with hadError := true }

/-- `EAT` -/
def StmtStream.eat (st : StmtStream) (f : Stream → Stream) : StmtStream := ⟨f st.s, st.next⟩

/-- `EAT(token_semicolon)` -/
def eatSemicolon : Stream → Stream := eatOther 61

/-! ## The parser -/

/-- The functions of the parser. -/
structure StmtParsers (Scope D : Type) where
  stmt : StmtCtx Scope → StmtStream → StmtM (Stmt D × StmtStream)
  /-- the first loop of `parse_stmt_and_decls` -/
  decls : Scope → StmtStream → StmtM ((List D × Scope) × StmtStream)
  /-- the second loop of `parse_stmt_and_decls`, with `at_decl` -/
  stmts : StmtCtx Scope → StmtStream → StmtM ((Stmts D × Bool) × StmtStream)
  /-- `parse_stmt_and_decls` -/
  andDecls : StmtCtx Scope → StmtStream → StmtM (Stmt D × StmtStream)

/-- Calls that are not made any more. -/
def StmtParsers.deep : StmtParsers Scope D where
  stmt := fun _ _ => .deep
  decls := fun _ _ => .deep
  stmts := fun _ _ => .deep
  andDecls := fun _ _ => .deep

section Functions

variable (o : Outer Scope D) (n : Nat) (p : StmtParsers Scope D)

/-- `parse_expr_exp` -/
def parseExp (scope : Scope) (st : StmtStream) : StmtM (Tree × StmtStream) :=
  st.with ((parser (o.cx scope) n).exp false)

/-- `PARSE_EXPR_CONSTANT` -/
def parseConstant (scope : Scope) (st : StmtStream) : StmtM (Tree × StmtStream) :=
  st.with ((parser (o.cx scope) n).assignment false)

/-- The test of a statement that has a declaration; `scope` is the scope around it. -/
def parseTestDecl (scope : Scope) (st : StmtStream) :
    StmtM ((Test D × Scope) × StmtStream) := do
  let ((d, spel, scope), st) ← st.with (o.parseDecl (o.symtabNew scope))
  match st.s.toks with
  | tokenSemicolon :: ts =>
      let (e, st) ← parseExp o n scope (st.at ts)
      pure ((⟨some d, e⟩, scope), st.eat ParseExpr.eatCloseParen)
  | _ => pure ((⟨some d, .identifier spel⟩, scope), st.eat ParseExpr.eatCloseParen)

/-- The test of a statement that is an expression. -/
def parseTestExp (scope : Scope) (st : StmtStream) : StmtM ((Test D × Scope) × StmtStream) := do
  let (e, st) ← parseExp o n scope st
  pure ((⟨none, e⟩, scope), st.eat ParseExpr.eatCloseParen)

/-- `parse_test_init_expr` -/
def parseTestInitExpr (scope : Scope) (st : StmtStream) : StmtM ((Test D × Scope) × StmtStream) :=
  let st := st.eat eatOpenParen
  let scope := o.testScope scope
  if o.atDecl scope st.s.toks then parseTestDecl o n scope st else parseTestExp o n scope st

/-- `parse_if`, from behind the keyword. -/
def parseIf (ctx : StmtCtx Scope) (st : StmtStream) : StmtM (Stmt D × StmtStream) := do
  let ((test, scope), st) ← parseTestInitExpr o n ctx.scope st
  let (lhs, st) ← p.stmt { ctx with scope := scope } st
  match st.s.toks with
  | tokenElse :: ts =>
      let (rhs, st) ← p.stmt { ctx with scope := scope } (st.at ts)
      pure (.ifElse test lhs rhs, st)
  | _ => pure (.if_ test lhs, st)

/-- `parse_switch`, from behind the keyword. -/
def parseSwitch (ctx : StmtCtx Scope) (st : StmtStream) : StmtM (Stmt D × StmtStream) := do
  let id := st.next
  let ((test, scope), st) ← parseTestInitExpr o n ctx.scope ⟨st.s, id + 1⟩
  let (lhs, st) ← p.stmt
    { ctx with breakTarget := some id, switchTarget := some id, scope := scope } st
  pure (.switch_ id test lhs, st)

/-- `parse_while`, from behind the keyword. -/
def parseWhile (ctx : StmtCtx Scope) (st : StmtStream) : StmtM (Stmt D × StmtStream) := do
  let id := st.next
  let ((test, scope), st) ← parseTestInitExpr o n ctx.scope ⟨st.s, id + 1⟩
  let (lhs, st) ← p.stmt
    { ctx with breakTarget := some id, continueTarget := some id, scope := scope } st
  pure (.while_ id test lhs, st)

/-- `parse_do`, from behind the keyword. -/
def parseDo (ctx : StmtCtx Scope) (st : StmtStream) : StmtM (Stmt D × StmtStream) := do
  let id := st.next
  let (lhs, st) ← p.stmt { ctx with breakTarget := some id, continueTarget := some id }
    ⟨st.s, id + 1⟩
  let (e, st) ← parseExp o n ctx.scope ((st.eat (eatOther 3)).eat eatOpenParen)
  pure (.do_ id lhs e, (st.eat ParseExpr.eatCloseParen).eat eatSemicolon)

/-- The declarations or the expression at the start of a `for`, and the semicolon. -/
def parseForFirst (scope : Scope) (st : StmtStream) :
    StmtM ((ForInit D × Scope) × StmtStream) := do
  let (decls, st) ← st.with (o.parseDeclGroup scope)
  match decls with
  | some (d, scope) => pure ((.decls d, scope), st)
  | none =>
      let (e, st) ← parseExp o n scope st
      pure ((.expr e, scope), st.eat eatSemicolon)

/-- The first part of a `for`. -/
def parseForInit (scope : Scope) (st : StmtStream) :
    StmtM ((ForInit D × Scope) × StmtStream) :=
  match st.s.toks with
  | tokenSemicolon :: ts => pure ((.none, scope), st.at ts)
  | _ => parseForFirst o n scope st

/-- The second part. -/
def parseForWhile (scope : Scope) (st : StmtStream) : StmtM (Option Tree × StmtStream) :=
  match st.s.toks with
  | tokenSemicolon :: ts => pure (none, st.at ts)
  | _ => do
      let (e, st) ← parseExp o n scope st
      pure (some e, st.eat eatSemicolon)

/-- The third part. -/
def parseForInc (scope : Scope) (st : StmtStream) : StmtM (Option Tree × StmtStream) :=
  match st.s.toks with
  | .closeParen :: ts => pure (none, st.at ts)
  | _ => do
      let (e, st) ← parseExp o n scope st
      pure (some e, st.eat ParseExpr.eatCloseParen)

/-- `parse_for`, from behind the keyword. -/
def parseFor (ctx : StmtCtx Scope) (st : StmtStream) : StmtM (Stmt D × StmtStream) := do
  let id := st.next
  let ((init, scope), st) ←
    parseForInit o n (o.symtabNew ctx.scope) ((⟨st.s, id + 1⟩ : StmtStream).eat eatOpenParen)
  let (test, st) ← parseForWhile o n scope st
  let (inc, st) ← parseForInc o n scope st
  let (lhs, st) ← p.stmt
    { ctx with breakTarget := some id, continueTarget := some id, scope := scope } st
  pure (.for_ id init test inc lhs, st)

/-- `return`, from behind the keyword. -/
def parseReturn (ctx : StmtCtx Scope) (st : StmtStream) : StmtM (Stmt D × StmtStream) :=
  match st.s.toks with
  | tokenSemicolon :: ts => pure (.return_ none, st.at ts)
  | _ => do
      let (e, st) ← parseExp o n ctx.scope st
      pure (.return_ (some e), st.eat eatSemicolon)

/-- `goto`, from behind the keyword. -/
def parseGoto (ctx : StmtCtx Scope) (st : StmtStream) : StmtM (Stmt D × StmtStream) :=
  match st.s.toks with
  | .op .multiply :: ts => do
      let (e, st) ← parseExp o n ctx.scope (st.at ts)
      pure (.gotoComputed e, st.eat eatSemicolon)
  | .identifier spel :: ts => pure (.goto_ spel, (st.at ts).eat eatSemicolon)
  -- "identifier or '*' expected for goto", which does not set `parse_had_error`
  | _ => pure (.goto_ dummyIdentifier, st.eat eatSemicolon)

/-- `case`, from behind the keyword. -/
def parseCase (ctx : StmtCtx Scope) (st : StmtStream) : StmtM (Stmt D × StmtStream) := do
  let (e, st) ← parseConstant o n ctx.scope st
  match st.s.toks with
  | .elipsis :: ts =>
      let (e₂, st) ← parseConstant o n ctx.scope (st.at ts)
      let (lhs, st) ← p.stmt ctx (st.eat eatColon)
      pure (.caseRange ctx.switchTarget e e₂ lhs, st)
  | _ =>
      let (lhs, st) ← p.stmt ctx (st.eat eatColon)
      pure (.case_ ctx.switchTarget e lhs, st)

/-- `parse_label`, from behind the colon. -/
def parseLabel (ctx : StmtCtx Scope) (spel : String) (st : StmtStream) :
    StmtM (Stmt D × StmtStream) := do
  let (lhs, st) ← p.stmt ctx st
  pure (.label spel lhs, st)

/-- `parse_stmt_block`, from behind the brace. -/
def parseStmtBlock (ctx : StmtCtx Scope) (st : StmtStream) : StmtM (Stmt D × StmtStream) := do
  let (t, st) ← p.andDecls ctx st
  pure (t, st.eat eatCloseBlock)

/-- `parse_stmt_with_attrs` -/
def parseStmt (ctx : StmtCtx Scope) (st : StmtStream) : StmtM (Stmt D × StmtStream) :=
  match st.s.toks with
  | tokenSemicolon :: ts => pure (.noop, st.at ts)
  | tokenBreak :: ts => pure (.break_ ctx.breakTarget, (st.at ts).eat eatSemicolon)
  | tokenContinue :: ts => pure (.continue_ ctx.continueTarget, (st.at ts).eat eatSemicolon)
  | tokenReturn :: ts => parseReturn o n ctx (st.at ts)
  | tokenGoto :: ts => parseGoto o n ctx (st.at ts)
  | tokenIf :: ts => parseIf o n p ctx (st.at ts)
  | tokenWhile :: ts => parseWhile o n p ctx (st.at ts)
  | tokenDo :: ts => parseDo o n p ctx (st.at ts)
  | tokenFor :: ts => parseFor o n p ctx (st.at ts)
  | .openBlock :: ts => parseStmtBlock p ctx (st.at ts)
  | tokenSwitch :: ts => parseSwitch o n p ctx (st.at ts)
  | .default :: ts => do
      let (lhs, st) ← p.stmt ctx ((st.at ts).eat eatColon)
      pure (.default_ ctx.switchTarget lhs, st)
  | tokenCase :: ts => parseCase o n p ctx (st.at ts)
  -- `tok_at_label`
  | .identifier spel :: .colon :: ts => parseLabel p ctx spel (st.at ts)
  | _ => do
      let (e, st) ← parseExp o n ctx.scope st
      pure (.expr e, st.eat eatSemicolon)

/-- A turn of the first loop of `parse_stmt_and_decls`. -/
def parseDecls (scope : Scope) (st : StmtStream) : StmtM ((List D × Scope) × StmtStream) := do
  let (decls, st) ← st.with (o.parseDeclGroup scope)
  match decls with
  | some (d, scope) =>
      let ((ds, scope), st) ← p.decls scope st
      pure ((d :: ds, scope), st)
  | none => pure (([], scope), st)

/-- A turn of the second loop: the statement is added to the others. -/
def parseStmtThen (ctx : StmtCtx Scope) (s : Stmt D) (st : StmtStream) :
    StmtM ((Stmts D × Bool) × StmtStream) := do
  let ((rest, atDecl), st) ← p.stmts ctx st
  pure ((.cons s rest, atDecl), st)

/-- The second loop of `parse_stmt_and_decls`. -/
def parseStmts (ctx : StmtCtx Scope) (st : StmtStream) :
    StmtM ((Stmts D × Bool) × StmtStream) :=
  match st.s.toks with
  | .identifier spel :: .colon :: ts => do
      let (s, st) ← parseLabel p ctx spel (st.at ts)
      parseStmtThen p ctx s st
  | .closeBlock :: _ => pure ((.nil, false), st)
  | ts =>
      if o.atDecl ctx.scope ts then pure ((.nil, true), st)
      else do
        let (s, st) ← p.stmt ctx st
        parseStmtThen p ctx s st

/-- What follows in a block when its second loop has ended. -/
def parseNested (ctx : StmtCtx Scope) (decls : List D) (stmts : Stmts D) (atDecl : Bool)
    (st : StmtStream) : StmtM (Stmt D × StmtStream) :=
  if atDecl then
    match stmts with
    | .nil => .die .anotherDecl
    | .cons s rest => do
        let (nest, st) ← p.andDecls ctx st
        pure (.code decls ((Stmts.cons s rest).snoc nest), st)
  else pure (.code decls stmts, st)

/-- What follows in a block when its first loop has ended. -/
def parseAfterDecls (ctx : StmtCtx Scope) (decls : List D) (st : StmtStream) :
    StmtM (Stmt D × StmtStream) :=
  match st.s.toks with
  | .closeBlock :: _ => pure (.code decls .nil, st)
  | _ => do
      let ((stmts, atDecl), st) ← p.stmts ctx st
      parseNested p ctx decls stmts atDecl st

/-- The declarations at the start of a block. -/
def parseFirstDecls (scope : Scope) (st : StmtStream) : StmtM ((List D × Scope) × StmtStream) :=
  if o.atDecl scope st.s.toks then p.decls (o.symtabNew scope) st
  else pure (([], o.symtabNew scope), st)

/-- `parse_stmt_and_decls` -/
def parseStmtAndDecls (ctx : StmtCtx Scope) (st : StmtStream) :
    StmtM (Stmt D × StmtStream) := do
  let ((decls, scope), st) ← parseFirstDecls o p ctx.scope st
  parseAfterDecls p { ctx with scope := scope } decls st

end Functions

/-- The parser, with calls at most `n` deep. -/
def stmtParser (o : Outer Scope D) : Nat → StmtParsers Scope D
  | 0 => .deep
  | n + 1 =>
      let p := stmtParser o n
      { stmt := parseStmt o n p
        decls := parseDecls o p
        stmts := parseStmts o p
        andDecls := parseStmtAndDecls o p }

end Ucc.Cc1.ParseStmt
