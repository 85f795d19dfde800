/-
  Cc1/ParseStmtGrammar.lean --- the statements of the grammar, and their trees.

  Source: src/cc1/parse_stmt.c, and the statement grammar of the C standard with what the
  parser adds: ranges in `case`, computed `goto`, declarations in front of any test, and
  declarations between statements.

  A derivation knows what is around the statement: the statement that a `break` or a
  `continue` in it is for, the switch of its labels, and the scope.  The declarations after
  a statement are in a block of their own, up to the end of the block around them.
-/
import Ucc.Cc1.ParseStmt

set_option autoImplicit false

namespace Ucc.Cc1.ParseStmt

open Ucc.Lib Ucc.Cc1.ParseExpr

variable {Scope D : Type}

/-! ## Declarations -/

/-- A declaration that `parse_decl` reads in front of `;` or `)`. -/
structure Outer.DeclReads (o : Outer Scope D) (scope : Scope) (ts : List Token) (d : D)
    (spel : String) (scope' : Scope) : Prop where
  starts : ∀ rest, o.atDecl scope (ts ++ rest) = true
  reads : ∀ t rest b, t = tokenSemicolon ∨ t = .closeParen →
    o.parseDecl scope ⟨ts ++ t :: rest, b⟩ = pure ((d, spel, scope'), ⟨t :: rest, b⟩)

/-- Declarations up to a semicolon that `parse_decl_group` reads.  A typedef in front of a
colon is a label. -/
structure Outer.GroupReads (o : Outer Scope D) (scope : Scope) (ts : List Token) (d : D)
    (scope' : Scope) : Prop where
  starts : ∀ rest, o.atDecl scope (ts ++ rest) = true
  notLabel : ∀ rest spel us, ts ++ rest ≠ .identifier spel :: .colon :: us
  reads : ∀ rest b, o.parseDeclGroup scope ⟨ts ++ rest, b⟩ = pure (some (d, scope'), ⟨rest, b⟩)

/-- The declarations at the start of a block. -/
inductive DeclsDerive (o : Outer Scope D) : Scope → List Token → List D → Scope → Prop
  | nil {scope : Scope} : DeclsDerive o scope [] [] scope
  | cons {scope scope₁ scope₂ : Scope} {ts us : List Token} {d : D} {ds : List D}
      (hd : o.GroupReads scope ts d scope₁) (h : DeclsDerive o scope₁ us ds scope₂) :
      DeclsDerive o scope (ts ++ us) (d :: ds) scope₂

/-! ## Statements -/

/-- The test of a statement, and the scope of what is tested. -/
inductive TestDerives (o : Outer Scope D) : Scope → List Token → Test D → Scope → Prop
  | expr {scope : Scope} {c : Cst} (h : c.WellFormed (o.cx (o.testScope scope))) :
      TestDerives o scope c.toks ⟨none, c.parsed false⟩ (o.testScope scope)
  | decl {scope scope' : Scope} {ts : List Token} {d : D} {spel : String}
      (hd : o.DeclReads (o.symtabNew (o.testScope scope)) ts d spel scope') :
      TestDerives o scope ts ⟨some d, .identifier spel⟩ scope'
  | declExpr {scope scope' : Scope} {ts : List Token} {d : D} {spel : String} {c : Cst}
      (hd : o.DeclReads (o.symtabNew (o.testScope scope)) ts d spel scope')
      (h : c.WellFormed (o.cx scope')) :
      TestDerives o scope (ts ++ tokenSemicolon :: c.toks) ⟨some d, c.parsed false⟩ scope'

/-- What is in front of the first semicolon of a `for`, and the semicolon. -/
inductive InitDerives (o : Outer Scope D) : Scope → List Token → ForInit D → Scope → Prop
  | none {scope : Scope} : InitDerives o scope [tokenSemicolon] .none scope
  | decls {scope scope' : Scope} {ts : List Token} {d : D} (hd : o.GroupReads scope ts d scope') :
      InitDerives o scope ts (.decls d) scope'
  | expr {scope : Scope} {c : Cst} (h : c.WellFormed (o.cx scope)) :
      InitDerives o scope (c.toks ++ [tokenSemicolon]) (.expr (c.parsed false)) scope

/-- An expression that may be left out, and the token behind it. -/
inductive OptDerives (o : Outer Scope D) (scope : Scope) (stop : Token) :
    List Token → Option Tree → Prop
  | none : OptDerives o scope stop [stop] none
  | some {c : Cst} (h : c.WellFormed (o.cx scope)) :
      OptDerives o scope stop (c.toks ++ [stop]) (some (c.parsed false))

/-- Around the body of a loop. -/
def StmtCtx.inLoop (ctx : StmtCtx Scope) (id : Nat) (scope : Scope) : StmtCtx Scope :=
  { ctx with breakTarget := some id, continueTarget := some id, scope := scope }

/-- Around the body of a switch. -/
def StmtCtx.inSwitch (ctx : StmtCtx Scope) (id : Nat) (scope : Scope) : StmtCtx Scope :=
  { ctx with breakTarget := some id, switchTarget := some id, scope := scope }

mutual

/-- A statement, its tree, and the numbers of its statements.  Last, whether it ends with
an `if` that has no `else`, so that a following `else` would be taken for it. -/
inductive StmtDerives (o : Outer Scope D) :
    StmtCtx Scope → Nat → List Token → Stmt D → Nat → Bool → Prop
  | noop {ctx : StmtCtx Scope} {next : Nat} :
      StmtDerives o ctx next [tokenSemicolon] .noop next false
  | break_ {ctx : StmtCtx Scope} {next : Nat} :
      StmtDerives o ctx next [tokenBreak, tokenSemicolon] (.break_ ctx.breakTarget) next false
  | continue_ {ctx : StmtCtx Scope} {next : Nat} :
      StmtDerives o ctx next [tokenContinue, tokenSemicolon] (.continue_ ctx.continueTarget) next
        false
  | return_ {ctx : StmtCtx Scope} {next : Nat} {ts : List Token} {e : Option Tree}
      (he : OptDerives o ctx.scope tokenSemicolon ts e) :
      StmtDerives o ctx next (tokenReturn :: ts) (.return_ e) next false
  | goto_ {ctx : StmtCtx Scope} {next : Nat} (spel : String) :
      StmtDerives o ctx next [tokenGoto, .identifier spel, tokenSemicolon] (.goto_ spel) next false
  | gotoComputed {ctx : StmtCtx Scope} {next : Nat} {c : Cst}
      (h : c.WellFormed (o.cx ctx.scope)) :
      StmtDerives o ctx next (tokenGoto :: .op .multiply :: (c.toks ++ [tokenSemicolon]))
        (.gotoComputed (c.parsed false)) next false
  | if_ {ctx : StmtCtx Scope} {next next₁ : Nat} {ts us : List Token} {test : Test D}
      {scope : Scope} {lhs : Stmt D} {dangles : Bool} (ht : TestDerives o ctx.scope ts test scope)
      (hl : StmtDerives o { ctx with scope := scope } next us lhs next₁ dangles) :
      StmtDerives o ctx next (tokenIf :: .openParen :: (ts ++ .closeParen :: us)) (.if_ test lhs)
        next₁ true
  | ifElse {ctx : StmtCtx Scope} {next next₁ next₂ : Nat} {ts us vs : List Token} {test : Test D}
      {scope : Scope} {lhs rhs : Stmt D} {dangles : Bool}
      (ht : TestDerives o ctx.scope ts test scope)
      (hl : StmtDerives o { ctx with scope := scope } next us lhs next₁ false)
      (hr : StmtDerives o { ctx with scope := scope } next₁ vs rhs next₂ dangles) :
      StmtDerives o ctx next
        (tokenIf :: .openParen :: (ts ++ .closeParen :: (us ++ tokenElse :: vs)))
        (.ifElse test lhs rhs) next₂ dangles
  | switch_ {ctx : StmtCtx Scope} {next next₁ : Nat} {ts us : List Token} {test : Test D}
      {scope : Scope} {lhs : Stmt D} {dangles : Bool} (ht : TestDerives o ctx.scope ts test scope)
      (hl : StmtDerives o (ctx.inSwitch next scope) (next + 1) us lhs next₁ dangles) :
      StmtDerives o ctx next (tokenSwitch :: .openParen :: (ts ++ .closeParen :: us))
        (.switch_ next test lhs) next₁ dangles
  | while_ {ctx : StmtCtx Scope} {next next₁ : Nat} {ts us : List Token} {test : Test D}
      {scope : Scope} {lhs : Stmt D} {dangles : Bool} (ht : TestDerives o ctx.scope ts test scope)
      (hl : StmtDerives o (ctx.inLoop next scope) (next + 1) us lhs next₁ dangles) :
      StmtDerives o ctx next (tokenWhile :: .openParen :: (ts ++ .closeParen :: us))
        (.while_ next test lhs) next₁ dangles
  | do_ {ctx : StmtCtx Scope} {next next₁ : Nat} {ts : List Token} {lhs : Stmt D} {c : Cst}
      {dangles : Bool} (hl : StmtDerives o (ctx.inLoop next ctx.scope) (next + 1) ts lhs next₁ dangles)
      (h : c.WellFormed (o.cx ctx.scope)) :
      StmtDerives o ctx next
        (tokenDo :: (ts ++ tokenWhile :: .openParen :: (c.toks ++ [.closeParen, tokenSemicolon])))
        (.do_ next lhs (c.parsed false)) next₁ false
  | for_ {ctx : StmtCtx Scope} {next next₁ : Nat} {ts us vs ws : List Token} {init : ForInit D}
      {scope : Scope} {test inc : Option Tree} {lhs : Stmt D} {dangles : Bool}
      (hi : InitDerives o (o.symtabNew ctx.scope) ts init scope)
      (ht : OptDerives o scope tokenSemicolon us test) (hn : OptDerives o scope .closeParen vs inc)
      (hl : StmtDerives o (ctx.inLoop next scope) (next + 1) ws lhs next₁ dangles) :
      StmtDerives o ctx next (tokenFor :: .openParen :: (ts ++ (us ++ (vs ++ ws))))
        (.for_ next init test inc lhs) next₁ dangles
  | label {ctx : StmtCtx Scope} {next next₁ : Nat} {ts : List Token} {lhs : Stmt D} {dangles : Bool}
      (spel : String) (hl : StmtDerives o ctx next ts lhs next₁ dangles) :
      StmtDerives o ctx next (.identifier spel :: .colon :: ts) (.label spel lhs) next₁ dangles
  | case_ {ctx : StmtCtx Scope} {next next₁ : Nat} {ts : List Token} {c : Cst} {lhs : Stmt D}
      {dangles : Bool} (hlevel : c.level ≤ 15) (h : c.WellFormed (o.cx ctx.scope))
      (hl : StmtDerives o ctx next ts lhs next₁ dangles) :
      StmtDerives o ctx next (tokenCase :: (c.toks ++ .colon :: ts))
        (.case_ ctx.switchTarget (c.parsed false) lhs) next₁ dangles
  | caseRange {ctx : StmtCtx Scope} {next next₁ : Nat} {ts : List Token} {c c₂ : Cst}
      {lhs : Stmt D} {dangles : Bool} (hlevel : c.level ≤ 15) (h : c.WellFormed (o.cx ctx.scope))
      (hlevel₂ : c₂.level ≤ 15) (h₂ : c₂.WellFormed (o.cx ctx.scope))
      (hl : StmtDerives o ctx next ts lhs next₁ dangles) :
      StmtDerives o ctx next (tokenCase :: (c.toks ++ .elipsis :: (c₂.toks ++ .colon :: ts)))
        (.caseRange ctx.switchTarget (c.parsed false) (c₂.parsed false) lhs) next₁ dangles
  | default_ {ctx : StmtCtx Scope} {next next₁ : Nat} {ts : List Token} {lhs : Stmt D}
      {dangles : Bool} (hl : StmtDerives o ctx next ts lhs next₁ dangles) :
      StmtDerives o ctx next (.default :: .colon :: ts) (.default_ ctx.switchTarget lhs) next₁
        dangles
  | block {ctx : StmtCtx Scope} {next next₁ : Nat} {ts : List Token} {t : Stmt D}
      (ht : CodeDerives o ctx next ts t next₁) :
      StmtDerives o ctx next (.openBlock :: (ts ++ [.closeBlock])) t next₁ false
  | expr {ctx : StmtCtx Scope} {next : Nat} {c : Cst} (h : c.WellFormed (o.cx ctx.scope)) :
      StmtDerives o ctx next (c.toks ++ [tokenSemicolon]) (.expr (c.parsed false)) next false

/-- What is in the braces of a block: declarations, and then statements.  The first of
these is no label that is a typedef. -/
inductive CodeDerives (o : Outer Scope D) : StmtCtx Scope → Nat → List Token → Stmt D → Nat → Prop
  | code {ctx : StmtCtx Scope} {next next₁ : Nat} {ts us : List Token} {decls : List D}
      {scope : Scope} {stmts : Stmts D} (hd : DeclsDerive o (o.symtabNew ctx.scope) ts decls scope)
      (hs : StmtsDerive o true { ctx with scope := scope } next us stmts next₁)
      (hfirst : ∀ spel vs, us = .identifier spel :: .colon :: vs →
        (o.cx scope).atTdef spel = false) :
      CodeDerives o ctx next (ts ++ us) (.code decls stmts) next₁

/-- The statements of a block.  Behind the first one there may be declarations again. -/
inductive StmtsDerive (o : Outer Scope D) :
    Bool → StmtCtx Scope → Nat → List Token → Stmts D → Nat → Prop
  | nil {first : Bool} {ctx : StmtCtx Scope} {next : Nat} :
      StmtsDerive o first ctx next [] .nil next
  | cons {first : Bool} {ctx : StmtCtx Scope} {next next₁ next₂ : Nat} {ts us : List Token}
      {s : Stmt D} {rest : Stmts D} {dangles : Bool}
      (hs : StmtDerives o ctx next ts s next₁ dangles)
      (h : StmtsDerive o false ctx next₁ us rest next₂) :
      StmtsDerive o first ctx next (ts ++ us) (.cons s rest) next₂
  | nested {ctx : StmtCtx Scope} {next next₁ : Nat} {ts : List Token} {t : Stmt D}
      (hdecl : ∀ rest, o.atDecl ctx.scope (ts ++ rest) = true)
      (hlabel : ∀ rest spel us, ts ++ rest ≠ .identifier spel :: .colon :: us)
      (ht : CodeDerives o ctx next ts t next₁) :
      StmtsDerive o false ctx next ts (.cons t .nil) next₁

end

end Ucc.Cc1.ParseStmt
