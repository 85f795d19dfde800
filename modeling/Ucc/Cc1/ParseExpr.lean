/-
  Cc1/ParseExpr.lean --- the parser for expressions.

  Source: src/cc1/parse_expr.c, and parse_init in src/cc1/parse_init.c.

  A type name is a phrase that parse_type reads: `typeName` is one that starts
  with a keyword, and one that starts with a typedef is that identifier with or
  without a token for the rest of the phrase.  Blocks, statement expressions and
  the built-in functions with an argument list of their own are read by other
  parsers, which the context supplies.  Locations and warnings are not kept.

  The functions call each other, so each is written over a record of the functions
  it calls, and `parser n` is that record for calls at most `n` deep.  A turn of a
  loop is a call.
-/
import Ucc.Lib.Partial
import Ucc.Cc1.ConstOp

set_option autoImplicit false

namespace Ucc.Cc1.ParseExpr

open Ucc.Lib

/-! ## Tokens and trees -/

/-- `enum what_of`, less `what_typeof`: `typeof` starts a type name. -/
inductive WhatOf where
  | sizeof
  | alignof
  deriving DecidableEq, Repr

/-- `enum token`, as far as the parser tells tokens apart. -/
inductive Token where
  /-- `token_integer`, `token_character` or `token_floater` -/
  | numeric (v : Nat)
  | string (s : String)
  | identifier (spel : String)
  | generic | extension | asm | default
  | openParen | closeParen
  | openSquare | closeSquare
  | openBlock | closeBlock
  | dot | ptr | elipsis
  | increment | decrement
  /-- a token that `curtok_to_op` knows -/
  | op (o : OpType)
  | question | colon | assign
  /-- a token that `curtok_to_compound_op` knows -/
  | opAssign (o : OpType)
  | comma
  /-- `token_sizeof`; `token__Alignof` or `token___alignof` -/
  | whatOf (w : WhatOf)
  /-- a type name that starts with a keyword -/
  | typeName (t : Nat)
  /-- what follows the typedef that a type name starts with -/
  | typeRest (d : Nat)
  | other (t : Nat)

/-- What `parse_type` returns. -/
inductive TypeName where
  | named (t : Nat)
  | tdef (spel : String) (rest : Option Nat)

mutual
/-- `expr` -/
inductive Tree where
  | numeric (v : Nat)
  /-- `expr_new_val` -/
  | val (v : Int)
  | str (s : String)
  | identifier (spel : String)
  | generic (test : Tree) (lbls : Labels)
  | block (b : Nat)
  | stmt (b : Nat)
  /-- with `in_parens` set -/
  | inParens (e : Tree)
  | compoundLit (t : TypeName) (init : Init) (staticCtx : Bool)
  | cast (e : Tree) (t : TypeName)
  | funcall (e : Tree) (args : Args)
  | builtin (b : Nat) (e : Tree)
  /-- `expr_new_struct` -/
  | struct (e : Tree) (dot : Bool) (member : String)
  | assignCompound (lhs rhs : Tree) (o : OpType) (isPost : Bool)
  | addr (e : Tree)
  | addrLbl (lbl : String) (staticCtx : Bool)
  | deref (e : Tree)
  /-- an operator in front of its operand -/
  | unary (o : OpType) (lhs : Tree)
  | op (o : OpType) (lhs rhs : Tree) (arrayNotation : Bool)
  | sizeofType (t : TypeName) (w : WhatOf)
  | sizeofExpr (e : Tree) (w : WhatOf)
  /-- `expr_new_if` -/
  | cond (e lhs rhs : Tree)
  /-- with `lhs == NULL` -/
  | condElse (e rhs : Tree)
  | assign (lhs rhs : Tree)
  | comma (lhs rhs : Tree)
/-- `funcargs` -/
inductive Args where
  | nil
  | cons (arg : Tree) (args : Args)
/-- `struct generic_lbl **`; no type is `default` -/
inductive Labels where
  | nil
  | cons (t : Option TypeName) (e : Tree) (lbls : Labels)
/-- `decl_init` -/
inductive Init where
  | scalar (e : Tree)
  | brace (inits : Inits)
/-- The initialisers in a brace, each with its `desig`. -/
inductive Inits where
  | nil
  | cons (desig : Desig) (sub : Init) (inits : Inits)
/-- `struct desig` -/
inductive Desig where
  | nil
  | struct (member : String) (next : Desig)
  | ar (at_ : Tree) (next : Desig)
  | range (lo hi : Tree) (next : Desig)
end

/-- `expr_kind(e, identifier)`, and `expr_ident_spel` of it. -/
def Tree.identSpel : Tree → Option String
  | .identifier spel => some spel
  | .inParens e => e.identSpel
  | _ => none

/-! ## The token stream -/

/-- The tokens from `curtok` on, and `parse_had_error`. -/
structure Stream where
  toks : List Token
  hadError : Bool

/-- The errors that end the parser. -/
inductive ParseFault where
  /-- "expression expected, got %s" -/
  | expressionExpected (got : Option Token)
  /-- "type expected for _Generic (got %s)" -/
  | typeExpected (got : Option Token)

/-- A result of the parser, or nothing when the calls went too deep. -/
abbrev ParseM := Partial ParseFault

/-- What the parser asks of the scope, and the parsers it leaves to others. -/
structure Context where
  /-- `parse_at_tdef` -/
  atTdef : String → Bool
  /-- `builtin_parse` -/
  builtinParse : String → Option (Stream → ParseM (Nat × Stream))
  /-- `parse_block`, from behind the `^` -/
  parseBlock : Stream → ParseM (Nat × Stream)
  /-- `parse_stmt_block` -/
  parseStmtBlock : Stream → ParseM (Nat × Stream)

/-- `DUMMY_IDENTIFIER` -/
def dummyIdentifier : String := "?"

/-- `ASM_INLINE_FNAME` -/
def asmInlineFname : String := "__asm__"

/-- `EAT(token_close_paren)` -/
def eatCloseParen (s : Stream) : Stream :=
  match s.toks with
  | .closeParen :: ts => { s with toks := ts }
  | _ => { s with hadError := true }

/-- `EAT(token_close_square)` -/
def eatCloseSquare (s : Stream) : Stream :=
  match s.toks with
  | .closeSquare :: ts => { s with toks := ts }
  | _ => { s with hadError := true }

/-- `EAT(token_open_paren)` -/
def eatOpenParen (s : Stream) : Stream :=
  match s.toks with
  | .openParen :: ts => { s with toks := ts }
  | _ => { s with hadError := true }

/-- `EAT(token_close_block)` -/
def eatCloseBlock (s : Stream) : Stream :=
  match s.toks with
  | .closeBlock :: ts => { s with toks := ts }
  | _ => { s with hadError := true }

/-- `EAT(token_comma)` -/
def eatComma (s : Stream) : Stream :=
  match s.toks with
  | .comma :: ts => { s with toks := ts }
  | _ => { s with hadError := true }

/-- `EAT(token_colon)` -/
def eatColon (s : Stream) : Stream :=
  match s.toks with
  | .colon :: ts => { s with toks := ts }
  | _ => { s with hadError := true }

/-- `EAT(token_assign)` -/
def eatAssign (s : Stream) : Stream :=
  match s.toks with
  | .assign :: ts => { s with toks := ts }
  | _ => { s with hadError := true }

/-- `accept(token_assign)`, whether or not it is there. -/
def skipAssign (s : Stream) : Stream :=
  match s.toks with
  | .assign :: ts => { s with toks := ts }
  | _ => s

/-- `curtok == token_open_block` -/
def Stream.atOpenBlock (s : Stream) : Bool :=
  match s.toks with
  | .openBlock :: _ => true
  | _ => false

/-- `parse_expr_identifier` and `token_eat_identifier`, which report the same error. -/
def eatIdentifier (s : Stream) : String × Stream :=
  match s.toks with
  | .identifier spel :: ts => (spel, { s with toks := ts })
  | _ => (dummyIdentifier, { s with hadError := true })

/-- `parse_type`.  It moves past `__extension__` even where no type follows. -/
def parseType (cx : Context) : List Token → Option TypeName × List Token
  | .extension :: ts => parseType cx ts
  | .typeName t :: ts => (some (.named t), ts)
  | .identifier spel :: .typeRest d :: ts =>
      if cx.atTdef spel then (some (.tdef spel (some d)), ts)
      else (none, .identifier spel :: .typeRest d :: ts)
  | .identifier spel :: ts =>
      if cx.atTdef spel then (some (.tdef spel none), ts) else (none, .identifier spel :: ts)
  | ts => (none, ts)

/-! ## The binary operators -/

/-- The functions that `PARSE_DEFINE` makes. -/
inductive Level where
  | multi
  | additive
  | shift
  | relational
  | equality
  | binaryAnd
  | binaryXor
  | binaryOr
  | logicalAnd
  | logicalOr
  deriving DecidableEq, Repr

/-- The operators of a level. -/
def Level.ops : Level → List OpType
  | .multi => [.multiply, .divide, .modulus]
  | .additive => [.plus, .minus]
  | .shift => [.shiftl, .shiftr]
  | .relational => [.lt, .gt, .le, .ge]
  | .equality => [.eq, .ne]
  | .binaryAnd => [.and]
  | .binaryXor => [.xor]
  | .binaryOr => [.or]
  | .logicalAnd => [.andsc]
  | .logicalOr => [.orsc]

/-- The function that a level calls for its operands; `none` is
`parse_expr_unary`. -/
def Level.above : Level → Option Level
  | .multi => none
  | .additive => some .multi
  | .shift => some .additive
  | .relational => some .shift
  | .equality => some .relational
  | .binaryAnd => some .equality
  | .binaryXor => some .binaryAnd
  | .binaryOr => some .binaryXor
  | .logicalAnd => some .binaryOr
  | .logicalOr => some .logicalAnd

/-! ## The parser -/

/-- The functions of the parser; the `Bool` is `static_ctx`. -/
structure Parsers where
  unary : Bool → Stream → ParseM (Tree × Stream)
  /-- `parse_expr_postfix_with` -/
  postfixWith : Bool → Tree → Stream → ParseM (Tree × Stream)
  /-- the functions that `PARSE_DEFINE` makes -/
  level : Level → Bool → Stream → ParseM (Tree × Stream)
  /-- the loop of `parse_expr_generic` -/
  operators : Level → Bool → Tree → Stream → ParseM (Tree × Stream)
  conditional : Bool → Stream → ParseM (Tree × Stream)
  assignment : Bool → Stream → ParseM (Tree × Stream)
  exp : Bool → Stream → ParseM (Tree × Stream)
  /-- the loop of `parse_funcargs` -/
  args : Bool → Stream → ParseM (Args × Stream)
  /-- the loop of `parse_expr__Generic` -/
  labels : Bool → Stream → ParseM (Labels × Stream)
  init : Bool → Stream → ParseM (Init × Stream)
  /-- the loop of `parse_init` -/
  inits : Bool → Stream → ParseM (Inits × Stream)
  /-- the loop over designators, with whether the `=` may be left out -/
  desigs : Bool → Bool → Stream → ParseM ((Desig × Bool) × Stream)

/-- Calls that are not made any more. -/
def Parsers.deep : Parsers where
  unary := fun _ _ => .deep
  postfixWith := fun _ _ _ => .deep
  level := fun _ _ _ => .deep
  operators := fun _ _ _ _ => .deep
  conditional := fun _ _ => .deep
  assignment := fun _ _ => .deep
  exp := fun _ _ => .deep
  args := fun _ _ => .deep
  labels := fun _ _ => .deep
  init := fun _ _ => .deep
  inits := fun _ _ => .deep
  desigs := fun _ _ _ => .deep

section Functions

variable (cx : Context) (p : Parsers) (staticCtx : Bool)

/-- A turn of the loop of `parse_funcargs`. -/
def parseArg (s : Stream) : ParseM (Args × Stream) := do
  let (arg, s) ← p.assignment staticCtx s
  match s.toks with
  | .comma :: ts =>
      let (args, s) ← p.args staticCtx { s with toks := ts }
      pure (.cons arg args, s)
  | _ => pure (.cons arg .nil, s)

/-- `parse_funcargs` -/
def parseFuncargs (s : Stream) : ParseM (Args × Stream) :=
  match s.toks with
  | .closeParen :: _ => pure (.nil, s)
  | _ => p.args staticCtx s

/-- The type of an association of `_Generic`, or `default`. -/
def parseLabelType (s : Stream) : ParseM (Option TypeName × Stream) :=
  match s.toks with
  | .default :: ts => pure (none, { s with toks := ts })
  | _ =>
      match parseType cx s.toks with
      | (some r, ts) => pure (some r, { s with toks := ts })
      | (none, ts) => .die (.typeExpected ts.head?)

/-- A turn of the loop of `parse_expr__Generic`. -/
def parseLabel (s : Stream) : ParseM (Labels × Stream) := do
  let (r, s) ← parseLabelType cx (eatComma s)
  let (e, s) ← p.assignment staticCtx (eatColon s)
  match s.toks with
  | .closeParen :: ts => pure (.cons r e .nil, { s with toks := ts })
  | _ =>
      let (lbls, s) ← p.labels staticCtx s
      pure (.cons r e lbls, s)

/-- `parse_expr__Generic`, from behind the keyword. -/
def parseExprGenericSelection (s : Stream) : ParseM (Tree × Stream) := do
  let (test, s) ← p.assignment staticCtx (eatOpenParen s)
  let (lbls, s) ← p.labels staticCtx s
  pure (.generic test lbls, s)

/-- What follows a parenthesis that does not hold a type. -/
def parseParenthesised (s : Stream) : ParseM (Tree × Stream) := do
  if s.atOpenBlock then
    let (b, s) ← cx.parseStmtBlock s
    pure (.stmt b, eatCloseParen s)
  else
    let (e, s) ← p.exp staticCtx s
    pure (.inParens e, eatCloseParen s)

/-- `parse_expr_primary` -/
def parseExprPrimary (s : Stream) : ParseM (Tree × Stream) :=
  match s.toks with
  | .numeric v :: ts => pure (.numeric v, { s with toks := ts })
  | .string str :: ts => pure (.str str, { s with toks := ts })
  | .generic :: ts => parseExprGenericSelection p staticCtx { s with toks := ts }
  | .op .xor :: ts => do
      let (b, s) ← cx.parseBlock { s with toks := ts }
      pure (.block b, s)
  | .openParen :: ts =>
      match parseType cx ts with
      | (some r, ts) =>
          let s := eatCloseParen { s with toks := ts }
          if s.atOpenBlock then do
            let (init, s) ← p.init staticCtx s
            pure (.compoundLit r init staticCtx, s)
          else do
            -- `PARSE_EXPR_CAST` is `parse_expr_unary`
            let (e, s) ← p.unary staticCtx s
            pure (.cast e r, s)
      | (none, ts) => parseParenthesised cx p staticCtx { s with toks := ts }
  | .asm :: ts => pure (.identifier asmInlineFname, { s with toks := ts })
  | .identifier spel :: ts => pure (.identifier spel, { s with toks := ts })
  | ts => .die (.expressionExpected ts.head?)

/-- What follows the `(` of a call of `e`, up to its `)`. -/
def parseCall (e : Tree) (s : Stream) : ParseM (Tree × Stream) :=
  match e.identSpel.bind cx.builtinParse with
  | some parse => do
      let (b, s) ← parse s
      pure (.builtin b e, s)
  | none => do
      let (args, s) ← parseFuncargs p staticCtx s
      pure (.funcall e args, s)

/-- A turn of the loop of `parse_expr_postfix_with`. -/
def parseExprPostfixWith (e : Tree) (s : Stream) : ParseM (Tree × Stream) :=
  match s.toks with
  | .openSquare :: ts => do
      let (i, s) ← p.exp staticCtx { s with toks := ts }
      p.postfixWith staticCtx (.deref (.op .plus e i true)) (eatCloseSquare s)
  | .openParen :: ts => do
      let (fcall, s) ← parseCall cx p staticCtx e { s with toks := ts }
      p.postfixWith staticCtx fcall (eatCloseParen s)
  | .dot :: ts =>
      let (member, s) := eatIdentifier { s with toks := ts }
      p.postfixWith staticCtx (.struct e true member) s
  | .ptr :: ts =>
      let (member, s) := eatIdentifier { s with toks := ts }
      p.postfixWith staticCtx (.struct e false member) s
  | .increment :: ts =>
      p.postfixWith staticCtx (.assignCompound e (.val 1) .plus true) { s with toks := ts }
  | .decrement :: ts =>
      p.postfixWith staticCtx (.assignCompound e (.val 1) .minus true) { s with toks := ts }
  | _ => pure (e, s)

/-- `parse_expr_postfix` -/
def parseExprPostfix (s : Stream) : ParseM (Tree × Stream) := do
  let (e, s) ← parseExprPrimary cx p staticCtx s
  p.postfixWith staticCtx e s

/-- `parse_expr_sizeof_typeof_alignof`, from behind the keyword; there `static_ctx`
is 0. -/
def parseExprSizeofAlignof (w : WhatOf) (s : Stream) : ParseM (Tree × Stream) :=
  match s.toks with
  | .openParen :: ts =>
      match parseType cx ts with
      | (some ty, ts) =>
          let s := eatCloseParen { s with toks := ts }
          if s.atOpenBlock then do
            let (init, s) ← p.init false s
            let (e, s) ← p.postfixWith false (.compoundLit ty init false) s
            pure (.sizeofExpr e w, s)
          else pure (.sizeofType ty w, s)
      | (none, ts) => do
          -- `uneat(token_open_paren)`
          let (e, s) ← p.unary false { s with toks := .openParen :: ts }
          pure (.sizeofExpr e w, s)
  | _ => do
      let (e, s) ← p.unary false s
      pure (.sizeofExpr e w, s)

/-- `parse_expr_unary` -/
def parseExprUnary (s : Stream) : ParseM (Tree × Stream) :=
  match s.toks with
  | .increment :: ts => do
      let (e, s) ← p.unary staticCtx { s with toks := ts }
      pure (.assignCompound e (.val 1) .plus false, s)
  | .decrement :: ts => do
      let (e, s) ← p.unary staticCtx { s with toks := ts }
      pure (.assignCompound e (.val 1) .minus false, s)
  | .op .andsc :: ts =>
      let (lbl, s) := eatIdentifier { s with toks := ts }
      pure (.addrLbl lbl staticCtx, s)
  | .op .and :: ts => do
      let (e, s) ← p.unary staticCtx { s with toks := ts }
      pure (.addr e, s)
  | .op .multiply :: ts => do
      let (e, s) ← p.unary staticCtx { s with toks := ts }
      pure (.deref e, s)
  | .op .plus :: ts => do
      let (e, s) ← p.unary staticCtx { s with toks := ts }
      pure (.unary .plus e, s)
  | .op .minus :: ts => do
      let (e, s) ← p.unary staticCtx { s with toks := ts }
      pure (.unary .minus e, s)
  | .op .bnot :: ts => do
      let (e, s) ← p.unary staticCtx { s with toks := ts }
      pure (.unary .bnot e, s)
  | .op .not :: ts => do
      let (e, s) ← p.unary staticCtx { s with toks := ts }
      pure (.unary .not e, s)
  | .whatOf w :: ts => parseExprSizeofAlignof cx p w { s with toks := ts }
  | .extension :: ts => p.unary staticCtx { s with toks := ts }
  | _ => parseExprPostfix cx p staticCtx s

/-- The `above` of `parse_expr_generic`. -/
def parseAbove : Option Level → Stream → ParseM (Tree × Stream)
  | none => p.unary staticCtx
  | some l => p.level l staticCtx

/-- A turn of the loop of `parse_expr_generic`. -/
def parseOperator (l : Level) (e : Tree) (s : Stream) : ParseM (Tree × Stream) :=
  match s.toks with
  | .op o :: ts =>
      if o ∈ l.ops then do
        let (rhs, s) ← parseAbove p staticCtx l.above { s with toks := ts }
        p.operators l staticCtx (.op o e rhs false) s
      else pure (e, s)
  | _ => pure (e, s)

/-- `parse_expr_generic` -/
def parseExprGeneric (l : Level) (s : Stream) : ParseM (Tree × Stream) := do
  let (e, s) ← parseAbove p staticCtx l.above s
  p.operators l staticCtx e s

/-- `parse_expr_conditional` -/
def parseExprConditional (s : Stream) : ParseM (Tree × Stream) := do
  let (e, s) ← p.level .logicalOr staticCtx s
  match s.toks with
  | .question :: .colon :: ts =>
      let (rhs, s) ← p.conditional staticCtx { s with toks := ts }
      pure (.condElse e rhs, s)
  | .question :: ts =>
      let (lhs, s) ← p.exp staticCtx { s with toks := ts }
      let (rhs, s) ← p.conditional staticCtx (eatColon s)
      pure (.cond e lhs rhs, s)
  | _ => pure (e, s)

/-- `parse_expr_assignment` -/
def parseExprAssignment (s : Stream) : ParseM (Tree × Stream) := do
  let (e, s) ← p.conditional staticCtx s
  match s.toks with
  | .assign :: ts =>
      let (rhs, s) ← p.assignment staticCtx { s with toks := ts }
      pure (.assign e rhs, s)
  | .opAssign o :: ts =>
      let (rhs, s) ← p.assignment staticCtx { s with toks := ts }
      pure (.assignCompound e rhs o false, s)
  | _ => pure (e, s)

/-- `parse_expr_exp` -/
def parseExprExp (s : Stream) : ParseM (Tree × Stream) := do
  let (e, s) ← p.assignment staticCtx s
  match s.toks with
  | .comma :: ts =>
      let (rhs, s) ← p.exp staticCtx { s with toks := ts }
      pure (.comma e rhs, s)
  | _ => pure (e, s)

/-- A turn of the loop over designators. -/
def parseDesigs (mayOmit : Bool) (s : Stream) : ParseM ((Desig × Bool) × Stream) :=
  match s.toks with
  | .dot :: ts => do
      let (member, s) := eatIdentifier { s with toks := ts }
      let ((next, mayOmit), s) ← p.desigs staticCtx mayOmit s
      pure ((.struct member next, mayOmit), s)
  | .openSquare :: ts => do
      let (lo, s) ← p.exp staticCtx { s with toks := ts }
      match s.toks with
      | .elipsis :: ts =>
          let (hi, s) ← p.exp staticCtx { s with toks := ts }
          let ((next, mayOmit), s) ← p.desigs staticCtx true (eatCloseSquare s)
          pure ((.range lo hi next, mayOmit), s)
      | _ =>
          let ((next, mayOmit), s) ← p.desigs staticCtx true (eatCloseSquare s)
          pure ((.ar lo next, mayOmit), s)
  | _ => pure ((.nil, mayOmit), s)

/-- The designators in front of an initialiser. -/
def parseDesignation (s : Stream) : ParseM (Desig × Stream) :=
  match s.toks with
  -- `tok_at_label`
  | .identifier spel :: .colon :: ts => pure (.struct spel .nil, { s with toks := ts })
  | .dot :: _ => do
      let ((desig, mayOmit), s) ← parseDesigs p staticCtx false s
      pure (desig, if mayOmit then skipAssign s else eatAssign s)
  | .openSquare :: _ => do
      let ((desig, mayOmit), s) ← parseDesigs p staticCtx false s
      pure (desig, if mayOmit then skipAssign s else eatAssign s)
  | _ => pure (.nil, s)

/-- The body of the loop of `parse_init`. -/
def parseInitItem (s : Stream) : ParseM (Inits × Stream) := do
  let (desig, s) ← parseDesignation p staticCtx s
  let (sub, s) ← p.init staticCtx s
  match s.toks with
  | .comma :: ts =>
      let (inits, s) ← p.inits staticCtx { s with toks := ts }
      pure (.cons desig sub inits, s)
  | _ => pure (.cons desig sub .nil, s)

/-- A turn of the loop of `parse_init`. -/
def parseInits (s : Stream) : ParseM (Inits × Stream) :=
  match s.toks with
  | .closeBlock :: _ => pure (.nil, s)
  | _ => parseInitItem p staticCtx s

/-- `parse_init` -/
def parseInit (s : Stream) : ParseM (Init × Stream) :=
  match s.toks with
  | .openBlock :: ts => do
      let (inits, s) ← p.inits staticCtx { s with toks := ts }
      pure (.brace inits, eatCloseBlock s)
  | _ => do
      let (e, s) ← p.assignment staticCtx s
      pure (.scalar e, s)

end Functions

/-- The parser, with calls at most `n` deep. -/
def parser (cx : Context) : Nat → Parsers
  | 0 => .deep
  | n + 1 =>
      let p := parser cx n
      { unary := parseExprUnary cx p
        postfixWith := parseExprPostfixWith cx p
        level := fun l st => parseExprGeneric p st l
        operators := fun l st => parseOperator p st l
        conditional := parseExprConditional p
        assignment := parseExprAssignment p
        exp := parseExprExp p
        args := parseArg p
        labels := parseLabel cx p
        init := parseInit p
        inits := parseInits p
        desigs := parseDesigs p }

end Ucc.Cc1.ParseExpr
