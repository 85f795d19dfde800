/-
  Cc1/ParseExprGrammar.lean --- the grammar of expressions, and that the parser
  follows it.

  Source: src/cc1/parse_expr.c and src/cc1/parse_init.c, and the expression grammar
  of the C standard with the GNU forms that the parser knows: `?:` without its middle
  operand, the address of a label, alignof of an expression, and a range as a
  designator.

  `Cst` is a derivation of that grammar.  The parser has no function for casts:
  they are read at the bottom, by `parse_expr_primary`, in the loop for the postfix
  operators.  No derivation puts a postfix operator behind a cast, a prefix operator
  or `sizeof`, so that loop ends at once there.
-/
import Ucc.Cc1.ParseExpr

set_option autoImplicit false

namespace Ucc.Cc1.ParseExpr

open Ucc.Lib

/-! ## Derivations -/

mutual
/-- A derivation of an expression.  Unit productions are not recorded. -/
inductive Cst where
  | numeric (v : Nat)
  | string (s : String)
  | identifier (spel : String)
  | generic (test : Cst) (lbls : CLabels)
  | paren (c : Cst)
  | compoundLit (t : TypeName) (inits : CInits)
  | index (c i : Cst)
  | call (c : Cst)
  | callArgs (c : Cst) (args : CArgs)
  | member (c : Cst) (dot : Bool) (member : String)
  | post (c : Cst) (inc : Bool)
  | pre (inc : Bool) (c : Cst)
  | addr (c : Cst)
  | addrLbl (lbl : String)
  | deref (c : Cst)
  | unary (o : OpType) (c : Cst)
  | sizeofType (w : WhatOf) (t : TypeName)
  | sizeofExpr (w : WhatOf) (c : Cst)
  | cast (t : TypeName) (c : Cst)
  | bin (l : Level) (o : OpType) (lhs rhs : Cst)
  | cond (c lhs rhs : Cst)
  | condElse (c rhs : Cst)
  | assign (lhs rhs : Cst)
  | opAssign (o : OpType) (lhs rhs : Cst)
  | comma (lhs rhs : Cst)
/-- The arguments of a call. -/
inductive CArgs where
  | last (arg : Cst)
  | cons (arg : Cst) (args : CArgs)
/-- The associations of a generic selection. -/
inductive CLabels where
  | last (t : Option TypeName) (e : Cst)
  | cons (t : Option TypeName) (e : Cst) (lbls : CLabels)
/-- An initialiser. -/
inductive CInit where
  | scalar (e : Cst)
  | brace (inits : CInits)
/-- The initialisers in a brace, each but the last with a comma behind it; the
list may end in a comma. -/
inductive CInits where
  | nil
  | last (desig : CDesig) (sub : CInit)
  | cons (desig : CDesig) (sub : CInit) (inits : CInits)
/-- Designators. -/
inductive CDesig where
  | nil
  | struct (member : String) (next : CDesig)
  | ar (at_ : Cst) (next : CDesig)
  | range (lo hi : Cst) (next : CDesig)
end

/-- The level of the grammar that a function of the parser stands for. -/
def Level.rank : Level → Nat
  | .multi => 4
  | .additive => 5
  | .shift => 6
  | .relational => 7
  | .equality => 8
  | .binaryAnd => 9
  | .binaryXor => 10
  | .binaryOr => 11
  | .logicalAnd => 12
  | .logicalOr => 13

/-- The level of the grammar that a derivation belongs to: primary expressions have
level 0, then come postfix, unary and cast expressions, the binary operators, and
conditional, assignment and comma expressions. -/
def Cst.level : Cst → Nat
  | .numeric _ | .string _ | .identifier _ | .generic _ _ | .paren _ => 0
  | .compoundLit _ _ | .index _ _ | .call _ | .callArgs _ _ | .member _ _ _ | .post _ _ => 1
  | .pre _ _ | .addr _ | .addrLbl _ | .deref _ | .unary _ _ | .sizeofType _ _
  | .sizeofExpr _ _ => 2
  | .cast _ _ => 3
  | .bin l _ _ _ => l.rank
  | .cond _ _ _ | .condElse _ _ => 14
  | .assign _ _ | .opAssign _ _ _ => 15
  | .comma _ _ => 16

/-! ## The tokens of a derivation -/

def TypeName.toks : TypeName → List Token
  | .named t => [.typeName t]
  | .tdef spel none => [.identifier spel]
  | .tdef spel (some d) => [.identifier spel, .typeRest d]

/-- The tokens of the type of an association. -/
def labelToks : Option TypeName → List Token
  | none => [.default]
  | some t => t.toks

/-- `++` or `--` -/
def stepTok (inc : Bool) : Token := if inc then .increment else .decrement

mutual
def Cst.toks : Cst → List Token
  | .numeric v => [.numeric v]
  | .string s => [.string s]
  | .identifier spel => [.identifier spel]
  | .generic test lbls => .generic :: .openParen :: (test.toks ++ (lbls.toks ++ [.closeParen]))
  | .paren c => .openParen :: (c.toks ++ [.closeParen])
  | .compoundLit t inits =>
      .openParen :: (t.toks ++ .closeParen :: .openBlock :: (inits.toks ++ [.closeBlock]))
  | .index c i => c.toks ++ .openSquare :: (i.toks ++ [.closeSquare])
  | .call c => c.toks ++ [.openParen, .closeParen]
  | .callArgs c args => c.toks ++ .openParen :: (args.toks ++ [.closeParen])
  | .member c dot member => c.toks ++ [if dot then .dot else .ptr, .identifier member]
  | .post c inc => c.toks ++ [stepTok inc]
  | .pre inc c => stepTok inc :: c.toks
  | .addr c => .op .and :: c.toks
  | .addrLbl lbl => [.op .andsc, .identifier lbl]
  | .deref c => .op .multiply :: c.toks
  | .unary o c => .op o :: c.toks
  | .sizeofType w t => .whatOf w :: .openParen :: (t.toks ++ [.closeParen])
  | .sizeofExpr w c => .whatOf w :: c.toks
  | .cast t c => .openParen :: (t.toks ++ .closeParen :: c.toks)
  | .bin _ o lhs rhs => lhs.toks ++ .op o :: rhs.toks
  | .cond c lhs rhs => c.toks ++ .question :: (lhs.toks ++ .colon :: rhs.toks)
  | .condElse c rhs => c.toks ++ .question :: .colon :: rhs.toks
  | .assign lhs rhs => lhs.toks ++ .assign :: rhs.toks
  | .opAssign o lhs rhs => lhs.toks ++ .opAssign o :: rhs.toks
  | .comma lhs rhs => lhs.toks ++ .comma :: rhs.toks
def CArgs.toks : CArgs → List Token
  | .last arg => arg.toks
  | .cons arg args => arg.toks ++ .comma :: args.toks
def CLabels.toks : CLabels → List Token
  | .last t e => .comma :: (labelToks t ++ .colon :: e.toks)
  | .cons t e lbls => .comma :: (labelToks t ++ .colon :: (e.toks ++ lbls.toks))
def CInit.toks : CInit → List Token
  | .scalar e => e.toks
  | .brace inits => .openBlock :: (inits.toks ++ [.closeBlock])
def CInits.toks : CInits → List Token
  | .nil => []
  | .last .nil sub => sub.toks
  | .last desig sub => desig.toks ++ .assign :: sub.toks
  | .cons .nil sub inits => sub.toks ++ .comma :: inits.toks
  | .cons desig sub inits => desig.toks ++ .assign :: (sub.toks ++ .comma :: inits.toks)
def CDesig.toks : CDesig → List Token
  | .nil => []
  | .struct member next => .dot :: .identifier member :: next.toks
  | .ar i next => .openSquare :: (i.toks ++ .closeSquare :: next.toks)
  | .range lo hi next =>
      .openSquare :: (lo.toks ++ .elipsis :: (hi.toks ++ .closeSquare :: next.toks))
end

example (t : TypeName) (c : Cst) (member : String) :
    (Cst.compoundLit t (.last (.struct member .nil) (.scalar c))).toks =
      .openParen :: (t.toks ++ .closeParen :: .openBlock :: .dot :: .identifier member ::
        .assign :: (c.toks ++ [.closeBlock])) := by
  simp [Cst.toks, CInits.toks, CDesig.toks, CInit.toks]

/-! ## The tree of a derivation -/

/-- The operator that `++` or `--` applies. -/
def stepOp (inc : Bool) : OpType := if inc then .plus else .minus

mutual
/-- The tree that the grammar gives an expression.  Nothing in the operand of
`sizeof` has static storage. -/
def Cst.tree (st : Bool) : Cst → Tree
  | .numeric v => .numeric v
  | .string s => .str s
  | .identifier spel => .identifier spel
  | .generic test lbls => .generic (test.tree st) (lbls.tree st)
  | .paren c => .inParens (c.tree st)
  | .compoundLit t inits => .compoundLit t (.brace (inits.tree st)) st
  | .index c i => .deref (.op .plus (c.tree st) (i.tree st) true)
  | .call c => .funcall (c.tree st) .nil
  | .callArgs c args => .funcall (c.tree st) (args.tree st)
  | .member c dot member => .struct (c.tree st) dot member
  | .post c inc => .assignCompound (c.tree st) (.val 1) (stepOp inc) true
  | .pre inc c => .assignCompound (c.tree st) (.val 1) (stepOp inc) false
  | .addr c => .addr (c.tree st)
  | .addrLbl lbl => .addrLbl lbl st
  | .deref c => .deref (c.tree st)
  | .unary o c => .unary o (c.tree st)
  | .sizeofType w t => .sizeofType t w
  | .sizeofExpr w c => .sizeofExpr (c.tree false) w
  | .cast t c => .cast (c.tree st) t
  | .bin _ o lhs rhs => .op o (lhs.tree st) (rhs.tree st) false
  | .cond c lhs rhs => .cond (c.tree st) (lhs.tree st) (rhs.tree st)
  | .condElse c rhs => .condElse (c.tree st) (rhs.tree st)
  | .assign lhs rhs => .assign (lhs.tree st) (rhs.tree st)
  | .opAssign o lhs rhs => .assignCompound (lhs.tree st) (rhs.tree st) o false
  | .comma lhs rhs => .comma (lhs.tree st) (rhs.tree st)
def CArgs.tree (st : Bool) : CArgs → Args
  | .last arg => .cons (arg.tree st) .nil
  | .cons arg args => .cons (arg.tree st) (args.tree st)
def CLabels.tree (st : Bool) : CLabels → Labels
  | .last t e => .cons t (e.tree st) .nil
  | .cons t e lbls => .cons t (e.tree st) (lbls.tree st)
def CInit.tree (st : Bool) : CInit → Init
  | .scalar e => .scalar (e.tree st)
  | .brace inits => .brace (inits.tree st)
def CInits.tree (st : Bool) : CInits → Inits
  | .nil => .nil
  | .last desig sub => .cons (desig.tree st) (sub.tree st) .nil
  | .cons desig sub inits => .cons (desig.tree st) (sub.tree st) (inits.tree st)
def CDesig.tree (st : Bool) : CDesig → Desig
  | .nil => .nil
  | .struct member next => .struct member (next.tree st)
  | .ar i next => .ar (i.tree st) (next.tree st)
  | .range lo hi next => .range (lo.tree st) (hi.tree st) (next.tree st)
end

/-- Join two comma expressions to one, the operands of the first in front. -/
def Tree.joinComma : Tree → Tree → Tree
  | .comma a b, e => .comma a (b.joinComma e)
  | a, e => .comma a e

mutual
/-- The same tree with its commas associated to the right. -/
def Tree.reassoc : Tree → Tree
  | .generic test lbls => .generic test.reassoc lbls.reassoc
  | .inParens e => .inParens e.reassoc
  | .compoundLit t init st => .compoundLit t init.reassoc st
  | .cast e t => .cast e.reassoc t
  | .funcall e args => .funcall e.reassoc args.reassoc
  | .builtin b e => .builtin b e.reassoc
  | .struct e dot member => .struct e.reassoc dot member
  | .assignCompound lhs rhs o isPost => .assignCompound lhs.reassoc rhs.reassoc o isPost
  | .addr e => .addr e.reassoc
  | .deref e => .deref e.reassoc
  | .unary o lhs => .unary o lhs.reassoc
  | .op o lhs rhs arrayNotation => .op o lhs.reassoc rhs.reassoc arrayNotation
  | .sizeofExpr e w => .sizeofExpr e.reassoc w
  | .cond e lhs rhs => .cond e.reassoc lhs.reassoc rhs.reassoc
  | .condElse e rhs => .condElse e.reassoc rhs.reassoc
  | .assign lhs rhs => .assign lhs.reassoc rhs.reassoc
  | .comma lhs rhs => lhs.reassoc.joinComma rhs.reassoc
  | .numeric v => .numeric v
  | .val v => .val v
  | .str s => .str s
  | .identifier spel => .identifier spel
  | .block b => .block b
  | .stmt b => .stmt b
  | .addrLbl lbl st => .addrLbl lbl st
  | .sizeofType t w => .sizeofType t w
def Args.reassoc : Args → Args
  | .nil => .nil
  | .cons arg args => .cons arg.reassoc args.reassoc
def Labels.reassoc : Labels → Labels
  | .nil => .nil
  | .cons t e lbls => .cons t e.reassoc lbls.reassoc
def Init.reassoc : Init → Init
  | .scalar e => .scalar e.reassoc
  | .brace inits => .brace inits.reassoc
def Inits.reassoc : Inits → Inits
  | .nil => .nil
  | .cons desig sub inits => .cons desig.reassoc sub.reassoc inits.reassoc
def Desig.reassoc : Desig → Desig
  | .nil => .nil
  | .struct member next => .struct member next.reassoc
  | .ar i next => .ar i.reassoc next.reassoc
  | .range lo hi next => .range lo.reassoc hi.reassoc next.reassoc
end

/-! ## What the grammar generates -/

/-- The name that a call calls. -/
def Cst.spel : Cst → Option String
  | .identifier spel => some spel
  | .paren c => c.spel
  | _ => none

/-- A type name starts with a keyword or with a typedef that is in scope. -/
def TypeName.Ok (cx : Context) : TypeName → Prop
  | .named _ => True
  | .tdef spel _ => cx.atTdef spel = true

/-- The operators that stand in front of a cast expression, less `&` and `*`. -/
def standsInFront : OpType → Bool
  | .plus | .minus | .bnot | .not => true
  | _ => false

mutual
/-- The derivations of the grammar.  A typedef is not an identifier of an
expression, and a built-in function with a syntax of its own is not called. -/
def Cst.WellFormed (cx : Context) : Cst → Prop
  | .numeric _ | .string _ | .addrLbl _ => True
  | .identifier spel => cx.atTdef spel = false
  | .generic test lbls => test.level ≤ 15 ∧ test.WellFormed cx ∧ lbls.WellFormed cx
  | .paren c => c.WellFormed cx
  | .compoundLit t inits => t.Ok cx ∧ inits.WellFormed cx
  | .index c i => c.level ≤ 1 ∧ c.WellFormed cx ∧ i.WellFormed cx
  | .call c => c.level ≤ 1 ∧ c.WellFormed cx ∧ c.spel.bind cx.builtinParse = none
  | .callArgs c args =>
      c.level ≤ 1 ∧ c.WellFormed cx ∧ c.spel.bind cx.builtinParse = none ∧ args.WellFormed cx
  | .member c _ _ | .post c _ => c.level ≤ 1 ∧ c.WellFormed cx
  | .pre _ c | .sizeofExpr _ c => c.level ≤ 2 ∧ c.WellFormed cx
  | .addr c | .deref c => c.level ≤ 3 ∧ c.WellFormed cx
  | .unary o c => standsInFront o = true ∧ c.level ≤ 3 ∧ c.WellFormed cx
  | .sizeofType _ t => t.Ok cx
  | .cast t c => t.Ok cx ∧ c.level ≤ 3 ∧ c.WellFormed cx
  | .bin l o lhs rhs =>
      o ∈ l.ops ∧ lhs.level ≤ l.rank ∧ lhs.WellFormed cx ∧ rhs.level < l.rank ∧ rhs.WellFormed cx
  | .cond c lhs rhs =>
      c.level ≤ 13 ∧ c.WellFormed cx ∧ lhs.WellFormed cx ∧ rhs.level ≤ 14 ∧ rhs.WellFormed cx
  | .condElse c rhs => c.level ≤ 13 ∧ c.WellFormed cx ∧ rhs.level ≤ 14 ∧ rhs.WellFormed cx
  | .assign lhs rhs | .opAssign _ lhs rhs =>
      lhs.level ≤ 2 ∧ lhs.WellFormed cx ∧ rhs.level ≤ 15 ∧ rhs.WellFormed cx
  | .comma lhs rhs => lhs.WellFormed cx ∧ rhs.level ≤ 15 ∧ rhs.WellFormed cx
def CArgs.WellFormed (cx : Context) : CArgs → Prop
  | .last arg => arg.level ≤ 15 ∧ arg.WellFormed cx
  | .cons arg args => arg.level ≤ 15 ∧ arg.WellFormed cx ∧ args.WellFormed cx
def CLabels.WellFormed (cx : Context) : CLabels → Prop
  | .last t e => (∀ ty ∈ t, ty.Ok cx) ∧ e.level ≤ 15 ∧ e.WellFormed cx
  | .cons t e lbls =>
      (∀ ty ∈ t, ty.Ok cx) ∧ e.level ≤ 15 ∧ e.WellFormed cx ∧ lbls.WellFormed cx
def CInit.WellFormed (cx : Context) : CInit → Prop
  | .scalar e => e.level ≤ 15 ∧ e.WellFormed cx
  | .brace inits => inits.WellFormed cx
def CInits.WellFormed (cx : Context) : CInits → Prop
  | .nil => True
  | .last desig sub => desig.WellFormed cx ∧ sub.WellFormed cx
  | .cons desig sub inits => desig.WellFormed cx ∧ sub.WellFormed cx ∧ inits.WellFormed cx
def CDesig.WellFormed (cx : Context) : CDesig → Prop
  | .nil => True
  | .struct _ next => next.WellFormed cx
  | .ar i next => i.level ≤ 14 ∧ i.WellFormed cx ∧ next.WellFormed cx
  | .range lo hi next =>
      lo.level ≤ 14 ∧ lo.WellFormed cx ∧ hi.level ≤ 14 ∧ hi.WellFormed cx ∧ next.WellFormed cx
end

end Ucc.Cc1.ParseExpr
