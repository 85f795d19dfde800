/-
  Cc1/ParseExprTrees.lean --- the parser builds the tree of the grammar.

  Source: src/cc1/parse_expr.c and src/cc1/parse_init.c.

  A derivation of level `n` is read by the parser's function for every level from
  `n` on, as long as the next token does not continue it.  Three kinds of operators
  associate to the left, and for those the statement speaks of the loop: reading the
  operand and then running the loop is the same as running it from the operand's
  tree.  The parser associates commas to the right.
-/
import Ucc.Cc1.ParseExprReads

set_option autoImplicit false

namespace Ucc.Cc1.ParseExpr

open Ucc.Lib

variable {cx : Context}

/-- The tree that the parser builds. -/
def Cst.parsed (st : Bool) (c : Cst) : Tree := (c.tree st).reassoc

/-! ## Postfix expressions -/

/-- What the postfix operators of an expression are applied to. -/
def Cst.base : Cst → Cst
  | .index c _ | .call c | .callArgs c _ | .member c _ _ | .post c _ => c.base
  | c => c

/-- The tokens of the postfix operators. -/
def Cst.suffix : Cst → List Token
  | .index c i => c.suffix ++ .openSquare :: (i.toks ++ [.closeSquare])
  | .call c => c.suffix ++ [.openParen, .closeParen]
  | .callArgs c args => c.suffix ++ .openParen :: (args.toks ++ [.closeParen])
  | .member c dot x => c.suffix ++ [if dot then .dot else .ptr, .identifier x]
  | .post c inc => c.suffix ++ [stepTok inc]
  | _ => []

theorem Cst.toks_eq_base : ∀ c : Cst, c.toks = c.base.toks ++ c.suffix
  | .index c _ | .call c | .callArgs c _ | .member c _ _ | .post c _ => by
      simp only [Cst.toks, Cst.base, Cst.suffix]
      rw [c.toks_eq_base, List.append_assoc]
  | .numeric _ | .string _ | .identifier _ | .generic _ _ | .paren _ | .compoundLit _ _ => by
      simp [Cst.base, Cst.suffix]
  | .pre _ _ | .addr _ | .addrLbl _ | .deref _ | .unary _ _ | .sizeofType _ _ | .sizeofExpr _ _
  | .cast _ _ => by
      simp [Cst.base, Cst.suffix]
  | .bin _ _ _ _ | .cond _ _ _ | .condElse _ _ | .assign _ _ | .opAssign _ _ _ | .comma _ _ => by
      simp [Cst.base, Cst.suffix]

/-- Initialisers are read up to their brace. -/
def InitsParsed (cx : Context) (is : CInits) : Prop :=
  ∀ st rest, Reads cx (fun p => p.inits st) (is.toks ++ .closeBlock :: rest)
    (is.tree st).reassoc (.closeBlock :: rest)

/-- The operand that postfix operators are applied to is read, and the loop gets
from it to the whole expression. -/
structure PostfixReads (cx : Context) (c : Cst) : Prop where
  literal : ∀ t is, c.base = .compoundLit t is → t.Ok cx ∧ InitsParsed cx is
  starts : ∃ t us, c.base.toks = t :: us ∧ t.startsPrimary = true
  primary : ∀ st rest,
    Reads cx (fun p => parseExprPrimary cx p st) (c.base.toks ++ rest) (c.base.parsed st) rest
  loop : ∀ st ts e rest, Reads cx (fun p => p.postfixWith st (c.parsed st)) ts e rest →
    Reads cx (fun p => p.postfixWith st (c.base.parsed st)) (c.suffix ++ ts) e rest

/-- A primary expression. -/
theorem PostfixReads.of_primary {c : Cst} (hbase : c.base = c) (hsuffix : c.suffix = [])
    (literal : ∀ t is, c = .compoundLit t is → t.Ok cx ∧ InitsParsed cx is)
    (starts : ∃ t us, c.toks = t :: us ∧ t.startsPrimary = true)
    (primary : ∀ st rest,
      Reads cx (fun p => parseExprPrimary cx p st) (c.toks ++ rest) (c.parsed st) rest) :
    PostfixReads cx c where
  literal := by rwa [hbase]
  starts := by rwa [hbase]
  primary := by rwa [hbase]
  loop := by
    intro st ts e rest h
    rw [hbase, hsuffix]
    exact h

/-- One more postfix operator. -/
theorem PostfixReads.snoc {c c' : Cst} (h : PostfixReads cx c) (ops : List Token)
    (hbase : c'.base = c.base) (hsuffix : c'.suffix = c.suffix ++ ops)
    (hop : ∀ st ts e rest, Reads cx (fun p => p.postfixWith st (c'.parsed st)) ts e rest →
      Reads cx (fun p => p.postfixWith st (c.parsed st)) (ops ++ ts) e rest) :
    PostfixReads cx c' where
  literal := by
    rw [hbase]
    exact h.literal
  starts := by
    rw [hbase]
    exact h.starts
  primary := by
    rw [hbase]
    exact h.primary
  loop := by
    intro st ts e rest hloop
    rw [hbase, hsuffix, List.append_assoc]
    exact h.loop st _ e rest (hop st ts e rest hloop)

/-! ## The functions from unary expressions to the binary operators -/

/-- The level of the expressions that `above` reads. -/
def aboveRank : Option Level → Nat
  | none => 3
  | some l => l.rank

theorem rank_eq (l : Level) : l.rank = aboveRank l.above + 1 := by
  cases l <;> rfl

/-- An expression is read by a function for its operands. -/
def AboveReads (cx : Context) (a : Option Level) (c : Cst) : Prop :=
  ∀ st rest, Follows (aboveRank a) rest →
    Reads cx (fun p => parseAbove p st a) (c.toks ++ rest) (c.parsed st) rest

/-- Reading an operand and then running the loop of a level. -/
def LevelReads (cx : Context) (l : Level) (c : Cst) : Prop :=
  ∀ st ts e rest, Follows (aboveRank l.above) ts →
    Reads cx (fun p => p.operators l st (c.parsed st)) ts e rest →
    Reads cx (fun p => p.level l st) (c.toks ++ ts) e rest

theorem AboveReads.level {l : Level} {c : Cst} (h : AboveReads cx l.above c) :
    LevelReads cx l c := by
  intro st ts e rest hts hloop
  exact reads_level (h st ts hts) hloop

theorem LevelReads.above {l : Level} {c : Cst} (h : LevelReads cx l c) :
    AboveReads cx (some l) c := by
  intro st rest hrest
  have hrank := rank_eq l
  refine h st rest (c.parsed st) rest (hrest.mono ?_) (operators_stop hrest)
  show aboveRank l.above ≤ l.rank
  omega

theorem aboveRank_inj {a b : Option Level} (h : aboveRank a = aboveRank b) : a = b := by
  cases a with
  | none =>
    cases b with
    | none => rfl
    | some l => cases l <;> cases h
  | some k =>
    cases b with
    | none => cases k <;> cases h
    | some l => cases k <;> cases l <;> first | rfl | cases h

/-- What one function reads, every function of a looser level reads. -/
theorem AboveReads.climb {a : Option Level} {c : Cst} (h : AboveReads cx a c) :
    ∀ (n : Nat) (b : Option Level), aboveRank b = aboveRank a + n → AboveReads cx b c := by
  intro n
  induction n with
  | zero =>
    intro b hb
    rw [aboveRank_inj hb]
    exact h
  | succ n ih =>
    intro b hb
    cases b with
    | none =>
      have hle : 3 ≤ aboveRank a := by
        cases a with
        | none => exact le_rfl
        | some l => exact le_trans (by decide) (four_le_rank l)
      simp only [aboveRank] at hb hle
      omega
    | some l =>
      have hrank : l.rank = aboveRank a + (n + 1) := hb
      exact (ih l.above (by have := rank_eq l; omega)).level.above

/-! ## What the parser does with a derivation -/

/-- The parser reads a derivation with every function for its level or a looser
one. -/
structure Parsed (cx : Context) (c : Cst) : Prop where
  atPostfix : c.level ≤ 1 → PostfixReads cx c
  atLevel : ∀ l : Level, c.level ≤ l.rank → LevelReads cx l c
  atAbove : ∀ a, c.level ≤ aboveRank a → AboveReads cx a c
  atConditional : c.level ≤ 14 → ∀ st rest, Follows 14 rest →
    Reads cx (fun p => p.conditional st) (c.toks ++ rest) (c.parsed st) rest
  atAssignment : c.level ≤ 15 → ∀ st rest, Follows 15 rest →
    Reads cx (fun p => p.assignment st) (c.toks ++ rest) (c.parsed st) rest
  atExp : ∀ st rest, Follows 16 rest →
    Reads cx (fun p => p.exp st) (c.toks ++ rest) (c.parsed st) rest
  /-- with a comma and another expression behind it -/
  beforeComma : ∀ st ts e rest, Reads cx (fun p => p.exp st) ts e rest →
    Reads cx (fun p => p.exp st) (c.toks ++ .comma :: ts) ((c.parsed st).joinComma e) rest

/-- Only a comma expression is a comma expression. -/
theorem joinComma_parsed {c : Cst} (hc : c.level ≤ 15) (st : Bool) (e : Tree) :
    (c.parsed st).joinComma e = .comma (c.parsed st) e := by
  cases c with
  | comma lhs rhs =>
    simp only [Cst.level] at hc
    omega
  | _ => rfl

theorem three_le_aboveRank (a : Option Level) : 3 ≤ aboveRank a := by
  cases a with
  | none => exact le_rfl
  | some l => exact le_trans (by decide) (four_le_rank l)

theorem aboveRank_le_thirteen (a : Option Level) : aboveRank a ≤ 13 := by
  cases a with
  | none => decide
  | some l => exact rank_le_thirteen l

/-- From assignments on. -/
theorem Parsed.of_assignment {c : Cst} (hlevel : c.level ≤ 15)
    (atPostfix : c.level ≤ 1 → PostfixReads cx c)
    (atLevel : ∀ l : Level, c.level ≤ l.rank → LevelReads cx l c)
    (atAbove : ∀ a, c.level ≤ aboveRank a → AboveReads cx a c)
    (atConditional : c.level ≤ 14 → ∀ st rest, Follows 14 rest →
      Reads cx (fun p => p.conditional st) (c.toks ++ rest) (c.parsed st) rest)
    (h : ∀ st rest, Follows 15 rest →
      Reads cx (fun p => p.assignment st) (c.toks ++ rest) (c.parsed st) rest) :
    Parsed cx c where
  atPostfix := atPostfix
  atLevel := atLevel
  atAbove := atAbove
  atConditional := atConditional
  atAssignment := fun _ => h
  atExp := fun st rest hrest => exp_stop hrest (h st rest (hrest.mono (by decide)))
  beforeComma := by
    intro st ts e rest hexp
    rw [joinComma_parsed hlevel]
    exact reads_comma (h st _ (by rw [follows_cons]; decide)) hexp

/-- From conditional expressions on. -/
theorem Parsed.of_conditional {c : Cst} (hlevel : c.level ≤ 14)
    (atPostfix : c.level ≤ 1 → PostfixReads cx c)
    (atLevel : ∀ l : Level, c.level ≤ l.rank → LevelReads cx l c)
    (atAbove : ∀ a, c.level ≤ aboveRank a → AboveReads cx a c)
    (h : ∀ st rest, Follows 14 rest →
      Reads cx (fun p => p.conditional st) (c.toks ++ rest) (c.parsed st) rest) :
    Parsed cx c :=
  .of_assignment (by omega) atPostfix atLevel atAbove (fun _ => h) fun st rest hrest =>
    assignment_stop hrest (h st rest (hrest.mono (by decide)))

/-- From the function for the derivation's own level on. -/
theorem Parsed.of_above {c : Cst} (own : Option Level) (hlow : c.level ≤ aboveRank own)
    (hhigh : 3 < aboveRank own → aboveRank own ≤ c.level)
    (atPostfix : c.level ≤ 1 → PostfixReads cx c) (h : AboveReads cx own c)
    (hloop : ∀ l, own = some l → LevelReads cx l c) : Parsed cx c := by
  have hall : ∀ a, c.level ≤ aboveRank a → AboveReads cx a c := by
    intro a ha
    have hthree := three_le_aboveRank a
    exact h.climb (aboveRank a - aboveRank own) a (by omega)
  refine .of_conditional ?_ atPostfix ?_ hall ?_
  · have := aboveRank_le_thirteen own
    omega
  · intro l hl
    by_cases hown : own = some l
    · exact hloop l hown
    · refine (hall l.above ?_).level
      have hne : aboveRank own ≠ l.rank := fun heq => hown (aboveRank_inj heq)
      have hrank := rank_eq l
      have hthree := three_le_aboveRank l.above
      omega
  · intro st rest hrest
    have hor := hall (some .logicalOr) (le_trans hlow (aboveRank_le_thirteen own))
    exact conditional_stop hrest (hor st rest (hrest.mono (by decide)))

/-- A unary or a cast expression. -/
theorem Parsed.of_unary {c : Cst} (hlevel : c.level ≤ 3)
    (atPostfix : c.level ≤ 1 → PostfixReads cx c)
    (h : ∀ st rest, Follows 3 rest →
      Reads cx (fun p => p.unary st) (c.toks ++ rest) (c.parsed st) rest) : Parsed cx c :=
  .of_above none hlevel (fun h => absurd h (lt_irrefl 3)) atPostfix h fun _ h => nomatch h

/-- A postfix expression. -/
theorem Parsed.of_postfixReads {c : Cst} (hlevel : c.level ≤ 1) (h : PostfixReads cx c) :
    Parsed cx c := by
  refine .of_unary (by omega) (fun _ => h) fun st rest hrest => ?_
  rw [c.toks_eq_base, List.append_assoc]
  refine reads_unary_postfixExpr ?_ (reads_postfixExpr (h.primary st _) (h.loop st rest _ rest ?_))
  · obtain ⟨t, us, hbase, ht⟩ := h.starts
    exact ⟨t, us ++ (c.suffix ++ rest), by rw [hbase]; rfl, ht⟩
  · exact postfixWith_stop (hrest.mono (by decide))

/-! ## One case for each production -/

theorem identSpel_joinComma (l r : Tree) : (l.joinComma r).identSpel = none := by
  cases l <;> rfl

theorem identSpel_parsed (st : Bool) : ∀ c : Cst, (c.parsed st).identSpel = c.spel
  | .paren c => identSpel_parsed st c
  | .identifier _ => rfl
  | .numeric _ | .string _ | .generic _ _ | .compoundLit _ _ | .index _ _ | .call _
  | .callArgs _ _ | .member _ _ _ | .post _ _ => rfl
  | .pre _ _ | .addr _ | .addrLbl _ | .deref _ | .unary _ _ | .sizeofType _ _ | .sizeofExpr _ _
  | .cast _ _ => rfl
  | .bin _ _ _ _ | .cond _ _ _ | .condElse _ _ | .assign _ _ | .opAssign _ _ _ => rfl
  | .comma _ _ => identSpel_joinComma _ _

/-- The arguments of a call are read up to its parenthesis. -/
def ArgsParsed (cx : Context) (args : CArgs) : Prop :=
  ∀ st rest, Reads cx (fun p => p.args st) (args.toks ++ .closeParen :: rest)
    (args.tree st).reassoc (.closeParen :: rest)

/-- The associations of a generic selection are read with its parenthesis. -/
def LabelsParsed (cx : Context) (lbls : CLabels) : Prop :=
  ∀ st rest, Reads cx (fun p => p.labels st) (lbls.toks ++ .closeParen :: rest)
    (lbls.tree st).reassoc rest

def InitParsed (cx : Context) (i : CInit) : Prop :=
  ∀ st rest, Follows 15 rest →
    Reads cx (fun p => p.init st) (i.toks ++ rest) (i.tree st).reassoc rest

/-- Designators are read up to their `=`. -/
def DesigParsed (cx : Context) (d : CDesig) : Prop :=
  ∀ st mayOmit rest, ∃ mayOmit', Reads cx (fun p => parseDesigs p st mayOmit)
    (d.toks ++ .assign :: rest) ((d.tree st).reassoc, mayOmit') (.assign :: rest)

section Productions

variable {c i lhs rhs : Cst} {t : TypeName}

theorem parsed_numeric (v : Nat) : Parsed cx (.numeric v) :=
  .of_postfixReads (Nat.zero_le 1) (.of_primary rfl rfl (fun _ _ h => nomatch h) ⟨_, _, rfl, rfl⟩
    fun _ _ => reads_of_forall fun _ _ => rfl)

theorem parsed_string (s : String) : Parsed cx (.string s) :=
  .of_postfixReads (Nat.zero_le 1) (.of_primary rfl rfl (fun _ _ h => nomatch h) ⟨_, _, rfl, rfl⟩
    fun _ _ => reads_of_forall fun _ _ => rfl)

theorem parsed_identifier (spel : String) : Parsed cx (.identifier spel) :=
  .of_postfixReads (Nat.zero_le 1) (.of_primary rfl rfl (fun _ _ h => nomatch h) ⟨_, _, rfl, rfl⟩
    fun _ _ => reads_of_forall fun _ _ => rfl)

theorem parsed_generic {lbls : CLabels} (hlevel : c.level ≤ 15) (hc : Parsed cx c)
    (hlbls : LabelsParsed cx lbls) (hcomma : ∃ us, lbls.toks = .comma :: us) :
    Parsed cx (.generic c lbls) := by
  refine .of_postfixReads (Nat.zero_le 1) (.of_primary rfl rfl (fun _ _ h => nomatch h)
    ⟨_, _, rfl, rfl⟩ fun st rest => ?_)
  obtain ⟨us, hus⟩ := hcomma
  have htest := hc.atAssignment hlevel st (lbls.toks ++ .closeParen :: rest)
    (by rw [hus, List.cons_append, follows_cons]; decide)
  exact (reads_generic htest (hlbls st rest)).of_toks (by simp [Cst.toks])

theorem parsed_paren (hstarts : Starts cx c.toks) (hc : Parsed cx c) : Parsed cx (.paren c) := by
  refine .of_postfixReads (Nat.zero_le 1) (.of_primary rfl rfl (fun _ _ h => nomatch h)
    ⟨_, _, rfl, rfl⟩ fun st rest => ?_)
  have hexp := hc.atExp st (.closeParen :: rest) (by rw [follows_cons]; decide)
  exact (reads_paren (hstarts.append _) hexp).of_toks (by simp [Cst.toks])

theorem parsed_compoundLit {is : CInits} (ht : t.Ok cx) (his : InitsParsed cx is) :
    Parsed cx (.compoundLit t is) := by
  refine .of_postfixReads le_rfl (.of_primary rfl rfl ?_ ⟨_, _, rfl, rfl⟩ fun st rest => ?_)
  · rintro _ _ ⟨⟩
    exact ⟨ht, his⟩
  exact (reads_compoundLit ht (reads_brace (his st rest))).of_toks (by simp [Cst.toks])

theorem parsed_index (hlevel : c.level ≤ 1) (hc : Parsed cx c) (hi : Parsed cx i) :
    Parsed cx (.index c i) := by
  refine .of_postfixReads le_rfl ((hc.atPostfix hlevel).snoc
    (.openSquare :: (i.toks ++ [.closeSquare])) rfl rfl fun st ts e rest h => ?_)
  have hexp := hi.atExp st (.closeSquare :: ts) (by rw [follows_cons]; decide)
  exact (reads_index hexp h).of_toks (by simp)

theorem parsed_call (hlevel : c.level ≤ 1) (hc : Parsed cx c)
    (hspel : c.spel.bind cx.builtinParse = none) : Parsed cx (.call c) := by
  refine .of_postfixReads le_rfl ((hc.atPostfix hlevel).snoc
    [.openParen, .closeParen] rfl rfl fun st ts e rest h => ?_)
  exact reads_call (by rwa [identSpel_parsed]) h

theorem parsed_callArgs {args : CArgs} (hlevel : c.level ≤ 1) (hc : Parsed cx c)
    (hspel : c.spel.bind cx.builtinParse = none) (hstarts : Starts cx args.toks)
    (hargs : ArgsParsed cx args) : Parsed cx (.callArgs c args) := by
  refine .of_postfixReads le_rfl ((hc.atPostfix hlevel).snoc
    (.openParen :: (args.toks ++ [.closeParen])) rfl rfl fun st ts e rest h => ?_)
  have hhead : ∀ t ∈ (args.toks ++ .closeParen :: ts).head?, t ≠ .closeParen := by
    obtain ⟨t, us, htoks, ht⟩ := hstarts
    rw [htoks]
    rintro _ ⟨⟩ rfl
    cases ht
  have hnone : (c.parsed st).identSpel.bind cx.builtinParse = none := by
    rwa [identSpel_parsed]
  exact (reads_callArgs hnone hhead (hargs st ts) h).of_toks (by simp)

theorem parsed_member (hlevel : c.level ≤ 1) (hc : Parsed cx c) (dot : Bool) (x : String) :
    Parsed cx (.member c dot x) := by
  refine .of_postfixReads le_rfl ((hc.atPostfix hlevel).snoc
    [if dot then .dot else .ptr, .identifier x] rfl rfl fun st ts e rest h => ?_)
  exact reads_member dot x h

theorem parsed_post (hlevel : c.level ≤ 1) (hc : Parsed cx c) (inc : Bool) :
    Parsed cx (.post c inc) := by
  refine .of_postfixReads le_rfl ((hc.atPostfix hlevel).snoc [stepTok inc] rfl rfl
    fun st ts e rest h => ?_)
  exact reads_post inc h

/-- What is read as the operand of a unary operator or of a cast. -/
theorem Parsed.atUnary (hc : Parsed cx c) (hlevel : c.level ≤ 3) (st : Bool) {rest : List Token}
    (hrest : Follows 3 rest) :
    Reads cx (fun p => p.unary st) (c.toks ++ rest) (c.parsed st) rest :=
  hc.atAbove none hlevel st rest hrest

theorem parsed_pre (inc : Bool) (hlevel : c.level ≤ 2) (hc : Parsed cx c) :
    Parsed cx (.pre inc c) :=
  .of_unary (by simp [Cst.level]) (by simp [Cst.level]) fun st _ hrest =>
    reads_pre inc (hc.atUnary (by omega) st hrest)

theorem parsed_addr (hlevel : c.level ≤ 3) (hc : Parsed cx c) : Parsed cx (.addr c) :=
  .of_unary (by simp [Cst.level]) (by simp [Cst.level]) fun st _ hrest =>
    reads_addr (hc.atUnary hlevel st hrest)

theorem parsed_addrLbl (lbl : String) : Parsed cx (.addrLbl lbl) :=
  .of_unary (by simp [Cst.level]) (by simp [Cst.level]) fun _ _ _ => reads_addrLbl lbl

theorem parsed_deref (hlevel : c.level ≤ 3) (hc : Parsed cx c) : Parsed cx (.deref c) :=
  .of_unary (by simp [Cst.level]) (by simp [Cst.level]) fun st _ hrest =>
    reads_deref (hc.atUnary hlevel st hrest)

theorem parsed_unary {o : OpType} (ho : standsInFront o = true) (hlevel : c.level ≤ 3)
    (hc : Parsed cx c) : Parsed cx (.unary o c) :=
  .of_unary (by simp [Cst.level]) (by simp [Cst.level]) fun st _ hrest =>
    reads_inFront ho (hc.atUnary hlevel st hrest)

theorem parsed_sizeofType (w : WhatOf) (ht : t.Ok cx) : Parsed cx (.sizeofType w t) := by
  refine .of_unary (by simp [Cst.level]) (by simp [Cst.level]) fun st rest hrest => ?_
  exact (reads_sizeofType w ht (hrest.mono (by decide))).of_toks (by simp [Cst.toks])

/-- The loop for the postfix operators ends behind a cast. -/
theorem parsed_cast (ht : t.Ok cx) (hstarts : Starts cx c.toks) (hlevel : c.level ≤ 3)
    (hc : Parsed cx c) : Parsed cx (.cast t c) := by
  refine .of_unary le_rfl (by simp [Cst.level]) fun st rest hrest => ?_
  refine reads_unary_postfixExpr ⟨_, _, rfl, rfl⟩ ?_
  refine reads_postfixExpr ?_ (postfixWith_stop (hrest.mono (by decide)))
  have hcast := reads_cast ht (hstarts.append rest) (hc.atUnary hlevel st hrest)
  exact hcast.of_toks (by simp [Cst.toks])

/-- Tokens that do not start with a type in parentheses. -/
def NoType (cx : Context) (ts : List Token) : Prop :=
  ∀ us, ts = .openParen :: us → parseType cx us = (none, us)

/-- A postfix expression is a compound literal at its base, or does not start with
a type in parentheses. -/
theorem base_cases : ∀ c : Cst, c.WellFormed cx → c.level ≤ 1 →
    (∃ t is, c.base = .compoundLit t is) ∨ ∀ rest, NoType cx (c.base.toks ++ rest)
  | .index c _, h, _ => base_cases c h.2.1 h.1
  | .call c, h, _ => base_cases c h.2.1 h.1
  | .callArgs c _, h, _ => base_cases c h.2.1 h.1
  | .member c _ _, h, _ => base_cases c h.2 h.1
  | .post c _, h, _ => base_cases c h.2 h.1
  | .compoundLit t is, _, _ => .inl ⟨t, is, rfl⟩
  | .numeric _, _, _ => .inr fun _ _ h => nomatch h
  | .string _, _, _ => .inr fun _ _ h => nomatch h
  | .identifier _, _, _ => .inr fun _ _ h => nomatch h
  | .generic _ _, _, _ => .inr fun _ _ h => nomatch h
  | .paren c, h, _ => by
      refine .inr fun rest us hus => ?_
      obtain ⟨t, ts, htoks, ht⟩ := (c.begins h).starts
      simp only [Cst.base, Cst.toks, htoks, List.cons_append, List.cons.injEq, true_and] at hus
      rw [← hus]
      exact parseType_starts ht _
  | .bin l _ _ _, _, h => by
      have := four_le_rank l
      simp only [Cst.level] at h
      omega
  | .pre _ _, _, h | .addr _, _, h | .addrLbl _, _, h | .deref _, _, h | .unary _ _, _, h
  | .sizeofType _ _, _, h | .sizeofExpr _ _, _, h | .cast _ _, _, h => by
      simp [Cst.level] at h
  | .cond _ _ _, _, h | .condElse _ _, _, h | .assign _ _, _, h | .opAssign _ _ _, _, h
  | .comma _ _, _, h => by
      simp [Cst.level] at h

/-- A prefix operator is not a parenthesis. -/
theorem noType_unary (hlow : 1 < c.level) (hhigh : c.level ≤ 2) (rest : List Token) :
    NoType cx (c.toks ++ rest) := by
  intro us hus
  cases c with
  | pre inc c => cases inc <;> simp [Cst.toks, stepTok] at hus
  | bin l _ _ _ =>
    have := four_le_rank l
    simp only [Cst.level] at hhigh
    omega
  | _ => first | (simp [Cst.level] at hlow hhigh; done) | simp [Cst.toks] at hus

theorem parsed_sizeofExpr (w : WhatOf) (hwf : c.WellFormed cx) (hlevel : c.level ≤ 2)
    (hc : Parsed cx c) : Parsed cx (.sizeofExpr w c) := by
  refine .of_unary (by simp [Cst.level]) (by simp [Cst.level]) fun st rest hrest => ?_
  have hunary := hc.atUnary (by omega) false hrest
  by_cases hone : c.level ≤ 1
  · have hpost := hc.atPostfix hone
    rcases base_cases c hwf hone with ⟨t, is, hbase⟩ | hnone
    · obtain ⟨ht, his⟩ := hpost.literal t is hbase
      have hloop := hpost.loop false rest _ rest (postfixWith_stop (hrest.mono (by decide)))
      rw [hbase] at hloop
      refine (reads_sizeof_compoundLit w ht (reads_brace (his false _)) hloop).of_toks ?_
      rw [Cst.toks, c.toks_eq_base, hbase]
      simp [Cst.toks]
    · have hno : NoType cx (c.toks ++ rest) := by
        rw [c.toks_eq_base, List.append_assoc]
        exact hnone _
      exact reads_sizeofExpr w hno hunary
  · exact reads_sizeofExpr w (noType_unary (by omega) hlevel rest) hunary

theorem parsed_bin {l : Level} {o : OpType} (ho : o ∈ l.ops) (hlhs : lhs.level ≤ l.rank)
    (hl : Parsed cx lhs) (hrhs : rhs.level < l.rank) (hr : Parsed cx rhs) :
    Parsed cx (.bin l o lhs rhs) := by
  have hrank := rank_eq l
  have hlevel : LevelReads cx l (.bin l o lhs rhs) := by
    intro st ts e rest hts hloop
    have hop := reads_operator ho (hr.atAbove l.above (by omega) st ts hts) hloop
    have hfollow : Follows (aboveRank l.above) (.op o :: (rhs.toks ++ ts)) := by
      rw [follows_cons]
      show aboveRank l.above < opRank o
      rw [(mem_ops_iff l o).mp ho]
      omega
    refine (hl.atLevel l hlhs st _ e rest hfollow hop).of_toks ?_
    simp [Cst.toks]
  refine .of_above (some l) le_rfl (fun _ => le_rfl) ?_ hlevel.above ?_
  · intro hone
    have := four_le_rank l
    simp only [Cst.level] at hone
    omega
  · rintro _ ⟨⟩
    exact hlevel

/-- No expression of a level above 13 is the operand of a binary operator. -/
theorem Parsed.of_loose (hlow : 13 < c.level) (hhigh : c.level ≤ 15)
    (atConditional : c.level ≤ 14 → ∀ st rest, Follows 14 rest →
      Reads cx (fun p => p.conditional st) (c.toks ++ rest) (c.parsed st) rest)
    (h : ∀ st rest, Follows 15 rest →
      Reads cx (fun p => p.assignment st) (c.toks ++ rest) (c.parsed st) rest) : Parsed cx c :=
  .of_assignment hhigh (fun hone => absurd hone (by omega))
    (fun l hl => absurd hl (by have := rank_le_thirteen l; omega))
    (fun a ha => absurd ha (by have := aboveRank_le_thirteen a; omega)) atConditional h

theorem Parsed.of_cond (hlow : 13 < c.level) (hhigh : c.level ≤ 14)
    (h : ∀ st rest, Follows 14 rest →
      Reads cx (fun p => p.conditional st) (c.toks ++ rest) (c.parsed st) rest) : Parsed cx c :=
  .of_loose hlow (by omega) (fun _ => h) fun st rest hrest =>
    assignment_stop hrest (h st rest (hrest.mono (by decide)))

theorem parsed_cond (hlevel : c.level ≤ 13) (hc : Parsed cx c) (hstarts : Starts cx lhs.toks)
    (hl : Parsed cx lhs) (hrhs : rhs.level ≤ 14) (hr : Parsed cx rhs) :
    Parsed cx (.cond c lhs rhs) := by
  refine .of_cond (by simp [Cst.level]) le_rfl fun st rest hrest => ?_
  have hor := hc.atAbove (some .logicalOr) hlevel st
    (.question :: (lhs.toks ++ .colon :: (rhs.toks ++ rest))) (by rw [follows_cons]; decide)
  have hexp := hl.atExp st (.colon :: (rhs.toks ++ rest)) (by rw [follows_cons]; decide)
  have hcond := reads_cond (hstarts.append _) hor hexp (hr.atConditional hrhs st rest hrest)
  exact hcond.of_toks (by simp [Cst.toks])

theorem parsed_condElse (hlevel : c.level ≤ 13) (hc : Parsed cx c) (hrhs : rhs.level ≤ 14)
    (hr : Parsed cx rhs) : Parsed cx (.condElse c rhs) := by
  refine .of_cond (by simp [Cst.level]) le_rfl fun st rest hrest => ?_
  have hor := hc.atAbove (some .logicalOr) hlevel st
    (.question :: .colon :: (rhs.toks ++ rest)) (by rw [follows_cons]; decide)
  have hcond := reads_condElse hor (hr.atConditional hrhs st rest hrest)
  exact hcond.of_toks (by simp [Cst.toks])

theorem parsed_assign (hlevel : lhs.level ≤ 2) (hl : Parsed cx lhs) (hrhs : rhs.level ≤ 15)
    (hr : Parsed cx rhs) : Parsed cx (.assign lhs rhs) := by
  refine .of_loose (by simp [Cst.level]) le_rfl (by simp [Cst.level]) fun st rest hrest => ?_
  have hcond := hl.atConditional (by omega) st (.assign :: (rhs.toks ++ rest))
    (by rw [follows_cons]; decide)
  have hassign := reads_assign hcond (hr.atAssignment hrhs st rest hrest)
  exact hassign.of_toks (by simp [Cst.toks])

theorem parsed_opAssign (o : OpType) (hlevel : lhs.level ≤ 2) (hl : Parsed cx lhs)
    (hrhs : rhs.level ≤ 15) (hr : Parsed cx rhs) : Parsed cx (.opAssign o lhs rhs) := by
  refine .of_loose (by simp [Cst.level]) le_rfl (by simp [Cst.level]) fun st rest hrest => ?_
  have hcond := hl.atConditional (by omega) st (.opAssign o :: (rhs.toks ++ rest))
    (by rw [follows_cons]; exact Nat.lt_succ_self 14)
  have hassign := reads_opAssign hcond (hr.atAssignment hrhs st rest hrest)
  exact hassign.of_toks (by simp [Cst.toks])

theorem joinComma_assoc (a b c : Tree) :
    (a.joinComma b).joinComma c = a.joinComma (b.joinComma c) := by
  cases a with
  | comma x y => simp only [Tree.joinComma, joinComma_assoc y b c]
  | _ => rfl

/-- The parser takes the operands of commas from the left, and puts each in front
of the rest. -/
theorem parsed_comma (hl : Parsed cx lhs) (hr : Parsed cx rhs) : Parsed cx (.comma lhs rhs) where
  atPostfix := by simp [Cst.level]
  atLevel := fun l hlevel => by
    have := rank_le_thirteen l
    simp only [Cst.level] at hlevel
    omega
  atAbove := fun a hlevel => by
    have := aboveRank_le_thirteen a
    simp only [Cst.level] at hlevel
    omega
  atConditional := by simp [Cst.level]
  atAssignment := by simp [Cst.level]
  atExp := by
    intro st rest hrest
    exact (hl.beforeComma st _ _ rest (hr.atExp st rest hrest)).of_toks (by simp [Cst.toks])
  beforeComma := by
    intro st ts e rest hexp
    have hall := hl.beforeComma st _ _ rest (hr.beforeComma st ts e rest hexp)
    rw [← joinComma_assoc] at hall
    exact hall.of_toks (by simp [Cst.toks])

end Productions

/-! ## Lists -/

theorem argsParsed_last {c : Cst} (hlevel : c.level ≤ 15) (hc : Parsed cx c) :
    ArgsParsed cx (.last c) := by
  intro st rest
  exact reads_arg_last (hc.atAssignment hlevel st _ (by rw [follows_cons]; decide))

theorem argsParsed_cons {c : Cst} {args : CArgs} (hlevel : c.level ≤ 15) (hc : Parsed cx c)
    (hargs : ArgsParsed cx args) : ArgsParsed cx (.cons c args) := by
  intro st rest
  have harg := hc.atAssignment hlevel st (.comma :: (args.toks ++ .closeParen :: rest))
    (by rw [follows_cons]; decide)
  exact (reads_arg_cons harg (hargs st rest)).of_toks (by simp [CArgs.toks])

theorem labelsParsed_last {t : Option TypeName} {c : Cst} (ht : ∀ ty ∈ t, ty.Ok cx)
    (hlevel : c.level ≤ 15) (hc : Parsed cx c) : LabelsParsed cx (.last t c) := by
  intro st rest
  have he := hc.atAssignment hlevel st (.closeParen :: rest) (by rw [follows_cons]; decide)
  exact (reads_label_last ht he).of_toks (by simp [CLabels.toks])

theorem CLabels.toks_comma : ∀ lbls : CLabels, ∃ us, lbls.toks = .comma :: us
  | .last _ _ => ⟨_, rfl⟩
  | .cons _ _ _ => ⟨_, rfl⟩

theorem labelsParsed_cons {t : Option TypeName} {c : Cst} {lbls : CLabels}
    (ht : ∀ ty ∈ t, ty.Ok cx) (hlevel : c.level ≤ 15) (hc : Parsed cx c)
    (hlbls : LabelsParsed cx lbls) : LabelsParsed cx (.cons t c lbls) := by
  intro st rest
  obtain ⟨us, hus⟩ := lbls.toks_comma
  have hnext := hlbls st rest
  rw [hus, List.cons_append] at hnext
  have he := hc.atAssignment hlevel st (.comma :: (us ++ .closeParen :: rest))
    (by rw [follows_cons]; decide)
  exact (reads_label_cons ht he hnext).of_toks (by simp [CLabels.toks, hus])

theorem initParsed_scalar {c : Cst} (hstarts : Starts cx c.toks) (hlevel : c.level ≤ 15)
    (hc : Parsed cx c) : InitParsed cx (.scalar c) := by
  intro st rest hrest
  exact reads_scalar (hstarts.append rest) (hc.atAssignment hlevel st rest hrest)

theorem initParsed_brace {is : CInits} (his : InitsParsed cx is) : InitParsed cx (.brace is) := by
  intro st rest _
  exact (reads_brace (his st rest)).of_toks (by simp [CInit.toks])

theorem desigParsed_nil : DesigParsed cx .nil := by
  intro st mayOmit rest
  exact ⟨mayOmit, reads_desigs_stop mayOmit⟩

theorem desigParsed_struct (member : String) {d : CDesig} (hd : DesigParsed cx d) :
    DesigParsed cx (.struct member d) := by
  intro st mayOmit rest
  obtain ⟨m, h⟩ := hd st mayOmit rest
  exact ⟨m, reads_desigs_struct member h⟩

theorem desigParsed_ar {c : Cst} {d : CDesig} (hc : Parsed cx c) (hd : DesigParsed cx d) :
    DesigParsed cx (.ar c d) := by
  intro st mayOmit rest
  obtain ⟨m, h⟩ := hd st true rest
  have he := hc.atExp st (.closeSquare :: (d.toks ++ .assign :: rest))
    (by rw [follows_cons]; decide)
  exact ⟨m, (reads_desigs_ar he h).of_toks (by simp [CDesig.toks])⟩

theorem desigParsed_range {lo hi : Cst} {d : CDesig} (hlo : Parsed cx lo) (hhi : Parsed cx hi)
    (hd : DesigParsed cx d) : DesigParsed cx (.range lo hi d) := by
  intro st mayOmit rest
  obtain ⟨m, h⟩ := hd st true rest
  have he := hlo.atExp st (.elipsis :: (hi.toks ++ .closeSquare :: (d.toks ++ .assign :: rest)))
    (by rw [follows_cons]; decide)
  have he' := hhi.atExp st (.closeSquare :: (d.toks ++ .assign :: rest))
    (by rw [follows_cons]; decide)
  exact ⟨m, (reads_desigs_range he he' h).of_toks (by simp [CDesig.toks])⟩

/-- Put designators in front of the tokens of an initialiser. -/
def CDesig.before : CDesig → List Token → List Token
  | .nil, ts => ts
  | d, ts => d.toks ++ .assign :: ts

theorem CInit.begins : ∀ i : CInit, i.WellFormed cx → ∀ rest : List Token,
    rest.head? ≠ some .colon →
      Begins cx (i.toks ++ rest) ∨ (i.toks ++ rest).head? = some .openBlock
  | .scalar e, h, _, hrest => .inl ((e.begins h.2).append hrest)
  | .brace _, _, _, _ => .inr rfl

theorem not_closeBlock {ts : List Token} (hts : Begins cx ts ∨ ts.head? = some .openBlock) :
    ts.head? ≠ some .closeBlock := by
  rcases hts with ⟨t, us, rfl, ht, -⟩ | hopen
  · rintro ⟨⟩
    cases ht
  · rw [hopen]
    simp

/-- The designators of an initialiser are read, and do not end the list. -/
theorem before_reads {d : CDesig} (hd : DesigParsed cx d) (st : Bool) {ts : List Token}
    (hts : Begins cx ts ∨ ts.head? = some .openBlock) :
    (d.before ts).head? ≠ some .closeBlock ∧
      Reads cx (fun p => parseDesignation p st) (d.before ts) (d.tree st).reassoc ts := by
  obtain ⟨m, h⟩ := hd st false ts
  cases d with
  | nil => exact ⟨not_closeBlock hts, reads_designation_nil hts⟩
  | struct x next => exact ⟨by simp [CDesig.before, CDesig.toks], reads_designation (.inl rfl) h⟩
  | ar i next => exact ⟨by simp [CDesig.before, CDesig.toks], reads_designation (.inr rfl) h⟩
  | range lo hi next => exact ⟨by simp [CDesig.before, CDesig.toks], reads_designation (.inr rfl) h⟩

theorem initsParsed_last {d : CDesig} {i : CInit} (hwf : i.WellFormed cx) (hd : DesigParsed cx d)
    (hi : InitParsed cx i) : InitsParsed cx (.last d i) := by
  intro st rest
  obtain ⟨hhead, hdesig⟩ := before_reads hd st (i.begins hwf (.closeBlock :: rest) (by simp))
  have hinit := hi st (.closeBlock :: rest) (by rw [follows_cons]; decide)
  refine (reads_inits_last hhead hdesig hinit).of_toks ?_
  cases d <;> simp [CInits.toks, CDesig.before]

theorem initsParsed_cons {d : CDesig} {i : CInit} {is : CInits} (hwf : i.WellFormed cx)
    (hd : DesigParsed cx d) (hi : InitParsed cx i) (his : InitsParsed cx is) :
    InitsParsed cx (.cons d i is) := by
  intro st rest
  obtain ⟨hhead, hdesig⟩ := before_reads hd st
    (i.begins hwf (.comma :: (is.toks ++ .closeBlock :: rest)) (by simp))
  have hinit := hi st (.comma :: (is.toks ++ .closeBlock :: rest)) (by rw [follows_cons]; decide)
  refine (reads_inits_cons hhead hdesig hinit (his st rest)).of_toks ?_
  cases d <;> simp [CInits.toks, CDesig.before]

/-! ## Every derivation -/

theorem CArgs.starts : ∀ args : CArgs, args.WellFormed cx → Starts cx args.toks
  | .last arg, h => (arg.begins h.2).starts
  | .cons arg _, h => ((arg.begins h.2.1).starts).append _

mutual
theorem Cst.parses : ∀ c : Cst, c.WellFormed cx → Parsed cx c
  | .numeric v, _ => parsed_numeric v
  | .string s, _ => parsed_string s
  | .identifier spel, _ => parsed_identifier spel
  | .generic test lbls, ⟨hlevel, htest, hlbls⟩ =>
      parsed_generic hlevel (test.parses htest) (lbls.parses hlbls) lbls.toks_comma
  | .paren c, h => parsed_paren (c.begins h).starts (c.parses h)
  | .compoundLit _ inits, ⟨ht, h⟩ => parsed_compoundLit ht (inits.parses h)
  | .index c i, ⟨hlevel, hc, hi⟩ => parsed_index hlevel (c.parses hc) (i.parses hi)
  | .call c, ⟨hlevel, hc, hspel⟩ => parsed_call hlevel (c.parses hc) hspel
  | .callArgs c args, ⟨hlevel, hc, hspel, hargs⟩ =>
      parsed_callArgs hlevel (c.parses hc) hspel (args.starts hargs) (args.parses hargs)
  | .member c dot x, ⟨hlevel, hc⟩ => parsed_member hlevel (c.parses hc) dot x
  | .post c inc, ⟨hlevel, hc⟩ => parsed_post hlevel (c.parses hc) inc
  | .pre inc c, ⟨hlevel, hc⟩ => parsed_pre inc hlevel (c.parses hc)
  | .addr c, ⟨hlevel, hc⟩ => parsed_addr hlevel (c.parses hc)
  | .addrLbl lbl, _ => parsed_addrLbl lbl
  | .deref c, ⟨hlevel, hc⟩ => parsed_deref hlevel (c.parses hc)
  | .unary _ c, ⟨ho, hlevel, hc⟩ => parsed_unary ho hlevel (c.parses hc)
  | .sizeofType w _, h => parsed_sizeofType w h
  | .sizeofExpr w c, ⟨hlevel, hc⟩ => parsed_sizeofExpr w hc hlevel (c.parses hc)
  | .cast _ c, ⟨ht, hlevel, hc⟩ => parsed_cast ht (c.begins hc).starts hlevel (c.parses hc)
  | .bin _ _ lhs rhs, ⟨ho, hlhs, hl, hrhs, hr⟩ =>
      parsed_bin ho hlhs (lhs.parses hl) hrhs (rhs.parses hr)
  | .cond c lhs rhs, ⟨hlevel, hc, hl, hrhs, hr⟩ =>
      parsed_cond hlevel (c.parses hc) (lhs.begins hl).starts (lhs.parses hl) hrhs (rhs.parses hr)
  | .condElse c rhs, ⟨hlevel, hc, hrhs, hr⟩ =>
      parsed_condElse hlevel (c.parses hc) hrhs (rhs.parses hr)
  | .assign lhs rhs, ⟨hlevel, hl, hrhs, hr⟩ =>
      parsed_assign hlevel (lhs.parses hl) hrhs (rhs.parses hr)
  | .opAssign o lhs rhs, ⟨hlevel, hl, hrhs, hr⟩ =>
      parsed_opAssign o hlevel (lhs.parses hl) hrhs (rhs.parses hr)
  | .comma lhs rhs, ⟨hl, _, hr⟩ => parsed_comma (lhs.parses hl) (rhs.parses hr)
theorem CArgs.parses : ∀ args : CArgs, args.WellFormed cx → ArgsParsed cx args
  | .last arg, ⟨hlevel, h⟩ => argsParsed_last hlevel (arg.parses h)
  | .cons arg args, ⟨hlevel, h, hargs⟩ =>
      argsParsed_cons hlevel (arg.parses h) (args.parses hargs)
theorem CLabels.parses : ∀ lbls : CLabels, lbls.WellFormed cx → LabelsParsed cx lbls
  | .last _ e, ⟨ht, hlevel, h⟩ => labelsParsed_last ht hlevel (e.parses h)
  | .cons _ e lbls, ⟨ht, hlevel, h, hlbls⟩ =>
      labelsParsed_cons ht hlevel (e.parses h) (lbls.parses hlbls)
theorem CInit.parses : ∀ i : CInit, i.WellFormed cx → InitParsed cx i
  | .scalar e, ⟨hlevel, h⟩ => initParsed_scalar (e.begins h).starts hlevel (e.parses h)
  | .brace inits, h => initParsed_brace (inits.parses h)
theorem CInits.parses : ∀ is : CInits, is.WellFormed cx → InitsParsed cx is
  | .nil, _ => fun _ _ => reads_inits_nil
  | .last desig sub, ⟨hd, hi⟩ => initsParsed_last hi (desig.parses hd) (sub.parses hi)
  | .cons desig sub inits, ⟨hd, hi, his⟩ =>
      initsParsed_cons hi (desig.parses hd) (sub.parses hi) (inits.parses his)
theorem CDesig.parses : ∀ d : CDesig, d.WellFormed cx → DesigParsed cx d
  | .nil, _ => desigParsed_nil
  | .struct x next, h => desigParsed_struct x (next.parses h)
  | .ar i next, ⟨_, hi, h⟩ => desigParsed_ar (i.parses hi) (next.parses h)
  | .range lo hi next, ⟨_, hlo, _, hhi, h⟩ =>
      desigParsed_range (lo.parses hlo) (hi.parses hhi) (next.parses h)
end

/-- The tokens of an expression have one tree, up to how commas associate. -/
theorem reassoc_tree_unique {c d : Cst} (hc : c.WellFormed cx) (hd : d.WellFormed cx)
    (htoks : c.toks = d.toks) (st : Bool) : (c.tree st).reassoc = (d.tree st).reassoc := by
  obtain ⟨m, hm⟩ := (c.parses hc).atExp st [] (by simp [Follows]) false
  obtain ⟨n, hn⟩ := (d.parses hd).atExp st [] (by simp [Follows]) false
  have hcm := hm (max m n) (le_max_left m n)
  rw [htoks] at hcm
  have heq := hcm.symm.trans (hn (max m n) (le_max_right m n))
  exact congrArg Prod.fst (Partial.pure_inj.mp heq)

/-- `parse_expr_exp` reads every expression of the grammar to its end, without an
error, and returns its tree with the commas associated to the right. -/
theorem exp_reads_derivation (cx : Context) (st : Bool) (c : Cst) (hc : c.WellFormed cx)
    (rest : List Token) (hrest : Follows 16 rest) (hadError : Bool) :
    ∃ n, ∀ m, n ≤ m → (parser cx m).exp st ⟨c.toks ++ rest, hadError⟩ =
      pure ((c.tree st).reassoc, ⟨rest, hadError⟩) :=
  (c.parses hc).atExp st rest hrest hadError

/-- The name of a typedef. -/
def nameT : String := "T"

/-- A scope with the typedef `T`, and without blocks. -/
def scopeOfT : Context where
  atTdef := fun spel => spel == nameT
  builtinParse := fun _ => none
  parseBlock := fun _ => .die (.expressionExpected none)
  parseStmtBlock := fun _ => .die (.expressionExpected none)

/-- `(T)x[1] ?: sizeof(T){2}.y, z = &&l, p++`, in front of a semicolon. -/
theorem exp_reads_list : ∃ n, ∀ m, n ≤ m →
    (parser scopeOfT m).exp false
      ⟨[.openParen, .identifier "T", .closeParen, .identifier "x", .openSquare, .numeric 1,
        .closeSquare, .question, .colon, .whatOf .sizeof, .openParen, .identifier "T", .closeParen,
        .openBlock, .numeric 2, .closeBlock, .dot, .identifier "y", .comma,
        .identifier "z", .assign, .op .andsc, .identifier "l", .comma,
        .identifier "p", .increment, .other 0], false⟩ =
      pure (.comma
        (.condElse
          (.cast (.deref (.op .plus (.identifier "x") (.numeric 1) true)) (.tdef nameT none))
          (.sizeofExpr (.struct (.compoundLit (.tdef nameT none)
            (.brace (.cons .nil (.scalar (.numeric 2)) .nil)) false) true "y") .sizeof))
        (.comma (.assign (.identifier "z") (.addrLbl "l" false))
          (.assignCompound (.identifier "p") (.val 1) .plus true)), ⟨[.other 0], false⟩) :=
  exp_reads_derivation scopeOfT false
    (.comma
      (.comma
        (.condElse (.cast (.tdef nameT none) (.index (.identifier "x") (.numeric 1)))
          (.sizeofExpr .sizeof (.member (.compoundLit (.tdef nameT none)
            (.last .nil (.scalar (.numeric 2)))) true "y")))
        (.assign (.identifier "z") (.addrLbl "l")))
      (.post (.identifier "p") true))
    (by simp [Cst.WellFormed, CInits.WellFormed, CInit.WellFormed, CDesig.WellFormed, Cst.level,
      TypeName.Ok, scopeOfT, nameT])
    [.other 0] (by simp [Token.cont]) false

end Ucc.Cc1.ParseExpr
