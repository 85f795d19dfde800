/-
  Cpp/ExprGrammar.lean --- the grammar of controlling expressions, and when the
  parser follows it.

  Source: src/cpp2/expr.c, and the conditional-expression grammar of the C
  standard over the operators it supports.

  `Derivation` is a parse tree of that grammar, with its parentheses.  The
  parser hands a tighter operator the right operand it has read so far at *that
  operator's* precedence, `parse_rhs(rhs, next_pri)`.  An operator between the
  two precedences therefore ends the right operand too early and takes the outer
  node as its left operand: `1 || 2 == 3 && 4` is read as
  `(1 || 2 == 3) && 4`.  `Cst.LoosestFirst` says when that does not happen, and the
  main theorem that the parser returns the tree of the grammar exactly then.
-/
import Ucc.Cpp.Expr

set_option autoImplicit false

namespace Ucc.Cpp

open Ucc.Lib

/-! ## Parse trees -/

/-- A parse tree.  Unit productions are not recorded. -/
inductive Cst where
  | ident
  | num (v : Int)
  | paren (c : Cst)
  | unary (o : EOp) (c : Cst)
  | bin (o : EOp) (l r : Cst)
  | cond (c t f : Cst)
  deriving DecidableEq, Repr, Inhabited

/-- The level of the grammar a tree belongs to: 0 for a unary expression, the
precedence of the operator for a binary one. -/
def Cst.level : Cst → Nat
  | .bin o _ _ => o.precedence
  | .cond _ _ _ => EOp.question.precedence
  | _ => 0

/-- The trees the grammar generates: binary operators associate to the left, and
the conditional operator to the right. -/
def Cst.WellFormed : Cst → Prop
  | .ident => True
  | .num _ => True
  | .paren c => c.WellFormed
  | .unary o c => o.isUnary = true ∧ c.level = 0 ∧ c.WellFormed
  | .bin o l r =>
      o.precedence < EOp.question.precedence ∧ l.level ≤ o.precedence ∧
        r.level < o.precedence ∧ l.WellFormed ∧ r.WellFormed
  | .cond c t f =>
      c.level < EOp.question.precedence ∧ c.WellFormed ∧ t.WellFormed ∧ f.WellFormed

/-- A derivation of the conditional-expression grammar. -/
abbrev Derivation := { c : Cst // c.WellFormed }

/-- The tokens of a tree. -/
def Cst.toks : Cst → List ETok
  | .ident => [.ident]
  | .num v => [.num v]
  | .paren c => .lparen :: (c.toks ++ [.rparen])
  | .unary o c => .op o :: c.toks
  | .bin o l r => l.toks ++ .op o :: r.toks
  | .cond c t f => c.toks ++ .op .question :: (t.toks ++ .colon :: f.toks)

/-- The expression a tree stands for. -/
def Cst.expr : Cst → Expr
  | .ident => .ident
  | .num v => .num v
  | .paren c => c.expr
  | .unary o c => .uop o c.expr
  | .bin o l r => .op o l.expr r.expr
  | .cond c t f => .top c.expr t.expr f.expr

/-- The leftmost operand of a tree. -/
def Cst.first : Cst → Cst
  | .bin _ l _ => l.first
  | c => c

/-- The binary operators after the leftmost operand, outside parentheses, each
with the operand that follows it. -/
def Cst.chain : Cst → List (EOp × Cst)
  | .bin o l r => l.chain ++ (o, r.first) :: r.chain
  | _ => []

/-- The precedence of the first operator of a chain; 0 when there is none. -/
def Cst.firstPri (c : Cst) : Nat :=
  match c.chain with
  | [] => 0
  | x :: _ => x.1.precedence

/-- The right operand of every binary operator begins with one of its loosest
operators. -/
def Cst.LoosestFirst : Cst → Prop
  | .ident => True
  | .num _ => True
  | .paren c => c.LoosestFirst
  | .unary _ c => c.LoosestFirst
  | .bin _ l r => l.LoosestFirst ∧ r.LoosestFirst ∧ r.firstPri = r.level
  | .cond c t f => c.LoosestFirst ∧ t.LoosestFirst ∧ f.LoosestFirst

/-! ## The left spine of an expression

The parser only ever puts further nodes on top of its left side, so what it
returns is the left side it was given with a list of such nodes on it. -/

/-- A node without its leftmost operand. -/
inductive Item where
  | bin (o : EOp) (rhs : Expr)
  | top (ifTrue ifFalse : Expr)

/-- Put a node on top of an expression. -/
def Item.app (e : Expr) : Item → Expr
  | .bin o rhs => .op o e rhs
  | .top t f => .top e t f

/-- Put nodes on top of an expression, the first one innermost. -/
def grow (e : Expr) (items : List Item) : Expr := items.foldl Item.app e

/-- The number of nodes. -/
def Expr.size : Expr → Nat
  | .ident => 1
  | .num _ => 1
  | .op _ l r => 1 + l.size + r.size
  | .uop _ e => 1 + e.size
  | .top e t f => 1 + e.size + t.size + f.size

theorem size_lt_app (e : Expr) (i : Item) : e.size < (i.app e).size := by
  cases i <;> simp only [Item.app, Expr.size] <;> omega

theorem size_le_grow (e : Expr) (items : List Item) :
    e.size + items.length ≤ (grow e items).size := by
  induction items generalizing e with
  | nil => exact le_rfl
  | cons i items ih =>
    have hstep := size_lt_app e i
    have hrest := ih (i.app e)
    simp only [grow, List.foldl_cons, List.length_cons] at hrest ⊢
    omega

/-- Over expressions of one size, the spine determines its base and its nodes. -/
theorem grow_inj {a b : Expr} (hsize : a.size = b.size) (xs ys : List Item)
    (h : grow a xs = grow b ys) : a = b ∧ xs = ys := by
  induction xs using List.reverseRecOn generalizing ys with
  | nil =>
    have hlen := size_le_grow b ys
    rw [← h] at hlen
    have hys : ys = [] :=
      List.length_eq_zero_iff.mp (by simp only [grow, List.foldl_nil] at hlen; omega)
    subst hys
    exact ⟨h, rfl⟩
  | append_singleton xs x ih =>
    rcases List.eq_nil_or_concat ys with rfl | ⟨ys, y, rfl⟩
    · have hlen := size_le_grow a (xs ++ [x])
      rw [h] at hlen
      simp only [grow, List.foldl_nil, List.length_append, List.length_singleton] at hlen
      omega
    · have happ : x.app (grow a xs) = y.app (grow b ys) := by
        simpa [grow] using h
      have hxy : x = y ∧ grow a xs = grow b ys := by
        cases x <;> cases y <;> simp_all [Item.app]
      obtain ⟨rfl, hgrow⟩ := hxy
      obtain ⟨rfl, rfl⟩ := ih ys hgrow
      exact ⟨rfl, by simp⟩

/-- `parse_rhs` puts nodes on top of its left side. -/
theorem parseRhs_grow {lhs e : Expr} {p : Nat} {ts ts' : List ETok}
    (h : Ret (fun n => parseRhs n lhs p ts) (e, ts')) : ∃ items, e = grow lhs items := by
  obtain ⟨n, hn⟩ := h
  induction n generalizing lhs ts with
  | zero => exact absurd hn (Partial.deep_ne_pure _)
  | succ n ih =>
    dsimp only at hn
    unfold parseRhs at hn
    split at hn
    · rename_i o ts₀
      split at hn
      · cases Partial.pure_inj.mp hn
        exact ⟨[], rfl⟩
      · split at hn
        · obtain ⟨r₁, -, hn⟩ := Partial.bind_eq_pure.mp hn
          obtain ⟨ts₁, -, hn⟩ := Partial.bind_eq_pure.mp hn
          obtain ⟨r₂, -, hn⟩ := Partial.bind_eq_pure.mp hn
          obtain ⟨items, rfl⟩ := ih hn
          exact ⟨.top r₁.1 r₂.1 :: items, rfl⟩
        · obtain ⟨r₁, -, hn⟩ := Partial.bind_eq_pure.mp hn
          obtain ⟨r₂, -, hn⟩ := Partial.bind_eq_pure.mp hn
          obtain ⟨items, rfl⟩ := ih hn
          exact ⟨.bin o r₂.1 :: items, rfl⟩
    · cases Partial.pure_inj.mp hn
      exact ⟨[], rfl⟩

/-! ## Chains of operands -/

/-- The tokens of a chain. -/
def chainToks : List (EOp × Cst) → List ETok
  | [] => []
  | (o, c) :: ch => .op o :: (c.toks ++ chainToks ch)

theorem chainToks_append (a b : List (EOp × Cst)) :
    chainToks (a ++ b) = chainToks a ++ chainToks b := by
  induction a with
  | nil => rfl
  | cons x a ih => simp [chainToks, ih]

theorem Cst.toks_eq (c : Cst) : c.toks = c.first.toks ++ chainToks c.chain := by
  induction c with
  | bin o l r ihl ihr =>
    simp only [Cst.toks, Cst.first, Cst.chain, chainToks_append, chainToks]
    rw [ihl, ihr]
    simp [← ihr]
  | _ => simp [Cst.first, Cst.chain, chainToks]

theorem EOp.precedence_pos (o : EOp) : 0 < o.precedence := by
  cases o <;> decide

theorem Cst.level_zero {c : Cst} (hc : c.level = 0) : c.first = c ∧ c.chain = [] := by
  cases c with
  | bin o l r => exact absurd hc (EOp.precedence_pos o).ne'
  | _ => exact ⟨rfl, rfl⟩

/-- The number of nodes that a chain adds. -/
def chainSize : List (EOp × Cst) → Nat
  | [] => 0
  | (_, c) :: ch => 1 + c.expr.size + chainSize ch

theorem chainSize_append (a b : List (EOp × Cst)) :
    chainSize (a ++ b) = chainSize a + chainSize b := by
  induction a with
  | nil => simp [chainSize]
  | cons x a ih => simp only [List.cons_append, chainSize, ih]; omega

theorem Cst.size_eq (c : Cst) : c.expr.size = c.first.expr.size + chainSize c.chain := by
  induction c with
  | bin o l r ihl ihr =>
    simp only [Cst.expr, Expr.size, Cst.first, Cst.chain, chainSize_append, chainSize]
    omega
  | _ => simp [Cst.first, Cst.chain, chainSize]

/-- Tokens that may follow an operand: no number, which would overwrite
`tok_cur_num`. -/
def Follows (ts : List ETok) : Prop := ∀ v, tokCurNum v ts = v

/-- Tokens that end an expression. -/
def Closed (ts : List ETok) : Prop :=
  ∀ t ts', ts = t :: ts' → t = .rparen ∨ t = .colon

theorem Closed.follows {ts : List ETok} (h : Closed ts) : Follows ts := by
  intro v
  cases ts with
  | nil => rfl
  | cons t ts' => rcases h t ts' rfl with rfl | rfl <;> rfl

theorem Closed.precedence {ts : List ETok} (h : Closed ts) : precedence ts = maxPri := by
  cases ts with
  | nil => rfl
  | cons t ts' => rcases h t ts' rfl with rfl | rfl <;> rfl

theorem Closed.stop {ts : List ETok} (h : Closed ts) {lhs : Expr} {p : Nat}
    {r : Expr × List ETok} : Ret (fun n => parseRhs n lhs p ts) r ↔ r = (lhs, ts) := by
  refine ret_rhs_stop fun o ts' hts => ?_
  rcases h _ ts' hts with h' | h' <;> cases h'

theorem closed_nil : Closed [] := fun _ _ h => nomatch h

theorem closed_rparen (ts : List ETok) : Closed (.rparen :: ts) := by
  intro t ts' h
  exact .inl (List.cons.inj h).1.symm

theorem closed_colon (ts : List ETok) : Closed (.colon :: ts) := by
  intro t ts' h
  exact .inr (List.cons.inj h).1.symm

theorem follows_op (o : EOp) (ts : List ETok) : Follows (.op o :: ts) := fun _ => rfl

theorem follows_chain (ch : List (EOp × Cst)) {ts : List ETok} (hts : Follows ts) :
    Follows (chainToks ch ++ ts) := by
  cases ch with
  | nil => exact hts
  | cons x ch => exact follows_op x.1 _

/-- No operator within the priority `p` comes next. -/
theorem ret_rhs_loose {lhs : Expr} {p : Nat} {ts : List ETok} {r : Expr × List ETok}
    (hp : p < precedence ts) : Ret (fun n => parseRhs n lhs p ts) r ↔ r = (lhs, ts) := by
  refine ret_rhs_stop fun o ts' hts => ?_
  rw [hts] at hp
  exact hp

/-! ## The parser reads every derivation to its end

Whatever tree it builds, it has the nodes of the grammar's tree. -/

/-- `parse_primary` reads exactly `c`. -/
def Reads (c : Cst) : Prop :=
  ∀ ts, Follows ts → ∃ e, Ret (fun n => parsePrimary n (c.toks ++ ts)) (e, ts) ∧
    e.size = c.expr.size

/-- A chain of binary operators whose operands are read. -/
def ChainReads (ch : List (EOp × Cst)) : Prop :=
  ∀ x ∈ ch, x.1.precedence < EOp.question.precedence ∧ Reads x.2

theorem precedence_ne_question {o : EOp} (h : o.precedence < EOp.question.precedence) :
    o ≠ .question := by
  rintro rfl
  exact lt_irrefl _ h

theorem ChainReads.tail {x : EOp × Cst} {ch : List (EOp × Cst)} (h : ChainReads (x :: ch)) :
    ChainReads ch :=
  fun y hy => h y (List.mem_cons_of_mem _ hy)

/-- A chain with at least as loose an operator behind it: the loop of
`parse_rhs` comes to the end of the chain or to an operator beyond its priority.
The induction is on the length, since the right operands are chains too. -/
theorem chain_reduces (n : Nat) (ch : List (EOp × Cst)) (hn : ch.length ≤ n)
    (hch : ChainReads ch) (lhs : Expr) (p : Nat) {ts : List ETok} (hts : Follows ts)
    (hpri : EOp.question.precedence ≤ precedence ts) :
    ∃ lhs' ch', ch'.length ≤ ch.length ∧ ChainReads ch' ∧
      (∀ x ∈ ch'.head?, p < x.1.precedence) ∧
      lhs'.size + chainSize ch' = lhs.size + chainSize ch ∧
      ∀ r, Ret (fun n => parseRhs n lhs' p (chainToks ch' ++ ts)) r →
        Ret (fun n => parseRhs n lhs p (chainToks ch ++ ts)) r := by
  induction n generalizing ch lhs p with
  | zero =>
    have hnil : ch = [] := List.length_eq_zero_iff.mp (by omega)
    subst hnil
    exact ⟨lhs, [], le_rfl, hch, by simp, rfl, fun r h => h⟩
  | succ n ih =>
    cases ch with
    | nil => exact ⟨lhs, [], le_rfl, hch, by simp, rfl, fun r h => h⟩
    | cons x ch =>
      obtain ⟨o, c⟩ := x
      obtain ⟨ho, hc⟩ : o.precedence < EOp.question.precedence ∧ Reads c :=
        hch (o, c) (by simp)
      simp only [List.length_cons] at hn
      by_cases hp : p < o.precedence
      · exact ⟨lhs, (o, c) :: ch, le_rfl, hch, by simpa using hp, rfl, fun r h => h⟩
      · obtain ⟨rhs, hprim, hsize⟩ := hc (chainToks ch ++ ts) (follows_chain ch hts)
        -- the right operand, a chain of its own when the next operator is tighter
        obtain ⟨rhs', ch₁, hlen₁, hch₁, hsize₁, hop⟩ : ∃ rhs' ch₁,
            ch₁.length ≤ ch.length ∧ ChainReads ch₁ ∧
              rhs'.size + chainSize ch₁ = rhs.size + chainSize ch ∧
              Ret (fun n => parseOperand n o rhs (chainToks ch ++ ts))
                (rhs', chainToks ch₁ ++ ts) := by
          unfold parseOperand
          split
          · rename_i htight
            obtain ⟨rhs', ch₁, hlen₁, hch₁, hhead, hsize₁, hred⟩ :=
              ih ch (by omega) hch.tail rhs (precedence (chainToks ch ++ ts))
            refine ⟨rhs', ch₁, hlen₁, hch₁, hsize₁, hred _ ?_⟩
            refine (ret_rhs_loose ?_).mpr rfl
            cases ch₁ with
            | nil => exact lt_of_lt_of_le (htight.trans ho) hpri
            | cons y ch₁ => exact hhead y rfl
          · exact ⟨rhs, ch, le_rfl, hch.tail, rfl, ret_const.mpr rfl⟩
        obtain ⟨lhs', ch', hlen', hch', hhead', hsize', hred'⟩ :=
          ih ch₁ (by omega) hch₁ (.op o lhs rhs') p
        refine ⟨lhs', ch', ?_, hch', hhead', ?_, fun r hr => ?_⟩
        · simp only [List.length_cons]
          omega
        · simp only [chainSize, Expr.size] at hsize' ⊢
          omega
        · have hloop := hred' r hr
          rw [chainToks, List.cons_append, List.append_assoc]
          exact (ret_rhs_op (precedence_ne_question ho) (not_lt.mp hp)).mpr
            ⟨rhs, _, rhs', _, hprim, hop, hloop⟩

/-- `parse` comes to the end of a chain that it reads. -/
theorem parse_reduces {c : Cst} (hfirst : Reads c.first) (hch : ChainReads c.chain)
    {ts : List ETok} (hts : Follows ts) (hpri : EOp.question.precedence ≤ precedence ts) :
    ∃ e, e.size = c.expr.size ∧ ∀ r, Ret (fun n => parseRhs n e maxPri ts) r →
      Ret (fun n => parse n (c.toks ++ ts)) r := by
  obtain ⟨e₀, hprim, hsize₀⟩ := hfirst (chainToks c.chain ++ ts) (follows_chain _ hts)
  obtain ⟨e, ch', -, hch', hhead, hsize, hred⟩ :=
    chain_reduces c.chain.length c.chain le_rfl hch e₀ maxPri hts hpri
  have hnil : ch' = [] := by
    cases ch' with
    | nil => rfl
    | cons x ch' =>
      have hloose : maxPri < x.1.precedence := hhead x rfl
      have htight := (hch' x (by simp)).1
      exact absurd (hloose.trans htight) (by decide)
  subst hnil
  refine ⟨e, ?_, fun r hr => ?_⟩
  · have hall := c.size_eq
    simp only [chainSize] at hsize
    omega
  · rw [Cst.toks_eq, List.append_assoc]
    exact ret_parse.mpr ⟨e₀, _, hprim, hred r hr⟩

/-- Every derivation is read to its end. -/
theorem Cst.reads (c : Cst) (hc : c.WellFormed) :
    (c.level < EOp.question.precedence → Reads c.first ∧ ChainReads c.chain) ∧
    ∀ ts, Closed ts → ∃ e, Ret (fun n => parse n (c.toks ++ ts)) (e, ts) ∧
      e.size = c.expr.size := by
  -- below the conditional operator, the second part follows from the first
  have hfull : ∀ c : Cst, Reads c.first ∧ ChainReads c.chain → ∀ ts, Closed ts →
      ∃ e, Ret (fun n => parse n (c.toks ++ ts)) (e, ts) ∧ e.size = c.expr.size := by
    intro c ⟨hfirst, hch⟩ ts hts
    obtain ⟨e, hsize, hred⟩ := parse_reduces hfirst hch hts.follows
      (by rw [hts.precedence]; decide)
    exact ⟨e, hred _ (hts.stop.mpr rfl), hsize⟩
  have hprimary : ∀ c : Cst, c.first = c → c.chain = [] → Reads c →
      Reads c.first ∧ ChainReads c.chain := by
    intro c hfirst hch hreads
    rw [hfirst, hch]
    exact ⟨hreads, fun x hx => nomatch hx⟩
  induction c with
  | ident =>
    have hreads := hprimary .ident rfl rfl fun ts _ => ⟨_, ret_primary_ident.mpr rfl, rfl⟩
    exact ⟨fun _ => hreads, hfull _ hreads⟩
  | num v =>
    have hreads := hprimary (.num v) rfl rfl fun ts _ =>
      ⟨_, ret_primary_num.mpr rfl, rfl⟩
    exact ⟨fun _ => hreads, hfull _ hreads⟩
  | paren c ih =>
    have hreads := hprimary (.paren c) rfl rfl fun ts hts => by
      obtain ⟨e, hparse, hsize⟩ := (ih hc).2 (.rparen :: ts) (closed_rparen ts)
      refine ⟨e, ?_, hsize⟩
      have heq : (Cst.paren c).toks ++ ts = .lparen :: (c.toks ++ .rparen :: ts) := by
        simp [Cst.toks]
      rw [heq]
      exact ret_primary_paren.mpr hparse
    exact ⟨fun _ => hreads, hfull _ hreads⟩
  | unary o c ih =>
    obtain ⟨ho, hlevel, hwf⟩ := hc
    have hreads := hprimary (.unary o c) rfl rfl fun ts hts => by
      have hfirst := ((ih hwf).1 (by rw [hlevel]; decide)).1
      rw [(Cst.level_zero hlevel).1] at hfirst
      obtain ⟨e, hprim, hsize⟩ := hfirst ts hts
      refine ⟨.uop o e, (ret_primary_unary ho).mpr ⟨e, hprim, rfl⟩, ?_⟩
      simp [Expr.size, Cst.expr, hsize]
    exact ⟨fun _ => hreads, hfull _ hreads⟩
  | bin o l r ihl ihr =>
    obtain ⟨ho, hl, hr, hwl, hwr⟩ := hc
    obtain ⟨hfl, hcl⟩ := (ihl hwl).1 (by omega)
    obtain ⟨hfr, hcr⟩ := (ihr hwr).1 (by omega)
    have hreads : Reads (Cst.bin o l r).first ∧ ChainReads (Cst.bin o l r).chain := by
      refine ⟨hfl, fun x hx => ?_⟩
      simp only [Cst.chain, List.mem_append, List.mem_cons] at hx
      rcases hx with hx | rfl | hx
      · exact hcl x hx
      · exact ⟨ho, hfr⟩
      · exact hcr x hx
    exact ⟨fun _ => hreads, hfull _ hreads⟩
  | cond c t f ihc iht ihf =>
    obtain ⟨hlevel, hwc, hwt, hwf⟩ := hc
    refine ⟨fun h => absurd h (lt_irrefl _), fun ts hts => ?_⟩
    obtain ⟨hfirst, hch⟩ := (ihc hwc).1 hlevel
    obtain ⟨e, hsize, hred⟩ := parse_reduces hfirst hch
      (follows_op .question (t.toks ++ .colon :: (f.toks ++ ts))) le_rfl
    obtain ⟨et, hthen, hsizet⟩ := (iht hwt).2 _ (closed_colon (f.toks ++ ts))
    obtain ⟨ef, helse, hsizef⟩ := (ihf hwf).2 ts hts
    refine ⟨.top e et ef, ?_, by simp [Expr.size, Cst.expr, hsize, hsizet, hsizef]⟩
    have heq : (Cst.cond c t f).toks ++ ts =
        c.toks ++ .op .question :: (t.toks ++ .colon :: (f.toks ++ ts)) := by
      simp [Cst.toks]
    rw [heq]
    exact hred _ ((ret_rhs_question (by decide)).mpr
      ⟨et, _, ef, ts, hthen, helse, hts.stop.mpr rfl⟩)

/-! ## The operator after the first operand -/

theorem Cst.chain_le_level {c : Cst} (hc : c.WellFormed) :
    ∀ x ∈ c.chain, x.1.precedence ≤ c.level := by
  induction c with
  | bin o l r ihl ihr =>
    obtain ⟨-, hl, hr, hwl, hwr⟩ := hc
    intro x hx
    simp only [Cst.chain, List.mem_append, List.mem_cons] at hx
    rcases hx with hx | rfl | hx
    · exact (ihl hwl x hx).trans hl
    · exact le_rfl
    · exact (ihr hwr x hx).trans hr.le
  | _ => exact fun x hx => nomatch hx

theorem Cst.firstPri_le_level {c : Cst} (hc : c.WellFormed) : c.firstPri ≤ c.level := by
  unfold Cst.firstPri
  split
  · exact Nat.zero_le _
  · rename_i x ch hch
    exact Cst.chain_le_level hc x (by simp [hch])

/-- The precedence that the parser sees after the first operand of a binary
expression. -/
theorem precedence_bin (o : EOp) (l r : Cst) (ts : List ETok) :
    precedence (chainToks (Cst.bin o l r).chain ++ ts) = (Cst.bin o l r).firstPri := by
  unfold Cst.firstPri
  split
  · rename_i hnil
    simp [Cst.chain] at hnil
  · rename_i x ch hch
    rw [hch]
    rfl

/-! ## Loosest first: the parser follows the grammar -/

/-- A binary expression below the conditional operator. -/
theorem Cst.level_cases {c : Cst} (hc : c.level < EOp.question.precedence) :
    c.level = 0 ∨ ∃ o l r, c = .bin o l r := by
  cases c with
  | bin o l r => exact .inr ⟨o, l, r, rfl⟩
  | cond c t f => exact absurd hc (lt_irrefl _)
  | _ => exact .inl rfl

/-- The parser takes `c` as an operand to the grammar's tree. -/
def Cst.IsOperand (c : Cst) : Prop :=
  ∀ ts, Follows ts → Ret (fun n => parsePrimary n (c.toks ++ ts)) (c.expr, ts)

/-- The parser takes `c` to the grammar's tree, from its first operand on. -/
def Cst.IsChain (c : Cst) : Prop :=
  ∀ ts, Follows ts → c.level ≤ precedence ts →
    Ret (fun n => parsePrimary n (c.toks ++ ts)) (c.first.expr, chainToks c.chain ++ ts) ∧
      ∀ p, c.level ≤ p → ∀ r, Ret (fun n => parseRhs n c.expr p ts) r →
        Ret (fun n => parseRhs n c.first.expr p (chainToks c.chain ++ ts)) r

/-- The parser takes `c` as a whole expression to the grammar's tree. -/
def Cst.IsParsed (c : Cst) : Prop :=
  ∀ ts, Closed ts → Ret (fun n => parse n (c.toks ++ ts)) (c.expr, ts)

theorem Cst.IsOperand.isChain {c : Cst} (h : c.IsOperand) (hlevel : c.level = 0) :
    c.IsChain := by
  intro ts hts _
  obtain ⟨hfirst, hch⟩ := Cst.level_zero hlevel
  rw [hfirst, hch]
  exact ⟨h ts hts, fun _ _ _ hr => hr⟩

theorem Cst.IsChain.isParsed {c : Cst} (h : c.IsChain)
    (hlevel : c.level < EOp.question.precedence) : c.IsParsed := by
  intro ts hts
  have hmax : c.level ≤ maxPri := hlevel.le.trans (by decide)
  obtain ⟨hprim, hred⟩ := h ts hts.follows (by rw [hts.precedence]; exact hmax)
  exact ret_parse.mpr ⟨_, _, hprim, hred maxPri hmax _ (hts.stop.mpr rfl)⟩

theorem Cst.toks_paren (c : Cst) (ts : List ETok) :
    (Cst.paren c).toks ++ ts = .lparen :: (c.toks ++ .rparen :: ts) := by
  simp [Cst.toks]

theorem Cst.toks_bin (o : EOp) (l r : Cst) (ts : List ETok) :
    (Cst.bin o l r).toks ++ ts = l.toks ++ .op o :: (r.toks ++ ts) := by
  simp [Cst.toks]

theorem Cst.toks_cond (c t f : Cst) (ts : List ETok) :
    (Cst.cond c t f).toks ++ ts =
      c.toks ++ .op .question :: (t.toks ++ .colon :: (f.toks ++ ts)) := by
  simp [Cst.toks]

theorem chainToks_bin (o : EOp) (l r : Cst) (ts : List ETok) :
    chainToks (Cst.bin o l r).chain ++ ts =
      chainToks l.chain ++ .op o :: (r.toks ++ ts) := by
  rw [Cst.chain, chainToks_append, chainToks, r.toks_eq]
  simp

/-- The right operand of `o`, from its first operand on. -/
theorem Cst.IsChain.operand {r : Cst} (h : r.IsChain)
    (hloose : r.firstPri = r.level) {o : EOp} (ho : o.precedence < EOp.question.precedence)
    (hlevel : r.level < o.precedence) {ts : List ETok} (hts : Follows ts)
    (hpri : o.precedence ≤ precedence ts) :
    Ret (fun n => parseOperand n o r.first.expr (chainToks r.chain ++ ts)) (r.expr, ts) := by
  obtain ⟨-, hred⟩ := h ts hts (hlevel.le.trans hpri)
  rcases Cst.level_cases (hlevel.trans ho) with hzero | ⟨o', l', r', rfl⟩
  · obtain ⟨hfirst, hch⟩ := Cst.level_zero hzero
    rw [hfirst, hch]
    exact (ret_operand_loose hpri).mpr rfl
  · have hnext : precedence (chainToks (Cst.bin o' l' r').chain ++ ts) =
        (Cst.bin o' l' r').level := by rw [precedence_bin, hloose]
    rw [ret_operand_tight (by rw [hnext]; exact hlevel), hnext]
    exact hred _ le_rfl _ ((ret_rhs_loose (hlevel.trans_le hpri)).mpr rfl)

theorem Cst.LoosestFirst.parsed {c : Cst} (hl : c.LoosestFirst) (hc : c.WellFormed) :
    (c.level = 0 → c.IsOperand) ∧ (c.level < EOp.question.precedence → c.IsChain) ∧
      c.IsParsed := by
  have hoperand : ∀ c : Cst, c.level = 0 → c.IsOperand →
      (c.level = 0 → c.IsOperand) ∧ (c.level < EOp.question.precedence → c.IsChain) ∧
        c.IsParsed := by
    intro c hzero hop
    have hch := hop.isChain hzero
    exact ⟨fun _ => hop, fun _ => hch, hch.isParsed (by rw [hzero]; decide)⟩
  induction c with
  | ident => exact hoperand _ rfl fun ts _ => ret_primary_ident.mpr rfl
  | num v =>
    refine hoperand _ rfl fun ts hts => ret_primary_num.mpr ?_
    simp [Cst.expr, hts v]
  | paren c ih =>
    refine hoperand _ rfl fun ts _ => ?_
    rw [Cst.toks_paren]
    exact ret_primary_paren.mpr ((ih hl hc).2.2 _ (closed_rparen ts))
  | unary o c ih =>
    obtain ⟨ho, hlevel, hwf⟩ := hc
    refine hoperand _ rfl fun ts hts => ?_
    exact (ret_primary_unary ho).mpr ⟨_, (ih hl hwf).1 hlevel ts hts, rfl⟩
  | bin o l r ihl ihr =>
    obtain ⟨ho, hll, hrl, hwl, hwr⟩ := hc
    obtain ⟨hl, hr, hloose⟩ := hl
    have hchl := (ihl hl hwl).2.1 (hll.trans_lt ho)
    have hchr := (ihr hr hwr).2.1 (hrl.trans ho)
    have hchain : (Cst.bin o l r).IsChain := by
      intro ts hts hpri
      obtain ⟨hprim, hred⟩ := hchl (.op o :: (r.toks ++ ts)) (follows_op o _) hll
      rw [Cst.toks_bin, chainToks_bin]
      refine ⟨hprim, fun p hp res hres => hred p (hll.trans hp) res ?_⟩
      obtain ⟨hprimr, -⟩ := hchr ts hts (hrl.le.trans hpri)
      have hop := hchr.operand hloose ho hrl hts hpri
      exact (ret_rhs_op (precedence_ne_question ho) hp).mpr
        ⟨_, _, _, _, hprimr, hop, hres⟩
    exact ⟨fun h => absurd h (EOp.precedence_pos o).ne', fun _ => hchain, hchain.isParsed ho⟩
  | cond c t f ihc iht ihf =>
    obtain ⟨hlevel, hwc, hwt, hwf⟩ := hc
    obtain ⟨hc, ht, hf⟩ := hl
    refine ⟨fun h => absurd h (EOp.precedence_pos .question).ne',
      fun h => absurd h (lt_irrefl _), fun ts hts => ?_⟩
    rw [Cst.toks_cond]
    obtain ⟨hprim, hred⟩ := (ihc hc hwc).2.1 hlevel _ (follows_op .question _) hlevel.le
    refine ret_parse.mpr ⟨_, _, hprim, hred maxPri (hlevel.le.trans (by decide)) _ ?_⟩
    exact (ret_rhs_question (by decide)).mpr ⟨_, _, _, _, (iht ht hwt).2.2 _ (closed_colon _),
      (ihf hf hwf).2.2 ts hts, hts.stop.mpr rfl⟩

/-! ## Only loosest first

When the parser returns the tree of the grammar, the spine of the result says
where each of its loops ended. -/

theorem Reads.unique {c : Cst} (h : Reads c) {ts ts' : List ETok} (hts : Follows ts) {e : Expr}
    (hret : Ret (fun n => parsePrimary n (c.toks ++ ts)) (e, ts')) :
    ts' = ts ∧ e.size = c.expr.size := by
  obtain ⟨e₁, hret₁, hsize⟩ := h ts hts
  obtain ⟨rfl, rfl⟩ := Prod.mk.inj (hret.unique (parsePrimary_grows _) hret₁)
  exact ⟨rfl, hsize⟩

/-- `parse_primary` in front of a chain stops after its first operand. -/
theorem Cst.first_unique {c : Cst} (hc : c.WellFormed)
    (hlevel : c.level < EOp.question.precedence) {ts ts' : List ETok} (hts : Follows ts)
    {e : Expr} (hret : Ret (fun n => parsePrimary n (c.toks ++ ts)) (e, ts')) :
    ts' = chainToks c.chain ++ ts ∧ e.size = c.first.expr.size := by
  rw [c.toks_eq, List.append_assoc] at hret
  exact ((c.reads hc).1 hlevel).1.unique (follows_chain _ hts) hret

theorem Cst.parse_unique {c : Cst} (hc : c.WellFormed) {ts ts' : List ETok} (hts : Closed ts)
    {e : Expr} (hret : Ret (fun n => parse n (c.toks ++ ts)) (e, ts')) : ts' = ts := by
  obtain ⟨e₁, hret₁, -⟩ := (c.reads hc).2 ts hts
  exact (Prod.mk.inj (hret.unique (parse_grows _) hret₁)).2

/-- `c` as an operand comes out right only when it is loosest first. -/
def Cst.OperandOnly (c : Cst) : Prop :=
  ∀ ts, Follows ts → Ret (fun n => parsePrimary n (c.toks ++ ts)) (c.expr, ts) →
    c.LoosestFirst

/-- `c` as the beginning of the result comes out right only when it is loosest
first, and then the loop has gone past it. -/
def Cst.ChainOnly (c : Cst) : Prop :=
  ∀ ts, Follows ts → c.level ≤ precedence ts → ∀ e₀ p items ts',
    Ret (fun n => parsePrimary n (c.toks ++ ts)) (e₀, chainToks c.chain ++ ts) →
    Ret (fun n => parseRhs n e₀ p (chainToks c.chain ++ ts)) (grow c.expr items, ts') →
    c.LoosestFirst ∧ c.level ≤ p ∧
      Ret (fun n => parseRhs n c.expr p ts) (grow c.expr items, ts')

/-- `c` as a whole expression comes out right only when it is loosest first. -/
def Cst.ParsedOnly (c : Cst) : Prop :=
  ∀ ts, Closed ts → Ret (fun n => parse n (c.toks ++ ts)) (c.expr, ts) → c.LoosestFirst

theorem Cst.OperandOnly.chainOnly {c : Cst} (h : c.OperandOnly) (hc : c.WellFormed)
    (hlevel : c.level = 0) : c.ChainOnly := by
  intro ts hts _ e₀ p items ts' hprim hrhs
  have hsize := (Cst.first_unique hc (by rw [hlevel]; decide) hts hprim).2
  obtain ⟨hfirst, hch⟩ := Cst.level_zero hlevel
  rw [hfirst] at hsize
  rw [hch] at hprim hrhs
  obtain ⟨items₁, hgrow⟩ := parseRhs_grow hrhs
  obtain ⟨rfl, -⟩ := grow_inj hsize items₁ items hgrow.symm
  exact ⟨h ts hts hprim, by omega, hrhs⟩

theorem Cst.ChainOnly.parsedOnly {c : Cst} (h : c.ChainOnly) (hc : c.WellFormed)
    (hlevel : c.level < EOp.question.precedence) : c.ParsedOnly := by
  intro ts hts hret
  obtain ⟨e₀, ts₀, hprim, hrhs⟩ := ret_parse.mp hret
  obtain ⟨rfl, -⟩ := Cst.first_unique hc hlevel hts.follows hprim
  have hpri : c.level ≤ precedence ts := by
    rw [hts.precedence]
    exact hlevel.le.trans (by decide)
  exact (h ts hts.follows hpri e₀ maxPri [] ts hprim hrhs).1

/-- The right operand of `o` that comes out right. -/
theorem Cst.ChainOnly.operand {r : Cst} (h : r.ChainOnly) (hop : r.level = 0 → r.OperandOnly)
    (hr : r.WellFormed) {o : EOp} (ho : o.precedence < EOp.question.precedence)
    (hlevel : r.level < o.precedence) {ts ts' : List ETok} (hts : Follows ts)
    (hpri : o.precedence ≤ precedence ts) {e₀ : Expr}
    (hprim : Ret (fun n => parsePrimary n (r.toks ++ ts)) (e₀, chainToks r.chain ++ ts))
    (hret : Ret (fun n => parseOperand n o e₀ (chainToks r.chain ++ ts)) (r.expr, ts')) :
    r.LoosestFirst ∧ r.firstPri = r.level ∧ ts' = ts := by
  rcases Cst.level_cases (hlevel.trans ho) with hzero | ⟨o', l', r', rfl⟩
  · obtain ⟨-, hch⟩ := Cst.level_zero hzero
    rw [hch] at hprim hret
    obtain ⟨rfl, rfl⟩ := Prod.mk.inj ((ret_operand_loose hpri).mp hret)
    refine ⟨hop hzero _ hts hprim, ?_, rfl⟩
    rw [Cst.firstPri, hch, hzero]
  · have hfirst := Cst.firstPri_le_level hr
    rw [ret_operand_tight (by rw [precedence_bin]; omega), precedence_bin] at hret
    obtain ⟨hloose, hle, hrest⟩ :=
      h ts hts (hlevel.le.trans hpri) e₀ _ [] ts' hprim hret
    have hstop := (ret_rhs_loose (by omega)).mp hrest
    exact ⟨hloose, le_antisymm hfirst hle, (Prod.mk.inj hstop).2⟩

theorem Cst.loosestFirst_of_parsed {c : Cst} (hc : c.WellFormed) :
    (c.level = 0 → c.OperandOnly) ∧ (c.level < EOp.question.precedence → c.ChainOnly) ∧
      c.ParsedOnly := by
  have hoperand : ∀ c : Cst, c.WellFormed → c.level = 0 → c.OperandOnly →
      (c.level = 0 → c.OperandOnly) ∧ (c.level < EOp.question.precedence → c.ChainOnly) ∧
        c.ParsedOnly := by
    intro c hc hzero hop
    have hch := hop.chainOnly hc hzero
    exact ⟨fun _ => hop, fun _ => hch, hch.parsedOnly hc (by rw [hzero]; decide)⟩
  induction c with
  | ident => exact hoperand _ hc rfl fun _ _ _ => trivial
  | num v => exact hoperand _ hc rfl fun _ _ _ => trivial
  | paren c ih =>
    refine hoperand _ hc rfl fun ts _ hret => ?_
    rw [Cst.toks_paren] at hret
    exact (ih hc).2.2 _ (closed_rparen ts) (ret_primary_paren.mp hret)
  | unary o c ih =>
    refine hoperand _ hc rfl fun ts hts hret => ?_
    obtain ⟨ho, hlevel, hwf⟩ := hc
    obtain ⟨e₁, hret₁, heq⟩ := (ret_primary_unary ho).mp hret
    cases heq
    exact (ih hwf).1 hlevel ts hts hret₁
  | bin o l r ihl ihr =>
    have hwf := hc
    obtain ⟨ho, hll, hrl, hwl, hwr⟩ := hc
    have hchl := (ihl hwl).2.1 (hll.trans_lt ho)
    have hchr := (ihr hwr).2.1 (hrl.trans ho)
    have hchain : (Cst.bin o l r).ChainOnly := by
      intro ts hts hpri e₀ p items ts' hprim hrhs
      rw [Cst.toks_bin, chainToks_bin] at hprim
      rw [chainToks_bin] at hrhs
      -- the left operand, with the node of `o` on top of it
      obtain ⟨hlosl, -, hrest⟩ := hchl _ (follows_op o _) hll e₀ p
        (.bin o r.expr :: items) ts' hprim hrhs
      have hp : o.precedence ≤ p := by
        by_contra hlt
        have hstop := (Prod.mk.inj ((ret_rhs_loose (not_le.mp hlt)).mp hrest)).1
        have hsize := size_le_grow l.expr (.bin o r.expr :: items)
        rw [hstop, List.length_cons] at hsize
        omega
      obtain ⟨rhs, ts₁, rhs', ts₂, hprimr, hop, hloop⟩ :=
        (ret_rhs_op (precedence_ne_question ho) hp).mp hrest
      obtain ⟨rfl, -⟩ := Cst.first_unique hwr (hrl.trans ho) hts hprimr
      obtain ⟨items₁, hgrow⟩ := parseRhs_grow hloop
      obtain ⟨-, hitems⟩ :=
        grow_inj rfl (.bin o r.expr :: items) (.bin o rhs' :: items₁) hgrow
      cases hitems
      obtain ⟨hlosr, hfirst, rfl⟩ := hchr.operand (ihr hwr).1 hwr ho hrl hts hpri hprimr hop
      exact ⟨⟨hlosl, hlosr, hfirst⟩, hp, hloop⟩
    exact ⟨fun h => absurd h (EOp.precedence_pos o).ne', fun _ => hchain,
      hchain.parsedOnly hwf ho⟩
  | cond c t f ihc iht ihf =>
    obtain ⟨hlevel, hwc, hwt, hwf⟩ := hc
    refine ⟨fun h => absurd h (EOp.precedence_pos .question).ne',
      fun h => absurd h (lt_irrefl _), fun ts hts hret => ?_⟩
    rw [Cst.toks_cond] at hret
    obtain ⟨e₀, ts₀, hprim, hrhs⟩ := ret_parse.mp hret
    obtain ⟨rfl, -⟩ := Cst.first_unique hwc hlevel (follows_op .question _) hprim
    obtain ⟨hlosc, -, hrest⟩ := (ihc hwc).2.1 hlevel _ (follows_op .question _) hlevel.le e₀
      maxPri [.top t.expr f.expr] ts hprim hrhs
    obtain ⟨ifT, ts₁, rhs, ts₂, hthen, helse, hloop⟩ :=
      (ret_rhs_question (by decide)).mp hrest
    have hts₁ := Cst.parse_unique hwt (closed_colon _) hthen
    cases hts₁
    have hts₂ := Cst.parse_unique hwf hts helse
    rw [hts₂] at helse hloop
    have htop := (Prod.mk.inj (hts.stop.mp hloop)).1
    cases htop
    exact ⟨hlosc, (iht hwt).2.2 _ (closed_colon _) hthen, (ihf hwf).2.2 _ hts helse⟩

/-! ## Precedence and associativity -/

/-- `expr_parse` builds the tree that the grammar gives to a sequence of tokens
exactly when the right operand of each of its binary operators begins with one
of that operand's loosest operators. -/
theorem exprParse_eq_iff (d : Derivation) :
    exprParse d.1.toks = pure d.1.expr ↔ d.1.LoosestFirst := by
  rw [exprParse_eq_pure]
  have hparsed := Cst.loosestFirst_of_parsed d.2
  constructor
  · intro hret
    refine hparsed.2.2 [] closed_nil ?_
    rwa [List.append_nil]
  · intro hl
    have hret := (hl.parsed d.2).2.2 [] closed_nil
    rwa [List.append_nil] at hret

/-- `1 || 2 == 3 && 4`. -/
def risingOperators : Derivation :=
  ⟨.bin .orsc (.num 1) (.bin .andsc (.bin .eq (.num 2) (.num 3)) (.num 4)), by
    simp [Cst.WellFormed, Cst.level, EOp.precedence]⟩

theorem exprParse_not_grammar :
    ¬ ∀ d : Derivation, exprParse d.1.toks = pure d.1.expr := by
  intro h
  have hwrong : exprParse risingOperators.1.toks =
      pure (.op .andsc (.op .orsc (.num 1) (.op .eq (.num 2) (.num 3))) (.num 4)) := rfl
  have heq := (h risingOperators).symm.trans hwrong
  cases heq

end Ucc.Cpp
