/-
  Cc1/ParseStmtTargets.lean --- what the jumps of a parsed statement are for.

  Source: src/cc1/parse_stmt.c, where struct stmt_ctx carries the targets down.

  Whatever the tokens are, and however many errors the parser goes on from: a `break` is
  for the nearest loop or switch around it, a `continue` for the nearest loop, a label of a
  switch for the nearest switch, and no two of these statements have one number.
-/
import Ucc.Cc1.ParseStmtBlocks

set_option autoImplicit false

namespace Ucc.Cc1.ParseStmt

open Ucc.Lib Ucc.Cc1.ParseExpr

variable {Scope D : Type}

/-! ## The nearest statements -/

/-- The nearest statements around another. -/
structure Around where
  continueTarget : Option Nat
  breakTarget : Option Nat
  switchTarget : Option Nat

/-- In the body of a loop. -/
def Around.inLoop (a : Around) (id : Nat) : Around :=
  { a with breakTarget := some id, continueTarget := some id }

/-- In the body of a switch. -/
def Around.inSwitch (a : Around) (id : Nat) : Around :=
  { a with breakTarget := some id, switchTarget := some id }

def StmtCtx.around (ctx : StmtCtx Scope) : Around :=
  ⟨ctx.continueTarget, ctx.breakTarget, ctx.switchTarget⟩

mutual
/-- The jumps and the labels of a statement are for the nearest statements. -/
def Stmt.Bound : Stmt D → Around → Prop
  | .break_ target, a => target = a.breakTarget
  | .continue_ target, a => target = a.continueTarget
  | .if_ _ lhs, a | .label _ lhs, a => lhs.Bound a
  | .ifElse _ lhs rhs, a => lhs.Bound a ∧ rhs.Bound a
  | .switch_ id _ lhs, a => lhs.Bound (a.inSwitch id)
  | .while_ id _ lhs, a | .do_ id lhs _, a | .for_ id _ _ _ lhs, a => lhs.Bound (a.inLoop id)
  | .case_ target _ lhs, a | .caseRange target _ _ lhs, a | .default_ target lhs, a =>
      target = a.switchTarget ∧ lhs.Bound a
  | .code _ stmts, a => stmts.Bound a
  | .noop, _ | .return_ _, _ | .goto_ _, _ | .gotoComputed _, _ | .expr _, _ => True
def Stmts.Bound : Stmts D → Around → Prop
  | .nil, _ => True
  | .cons s rest, a => s.Bound a ∧ rest.Bound a
end

mutual
/-- The numbers of the statements that can be left, from left to right. -/
def Stmt.ids : Stmt D → List Nat
  | .if_ _ lhs | .label _ lhs | .case_ _ _ lhs | .caseRange _ _ _ lhs | .default_ _ lhs => lhs.ids
  | .ifElse _ lhs rhs => lhs.ids ++ rhs.ids
  | .switch_ id _ lhs | .while_ id _ lhs | .do_ id lhs _ | .for_ id _ _ _ lhs => id :: lhs.ids
  | .code _ stmts => stmts.ids
  | .noop | .break_ _ | .continue_ _ | .return_ _ | .goto_ _ | .gotoComputed _ | .expr _ => []
def Stmts.ids : Stmts D → List Nat
  | .nil => []
  | .cons s rest => s.ids ++ rest.ids
end

/-! ## Numbers in order -/

/-- The numbers from `next` up to `next₁`. -/
structure Numbered (next : Nat) (ids : List Nat) (next₁ : Nat) : Prop where
  le : next ≤ next₁
  eq : ids = List.range' next (next₁ - next)

variable {next next₁ next₂ : Nat} {ids ids' : List Nat}

theorem Numbered.nil (next : Nat) : Numbered next [] next :=
  ⟨le_refl _, by simp⟩

theorem Numbered.append (h : Numbered next ids next₁) (h' : Numbered next₁ ids' next₂) :
    Numbered next (ids ++ ids') next₂ := by
  obtain ⟨hle, rfl⟩ := h
  obtain ⟨hle', rfl⟩ := h'
  refine ⟨hle.trans hle', ?_⟩
  obtain ⟨m, rfl⟩ := Nat.exists_eq_add_of_le hle
  obtain ⟨k, rfl⟩ := Nat.exists_eq_add_of_le hle'
  rw [Nat.add_sub_cancel_left, Nat.add_sub_cancel_left, List.range'_append_1]
  congr 1
  omega

theorem Numbered.cons (h : Numbered (next + 1) ids next₁) : Numbered next (next :: ids) next₁ :=
  (show Numbered next [next] (next + 1) from ⟨by omega, by simp⟩).append h

/-- What the parser makes of a statement. -/
structure Made (a : Around) (next : Nat) (t : Stmt D) (next₁ : Nat) : Prop where
  bound : t.Bound a
  numbered : Numbered next t.ids next₁

/-- What it makes of the statements of a block. -/
structure MadeAll (a : Around) (next : Nat) (stmts : Stmts D) (next₁ : Nat) : Prop where
  bound : stmts.Bound a
  numbered : Numbered next stmts.ids next₁

variable {a : Around} {t s lhs rhs : Stmt D} {stmts : Stmts D}

/-- A statement without others in it. -/
theorem made_leaf (hb : t.Bound a) (hids : t.ids = []) : Made a next t next :=
  ⟨hb, hids ▸ .nil next⟩

theorem Made.cons (hs : Made a next s next₁) (h : MadeAll a next₁ stmts next₂) :
    MadeAll a next (.cons s stmts) next₂ :=
  ⟨⟨hs.bound, h.bound⟩, hs.numbered.append h.numbered⟩

theorem ids_snoc : ∀ stmts : Stmts D, (stmts.snoc t).ids = stmts.ids ++ t.ids
  | .nil => by simp [Stmts.snoc, Stmts.ids]
  | .cons s rest => by simp [Stmts.snoc, Stmts.ids, ids_snoc rest]

theorem bound_snoc : ∀ {stmts : Stmts D}, stmts.Bound a → t.Bound a → (stmts.snoc t).Bound a
  | .nil, _, ht => ⟨ht, trivial⟩
  | .cons _ _, h, ht => ⟨h.1, bound_snoc h.2 ht⟩

theorem MadeAll.snoc (h : MadeAll a next stmts next₁) (ht : Made a next₁ t next₂) :
    MadeAll a next (stmts.snoc t) next₂ :=
  ⟨bound_snoc h.bound ht.bound, ids_snoc stmts ▸ h.numbered.append ht.numbered⟩

theorem MadeAll.code (h : MadeAll a next stmts next₁) (decls : List D) :
    Made a next (.code decls stmts) next₁ :=
  ⟨h.bound, h.numbered⟩

/-! ## Runs of the functions around a statement -/

variable {o : Outer Scope D} {n : Nat} {p : StmtParsers Scope D} {ctx : StmtCtx Scope}
  {scope : Scope} {st : StmtStream}

/-- Returned where no statement that can be left has been made. -/
def NextIs {α : Type} (next : Nat) (r : α × StmtStream) : Prop := r.2.next = next

/-- Another parser makes no such statement. -/
theorem next_with {α : Type} {f : Stream → ParseM (α × Stream)} :
    Partial.Yields (st.with f) (NextIs st.next) :=
  Partial.Yields.bind (fun _ _ => trivial) fun _ _ => Partial.yields_pure rfl

theorem next_testInitExpr :
    Partial.Yields (parseTestInitExpr o n scope st) (NextIs st.next) := by
  unfold parseTestInitExpr
  dsimp only
  split
  · refine Partial.Yields.bind next_with ?_
    rintro ⟨⟨d, spel, scope'⟩, st₁⟩ (hd : st₁.next = st.next)
    dsimp only
    split
    · rw [← hd]
      exact next_with.bind fun _ hr => Partial.yields_pure hr
    · exact Partial.yields_pure hd
  · exact next_with.bind fun _ hr => Partial.yields_pure hr

theorem next_forInit : Partial.Yields (parseForInit o n scope st) (NextIs st.next) := by
  unfold parseForInit
  split
  · exact Partial.yields_pure rfl
  · refine Partial.Yields.bind next_with ?_
    rintro ⟨decls, st₁⟩ (hd : st₁.next = st.next)
    cases decls with
    | some r => exact Partial.yields_pure hd
    | none =>
      rw [← hd]
      exact next_with.bind fun _ hr => Partial.yields_pure hr

theorem next_forWhile : Partial.Yields (parseForWhile o n scope st) (NextIs st.next) := by
  unfold parseForWhile
  split
  · exact Partial.yields_pure rfl
  · exact next_with.bind fun _ hr => Partial.yields_pure hr

theorem next_forInc : Partial.Yields (parseForInc o n scope st) (NextIs st.next) := by
  unfold parseForInc
  split
  · exact Partial.yields_pure rfl
  · exact next_with.bind fun _ hr => Partial.yields_pure hr

/-! ## Runs of the parser -/

/-- Returned: a statement made from `next` on. -/
def MadeFrom (a : Around) (next : Nat) (r : Stmt D × StmtStream) : Prop :=
  Made a next r.1 r.2.next

/-- What the calls of the parser do. -/
structure StmtParsers.Keeps (p : StmtParsers Scope D) : Prop where
  stmt : ∀ ctx st, Partial.Yields (p.stmt ctx st) (MadeFrom ctx.around st.next)
  decls : ∀ scope st, Partial.Yields (p.decls scope st) (NextIs st.next)
  stmts : ∀ ctx st, Partial.Yields (p.stmts ctx st) fun r =>
    MadeAll ctx.around st.next r.1.1 r.2.next
  andDecls : ∀ ctx st, Partial.Yields (p.andDecls ctx st) (MadeFrom ctx.around st.next)

/-- A statement around another one. -/
theorem made_around {x : StmtM (Stmt D × StmtStream)} {f : Stmt D → Stmt D} {a' : Around}
    {k : Nat} (h : Partial.Yields x (MadeFrom a' k))
    (hf : ∀ lhs next₁, Made a' k lhs next₁ → Made a next (f lhs) next₁) :
    Partial.Yields (x >>= fun r => pure (f r.1, r.2)) (MadeFrom a next) :=
  h.bind fun _ hr => Partial.yields_pure (hf _ _ hr)

/-- A statement without others in it, behind an expression. -/
theorem made_expr {x : StmtM (Tree × StmtStream)} {f : Tree → Stmt D} {eat : Stream → Stream}
    (h : Partial.Yields x (NextIs next)) (hf : ∀ e, Made a next (f e) next) :
    Partial.Yields (x >>= fun r => pure (f r.1, r.2.eat eat)) (MadeFrom a next) := by
  refine h.bind ?_
  rintro ⟨e, st₁⟩ (rfl : st₁.next = next)
  exact Partial.yields_pure (hf e)

theorem made_if (hp : p.Keeps) :
    Partial.Yields (parseIf o n p ctx st) (MadeFrom ctx.around st.next) := by
  refine next_testInitExpr.bind ?_
  rintro ⟨⟨test, scope⟩, st₁⟩ (hst₁ : st₁.next = st.next)
  rw [← hst₁]
  refine (hp.stmt _ _).bind fun r hlhs => ?_
  dsimp only
  split
  · exact made_around (hp.stmt _ _) fun rhs next₁ hrhs =>
      ⟨⟨hlhs.bound, hrhs.bound⟩, hlhs.numbered.append hrhs.numbered⟩
  · exact Partial.yields_pure ⟨hlhs.bound, hlhs.numbered⟩

theorem made_switch (hp : p.Keeps) :
    Partial.Yields (parseSwitch o n p ctx st) (MadeFrom ctx.around st.next) := by
  refine next_testInitExpr.bind ?_
  rintro ⟨⟨test, scope⟩, st₁⟩ (hst₁ : st₁.next = st.next + 1)
  refine made_around (hp.stmt _ _) fun lhs next₁ hlhs => ?_
  rw [hst₁] at hlhs
  exact ⟨hlhs.bound, hlhs.numbered.cons⟩

theorem made_while (hp : p.Keeps) :
    Partial.Yields (parseWhile o n p ctx st) (MadeFrom ctx.around st.next) := by
  refine next_testInitExpr.bind ?_
  rintro ⟨⟨test, scope⟩, st₁⟩ (hst₁ : st₁.next = st.next + 1)
  refine made_around (hp.stmt _ _) fun lhs next₁ hlhs => ?_
  rw [hst₁] at hlhs
  exact ⟨hlhs.bound, hlhs.numbered.cons⟩

theorem made_do (hp : p.Keeps) :
    Partial.Yields (parseDo o n p ctx st) (MadeFrom ctx.around st.next) := by
  refine (hp.stmt _ _).bind fun r hlhs => ?_
  refine Partial.Yields.bind next_with ?_
  rintro ⟨e, st₂⟩ (hst₂ : st₂.next = r.2.next)
  refine Partial.yields_pure ?_
  show Made _ _ _ st₂.next
  rw [hst₂]
  exact ⟨hlhs.bound, hlhs.numbered.cons⟩

theorem made_for (hp : p.Keeps) :
    Partial.Yields (parseFor o n p ctx st) (MadeFrom ctx.around st.next) := by
  refine next_forInit.bind ?_
  rintro ⟨⟨init, scope⟩, st₁⟩ (hst₁ : st₁.next = st.next + 1)
  refine next_forWhile.bind ?_
  rintro ⟨test, st₂⟩ (hst₂ : st₂.next = st₁.next)
  refine next_forInc.bind ?_
  rintro ⟨inc, st₃⟩ (hst₃ : st₃.next = st₂.next)
  refine made_around (hp.stmt _ _) fun lhs next₁ hlhs => ?_
  rw [hst₃, hst₂, hst₁] at hlhs
  exact ⟨hlhs.bound, hlhs.numbered.cons⟩

theorem made_return : Partial.Yields (parseReturn o n ctx st)
    (MadeFrom (D := D) ctx.around st.next) := by
  unfold parseReturn
  split
  · exact Partial.yields_pure (made_leaf trivial rfl)
  · exact made_expr (f := fun e => .return_ (some e)) next_with fun e => made_leaf trivial rfl

theorem made_goto : Partial.Yields (parseGoto o n ctx st)
    (MadeFrom (D := D) ctx.around st.next) := by
  unfold parseGoto
  split
  · exact made_expr next_with fun e => made_leaf trivial rfl
  · exact Partial.yields_pure (made_leaf trivial rfl)
  · exact Partial.yields_pure (made_leaf trivial rfl)

theorem made_case (hp : p.Keeps) :
    Partial.Yields (parseCase o n p ctx st) (MadeFrom ctx.around st.next) := by
  refine Partial.Yields.bind next_with ?_
  rintro ⟨e, st₁⟩ (hst₁ : st₁.next = st.next)
  rw [← hst₁]
  dsimp only
  split
  · refine Partial.Yields.bind next_with ?_
    rintro ⟨e₂, st₂⟩ (hst₂ : st₂.next = st₁.next)
    rw [← hst₂]
    exact made_around (hp.stmt _ _) fun lhs next₁ hlhs => ⟨⟨rfl, hlhs.bound⟩, hlhs.numbered⟩
  · exact made_around (hp.stmt _ _) fun lhs next₁ hlhs => ⟨⟨rfl, hlhs.bound⟩, hlhs.numbered⟩

theorem made_label (hp : p.Keeps) (spel : String) :
    Partial.Yields (parseLabel p ctx spel st) (MadeFrom ctx.around st.next) :=
  made_around (hp.stmt _ _) fun _ _ hlhs => ⟨hlhs.bound, hlhs.numbered⟩

theorem made_stmt (hp : p.Keeps) (ctx : StmtCtx Scope) (st : StmtStream) :
    Partial.Yields (parseStmt o n p ctx st) (MadeFrom ctx.around st.next) := by
  unfold parseStmt
  split
  · exact Partial.yields_pure (made_leaf trivial rfl)
  · exact Partial.yields_pure (made_leaf rfl rfl)
  · exact Partial.yields_pure (made_leaf rfl rfl)
  · exact made_return
  · exact made_goto
  · exact made_if hp
  · exact made_while hp
  · exact made_do hp
  · exact made_for hp
  · exact (hp.andDecls _ _).bind fun _ hcode => Partial.yields_pure hcode
  · exact made_switch hp
  · exact made_around (hp.stmt _ _) fun lhs next₁ hlhs => ⟨⟨rfl, hlhs.bound⟩, hlhs.numbered⟩
  · exact made_case hp
  · exact made_label hp _
  · exact made_expr next_with fun e => made_leaf trivial rfl

theorem next_decls (hp : p.Keeps) (scope : Scope) (st : StmtStream) :
    Partial.Yields (parseDecls o p scope st) (NextIs st.next) := by
  refine Partial.Yields.bind next_with ?_
  rintro ⟨decls, st₁⟩ (hst₁ : st₁.next = st.next)
  cases decls with
  | none => exact Partial.yields_pure hst₁
  | some d =>
    rw [← hst₁]
    exact (hp.decls _ _).bind fun _ hds => Partial.yields_pure hds

theorem madeAll_then (hp : p.Keeps) (hs : Made ctx.around next s st.next) :
    Partial.Yields (parseStmtThen p ctx s st) fun r =>
      MadeAll ctx.around next r.1.1 r.2.next :=
  (hp.stmts _ _).bind fun _ hrest => Partial.yields_pure (hs.cons hrest)

theorem madeAll_stmts (hp : p.Keeps) (ctx : StmtCtx Scope) (st : StmtStream) :
    Partial.Yields (parseStmts o p ctx st) fun r =>
      MadeAll ctx.around st.next r.1.1 r.2.next := by
  unfold parseStmts
  split
  · exact (made_label hp _).bind fun _ hs => madeAll_then hp hs
  · exact Partial.yields_pure ⟨trivial, .nil _⟩
  · split
    · exact Partial.yields_pure ⟨trivial, .nil _⟩
    · exact (hp.stmt _ _).bind fun _ hs => madeAll_then hp hs

theorem made_nested (hp : p.Keeps) (decls : List D) (atDecl : Bool)
    (hs : MadeAll ctx.around next stmts st.next) :
    Partial.Yields (parseNested p ctx decls stmts atDecl st) (MadeFrom ctx.around next) := by
  unfold parseNested
  split
  · cases stmts with
    | nil => exact fun _ h => absurd h (Partial.die_ne_pure _ _)
    | cons s rest =>
      exact (hp.andDecls _ _).bind fun _ hn => Partial.yields_pure ((hs.snoc hn).code decls)
  · exact Partial.yields_pure (hs.code decls)

theorem made_afterDecls (hp : p.Keeps) (decls : List D) :
    Partial.Yields (parseAfterDecls p ctx decls st) (MadeFrom ctx.around st.next) := by
  unfold parseAfterDecls
  split
  · exact Partial.yields_pure ⟨trivial, .nil _⟩
  · exact (hp.stmts _ _).bind fun _ hs => made_nested hp decls _ hs

theorem made_stmtAndDecls (hp : p.Keeps) (ctx : StmtCtx Scope) (st : StmtStream) :
    Partial.Yields (parseStmtAndDecls o p ctx st) (MadeFrom ctx.around st.next) := by
  have hfirst : Partial.Yields (parseFirstDecls o p ctx.scope st) (NextIs st.next) := by
    unfold parseFirstDecls
    split
    · exact hp.decls _ _
    · exact Partial.yields_pure rfl
  refine hfirst.bind ?_
  rintro ⟨⟨decls, scope⟩, st₁⟩ (hst₁ : st₁.next = st.next)
  rw [← hst₁]
  exact made_afterDecls hp decls

theorem keeps_deep : (StmtParsers.deep : StmtParsers Scope D).Keeps where
  stmt := fun _ _ _ h => absurd h (Partial.deep_ne_pure _)
  decls := fun _ _ _ h => absurd h (Partial.deep_ne_pure _)
  stmts := fun _ _ _ h => absurd h (Partial.deep_ne_pure _)
  andDecls := fun _ _ _ h => absurd h (Partial.deep_ne_pure _)

theorem keeps_stmtParser (o : Outer Scope D) : ∀ n, (stmtParser o n).Keeps
  | 0 => keeps_deep
  | n + 1 =>
      have hp := keeps_stmtParser o n
      { stmt := made_stmt hp
        decls := next_decls hp
        stmts := madeAll_stmts hp
        andDecls := made_stmtAndDecls hp }

/-- `for(;;) { for(;;) break; continue }`, where a semicolon is missing. -/
def loopTokens : StmtStream :=
  ⟨⟨[tokenFor, .openParen, tokenSemicolon, tokenSemicolon, .closeParen, .openBlock,
    tokenFor, .openParen, tokenSemicolon, tokenSemicolon, .closeParen, tokenBreak, tokenSemicolon,
    tokenContinue, .closeBlock], false⟩, 0⟩

def loopTree : Stmt String :=
  .for_ 0 .none none none (.code [] (.cons (.for_ 1 .none none none (.break_ (some 1)))
    (.cons (.continue_ (some 0)) .nil)))

end Ucc.Cc1.ParseStmt
