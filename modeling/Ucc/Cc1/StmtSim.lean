/-
  Cc1/StmtSim.lean --- the blocks of a function do what its statements do.

  A state of the abstract machine is related to a place in the blocks when the
  statement it executes has its start there and what is left to do has its start
  where the statement ends (`ContTr`).  Labels and cases are found in both by an
  induction over the statement they stand in, which need not be reached from above.
-/
import Ucc.Cc1.StmtKinds

set_option autoImplicit false

namespace Ucc.Cc1.Flow

open Ucc.Lib Ucc.Lib.Move

/-! ## What is left to do, in the blocks -/

/-- A `for` loop in the blocks, from its test on. -/
def ForLoop (G : OutCtx) (t : Targets) (test inc : Option Expr) (lhs : Stmt)
    (tst body fin next : Nat) : Prop :=
  ∃ q' q'', TestAt G test (some (tst, 0)) body fin ∧
    Tr G (t.inLoop fin next) lhs (some (body, 0)) q' ∧ Jump G q' next ∧
    EvalOptional G inc (some (next, 0)) q'' ∧ Jump G q'' tst

/-- What is left to do has its start at a place, with the blocks that jumps in it go
to. -/
inductive ContTr (G : OutCtx) : Cont → Targets → Pt → Prop
  | stop : ContTr G .stop noTargets (some (G.epilogueBlk, 0))
  | seq {stmts : List Stmt} {k : Cont} {t : Targets} {p q : Pt} :
      TrAll G t stmts p q → ContTr G k t q → ContTr G (.seq stmts k) t p
  | whileBody {e : Expr} {lhs : Stmt} {k : Cont} {t : Targets} {body cont brk : Nat} {p q : Pt} :
      Scope G (some (cont, 0)) p → TestAt G (some e) p body brk →
      Tr G (t.inLoop brk cont) lhs (some (body, 0)) q → Jump G q cont →
      ContTr G k t (some (brk, 0)) →
      ContTr G (.whileBody e lhs k) (t.inLoop brk cont) (some (cont, 0))
  | doBody {lhs : Stmt} {e : Expr} {k : Cont} {t : Targets} {start cont brk : Nat} {q : Pt} :
      Tr G (t.inLoop brk cont) lhs (some (start, 0)) q → Jump G q cont →
      TestAt G (some e) (some (cont, 0)) start brk → ContTr G k t (some (brk, 0)) →
      ContTr G (.doBody lhs e k) (t.inLoop brk cont) (some (cont, 0))
  | forBody {test inc : Option Expr} {lhs : Stmt} {k : Cont} {t : Targets}
      {tst body fin next : Nat} :
      ForLoop G t test inc lhs tst body fin next → ContTr G k t (some (fin, 0)) →
      ContTr G (.forBody test inc lhs k) (t.inLoop fin next) (some (next, 0))
  | forTest {test inc : Option Expr} {lhs : Stmt} {k : Cont} {t : Targets}
      {tst body fin next : Nat} :
      ForLoop G t test inc lhs tst body fin next → ContTr G k t (some (fin, 0)) →
      ContTr G (.forTest test inc lhs k) noTargets (some (tst, 0))
  | switchBody {k : Cont} {t : Targets} {fin : Nat} {blks : CaseLabel → Option Nat} :
      ContTr G k t (some (fin, 0)) → ContTr G (.switchBody k) (t.inSwitch fin blks) (some (fin, 0))
  | goes {k : Cont} {t : Targets} {p : Pt} {b : Nat} :
      Jump G p b → ContTr G k t (some (b, 0)) → ContTr G k t p

section Parts

variable {G : OutCtx} {t : Targets} {k : Cont} {p q : Pt}

theorem ContTr.scope (h : Scope G p q) (hk : ContTr G k t q) : ContTr G k t p := by
  rcases h with rfl | ⟨b, hj, rfl⟩
  · exact hk
  · exact .goes hj hk

/-- What is left to do after a `break`. -/
theorem ContTr.afterBreak (h : ContTr G k t p) {b : Nat} (hb : t.blkBreak = some b) :
    ∃ k' t', k.afterBreak = some k' ∧ ContTr G k' t' (some (b, 0)) := by
  induction h with
  | stop | forTest _ _ _ => cases hb
  | seq _ _ ih => exact ih hb
  | goes _ _ ih => exact ih hb
  | whileBody _ _ _ _ hk _ =>
    cases hb
    exact ⟨_, _, rfl, hk⟩
  | doBody _ _ _ hk _ =>
    cases hb
    exact ⟨_, _, rfl, hk⟩
  | forBody _ hk _ =>
    cases hb
    exact ⟨_, _, rfl, hk⟩
  | switchBody hk _ =>
    cases hb
    exact ⟨_, _, rfl, hk⟩

/-- What is left to do after a `continue`. -/
theorem ContTr.afterContinue (h : ContTr G k t p) {b : Nat} (hb : t.blkContinue = some b) :
    ∃ k' t', k.afterContinue = some k' ∧ ContTr G k' t' (some (b, 0)) := by
  induction h with
  | stop | forTest _ _ _ => cases hb
  | seq _ _ ih => exact ih hb
  | goes _ _ ih => exact ih hb
  | switchBody _ ih => exact ih hb
  | whileBody hs ht hl hj hk _ =>
    cases hb
    exact ⟨_, _, rfl, .whileBody hs ht hl hj hk⟩
  | doBody hl hj ht hk _ =>
    cases hb
    exact ⟨_, _, rfl, .doBody hl hj ht hk⟩
  | forBody hf hk _ =>
    cases hb
    exact ⟨_, _, rfl, .forBody hf hk⟩

/-! ### The parts of a statement, with what is left to do after each -/

theorem Tr.if_parts {e : Expr} {lhs rhs : Stmt} (h : Tr G t (.if_ e lhs rhs) p q)
    (hk : ContTr G k t q) :
    ∃ ifTrue ifFalse p' ql qr, Scope G p p' ∧ TestAt G (some e) p' ifTrue ifFalse ∧
      (Tr G t lhs (some (ifTrue, 0)) ql ∧ ContTr G k t ql) ∧
      Tr G t rhs (some (ifFalse, 0)) qr ∧ ContTr G k t qr := by
  rw [Tr] at h
  obtain ⟨ifTrue, ifFalse, fi, p', ql, qr, hs, ht, hl, hjl, hr, hjr, hs'⟩ := h
  have hfi : ContTr G k t (some (fi, 0)) := .scope hs' hk
  exact ⟨ifTrue, ifFalse, p', ql, qr, hs, ht, ⟨hl, .goes hjl hfi⟩, hr, .goes hjr hfi⟩

theorem Tr.while_parts {e : Expr} {lhs : Stmt} (h : Tr G t (.while_ e lhs) p q)
    (hk : ContTr G k t q) :
    ∃ body cont brk q', Jump G p cont ∧
      ContTr G (.whileBody e lhs k) (t.inLoop brk cont) (some (cont, 0)) ∧
      Tr G (t.inLoop brk cont) lhs (some (body, 0)) q' ∧
      ContTr G (.whileBody e lhs k) (t.inLoop brk cont) q' := by
  rw [Tr] at h
  obtain ⟨body, cont, brk, p', q', hj, hs, ht, hl, hj', hs'⟩ := h
  have hloop : ContTr G (.whileBody e lhs k) (t.inLoop brk cont) (some (cont, 0)) :=
    .whileBody hs ht hl hj' (.scope hs' hk)
  exact ⟨body, cont, brk, q', hj, hloop, hl, .goes hj' hloop⟩

theorem Tr.do_parts {e : Expr} {lhs : Stmt} (h : Tr G t (.do_ lhs e) p q) (hk : ContTr G k t q) :
    ∃ start cont brk q', Jump G p start ∧
      Tr G (t.inLoop brk cont) lhs (some (start, 0)) q' ∧
      ContTr G (.doBody lhs e k) (t.inLoop brk cont) q' := by
  rw [Tr] at h
  obtain ⟨start, cont, brk, q', hj, hl, hj', ht, rfl⟩ := h
  exact ⟨start, cont, brk, q', hj, hl, .goes hj' (.doBody hl hj' ht hk)⟩

theorem Tr.for_parts {init test inc : Option Expr} {lhs : Stmt}
    (h : Tr G t (.for_ init test inc lhs) p q) (hk : ContTr G k t q) :
    ∃ tst body fin next p' p'' q', Scope G p p' ∧ EvalOptional G init p' p'' ∧ Jump G p'' tst ∧
      ContTr G (.forTest test inc lhs k) noTargets (some (tst, 0)) ∧
      Tr G (t.inLoop fin next) lhs (some (body, 0)) q' ∧
      ContTr G (.forBody test inc lhs k) (t.inLoop fin next) q' := by
  rw [Tr] at h
  obtain ⟨tst, body, fin, next, p', p'', q', q'', hs, hinit, hj, ht, hl, hj', hinc, hj'', hs'⟩ := h
  have hloop : ForLoop G t test inc lhs tst body fin next := ⟨q', q'', ht, hl, hj', hinc, hj''⟩
  have hend : ContTr G k t (some (fin, 0)) := .scope hs' hk
  exact ⟨tst, body, fin, next, p', p'', q', hs, hinit, hj, .forTest hloop hend, hl,
    .goes hj' (.forBody hloop hend)⟩

theorem Tr.switch_parts {e : Expr} {lhs : Stmt} (h : Tr G t (.switch e lhs) p q)
    (hk : ContTr G k t q) :
    lhs.cases.Pairwise CaseLabel.Apart ∧
    ∃ fin body blks p' p'' q', Scope G p p' ∧ EvalAt G e p' p'' ∧
      SwitchAt G e blks lhs.cases fin p'' ∧ ContTr G k t (some (fin, 0)) ∧
      Tr G (t.inSwitch fin blks) lhs (some (body, 0)) q' ∧
      ContTr G (.switchBody k) (t.inSwitch fin blks) q' := by
  rw [Tr] at h
  obtain ⟨hapart, fin, body, blks, p', p'', q', hs, he, hsw, hl, hj, hs'⟩ := h
  have hend : ContTr G k t (some (fin, 0)) := .scope hs' hk
  exact ⟨hapart, fin, body, blks, p', p'', q', hs, he, hsw, hend, hl, .goes hj (.switchBody hend)⟩

theorem Tr.code_parts {stmts : List Stmt} (h : Tr G t (.code stmts) p q) (hk : ContTr G k t q) :
    ∃ p' q', Scope G p p' ∧ TrAll G t stmts p' q' ∧ ContTr G k t q' := by
  rw [Tr] at h
  obtain ⟨p', q', hs, hall, hs'⟩ := h
  exact ⟨p', q', hs, hall, .scope hs' hk⟩

end Parts

/-! ## Labels and cases -/

/-- A statement has its start at the start of the block `b`. -/
def StartsAt (G : OutCtx) (s : Stmt) (k : Cont) (b : Nat) : Prop :=
  ∃ t q, Tr G t s (some (b, 0)) q ∧ ContTr G k t q

mutual
theorem findLabel_none {lbl : Nat} (s : Stmt) (k : Cont) (h : lbl ∉ s.labels) :
    findLabel lbl s k = none := by
  cases s with
  | expr _ | noop | break_ | continue_ | goto _ | return_ _ => rfl
  | code stmts => exact findLabels_none stmts k h
  | if_ e lhs rhs =>
    rw [Stmt.labels, List.mem_append, not_or] at h
    rw [findLabel, findLabel_none lhs k h.1, findLabel_none rhs k h.2, Option.or_none]
  | while_ _ lhs | do_ lhs _ | for_ _ _ _ lhs | switch _ lhs | case _ lhs =>
    exact findLabel_none lhs _ h
  | label l lhs =>
    rw [Stmt.labels, List.mem_cons, not_or] at h
    rw [findLabel, if_neg (Ne.symm h.1), findLabel_none lhs k h.2]
theorem findLabels_none {lbl : Nat} (stmts : List Stmt) (k : Cont) (h : lbl ∉ labelsOf stmts) :
    findLabels lbl stmts k = none := by
  cases stmts with
  | nil => rfl
  | cons s stmts =>
    rw [labelsOf, List.mem_append, not_or] at h
    rw [findLabels, findLabel_none s _ h.1, findLabels_none stmts k h.2, Option.or_none]
end

section Find

variable {G : OutCtx}

mutual
/-- What is behind a label starts in the block of the label. -/
theorem findLabel_starts {lbl : Nat} (s : Stmt) {t : Targets} {k : Cont} {p q : Pt}
    (h : Tr G t s p q) (hk : ContTr G k t q) (hl : lbl ∈ s.labels) :
    ∃ s' k' b, findLabel lbl s k = some (s', k') ∧ G.labelToBlk lbl = some b ∧
      StartsAt G s' k' b := by
  cases s with
  | expr _ | noop | break_ | continue_ | goto _ | return_ _ => cases hl
  | code stmts =>
    obtain ⟨p', q', _, hall, hk'⟩ := h.code_parts hk
    exact findLabels_starts stmts hall hk' hl
  | if_ e lhs rhs =>
    obtain ⟨_, _, _, ql, qr, _, _, ⟨hlhs, hkl⟩, hrhs, hkr⟩ := h.if_parts hk
    by_cases hmem : lbl ∈ lhs.labels
    · obtain ⟨s', k', b, hfind, hb⟩ := findLabel_starts lhs hlhs hkl hmem
      exact ⟨s', k', b, by rw [findLabel, hfind, Option.some_or], hb⟩
    · have hmem' : lbl ∈ rhs.labels := (List.mem_append.mp hl).resolve_left hmem
      obtain ⟨s', k', b, hfind, hb⟩ := findLabel_starts rhs hrhs hkr hmem'
      exact ⟨s', k', b, by rw [findLabel, findLabel_none lhs k hmem, hfind, Option.none_or], hb⟩
  | while_ e lhs =>
    obtain ⟨_, _, _, q', _, _, hlhs, hk'⟩ := h.while_parts hk
    exact findLabel_starts lhs hlhs hk' hl
  | do_ lhs e =>
    obtain ⟨_, _, _, q', _, hlhs, hk'⟩ := h.do_parts hk
    exact findLabel_starts lhs hlhs hk' hl
  | for_ init test inc lhs =>
    obtain ⟨_, _, _, _, _, _, q', _, _, _, _, hlhs, hk'⟩ := h.for_parts hk
    exact findLabel_starts lhs hlhs hk' hl
  | switch e lhs =>
    obtain ⟨_, _, _, _, _, _, q', _, _, _, _, hlhs, hk'⟩ := h.switch_parts hk
    exact findLabel_starts lhs hlhs hk' hl
  | case l lhs =>
    rw [Tr] at h
    obtain ⟨_, _, _, hlhs⟩ := h
    exact findLabel_starts lhs hlhs hk hl
  | label l lhs =>
    rw [Tr] at h
    obtain ⟨b, hb, _, hlhs⟩ := h
    by_cases heq : l = lbl
    · subst heq
      exact ⟨lhs, k, b, by rw [findLabel, if_pos rfl], hb, t, q, hlhs, hk⟩
    · have hmem : lbl ∈ lhs.labels := (List.mem_cons.mp hl).resolve_left (Ne.symm heq)
      rw [findLabel, if_neg heq]
      exact findLabel_starts lhs hlhs hk hmem
theorem findLabels_starts {lbl : Nat} (stmts : List Stmt) {t : Targets} {k : Cont} {p q : Pt}
    (h : TrAll G t stmts p q) (hk : ContTr G k t q) (hl : lbl ∈ labelsOf stmts) :
    ∃ s' k' b, findLabels lbl stmts k = some (s', k') ∧ G.labelToBlk lbl = some b ∧
      StartsAt G s' k' b := by
  cases stmts with
  | nil => cases hl
  | cons s stmts =>
    rw [TrAll] at h
    obtain ⟨p', hs, hrest⟩ := h
    by_cases hmem : lbl ∈ s.labels
    · obtain ⟨s', k', b, hfind, hb⟩ := findLabel_starts s hs (.seq hrest hk) hmem
      exact ⟨s', k', b, by rw [findLabels, hfind, Option.some_or], hb⟩
    · have hmem' : lbl ∈ labelsOf stmts := (List.mem_append.mp hl).resolve_left hmem
      obtain ⟨s', k', b, hfind, hb⟩ := findLabels_starts stmts hrest hk hmem'
      exact ⟨s', k', b, by rw [findLabels, findLabel_none s _ hmem, hfind, Option.none_or], hb⟩
end

end Find

mutual
theorem findCase_none {P : CaseLabel → Bool} (s : Stmt) (k : Cont)
    (h : ∀ l ∈ s.cases, P l = false) : findCase P s k = none := by
  cases s with
  | expr _ | noop | break_ | continue_ | goto _ | return_ _ | switch _ _ => rfl
  | code stmts => exact findCases_none stmts k h
  | if_ e lhs rhs =>
    rw [Stmt.cases, List.forall_mem_append] at h
    rw [findCase, findCase_none lhs k h.1, findCase_none rhs k h.2, Option.or_none]
  | while_ _ lhs | do_ lhs _ | for_ _ _ _ lhs | label _ lhs => exact findCase_none lhs _ h
  | case l lhs =>
    rw [Stmt.cases, List.forall_mem_append, List.forall_mem_singleton] at h
    rw [findCase, h.2, findCase_none lhs k h.1]
    rfl
theorem findCases_none {P : CaseLabel → Bool} (stmts : List Stmt) (k : Cont)
    (h : ∀ l ∈ casesOf stmts, P l = false) : findCases P stmts k = none := by
  cases stmts with
  | nil => rfl
  | cons s stmts =>
    rw [casesOf, List.forall_mem_append] at h
    rw [findCases, findCase_none s _ h.1, findCases_none stmts k h.2, Option.or_none]
end

/-- `l` is the one of the cases that is looked for. -/
structure Sought (P : CaseLabel → Bool) (l : CaseLabel) (cases : List CaseLabel) : Prop where
  mem : l ∈ cases
  found : P l = true
  only : ∀ l' ∈ cases, P l' = true → l' = l

namespace Sought

variable {P : CaseLabel → Bool} {l : CaseLabel} {cases cases' : List CaseLabel}

theorem left (h : Sought P l (cases ++ cases')) (hl : l ∈ cases) : Sought P l cases :=
  ⟨hl, h.found, fun l' hl' => h.only l' (List.mem_append_left _ hl')⟩

/-- In the second part, if none of the first is looked for. -/
theorem right (h : Sought P l (cases ++ cases')) (hl : l ∉ cases) :
    (∀ l' ∈ cases, P l' = false) ∧ Sought P l cases' := by
  refine ⟨fun l' hl' => ?_, (List.mem_append.mp h.mem).resolve_left hl, h.found,
    fun l' hl' => h.only l' (List.mem_append_right _ hl')⟩
  rw [Bool.eq_false_iff]
  intro hP
  exact hl (h.only l' (List.mem_append_left _ hl') hP ▸ hl')

end Sought

section FindCase

variable {G : OutCtx} {P : CaseLabel → Bool} {l : CaseLabel}

mutual
/-- What is behind a case starts in the block of the case. -/
theorem findCase_starts (s : Stmt) {t : Targets} {k : Cont} {p q : Pt}
    (h : Tr G t s p q) (hk : ContTr G k t q) (hl : Sought P l s.cases) :
    ∃ s' k' b, findCase P s k = some (s', k') ∧ t.caseBlk l = some b ∧ StartsAt G s' k' b := by
  cases s with
  | expr _ | noop | break_ | continue_ | goto _ | return_ _ | switch _ _ => cases hl.mem
  | code stmts =>
    obtain ⟨p', q', _, hall, hk'⟩ := h.code_parts hk
    exact findCases_starts stmts hall hk' hl
  | if_ e lhs rhs =>
    obtain ⟨_, _, _, ql, qr, _, _, ⟨hlhs, hkl⟩, hrhs, hkr⟩ := h.if_parts hk
    rw [Stmt.cases] at hl
    by_cases hmem : l ∈ lhs.cases
    · obtain ⟨s', k', b, hfind, hb⟩ := findCase_starts lhs hlhs hkl (hl.left hmem)
      exact ⟨s', k', b, by rw [findCase, hfind, Option.some_or], hb⟩
    · obtain ⟨hnone, hl'⟩ := hl.right hmem
      obtain ⟨s', k', b, hfind, hb⟩ := findCase_starts rhs hrhs hkr hl'
      exact ⟨s', k', b, by rw [findCase, findCase_none lhs k hnone, hfind, Option.none_or], hb⟩
  | while_ e lhs =>
    obtain ⟨_, _, _, q', _, _, hlhs, hk'⟩ := h.while_parts hk
    have hfind := findCase_starts lhs hlhs hk' hl
    exact hfind
  | do_ lhs e =>
    obtain ⟨_, _, _, q', _, hlhs, hk'⟩ := h.do_parts hk
    have hfind := findCase_starts lhs hlhs hk' hl
    exact hfind
  | for_ init test inc lhs =>
    obtain ⟨_, _, _, _, _, _, q', _, _, _, _, hlhs, hk'⟩ := h.for_parts hk
    have hfind := findCase_starts lhs hlhs hk' hl
    exact hfind
  | label lbl lhs =>
    rw [Tr] at h
    obtain ⟨_, _, _, hlhs⟩ := h
    exact findCase_starts lhs hlhs hk hl
  | case l' lhs =>
    rw [Tr] at h
    obtain ⟨b, hb, _, hlhs⟩ := h
    rw [Stmt.cases] at hl
    by_cases hP : P l' = true
    · obtain rfl : l' = l := hl.only l' (by simp) hP
      exact ⟨lhs, k, b, by rw [findCase, if_pos hP], hb, t, q, hlhs, hk⟩
    · rw [findCase, if_neg hP]
      have hmem : l ∈ lhs.cases := by
        rcases List.mem_append.mp hl.mem with hm | hm
        · exact hm
        · rw [List.mem_singleton] at hm
          exact absurd (hm ▸ hl.found) hP
      exact findCase_starts lhs hlhs hk (hl.left hmem)
theorem findCases_starts (stmts : List Stmt) {t : Targets} {k : Cont} {p q : Pt}
    (h : TrAll G t stmts p q) (hk : ContTr G k t q) (hl : Sought P l (casesOf stmts)) :
    ∃ s' k' b, findCases P stmts k = some (s', k') ∧ t.caseBlk l = some b ∧ StartsAt G s' k' b := by
  cases stmts with
  | nil => cases hl.mem
  | cons s stmts =>
    rw [TrAll] at h
    obtain ⟨p', hs, hrest⟩ := h
    rw [casesOf] at hl
    by_cases hmem : l ∈ s.cases
    · obtain ⟨s', k', b, hfind, hb⟩ := findCase_starts s hs (.seq hrest hk) (hl.left hmem)
      exact ⟨s', k', b, by rw [findCases, hfind, Option.some_or], hb⟩
    · obtain ⟨hnone, hl'⟩ := hl.right hmem
      obtain ⟨s', k', b, hfind, hb⟩ := findCases_starts stmts hrest hk hl'
      exact ⟨s', k', b, by rw [findCases, findCase_none s _ hnone, hfind, Option.none_or], hb⟩
end

end FindCase

/-! ## The walk -/

/-- The place without the values. -/
def Place.pt (pl : Place) : Pt := some (pl.blk, pl.at_)

section Walk

variable {G : OutCtx} {pl : Place}

theorem walk_eval {e : Expr} {q : Pt} (h : EvalAt G e pl.pt q) :
    walk G.blk pl = .ask e (fun v => ⟨pl.blk, pl.at_ + 1, Function.update pl.val e v⟩) ∧
      q = some (pl.blk, pl.at_ + 1) := by
  obtain ⟨he, hq⟩ := h
  exact ⟨by simp [walk, he], hq⟩

theorem walk_ends {type : BlkType} (h : EndsAt G type pl.pt) :
    (G.blk pl.blk).evals[pl.at_]? = none ∧ (G.blk pl.blk).type = type := by
  obtain ⟨hlen, ht⟩ := h
  exact ⟨by simp [hlen], ht⟩

theorem walk_jump {b : Nat} (h : Jump G pl.pt b) : walk G.blk pl = .tau ⟨b, 0, pl.val⟩ := by
  obtain ⟨hget, ht⟩ := walk_ends h
  simp [walk, hget, ht]

/-- A test whose value is known goes where the value that it has would go. -/
theorem walk_branch {t : Test} {ifTrue ifFalse : Nat} (h : Branch G t pl.pt ifTrue ifFalse)
    (hv : t.expr.Allows (pl.val t.expr)) :
    walk G.blk pl = .tau ⟨if t.holds (pl.val t.expr) then ifTrue else ifFalse, 0, pl.val⟩ := by
  unfold Branch at h
  cases hc : t.expr.const with
  | some v =>
    simp only [hc] at h
    have hval : pl.val t.expr = v := hv v hc
    rw [hval]
    exact walk_jump h
  | none =>
    simp only [hc] at h
    obtain ⟨hget, ht⟩ := walk_ends h
    simp [walk, hget, ht]

theorem silent_jump {b : Nat} (h : Jump G pl.pt b) : Silent (walk G.blk) pl ⟨b, 0, pl.val⟩ :=
  .tau (walk_jump h) (.refl _)

theorem silent_branch {t : Test} {ifTrue ifFalse : Nat} (h : Branch G t pl.pt ifTrue ifFalse)
    (hv : t.expr.Allows (pl.val t.expr)) :
    Silent (walk G.blk) pl ⟨if t.holds (pl.val t.expr) then ifTrue else ifFalse, 0, pl.val⟩ :=
  .tau (walk_branch h hv) (.refl _)

theorem silent_scope {q : Pt} (h : Scope G pl.pt q) :
    ∃ pl', q = pl'.pt ∧ Silent (walk G.blk) pl pl' := by
  rcases h with rfl | ⟨b, hj, rfl⟩
  · exact ⟨pl, rfl, .refl pl⟩
  · exact ⟨⟨b, 0, pl.val⟩, rfl, silent_jump hj⟩

/-- A comparison with a case. -/
theorem silent_caseAt {e : Expr} {l : CaseLabel} {b : Nat} {q : Pt}
    (h : CaseAt G e l pl.pt b q) (hv : e.Allows (pl.val e)) :
    if l.covers (pl.val e) then Silent (walk G.blk) pl ⟨b, 0, pl.val⟩
    else ∃ next, q = some (next, 0) ∧ Silent (walk G.blk) pl ⟨next, 0, pl.val⟩ := by
  cases l with
  | value k =>
    obtain ⟨next, hbr, rfl⟩ := h
    have hsil := silent_branch hbr hv
    by_cases hk : k = pl.val e
    · simpa [CaseLabel.covers, Test.holds, Test.expr, hk] using hsil
    · simpa [CaseLabel.covers, Test.holds, Test.expr, hk] using hsil
  | range lo hi =>
    obtain ⟨next, test2, hlt, hgt, rfl⟩ := h
    have hsil := silent_branch hlt hv
    by_cases hlo : pl.val e < lo
    · have hcov : ¬(lo ≤ pl.val e ∧ pl.val e ≤ hi) := by omega
      simpa [CaseLabel.covers, Test.holds, Test.expr, hlo, hcov] using hsil
    · have hsil₁ : Silent (walk G.blk) pl ⟨test2, 0, pl.val⟩ := by
        simpa [Test.holds, Test.expr, hlo] using hsil
      have hsil₂ := @silent_branch G ⟨test2, 0, pl.val⟩ _ _ _ hgt hv
      by_cases hhi : pl.val e > hi
      · have hcov : ¬(lo ≤ pl.val e ∧ pl.val e ≤ hi) := by omega
        simp only [Test.holds, Test.expr, hhi, decide_true, if_true] at hsil₂
        simpa [CaseLabel.covers, hcov] using hsil₁.trans hsil₂
      · have hcov : lo ≤ pl.val e ∧ pl.val e ≤ hi := by omega
        simp only [Test.holds, Test.expr, hhi, decide_false] at hsil₂
        simpa [CaseLabel.covers, hcov] using hsil₁.trans hsil₂
  | default => cases h

/-- The comparisons with the cases lead to the first that the value belongs to. -/
theorem silent_chain {e : Expr} {blks : CaseLabel → Option Nat} {ls : List CaseLabel} {q : Pt}
    (h : Chain G e blks ls pl.pt q) (hv : e.Allows (pl.val e)) :
    (∃ l ∈ ls, l.covers (pl.val e) = true ∧ ∃ b, blks l = some b ∧
      Silent (walk G.blk) pl ⟨b, 0, pl.val⟩) ∨
    ((∀ l ∈ ls, l.covers (pl.val e) = false) ∧
      ∃ pl', q = pl'.pt ∧ pl'.val = pl.val ∧ Silent (walk G.blk) pl pl') := by
  induction ls generalizing pl with
  | nil => exact .inr ⟨fun _ hl => (nomatch hl), pl, h, rfl, .refl pl⟩
  | cons l ls ih =>
    obtain ⟨b, p', hb, hcase, hrest⟩ := h
    have hstep := silent_caseAt hcase hv
    by_cases hcov : l.covers (pl.val e) = true
    · rw [if_pos hcov] at hstep
      exact .inl ⟨l, List.mem_cons_self, hcov, b, hb, hstep⟩
    · rw [if_neg hcov] at hstep
      obtain ⟨next, rfl, hsil⟩ := hstep
      have hnext := @ih ⟨next, 0, pl.val⟩ hrest hv
      rcases hnext with ⟨l', hl', hcov', b', hb', hsil'⟩ | ⟨hnone, pl', hq, hval, hsil'⟩
      · exact .inl ⟨l', List.mem_cons_of_mem l hl', hcov', b', hb', hsil.trans hsil'⟩
      · refine .inr ⟨?_, pl', hq, hval, hsil.trans hsil'⟩
        intro l' hl'
        rcases List.mem_cons.mp hl' with rfl | hmem
        · exact Bool.eq_false_iff.mpr hcov
        · exact hnone l' hmem

end Walk
/-! ## Related states -/

mutual
/-- How often the abstract machine goes on while the walk may stand still. -/
def Stmt.weight : Stmt → Nat
  | .code stmts => 2 + weights stmts
  | .expr _ | .noop | .if_ _ _ _ | .while_ _ _ | .do_ _ _ | .for_ _ _ _ _ | .switch _ _
  | .case _ _ | .break_ | .continue_ | .goto _ | .label _ _ | .return_ _ => 1
def weights : List Stmt → Nat
  | [] => 0
  | s :: stmts => s.weight + 1 + weights stmts
end

def Cont.weight : Cont → Nat
  | .seq stmts k => 1 + weights stmts + k.weight
  | .switchBody k => 1 + k.weight
  | .stop | .whileBody _ _ _ | .doBody _ _ _ | .forBody _ _ _ _ | .forTest _ _ _ _ => 0

def State.rank : State → Nat
  | .exec s k => s.weight + k.weight
  | .done k => k.weight

/-- The state of the abstract machine has its start at the place. -/
inductive Related (G : OutCtx) : State → Place → Prop
  | exec {s : Stmt} {k : Cont} {t : Targets} {q : Pt} {pl : Place} :
      Tr G t s pl.pt q → ContTr G k t q → Related G (.exec s k) pl
  | done {k : Cont} {t : Targets} {pl : Place} : ContTr G k t pl.pt → Related G (.done k) pl

/-- At the place, the walk does what the abstract machine does by `mv`. -/
def Does (G : OutCtx) (s : State) (pl : Place) (mv : Move State Expr Int) : Prop :=
  Matched (walk G.blk) Expr.Allows (Related G) State.rank s pl mv

section Does

variable {G : OutCtx} {s s' : State} {pl : Place} {k : Int → State}

theorem Does.scope {q : Pt} {mv : Move State Expr Int} (h : Scope G pl.pt q)
    (hdoes : ∀ pl', q = pl'.pt → Does G s pl' mv) : Does G s pl mv := by
  obtain ⟨pl', hq, hsil⟩ := silent_scope h
  exact .of_silent hsil (hdoes pl' hq)

theorem Does.jump {b : Nat} (h : Jump G pl.pt b) (hR : Related G s' ⟨b, 0, pl.val⟩) :
    Does G s pl (.tau s') :=
  .move ⟨_, walk_jump h, .refl _⟩ hR

theorem Does.eval {e : Expr} {q : Pt} (h : EvalAt G e pl.pt q)
    (hk : ∀ v pl', e.Allows v → pl'.val e = v → q = pl'.pt →
      ∃ pl'', Silent (walk G.blk) pl' pl'' ∧ Related G (k v) pl'') : Does G s pl (.ask e k) := by
  obtain ⟨hwalk, hq⟩ := walk_eval h
  refine .ask (.refl pl) hwalk fun v hv => ?_
  exact hk v ⟨_, _, _⟩ hv (Function.update_self _ _ _) hq

theorem Does.test {e : Expr} {ifTrue ifFalse : Nat} (h : TestAt G (some e) pl.pt ifTrue ifFalse)
    (hk : ∀ v val, Related G (k v) ⟨if v ≠ 0 then ifTrue else ifFalse, 0, val⟩) :
    Does G s pl (.ask e k) := by
  obtain ⟨q, heval, hbr⟩ := h
  refine .eval heval fun v pl' hv hval hq => ?_
  subst hq
  have hsil := silent_branch hbr (hval ▸ hv)
  refine ⟨_, hsil, ?_⟩
  have hR := hk v pl'.val
  simpa [Test.holds, Test.expr, hval] using hR

theorem StartsAt.related {st : Stmt} {k : Cont} {b : Nat} (h : StartsAt G st k b)
    (val : Expr → Int) : Related G (.exec st k) ⟨b, 0, val⟩ := by
  obtain ⟨t, q, htr, hk⟩ := h
  exact .exec htr hk

/-- Evaluate an expression, if there is one, and go on. -/
def askOptional (e : Option Expr) (s : State) : Move State Expr Int :=
  match e with
  | some e => .ask e fun _ => s
  | none => .tau s

theorem Does.optional {e : Option Expr} {q : Pt} {b : Nat} {s' : State}
    (h : EvalOptional G e pl.pt q) (hj : Jump G q b)
    (hR : ∀ val, Related G s' ⟨b, 0, val⟩) :
    Does G s pl (askOptional e s') := by
  cases e with
  | none =>
    obtain rfl : q = pl.pt := h
    exact .jump hj (hR _)
  | some e =>
    refine Does.eval h fun v pl' _ _ hq => ?_
    subst hq
    exact ⟨_, silent_jump hj, hR _⟩

end Does

/-! ## The simulation -/

section Sim

variable {G : OutCtx} {body : Stmt}

/-- The abstract machine in front of what is left to do.  The induction is on how the
walk gets there. -/
theorem does_done {k : Cont} {t : Targets} {p : Pt} (h : ContTr G k t p)
    (hep : EndsAt G .terminal (some (G.epilogueBlk, 0))) {pl : Place} (hp : p = pl.pt) :
    Does G (.done k) pl (execute body (.done k)) := by
  induction h generalizing pl with
  | stop =>
    obtain ⟨x, i, val⟩ := pl
    cases hp
    have hwalk : walk G.blk ⟨G.epilogueBlk, 0, val⟩ = .halt := by
      obtain ⟨hget, ht⟩ := @walk_ends G ⟨G.epilogueBlk, 0, val⟩ _ hep
      simp [walk, hget, ht]
    exact .halt (.refl _) hwalk
  | goes hj hk ih =>
    subst hp
    exact .of_silent (silent_jump hj) (ih rfl)
  | @seq stmts k t p q hall hk _ =>
    subst hp
    cases stmts with
    | nil =>
      rw [TrAll] at hall
      subst hall
      exact .stay (by simp [State.rank, Cont.weight, weights]) (.refl _) (.done hk)
    | cons st stmts =>
      rw [TrAll] at hall
      obtain ⟨p', hst, hrest⟩ := hall
      refine .stay ?_ (.refl _) (.exec hst (.seq hrest hk))
      simp only [State.rank, Cont.weight, weights]
      omega
  | @whileBody e lhs k t bodyBlk cont brk p q hs ht hl hj hk _ =>
    obtain ⟨x, i, val⟩ := pl
    cases hp
    refine Does.scope hs fun pl' hp' => ?_
    subst hp'
    refine Does.test ht fun v val' => ?_
    by_cases hv : v ≠ 0
    · simp only [if_pos hv]
      exact .exec hl (.goes hj (.whileBody hs ht hl hj hk))
    · simp only [if_neg hv]
      exact .done hk
  | doBody hl hj ht hk _ =>
    obtain ⟨x, i, val⟩ := pl
    cases hp
    refine Does.test ht fun v val' => ?_
    by_cases hv : v ≠ 0
    · simp only [if_pos hv]
      exact .exec hl (.goes hj (.doBody hl hj ht hk))
    · simp only [if_neg hv]
      exact .done hk
  | forBody hf hk _ =>
    obtain ⟨x, i, val⟩ := pl
    cases hp
    obtain ⟨q', q'', ht, hl, hj, hinc, hj'⟩ := id hf
    exact Does.optional hinc hj' fun val' => .done (.forTest hf hk)
  | @forTest test inc lhs k t tst bodyBlk fin next hf hk _ =>
    obtain ⟨x, i, val⟩ := pl
    cases hp
    obtain ⟨q', q'', ht, hl, hj, hinc, hj'⟩ := id hf
    have hbody : ∀ val', Related G (.exec lhs (.forBody test inc lhs k)) ⟨bodyBlk, 0, val'⟩ :=
      fun val' => .exec hl (.goes hj (.forBody hf hk))
    cases test with
    | none => exact Does.jump ht (hbody _)
    | some e =>
      refine Does.test ht fun v val' => ?_
      by_cases hv : v ≠ 0
      · simp only [if_pos hv]
        exact hbody val'
      · simp only [if_neg hv]
        exact .done hk
  | switchBody hk _ =>
    obtain ⟨x, i, val⟩ := pl
    cases hp
    exact .stay (by simp [State.rank, Cont.weight]) (.refl _) (.done hk)

instance : Std.Symm CaseLabel.Apart := ⟨fun _ _ h => ⟨h.1.symm, fun v hv => h.2 v hv.symm⟩⟩

/-- Where a switch goes on with a value. -/
theorem related_enterSwitch {e : Expr} {lhs : Stmt} {k : Cont} {t : Targets} {fin b : Nat}
    {blks : CaseLabel → Option Nat} {q : Pt} {pl : Place}
    (hsw : SwitchAt G e blks lhs.cases fin pl.pt) (hv : e.Allows (pl.val e))
    (hapart : lhs.cases.Pairwise CaseLabel.Apart) (hk : ContTr G k t (some (fin, 0)))
    (hl : Tr G (t.inSwitch fin blks) lhs (some (b, 0)) q)
    (hk' : ContTr G (.switchBody k) (t.inSwitch fin blks) q) :
    ∃ pl', Silent (walk G.blk) pl pl' ∧ Related G (enterSwitch (pl.val e) lhs k) pl' := by
  obtain ⟨p, other, hchain, hj, hother⟩ := hsw
  rcases silent_chain hchain hv with ⟨l, hmem, hcov, b', hb', hsil⟩ | ⟨hnone, pl', rfl, hval, hsil⟩
  · have hsought : Sought (·.covers (pl.val e)) l lhs.cases := by
      refine ⟨(List.mem_filter.mp hmem).1, hcov, fun l' hl' hcov' => ?_⟩
      by_contra hne
      exact (hapart.forall hl' (List.mem_filter.mp hmem).1 hne).2 _ ⟨hcov', hcov⟩
    obtain ⟨s', k', b'', hfind, hb'', hstart⟩ := findCase_starts lhs hl hk' hsought
    obtain rfl : b' = b'' := Option.some.inj (hb'.symm.trans hb'')
    refine ⟨_, hsil, ?_⟩
    simp only [enterSwitch, hfind, Option.some_or]
    exact hstart.related pl.val
  · have hfirst : findCase (·.covers (pl.val e)) lhs (.switchBody k) = none := by
      refine findCase_none lhs _ fun l hl => ?_
      by_cases hdef : l = .default
      · subst hdef
        rfl
      · exact hnone l (List.mem_filter.mpr ⟨hl, by simpa using hdef⟩)
    refine ⟨_, hsil.trans (silent_jump hj), ?_⟩
    by_cases hdef : lhs.cases.contains .default = true
    · rw [if_pos hdef] at hother
      have hsought : Sought (· = .default) .default lhs.cases :=
        ⟨by simpa using hdef, by simp, fun l' _ hl' => by simpa using hl'⟩
      obtain ⟨s', k', b'', hfind, hb'', hstart⟩ := findCase_starts lhs hl hk' hsought
      obtain rfl : other = b'' := Option.some.inj (hother.symm.trans hb'')
      simp only [enterSwitch, hfirst, hfind, Option.none_or]
      exact hstart.related pl'.val
    · rw [if_neg hdef] at hother
      subst hother
      have hsecond : findCase (· = .default) lhs (.switchBody k) = none := by
        refine findCase_none lhs _ fun l hl => ?_
        have hne : l ≠ .default := by
          rintro rfl
          exact hdef (by simpa using hl)
        simpa using hne
      simp only [enterSwitch, hfirst, hsecond, Option.or_none]
      exact .done hk

/-- The abstract machine in front of a statement. -/
theorem does_exec (hG : Finished body G) {s : Stmt} {k : Cont} {t : Targets} {q : Pt}
    {pl : Place} (h : Tr G t s pl.pt q) (hk : ContTr G k t q) :
    Does G (.exec s k) pl (execute body (.exec s k)) := by
  cases s with
  | expr e =>
    rw [Tr] at h
    refine Does.eval h fun v pl' _ _ hq => ?_
    subst hq
    exact ⟨pl', .refl _, .done hk⟩
  | noop =>
    rw [Tr] at h
    subst h
    exact .stay (by simp [State.rank, Stmt.weight]) (.refl _) (.done hk)
  | code stmts =>
    obtain ⟨p', q', hs, hall, hk'⟩ := h.code_parts hk
    obtain ⟨pl', rfl, hsil⟩ := silent_scope hs
    refine .stay ?_ hsil (.done (.seq hall hk'))
    simp only [State.rank, Stmt.weight, Cont.weight]
    omega
  | if_ e lhs rhs =>
    obtain ⟨ifTrue, ifFalse, p', ql, qr, hs, ht, ⟨hl, hkl⟩, hr, hkr⟩ := h.if_parts hk
    refine Does.scope hs fun pl' hp' => ?_
    subst hp'
    refine Does.test ht fun v val => ?_
    by_cases hv : v ≠ 0
    · simp only [if_pos hv]
      exact .exec hl hkl
    · simp only [if_neg hv]
      exact .exec hr hkr
  | while_ e lhs =>
    obtain ⟨_, _, _, _, hj, hloop, _, _⟩ := h.while_parts hk
    exact Does.jump hj (.done hloop)
  | do_ lhs e =>
    obtain ⟨_, _, _, _, hj, hl, hk'⟩ := h.do_parts hk
    exact Does.jump hj (.exec hl hk')
  | for_ init test inc lhs =>
    obtain ⟨_, _, _, _, _, _, _, hs, hinit, hj, htest, _, _⟩ := h.for_parts hk
    refine Does.scope hs fun pl' hp' => ?_
    subst hp'
    exact Does.optional hinit hj fun _ => .done htest
  | switch e lhs =>
    obtain ⟨hapart, fin, b, blks, p', p'', q', hs, he, hsw, hend, hl, hk'⟩ := h.switch_parts hk
    refine Does.scope hs fun pl' hp' => ?_
    subst hp'
    refine Does.eval he fun v pl'' hv hval hq => ?_
    subst hq hval
    exact related_enterSwitch hsw hv hapart hend hl hk'
  | case l lhs =>
    rw [Tr] at h
    obtain ⟨b, _, hj, hl⟩ := h
    exact Does.jump hj (.exec hl hk)
  | break_ =>
    rw [Tr] at h
    obtain ⟨_, b, hb, hj⟩ := h
    obtain ⟨k', t', hafter, hk'⟩ := hk.afterBreak hb
    simp only [execute, hafter, Option.map_some, goOn]
    exact Does.jump hj (.done hk')
  | continue_ =>
    rw [Tr] at h
    obtain ⟨_, b, hb, hj⟩ := h
    obtain ⟨k', t', hafter, hk'⟩ := hk.afterContinue hb
    simp only [execute, hafter, Option.map_some, goOn]
    exact Does.jump hj (.done hk')
  | goto lbl =>
    rw [Tr] at h
    obtain ⟨_, b, hb, hj⟩ := h
    obtain ⟨q₀, hbody, hend⟩ := hG.leads
    obtain ⟨s', k', b', hfind, hb', hstart⟩ :=
      findLabel_starts body hbody (.goes hend .stop) (hG.label lbl b hb)
    obtain rfl : b = b' := Option.some.inj (hb.symm.trans hb')
    simp only [execute, hfind, Option.map_some, goOn]
    exact Does.jump hj (hstart.related pl.val)
  | label lbl lhs =>
    rw [Tr] at h
    obtain ⟨b, _, hj, hl⟩ := h
    exact Does.jump hj (.exec hl hk)
  | return_ e =>
    rw [Tr] at h
    obtain ⟨_, p', he, hj⟩ := h
    exact Does.optional he hj fun _ => .done .stop

/-- The walk does what the abstract machine does. -/
theorem matches_walk (hG : Finished body G) :
    Matches (execute body) (walk G.blk) Expr.Allows (Related G) State.rank := by
  intro s pl hR
  cases hR with
  | exec h hk => exact does_exec hG h hk
  | done hk => exact does_done hk hG.epilogue rfl

end Sim

/-- The blocks of a function that has been checked: no assertion fails, each block has
an end, and the walk from the first block makes the same evaluations as the abstract
machine, whatever their outcomes, ends when that ends, and is never stuck. -/
theorem genFunc_preserves_flow (isEmpty : OutCtx → Nat → Bool) (f : Function) :
    (genFunc isEmpty f.body).ok = true ∧
    (∀ b < (genFunc isEmpty f.body).nblks, ((genFunc isEmpty f.body).blk b).type ≠ .uninit) ∧
    ∀ (val : Expr → Int) (tr : List (Expr × Int)),
      (Trace (execute f.body) Expr.Allows (.exec f.body .stop) tr ↔
        Trace (walk (genFunc isEmpty f.body).blk) Expr.Allows ⟨0, 0, val⟩ tr) ∧
      (Ends (execute f.body) Expr.Allows (.exec f.body .stop) tr ↔
        Ends (walk (genFunc isEmpty f.body).blk) Expr.Allows ⟨0, 0, val⟩ tr) ∧
      ∀ n pl, Performs (walk (genFunc isEmpty f.body).blk) Expr.Allows n ⟨0, 0, val⟩ tr pl →
        walk (genFunc isEmpty f.body).blk pl ≠ .stuck := by
  have hG := finished_genFunc isEmpty f
  refine ⟨hG.ok, hG.ended, fun val tr => ?_⟩
  obtain ⟨q, hbody, hend⟩ := hG.leads
  have hR : Related (genFunc isEmpty f.body) (.exec f.body .stop) ⟨0, 0, val⟩ :=
    .exec hbody (.goes hend .stop)
  obtain ⟨htrace, hends⟩ := (matches_walk hG).alike hR tr
  exact ⟨htrace, hends, fun n pl hrun => (matches_walk hG).not_stuck hR hrun⟩

/-- `goto l; while(e0){ l: if(e1) break; } return e2;` -/
def jumpIntoLoop : Function where
  body := .code [.goto 0, .while_ ⟨0, none⟩ (.code [.label 0 (.if_ ⟨1, none⟩ .break_ .noop)]),
    .return_ (some ⟨2, none⟩)]
  nodup := by simp [Stmt.labels, labelsOf]
  checked := by simp [Stmt.labels, labelsOf, Stmt.Checked, CheckedAll]

theorem genFunc_preserves_flow_jumpIntoLoop :
    Ends (walk (genFunc (fun _ _ => false) jumpIntoLoop.body).blk) Expr.Allows
      ⟨0, 0, fun _ => 0⟩ [(⟨1, none⟩, 3), (⟨2, none⟩, 7)] := by
  refine ((genFunc_preserves_flow (fun _ _ => false) jumpIntoLoop).2.2 _ _).2.1.mp ?_
  have hallows : ∀ i v, Expr.Allows ⟨i, none⟩ v := fun _ _ _ h => (nomatch h)
  -- into the block, to the label, over the `break` and out of the loop, to the end
  exact ⟨_, _, .tau rfl (.tau rfl (.tau rfl (.ask rfl (hallows 1 3) (.tau rfl (.tau rfl
    (.ask rfl (hallows 2 7) (.refl _))))))), rfl⟩

end Ucc.Cc1.Flow
