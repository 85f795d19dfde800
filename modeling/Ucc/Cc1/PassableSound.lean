/-
  Cc1/PassableSound.lean --- no execution comes to the end of what is not passable.

  Source: fold_passable and fold_global_func in src/cc1/fold.c.

  The invariant of the executions says of a statement and of what is left to do after it
  that one of the two does not come to its end (`Holds`).  A step keeps it if the jump it
  makes is foreseen; for jumps to labels and cases by an induction over the way into the
  statement they stand in (`JumpInto`).
-/
import Ucc.Cc1.StmtPassable

set_option autoImplicit false

namespace Ucc.Cc1.Flow

open Ucc.Lib

/-! ## Places from which the end is not reached -/

section Shut

variable (F : ExprFacts)

/-- What is left to do does not come to its end. -/
def Cont.Shut : Cont → Prop
  | .stop => False
  | .seq stmts k => (∃ s ∈ stmts, s.jumpsOff F = true) ∨ k.Shut
  | .whileBody e _ k | .doBody _ e k => F.nonZero e = true ∨ k.Shut
  | .forBody test _ _ k | .forTest test _ _ k => F.endless test = true ∨ k.Shut
  | .switchBody k => k.Shut

/-- A `break` in a statement does not leave a loop without end. -/
def Tight (s : Stmt) : Cont → Prop
  | .seq _ k => Tight s k
  | .whileBody _ _ k | .forBody _ _ _ k => s.escapable 0 = false ∨ k.Shut F
  | .stop | .doBody _ _ _ | .forTest _ _ _ _ | .switchBody _ => True

/-- The loops and switches around do not come to their ends, or what is left to do behind
them does not. -/
def Cont.Good : Cont → Prop
  | .stop => True
  | .seq stmts k => (∀ s ∈ stmts, Tight F s k) ∧ k.Good
  | .whileBody e lhs k => ((Stmt.while_ e lhs).jumpsOff F = true ∨ k.Shut F) ∧ k.Good
  | .doBody lhs e k => ((Stmt.do_ lhs e).jumpsOff F = true ∨ k.Shut F) ∧ k.Good
  | .forBody test inc lhs k | .forTest test inc lhs k =>
      ((Stmt.for_ none test inc lhs).jumpsOff F = true ∨ k.Shut F) ∧ k.Good
  | .switchBody k => k.Shut F ∧ k.Good

/-- A statement with what is left to do after it. -/
structure Holds (s : Stmt) (k : Cont) : Prop where
  shut : s.jumpsOff F = true ∨ k.Shut F
  tight : Tight F s k
  good : k.Good F

/-- The invariant of the executions. -/
def Spot.Shut : Spot → Prop
  | .enter _ | .left => True
  | .within (.exec s k) => Holds F s k
  | .within (.done k) => k.Shut F ∧ k.Good F

variable {F}

/-! ### What is left to do -/

theorem Cont.shut_whileBody {e : Expr} {lhs : Stmt} {k : Cont}
    (h : (Stmt.while_ e lhs).jumpsOff F = true ∨ k.Shut F) : (Cont.whileBody e lhs k).Shut F :=
  h.imp_left fun h => (jumpsOff_loop.mp h).1

theorem Cont.shut_forBody {test inc : Option Expr} {lhs : Stmt} {k : Cont}
    (h : (Stmt.for_ none test inc lhs).jumpsOff F = true ∨ k.Shut F) :
    (Cont.forBody test inc lhs k).Shut F :=
  h.imp_left fun h => (jumpsOff_loop.mp h).1

theorem tight_whileBody {e : Expr} {lhs : Stmt} {k : Cont}
    (h : (Stmt.while_ e lhs).jumpsOff F = true ∨ k.Shut F) : Tight F lhs (.whileBody e lhs k) :=
  h.imp_left fun h => (jumpsOff_loop.mp h).2

theorem tight_forBody {test inc : Option Expr} {lhs : Stmt} {k : Cont}
    (h : (Stmt.for_ none test inc lhs).jumpsOff F = true ∨ k.Shut F) :
    Tight F lhs (.forBody test inc lhs k) :=
  h.imp_left fun h => (jumpsOff_loop.mp h).2

/-- After a `break`.  It stands in no loop without end, but for a `do`. -/
theorem Cont.Good.afterBreak {k k' : Cont} (hgood : k.Good F) (htight : Tight F .break_ k)
    (hdo : ∀ lhs e, k.brokenDo = some (lhs, e) → lhs.jumpsOff F = false ∧ F.nonZero e = false)
    (h : k.afterBreak = some k') : k'.Shut F ∧ k'.Good F := by
  induction k with
  | stop | forTest _ _ _ _ _ => cases h
  | seq stmts k ih => exact ih hgood.2 htight hdo h
  | whileBody _ _ k _ | forBody _ _ _ k _ =>
    cases h
    exact ⟨htight.resolve_left Bool.noConfusion, hgood.2⟩
  | doBody lhs e k _ =>
    cases h
    obtain ⟨hlhs, he⟩ := hdo lhs e rfl
    have hpass : ¬ (Stmt.do_ lhs e).jumpsOff F = true := by simp [Stmt.jumpsOff, hlhs, he]
    exact ⟨hgood.1.resolve_left hpass, hgood.2⟩
  | switchBody k _ =>
    cases h
    exact hgood

/-- After a `continue`. -/
theorem Cont.Good.afterContinue {k k' : Cont} (hgood : k.Good F)
    (hdo : ∀ lhs e, k.continuedDo = some (lhs, e) →
      lhs.jumpsOff F = false ∨ F.nonZero e = true)
    (h : k.afterContinue = some k') : k'.Shut F ∧ k'.Good F := by
  induction k with
  | stop | forTest _ _ _ _ _ => cases h
  | seq stmts k ih => exact ih hgood.2 hdo h
  | switchBody k ih => exact ih hgood.2 hdo h
  | whileBody _ _ k _ =>
    cases h
    exact ⟨shut_whileBody hgood.1, hgood⟩
  | forBody _ _ _ k _ =>
    cases h
    exact ⟨shut_forBody hgood.1, hgood⟩
  | doBody lhs e k _ =>
    cases h
    refine ⟨?_, hgood⟩
    refine hgood.1.imp_left fun hshut => ?_
    rw [Stmt.jumpsOff, Bool.or_eq_true] at hshut
    rcases hshut with hlhs | he
    · exact (hdo lhs e rfl).resolve_left (by simp [hlhs])
    · exact he

/-! ### The parts of a statement -/

theorem Tight.mono {s s' : Stmt} {k : Cont} (h : Tight F s k)
    (hs : s.escapable 0 = false → s'.escapable 0 = false) : Tight F s' k := by
  induction k with
  | stop | doBody _ _ _ _ | forTest _ _ _ _ _ | switchBody _ _ => trivial
  | seq _ k ih => exact ih h
  | whileBody _ _ k _ | forBody _ _ _ k _ => exact h.imp_left hs

theorem escapable_of_mem {stmts : List Stmt} {s : Stmt} (hs : s ∈ stmts)
    (h : escapableAny 0 stmts = false) : s.escapable 0 = false := by
  induction stmts with
  | nil => cases hs
  | cons t stmts ih =>
    rw [escapableAny, Bool.or_eq_false_iff] at h
    rcases List.mem_cons.mp hs with rfl | hs
    · exact h.1
    · exact ih hs h.2

theorem Tight.code {stmts : List Stmt} {k : Cont} (h : Tight F (.code stmts) k) :
    ∀ s ∈ stmts, Tight F s k := fun _ hs =>
  h.mono fun hesc => escapable_of_mem hs (by rwa [Stmt.escapable] at hesc)

theorem Tight.if_ {e : Expr} {lhs rhs : Stmt} {k : Cont} (h : Tight F (.if_ e lhs rhs) k) :
    Tight F lhs k ∧ Tight F rhs k := by
  constructor
  · refine h.mono fun hesc => ?_
    rw [Stmt.escapable, Bool.or_eq_false_iff] at hesc
    exact hesc.1
  · refine h.mono fun hesc => ?_
    rw [Stmt.escapable, Bool.or_eq_false_iff] at hesc
    exact hesc.2

theorem Tight.case {l : CaseLabel} {lhs : Stmt} {k : Cont} (h : Tight F (.case l lhs) k) :
    Tight F lhs k :=
  h.mono fun hesc => by rwa [Stmt.escapable] at hesc

theorem Tight.label {lbl : Nat} {lhs : Stmt} {k : Cont} (h : Tight F (.label lbl lhs) k) :
    Tight F lhs k :=
  h.mono fun hesc => by rwa [Stmt.escapable] at hesc

end Shut

/-! ## Jumps into a statement -/

mutual
theorem isSome_findCase (p : CaseLabel → Bool) (s : Stmt) (k : Cont) :
    (findCase p s k).isSome = s.cases.any p := by
  cases s with
  | expr _ | noop | break_ | continue_ | goto _ | return_ _ | switch _ _ => rfl
  | code stmts => exact isSome_findCases p stmts k
  | if_ e lhs rhs =>
    rw [findCase, Option.isSome_or, isSome_findCase p lhs, isSome_findCase p rhs, Stmt.cases,
      List.any_append]
  | while_ _ lhs | do_ lhs _ | for_ _ _ _ lhs | label _ lhs => exact isSome_findCase p lhs _
  | case l lhs =>
    rw [findCase, Stmt.cases, List.any_append, ← isSome_findCase p lhs k]
    cases hl : p l <;> simp [hl]
theorem isSome_findCases (p : CaseLabel → Bool) (stmts : List Stmt) (k : Cont) :
    (findCases p stmts k).isSome = (casesOf stmts).any p := by
  cases stmts with
  | nil => rfl
  | cons s stmts =>
    rw [findCases, Option.isSome_or, isSome_findCase p s, isSome_findCases p stmts, casesOf,
      List.any_append]
end

/-- A jump into a statement, to one in it with what is left to do after that; `hit` tells
where the target is. -/
inductive JumpInto (hit : Stmt → Bool) : Stmt → Cont → Stmt → Cont → Prop
  | label {lbl : Nat} {lhs : Stmt} {k : Cont} : JumpInto hit (.label lbl lhs) k lhs k
  | case {l : CaseLabel} {lhs : Stmt} {k : Cont} : JumpInto hit (.case l lhs) k lhs k
  | inLabel {lbl : Nat} {lhs s' : Stmt} {k k' : Cont} : hit lhs = true →
      JumpInto hit lhs k s' k' → JumpInto hit (.label lbl lhs) k s' k'
  | inCase {l : CaseLabel} {lhs s' : Stmt} {k k' : Cont} : hit lhs = true →
      JumpInto hit lhs k s' k' → JumpInto hit (.case l lhs) k s' k'
  | code {before after : List Stmt} {s s' : Stmt} {k k' : Cont} :
      (∀ t ∈ before, hit t = false) → hit s = true → JumpInto hit s (.seq after k) s' k' →
      JumpInto hit (.code (before ++ s :: after)) k s' k'
  | ifTrue {e : Expr} {lhs rhs s' : Stmt} {k k' : Cont} : hit lhs = true →
      JumpInto hit lhs k s' k' → JumpInto hit (.if_ e lhs rhs) k s' k'
  | ifFalse {e : Expr} {lhs rhs s' : Stmt} {k k' : Cont} : hit lhs = false →
      JumpInto hit rhs k s' k' → JumpInto hit (.if_ e lhs rhs) k s' k'
  | while_ {e : Expr} {lhs s' : Stmt} {k k' : Cont} :
      JumpInto hit lhs (.whileBody e lhs k) s' k' → JumpInto hit (.while_ e lhs) k s' k'
  | do_ {e : Expr} {lhs s' : Stmt} {k k' : Cont} :
      JumpInto hit lhs (.doBody lhs e k) s' k' → JumpInto hit (.do_ lhs e) k s' k'
  | for_ {init test inc : Option Expr} {lhs s' : Stmt} {k k' : Cont} :
      JumpInto hit lhs (.forBody test inc lhs k) s' k' →
      JumpInto hit (.for_ init test inc lhs) k s' k'
  | switch {e : Expr} {lhs s' : Stmt} {k k' : Cont} :
      JumpInto hit lhs (.switchBody k) s' k' → JumpInto hit (.switch e lhs) k s' k'

section Label

variable {lbl : Nat} {s : Stmt} {k : Cont}

theorem hasLabel_of_some {r : Stmt × Cont} (h : findLabel lbl s k = some r) :
    hasLabel lbl s = true := by
  rw [hasLabel, ← isSome_findLabel lbl s k, h]
  rfl

theorem hasLabel_of_none (h : findLabel lbl s k = none) : hasLabel lbl s = false := by
  rw [hasLabel, ← isSome_findLabel lbl s k, h]
  rfl

end Label

mutual
theorem findLabel_jumpInto {lbl : Nat} (s : Stmt) {s' : Stmt} {k k' : Cont}
    (h : findLabel lbl s k = some (s', k')) : JumpInto (hasLabel lbl) s k s' k' := by
  cases s with
  | expr _ | noop | break_ | continue_ | goto _ | return_ _ => cases h
  | code stmts =>
    obtain ⟨before, s, after, rfl, hbefore, hs, hjump⟩ := findLabels_jumpInto stmts h
    exact .code hbefore hs hjump
  | if_ e lhs rhs =>
    rw [findLabel, Option.or_eq_some_iff] at h
    rcases h with hlhs | ⟨hnone, hrhs⟩
    · exact .ifTrue (hasLabel_of_some hlhs) (findLabel_jumpInto lhs hlhs)
    · exact .ifFalse (hasLabel_of_none hnone) (findLabel_jumpInto rhs hrhs)
  | while_ e lhs => exact .while_ (findLabel_jumpInto lhs h)
  | do_ lhs e => exact .do_ (findLabel_jumpInto lhs h)
  | for_ init test inc lhs => exact .for_ (findLabel_jumpInto lhs h)
  | switch e lhs => exact .switch (findLabel_jumpInto lhs h)
  | case l lhs =>
    rw [findLabel] at h
    exact .inCase (hasLabel_of_some h) (findLabel_jumpInto lhs h)
  | label l lhs =>
    rw [findLabel] at h
    split at h
    · cases h
      exact .label
    · exact .inLabel (hasLabel_of_some h) (findLabel_jumpInto lhs h)
theorem findLabels_jumpInto {lbl : Nat} (stmts : List Stmt) {s' : Stmt} {k k' : Cont}
    (h : findLabels lbl stmts k = some (s', k')) :
    ∃ before s after, stmts = before ++ s :: after ∧ (∀ t ∈ before, hasLabel lbl t = false) ∧
      hasLabel lbl s = true ∧ JumpInto (hasLabel lbl) s (.seq after k) s' k' := by
  cases stmts with
  | nil => cases h
  | cons s stmts =>
    rw [findLabels, Option.or_eq_some_iff] at h
    rcases h with hs | ⟨hnone, hrest⟩
    · exact ⟨[], s, stmts, rfl, fun _ ht => (nomatch ht), hasLabel_of_some hs,
        findLabel_jumpInto s hs⟩
    · obtain ⟨before, t, after, rfl, hbefore, ht, hjump⟩ := findLabels_jumpInto stmts hrest
      exact ⟨s :: before, t, after, rfl,
        List.forall_mem_cons.mpr ⟨hasLabel_of_none hnone, hbefore⟩, ht, hjump⟩
end

section Case

variable {p : CaseLabel → Bool} {s : Stmt} {k : Cont}

theorem any_cases_of_some {r : Stmt × Cont} (h : findCase p s k = some r) :
    s.cases.any p = true := by
  rw [← isSome_findCase p s k, h]
  rfl

theorem any_cases_of_none (h : findCase p s k = none) : s.cases.any p = false := by
  rw [← isSome_findCase p s k, h]
  rfl

end Case

mutual
theorem findCase_jumpInto {p : CaseLabel → Bool} (s : Stmt) {s' : Stmt} {k k' : Cont}
    (h : findCase p s k = some (s', k')) : JumpInto (fun t => t.cases.any p) s k s' k' := by
  cases s with
  | expr _ | noop | break_ | continue_ | goto _ | return_ _ | switch _ _ => cases h
  | code stmts =>
    obtain ⟨before, s, after, rfl, hbefore, hs, hjump⟩ := findCases_jumpInto stmts h
    exact .code hbefore hs hjump
  | if_ e lhs rhs =>
    rw [findCase, Option.or_eq_some_iff] at h
    rcases h with hlhs | ⟨hnone, hrhs⟩
    · exact .ifTrue (any_cases_of_some hlhs) (findCase_jumpInto lhs hlhs)
    · exact .ifFalse (any_cases_of_none hnone) (findCase_jumpInto rhs hrhs)
  | while_ e lhs => exact .while_ (findCase_jumpInto lhs h)
  | do_ lhs e => exact .do_ (findCase_jumpInto lhs h)
  | for_ init test inc lhs => exact .for_ (findCase_jumpInto lhs h)
  | label lbl lhs =>
    rw [findCase] at h
    exact .inLabel (any_cases_of_some h) (findCase_jumpInto lhs h)
  | case l lhs =>
    rw [findCase] at h
    split at h
    · cases h
      exact .case
    · exact .inCase (any_cases_of_some h) (findCase_jumpInto lhs h)
theorem findCases_jumpInto {p : CaseLabel → Bool} (stmts : List Stmt) {s' : Stmt} {k k' : Cont}
    (h : findCases p stmts k = some (s', k')) :
    ∃ before s after, stmts = before ++ s :: after ∧
      (∀ t ∈ before, t.cases.any p = false) ∧ s.cases.any p = true ∧
      JumpInto (fun t => t.cases.any p) s (.seq after k) s' k' := by
  cases stmts with
  | nil => cases h
  | cons s stmts =>
    rw [findCases, Option.or_eq_some_iff] at h
    rcases h with hs | ⟨hnone, hrest⟩
    · exact ⟨[], s, stmts, rfl, fun _ ht => (nomatch ht), any_cases_of_some hs,
        findCase_jumpInto s hs⟩
    · obtain ⟨before, t, after, rfl, hbefore, ht, hjump⟩ := findCases_jumpInto stmts hrest
      exact ⟨s :: before, t, after, rfl,
        List.forall_mem_cons.mpr ⟨any_cases_of_none hnone, hbefore⟩, ht, hjump⟩
end

/-! ## No execution comes to the end -/

section Sound

variable {F : ExprFacts} {hit : Stmt → Bool}

theorem landsShutIn_append {before after : List Stmt} {s : Stmt}
    (hbefore : ∀ t ∈ before, hit t = false) (hs : hit s = true) :
    F.landsShutIn hit (before ++ s :: after) = true ↔
      (∃ t ∈ after, t.jumpsOff F = true) ∨
        (s.jumpsOff F = true ∧ F.landsShut hit s = true) := by
  induction before with
  | nil => simp [ExprFacts.landsShutIn, hs, jumpsOffAny_iff]
  | cons t before ih =>
    rw [List.forall_mem_cons] at hbefore
    rw [List.cons_append, ExprFacts.landsShutIn, if_neg (by simp [hbefore.1])]
    exact ih hbefore.2

/-- A jump that lands where the statement still ends in a jump, or into one behind which
the end is not reached. -/
theorem JumpInto.holds {s s' : Stmt} {k k' : Cont} (h : JumpInto hit s k s' k')
    (hshut : (s.jumpsOff F = true ∧ F.landsShut hit s = true) ∨ k.Shut F)
    (htight : Tight F s k) (hgood : k.Good F) : Holds F s' k' := by
  induction h with
  | label => exact ⟨hshut.imp_left And.left, htight.label, hgood⟩
  | case => exact ⟨hshut.imp_left And.left, htight.case, hgood⟩
  | inLabel hhit _ ih =>
    refine ih (hshut.imp_left fun ⟨hpass, hlands⟩ => ⟨hpass, ?_⟩) htight.label hgood
    simpa [ExprFacts.landsShut, hhit] using hlands
  | inCase hhit _ ih =>
    refine ih (hshut.imp_left fun ⟨hpass, hlands⟩ => ⟨hpass, ?_⟩) htight.case hgood
    simpa [ExprFacts.landsShut, hhit] using hlands
  | @code before after s s' k k' hbefore hhit _ ih =>
    have hall := htight.code
    refine ih ?_ (hall s (by simp)) ⟨fun t ht => hall t (by simp [ht]), hgood⟩
    rcases hshut with ⟨_, hlands⟩ | hk
    · rcases (landsShutIn_append hbefore hhit).mp hlands with hafter | hs
      · exact .inr (.inl hafter)
      · exact .inl hs
    · exact .inr (.inr hk)
  | @ifTrue e lhs rhs s' k k' hhit _ ih =>
    refine ih (hshut.imp_left fun ⟨hpass, hlands⟩ => ?_) htight.if_.1 hgood
    refine ⟨(Bool.and_eq_true_iff.mp hpass).1, ?_⟩
    simpa [ExprFacts.landsShut, hhit] using hlands
  | @ifFalse e lhs rhs s' k k' hhit _ ih =>
    refine ih (hshut.imp_left fun ⟨hpass, hlands⟩ => ?_) htight.if_.2 hgood
    refine ⟨(Bool.and_eq_true_iff.mp hpass).2, ?_⟩
    simpa [ExprFacts.landsShut, hhit] using hlands
  | while_ _ ih =>
    have hloop := hshut.imp_left And.left
    exact ih (.inr (Cont.shut_whileBody hloop)) (tight_whileBody hloop) ⟨hloop, hgood⟩
  | for_ _ ih =>
    have hloop := hshut.imp_left And.left
    exact ih (.inr (Cont.shut_forBody hloop)) (tight_forBody hloop) ⟨hloop, hgood⟩
  | @do_ e lhs s' k k' _ ih =>
    refine ih ?_ trivial ⟨hshut.imp_left And.left, hgood⟩
    rcases hshut with ⟨hpass, hlands⟩ | hk
    · rw [ExprFacts.landsShut, Bool.or_eq_true] at hlands
      by_cases he : F.nonZero e = true
      · exact .inr (.inl he)
      · exact .inl ⟨(Bool.or_eq_true_iff.mp hpass).resolve_right he,
          hlands.resolve_left he⟩
    · exact .inr (.inr hk)
  | switch _ ih =>
    have hk := hshut.resolve_left fun ⟨hpass, _⟩ => Bool.noConfusion hpass
    exact ih (.inr hk) trivial ⟨hk, hgood⟩

/-- After a step, the invariant holds. -/
def Keeps (F : ExprFacts) : Move Spot Expr Int → Prop
  | .tau q => q.Shut F
  | .ask e f => ∀ v, F.Right e v → (f v).Shut F
  | .halt | .stuck => True

theorem keeps_findLabel {root : Stmt} {lbl : Nat} (hroot : root.jumpsOff F = true)
    (hok : F.landsShut (hasLabel lbl) root = true) :
    Keeps F (jumpTo ((findLabel lbl root .stop).map fun (s, k) => .exec s k)) := by
  cases hfind : findLabel lbl root .stop with
  | none => trivial
  | some r =>
    obtain ⟨s, k⟩ := r
    exact (findLabel_jumpInto root hfind).holds (.inl ⟨hroot, hok⟩) trivial trivial

theorem keeps_findCase {root : Stmt} {l : CaseLabel} (hroot : root.jumpsOff F = true)
    (hok : F.landsShut (hasCase l) root = true) :
    Keeps F (jumpTo ((findCase (· = l) root .stop).map fun (s, k) => .exec s k)) := by
  have hhit : (fun t : Stmt => t.cases.any (· = l)) = hasCase l := by
    funext t
    rw [hasCase, Bool.eq_iff_iff]
    simp
  cases hfind : findCase (· = l) root .stop with
  | none => trivial
  | some r =>
    obtain ⟨s, k⟩ := r
    have hjump := findCase_jumpInto root hfind
    rw [hhit] at hjump
    exact hjump.holds (.inl ⟨hroot, hok⟩) trivial trivial

/-- What is behind a switch does not come to its end, so nothing in it does. -/
theorem shut_enterSwitch {v : Int} {lhs : Stmt} {k : Cont} (hshut : k.Shut F)
    (hgood : k.Good F) : (Spot.within (enterSwitch v lhs k)).Shut F := by
  rw [enterSwitch]
  split
  · rename_i s k' hfind
    have hjump : ∃ hit, JumpInto hit lhs (.switchBody k) s k' := by
      rcases Option.or_eq_some_iff.mp hfind with h | ⟨_, h⟩
      · exact ⟨_, findCase_jumpInto lhs h⟩
      · exact ⟨_, findCase_jumpInto lhs h⟩
    obtain ⟨hit, hjump⟩ := hjump
    exact hjump.holds (.inr hshut) trivial ⟨hshut, hgood⟩
  · exact ⟨hshut, hgood⟩

/-- One step in front of a statement. -/
theorem keeps_exec {root s : Stmt} {k : Cont} (hroot : root.jumpsOff F = true)
    (h : Holds F s k) (hok : F.Foreseen root (.within (.exec s k))) :
    Keeps F (executeIn root (.within (.exec s k))) := by
  obtain ⟨hshut, htight, hgood⟩ := h
  cases s with
  | expr e =>
    intro v hv
    have hpass : ¬ (Stmt.expr e).jumpsOff F = true := by simp [Stmt.jumpsOff, hv.returns]
    exact ⟨hshut.resolve_left hpass, hgood⟩
  | noop => exact ⟨hshut.resolve_left Bool.noConfusion, hgood⟩
  | code stmts =>
    exact ⟨hshut.imp_left jumpsOffAny_iff.mp, htight.code, hgood⟩
  | if_ e lhs rhs =>
    intro v _
    rw [Stmt.jumpsOff, Bool.and_eq_true] at hshut
    by_cases hv : v ≠ 0
    · simp only [if_pos hv]
      exact ⟨hshut.imp_left And.left, htight.if_.1, hgood⟩
    · simp only [if_neg hv]
      exact ⟨hshut.imp_left And.right, htight.if_.2, hgood⟩
  | while_ e lhs => exact ⟨Cont.shut_whileBody hshut, hshut, hgood⟩
  | do_ lhs e =>
    refine ⟨?_, trivial, hshut, hgood⟩
    rw [Stmt.jumpsOff, Bool.or_eq_true, or_assoc] at hshut
    exact hshut
  | for_ init test inc lhs =>
    have hbody : (Cont.forBody test inc lhs k).Shut F := Cont.shut_forBody hshut
    have hloop : (Spot.within (.done (.forTest test inc lhs k))).Shut F := ⟨hbody, hshut, hgood⟩
    cases init with
    | none => exact hloop
    | some e => exact fun _ _ => hloop
  | switch e lhs =>
    intro v _
    exact shut_enterSwitch (hshut.resolve_left Bool.noConfusion) hgood
  | case l lhs => exact ⟨hshut, htight.case, hgood⟩
  | label lbl lhs => exact ⟨hshut, htight.label, hgood⟩
  | break_ =>
    cases hafter : k.afterBreak with
    | none => simp [executeIn, jumpTo, hafter, Keeps, Spot.Shut]
    | some k' =>
      simp only [executeIn, hafter, Option.map_some, jumpTo]
      exact hgood.afterBreak htight hok hafter
  | continue_ =>
    cases hafter : k.afterContinue with
    | none => simp [executeIn, jumpTo, hafter, Keeps, Spot.Shut]
    | some k' =>
      simp only [executeIn, hafter, Option.map_some, jumpTo]
      exact hgood.afterContinue hok hafter
  | goto lbl => exact keeps_findLabel hroot hok
  | return_ e =>
    cases e with
    | none => trivial
    | some e => exact fun _ _ => trivial

/-- One step in front of what is left to do. -/
theorem keeps_done {root : Stmt} {k : Cont} (hshut : k.Shut F) (hgood : k.Good F) :
    Keeps F (executeIn root (.within (.done k))) := by
  cases k with
  | stop => trivial
  | seq stmts k =>
    cases stmts with
    | nil => exact ⟨hshut.resolve_left (by simp), hgood.2⟩
    | cons s stmts =>
      obtain ⟨hall, hk⟩ := hgood
      rw [List.forall_mem_cons] at hall
      rw [Cont.Shut, List.exists_mem_cons_iff, or_assoc] at hshut
      exact ⟨hshut, hall.1, hall.2, hk⟩
  | whileBody e lhs k =>
    intro v hv
    by_cases hne : v ≠ 0
    · simp only [if_pos hne]
      exact ⟨.inr hshut, tight_whileBody hgood.1, hgood⟩
    · simp only [if_neg hne]
      exact ⟨hshut.resolve_left fun he => hne (hv.nonZero he), hgood.2⟩
  | doBody lhs e k =>
    intro v hv
    by_cases hne : v ≠ 0
    · simp only [if_pos hne]
      exact ⟨.inr hshut, trivial, hgood⟩
    · simp only [if_neg hne]
      exact ⟨hshut.resolve_left fun he => hne (hv.nonZero he), hgood.2⟩
  | forBody test inc lhs k =>
    have hloop : (Spot.within (.done (.forTest test inc lhs k))).Shut F := ⟨hshut, hgood⟩
    cases inc with
    | none => exact hloop
    | some e => exact fun _ _ => hloop
  | forTest test inc lhs k =>
    have hbody : Holds F lhs (.forBody test inc lhs k) :=
      ⟨.inr hshut, tight_forBody hgood.1, hgood⟩
    cases test with
    | none => exact hbody
    | some e =>
      intro v hv
      by_cases hne : v ≠ 0
      · simp only [if_pos hne]
        exact hbody
      · simp only [if_neg hne]
        exact ⟨hshut.resolve_left fun he => hne (hv.nonZero he), hgood.2⟩
  | switchBody k => exact hgood

/-- One step of an execution. -/
theorem keeps_executeIn {root : Stmt} {p : Spot} (hroot : root.jumpsOff F = true)
    (h : p.Shut F) (hok : F.Foreseen root p) : Keeps F (executeIn root p) := by
  cases p with
  | enter entry =>
    cases entry with
    | start => exact ⟨.inl hroot, trivial, trivial⟩
    | label lbl => exact keeps_findLabel hroot hok
    | case l => exact keeps_findCase hroot hok
  | within st =>
    cases st with
    | exec s k => exact keeps_exec hroot h hok
    | done k => exact keeps_done h.1 h.2
  | left => trivial

/-- All steps of an execution. -/
theorem Comes.shut {root : Stmt} {p : Spot} (hroot : root.jumpsOff F = true)
    (h : Comes F root (F.Foreseen root) p) : p.Shut F := by
  induction h with
  | enter e => trivial
  | tau _ hok hm ih =>
    have hkeeps := keeps_executeIn hroot ih hok
    rw [hm] at hkeeps
    exact hkeeps
  | ask _ hok hm hv ih =>
    have hkeeps := keeps_executeIn hroot ih hok
    rw [hm] at hkeeps
    exact hkeeps _ hv

theorem Comes.ne_fellOff {root : Stmt} {p : Spot} (h : Comes F root (F.Foreseen root) p)
    (hroot : root.jumpsOff F = true) : p ≠ .fellOff := by
  rintro rfl
  exact (h.shut hroot).1

end Sound

/-! ## The end of `main` -/

/-- In a function that does not return void, statements are added if its end is reached. -/
theorem foldGlobalFunc_hostedMain {d : FuncDecl} (hc99 : d.c99 = true)
    (hmain : d.isHostedMain = true) (hvoid : d.retVoid = true → d.attrNoreturn = true)
    (hpass : d.ctx.foldPassable (.code d.stmts) = true) :
    (foldGlobalFunc d).1 = d.stmts ++ [zeroReturn] := by
  have hfst : (foldFuncIsPassable d false).1 = true := by
    rw [foldFuncIsPassable]
    by_cases hattr : d.attrNoreturn = true
    · rw [if_pos hattr]
      exact hpass
    · rw [if_neg hattr, if_neg fun h => hattr (hvoid h)]
      exact hpass
  simp only [foldGlobalFunc, hfst, hc99, hmain, Bool.and_self, if_true]

/-- If each jump is foreseen, no execution of a statement that is not passable comes to its
end, and `main` returns zero where its end is reached. -/
theorem fold_passable_sound (d : FuncDecl) :
    (∀ s p, d.ctx.foldPassable s = false →
      Comes d.toExprFacts s (d.Foreseen s) p → p ≠ .fellOff) ∧
    (d.c99 = true → d.isHostedMain = true → (d.retVoid = true → d.attrNoreturn = true) →
      Comes d.toExprFacts (.code d.stmts) (d.Foreseen (.code d.stmts)) .fellOff →
      (foldGlobalFunc d).1 = d.stmts ++ [zeroReturn]) := by
  refine ⟨fun s p hs hcomes => hcomes.ne_fellOff (PassableCtx.jumpsOff hs),
    fun hc99 hmain hvoid hcomes => ?_⟩
  refine foldGlobalFunc_hostedMain hc99 hmain hvoid ?_
  rw [← Bool.not_eq_false]
  exact fun hshut => hcomes.ne_fellOff (PassableCtx.jumpsOff hshut) rfl

/-- Expressions of which only constants are known. -/
def constFacts : ExprFacts := ⟨fun e => e.const.any (· ≠ 0), fun _ => false⟩

/-- An `int main()` with the given statements. -/
def mainOf (stmts : List Stmt) : FuncDecl where
  toExprFacts := constFacts
  spel := "main"
  stmts := stmts
  attrNoreturn := false
  retVoid := false
  c99 := true
  freestanding := false

theorem constFacts_right {i : Nat} (v : Int) : constFacts.Right ⟨i, none⟩ v where
  allows := fun _ h => (nomatch h)
  nonZero := fun h => (nomatch h)
  returns := rfl

/-- `if(c) return 1;` -/
def returnIf : List Stmt := [.if_ ⟨0, none⟩ (.return_ (some ⟨1, none⟩)) .noop]

/-- That in `main`, and a jump into `while(1){ x: c; }`. -/
theorem fold_passable_sound_main :
    (foldGlobalFunc (mainOf returnIf)).1 = returnIf ++ [zeroReturn] ∧
    Spot.within (.exec (.expr ⟨0, none⟩)
      (.whileBody ⟨1, some 1⟩ (.label 0 (.expr ⟨0, none⟩)) .stop)) ≠ .fellOff := by
  constructor
  · refine (fold_passable_sound (mainOf returnIf)).2 rfl rfl (fun h => (nomatch h)) ?_
    have hstart : Comes (mainOf returnIf).toExprFacts (.code returnIf)
        ((mainOf returnIf).Foreseen (.code returnIf)) _ := .tau (.enter .start) trivial rfl
    have hblock := hstart.tau trivial rfl
    have hif := hblock.tau trivial rfl
    have hnoop := hif.ask trivial rfl (constFacts_right 0)
    have hafter := hnoop.tau trivial rfl
    exact hafter.tau trivial rfl
  · refine (fold_passable_sound (mainOf [])).1
      (.while_ ⟨1, some 1⟩ (.label 0 (.expr ⟨0, none⟩))) _ rfl ?_
    exact Comes.tau (.enter (.label 0)) rfl rfl

/-- A `main` of which an execution comes to the end, and that gets no `return` there. -/
def Missed (d : FuncDecl) : Prop :=
  d.ctx.foldPassable (.code d.stmts) = false ∧
  Comes d.toExprFacts (.code d.stmts) (fun _ => True) .fellOff ∧
  d.c99 = true ∧ d.isHostedMain = true ∧ d.retVoid = false ∧ (foldGlobalFunc d).1 = d.stmts

/-- `if(c) goto x; return 1; x: ;` -/
def gotoOverReturn : List Stmt :=
  [.if_ ⟨0, none⟩ (.goto 0) .noop, .return_ (some ⟨1, none⟩), .label 0 .noop]

/-- `do { if(c) break; } while(1);` -/
def breakOutOfDo : List Stmt := [.do_ (.code [.if_ ⟨0, none⟩ .break_ .noop]) ⟨1, some 1⟩]

theorem fold_passable_missed : Missed (mainOf gotoOverReturn) ∧ Missed (mainOf breakOutOfDo) := by
  constructor
  · refine ⟨rfl, ?_, rfl, rfl, rfl, rfl⟩
    have hstart : Comes constFacts (.code gotoOverReturn) (fun _ => True) _ :=
      .tau (.enter .start) trivial rfl
    have hblock := hstart.tau trivial rfl
    have hif := hblock.tau trivial rfl
    have hgoto := hif.ask trivial rfl (constFacts_right 1)
    have hlabel := hgoto.tau trivial rfl
    have hafter := hlabel.tau trivial rfl
    exact hafter.tau trivial rfl
  · refine ⟨rfl, ?_, rfl, rfl, rfl, rfl⟩
    have hstart : Comes constFacts (.code breakOutOfDo) (fun _ => True) _ :=
      .tau (.enter .start) trivial rfl
    have hblock := hstart.tau trivial rfl
    have hdo := hblock.tau trivial rfl
    have hbody := hdo.tau trivial rfl
    have hin := hbody.tau trivial rfl
    have hif := hin.tau trivial rfl
    have hbreak := hif.ask trivial rfl (constFacts_right 1)
    have hafter := hbreak.tau trivial rfl
    exact hafter.tau trivial rfl

end Ucc.Cc1.Flow
