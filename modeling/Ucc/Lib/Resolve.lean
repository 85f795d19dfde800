/-
  Lib/Resolve.lean --- lexical resolution of a path's components.

  Components are of any type with two distinguished ones, `here` ('.') and `up`
  ('..').  Resolution is a rewriting: a `here` may be dropped, and a component may
  be cancelled against an `up` that follows it.  `resolve` computes the normal
  form with a stack.
-/
import Mathlib.Tactic
import Mathlib.Logic.Relation

set_option autoImplicit false

namespace Ucc.Lib

variable {α : Type} (here up : α)

/-- A step of resolution. -/
inductive Cancel : List α → List α → Prop where
  | here (l r : List α) : Cancel (l ++ here :: r) (l ++ r)
  | up (l r : List α) (x : α) (hhere : x ≠ here) (hup : x ≠ up) :
      Cancel (l ++ x :: up :: r) (l ++ r)

/-- Some steps of resolution. -/
abbrev Cancels : List α → List α → Prop := Relation.ReflTransGen (Cancel here up)

/-- There is nothing left to resolve. -/
def Resolved (l : List α) : Prop := here ∉ l ∧ ∀ front x back, l = front ++ x :: up :: back → x = up

variable [DecidableEq α]

/-- A component on the stack of those before it. -/
def resolveStep (st : List α) (x : α) : List α :=
  if x = here then st
  else if x = up then
    match st.getLast? with
    | some y => if y = up then st ++ [up] else st.dropLast
    | none => st ++ [up]
  else st ++ [x]

def resolve (l : List α) : List α := l.foldl (resolveStep here up) []

variable {here up}

theorem resolveStep_up (hne : here ≠ up) (st : List α) {x : α} (hx : x ≠ up) :
    resolveStep here up (st ++ [x]) up = st := by
  simp [resolveStep, hne.symm, hx]

/-- `resolve` does not tell apart what a step relates. -/
theorem Cancel.resolve_eq (hne : here ≠ up) {l r : List α} (h : Cancel here up l r) :
    resolve here up l = resolve here up r := by
  unfold resolve
  cases h with
  | here l r =>
    have hstep : ∀ st, resolveStep here up st here = st := fun st => if_pos rfl
    rw [List.foldl_append, List.foldl_append, List.foldl_cons, hstep]
  | up l r x hhere hup =>
    have hstep : ∀ st, resolveStep here up (resolveStep here up st x) up = st := by
      intro st
      have hpush : resolveStep here up st x = st ++ [x] := by simp [resolveStep, hhere, hup]
      rw [hpush, resolveStep_up hne st hup]
    rw [List.foldl_append, List.foldl_append, List.foldl_cons, List.foldl_cons, hstep]

theorem resolve_eq_of_cancels (hne : here ≠ up) {l r : List α}
    (h : Cancels here up l r) : resolve here up l = resolve here up r := by
  induction h with
  | refl => rfl
  | tail _ hstep ih => exact ih.trans (hstep.resolve_eq hne)

/-- The stack: some `up`s, then components that can be cancelled. -/
def Stacked (here up : α) (st : List α) : Prop :=
  ∃ n names, st = List.replicate n up ++ names ∧ ∀ x ∈ names, x ≠ here ∧ x ≠ up

/-- A component goes on the stack, is dropped, or takes another one with it. -/
theorem resolveStep_cases (hne : here ≠ up) {st : List α} (h : Stacked here up st) (x : α) :
    (x = here ∧ resolveStep here up st x = st) ∨
      (x = up ∧ ∃ st' y, st = st' ++ [y] ∧ y ≠ here ∧ y ≠ up ∧ resolveStep here up st x = st' ∧
        Stacked here up st') ∨
      (resolveStep here up st x = st ++ [x] ∧ Stacked here up (st ++ [x])) := by
  obtain ⟨n, names, rfl, hnames⟩ := h
  by_cases hhere : x = here
  · exact Or.inl ⟨hhere, if_pos hhere⟩
  by_cases hup : x = up
  · subst hup
    rcases List.eq_nil_or_concat names with rfl | ⟨front, y, rfl⟩
    · refine Or.inr (Or.inr ⟨?_, n + 1, [], by simp [List.replicate_succ'], by simp⟩)
      cases n with
      | zero => simp [resolveStep, hhere]
      | succ n => simp [resolveStep, hhere, List.replicate_succ']
    · obtain ⟨hyhere, hyup⟩ := hnames y (by simp)
      refine Or.inr (Or.inl ⟨rfl, List.replicate n x ++ front, y, by simp, hyhere, hyup, ?_, n, front,
        rfl, fun z hz => hnames z (by simp [hz])⟩)
      rw [List.concat_eq_append, ← List.append_assoc, resolveStep_up hne _ hyup]
  · refine Or.inr (Or.inr ⟨by simp [resolveStep, hhere, hup], n, names ++ [x], by simp, ?_⟩)
    intro y hy
    rcases List.mem_append.mp hy with hy | hy
    · exact hnames y hy
    · exact List.mem_singleton.mp hy ▸ ⟨hhere, hup⟩

theorem foldl_resolveStep (hne : here ≠ up) (l : List α) {st : List α} (h : Stacked here up st) :
    Cancels here up (st ++ l) (l.foldl (resolveStep here up) st) ∧
      Stacked here up (l.foldl (resolveStep here up) st) := by
  induction l generalizing st with
  | nil => exact ⟨by rw [List.append_nil]; exact .refl, h⟩
  | cons x l ih =>
    rw [List.foldl_cons]
    rcases resolveStep_cases hne h x with
      ⟨rfl, hstep⟩ | ⟨rfl, st', y, rfl, hhere, hup, hstep, hst⟩ | ⟨hstep, hst⟩
    · rw [hstep]
      obtain ⟨hrest, hdone⟩ := ih h
      exact ⟨hrest.head (.here st l), hdone⟩
    · rw [hstep]
      obtain ⟨hrest, hdone⟩ := ih hst
      refine ⟨hrest.head ?_, hdone⟩
      rw [List.append_assoc]
      exact .up st' l y hhere hup
    · rw [hstep]
      obtain ⟨hrest, hdone⟩ := ih hst
      rw [List.append_assoc] at hrest
      exact ⟨hrest, hdone⟩

/-- `resolve` is a result of the rewriting. -/
theorem cancels_resolve (hne : here ≠ up) (l : List α) : Cancels here up l (resolve here up l) :=
  (foldl_resolveStep hne l ⟨0, [], rfl, by simp⟩).1

omit [DecidableEq α] in
theorem resolved_of_stacked {st : List α} (h : Stacked here up st) (hne : here ≠ up) :
    Resolved here up st := by
  obtain ⟨n, names, rfl, hnames⟩ := h
  constructor
  · intro hmem
    rcases List.mem_append.mp hmem with hmem | hmem
    · exact hne (List.eq_of_mem_replicate hmem)
    · exact (hnames here hmem).1 rfl
  · intro front x back heq
    rcases List.append_eq_append_iff.mp heq with ⟨mid, -, hback⟩ | ⟨mid, hfront, hback⟩
    · exact absurd rfl (hnames up (hback ▸ by simp)).2
    · cases mid with
      | nil =>
        have hmem : up ∈ names := by
          rw [List.nil_append] at hback
          simp [← hback]
        exact absurd rfl (hnames up hmem).2
      | cons y mid =>
        obtain ⟨rfl, -⟩ := List.cons.inj hback
        have hmem : x ∈ List.replicate n up := by simp [hfront]
        exact List.eq_of_mem_replicate hmem

theorem resolved_resolve (hne : here ≠ up) (l : List α) : Resolved here up (resolve here up l) :=
  resolved_of_stacked (foldl_resolveStep hne l ⟨0, [], rfl, by simp⟩).2 hne

theorem resolve_resolve (hne : here ≠ up) (l : List α) :
    resolve here up (resolve here up l) = resolve here up l :=
  (resolve_eq_of_cancels hne (cancels_resolve hne l)).symm

/-- Every component is dropped or cancelled. -/
theorem cancels_nil_iff (hne : here ≠ up) (l : List α) :
    Cancels here up l [] ↔ resolve here up l = [] :=
  ⟨fun h => resolve_eq_of_cancels hne h, fun h => h ▸ cancels_resolve hne l⟩

end Ucc.Lib
