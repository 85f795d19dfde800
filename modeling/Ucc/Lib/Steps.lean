/-
  Lib/Steps.lean --- runs of a machine whose steps can fail.

  `steps` is over any state and any operations.  A guard is a condition on the
  state before an operation and on what is still to come; `Guarded` says that it
  holds all along a run.
-/
import Mathlib.Logic.Relation

set_option autoImplicit false

namespace Ucc.Lib

universe u v

variable {S : Type u} {O : Type v} (step : S → O → Option S) (guard : S → O → List O → Prop)

/-- The operations in order, as long as each has a result. -/
def steps : S → List O → Option S
  | s, [] => some s
  | s, op :: ops => (step s op).bind fun t => steps t ops

/-- Every operation is made in a state that meets the guard. -/
def Guarded : S → List O → Prop
  | _, [] => True
  | s, op :: ops => guard s op ops ∧ ∀ t, step s op = some t → Guarded t ops

variable {step guard}

instance Guarded.decide [∀ s op ops, Decidable (guard s op ops)] :
    ∀ (s : S) (ops : List O), Decidable (Guarded step guard s ops)
  | _, [] => isTrue trivial
  | s, op :: ops =>
      match h : step s op with
      | none => decidable_of_iff (guard s op ops)
          ⟨fun hop => ⟨hop, fun t ht => absurd (h.symm.trans ht) (by simp)⟩, And.left⟩
      | some t =>
          have := Guarded.decide t ops
          decidable_of_iff (guard s op ops ∧ Guarded step guard t ops)
            ⟨fun hop => ⟨hop.1, fun u hu => Option.some.inj (h.symm.trans hu) ▸ hop.2⟩,
              fun hop => ⟨hop.1, hop.2 t h⟩⟩

theorem steps_cons {s u : S} {op : O} {ops : List O} (h : steps step s (op :: ops) = some u) :
    ∃ t, step s op = some t ∧ steps step t ops = some u :=
  Option.bind_eq_some_iff.mp h

theorem steps_append {s u : S} {ops ops' : List O} (h : steps step s (ops ++ ops') = some u) :
    ∃ t, steps step s ops = some t ∧ steps step t ops' = some u := by
  induction ops generalizing s with
  | nil => exact ⟨s, rfl, h⟩
  | cons op ops ih =>
    obtain ⟨t, ht, hrest⟩ := steps_cons h
    obtain ⟨m, hm, hu⟩ := ih hrest
    refine ⟨m, ?_, hu⟩
    rw [steps, ht]
    exact hm

/-- What holds at the start and is kept by every guarded step holds at every
point of a guarded run, with what is still to come. -/
theorem Guarded.invariant {I : S → List O → Prop}
    (hkeep : ∀ s op ops t, I s (op :: ops) → guard s op ops → step s op = some t → I t ops)
    {s t : S} {pre post : List O} (hguard : Guarded step guard s (pre ++ post))
    (hrun : steps step s pre = some t) (hs : I s (pre ++ post)) :
    I t post ∧ Guarded step guard t post := by
  induction pre generalizing s with
  | nil =>
    obtain rfl := Option.some.inj hrun
    exact ⟨hs, hguard⟩
  | cons op ops ih =>
    obtain ⟨m, hm, hrest⟩ := steps_cons hrun
    exact ih (hguard.2 m hm) hrest (hkeep s op _ m hs hguard.1 hm)

/-- A reflexive and transitive relation that every step meets relates the two
ends of a run. -/
theorem steps_relates {R : S → S → Prop} (hrefl : ∀ s, R s s)
    (htrans : ∀ s t u, R s t → R t u → R s u)
    (hstep : ∀ s op t, step s op = some t → R s t) {s t : S} {ops : List O}
    (hrun : steps step s ops = some t) : R s t := by
  induction ops generalizing s with
  | nil =>
    obtain rfl := Option.some.inj hrun
    exact hrefl s
  | cons op ops ih =>
    obtain ⟨m, hm, hrest⟩ := steps_cons hrun
    exact htrans s m t (hstep s op m hm) (ih hrest)

end Ucc.Lib
