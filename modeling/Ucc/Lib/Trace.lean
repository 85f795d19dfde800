/-
  Lib/Trace.lean --- transition systems that emit events, and simulations.

  A step emits any number of events, also none; a run emits those of its steps.
  Two systems that simulate each other from related states have the same traces,
  whatever the number of silent steps either of them takes.
-/
import Mathlib.Data.List.Basic

set_option autoImplicit false

namespace Ucc.Lib

/-- A transition system; each step emits a list of events. -/
structure Emitter (S E : Type) where
  Step : S → List E → S → Prop

namespace Emitter

variable {S T E : Type}

/-- Any number of steps, with the events of all of them. -/
inductive Run (A : Emitter S E) : S → List E → S → Prop
  | refl (s : S) : Run A s [] s
  | step {s s' s'' : S} {es es' : List E} :
      A.Step s es s' → Run A s' es' s'' → Run A s (es ++ es') s''

/-- The events of the runs from a state. -/
def Traces (A : Emitter S E) (s : S) (es : List E) : Prop := ∃ s', A.Run s es s'

/-- Each step of `A` is a run of `B` between related states. -/
def Simulates (A : Emitter S E) (B : Emitter T E) (R : S → T → Prop) : Prop :=
  ∀ s t es s', R s t → A.Step s es s' → ∃ t', B.Run t es t' ∧ R s' t'

variable {A : Emitter S E} {B : Emitter T E} {R : S → T → Prop}

theorem Run.single {s s' : S} {es : List E} (h : A.Step s es s') : A.Run s es s' := by
  have hrun := Run.step h (Run.refl s')
  rwa [List.append_nil] at hrun

theorem Run.trans {s s' s'' : S} {es es' : List E} (h : A.Run s es s') (h' : A.Run s' es' s'') :
    A.Run s (es ++ es') s'' := by
  induction h with
  | refl => exact h'
  | step hstep _ ih =>
    rw [List.append_assoc]
    exact .step hstep (ih h')

/-- A silent step before a run. -/
theorem Run.silent {s s' s'' : S} {es : List E} (h : A.Step s [] s') (h' : A.Run s' es s'') :
    A.Run s es s'' :=
  .step h h'

theorem Simulates.run (h : A.Simulates B R) {s s' : S} {t : T} {es : List E} (hR : R s t)
    (hrun : A.Run s es s') : ∃ t', B.Run t es t' ∧ R s' t' := by
  induction hrun generalizing t with
  | refl => exact ⟨t, .refl t, hR⟩
  | step hstep _ ih =>
    obtain ⟨t', ht', hR'⟩ := h _ _ _ _ hR hstep
    obtain ⟨t'', ht'', hR''⟩ := ih hR'
    exact ⟨t'', ht'.trans ht'', hR''⟩

/-- Simulation both ways: the traces are the same. -/
theorem traces_iff (hAB : A.Simulates B R) (hBA : B.Simulates A fun t s => R s t)
    {s : S} {t : T} (hR : R s t) (es : List E) : A.Traces s es ↔ B.Traces t es := by
  constructor
  · rintro ⟨s', hrun⟩
    obtain ⟨t', ht', -⟩ := hAB.run hR hrun
    exact ⟨t', ht'⟩
  · rintro ⟨t', hrun⟩
    obtain ⟨s', hs', -⟩ := hBA.run hR hrun
    exact ⟨s', hs'⟩

end Emitter

end Ucc.Lib
