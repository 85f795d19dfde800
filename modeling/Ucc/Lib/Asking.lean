/-
  Lib/Asking.lean --- machines that ask questions.

  In each state a machine makes a silent move, asks a question and goes on with the
  answer, halts, or is stuck.  Its behaviour is the sequences of questions and
  answers it can get through, and those after which it halts.

  Two machines behave alike when they are related by `Matches`: each move of the
  first is made by the second between silent moves, and the first makes no endless
  sequence of silent moves for which the second stands still.
-/
import Mathlib.Tactic

set_option autoImplicit false

namespace Ucc.Lib

/-- What a machine with states `S` does next. -/
inductive Move (S Q A : Type) where
  | tau (s : S)
  | ask (q : Q) (k : A → S)
  | halt
  | stuck

namespace Move

variable {S T Q A : Type}

/-- Moves with the questions and answers on the way; answers are those that `ok`
allows. -/
inductive Performs (m : S → Move S Q A) (ok : Q → A → Prop) : Nat → S → List (Q × A) → S → Prop
  | refl (s : S) : Performs m ok 0 s [] s
  | tau {n : Nat} {s s' s'' : S} {tr : List (Q × A)} :
      m s = .tau s' → Performs m ok n s' tr s'' → Performs m ok (n + 1) s tr s''
  | ask {n : Nat} {s s'' : S} {q : Q} {k : A → S} {a : A} {tr : List (Q × A)} :
      m s = .ask q k → ok q a → Performs m ok n (k a) tr s'' →
      Performs m ok (n + 1) s ((q, a) :: tr) s''

/-- A machine gets through a sequence of questions and answers. -/
def Trace (m : S → Move S Q A) (ok : Q → A → Prop) (s : S) (tr : List (Q × A)) : Prop :=
  ∃ n s', Performs m ok n s tr s'

/-- A machine halts after a sequence of questions and answers. -/
def Ends (m : S → Move S Q A) (ok : Q → A → Prop) (s : S) (tr : List (Q × A)) : Prop :=
  ∃ n s', Performs m ok n s tr s' ∧ m s' = .halt

/-- Any number of silent moves. -/
inductive Silent (m : S → Move S Q A) : S → S → Prop
  | refl (s : S) : Silent m s s
  | tau {s s' s'' : S} : m s = .tau s' → Silent m s' s'' → Silent m s s''

theorem Silent.trans {m : S → Move S Q A} {s s' s'' : S} (h : Silent m s s')
    (h' : Silent m s' s'') : Silent m s s'' := by
  induction h with
  | refl => exact h'
  | tau hm _ ih => exact .tau hm (ih h')

variable {m : S → Move S Q A} {n : T → Move T Q A} {ok : Q → A → Prop}

theorem Trace.nil (s : S) : Trace m ok s [] := ⟨0, s, .refl s⟩

theorem Trace.tau {s s' : S} {tr : List (Q × A)} (hm : m s = .tau s') (h : Trace m ok s' tr) :
    Trace m ok s tr := by
  obtain ⟨i, s'', h⟩ := h
  exact ⟨i + 1, s'', .tau hm h⟩

theorem Trace.ask {s : S} {q : Q} {k : A → S} {a : A} {tr : List (Q × A)} (hm : m s = .ask q k)
    (ha : ok q a) (h : Trace m ok (k a) tr) : Trace m ok s ((q, a) :: tr) := by
  obtain ⟨i, s'', h⟩ := h
  exact ⟨i + 1, s'', .ask hm ha h⟩

theorem Trace.silent {s s' : S} {tr : List (Q × A)} (hs : Silent m s s') (h : Trace m ok s' tr) :
    Trace m ok s tr := by
  induction hs with
  | refl => exact h
  | tau hm _ ih => exact .tau hm (ih h)

theorem Ends.halt {s : S} (hm : m s = .halt) : Ends m ok s [] := ⟨0, s, .refl s, hm⟩

theorem Ends.tau {s s' : S} {tr : List (Q × A)} (hm : m s = .tau s') (h : Ends m ok s' tr) :
    Ends m ok s tr := by
  obtain ⟨i, s'', h, hhalt⟩ := h
  exact ⟨i + 1, s'', .tau hm h, hhalt⟩

theorem Ends.ask {s : S} {q : Q} {k : A → S} {a : A} {tr : List (Q × A)} (hm : m s = .ask q k)
    (ha : ok q a) (h : Ends m ok (k a) tr) : Ends m ok s ((q, a) :: tr) := by
  obtain ⟨i, s'', h, hhalt⟩ := h
  exact ⟨i + 1, s'', .ask hm ha h, hhalt⟩

theorem Ends.silent {s s' : S} {tr : List (Q × A)} (hs : Silent m s s') (h : Ends m ok s' tr) :
    Ends m ok s tr := by
  induction hs with
  | refl => exact h
  | tau hm _ ih => exact .tau hm (ih h)

/-- Moves from the start of a silent sequence: they end within it, or lead through
its end. -/
theorem Performs.silent {i : Nat} {s s' s'' : S} {tr : List (Q × A)} (hs : Silent m s s')
    (h : Performs m ok i s tr s'') :
    (tr = [] ∧ ∃ u, m s'' = .tau u) ∨ ∃ j, j ≤ i ∧ Performs m ok j s' tr s'' := by
  induction hs generalizing i with
  | refl => exact .inr ⟨i, le_rfl, h⟩
  | tau hm _ ih =>
    cases h with
    | refl => exact .inl ⟨rfl, _, hm⟩
    | tau hm' h =>
      rw [hm] at hm'
      cases hm'
      rcases ih h with hin | ⟨j, hj, hout⟩
      · exact .inl hin
      · exact .inr ⟨j, by omega, hout⟩
    | ask hm' _ _ =>
      rw [hm] at hm'
      cases hm'

/-- Silent moves from the first move on. -/
def SilentPlus (m : S → Move S Q A) (s s'' : S) : Prop := ∃ s', m s = .tau s' ∧ Silent m s' s''

/-- What `n` does in a state `t` that is related to a state in which `m` makes the
given move. -/
inductive Matched (n : T → Move T Q A) (ok : Q → A → Prop) (R : S → T → Prop) (rank : S → Nat)
    (s : S) (t : T) : Move S Q A → Prop
  /-- `m` goes on by itself, which it does only so often -/
  | stay {s' : S} {t' : T} : rank s' < rank s → Silent n t t' → R s' t' →
      Matched n ok R rank s t (.tau s')
  | move {s' : S} {t' : T} : SilentPlus n t t' → R s' t' → Matched n ok R rank s t (.tau s')
  | ask {q : Q} {k : A → S} {t' : T} {k' : A → T} : Silent n t t' → n t' = .ask q k' →
      (∀ a, ok q a → ∃ t'', Silent n (k' a) t'' ∧ R (k a) t'') →
      Matched n ok R rank s t (.ask q k)
  | halt {t' : T} : Silent n t t' → n t' = .halt → Matched n ok R rank s t .halt

theorem SilentPlus.of_silent {m : S → Move S Q A} {s s' s'' : S} (h : Silent m s s')
    (h' : SilentPlus m s' s'') : SilentPlus m s s'' := by
  cases h with
  | refl => exact h'
  | tau hm hrest =>
    obtain ⟨u, hu, hsil⟩ := h'
    exact ⟨_, hm, hrest.trans (.tau hu hsil)⟩

/-- It may be after silent moves of `n` that it does what `m` does. -/
theorem Matched.of_silent {R : S → T → Prop} {rank : S → Nat} {s : S} {t t' : T}
    {mv : Move S Q A} (hs : Silent n t t') (h : Matched n ok R rank s t' mv) :
    Matched n ok R rank s t mv := by
  cases h with
  | stay hrank hsil hR => exact .stay hrank (hs.trans hsil) hR
  | move hplus hR => exact .move (.of_silent hs hplus) hR
  | ask hsil hask hk => exact .ask (hs.trans hsil) hask hk
  | halt hsil hhalt => exact .halt (hs.trans hsil) hhalt

/-- From related states, `n` does what `m` does. -/
def Matches (m : S → Move S Q A) (n : T → Move T Q A) (ok : Q → A → Prop) (R : S → T → Prop)
    (rank : S → Nat) : Prop :=
  ∀ s t, R s t → Matched n ok R rank s t (m s)

variable {R : S → T → Prop} {rank : S → Nat}

/-- The second machine gets through what the first gets through. -/
theorem Matches.performs (h : Matches m n ok R rank) {i : Nat} {s s' : S} {t : T}
    {tr : List (Q × A)} (hR : R s t) (hrun : Performs m ok i s tr s') :
    Trace n ok t tr ∧ (m s' = .halt → Ends n ok t tr) := by
  induction hrun generalizing t with
  | refl s =>
    refine ⟨.nil t, fun hm => ?_⟩
    have hmatch := h s t hR
    rw [hm] at hmatch
    cases hmatch with
    | halt hsil hn => exact .silent hsil (.halt hn)
  | tau hm _ ih =>
    have hmatch := h _ t hR
    rw [hm] at hmatch
    cases hmatch with
    | stay _ hsil hR' => exact ⟨.silent hsil (ih hR').1, fun hend => .silent hsil ((ih hR').2 hend)⟩
    | move hplus hR' =>
      obtain ⟨u, hu, hsil⟩ := hplus
      exact ⟨.tau hu (.silent hsil (ih hR').1),
        fun hend => .tau hu (.silent hsil ((ih hR').2 hend))⟩
  | ask hm ha _ ih =>
    have hmatch := h _ t hR
    rw [hm] at hmatch
    cases hmatch with
    | ask hsil hn hk =>
      obtain ⟨t'', hsil', hR'⟩ := hk _ ha
      exact ⟨.silent hsil (.ask hn ha (.silent hsil' (ih hR').1)),
        fun hend => .silent hsil (.ask hn ha (.silent hsil' ((ih hR').2 hend)))⟩

/-- What the moves of the second machine say about the first. -/
def Answers (m : S → Move S Q A) (n : T → Move T Q A) (ok : Q → A → Prop) (s : S) (t' : T)
    (tr : List (Q × A)) : Prop :=
  Trace m ok s tr ∧ (n t' = .halt → Ends m ok s tr) ∧ n t' ≠ .stuck

theorem Answers.tau {s s' : S} {t' : T} {tr : List (Q × A)} (hm : m s = .tau s')
    (h : Answers m n ok s' t' tr) : Answers m n ok s t' tr :=
  ⟨.tau hm h.1, fun hend => .tau hm (h.2.1 hend), h.2.2⟩

theorem Answers.ask {s : S} {t' : T} {q : Q} {k : A → S} {a : A} {tr : List (Q × A)}
    (hm : m s = .ask q k) (ha : ok q a) (h : Answers m n ok (k a) t' tr) :
    Answers m n ok s t' ((q, a) :: tr) :=
  ⟨.ask hm ha h.1, fun hend => .ask hm ha (h.2.1 hend), h.2.2⟩

/-- The second machine has asked nothing yet, and goes on silently. -/
theorem Answers.silent {s : S} {t' : T} {tr : List (Q × A)} (h : tr = [] ∧ ∃ u, n t' = .tau u) :
    Answers m n ok s t' tr := by
  obtain ⟨rfl, u, hu⟩ := h
  rw [Answers, hu]
  exact ⟨.nil s, fun hend => (nomatch hend), fun hstuck => (nomatch hstuck)⟩

/-- The first machine gets through what the second gets through, and the second is
never stuck.  The induction is on the number of moves of the second machine and, for
those of the first that it stands still for, on the rank. -/
theorem Matches.performed (h : Matches m n ok R rank) (i r : Nat) {s : S} {t t' : T} {j : Nat}
    {tr : List (Q × A)} (hj : j < i) (hr : rank s < r) (hR : R s t)
    (hrun : Performs n ok j t tr t') : Answers m n ok s t' tr := by
  induction i generalizing r s t tr j with
  | zero => omega
  | succ i ihi =>
    induction r generalizing s t j with
    | zero => omega
    | succ r ihr =>
      have hmatch := h s t hR
      cases hm : m s with
      | tau s' =>
        rw [hm] at hmatch
        cases hmatch with
        | stay hrank hsil hR' =>
          rcases hrun.silent hsil with hin | ⟨j', hj', hout⟩
          · exact .silent hin
          · exact .tau hm (ihr (by omega) (by omega) hR' hout)
        | move hplus hR' =>
          obtain ⟨u, hu, hsil⟩ := hplus
          cases hrun with
          | refl => exact .silent ⟨rfl, u, hu⟩
          | tau hn hrest =>
            rw [hu] at hn
            cases hn
            rcases hrest.silent hsil with hin | ⟨j', hj', hout⟩
            · exact .silent hin
            · exact .tau hm (ihi _ (by omega) (Nat.lt_succ_self _) hR' hout)
          | ask hn _ _ =>
            rw [hu] at hn
            cases hn
      | ask q k =>
        rw [hm] at hmatch
        cases hmatch with
        | ask hsil hask hk =>
          rcases hrun.silent hsil with hin | ⟨j', hj', hout⟩
          · exact .silent hin
          · cases hout with
            | refl =>
              refine ⟨.nil s, fun hend => ?_, fun hstuck => ?_⟩
              · rw [hask] at hend
                cases hend
              · rw [hask] at hstuck
                cases hstuck
            | tau hn _ =>
              rw [hask] at hn
              cases hn
            | ask hn ha hrest =>
              rw [hask] at hn
              cases hn
              obtain ⟨t'', hsil', hR'⟩ := hk _ ha
              rcases hrest.silent hsil' with hin | ⟨j'', hj'', hout'⟩
              · exact .ask hm ha (.silent hin)
              · exact .ask hm ha (ihi _ (by omega) (Nat.lt_succ_self _) hR' hout')
      | halt =>
        rw [hm] at hmatch
        cases hmatch with
        | halt hsil hhalt =>
          rcases hrun.silent hsil with hin | ⟨j', hj', hout⟩
          · exact .silent hin
          · cases hout with
            | refl =>
              refine ⟨.nil s, fun _ => .halt hm, fun hstuck => ?_⟩
              rw [hhalt] at hstuck
              cases hstuck
            | tau hn _ =>
              rw [hhalt] at hn
              cases hn
            | ask hn _ _ =>
              rw [hhalt] at hn
              cases hn
      | stuck =>
        rw [hm] at hmatch
        cases hmatch

/-- Related states behave alike. -/
theorem Matches.alike (h : Matches m n ok R rank) {s : S} {t : T} (hR : R s t)
    (tr : List (Q × A)) :
    (Trace m ok s tr ↔ Trace n ok t tr) ∧ (Ends m ok s tr ↔ Ends n ok t tr) := by
  refine ⟨⟨?_, ?_⟩, ?_, ?_⟩
  · rintro ⟨i, s', hrun⟩
    exact (h.performs hR hrun).1
  · rintro ⟨i, t', hrun⟩
    exact (h.performed _ _ (Nat.lt_succ_self i) (Nat.lt_succ_self _) hR hrun).1
  · rintro ⟨i, s', hrun, hhalt⟩
    exact (h.performs hR hrun).2 hhalt
  · rintro ⟨i, t', hrun, hhalt⟩
    exact (h.performed _ _ (Nat.lt_succ_self i) (Nat.lt_succ_self _) hR hrun).2.1 hhalt

theorem Matches.not_stuck (h : Matches m n ok R rank) {s : S} {t t' : T} {i : Nat}
    {tr : List (Q × A)} (hR : R s t) (hrun : Performs n ok i t tr t') : n t' ≠ .stuck :=
  (h.performed _ _ (Nat.lt_succ_self i) (Nat.lt_succ_self _) hR hrun).2.2

end Move

end Ucc.Lib
