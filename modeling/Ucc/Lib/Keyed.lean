/-
  Lib/Keyed.lean --- lists of keyed entries.

  The keys are compared by a test of their own, which need not be equality.  A
  list in which no two keys are the same is a finite map; the lemmas say how
  putting an entry in the middle of such a list, or taking one out, changes what
  is found.
-/
import Mathlib.Tactic

set_option autoImplicit false

namespace Ucc.Lib

/-- A test for keys that are to be taken as one. -/
structure KeyTest (K : Type) where
  same : K → K → Bool
  refl : ∀ k, same k k = true
  symm : ∀ {a b}, same a b = true → same b a = true
  trans : ∀ {a b c}, same a b = true → same b c = true → same a c = true

namespace KeyTest

variable {K : Type} (T : KeyTest K)

theorem comm (a b : K) : T.same a b = T.same b a := by
  rw [Bool.eq_iff_iff]
  exact ⟨T.symm, T.symm⟩

/-- The same key, to the left of the test. -/
theorem congr_left {a b : K} (h : T.same a b = true) (k : K) : T.same a k = T.same b k := by
  rw [Bool.eq_iff_iff]
  exact ⟨T.trans (T.symm h), T.trans h⟩

/-- The same key, to the right of the test. -/
theorem congr_right {a b : K} (h : T.same a b = true) (k : K) : T.same k a = T.same k b := by
  rw [T.comm k a, T.comm k b]
  exact T.congr_left h k

end KeyTest

variable {K W : Type} (T : KeyTest K)

/-- The value under a key. -/
def lookup (l : List (K × W)) (k : K) : Option W :=
  (l.find? fun e => T.same e.1 k).map Prod.snd

/-- No two entries have the same key. -/
def Distinct (l : List (K × W)) : Prop :=
  l.Pairwise fun a b => T.same a.1 b.1 = false

@[simp] theorem lookup_nil (k : K) : lookup T ([] : List (K × W)) k = none := rfl

theorem lookup_cons (e : K × W) (l : List (K × W)) (k : K) :
    lookup T (e :: l) k = if T.same e.1 k then some e.2 else lookup T l k := by
  unfold lookup
  rw [List.find?_cons]
  cases T.same e.1 k <;> rfl

theorem lookup_append (l l' : List (K × W)) (k : K) :
    lookup T (l ++ l') k = (lookup T l k).or (lookup T l' k) := by
  unfold lookup
  rw [List.find?_append]
  cases List.find? (fun e => T.same e.1 k) l <;> rfl

theorem lookup_eq_none {l : List (K × W)} {k : K} :
    lookup T l k = none ↔ ∀ e ∈ l, T.same e.1 k = false := by
  simp [lookup]

theorem lookup_isSome {l : List (K × W)} {k : K} :
    (lookup T l k).isSome = true ↔ ∃ e ∈ l, T.same e.1 k = true := by
  simp [lookup]

theorem lookup_congr {a b : K} (h : T.same a b = true) (l : List (K × W)) :
    lookup T l a = lookup T l b := by
  unfold lookup
  simp only [T.congr_right h]

/-- An entry in the middle is found under its key, and hides nothing else. -/
theorem lookup_middle {pre post : List (K × W)} {k : K} {w : W}
    (hpre : ∀ e ∈ pre, T.same e.1 k = false) (q : K) :
    lookup T (pre ++ (k, w) :: post) q =
      if T.same k q then some w else lookup T (pre ++ post) q := by
  rw [lookup_append, lookup_append, lookup_cons]
  cases hk : T.same k q with
  | false => simp
  | true =>
    have hnone : lookup T pre q = none := by
      rw [lookup_eq_none]
      intro e he
      rw [← T.congr_right hk]
      exact hpre e he
    simp [hnone]

/-- Where keys do not repeat, an entry is found under its key. -/
theorem lookup_of_mem {l : List (K × W)} (hl : Distinct T l) {e : K × W} (he : e ∈ l) :
    lookup T l e.1 = some e.2 := by
  obtain ⟨pre, post, rfl⟩ := List.append_of_mem he
  have hpre : ∀ d ∈ pre, T.same d.1 e.1 = false := by
    intro d hd
    exact (List.pairwise_append.1 hl).2.2 d hd e List.mem_cons_self
  rw [lookup_middle T hpre, T.refl]
  simp

variable {T}

/-- What stands around an entry has other keys. -/
theorem Distinct.around {pre post : List (K × W)} {e : K × W}
    (h : Distinct T (pre ++ e :: post)) : ∀ d ∈ pre ++ post, T.same d.1 e.1 = false := by
  obtain ⟨hpre, hpost, hcross⟩ := List.pairwise_append.1 h
  intro d hd
  rcases List.mem_append.1 hd with hd | hd
  · exact hcross d hd e List.mem_cons_self
  · rw [T.comm]
    exact List.rel_of_pairwise_cons hpost hd

/-- Taking an entry out. -/
theorem Distinct.remove {pre post : List (K × W)} {e : K × W}
    (h : Distinct T (pre ++ e :: post)) : Distinct T (pre ++ post) :=
  h.sublist (List.Sublist.append_left (List.sublist_cons_self e post) pre)

/-- Giving an entry another value. -/
theorem Distinct.update {pre post : List (K × W)} {k : K} {w w' : W}
    (h : Distinct T (pre ++ (k, w) :: post)) : Distinct T (pre ++ (k, w') :: post) := by
  unfold Distinct at *
  rw [List.pairwise_append, List.pairwise_cons] at *
  simpa using h

/-- Adding an entry at the end. -/
theorem Distinct.concat {l : List (K × W)} {k : K} {w : W} (h : Distinct T l)
    (hk : ∀ e ∈ l, T.same e.1 k = false) : Distinct T (l ++ [(k, w)]) := by
  unfold Distinct
  rw [List.pairwise_append]
  refine ⟨h, List.pairwise_singleton _ _, ?_⟩
  intro e he d hd
  rw [List.mem_singleton.1 hd]
  exact hk e he

end Ucc.Lib
