/-
  Lib/Intern.lean --- sharing by searching what has been made before.

  Entries are kept in the order in which they were made.  A request returns the
  first entry that its test accepts, and makes a new one when there is none; a
  test may also fail.  Nothing is ever removed, so what a request has returned
  stays the first match of every request that tests alike.
-/
import Mathlib.Data.List.Basic

set_option autoImplicit false

namespace Ucc.Lib

variable {α : Type}

/-- The index of the first entry that passes the test. -/
def firstMatch (test : α → Option Bool) : List α → Option (Option Nat)
  | [] => some none
  | x :: xs =>
      match test x with
      | none => none
      | some true => some (some 0)
      | some false => (firstMatch test xs).map (Option.map Nat.succ)

/-- The first entry that passes the test, or a new one. -/
def intern (test : α → Option Bool) (new : α) (xs : List α) : Option (List α × Nat) :=
  match firstMatch test xs with
  | none => none
  | some (some i) => some (xs, i)
  | some none => some (xs ++ [new], xs.length)

/-- The entry at `i` is the first that passes the test. -/
def FirstAt (test : α → Option Bool) (xs : List α) (i : Nat) : Prop :=
  (∃ x, xs[i]? = some x ∧ test x = some true) ∧
    ∀ j < i, ∀ y, xs[j]? = some y → test y = some false

theorem firstMatch_spec (test : α → Option Bool) (xs : List α) {found : Option Nat}
    (h : firstMatch test xs = some found) :
    (∀ i, found = some i → FirstAt test xs i) ∧
      (found = none → ∀ x ∈ xs, test x = some false) := by
  induction xs generalizing found with
  | nil =>
    obtain rfl := Option.some.inj h
    exact ⟨by simp, by simp⟩
  | cons x xs ih =>
    rw [firstMatch] at h
    cases htest : test x with
    | none =>
      rw [htest] at h
      cases h
    | some b =>
      cases b with
      | true =>
        rw [htest] at h
        obtain rfl := Option.some.inj h
        refine ⟨?_, fun hnone => nomatch hnone⟩
        rintro i hi
        obtain rfl := Option.some.inj hi
        exact ⟨⟨x, rfl, htest⟩, fun j hj => absurd hj (Nat.not_lt_zero j)⟩
      | false =>
        rw [htest] at h
        obtain ⟨rest, hrest, rfl⟩ := Option.map_eq_some_iff.1 h
        obtain ⟨hsome, hnone⟩ := ih hrest
        refine ⟨?_, ?_⟩
        · intro i hi
          obtain ⟨k, rfl, rfl⟩ := Option.map_eq_some_iff.1 hi
          obtain ⟨hat, hbefore⟩ := hsome k rfl
          refine ⟨hat, ?_⟩
          intro j hj y hy
          cases j with
          | zero =>
            obtain rfl := Option.some.inj hy
            exact htest
          | succ j => exact hbefore j (Nat.lt_of_succ_lt_succ hj) y hy
        · intro hi y hy
          rcases List.mem_cons.1 hy with rfl | hy
          · exact htest
          · exact hnone (Option.map_eq_none_iff.1 hi) y hy

/-- A request fails only where a test does. -/
theorem exists_intern (test : α → Option Bool) {xs : List α} (new : α)
    (h : ∀ x ∈ xs, (test x).isSome = true) : ∃ xs' i, intern test new xs = some (xs', i) := by
  have hfirst : ∃ found, firstMatch test xs = some found := by
    induction xs with
    | nil => exact ⟨_, rfl⟩
    | cons x xs ih =>
      obtain ⟨hx, hxs⟩ := List.forall_mem_cons.1 h
      obtain ⟨b, hb⟩ := Option.isSome_iff_exists.1 hx
      obtain ⟨found, hfound⟩ := ih hxs
      rw [firstMatch, hb, hfound]
      cases b with
      | true => exact ⟨_, rfl⟩
      | false => exact ⟨_, rfl⟩
  obtain ⟨found, hfound⟩ := hfirst
  rw [intern, hfound]
  cases found with
  | none => exact ⟨_, _, rfl⟩
  | some i => exact ⟨_, _, rfl⟩

/-- What is returned is the first match, among the entries that there are then;
a new one must pass its own test for that. -/
theorem intern_firstAt {test : α → Option Bool} {new : α} {xs xs' : List α} {i : Nat}
    (h : intern test new xs = some (xs', i)) (hnew : test new = some true) :
    FirstAt test xs' i := by
  unfold intern at h
  split at h
  · cases h
  · rename_i k hk
    obtain ⟨rfl, rfl⟩ := Prod.mk.inj (Option.some.inj h)
    exact (firstMatch_spec test xs hk).1 k rfl
  · rename_i hk
    obtain ⟨rfl, rfl⟩ := Prod.mk.inj (Option.some.inj h)
    have hnone := (firstMatch_spec test xs hk).2 rfl
    refine ⟨⟨new, List.getElem?_concat_length, hnew⟩, ?_⟩
    intro j hj y hy
    rw [List.getElem?_append_left hj] at hy
    exact hnone y (List.mem_of_getElem? hy)

/-- An entry that was there before passes the test. -/
theorem intern_existing {test : α → Option Bool} {new : α} {xs xs' : List α} {i : Nat}
    (h : intern test new xs = some (xs', i)) (hi : i < xs.length) :
    ∃ x, xs[i]? = some x ∧ test x = some true := by
  unfold intern at h
  split at h
  · cases h
  · rename_i k hk
    obtain ⟨rfl, rfl⟩ := Prod.mk.inj (Option.some.inj h)
    exact ((firstMatch_spec test xs hk).1 k rfl).1
  · obtain ⟨-, rfl⟩ := Prod.mk.inj (Option.some.inj h)
    exact absurd hi (Nat.lt_irrefl _)

/-- The entries stay; at most one is added, and it is the one returned. -/
theorem intern_entries {test : α → Option Bool} {new : α} {xs xs' : List α} {i : Nat}
    (h : intern test new xs = some (xs', i)) :
    (xs' = xs ∧ i < xs.length) ∨ (xs' = xs ++ [new] ∧ i = xs.length) := by
  unfold intern at h
  split at h
  · cases h
  · rename_i k hk
    obtain ⟨rfl, rfl⟩ := Prod.mk.inj (Option.some.inj h)
    obtain ⟨x, hx, -⟩ := ((firstMatch_spec test xs hk).1 k rfl).1
    exact .inl ⟨rfl, (List.getElem?_eq_some_iff.1 hx).1⟩
  · obtain ⟨rfl, rfl⟩ := Prod.mk.inj (Option.some.inj h)
    exact .inr ⟨rfl, rfl⟩

/-- The first match stays the first match of a test that agrees with the first
one on what was there. -/
theorem FirstAt.intern_eq {test test' : α → Option Bool} {xs ys ys' : List α} {i k : Nat} {new : α}
    (hfirst : FirstAt test xs i) (hxs : xs <+: ys)
    (hagree : ∀ x ∈ xs, ∀ b b', test x = some b → test' x = some b' → b = b')
    (h : intern test' new ys = some (ys', k)) : k = i := by
  obtain ⟨⟨x, hx, htest⟩, hbefore⟩ := hfirst
  have hsame : ∀ (j : Nat) y, xs[j]? = some y → ys[j]? = some y := by
    intro j y hy
    obtain ⟨zs, rfl⟩ := hxs
    rwa [List.getElem?_append_left (List.getElem?_eq_some_iff.1 hy).1]
  have hi : i < xs.length := (List.getElem?_eq_some_iff.1 hx).1
  unfold intern at h
  split at h
  · cases h
  · rename_i m hm
    obtain ⟨rfl, rfl⟩ := Prod.mk.inj (Option.some.inj h)
    obtain ⟨⟨y, hy, hytest⟩, hybefore⟩ := (firstMatch_spec test' ys hm).1 m rfl
    rcases Nat.lt_trichotomy m i with hlt | rfl | hgt
    · -- an entry before `i` fails the one test, and so the other
      have hym : xs[m]? = some y := by
        obtain ⟨z, hz⟩ : ∃ z, xs[m]? = some z := ⟨_, List.getElem?_eq_getElem (Nat.lt_trans hlt hi)⟩
        rw [hsame m z hz] at hy
        rw [hz, hy]
      cases hagree y (List.mem_of_getElem? hym) _ _ (hbefore m hlt y hym) hytest
    · rfl
    · cases hagree x (List.mem_of_getElem? hx) _ _ htest (hybefore i hgt x (hsame i x hx))
  · rename_i hm
    have hnone := (firstMatch_spec test' ys hm).2 rfl x (List.mem_of_getElem? (hsame i x hx))
    cases hagree x (List.mem_of_getElem? hx) _ _ htest hnone

end Ucc.Lib
