/-
  Lib/Partial.lean --- computations with a bound on the depth of their calls.

  A function that recurses without an evident measure takes a bound on the depth
  of its calls.  Its result is a value, an error, or nothing when the bound was
  too small.  `Le` compares two results of which the second had the larger bound;
  `Grows`, `Ret` and `Halts` speak of a whole family, one result for each bound.
-/
import Mathlib.Tactic

set_option autoImplicit false

namespace Ucc.Lib

/-- A value, an error `ε`, or `none` when the calls went too deep. -/
abbrev Partial (ε : Type) := ExceptT ε Option

namespace Partial

variable {ε α β : Type}

/-- Stop with an error. -/
def die (f : ε) : Partial ε α := some (.error f)

/-- The calls went too deep. -/
def deep : Partial ε α := (none : Option (Except ε α))

/-- A step that cannot run out of depth. -/
def ofExcept (x : Except ε α) : Partial ε α := some x

theorem pure_inj {a b : α} : (pure a : Partial ε α) = pure b ↔ a = b := by
  show some (Except.ok a : Except ε α) = some (.ok b) ↔ a = b
  simp

theorem die_ne_pure (f : ε) (a : α) : (die f : Partial ε α) ≠ pure a := by
  intro h
  cases h

theorem deep_ne_pure (a : α) : (deep : Partial ε α) ≠ pure a := by
  intro h
  cases h

theorem pure_ne_deep (a : α) : (pure a : Partial ε α) ≠ deep := by
  intro h
  cases h

theorem die_ne_deep (f : ε) : (die f : Partial ε α) ≠ deep := by
  intro h
  cases h

theorem ofExcept_ne_deep (x : Except ε α) : ofExcept x ≠ deep := by
  intro h
  cases h

theorem ofExcept_eq_pure {x : Except ε α} {a : α} : ofExcept x = pure a ↔ x = .ok a := by
  show some x = some (Except.ok a : Except ε α) ↔ x = .ok a
  simp

/-- A sequence returns when both its parts do. -/
theorem bind_eq_pure {x : Partial ε α} {f : α → Partial ε β} {b : β} :
    x >>= f = pure b ↔ ∃ a, x = pure a ∧ f a = pure b := by
  constructor
  · intro h
    rcases x with _ | (e | a)
    · cases h
    · cases h
    · exact ⟨a, rfl, h⟩
  · rintro ⟨a, rfl, h⟩
    exact h

theorem bind_ne_deep {x : Partial ε α} {f : α → Partial ε β} (hx : x ≠ deep)
    (hf : ∀ a, x = pure a → f a ≠ deep) : x >>= f ≠ deep := by
  rcases x with _ | (e | a)
  · exact absurd rfl hx
  · intro h
    cases h
  · exact hf a rfl

/-- What is returned has a property. -/
def Yields (x : Partial ε α) (P : α → Prop) : Prop := ∀ a, x = pure a → P a

theorem yields_pure {P : α → Prop} {a : α} (h : P a) : Yields (pure a : Partial ε α) P :=
  fun _ hb => pure_inj.1 hb ▸ h

theorem Yields.bind {x : Partial ε α} {f : α → Partial ε β} {P : α → Prop} {Q : β → Prop}
    (hx : Yields x P) (hf : ∀ a, P a → Yields (f a) Q) : Yields (x >>= f) Q := by
  intro b hb
  obtain ⟨a, ha, hfa⟩ := bind_eq_pure.1 hb
  exact hf a (hx a ha) b hfa

/-- `y` does what `x` does, unless `x` went too deep. -/
def Le (x y : Partial ε α) : Prop := x = deep ∨ x = y

theorem Le.refl (x : Partial ε α) : x.Le x := .inr rfl

theorem Le.bind {x y : Partial ε α} {f g : α → Partial ε β} (hxy : x.Le y)
    (hfg : ∀ a, (f a).Le (g a)) : Le (x >>= f) (y >>= g) := by
  rcases hxy with rfl | rfl
  · exact .inl rfl
  · rcases x with _ | (e | a)
    · exact .inl rfl
    · exact .inr rfl
    · exact hfg a

theorem Le.pure {x y : Partial ε α} {a : α} (hxy : x.Le y) (hx : x = Pure.pure a) :
    y = Pure.pure a := by
  rcases hxy with rfl | rfl
  · exact absurd hx (deep_ne_pure a)
  · exact hx

end Partial

/-! ## Families of results, one for each bound -/

open Partial

variable {ε α β : Type}

/-- What a call returns for some bound. -/
def Ret (x : Nat → Partial ε α) (a : α) : Prop := ∃ n, x n = pure a

/-- A call comes back, with a value or with an error, for some bound. -/
def Halts (x : Nat → Partial ε α) : Prop := ∃ n, x n ≠ .deep

/-- Calls that keep what they returned under a larger bound. -/
def Grows (x : Nat → Partial ε α) : Prop := ∀ n, (x n).Le (x (n + 1))

theorem Grows.mono {x : Nat → Partial ε α} (hx : Grows x) {m n : Nat} (hmn : m ≤ n) :
    (x m).Le (x n) := by
  induction hmn with
  | refl => exact .refl _
  | step _ ih =>
    rcases ih with ih | ih
    · exact .inl ih
    · rw [ih]
      exact hx _

theorem Grows.le {x : Nat → Partial ε α} (hx : Grows x) {m n : Nat} (hmn : m ≤ n) {a : α}
    (hm : x m = pure a) : x n = pure a :=
  (hx.mono hmn).pure hm

theorem Grows.ne_deep {x : Nat → Partial ε α} (hx : Grows x) {m n : Nat} (hmn : m ≤ n)
    (hm : x m ≠ .deep) : x n ≠ .deep := by
  rcases hx.mono hmn with h | h
  · exact absurd h hm
  · rw [← h]
    exact hm

theorem Ret.unique {x : Nat → Partial ε α} (hx : Grows x) {a b : α} (ha : Ret x a)
    (hb : Ret x b) : a = b := by
  obtain ⟨m, hm⟩ := ha
  obtain ⟨n, hn⟩ := hb
  have hm' := hx.le (le_max_left m n) hm
  rw [hx.le (le_max_right m n) hn] at hm'
  exact (Partial.pure_inj.mp hm').symm

theorem ret_const {x : Partial ε α} {a : α} : Ret (fun _ => x) a ↔ x = pure a :=
  ⟨fun ⟨_, h⟩ => h, fun h => ⟨0, h⟩⟩

theorem ret_bind {x : Nat → Partial ε α} {f : α → Nat → Partial ε β} {b : β}
    (hx : Grows x) (hf : ∀ a, Grows (f a)) :
    Ret (fun n => x n >>= fun a => f a n) b ↔ ∃ a, Ret x a ∧ Ret (f a) b := by
  constructor
  · rintro ⟨n, hn⟩
    obtain ⟨a, ha, hb⟩ := Partial.bind_eq_pure.mp hn
    exact ⟨a, ⟨n, ha⟩, ⟨n, hb⟩⟩
  · rintro ⟨a, ⟨m, hm⟩, ⟨n, hn⟩⟩
    refine ⟨max m n, Partial.bind_eq_pure.mpr ⟨a, ?_, ?_⟩⟩
    · exact hx.le (le_max_left m n) hm
    · exact (hf a).le (le_max_right m n) hn

/-- A call costs one level. -/
theorem ret_call {g x : Nat → Partial ε α} (hzero : g 0 = .deep)
    (hsucc : ∀ n, g (n + 1) = x n) {a : α} : Ret g a ↔ Ret x a := by
  constructor
  · rintro ⟨n, hn⟩
    cases n with
    | zero => exact absurd (hzero.symm.trans hn) (Partial.deep_ne_pure a)
    | succ n => exact ⟨n, (hsucc n).symm.trans hn⟩
  · rintro ⟨n, hn⟩
    exact ⟨n + 1, (hsucc n).trans hn⟩

theorem halts_const {x : Partial ε α} (hx : x ≠ .deep) : Halts fun _ => x := ⟨0, hx⟩

theorem halts_call {g x : Nat → Partial ε α} (hsucc : ∀ n, g (n + 1) = x n) (hx : Halts x) :
    Halts g := by
  obtain ⟨n, hn⟩ := hx
  refine ⟨n + 1, ?_⟩
  rw [hsucc]
  exact hn

/-- A sequence comes back when its first part does, and its second part does
whatever the first returned. -/
theorem halts_bind {x : Nat → Partial ε α} {f : α → Nat → Partial ε β} (hx : Grows x)
    (hf : ∀ a, Grows (f a)) (hxh : Halts x) (hfh : ∀ a, Ret x a → Halts (f a)) :
    Halts fun n => x n >>= fun a => f a n := by
  obtain ⟨m, hm⟩ := hxh
  cases hxm : x m with
  | none => exact absurd hxm hm
  | some r =>
    cases r with
    | error e =>
      refine ⟨m, ?_⟩
      show x m >>= _ ≠ .deep
      rw [hxm]
      exact die_ne_deep e
    | ok a =>
      obtain ⟨k, hk⟩ := hfh a ⟨m, hxm⟩
      refine ⟨max m k, ?_⟩
      have hxa : x (max m k) = pure a := hx.le (le_max_left m k) hxm
      show x (max m k) >>= _ ≠ .deep
      rw [hxa]
      exact (hf a).ne_deep (le_max_right m k) hk

theorem grows_const (x : Partial ε α) : Grows fun _ => x := fun _ => .refl _

theorem Grows.bind {x : Nat → Partial ε α} {f : α → Nat → Partial ε β}
    (hx : Grows x) (hf : ∀ a, Grows (f a)) : Grows fun n => x n >>= fun a => f a n :=
  fun n => (hx n).bind fun a => hf a n

/-! ## Every bound that is large enough -/

/-- What a call returns for every bound that is large enough. -/
def Settles (x : Nat → Partial ε α) (a : α) : Prop := ∃ n, ∀ m, n ≤ m → x m = pure a

theorem settles_of_forall {x : Nat → Partial ε α} {a : α} (h : ∀ n, x n = pure a) : Settles x a :=
  ⟨0, fun n _ => h n⟩

theorem Settles.unique {x : Nat → Partial ε α} {a b : α} (ha : Settles x a) (hb : Settles x b) :
    a = b := by
  obtain ⟨m, hm⟩ := ha
  obtain ⟨n, hn⟩ := hb
  have hboth := (hm (max m n) (le_max_left m n)).symm.trans (hn (max m n) (le_max_right m n))
  exact Partial.pure_inj.mp hboth

/-- A call costs one level. -/
theorem Settles.call {g x : Nat → Partial ε α} {a : α} (hx : Settles x a)
    (hsucc : ∀ n, g (n + 1) = x n) : Settles g a := by
  obtain ⟨n, hn⟩ := hx
  refine ⟨n + 1, fun m hm => ?_⟩
  obtain ⟨k, rfl⟩ : ∃ k, m = k + 1 := ⟨m - 1, by omega⟩
  rw [hsucc]
  exact hn k (by omega)

theorem Settles.bind {x : Nat → Partial ε α} {f : Nat → α → Partial ε β} {a : α} {b : β}
    (hx : Settles x a) (hf : Settles (fun n => f n a) b) : Settles (fun n => x n >>= f n) b := by
  obtain ⟨m, hm⟩ := hx
  obtain ⟨n, hn⟩ := hf
  refine ⟨max m n, fun k hk => Partial.bind_eq_pure.mpr ⟨a, ?_, ?_⟩⟩
  · exact hm k (le_trans (le_max_left m n) hk)
  · exact hn k (le_trans (le_max_right m n) hk)

end Ucc.Lib
