/-
  Lib/Links.lean --- following pointers.

  `follow next n a` is the list of what a loop `for(i = a; i; i = i->next)` sees, of
  at most `n` turns.  A list is `Linked` when `next` leads from each element to the
  one after it, and from the last one nowhere; the loop sees such a list whole.
-/
import Mathlib.Data.Fintype.Card
import Mathlib.Tactic

set_option autoImplicit false

namespace Ucc.Lib

variable {α : Type*}

/-- What a loop along `next` sees, in at most `n` turns. -/
def follow (next : α → Option α) : Nat → Option α → List α
  | 0, _ => []
  | _ + 1, none => []
  | n + 1, some a => a :: follow next n (next a)

/-- Each element leads to the one after it. -/
def Linked (next : α → Option α) : List α → Prop
  | [] => True
  | a :: l => next a = l.head? ∧ Linked next l

variable {next : α → Option α} {a : α} {l : List α}

theorem Linked.suffix {pre : List α} (h : Linked next (pre ++ l)) : Linked next l := by
  induction pre with
  | nil => exact h
  | cons b pre ih => exact ih h.2

theorem follow_linked (h : Linked next l) {n : Nat} (hn : l.length ≤ n) :
    follow next n l.head? = l := by
  induction l generalizing n with
  | nil =>
    cases n with
    | zero => rfl
    | succ n => rfl
  | cons a l ih =>
    cases n with
    | zero => exact absurd hn (Nat.not_succ_le_zero _)
    | succ n =>
      show a :: follow next n (next a) = a :: l
      rw [h.1, ih h.2 (Nat.le_of_succ_le_succ hn)]

/-- From an element of a linked list on, the loop sees the rest of the list. -/
theorem follow_of_split {pre : List α} (h : Linked next (pre ++ a :: l)) {n : Nat}
    (hn : (a :: l).length ≤ n) : follow next n (some a) = a :: l :=
  follow_linked h.suffix hn

end Ucc.Lib
