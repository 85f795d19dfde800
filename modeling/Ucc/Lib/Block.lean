/-
  Lib/Block.lean --- blocks of memory.

  A block is the list of its cells.  An access outside of it has no result.  The
  lemmas take a block apart at the place of the access.
-/
import Mathlib.Tactic

set_option autoImplicit false

namespace Ucc.Lib

variable {α : Type}

/-- `b[i] = v` -/
def store (b : List α) (i : Nat) (v : α) : Option (List α) :=
  if i < b.length then some (b.set i v) else none

/-- `memcpy(b + dst, src, n)`, from another block. -/
def memcpy (b : List α) (dst : Nat) (src : List α) (n : Nat) : Option (List α) :=
  if dst + n ≤ b.length ∧ n ≤ src.length then some (b.take dst ++ src.take n ++ b.drop (dst + n))
  else none

/-- `memmove(b + dst, b + src, n)` -/
def memmove (b : List α) (dst src n : Nat) : Option (List α) :=
  if src ≤ b.length then memcpy b dst (b.drop src) n else none

/-- A block, taken apart at one of its cells. -/
theorem exists_split {b : List α} {i : Nat} {v : α} (h : b[i]? = some v) :
    ∃ front back, b = front ++ v :: back ∧ front.length = i := by
  obtain ⟨hi, hv⟩ := List.getElem?_eq_some_iff.mp h
  refine ⟨b.take i, b.drop (i + 1), ?_, by simp; omega⟩
  rw [← hv, List.getElem_cons_drop, List.take_append_drop]

theorem store_eq {b front back : List α} {v w : α} {i : Nat} (hb : b = front ++ w :: back)
    (hi : i = front.length) : store b i v = some (front ++ v :: back) := by
  subst hb hi
  simp [store]

theorem memcpy_eq {b front mid back src : List α} {dst n : Nat} (hb : b = front ++ mid ++ back)
    (hdst : dst = front.length) (hmid : n = mid.length) (hn : n ≤ src.length) :
    memcpy b dst src n = some (front ++ src.take n ++ back) := by
  subst hb hdst
  unfold memcpy
  rw [if_pos ⟨by simp [hmid], hn⟩]
  simp [hmid]

/-- The block moves up by one cell. -/
theorem memmove_up {b front mid back : List α} {c : α} {dst src n : Nat}
    (hb : b = front ++ (mid ++ c :: back)) (hsrc : src = front.length) (hdst : dst = src + 1)
    (hn : n = mid.length) :
    memmove b dst src n = some (front ++ ((mid ++ [c]).take 1 ++ (mid ++ back))) := by
  subst hb hsrc hdst hn
  have hsplit : front ++ (mid ++ c :: back) =
      (front ++ (mid ++ [c]).take 1) ++ (mid ++ [c]).drop 1 ++ back := by
    rw [List.append_assoc front, List.take_append_drop]
    simp
  unfold memmove
  rw [if_pos (by simp), memcpy_eq hsplit (by simp) (by simp) (by simp)]
  simp

/-- The block moves down by one cell. -/
theorem memmove_down {b front mid back : List α} {c : α} {dst src n : Nat}
    (hb : b = front ++ c :: (mid ++ back)) (hdst : dst = front.length) (hsrc : src = dst + 1)
    (hn : n = mid.length) :
    memmove b dst src n = some (front ++ (mid ++ ((c :: mid).drop n ++ back))) := by
  subst hb hdst hsrc hn
  have hsplit : front ++ c :: (mid ++ back) =
      front ++ (c :: mid).take mid.length ++ ((c :: mid).drop mid.length ++ back) := by
    rw [List.append_assoc front, ← List.append_assoc (List.take _ _), List.take_append_drop]
    rfl
  unfold memmove
  rw [if_pos (by simp), memcpy_eq hsplit rfl (by simp) (by simp)]
  simp

end Ucc.Lib
