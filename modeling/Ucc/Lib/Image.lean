/-
  Lib/Image.lean --- the bits of a sequence of bytes.

  Bit `k` is bit `k % 8` of the byte at `k / 8`, so a number with its low byte first
  has its own bits in order.  `Lies` says that bytes are found at a place of a larger
  image, whatever is around them.
-/
import Mathlib.Data.List.GetD
import Mathlib.Tactic

set_option autoImplicit false

namespace Ucc.Lib

/-- Bit `k` of a sequence of bytes. -/
def bitAt (bs : List (BitVec 8)) (k : Nat) : Bool := (bs.getD (k / 8) 0).getLsbD (k % 8)

/-- The first `n` bytes of a number, the low one first. -/
def leBytes {w : Nat} (n : Nat) (v : BitVec w) : List (BitVec 8) :=
  (List.range n).map fun i => v.extractLsb' (8 * i) 8

/-- The bytes `bs` are in the image from byte `pos` on. -/
def Lies (image : Nat → Bool) (pos : Nat) (bs : List (BitVec 8)) : Prop :=
  ∀ k < 8 * bs.length, image (8 * pos + k) = bitAt bs k

variable {image : Nat → Bool} {pos : Nat}

@[simp] theorem length_leBytes {w : Nat} (n : Nat) (v : BitVec w) : (leBytes n v).length = n := by
  simp [leBytes]

theorem bitAt_append_left {a b : List (BitVec 8)} {k : Nat} (hk : k < 8 * a.length) :
    bitAt (a ++ b) k = bitAt a k := by
  have hdiv : k / 8 < a.length := by omega
  unfold bitAt
  rw [List.getD_append a b 0 (k / 8) hdiv]

theorem bitAt_append_right (a b : List (BitVec 8)) (k : Nat) :
    bitAt (a ++ b) (8 * a.length + k) = bitAt b k := by
  have hdiv : (8 * a.length + k) / 8 = a.length + k / 8 := by omega
  have hmod : (8 * a.length + k) % 8 = k % 8 := by omega
  unfold bitAt
  rw [hdiv, hmod, List.getD_append_right a b 0 _ (by omega), Nat.add_sub_cancel_left]

theorem bitAt_replicate_zero (n k : Nat) : bitAt (List.replicate n 0) k = false := by
  unfold bitAt
  by_cases hk : k / 8 < n
  · rw [List.getD_replicate 0 hk]
    simp
  · rw [List.getD_eq_default _ _ (by simpa using hk)]
    simp

theorem bitAt_leBytes {w n k : Nat} (v : BitVec w) (hk : k < 8 * n) :
    bitAt (leBytes n v) k = v.getLsbD k := by
  have hdiv : k / 8 < n := by omega
  have hsum : 8 * (k / 8) + k % 8 = k := by omega
  unfold bitAt leBytes
  rw [List.getD_eq_getElem _ _ (by simpa using hdiv)]
  simp only [List.getElem_map, List.getElem_range, BitVec.getLsbD_extractLsb', hsum]
  simp [Nat.mod_lt]

theorem lies_self (bs : List (BitVec 8)) : Lies (bitAt bs) 0 bs := by
  intro k _
  rw [Nat.mul_zero, Nat.zero_add]

@[simp] theorem lies_nil : Lies image pos [] := by
  intro k hk
  simp at hk

theorem lies_append {a b : List (BitVec 8)} :
    Lies image pos (a ++ b) ↔ Lies image pos a ∧ Lies image (pos + a.length) b := by
  constructor
  · intro h
    constructor
    · intro k hk
      rw [h k (by rw [List.length_append]; omega), bitAt_append_left hk]
    · intro k hk
      have hpos : 8 * (pos + a.length) + k = 8 * pos + (8 * a.length + k) := by omega
      rw [hpos, h _ (by rw [List.length_append]; omega), bitAt_append_right]
  · rintro ⟨ha, hb⟩ k hk
    rw [List.length_append] at hk
    by_cases hlt : k < 8 * a.length
    · rw [ha k hlt, bitAt_append_left hlt]
    · obtain ⟨j, rfl⟩ := Nat.exists_eq_add_of_le (Nat.not_lt.mp hlt)
      have hpos : 8 * pos + (8 * a.length + j) = 8 * (pos + a.length) + j := by omega
      rw [hpos, hb j (by omega), bitAt_append_right]

theorem lies_zeros {n : Nat} :
    Lies image pos (List.replicate n 0) ↔ ∀ k < 8 * n, image (8 * pos + k) = false := by
  unfold Lies
  simp only [List.length_replicate, bitAt_replicate_zero]

theorem lies_leBytes {w n : Nat} {v : BitVec w} :
    Lies image pos (leBytes n v) ↔ ∀ k < 8 * n, image (8 * pos + k) = v.getLsbD k := by
  unfold Lies
  simp only [length_leBytes]
  refine forall_congr' fun k => forall_congr' fun hk => ?_
  rw [bitAt_leBytes v hk]

end Ucc.Lib
