/-
  Lib/Interval.lean --- lists of intervals that lie one after the other.

  `InOrder` is the property as one reads it, over all pairs of intervals and all
  of their points.  `Chain` checks it in one pass from the left, with the end of
  what has been passed; empty intervals do not count.
-/
import Mathlib.Tactic

set_option autoImplicit false

namespace Ucc.Lib

/-- The points from `start`, `width` of them. -/
structure Interval where
  start : Nat
  width : Nat
  deriving DecidableEq, Repr

/-- The points of an interval. -/
def Interval.points (r : Interval) : Finset Nat := Finset.Ico r.start (r.start + r.width)

/-- The intervals follow each other without overlap, and lie below `lim`. -/
def InOrder (lim : Nat) (rs : List Interval) : Prop :=
  rs.Pairwise (fun a b => ∀ x ∈ a.points, ∀ y ∈ b.points, x < y) ∧
    ∀ r ∈ rs, r.points ⊆ Finset.range lim

/-- Each interval that is not empty starts at or after `top`, the end of the one
before, and the last one ends by `lim`. -/
def Chain (lim : Nat) : Nat → List Interval → Prop
  | top, [] => top ≤ lim
  | top, r :: rs =>
      if r.width = 0 then Chain lim top rs
      else top ≤ r.start ∧ Chain lim (r.start + r.width) rs

theorem Interval.mem_points {r : Interval} {x : Nat} :
    x ∈ r.points ↔ r.start ≤ x ∧ x < r.start + r.width := by
  simp [Interval.points]

theorem Interval.points_empty {r : Interval} (h : r.width = 0) {x : Nat} : x ∉ r.points := by
  rw [Interval.mem_points]
  omega

theorem Chain.le_lim {lim top : Nat} {rs : List Interval} (h : Chain lim top rs) :
    top ≤ lim := by
  induction rs generalizing top with
  | nil => exact h
  | cons r rs ih =>
    unfold Chain at h
    split at h
    · exact ih h
    · have hend := ih h.2
      omega

/-- One pass from the left is enough. -/
theorem chain_iff {lim top : Nat} {rs : List Interval} :
    Chain lim top rs ↔
      top ≤ lim ∧ (∀ r ∈ rs, ∀ x ∈ r.points, top ≤ x) ∧ InOrder lim rs := by
  induction rs generalizing top with
  | nil => simp [Chain, InOrder]
  | cons r rs ih =>
    unfold Chain
    split
    · rename_i hw
      rw [ih]
      constructor
      · rintro ⟨hlim, htop, hpair, hsub⟩
        refine ⟨hlim, ?_, ?_, ?_⟩
        · intro q hq x hx
          rcases List.mem_cons.mp hq with rfl | hq
          · exact absurd hx (Interval.points_empty hw)
          · exact htop q hq x hx
        · exact List.pairwise_cons.mpr
            ⟨fun b _ x hx => absurd hx (Interval.points_empty hw), hpair⟩
        · intro q hq x hx
          rcases List.mem_cons.mp hq with rfl | hq
          · exact absurd hx (Interval.points_empty hw)
          · exact hsub q hq hx
      · rintro ⟨hlim, htop, hpair, hsub⟩
        exact ⟨hlim, fun q hq => htop q (List.mem_cons_of_mem _ hq),
          (List.pairwise_cons.mp hpair).2, fun q hq => hsub q (List.mem_cons_of_mem _ hq)⟩
    · rename_i hw
      rw [ih]
      constructor
      · rintro ⟨hstart, hlim, htop, hpair, hsub⟩
        refine ⟨by omega, ?_, ?_, ?_⟩
        · intro q hq x hx
          rcases List.mem_cons.mp hq with rfl | hq
          · exact hstart.trans (Interval.mem_points.mp hx).1
          · have hge := htop q hq x hx
            omega
        · refine List.pairwise_cons.mpr ⟨fun b hb x hx y hy => ?_, hpair⟩
          exact (Interval.mem_points.mp hx).2.trans_le (htop b hb y hy)
        · intro q hq x hx
          rcases List.mem_cons.mp hq with rfl | hq
          · exact Finset.mem_range.mpr ((Interval.mem_points.mp hx).2.trans_le hlim)
          · exact hsub q hq hx
      · rintro ⟨hlim, htop, hpair, hsub⟩
        obtain ⟨hfirst, hpair⟩ := List.pairwise_cons.mp hpair
        -- the first and the last point of the interval
        have hlo : r.start ∈ r.points := Interval.mem_points.mpr (by omega)
        have hhi : r.start + r.width - 1 ∈ r.points := Interval.mem_points.mpr (by omega)
        have hbound := Finset.mem_range.mp (hsub r List.mem_cons_self hhi)
        refine ⟨htop r List.mem_cons_self _ hlo, by omega, fun q hq y hy => ?_, hpair,
          fun q hq => hsub q (List.mem_cons_of_mem _ hq)⟩
        have hlt := hfirst q hq _ hhi y hy
        omega

theorem chain_zero_iff {lim : Nat} {rs : List Interval} : Chain lim 0 rs ↔ InOrder lim rs := by
  rw [chain_iff]
  simp

end Ucc.Lib
