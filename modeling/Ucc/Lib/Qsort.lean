/-
  Lib/Qsort.lean --- sorting by a comparison function.

  `Sorts cmp xs ys` is what the C library says of `qsort`: where the comparison is
  `Consistent` on the elements, `ys` has the elements of `xs` in its order, those that
  compare equal in any order.  Where it is not, nothing is said.

  A loop over the neighbours of a sorted list finds a pair exactly if no chain of the
  opposite relation runs through the list.
-/
import Mathlib.Data.List.Chain
import Mathlib.Order.Defs.LinearOrder
import Mathlib.Tactic

set_option autoImplicit false

namespace Ucc.Lib

variable {α : Type*}

/-- The comparison orders the elements of `xs`. -/
structure Consistent (cmp : α → α → Ordering) (xs : List α) : Prop where
  swap : ∀ a ∈ xs, ∀ b ∈ xs, (cmp a b).swap = cmp b a
  trans : ∀ a ∈ xs, ∀ b ∈ xs, ∀ c ∈ xs,
    (cmp a b).isLE = true → (cmp b c).isLE = true → (cmp a c).isLE = true

/-- `qsort` -/
def Sorts (cmp : α → α → Ordering) (xs ys : List α) : Prop :=
  Consistent cmp xs → ys.Perm xs ∧ ys.Pairwise fun a b => (cmp a b).isLE = true

/-- Each element with the one after it. -/
def neighbours (l : List α) : List (α × α) := l.zip l.tail

theorem neighbours_cons (a b : α) (l : List α) :
    neighbours (a :: b :: l) = (a, b) :: neighbours (b :: l) := rfl

variable {cmp : α → α → Ordering} {xs ys : List α}

theorem Consistent.of_subset (h : Consistent cmp xs) (hsub : ∀ a ∈ ys, a ∈ xs) :
    Consistent cmp ys where
  swap a ha b hb := h.swap a (hsub a ha) b (hsub b hb)
  trans a ha b hb c hc := h.trans a (hsub a ha) b (hsub b hb) c (hsub c hc)

/-- A pair of neighbours is in a relation, unless a chain of the opposite runs through. -/
theorem exists_neighbours_iff {R : α → α → Prop} (l : List α) :
    (∃ p ∈ neighbours l, R p.1 p.2) ↔ ¬ l.IsChain fun a b => ¬ R a b := by
  induction l with
  | nil => simp [neighbours]
  | cons a l ih =>
    cases l with
    | nil => simp [neighbours]
    | cons b l =>
      rw [neighbours_cons, List.isChain_cons_cons, not_and_or, not_not, ← ih]
      simp only [List.mem_cons, exists_eq_or_imp]

/-- Elements of a sorted list are in a relation if the neighbours are, where it goes with
the order. -/
theorem pairwise_of_isChain {R : α → α → Prop}
    (hsorted : ys.Pairwise fun a b => (cmp a b).isLE = true) (hchain : ys.IsChain R)
    (htrans : ∀ a ∈ ys, ∀ b ∈ ys, ∀ c ∈ ys, (cmp a b).isLE = true → (cmp b c).isLE = true →
      R a b → R b c → R a c) : ys.Pairwise R := by
  induction ys with
  | nil => exact .nil
  | cons a l ih =>
    obtain ⟨hfirst, hrest⟩ := List.pairwise_cons.mp hsorted
    have hl := ih hrest hchain.tail fun x hx y hy z hz =>
      htrans x (List.mem_cons_of_mem _ hx) y (List.mem_cons_of_mem _ hy) z
        (List.mem_cons_of_mem _ hz)
    refine List.pairwise_cons.mpr ⟨fun c hc => ?_, hl⟩
    cases l with
    | nil => cases hc
    | cons b l =>
      have hab : R a b := (List.isChain_cons_cons.mp hchain).1
      rcases List.mem_cons.mp hc with rfl | hc'
      · exact hab
      · exact htrans a List.mem_cons_self b (List.mem_cons_of_mem _ List.mem_cons_self) c
          (List.mem_cons_of_mem _ hc) (hfirst b List.mem_cons_self)
          ((List.pairwise_cons.mp hrest).1 c hc') hab ((List.pairwise_cons.mp hl).1 c hc')

/-- Neighbours that compare equal are there if any two elements do. -/
theorem equal_neighbours_iff (h : Consistent cmp ys)
    (hsorted : ys.Pairwise fun a b => (cmp a b).isLE = true) :
    (∃ p ∈ neighbours ys, cmp p.1 p.2 = .eq) ↔ ¬ ys.Pairwise fun a b => cmp a b ≠ .eq := by
  rw [exists_neighbours_iff (R := fun a b => cmp a b = .eq), not_iff_not]
  refine ⟨fun hchain => pairwise_of_isChain hsorted hchain ?_, fun hpair => hpair.isChain⟩
  intro a ha b hb c hc hable hbc hab _ hac
  -- `a` compares with `c` as with `b`, which is not above `c`
  have hca : (cmp c a).isLE = true := by
    rw [← h.swap a ha c hc, hac]
    rfl
  have hba := h.trans b hb c hc a ha hbc hca
  rw [← h.swap a ha b hb] at hba
  cases hcmp : cmp a b with
  | lt =>
    rw [hcmp] at hba
    cases hba
  | eq => exact hab hcmp
  | gt =>
    rw [hcmp] at hable
    cases hable

/-- There is an order to sort a list in. -/
theorem exists_sorted (h : Consistent cmp xs) :
    ∃ ys : List α, ys.Perm xs ∧ ys.Pairwise fun a b => (cmp a b).isLE = true := by
  let le : {a // a ∈ xs} → {a // a ∈ xs} → Bool := fun a b => (cmp a.1 b.1).isLE
  have htrans : ∀ a b c, le a b = true → le b c = true → le a c = true := fun a b c =>
    h.trans a.1 a.2 b.1 b.2 c.1 c.2
  have htotal : ∀ a b, (le a b || le b a) = true := by
    intro a b
    show ((cmp a.1 b.1).isLE || (cmp b.1 a.1).isLE) = true
    rw [← h.swap a.1 a.2 b.1 b.2]
    cases cmp a.1 b.1 <;> rfl
  refine ⟨(xs.attach.mergeSort le).map Subtype.val, ?_, ?_⟩
  · have hperm := (List.mergeSort_perm xs.attach le).map Subtype.val
    rwa [List.attach_map_subtype_val] at hperm
  · rw [List.pairwise_map]
    exact List.pairwise_mergeSort htrans htotal _

/-! ## Neighbours -/

theorem mem_neighbours_cons {a b c : α} {l : List α} (h : (a, b) ∈ neighbours l) :
    (a, b) ∈ neighbours (c :: l) := by
  cases l with
  | nil => cases h
  | cons d l =>
    rw [neighbours_cons]
    exact List.mem_cons_of_mem _ h

/-- Neighbours are in order. -/
theorem sublist_of_neighbours {a b : α} {l : List α} (h : (a, b) ∈ neighbours l) :
    [a, b].Sublist l := by
  induction l with
  | nil => cases h
  | cons c l ih =>
    cases l with
    | nil => cases h
    | cons d l =>
      rw [neighbours_cons, List.mem_cons] at h
      rcases h with h | h
      · obtain ⟨rfl, rfl⟩ := Prod.mk.inj h
        exact (List.nil_sublist l).cons_cons b |>.cons_cons a
      · exact (ih h).cons c

/-- Two different elements are in one order or the other. -/
theorem sublist_or_sublist {a b : α} {l : List α} (ha : a ∈ l) (hb : b ∈ l) (hne : a ≠ b) :
    [a, b].Sublist l ∨ [b, a].Sublist l := by
  induction l with
  | nil => cases ha
  | cons c l ih =>
    rcases List.mem_cons.mp ha with rfl | ha'
    · have hb' := (List.mem_cons.mp hb).resolve_left (Ne.symm hne)
      exact Or.inl ((List.singleton_sublist.mpr hb').cons_cons a)
    · rcases List.mem_cons.mp hb with rfl | hb'
      · exact Or.inr ((List.singleton_sublist.mpr ha').cons_cons b)
      · exact (ih ha' hb').imp (List.Sublist.cons c) (List.Sublist.cons c)

/-- No element is between two neighbours. -/
theorem outside_neighbours {a b x : α} {l : List α} (h : (a, b) ∈ neighbours l) (hx : x ∈ l) :
    ([x, a].Sublist l ∨ x = a) ∨ x = b ∨ [b, x].Sublist l := by
  induction l with
  | nil => cases hx
  | cons c l ih =>
    cases l with
    | nil => cases h
    | cons d l =>
      rw [neighbours_cons, List.mem_cons] at h
      rcases h with h | h
      · obtain ⟨rfl, rfl⟩ := Prod.mk.inj h
        rcases List.mem_cons.mp hx with rfl | hx
        · exact Or.inl (Or.inr rfl)
        · rcases List.mem_cons.mp hx with rfl | hx
          · exact Or.inr (Or.inl rfl)
          · exact Or.inr (Or.inr (((List.singleton_sublist.mpr hx).cons_cons b).cons a))
      · rcases List.mem_cons.mp hx with rfl | hx
        · have ha := (sublist_of_neighbours h).subset List.mem_cons_self
          exact Or.inl (Or.inl ((List.singleton_sublist.mpr ha).cons_cons x))
        · exact (ih h hx).imp (Or.imp_left (List.Sublist.cons c))
            (Or.imp_right (List.Sublist.cons c))

/-- The element after an earlier one is the later one, or between the two. -/
theorem exists_next {a b : α} {l : List α} (h : [a, b].Sublist l) :
    ∃ c, (a, c) ∈ neighbours l ∧ (c = b ∨ [c, b].Sublist l) := by
  induction l with
  | nil => cases h
  | cons d l ih =>
    cases h with
    | cons _ h =>
      obtain ⟨c, hc, hcb⟩ := ih h
      exact ⟨c, mem_neighbours_cons hc, hcb.imp_right (List.Sublist.cons d)⟩
    | cons_cons _ h =>
      cases l with
      | nil => cases h
      | cons c l =>
        refine ⟨c, List.mem_cons_self, ?_⟩
        rcases List.mem_cons.mp (List.singleton_sublist.mp h) with rfl | hb
        · exact Or.inl rfl
        · exact Or.inr (((List.singleton_sublist.mpr hb).cons_cons c).cons a)

/-- Where a property is lost on the way from one element to a later one, neighbours
differ in it. -/
theorem exists_change {P : α → Prop} {a b : α} {l : List α} (h : [a, b].Sublist l) (ha : P a)
    (hb : ¬ P b) : ∃ x y, (x, y) ∈ neighbours l ∧ P x ∧ ¬ P y := by
  induction l generalizing a with
  | nil => cases h
  | cons d l ih =>
    have hlater : ∀ c, P c → [c, b].Sublist l →
        ∃ x y, (x, y) ∈ neighbours (d :: l) ∧ P x ∧ ¬ P y := by
      intro c hc hsub
      obtain ⟨x, y, hxy, hdiff⟩ := ih hsub hc
      exact ⟨x, y, mem_neighbours_cons hxy, hdiff⟩
    cases h with
    | cons _ h => exact hlater a ha h
    | cons_cons _ h =>
      cases l with
      | nil => cases h
      | cons c l =>
        by_cases hc : P c
        · rcases List.mem_cons.mp (List.singleton_sublist.mp h) with rfl | hmem
          · exact absurd hc hb
          · exact hlater c hc ((List.singleton_sublist.mpr hmem).cons_cons c)
        · exact ⟨d, c, List.mem_cons_self, ha, hc⟩

/-- Elements that compare equal can be ordered by a key. -/
theorem Consistent.thenKey (h : Consistent cmp xs) (key : α → Int) :
    Consistent (fun a b => (cmp a b).then (compare (key a) (key b))) xs where
  swap a ha b hb := by
    rw [Ordering.swap_then, h.swap a ha b hb, ← Std.OrientedCmp.eq_swap]
  trans a ha b hb c hc hab hbc := by
    have hle : ∀ x y : α, ((cmp x y).then (compare (key x) (key y))).isLE = true ↔
        (cmp x y).isLE = true ∧ (cmp x y = .eq → key x ≤ key y) := by
      intro x y
      cases cmp x y with
      | lt => simp [Ordering.then]
      | eq => simp [Ordering.then, Int.isLE_compare]
      | gt => simp [Ordering.then]
    rw [hle] at hab hbc ⊢
    refine ⟨h.trans a ha b hb c hc hab.1 hbc.1, fun heq => ?_⟩
    -- all three compare equal
    have hback : ∀ x ∈ xs, ∀ y ∈ xs, (cmp x y).isLE = true → (cmp y x).isLE = true →
        cmp x y = .eq := by
      intro x hx y hy hxy hyx
      rw [← h.swap x hx y hy] at hyx
      cases hcmp : cmp x y <;> simp_all
    have hca : (cmp c a).isLE = true := by
      rw [← h.swap a ha c hc, heq]
      rfl
    have hba := h.trans b hb c hc a ha hbc.1 hca
    have hcb := h.trans c hc a ha b hb hca hab.1
    exact (hab.2 (hback a ha b hb hab.1 hba)).trans (hbc.2 (hback b hb c hc hbc.1 hcb))

end Ucc.Lib
