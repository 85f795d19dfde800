/-
  Cc1/QualReading.lean --- what adding qualifiers does to a type.

  A type is read as the arrays it is made of, outermost first, with the qualifiers and
  attributes that stand before each, down to an element type that is no array.  `add`
  is the effect of type_qualify of src/cc1/type_nav.c on what is read: an array that
  does not have all of the qualifiers is made anew around its element type, and comes
  out without a static flag, without a variable length and without anything before it.

  Qualifiers only stand before an array in what `int[const 3]` declares.  There a
  qualifier that is taken out of a request comes back in the next one, which is what
  `Keeps` has to say about them.
-/
import Ucc.Cc1.TypeNav

set_option autoImplicit false

namespace Ucc.Cc1

/-! ## Sets of qualifiers -/

/-- One qualifier. -/
inductive Qual where
  | const | volatile | restrict
  deriving DecidableEq, Repr

namespace TypeQual

/-- A qualifier is in a set. -/
def Has (q : TypeQual) : Qual → Prop
  | .const => q.const = true
  | .volatile => q.volatile = true
  | .restrict => q.restrict = true

/-- `q & r` -/
def inter (q r : TypeQual) : TypeQual :=
  ⟨q.const && r.const, q.volatile && r.volatile, q.restrict && r.restrict⟩

/-- All qualifiers. -/
def all : TypeQual := ⟨true, true, true⟩

/-- All of `q` is in `r`. -/
def Sub (q r : TypeQual) : Prop := q.diff r = .none

instance (q r : TypeQual) : Decidable (q.Sub r) := inferInstanceAs (Decidable (_ = _))

theorem eq_of_has {q r : TypeQual} (h : ∀ k, q.Has k ↔ r.Has k) : q = r := by
  cases q
  cases r
  rw [TypeQual.mk.injEq]
  exact ⟨Bool.eq_iff_iff.mpr (h .const), Bool.eq_iff_iff.mpr (h .volatile),
    Bool.eq_iff_iff.mpr (h .restrict)⟩

@[simp] theorem has_union (q r : TypeQual) (k : Qual) :
    (q.union r).Has k ↔ q.Has k ∨ r.Has k := by
  cases k <;> simp [Has, union]

@[simp] theorem has_diff (q r : TypeQual) (k : Qual) :
    (q.diff r).Has k ↔ q.Has k ∧ ¬ r.Has k := by
  cases k <;> simp [Has, diff]

@[simp] theorem has_inter (q r : TypeQual) (k : Qual) :
    (q.inter r).Has k ↔ q.Has k ∧ r.Has k := by
  cases k <;> simp [Has, inter]

@[simp] theorem not_has_none (k : Qual) : ¬ TypeQual.none.Has k := by
  cases k <;> simp [Has, TypeQual.none]

@[simp] theorem has_all (k : Qual) : all.Has k := by
  cases k <;> rfl

theorem sub_iff {q r : TypeQual} : q.Sub r ↔ ∀ k, q.Has k → r.Has k := by
  constructor
  · intro h k hk
    by_contra hr
    exact not_has_none k (h ▸ (has_diff q r k).mpr ⟨hk, hr⟩)
  · intro h
    exact eq_of_has fun k => by simpa using h k

theorem eq_none_iff {q : TypeQual} : q = .none ↔ ∀ k, ¬ q.Has k := by
  constructor
  · rintro rfl
    exact not_has_none
  · exact fun h => eq_of_has fun k => by simpa using h k

theorem sub_none_iff {q : TypeQual} : q.Sub .none ↔ q = .none := by
  rw [Sub, diff_none]

end TypeQual

/-! ## Readings -/

/-- A type, as far as its qualifiers go; `base` is the node of the element type, with
what stands before it skipped. -/
inductive Reading where
  | elem (quals : TypeQual) (attrs : List AttributeType) (base : Nat)
  | array (quals : TypeQual) (attrs : List AttributeType) (isStatic : Bool) (vlaKind : VlaKind)
      (ref : Reading)
  deriving DecidableEq

namespace Reading

/-- `type_qual` -/
def quals : Reading → TypeQual
  | .elem e _ _ => e
  | .array e _ _ _ _ => e

/-- The qualifiers of a type and, for an array, of its element types: C has them on the
innermost one. -/
def allQuals : Reading → TypeQual
  | .elem e _ _ => e
  | .array e _ _ _ r => e.union r.allQuals

/-- Something stands before a type. -/
def before (q : TypeQual) (attrs : List AttributeType) : Reading → Reading
  | .elem e as b => .elem (q.union e) (attrs ++ as) b
  | .array e as st kind r => .array (q.union e) (attrs ++ as) st kind r

/-- The attributes of a type and, for an array, of its element types. -/
def allAttrs : Reading → List AttributeType
  | .elem _ as _ => as
  | .array _ as _ _ r => as ++ r.allAttrs

/-- What a type is apart from qualifiers and attributes. -/
def shape : Reading → List (Bool × VlaKind) × Nat
  | .elem _ _ b => ([], b)
  | .array _ _ st kind r => ((st, kind) :: r.shape.1, r.shape.2)

/-- `type_qualify` -/
def add (q : TypeQual) : Reading → Reading
  | .elem e as b => .elem (q.union e) as b
  | .array e as st kind r =>
    if q.Sub e then .array e as st kind r else .array .none [] false .no (r.add (q.diff e))

/-- Qualifiers out of `c` may come first, and then any: no array that is made anew is
static or of variable length; the qualifiers before it are also further in; and where
some of `c` stay outside an array or an element type, so do all that are not in `c`. -/
def Keeps : TypeQual → Reading → Prop
  | c, .elem e _ _ => (TypeQual.all.diff c).Sub e
  | c, .array e _ st kind r =>
    (c.inter e ≠ .none → (TypeQual.all.diff c).Sub e) ∧
      (¬ c.Sub e → st = false ∧ kind = .no ∧ e.Sub r.allQuals ∧ r.Keeps (c.diff e))

instance decidableKeeps : ∀ (c : TypeQual) (r : Reading), Decidable (r.Keeps c)
  | c, .elem e _ _ => inferInstanceAs (Decidable ((TypeQual.all.diff c).Sub e))
  | c, .array e _ st kind r =>
    have := decidableKeeps (c.diff e) r
    inferInstanceAs (Decidable ((c.inter e ≠ .none → (TypeQual.all.diff c).Sub e) ∧
      (¬ c.Sub e → st = false ∧ kind = .no ∧ e.Sub r.allQuals ∧ r.Keeps (c.diff e))))

/-! ## Adding -/

theorem add_of_sub {q e : TypeQual} (h : q.Sub e) (as : List AttributeType) (st : Bool)
    (kind : VlaKind) (r : Reading) : (array e as st kind r).add q = array e as st kind r :=
  if_pos h

theorem add_of_not_sub {q e : TypeQual} (h : ¬ q.Sub e) (as : List AttributeType) (st : Bool)
    (kind : VlaKind) (r : Reading) :
    (array e as st kind r).add q = array .none [] false .no (r.add (q.diff e)) :=
  if_neg h

theorem add_of_sub_quals {q : TypeQual} {r : Reading} (h : q.Sub r.quals) : r.add q = r := by
  cases r with
  | elem e as b =>
    rw [add, elem.injEq]
    refine ⟨TypeQual.eq_of_has fun k => ?_, rfl, rfl⟩
    rw [TypeQual.has_union]
    exact or_iff_right_of_imp (TypeQual.sub_iff.mp h k)
  | array e as st kind r => exact add_of_sub h as st kind r

theorem add_none (r : Reading) : r.add .none = r := by
  cases r with
  | elem e as b => rfl
  | array e as st kind r =>
    exact add_of_sub (TypeQual.sub_iff.mpr fun k hk => absurd hk (by simp)) as st kind r

/-- Adding takes no qualifier away but those before an array, and adds no other. -/
theorem allQuals_add_sub (q : TypeQual) (r : Reading) (k : Qual)
    (h : (r.add q).allQuals.Has k) : r.allQuals.Has k ∨ q.Has k := by
  induction r generalizing q with
  | elem e as b =>
    rw [add, allQuals, TypeQual.has_union] at h
    exact h.symm
  | array e as st kind r ih =>
    by_cases hsub : q.Sub e
    · rw [add_of_sub hsub] at h
      exact .inl h
    · rw [add_of_not_sub hsub] at h
      simp only [allQuals, TypeQual.has_union, TypeQual.not_has_none, false_or] at h ⊢
      rcases ih (q.diff e) h with h | h
      · exact .inl (.inr h)
      · exact .inr ((TypeQual.has_diff q e k).mp h).1

/-- Qualifiers that come first, and those that come again. -/
theorem Keeps.of_not_sub {c p e : TypeQual} {as : List AttributeType} {st : Bool} {kind : VlaKind}
    {r : Reading} (h : (array e as st kind r).Keeps c) (hpc : p.Sub c) (hpe : ¬ p.Sub e) :
    st = false ∧ kind = .no ∧ e.Sub r.allQuals ∧ r.Keeps (c.diff e) ∧ p.diff e ≠ .none ∧
      (p.diff e).Sub (c.diff e) := by
  rw [TypeQual.sub_iff] at hpc
  have hce : ¬ c.Sub e := fun hce =>
    hpe (TypeQual.sub_iff.mpr fun k hk => TypeQual.sub_iff.mp hce k (hpc k hk))
  obtain ⟨hst, hkind, hsub, hkeeps⟩ := h.2 hce
  refine ⟨hst, hkind, hsub, hkeeps, hpe, TypeQual.sub_iff.mpr fun k hk => ?_⟩
  rw [TypeQual.has_diff] at hk ⊢
  exact ⟨hpc k hk.1, hk.2⟩

theorem Keeps.of_sub {c p e : TypeQual} {as : List AttributeType} {st : Bool} {kind : VlaKind}
    {r : Reading} (h : (array e as st kind r).Keeps c) (hp : p ≠ .none) (hpc : p.Sub c)
    (hpe : p.Sub e) : (TypeQual.all.diff c).Sub e := by
  rw [TypeQual.sub_iff] at hpc hpe
  refine h.1 fun hnone => hp (TypeQual.eq_none_iff.mpr fun k hk => ?_)
  exact TypeQual.eq_none_iff.mp hnone k ((TypeQual.has_inter c e k).mpr ⟨hpc k hk, hpe k hk⟩)

/-- A second request finds what the first one has left out, and nothing else. -/
theorem Keeps.add_add {c p : TypeQual} {r : Reading} (h : r.Keeps c) (hp : p ≠ .none)
    (hpc : p.Sub c) (q : TypeQual) : (r.add p).add q = r.add (p.union (q.inter c)) := by
  induction r generalizing c p with
  | elem e as b =>
    have hc := TypeQual.sub_iff.mp h
    simp only [add, elem.injEq, and_true]
    refine TypeQual.eq_of_has fun k => ?_
    have hk := hc k
    simp only [TypeQual.has_union, TypeQual.has_inter, TypeQual.has_diff, TypeQual.has_all,
      true_and] at hk ⊢
    tauto
  | array e as st kind r ih =>
    by_cases hpe : p.Sub e
    · have hout := TypeQual.sub_iff.mp (h.of_sub hp hpc hpe)
      simp only [TypeQual.has_diff, TypeQual.has_all, true_and] at hout
      rw [add_of_sub hpe]
      by_cases hqe : q.Sub e
      · have hboth : (p.union (q.inter c)).Sub e := TypeQual.sub_iff.mpr fun k hk => by
          have := TypeQual.sub_iff.mp hpe k
          have := TypeQual.sub_iff.mp hqe k
          simp only [TypeQual.has_union, TypeQual.has_inter] at hk
          tauto
        rw [add_of_sub hqe, add_of_sub hboth]
      · have hdiff : (p.union (q.inter c)).diff e = q.diff e := TypeQual.eq_of_has fun k => by
          have := TypeQual.sub_iff.mp hpe k
          have := hout k
          simp only [TypeQual.has_union, TypeQual.has_inter, TypeQual.has_diff]
          tauto
        have hboth : ¬ (p.union (q.inter c)).Sub e := by
          rw [TypeQual.Sub, hdiff]
          exact hqe
        rw [add_of_not_sub hqe, add_of_not_sub hboth, hdiff]
    · obtain ⟨-, -, -, hkeeps, hne, hsub⟩ := h.of_not_sub hpc hpe
      have hboth : ¬ (p.union (q.inter c)).Sub e := fun hboth =>
        hpe (TypeQual.sub_iff.mpr fun k hk =>
          TypeQual.sub_iff.mp hboth k ((TypeQual.has_union _ _ k).mpr (.inl hk)))
      have hdiff : (p.union (q.inter c)).diff e = (p.diff e).union (q.inter (c.diff e)) :=
        TypeQual.eq_of_has fun k => by
          simp only [TypeQual.has_union, TypeQual.has_inter, TypeQual.has_diff]
          tauto
      rw [add_of_not_sub hpe, add_of_not_sub hboth, hdiff]
      by_cases hq : q.Sub .none
      · obtain rfl : q = .none := TypeQual.sub_none_iff.mp hq
        have hnone : (p.diff e).union (TypeQual.none.inter (c.diff e)) = p.diff e :=
          TypeQual.eq_of_has fun k => by simp
        rw [add_none, hnone]
      · rw [add_of_not_sub hq, TypeQual.diff_none, ih hkeeps hne hsub]

/-- A second request, of nothing else that could come first, only has something to do
where the first one has made an array anew. -/
theorem Keeps.exists_array {c p q : TypeQual} {r : Reading} (h : r.Keeps c) (hp : p ≠ .none)
    (hpc : p.Sub c) (hq : (q.inter c).Sub p) (hsub : ¬ q.Sub (r.add p).quals) :
    ∃ e as st kind r', r = array e as st kind r' ∧ ¬ p.Sub e := by
  -- what does not come first is outside, if anything is
  have hall : ∀ e : TypeQual, (TypeQual.all.diff c).Sub e → p.Sub e → q.Sub e := by
    intro e hout hpe
    refine TypeQual.sub_iff.mpr fun k hk => ?_
    have := TypeQual.sub_iff.mp hout k
    have := TypeQual.sub_iff.mp hpe k
    have := TypeQual.sub_iff.mp hq k
    simp only [TypeQual.has_diff, TypeQual.has_inter, TypeQual.has_all, true_and] at *
    tauto
  cases r with
  | elem e as b =>
    refine absurd (hall (p.union e) ?_ ?_) hsub
    · refine TypeQual.sub_iff.mpr fun k hk => ?_
      exact (TypeQual.has_union p e k).mpr (.inr (TypeQual.sub_iff.mp h k hk))
    · exact TypeQual.sub_iff.mpr fun k hk => (TypeQual.has_union p e k).mpr (.inl hk)
  | array e as st kind r =>
    refine ⟨e, as, st, kind, r, rfl, fun hpe => hsub ?_⟩
    rw [add_of_sub hpe]
    exact hall e (h.of_sub hp hpc hpe) hpe

/-- The qualifiers are those there were and those that are added. -/
theorem Keeps.allQuals_add {c p : TypeQual} {r : Reading} (h : r.Keeps c) (hpc : p.Sub c) :
    (r.add p).allQuals = r.allQuals.union p := by
  induction r generalizing c p with
  | elem e as b => exact TypeQual.eq_of_has fun k => by simp [add, allQuals, or_comm]
  | array e as st kind r ih =>
    by_cases hpe : p.Sub e
    · rw [add_of_sub hpe]
      refine TypeQual.eq_of_has fun k => ?_
      have := TypeQual.sub_iff.mp hpe k
      simp only [allQuals, TypeQual.has_union]
      tauto
    · obtain ⟨-, -, hin, hkeeps, -, hsub⟩ := h.of_not_sub hpc hpe
      rw [add_of_not_sub hpe]
      refine TypeQual.eq_of_has fun k => ?_
      have := TypeQual.sub_iff.mp hin k
      simp only [allQuals, ih hkeeps hsub, TypeQual.has_union, TypeQual.has_diff,
        TypeQual.not_has_none]
      tauto

/-- Nothing else is changed. -/
theorem Keeps.shape_add {c p : TypeQual} {r : Reading} (h : r.Keeps c) (hpc : p.Sub c) :
    (r.add p).shape = r.shape := by
  induction r generalizing c p with
  | elem e as b => rfl
  | array e as st kind r ih =>
    by_cases hpe : p.Sub e
    · rw [add_of_sub hpe]
    · obtain ⟨hst, hkind, -, hkeeps, -, hsub⟩ := h.of_not_sub hpc hpe
      rw [add_of_not_sub hpe, shape, shape, ih hkeeps hsub, hst, hkind]

/-- What has been qualified can be qualified again. -/
theorem Keeps.keeps_add {c p : TypeQual} {r : Reading} (h : r.Keeps c) (hp : p ≠ .none)
    (hpc : p.Sub c) : (r.add p).Keeps .all := by
  have hnone : ∀ e : TypeQual, (TypeQual.all.diff .all).Sub e := fun e =>
    TypeQual.sub_iff.mpr fun k hk => by simp at hk
  induction r generalizing c p with
  | elem e as b => exact hnone _
  | array e as st kind r ih =>
    by_cases hpe : p.Sub e
    · rw [add_of_sub hpe]
      have hout := TypeQual.sub_iff.mp (h.of_sub hp hpc hpe)
      simp only [TypeQual.has_diff, TypeQual.has_all, true_and] at hout
      refine ⟨fun _ => hnone e, fun hall => ?_⟩
      have hce : ¬ c.Sub e := fun hce => hall (TypeQual.sub_iff.mpr fun k _ => by
        by_contra hk
        exact hk (TypeQual.sub_iff.mp hce k (by_contra fun hc => hk (hout k hc))))
      have hdiff : TypeQual.all.diff e = c.diff e := TypeQual.eq_of_has fun k => by
        have := hout k
        simp only [TypeQual.has_diff, TypeQual.has_all, true_and]
        tauto
      rw [hdiff]
      exact h.2 hce
    · obtain ⟨-, -, -, hkeeps, hne, hsub⟩ := h.of_not_sub hpc hpe
      rw [add_of_not_sub hpe]
      refine ⟨fun _ => hnone .none, fun _ => ⟨rfl, rfl, ?_, ?_⟩⟩
      · exact TypeQual.sub_iff.mpr fun k hk => absurd hk (TypeQual.not_has_none k)
      · rw [TypeQual.diff_none]
        exact ih hkeeps hne hsub

/-! ## The converse -/

/-- What stands before an array is still there only if it is also further in. -/
theorem sub_of_allQuals_add {c e : TypeQual} {as : List AttributeType} {st : Bool} {kind : VlaKind}
    {r : Reading}
    (h : (array .none [] false .no (r.add ((c.diff e).diff e))).allQuals =
      (array e as st kind r).allQuals.union (c.diff e)) : e.Sub r.allQuals := by
  refine TypeQual.sub_iff.mpr fun k hk => ?_
  have hold : ((array e as st kind r).allQuals.union (c.diff e)).Has k := by
    rw [TypeQual.has_union, allQuals, TypeQual.has_union]
    exact .inl (.inl hk)
  rw [← h, allQuals, TypeQual.has_union] at hold
  rcases hold with hnone | hin
  · exact absurd hnone (TypeQual.not_has_none k)
  · rcases allQuals_add_sub _ r k hin with hin | hdiff
    · exact hin
    · exact absurd hk ((TypeQual.has_diff _ e k).mp hdiff).2

theorem allQuals_of_outside {e p q : TypeQual} {as : List AttributeType} {st : Bool}
    {kind : VlaKind} {r : Reading} (hin : e.Sub r.allQuals) (hdiff : p.diff e = q)
    (h : (array .none [] false .no (r.add q)).allQuals =
      (array e as st kind r).allQuals.union p) : (r.add q).allQuals = r.allQuals.union q := by
  subst hdiff
  refine TypeQual.eq_of_has fun k => ?_
  have hk : (array .none [] false .no (r.add (p.diff e))).allQuals.Has k ↔ _ := iff_of_eq
    (congrArg (TypeQual.Has · k) h)
  have hek := TypeQual.sub_iff.mp hin k
  simp only [allQuals, TypeQual.has_union, TypeQual.not_has_none, false_or] at hk
  rw [hk, TypeQual.has_union, TypeQual.has_diff]
  tauto

/-- Where a type does not keep what is added, some first request and one after it show:
a qualifier gets lost, the arrays are not those there were, or the second request does
not leave the type alone. -/
theorem exists_of_not_keeps {c : TypeQual} {r : Reading} (hc : c ≠ .none) (h : ¬ r.Keeps c) :
    ∃ q, q.inter c ≠ .none ∧
      ¬ ((r.add (q.inter c)).allQuals = r.allQuals.union (q.inter c) ∧
        (r.add (q.inter c)).shape = r.shape ∧
        (r.add (q.inter c)).add q = r.add (q.inter c)) := by
  induction r generalizing c with
  | elem e as b =>
    have hall : TypeQual.all.inter c = c := TypeQual.eq_of_has fun k => by simp
    refine ⟨.all, by rwa [hall], ?_⟩
    rw [hall]
    rintro ⟨-, -, hsame⟩
    simp only [add, elem.injEq, and_true] at hsame
    refine h (TypeQual.sub_iff.mpr fun k hk => ?_)
    have hall : (TypeQual.all.union (c.union e)).Has k := by simp
    rw [hsame] at hall
    simp only [TypeQual.has_union, TypeQual.has_diff] at hall hk
    tauto
  | array e as st kind r ih =>
    rcases not_and_or.mp h with hout | hin
    · obtain ⟨hmeet, hout⟩ := Classical.not_imp.mp hout
      -- all of the first request is there, but not all of the second
      have hfirst : ((c.inter e).union (TypeQual.all.diff c)).inter c = c.inter e :=
        TypeQual.eq_of_has fun k => by
          simp only [TypeQual.has_union, TypeQual.has_inter, TypeQual.has_diff]
          tauto
      refine ⟨(c.inter e).union (TypeQual.all.diff c), by rwa [hfirst], ?_⟩
      have hsub : (c.inter e).Sub e := TypeQual.sub_iff.mpr fun k hk =>
        ((TypeQual.has_inter c e k).mp hk).2
      have hnot : ¬ ((c.inter e).union (TypeQual.all.diff c)).Sub e := fun hboth =>
        hout (TypeQual.sub_iff.mpr fun k hk =>
          TypeQual.sub_iff.mp hboth k ((TypeQual.has_union _ _ k).mpr (.inr hk)))
      rw [hfirst, add_of_sub hsub, add_of_not_sub hnot]
      rintro ⟨-, -, hsame⟩
      obtain ⟨rfl, -⟩ := array.inj hsame
      exact hmeet (TypeQual.eq_none_iff.mpr fun k => by simp)
    · obtain ⟨hce, hin⟩ := Classical.not_imp.mp hin
      by_cases hplain : st = false ∧ kind = .no
      · by_cases hlost : e.Sub r.allQuals
        · have hkeeps : ¬ r.Keeps (c.diff e) := fun hkeeps =>
            hin ⟨hplain.1, hplain.2, hlost, hkeeps⟩
          obtain ⟨q, hq, hbad⟩ := ih hce hkeeps
          have hdiff : (q.inter c).diff e = q.inter (c.diff e) := TypeQual.eq_of_has fun k => by
            simp only [TypeQual.has_inter, TypeQual.has_diff]
            tauto
          have hnot : ¬ (q.inter c).Sub e := fun hsub => hq (hdiff ▸ hsub)
          have hqnone : ¬ q.Sub .none := fun hsub => hq (TypeQual.eq_none_iff.mpr fun k => by
            simp [TypeQual.sub_none_iff.mp hsub])
          have hne : q.inter c ≠ .none := by
            intro hnone
            rw [hnone] at hnot
            exact hnot (TypeQual.eq_of_has fun k => by simp)
          refine ⟨q, hne, ?_⟩
          rw [add_of_not_sub hnot, add_of_not_sub hqnone, TypeQual.diff_none, hdiff]
          rintro ⟨hquals, hshape, hsame⟩
          refine hbad ⟨allQuals_of_outside hlost hdiff hquals, ?_, ?_⟩
          · simp only [shape, Prod.mk.injEq, List.cons.injEq] at hshape
            exact Prod.ext hshape.1.2 hshape.2
          · exact (array.inj hsame).2.2.2.2
        · have hin : (c.diff e).inter c = c.diff e := TypeQual.eq_of_has fun k => by
            simp only [TypeQual.has_inter, TypeQual.has_diff]
            tauto
          have hnot : ¬ (c.diff e).Sub e := fun hsub => hce (TypeQual.sub_iff.mpr fun k hk => by
            by_contra hke
            exact hke (TypeQual.sub_iff.mp hsub k ((TypeQual.has_diff c e k).mpr ⟨hk, hke⟩)))
          refine ⟨c.diff e, by rwa [hin], ?_⟩
          rw [hin, add_of_not_sub hnot]
          rintro ⟨hquals, -, -⟩
          exact hlost (sub_of_allQuals_add hquals)
      · have hall : c.inter c = c := TypeQual.eq_of_has fun k => by simp
        refine ⟨c, by rwa [hall], ?_⟩
        rw [hall, add_of_not_sub hce]
        rintro ⟨-, hshape, -⟩
        simp only [shape, Prod.mk.injEq, List.cons.injEq] at hshape
        exact hplain ⟨hshape.1.1.1.symm, hshape.1.1.2.symm⟩

end Reading

end Ucc.Cc1
