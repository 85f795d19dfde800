/-
  Cc1/SwitchDups.lean --- the check for duplicate cases of a switch.

  Source: fold_switch_dups in src/cc1/ops/stmt_switch.c, numeric_cmp in
  src/cc1/num.c.

  The cases are sorted by where they start, and then neighbours are compared.  The
  order looks at the suffix with which a start is spelt, and the comparison of
  neighbours is one of signed numbers, whatever the type is that the switch is on.
-/
import Ucc.Cc1.OutOp
import Ucc.Lib.Qsort
import Ucc.Lib.Wrap

set_option autoImplicit false

namespace Ucc.Cc1.SwitchDups

open Ucc.Lib Ucc.Cc1.Out

/-! ## The check -/

/-- `numeric_cmp`, of integers. -/
def numericCmp (a b : Numeric) : Ordering :=
  if a.suffix.unsigned && b.suffix.unsigned then compare a.val.toNat b.val.toNat
  else compare a.val.toInt b.val.toInt

/-- An element of `vals`. -/
structure SwitchVal where
  start : Numeric
  stop : Numeric
  /-- `cse->where` -/
  cse : Nat
  deriving DecidableEq, Repr

/-- What `qsort` compares: the first member of each. -/
def cmpStart (a b : SwitchVal) : Ordering := numericCmp a.start b.start

/-- An error, and its note. -/
structure DupError where
  cse : Nat
  kind : String
  at_ : String
  start : Int
  other : Nat
  deriving DecidableEq, Repr

/-- `last_prev >= first_this`, as `long`s. -/
def overlaps (prev this : SwitchVal) : Prop := this.start.val.toInt ≤ prev.stop.val.toInt

instance (prev this : SwitchVal) : Decidable (overlaps prev this) :=
  inferInstanceAs (Decidable (_ ≤ _))

/-- The error about two neighbours. -/
def dupError (prev this : SwitchVal) : DupError :=
  let overlap := this.stop.val != this.start.val || prev.stop.val != prev.start.val
  { cse := prev.cse
    kind := if overlap then "overlapping" else "duplicate"
    at_ := if overlap then "starting at" else "for"
    start := this.start.val.toInt
    other := this.cse }

/-- The errors of `fold_switch_dups`, `vals` being what `qsort` has made of the
cases. -/
def foldSwitchDups (vals : List SwitchVal) : List DupError :=
  ((neighbours vals).filter fun p => overlaps p.1 p.2).map fun p => dupError p.1 p.2

/-! ## The cases -/

/-- A constant of the source that has been folded: its type, and what the folder has for
it.  Only the bits of the type count. -/
structure CaseConst where
  w : Width
  s : Bool
  num : Numeric
  deriving DecidableEq, Repr

/-- The number that it is. -/
def CaseConst.int (c : CaseConst) : Int := readAs c.s (c.num.val.setWidth c.w.bits)

/-- A case or a case range of a switch on a type: `expr` is cast to the type, and `expr2`
is left as it is. -/
structure Case (w : Width) (s : Bool) where
  expr : Numeric
  expr2 : Option CaseConst
  cse : Nat
  deriving DecidableEq, Repr

variable {w : Width} {s : Bool}

/-- The value of a case, or the first of a range. -/
def Case.lo (c : Case w s) : Int := readAs s (c.expr.val.setWidth w.bits)

/-- The last value, converted to the type of the switch. -/
def Case.hi (c : Case w s) : Int :=
  match c.expr2 with
  | none => c.lo
  | some k => wrap s w.bits k.int

/-- The values of a case. -/
def Case.Has (c : Case w s) (z : Int) : Prop := c.lo ≤ z ∧ z ≤ c.hi

/-- What is gathered of a case. -/
def Case.val (c : Case w s) : SwitchVal :=
  ⟨c.expr, (c.expr2.map CaseConst.num).getD c.expr, c.cse⟩

/-- Two cases have a value in common. -/
def Intersect (a b : Case w s) : Prop := ∃ z, a.Has z ∧ b.Has z

/-- No two cases have. -/
def Disjoint (cases : List (Case w s)) : Prop := cases.Pairwise fun a b => ¬ Intersect a b

/-- An error is reported if and only if two cases intersect, however `qsort` orders those
that compare equal. -/
def DupsExact (cases : List (Case w s)) : Prop :=
  ∀ vals, Sorts cmpStart (cases.map Case.val) vals →
    (foldSwitchDups vals ≠ [] ↔ ¬ Disjoint cases)

/-! ## When it is exact -/

/-- The signed reading of where a case starts. -/
def first (v : SwitchVal) : Int := v.start.val.toInt

/-- The signed reading of where a case ends. -/
def last (v : SwitchVal) : Int := v.stop.val.toInt

/-- The start is spelt with a `u`. -/
def Spelt (v : SwitchVal) : Prop := v.start.suffix.unsigned = true

/-- At most, in the order of `numeric_cmp`. -/
def Le (a b : SwitchVal) : Prop := (cmpStart a b).isLE = true

/-- The start of `b` is the one after that of `a`. -/
def Follows (vals : List SwitchVal) (a b : SwitchVal) : Prop :=
  Le a b ∧ first a ≠ first b ∧ ∀ c ∈ vals, Le c a ∨ Le b c

/-- No case ends, as signed numbers, at or above the start of another that starts together
with it, or of one that starts next. -/
def NeverOverlap (vals : List SwitchVal) : Prop :=
  vals.Pairwise (fun a b => first a = first b → ¬ overlaps a b ∧ ¬ overlaps b a) ∧
    ∀ a ∈ vals, ∀ b ∈ vals, Follows vals a b → ¬ overlaps a b

/-- Two cases that start together both end at or above that start, or there are two starts
in a row such that, whichever case of the first is the last there, one ends too high: that
case for the second start, or another that then is before it for their own. -/
def AlwaysOverlap (vals : List SwitchVal) : Prop :=
  (¬ vals.Pairwise fun a b => first a = first b → ¬ (overlaps a b ∧ overlaps b a)) ∨
    ∃ a ∈ vals, ∃ b ∈ vals, Follows vals a b ∧ ∀ x ∈ vals, first x = first a →
      overlaps x b ∨ (¬ overlaps x x ∧ ∃ y ∈ vals, first y = first a ∧ overlaps y y)

/-- When the check is exact: the comparison orders the starts, and what it puts together
overlaps as signed numbers where cases intersect, and only there. -/
def SortsRight (cases : List (Case w s)) : Prop :=
  Consistent cmpStart (cases.map Case.val) ∧
    (Disjoint cases → NeverOverlap (cases.map Case.val)) ∧
    (¬ Disjoint cases → AlwaysOverlap (cases.map Case.val))

/-! ## The order -/

theorem toNat_eq (x : Integral) :
    (x.toNat : Int) = if x.toInt < 0 then x.toInt + 2 ^ 64 else x.toInt := by
  have hx := x.isLt
  rw [BitVec.toInt_eq_toNat_cond]
  split <;> split <;> push_cast at * <;> omega

theorem first_bounds (v : SwitchVal) : -2 ^ 63 ≤ first v ∧ first v < 2 ^ 63 :=
  ⟨BitVec.le_toInt _, BitVec.toInt_lt⟩

/-- Two starts with a `u` are compared by their halves, and then as signed numbers. -/
theorem le_of_spelt {a b : SwitchVal} (ha : Spelt a) (hb : Spelt b) :
    Le a b ↔ (0 ≤ first a ∧ first b < 0) ∨ ((first a < 0 ↔ first b < 0) ∧ first a ≤ first b) := by
  have hcmp : cmpStart a b = compare a.start.val.toNat b.start.val.toNat := if_pos (by
    rw [Spelt] at ha hb
    rw [ha, hb]
    rfl)
  have hna := toNat_eq a.start.val
  have hnb := toNat_eq b.start.val
  have hba := first_bounds a
  have hbb := first_bounds b
  unfold first at *
  rw [Le, hcmp, Nat.isLE_compare]
  split at hna <;> split at hnb <;> omega

/-- Else as signed numbers. -/
theorem le_of_not_spelt {a b : SwitchVal} (h : ¬ (Spelt a ∧ Spelt b)) :
    Le a b ↔ first a ≤ first b := by
  have hcmp : cmpStart a b = compare a.start.val.toInt b.start.val.toInt := if_neg (by
    rwa [Spelt, Spelt, ← Bool.and_eq_true] at h)
  rw [Le, hcmp, Int.isLE_compare]
  exact Iff.rfl

/-- What is known of two starts in order. -/
theorem Le.cases {a b : SwitchVal} (h : Le a b) :
    first a ≤ first b ∨ (Spelt a ∧ Spelt b ∧ 0 ≤ first a ∧ first b < 0) := by
  by_cases hs : Spelt a ∧ Spelt b
  · rcases (le_of_spelt hs.1 hs.2).mp h with hhalf | hsame
    · exact Or.inr ⟨hs.1, hs.2, hhalf⟩
    · exact Or.inl hsame.2
  · exact Or.inl ((le_of_not_spelt hs).mp h)

theorem cmpStart_eq {a b : SwitchVal} (h : first a = first b) : cmpStart a b = .eq := by
  have hval : a.start.val = b.start.val := BitVec.eq_of_toInt_eq h
  unfold cmpStart numericCmp
  rw [hval]
  split
  · exact Nat.compare_eq_eq.mpr rfl
  · exact Int.compare_eq_eq.mpr rfl

/-! ## The comparison of neighbours -/

/-- Nothing is reported. -/
def Quiet (vals : List SwitchVal) : Prop := ∀ p ∈ neighbours vals, last p.1 < first p.2

theorem foldSwitchDups_iff (vals : List SwitchVal) : foldSwitchDups vals ≠ [] ↔ ¬ Quiet vals := by
  unfold foldSwitchDups Quiet
  rw [ne_eq, List.map_eq_nil_iff, List.filter_eq_nil_iff, not_iff_not]
  refine forall₂_congr fun p _ => ?_
  rw [decide_eq_true_iff, overlaps, not_le]
  exact Iff.rfl

/-- The check is exact on a list, given what the cases have in common. -/
def ListExact (L : List SwitchVal) (disjoint : Prop) : Prop :=
  ∀ vals, Sorts cmpStart L vals → (foldSwitchDups vals ≠ [] ↔ ¬ disjoint)

/-- Where the comparison is no order, `qsort` may leave anything. -/
theorem ListExact.consistent {L : List SwitchVal} {disjoint : Prop} (h : ListExact L disjoint) :
    Consistent cmpStart L := by
  by_contra hcon
  have hany : ∀ vals, Sorts cmpStart L vals := fun vals hc => absurd hc hcon
  let zero : SwitchVal := ⟨⟨0, {}⟩, ⟨0, {}⟩, 0⟩
  have hnone := h [] (hany [])
  have hdup := h [zero, zero] (hany _)
  have hquiet : foldSwitchDups [] = [] := rfl
  have hloud : foldSwitchDups [zero, zero] ≠ [] := by decide
  exact (hnone.mpr (hdup.mp hloud)) hquiet

/-- With an order, only the sorted lists matter. -/
theorem listExact_iff {L : List SwitchVal} {disjoint : Prop} (h : Consistent cmpStart L) :
    ListExact L disjoint ↔
      ∀ vals, vals.Perm L → vals.Pairwise Le → (Quiet vals ↔ disjoint) := by
  unfold ListExact Sorts
  constructor
  · intro hall vals hperm hsorted
    have := hall vals fun _ => ⟨hperm, hsorted⟩
    rwa [foldSwitchDups_iff, not_iff_not] at this
  · intro hall vals hsorts
    obtain ⟨hperm, hsorted⟩ := hsorts h
    rw [foldSwitchDups_iff, not_iff_not]
    exact hall vals hperm hsorted

/-! ## What is put together -/

section Sorted

variable {L vals : List SwitchVal}

theorem le_of_sublist (hsorted : vals.Pairwise Le) {a b : SwitchVal}
    (h : [a, b].Sublist vals) : Le a b := List.pairwise_iff_forall_sublist.mp hsorted h

theorem le_trans_of (hcon : Consistent cmpStart vals) {a b c : SwitchVal} (ha : a ∈ vals)
    (hb : b ∈ vals) (hc : c ∈ vals) (hab : Le a b) (hbc : Le b c) : Le a c :=
  hcon.trans a ha b hb c hc hab hbc

theorem le_of_first_eq {a b : SwitchVal} (h : first a = first b) : Le a b := by
  rw [Le, cmpStart_eq h]
  rfl

theorem first_eq_of_le {a b : SwitchVal} (hab : Le a b) (hba : Le b a) : first a = first b := by
  by_cases hs : Spelt a ∧ Spelt b
  · have hab := (le_of_spelt hs.1 hs.2).mp hab
    have hba := (le_of_spelt hs.2 hs.1).mp hba
    omega
  · have hab := (le_of_not_spelt hs).mp hab
    have hba := (le_of_not_spelt fun h => hs h.symm).mp hba
    omega

/-- A case that is before another of the same start ends below it. -/
theorem Quiet.tied (hquiet : Quiet vals) (hcon : Consistent cmpStart vals)
    (hsorted : vals.Pairwise Le) {a b : SwitchVal} (hab : [a, b].Sublist vals)
    (heq : first a = first b) : ¬ overlaps a b := by
  obtain ⟨c, hac, hcb⟩ := exists_next hab
  have hgap : last a < first c := hquiet (a, c) hac
  have hfirst : first c = first b := by
    rcases hcb with rfl | hcb
    · rfl
    · have hlec := le_of_sublist hsorted (sublist_of_neighbours hac)
      have hca := le_trans_of hcon (hcb.subset (by simp)) (hab.subset (by simp))
        (hab.subset (by simp)) (le_of_sublist hsorted hcb) (le_of_first_eq heq.symm)
      exact (first_eq_of_le hca hlec).trans heq
  exact not_le.mpr (hgap.trans_eq hfirst)

/-- Between two starts in a row there are neighbours. -/
theorem Follows.exists_neighbours {a b : SwitchVal} (h : Follows vals a b)
    (hcon : Consistent cmpStart vals) (hsorted : vals.Pairwise Le) (ha : a ∈ vals) (hb : b ∈ vals) :
    ∃ x y, (x, y) ∈ neighbours vals ∧ first x = first a ∧ first y = first b := by
  obtain ⟨hle, hne, hrow⟩ := h
  have hnle : ¬ Le b a := fun hba => hne (first_eq_of_le hle hba)
  have hab : [a, b].Sublist vals :=
    (sublist_or_sublist ha hb fun heq => hne (congrArg first heq)).resolve_right fun hba =>
      hnle (le_of_sublist hsorted hba)
  obtain ⟨x, y, hxy, hxa, hya⟩ :=
    exists_change (P := fun v => Le v a) hab (le_of_first_eq rfl) hnle
  have hx : x ∈ vals := (sublist_of_neighbours hxy).subset (by simp)
  have hy : y ∈ vals := (sublist_of_neighbours hxy).subset (by simp)
  have hby : Le b y := (hrow y hy).resolve_left hya
  refine ⟨x, y, hxy, ?_, ?_⟩
  · -- `a` is not before `x`, which is not behind it
    refine first_eq_of_le hxa ?_
    rcases outside_neighbours hxy ha with (hax | rfl) | rfl | hya'
    · exact le_of_sublist hsorted hax
    · exact hxa
    · exact absurd (le_of_first_eq rfl) hya
    · exact absurd (le_of_sublist hsorted hya') hya
  · refine first_eq_of_le ?_ hby
    rcases outside_neighbours hxy hb with (hbx | rfl) | rfl | hyb
    · exact absurd (le_trans_of hcon hb hx ha (le_of_sublist hsorted hbx) hxa) hnle
    · exact absurd hxa hnle
    · exact hby
    · exact le_of_sublist hsorted hyb

/-- Neighbours that do not start together start in a row. -/
theorem follows_of_neighbours (hsorted : vals.Pairwise Le) {a b : SwitchVal}
    (hab : (a, b) ∈ neighbours vals) (hne : first a ≠ first b) : Follows vals a b := by
  refine ⟨le_of_sublist hsorted (sublist_of_neighbours hab), hne, fun c hc => ?_⟩
  rcases outside_neighbours hab hc with (hca | rfl) | rfl | hbc
  · exact Or.inl (le_of_sublist hsorted hca)
  · exact Or.inl (le_of_first_eq rfl)
  · exact Or.inr (le_of_first_eq rfl)
  · exact Or.inr (le_of_sublist hsorted hbc)

theorem Follows.perm {a b : SwitchVal} (h : Follows L a b) (hperm : vals.Perm L) :
    Follows vals a b :=
  ⟨h.1, h.2.1, fun c hc => h.2.2 c (hperm.mem_iff.mp hc)⟩

/-- Nothing is reported where nothing overlaps. -/
theorem NeverOverlap.quiet (h : NeverOverlap L) (hperm : vals.Perm L)
    (hsorted : vals.Pairwise Le) : Quiet vals := by
  rintro ⟨a, b⟩ hab
  have hsub := sublist_of_neighbours hab
  refine not_le.mp fun hmeet => ?_
  by_cases heq : first a = first b
  · have htied := (hperm.pairwise_iff fun {x y} hxy heq => (hxy heq.symm).symm).mpr h.1
    exact (List.pairwise_iff_forall_sublist.mp htied hsub heq).1 hmeet
  · exact h.2 a (hperm.mem_iff.mp (hsub.subset (by simp))) b
      (hperm.mem_iff.mp (hsub.subset (by simp)))
      ((follows_of_neighbours hsorted hab heq).perm hperm.symm) hmeet

/-- An order of the cases in which one of them is the last of its start. -/
theorem exists_sorted_last (hcon : Consistent cmpStart L) (key : SwitchVal → Int) :
    ∃ vals : List SwitchVal, vals.Perm L ∧ vals.Pairwise Le ∧
      ∀ {a b}, [a, b].Sublist vals → first a = first b → key a ≤ key b := by
  obtain ⟨vals, hperm, hsorted⟩ := exists_sorted (hcon.thenKey key)
  have hboth : ∀ {a b : SwitchVal},
      ((cmpStart a b).then (compare (key a) (key b))).isLE = true →
      Le a b ∧ (first a = first b → key a ≤ key b) := by
    intro a b h
    unfold Le
    refine ⟨?_, fun heq => ?_⟩
    · cases hcmp : cmpStart a b <;> simp_all [Ordering.then]
    · rw [cmpStart_eq heq] at h
      exact Int.isLE_compare.mp h
  exact ⟨vals, hperm, hsorted.imp fun h => (hboth h).1, fun hab =>
    (hboth (List.pairwise_iff_forall_sublist.mp hsorted hab)).2⟩

/-- If nothing is reported in any order, nothing overlaps. -/
theorem neverOverlap_of_quiet (hcon : Consistent cmpStart L)
    (hquiet : ∀ vals, vals.Perm L → vals.Pairwise Le → Quiet vals) : NeverOverlap L := by
  have hconv : ∀ {vals : List SwitchVal}, vals.Perm L → Consistent cmpStart vals :=
    fun hperm => hcon.of_subset fun v hv => hperm.mem_iff.mp hv
  constructor
  · obtain ⟨vals, hperm, hsorted, -⟩ := exists_sorted_last hcon fun _ => 0
    refine (hperm.pairwise_iff fun {x y} hxy heq => (hxy heq.symm).symm).mp ?_
    refine List.pairwise_iff_forall_sublist.mpr fun {a b} hab heq => ?_
    refine ⟨(hquiet vals hperm hsorted).tied (hconv hperm) hsorted hab heq, ?_⟩
    by_cases hsame : a = b
    · subst hsame
      exact (hquiet vals hperm hsorted).tied (hconv hperm) hsorted hab heq
    · -- the order in which `b` is before `a`
      obtain ⟨vals', hperm', hsorted', hkey⟩ :=
        exists_sorted_last hcon fun v => if v = b then 0 else 1
      have hmem : ∀ {x}, x ∈ vals → x ∈ vals' := fun hx =>
        hperm'.mem_iff.mpr (hperm.mem_iff.mp hx)
      have hba : [b, a].Sublist vals' := by
        refine (sublist_or_sublist (hmem (hab.subset (by simp))) (hmem (hab.subset (by simp)))
          hsame).resolve_left fun hab' => ?_
        have := hkey hab' heq
        rw [if_neg hsame, if_pos rfl] at this
        omega
      exact (hquiet vals' hperm' hsorted').tied (hconv hperm') hsorted' hba heq.symm
  · intro a ha b hb hfol hmeet
    -- the order in which `a` is the last of its start
    obtain ⟨vals, hperm, hsorted, hkey⟩ :=
      exists_sorted_last hcon fun v => if v = a then 1 else 0
    have ha' := hperm.mem_iff.mpr ha
    obtain ⟨x, y, hxy, hx, hy⟩ := (hfol.perm hperm).exists_neighbours (hconv hperm) hsorted ha'
      (hperm.mem_iff.mpr hb)
    have hxa : x = a := by
      by_contra hne
      rcases outside_neighbours hxy ha' with (hax | rfl) | rfl | hya
      · have := hkey hax hx.symm
        rw [if_pos rfl, if_neg hne] at this
        omega
      · exact hne rfl
      · exact hfol.2.1 hy
      · have hya := le_of_sublist hsorted hya
        have hab : Le b a := le_trans_of (hconv hperm) (hperm.mem_iff.mpr hb)
          ((sublist_of_neighbours hxy).subset (by simp)) ha' (le_of_first_eq hy.symm) hya
        exact hfol.2.1 (first_eq_of_le hfol.1 hab)
    have hgap : last x < first y := hquiet vals hperm hsorted (x, y) hxy
    rw [hxa, hy] at hgap
    exact not_le.mpr hgap hmeet

/-- Something is reported where cases always overlap. -/
theorem AlwaysOverlap.not_quiet (h : AlwaysOverlap L) (hcon : Consistent cmpStart vals)
    (hperm : vals.Perm L) (hsorted : vals.Pairwise Le) : ¬ Quiet vals := by
  intro hquiet
  rcases h with htied | ⟨a, ha, b, hb, hfol, hlast⟩
  · refine htied ((hperm.pairwise_iff fun {x y} hxy heq => ?_).mp
      (List.pairwise_iff_forall_sublist.mpr fun {x y} hxy heq hmeet => ?_))
    · exact fun hmeet => hxy heq.symm hmeet.symm
    · exact hquiet.tied hcon hsorted hxy heq hmeet.1
  · have ha := hperm.mem_iff.mpr ha
    obtain ⟨x, y, hxy, hx, hy⟩ := (hfol.perm hperm).exists_neighbours hcon hsorted ha
      (hperm.mem_iff.mpr hb)
    have hxmem := (sublist_of_neighbours hxy).subset (show x ∈ [x, y] by simp)
    have hymem := (sublist_of_neighbours hxy).subset (show y ∈ [x, y] by simp)
    have hnle : ¬ Le y a := fun hya => by
      have hba := le_trans_of hcon (hperm.mem_iff.mpr hb) hymem ha (le_of_first_eq hy.symm) hya
      exact hfol.2.1 (first_eq_of_le hfol.1 hba)
    have hgap : last x < first y := hquiet (x, y) hxy
    rw [hy] at hgap
    obtain ⟨hxx, z, hz, hza, hzz⟩ :=
      (hlast x (hperm.mem_iff.mp hxmem) hx).resolve_left (not_le.mpr hgap)
    -- `z` is another case of the start, and before `x`
    rcases outside_neighbours hxy (hperm.mem_iff.mpr hz) with (hzx | rfl) | rfl | hyz
    · have hmeet : overlaps z x := by
        have heq : first x = first z := hx.trans hza.symm
        unfold overlaps first at *
        rwa [heq]
      exact hquiet.tied hcon hsorted hzx (hza.trans hx.symm) hmeet
    · exact hxx hzz
    · exact hnle (le_of_first_eq hza)
    · exact hnle (le_trans_of hcon hymem (hperm.mem_iff.mpr hz) ha (le_of_sublist hsorted hyz)
        (le_of_first_eq hza))

/-- Of the cases that start together, one that ends at or above their start is last, and
else the one that ends lowest. -/
def endKey (v : SwitchVal) : Int := if first v ≤ last v then 2 ^ 64 else -last v

theorem last_bounds (v : SwitchVal) : -2 ^ 63 ≤ last v ∧ last v < 2 ^ 63 :=
  ⟨BitVec.le_toInt _, BitVec.toInt_lt⟩

/-- In that order nothing is reported, unless cases always overlap. -/
theorem exists_quiet (hcon : Consistent cmpStart L) (h : ¬ AlwaysOverlap L) :
    ∃ vals, vals.Perm L ∧ vals.Pairwise Le ∧ Quiet vals := by
  unfold AlwaysOverlap at h
  rw [not_or, not_not] at h
  obtain ⟨htied, hrow⟩ := h
  obtain ⟨vals, hperm, hsorted, hkey⟩ := exists_sorted_last hcon endKey
  have htied := (hperm.pairwise_iff fun {x y} hxy heq hmeet => hxy heq.symm hmeet.symm).mpr htied
  rw [List.pairwise_iff_forall_sublist] at htied
  refine ⟨vals, hperm, hsorted, ?_⟩
  rintro ⟨p, q⟩ hpq
  have hsub := sublist_of_neighbours hpq
  have hp : p ∈ vals := hsub.subset (by simp)
  have hq : q ∈ vals := hsub.subset (by simp)
  have hbp := last_bounds p
  have hbq := last_bounds q
  refine not_le.mp fun hmeet => ?_
  have hmeet : first q ≤ last p := hmeet
  by_cases heq : first p = first q
  · have hpqkey := hkey hsub heq
    have hapart : ¬ (first q ≤ last p ∧ first p ≤ last q) := htied hsub heq
    unfold endKey at hpqkey
    split at hpqkey <;> split at hpqkey <;> omega
  · have hfol := (follows_of_neighbours hsorted hpq heq).perm hperm.symm
    push Not at hrow
    obtain ⟨x, hx, hxp, hxq, hreach⟩ :=
      hrow p (hperm.mem_iff.mp hp) q (hperm.mem_iff.mp hq) hfol
    have hxq : last x < first q := not_le.mp hxq
    have hbx := last_bounds x
    rcases outside_neighbours hpq (hperm.mem_iff.mpr hx) with (hsubx | rfl) | rfl | hqx
    · have hxpkey := hkey hsubx hxp
      have hapart : ¬ (first p ≤ last x ∧ first x ≤ last p) := htied hsubx hxp
      by_cases hxx : first x ≤ last x
      · unfold endKey at hxpkey
        rw [if_pos hxx] at hxpkey
        split at hxpkey <;> omega
      · have hpp : ¬ first p ≤ last p := hreach hxx p (hperm.mem_iff.mp hp) rfl
        unfold endKey at hxpkey
        rw [if_neg hxx, if_neg hpp] at hxpkey
        omega
    · omega
    · exact heq hxp.symm
    · have hconv := hcon.of_subset fun v hv => hperm.mem_iff.mp hv
      have hqp := le_trans_of hconv hq (hperm.mem_iff.mpr hx) hp (le_of_sublist hsorted hqx)
        (le_of_first_eq hxp)
      exact heq (first_eq_of_le hfol.1 hqp)

/-- What is put together is what the check tells of. -/
theorem listExact_overlap_iff (disjoint : Prop) :
    ListExact L disjoint ↔
      Consistent cmpStart L ∧ (disjoint → NeverOverlap L) ∧ (¬ disjoint → AlwaysOverlap L) := by
  constructor
  · intro hexact
    have hcon := hexact.consistent
    have hall := (listExact_iff hcon).mp hexact
    refine ⟨hcon, fun hdisj => ?_, fun hmeet => ?_⟩
    · exact neverOverlap_of_quiet hcon fun vals hperm hsorted =>
        (hall vals hperm hsorted).mpr hdisj
    · by_contra hnot
      obtain ⟨vals, hperm, hsorted, hquiet⟩ := exists_quiet hcon hnot
      exact hmeet ((hall vals hperm hsorted).mp hquiet)
  · rintro ⟨hcon, hnever, halways⟩
    refine (listExact_iff hcon).mpr fun vals hperm hsorted => ⟨fun hquiet => ?_, fun hdisj => ?_⟩
    · by_contra hmeet
      exact (halways hmeet).not_quiet (hcon.of_subset fun v hv => hperm.mem_iff.mp hv) hperm
        hsorted hquiet
    · exact (hnever hdisj).quiet hperm hsorted

end Sorted

/-- The check is exact if and only if the comparison of starts orders them, and what it
puts together overlaps, as signed numbers, where two cases intersect and only there. -/
theorem fold_switch_dups_exact_iff {w : Width} {s : Bool} (cases : List (Case w s)) :
    DupsExact cases ↔ SortsRight cases :=
  listExact_overlap_iff (Disjoint cases)

/-- `switch(x){ case 1ul: case 0x8000000000000000ul: }`, of an `unsigned long`. -/
def farCases : List (Case .w64 false) :=
  [⟨⟨1, { unsigned := true, long := true }⟩, none, 0⟩,
    ⟨⟨stored (2 ^ 63), { unsigned := true, long := true }⟩, none, 1⟩]

/-- The two are reported, in the only order they can be sorted in. -/
theorem farCases_reported :
    foldSwitchDups (farCases.map Case.val) = [⟨0, "duplicate", "for", -2 ^ 63, 1⟩] := by
  decide

theorem fold_switch_dups_far : ¬ DupsExact farCases := by
  intro hexact
  have hdisj : Disjoint farCases := by
    refine List.pairwise_pair.mpr ?_
    rintro ⟨z, ⟨-, hle⟩, hge, -⟩
    have hone : z ≤ 1 := hle
    have hfar : 2 ^ 63 ≤ z := hge
    omega
  have hsorts : Sorts cmpStart (farCases.map Case.val) (farCases.map Case.val) :=
    fun _ => ⟨List.Perm.refl _, List.pairwise_pair.mpr (by decide)⟩
  have hloud : foldSwitchDups (farCases.map Case.val) ≠ [] := by
    rw [farCases_reported]
    exact List.cons_ne_nil _ _
  exact (hexact _ hsorts).mp hloud hdisj

end Ucc.Cc1.SwitchDups
