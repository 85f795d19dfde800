/-
  Cc1/ConstTruth.lean --- constants as conditions, and zero tests on them.

  Source: fold_const_expr_if in src/cc1/ops/expr_if.c, const_expr_zero in
  src/cc1/const.c, decl_init_is_zero in src/cc1/decl_init.c.

  Here a constant may also be a floating one.  A floating constant is a rational
  number, an infinity or not a number; what the host makes of one that is out of
  the range of `int`, in a conversion to `int`, C leaves open.
-/
import Ucc.Cc1.AddrFold

set_option autoImplicit false

namespace Ucc.Cc1

/-! ## Constants -/

/-- `floating_t` -/
inductive Floating where
  | finite (q : ℚ)
  | inf (negative : Bool)
  | nan
  deriving DecidableEq

/-- `!f` -/
def Floating.isZero : Floating → Bool
  | .finite q => q = 0
  | .inf _ => false
  | .nan => false

/-- The number without its fraction. -/
def truncate (q : ℚ) : Int := q.num.tdiv q.den

/-- The numbers of the host's `int`. -/
def IntRange (z : Int) : Prop := -2 ^ 31 ≤ z ∧ z < 2 ^ 31

/-- A conversion of floating numbers to `int`, on some host. -/
structure Host where
  toInt : Floating → Int
  conforms : ∀ q, IntRange (truncate q) → toInt (.finite q) = truncate q

/-- `consty`: floating constants, and all others. -/
inductive Folded where
  | floating (f : Floating) (nonstandardConst : Bool)
  | other (k : Consty)
  deriving DecidableEq

namespace Folded

/-- `CONST_AT_COMPILE_TIME` -/
def atCompileTime : Folded → Bool
  | .floating _ _ => true
  | .other k => k.atCompileTime

/-- `nonstandard_const` -/
def nonstandardConst : Folded → Bool
  | .floating _ n => n
  | .other k => k.nonstandardConst

/-- The constant with another `nonstandard_const`. -/
def setNonstandardConst (n : Bool) : Folded → Folded
  | .floating f _ => .floating f n
  | .other k => .other { k with nonstandardConst := n }

/-- The labels that a constant names. -/
def syms : Folded → List String
  | .floating _ _ => []
  | .other k => k.syms

/-- The constant is zero at run time. -/
def ZeroAt (ρ : Env) : Folded → Prop
  | .floating f _ => f.isZero = true
  | .other k => k.value ρ = 0

/-- A label is weak where the constant says so. -/
def Wf (O : Objects) : Folded → Prop
  | .floating _ _ => True
  | .other k => ∀ c, collapseConst k = some c → ∀ n, c.lbl = some n → O.weak n = c.isWeak

end Folded

/-! ## Constant conditions -/

/-- `res` in `fold_const_expr_if`; `none` is an internal compiler error. -/
def Folded.res (host : Host) : Folded → Option Int
  | .floating f _ => some (host.toInt f)
  | .other k =>
      match k.bits with
      -- a 64-bit number is assigned to an `int`
      | .num val _ => some (val.setWidth 32).toInt
      | .addr _ | .strk _ => some 1
      | .needAddr _ | .no => none

/-- The constant of the arm that is picked. -/
def takeArm (chosen rest : Folded) : Folded :=
  if chosen.atCompileTime then chosen.setNonstandardConst rest.nonstandardConst
  else .other constFoldNo

/-- `fold_const_expr_if`; without a middle operand the condition stands for it. -/
def foldConstExprIf (host : Host) (cond : Folded) (lhs : Option Folded) (rhs : Folded) :
    Option Folded :=
  let first := lhs.getD cond
  if cond.atCompileTime then
    match cond.res host with
    | none => none
    | some res => some (if res ≠ 0 then takeArm first rhs else takeArm rhs first)
  else some (.other constFoldNo)

/-- The two constants are the same, but for `nonstandard_const`. -/
def Folded.SameConst (k k' : Folded) : Prop :=
  k.setNonstandardConst false = k'.setNonstandardConst false

instance (k k' : Folded) : Decidable (k.SameConst k') :=
  inferInstanceAs (Decidable (k.setNonstandardConst false = k'.setNonstandardConst false))

/-- On every host: where the expression folds to the constant of one of two arms
that differ, it is the first arm's exactly when the condition is not zero wherever
the objects are. -/
def SelectsByTruth (O : Objects) (cond : Folded) (lhs : Option Folded) (rhs : Folded) : Prop :=
  ∀ host k, foldConstExprIf host cond lhs rhs = some k → k.atCompileTime = true →
    ¬ (lhs.getD cond).SameConst rhs →
      (k.SameConst (lhs.getD cond) ↔
        ∀ ρ : Env, ρ.Admissible O cond.syms → ¬ cond.ZeroAt ρ)

/-- When a constant is converted to a truth value that is right. -/
def Folded.TruthKept (O : Objects) : Folded → Prop
  -- the fraction is dropped
  | .floating (.finite q) _ => q = 0 ∨ 1 ≤ |q| ∧ IntRange (truncate q)
  | .floating _ _ => False
  | .other k =>
      match k.bits with
      -- the upper half is dropped
      | .num val _ => val.setWidth 32 = 0 ↔ val + k.offset = 0
      -- every address is taken for one that is not null
      | .addr (.memaddr a) => a + k.offset ≠ 0
      | .addr (.lblWeak _) => False
      | .addr (.lblTrue n) | .strk n => k.offset.toNat ≤ O.size n
      | .needAddr _ | .no => True

/-- `res` picks the first arm exactly for a constant that is not zero. -/
def Folded.ResRight (O : Objects) (host : Host) (cond : Folded) : Prop :=
  ∀ res, cond.res host = some res →
    (res ≠ 0 ↔ ∀ ρ : Env, ρ.Admissible O cond.syms → ¬ cond.ZeroAt ρ)

theorem Folded.sameConst_set (n : Bool) (k : Folded) : (k.setNonstandardConst n).SameConst k := by
  cases k with
  | floating f n' => rfl
  | other k => rfl

theorem Folded.SameConst.symm {k k' : Folded} (h : k.SameConst k') : k'.SameConst k := Eq.symm h

theorem Folded.SameConst.trans {k k' k'' : Folded} (h : k.SameConst k') (h' : k'.SameConst k'') :
    k.SameConst k'' := Eq.trans h h'

theorem takeArm_sameConst {chosen rest : Folded} (h : (takeArm chosen rest).atCompileTime = true) :
    (takeArm chosen rest).SameConst chosen := by
  unfold takeArm at h ⊢
  split
  · exact Folded.sameConst_set _ _
  · rename_i hct
    rw [if_neg hct] at h
    cases h

/-- What is folded is the arm that `res` picks. -/
theorem foldConstExprIf_cases {host : Host} {cond : Folded} {lhs : Option Folded}
    {rhs k : Folded} (h : foldConstExprIf host cond lhs rhs = some k)
    (hk : k.atCompileTime = true) :
    ∃ res, cond.res host = some res ∧ k.SameConst (if res ≠ 0 then lhs.getD cond else rhs) := by
  unfold foldConstExprIf at h
  split at h
  · split at h
    · cases h
    · rename_i res hres
      refine ⟨res, hres, ?_⟩
      obtain rfl := Option.some.inj h
      split
      · rename_i hz
        rw [if_pos hz] at hk
        exact takeArm_sameConst hk
      · rename_i hz
        rw [if_neg hz] at hk
        exact takeArm_sameConst hk
  · obtain rfl := Option.some.inj h
    cases hk

theorem selectsByTruth_of_resRight {O : Objects} {cond : Folded} (h : ∀ host, cond.ResRight O host)
    (lhs : Option Folded) (rhs : Folded) : SelectsByTruth O cond lhs rhs := by
  intro host k hfold hk hdiff
  obtain ⟨res, hres, hsame⟩ := foldConstExprIf_cases hfold hk
  rw [← h host res hres]
  constructor
  · intro hfirst hzero
    rw [if_neg (not_not.mpr hzero)] at hsame
    exact hdiff (hfirst.symm.trans hsame)
  · intro hres'
    rwa [if_pos hres'] at hsame

/-- Two arms that tell which one was taken. -/
theorem resRight_of_selectsByTruth {O : Objects} {cond : Folded}
    (h : ∀ lhs rhs, SelectsByTruth O cond lhs rhs) (hct : cond.atCompileTime = true)
    (host : Host) : cond.ResRight O host := by
  intro res hres
  have hdiff : ¬ (Folded.other (constNum 1)).SameConst (.other (constNum 0)) := by decide
  have hfold : foldConstExprIf host cond (some (.other (constNum 1))) (.other (constNum 0)) =
      some (if res ≠ 0 then .other (constNum 1) else .other (constNum 0)) := by
    unfold foldConstExprIf
    rw [if_pos hct, hres]
    rfl
  have hk : (if res ≠ 0 then Folded.other (constNum 1) else .other (constNum 0)).atCompileTime
      = true := by
    split <;> rfl
  rw [← h _ _ host _ hfold hk hdiff]
  by_cases hz : res ≠ 0
  · rw [if_pos hz]
    exact iff_of_true hz rfl
  · rw [if_neg hz]
    exact iff_of_false hz fun hsame => hdiff (Folded.SameConst.symm hsame)

/-! ### Numbers -/

theorem truncate_eq_zero_iff (q : ℚ) : truncate q = 0 ↔ |q| < 1 := by
  have hden : (0 : ℚ) < q.den := by exact_mod_cast q.den_pos
  have habs : |q| < 1 ↔ q.num.natAbs < q.den := by
    have hdiv : |q| = (q.num.natAbs : ℚ) / q.den := by
      conv_lhs => rw [← Rat.num_div_den q]
      rw [abs_div, abs_of_pos hden, Nat.cast_natAbs]
      push_cast
      rfl
    rw [hdiv, div_lt_one hden]
    exact_mod_cast Iff.rfl
  rw [habs, truncate, ← Int.natAbs_eq_zero, Int.natAbs_tdiv, Int.natAbs_natCast]
  exact Nat.div_eq_zero_iff_lt q.den_pos

instance (z : Int) : Decidable (IntRange z) :=
  inferInstanceAs (Decidable (-2 ^ 31 ≤ z ∧ z < 2 ^ 31))

/-- A host on which every conversion that is out of range gives 0. -/
def Host.zero : Host where
  toInt
    | .finite q => if IntRange (truncate q) then truncate q else 0
    | _ => 0
  conforms _ h := if_pos h

/-- Without labels, any addresses are possible. -/
theorem forall_admissible_nil {O : Objects} {P : Prop} :
    (∀ ρ : Env, ρ.Admissible O [] → P) ↔ P := by
  constructor
  · intro h
    exact h ⟨fun _ => 0, id⟩ ⟨by simp, by simp⟩
  · exact fun h _ _ => h

theorem floating_resRight_iff {O : Objects} (f : Floating) (n : Bool) :
    (∀ host, (Folded.floating f n).ResRight O host) ↔ (Folded.floating f n).TruthKept O := by
  have hright : ∀ host, (Folded.floating f n).ResRight O host ↔
      (host.toInt f ≠ 0 ↔ f.isZero = false) := by
    intro host
    have hzero : (∀ ρ : Env, ρ.Admissible O [] → ¬ f.isZero = true) ↔ f.isZero = false := by
      rw [forall_admissible_nil]
      exact Bool.not_eq_true _ ▸ Iff.rfl
    rw [← hzero]
    exact ⟨fun h => h _ rfl, fun h res hres => Option.some.inj hres ▸ h⟩
  simp only [hright]
  cases f with
  | finite q =>
    simp only [Folded.TruthKept, Floating.isZero, decide_eq_false_iff_not]
    constructor
    · intro h
      by_cases hq : q = 0
      · exact .inl hq
      by_cases hrange : IntRange (truncate q)
      · have hne := (h Host.zero).mpr hq
        rw [Host.zero.conforms q hrange] at hne
        exact .inr ⟨not_lt.mp fun hlt => hne ((truncate_eq_zero_iff q).mpr hlt), hrange⟩
      · exact absurd (if_neg hrange) ((h Host.zero).mpr hq)
    · rintro (rfl | ⟨hge, hrange⟩) host
      · rw [host.conforms 0 (by decide)]
        decide
      · rw [host.conforms q hrange, ne_eq, truncate_eq_zero_iff]
        refine iff_of_true (not_lt.mpr hge) ?_
        rintro rfl
        rw [abs_zero] at hge
        exact absurd hge (by decide)
  | inf negative => exact iff_of_false (fun h => (h Host.zero).mpr rfl rfl) id
  | nan => exact iff_of_false (fun h => (h Host.zero).mpr rfl rfl) id

/-! ### Addresses -/

/-- Any address that the object may have. -/
theorem exists_env_of_placed {O : Objects} {n : String} {a : Integral}
    (h : O.weak n = false → O.Placed n a) :
    ∃ ρ : Env, ρ.Admissible O [n] ∧ ρ.addr n = a := by
  obtain ⟨ρ, hadm, haddr, -⟩ := exists_env id
    (fun x (hx : x ∈ [n]) => Or.inl (b := x = n) (List.mem_singleton.mp hx)) h
  exact ⟨ρ, hadm, haddr⟩

/-- The address of an object that is not weak, plus an offset, cannot be zero exactly
when the offset is not behind the object. -/
theorem label_nonzero_iff {O : Objects} {n : String} (hw : O.weak n = false) (o : Integral) :
    (∀ ρ : Env, ρ.Admissible O [n] → ¬ ρ.addr n + o = 0) ↔ o.toNat ≤ O.size n := by
  constructor
  · intro hne
    by_contra hlt
    obtain ⟨ρ, hadm, haddr⟩ := exists_env_of_placed fun _ => placed_neg (not_le.mp hlt)
    refine hne ρ hadm ?_
    rw [haddr, neg_add_cancel]
  · intro hle ρ hadm
    exact (hadm.1 n (List.mem_singleton.mpr rfl) hw).add_ne_zero hle

/-- A weak label can be anywhere. -/
theorem exists_weak_zero {O : Objects} {n : String} (hw : O.weak n = true) (o : Integral) :
    ∃ ρ : Env, ρ.Admissible O [n] ∧ ρ.addr n + o = 0 := by
  have hplaced : O.weak n = false → O.Placed n (-o) := by
    intro hs
    rw [hw] at hs
    cases hs
  obtain ⟨ρ, hadm, haddr⟩ := exists_env_of_placed hplaced
  exact ⟨ρ, hadm, by rw [haddr, neg_add_cancel]⟩

theorem other_resRight_iff {O : Objects} {k : Consty} (hwf : (Folded.other k).Wf O) (host : Host) :
    (Folded.other k).ResRight O host ↔ (Folded.other k).TruthKept O := by
  obtain ⟨bits, offset, nonstandardConst⟩ := k
  -- a number is picked for the condition in each case
  have hres : ∀ {res : Int} {k : Consty}, (Folded.other k).res host = some res →
      ((Folded.other k).ResRight O host ↔ (res ≠ 0 ↔
        ∀ ρ : Env, ρ.Admissible O k.syms → ¬ k.value ρ = 0)) :=
    fun hr => ⟨fun h => h _ hr, fun h res hr' => Option.some.inj (hr.symm.trans hr') ▸ h⟩
  cases bits with
  | no => exact iff_of_true (fun res hr => nomatch hr) trivial
  | needAddr a => exact iff_of_true (fun res hr => nomatch hr) trivial
  | num val suffix =>
    rw [hres rfl]
    show (_ ↔ ∀ ρ : Env, ρ.Admissible O [] → ¬ val + offset = 0) ↔
      (val.setWidth 32 = 0 ↔ val + offset = 0)
    rw [forall_admissible_nil, not_iff_not]
    refine iff_congr ⟨fun h => ?_, fun h => ?_⟩ Iff.rfl
    · exact BitVec.eq_of_toInt_eq h
    · rw [h]
      rfl
  | addr a =>
    rw [hres rfl, iff_true_left one_ne_zero]
    cases a with
    | memaddr a => exact forall_admissible_nil (O := O) (P := ¬ a + offset = 0)
    | lblTrue n => exact label_nonzero_iff (hwf _ rfl n rfl) offset
    | lblWeak n =>
      obtain ⟨ρ, hadm, hzero⟩ := exists_weak_zero (hwf _ rfl n rfl) offset
      exact iff_of_false (fun h => h ρ hadm hzero) id
  | strk n =>
    rw [hres rfl, iff_true_left one_ne_zero]
    exact label_nonzero_iff (hwf _ rfl n rfl) offset

/-- Objects of four bytes, none of them weak. -/
def fourByteObjects : Objects where
  size _ := 4
  weak _ := false
  size_pos _ := by decide
  size_lt _ := by decide

/-- `const_expr_zero` -/
def constExprZero (k : Folded) (zero : Bool) : Bool :=
  match k with
  | .floating f _ => f.isZero == zero
  | .other k =>
      match k.bits with
      | .num val _ => (val == 0) == zero
      | .addr (.memaddr a) => a == 0
      | .addr (.lblTrue _) | .addr (.lblWeak _) => false
      | .needAddr _ | .strk _ | .no => false

/-- `const_expr_and_zero` -/
def constExprAndZero (k : Folded) : Bool := constExprZero k true

/-- `const_expr_and_non_zero` -/
def constExprAndNonZero (k : Folded) : Bool := constExprZero k false

/-- `decl_init`.  An entry that is left out is `DYNARRAY_NULL`; a scalar is given by
what its expression folds to. -/
inductive DeclInit where
  | null
  | scalar (expr : Folded)
  | brace (inits : List DeclInit)
  | copy (rangeInit : DeclInit)

mutual

/-- `decl_init_is_zero` -/
def declInitIsZero : DeclInit → Bool
  | .null => true
  | .scalar expr => constExprAndZero expr
  | .brace inits => declInitsAreZero inits
  | .copy rangeInit => declInitIsZero rangeInit

/-- The loop of `decl_init_is_zero` over the entries of a brace. -/
def declInitsAreZero : List DeclInit → Bool
  | [] => true
  | init :: inits => declInitIsZero init && declInitsAreZero inits

end

mutual

/-- The scalars of an initialiser. -/
def DeclInit.leaves : DeclInit → List Folded
  | .null => []
  | .scalar expr => [expr]
  | .brace inits => leavesAll inits
  | .copy rangeInit => rangeInit.leaves

/-- The scalars of the entries of a brace. -/
def leavesAll : List DeclInit → List Folded
  | [] => []
  | init :: inits => init.leaves ++ leavesAll inits

end

/-- The tests of a constant are right, whatever the addresses are, and not both
true. -/
structure TestsExact (O : Objects) (k : Folded) : Prop where
  notBoth : ¬ (constExprAndZero k = true ∧ constExprAndNonZero k = true)
  zero : constExprAndZero k = true → ∀ ρ : Env, ρ.Admissible O k.syms → k.ZeroAt ρ
  nonZero : constExprAndNonZero k = true → ∀ ρ : Env, ρ.Admissible O k.syms → ¬ k.ZeroAt ρ

/-- The tests of every scalar of an initialiser are right, and where the whole tests
as zero, every scalar is zero. -/
structure ZeroExact (O : Objects) (init : DeclInit) : Prop where
  tests : ∀ k ∈ init.leaves, TestsExact O k
  leaves : declInitIsZero init = true →
    ∀ k ∈ init.leaves, ∀ ρ : Env, ρ.Admissible O k.syms → k.ZeroAt ρ

/-- The constant is no address that is the number 0, with or without an offset; and
the offset beside a number, if there is one, does not matter. -/
def Folded.TestsWell : Folded → Prop
  | .floating _ _ => True
  | .other k =>
      match k.bits with
      | .num val _ => val = 0 ↔ val + k.offset = 0
      | .addr (.memaddr a) => a ≠ 0
      | _ => True

/-- Two tests that are complementary on a constant that does not depend on
addresses. -/
theorem testsExact_iff_of_number {O : Objects} {k : Folded} {z : Bool} {Z : Prop}
    (hzero : ∀ zero, constExprZero k zero = (z == zero)) (hsyms : k.syms = [])
    (hat : ∀ ρ, k.ZeroAt ρ ↔ Z) : TestsExact O k ↔ (z = true ↔ Z) := by
  have hany : ∀ {P : Prop}, (∀ ρ : Env, ρ.Admissible O k.syms → P) ↔ P := by
    rw [hsyms]
    exact forall_admissible_nil
  have hz : constExprAndZero k = z := by
    rw [constExprAndZero, hzero]
    cases z <;> rfl
  have hn : constExprAndNonZero k = !z := by
    rw [constExprAndNonZero, hzero]
    cases z <;> rfl
  constructor
  · intro h
    have h₁ := h.zero
    have h₂ := h.nonZero
    simp only [hat, hany, hz] at h₁
    simp only [hat, hany, hn] at h₂
    cases z with
    | true => exact iff_of_true rfl (h₁ rfl)
    | false => exact iff_of_false (by decide) (h₂ rfl)
  · intro h
    refine ⟨?_, ?_, ?_⟩
    · rw [hz, hn]
      cases z <;> decide
    · rw [hz]
      exact fun ht ρ _ => (hat ρ).mpr (h.mp ht)
    · rw [hn]
      intro ht ρ _ hzero
      rw [h.mpr ((hat ρ).mp hzero)] at ht
      cases ht

/-- Tests that are both false are right. -/
theorem testsExact_of_false {O : Objects} {k : Folded} (h : ∀ zero, constExprZero k zero = false) :
    TestsExact O k := by
  refine ⟨fun hb => ?_, fun hz => ?_, fun hn => ?_⟩
  · rw [constExprAndZero, h] at hb
    exact nomatch hb.1
  · rw [constExprAndZero, h] at hz
    cases hz
  · rw [constExprAndNonZero, h] at hn
    cases hn

theorem testsExact_iff {O : Objects} (k : Folded) : TestsExact O k ↔ k.TestsWell := by
  cases k with
  | floating f n =>
    rw [testsExact_iff_of_number (z := f.isZero) (Z := f.isZero = true) (fun _ => rfl) rfl
      fun _ => Iff.rfl]
    exact iff_of_true Iff.rfl trivial
  | other k =>
    obtain ⟨bits, offset, nonstandardConst⟩ := k
    cases bits with
    | num val suffix =>
      rw [testsExact_iff_of_number (z := val == 0) (Z := val + offset = 0) (fun _ => rfl) rfl
        fun _ => Iff.rfl, beq_iff_eq]
      rfl
    | addr a =>
      cases a with
      | memaddr a =>
        show _ ↔ a ≠ 0
        by_cases ha : a = 0
        · refine iff_of_false (fun h => h.notBoth ?_) (not_not.mpr ha)
          exact ⟨beq_iff_eq.mpr ha, beq_iff_eq.mpr ha⟩
        · exact iff_of_true (testsExact_of_false fun _ => beq_eq_false_iff_ne.mpr ha) ha
      | lblTrue n => exact iff_of_true (testsExact_of_false fun _ => rfl) trivial
      | lblWeak n => exact iff_of_true (testsExact_of_false fun _ => rfl) trivial
    | no => exact iff_of_true (testsExact_of_false fun _ => rfl) trivial
    | needAddr a => exact iff_of_true (testsExact_of_false fun _ => rfl) trivial
    | strk n => exact iff_of_true (testsExact_of_false fun _ => rfl) trivial

mutual

/-- Every scalar of an initialiser that tests as zero does. -/
theorem constExprAndZero_of_leaf (init : DeclInit) (h : declInitIsZero init = true) :
    ∀ k ∈ init.leaves, constExprAndZero k = true := by
  cases init with
  | null => simp [DeclInit.leaves]
  | scalar expr =>
    intro k hk
    rw [DeclInit.leaves, List.mem_singleton] at hk
    rw [hk]
    rwa [declInitIsZero] at h
  | brace inits =>
    rw [declInitIsZero] at h
    rw [DeclInit.leaves]
    exact constExprAndZero_of_leaves inits h
  | copy rangeInit =>
    rw [declInitIsZero] at h
    rw [DeclInit.leaves]
    exact constExprAndZero_of_leaf rangeInit h

theorem constExprAndZero_of_leaves (inits : List DeclInit) (h : declInitsAreZero inits = true) :
    ∀ k ∈ leavesAll inits, constExprAndZero k = true := by
  cases inits with
  | nil => simp [leavesAll]
  | cons init inits =>
    rw [declInitsAreZero, Bool.and_eq_true] at h
    intro k hk
    rw [leavesAll, List.mem_append] at hk
    rcases hk with hk | hk
    · exact constExprAndZero_of_leaf init h.1 k hk
    · exact constExprAndZero_of_leaves inits h.2 k hk

end

end Ucc.Cc1
