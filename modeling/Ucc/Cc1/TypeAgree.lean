/-
  Cc1/TypeAgree.lean --- two types that a third one is equal to.

  Source: type_cmp_r in src/cc1/type.c and funcargs_cmp in src/cc1/funcargs.c.

  type_cmp is not transitive: `int ()` equals `int (int)` and `int (double)`.  What the
  type in the middle may leave open is where attributes are, the size of an array and
  the parameters of a function; base types and qualifiers are always settled by it.
-/
import Ucc.Cc1.TypeCmp

set_option autoImplicit false

namespace Ucc.Cc1

/-! ## Equal types and like ones -/

/-- The types are equal. -/
def EqualTypes (E : TypeEnv) (tentative : Bool) (a b : Ty) : Prop :=
  ∃ c, typeCmpR E tentative a b = some c ∧ c.equalAny = true

/-- The types are equal but for qualifiers that no pointer is in front of. -/
def LikeTypes (E : TypeEnv) (tentative : Bool) (a b : Ty) : Prop :=
  ∃ c, typeCmpR E tentative a b = some c ∧ c.sameParam = true

/-- What `type_cmp` takes for the same qualifiers. -/
def SameQuals (q r : TypeQual) : Prop :=
  (q = .none ↔ r = .none) ∧ q.const = r.const ∧ q.volatile = r.volatile

theorem SameQuals.of_two {p q r : TypeQual} (h : SameQuals p q) (h' : SameQuals p r) :
    SameQuals r q :=
  ⟨h'.1.symm.trans h.1, h'.2.1.symm.trans h.2.1, h'.2.2.symm.trans h.2.2⟩

theorem typeQualCmp_eq_zero (q r : TypeQual) :
    (typeQualCmp q r ≠ -1 ∧ typeQualCmp q r ≠ 1) ↔ q.const = r.const ∧ q.volatile = r.volatile := by
  obtain ⟨qc, qv, qr⟩ := q
  obtain ⟨rc, rv, rr⟩ := r
  cases qc <;> cases rc <;> cases qv <;> cases rv <;> simp [typeQualCmp]

theorem cmpQuals_of_same {q r : TypeQual} (h : SameQuals q r) (c : TypeCmp) :
    cmpQuals q r c = c := by
  obtain ⟨hnone, hquals⟩ := h
  obtain ⟨hadd, hsub⟩ := (typeQualCmp_eq_zero q r).mpr hquals
  unfold cmpQuals
  by_cases hq : q = .none
  · simp [hq, hnone.mp hq]
  · simp [hq, mt hnone.mpr hq, hadd, hsub]

theorem cmpQuals_of_not_same {q r : TypeQual} (h : ¬ SameQuals q r) {c : TypeCmp}
    (hc : c.equalAny = true) : cmpQuals q r c = .qualAdd ∨ cmpQuals q r c = .qualSub := by
  unfold cmpQuals
  rw [if_pos hc]
  by_cases hq : q = .none
  · by_cases hr : r = .none
    · exact absurd ⟨iff_of_true hq hr, by rw [hq, hr], by rw [hq, hr]⟩ h
    · simp [hq, hr]
  · by_cases hr : r = .none
    · simp [hq, hr]
    · have hcmp : ¬ (typeQualCmp q r ≠ -1 ∧ typeQualCmp q r ≠ 1) := fun hcmp =>
        h ⟨iff_of_false hq hr, (typeQualCmp_eq_zero q r).mp hcmp⟩
      simp only [hq, hr, ne_eq, not_false_eq_true, decide_true, Bool.and_self, if_true]
      by_cases hadd : typeQualCmp q r = -1
      · simp [hadd]
      · have hsub : typeQualCmp q r = 1 := by
          by_contra hsub
          exact hcmp ⟨hadd, hsub⟩
        simp [hsub]

theorem coarse_equalAny (c : TypeCmp) : c.coarse.equalAny = c.equalAny := by
  cases c <;> rfl

theorem coarse_sameParam (c : TypeCmp) : c.coarse.sameParam = c.sameParam := by
  cases c <;> rfl

theorem sameParam_of_equalAny {c : TypeCmp} (h : c.equalAny = true) : c.sameParam = true := by
  cases c <;> first | rfl | cases h

theorem EqualTypes.like {E : TypeEnv} {tentative : Bool} {a b : Ty}
    (h : EqualTypes E tentative a b) : LikeTypes E tentative a b := by
  obtain ⟨c, hc, heq⟩ := h
  exact ⟨c, hc, sameParam_of_equalAny heq⟩

/-- What comes before the qualifiers are compared. -/
theorem beforeQuals (E : TypeEnv) (a b : Ty) (ret : TypeCmp) :
    (throughPointer a (decayImplicit a (fixNotEqual E a b ret))).equalAny = ret.equalAny ∧
      (throughPointer a (decayImplicit a (fixNotEqual E a b ret))).sameParam =
        if a.pointerLike then ret.equalAny else ret.sameParam := by
  have hcoarse : (decayImplicit a (fixNotEqual E a b ret)).coarse = ret.coarse := by
    rw [coarse_decayImplicit, coarse_fixNotEqual]
  rw [← coarse_equalAny ret, ← coarse_sameParam ret, ← hcoarse, coarse_equalAny, coarse_sameParam,
    throughPointer_eq]
  generalize decayImplicit a (fixNotEqual E a b ret) = c
  cases a.pointerLike <;> cases c <;> exact ⟨rfl, rfl⟩

section Fixups

variable {E : TypeEnv} {origA origB a b : Ty} {ret : TypeCmp}

theorem equalAny_cmpTdefs (c : TypeCmp) : (cmpTdefs origA origB c).equalAny = c.equalAny := by
  unfold cmpTdefs
  split
  · rename_i h
    rw [Bool.and_eq_true, decide_eq_true_eq] at h
    rw [h.1]
    rfl
  · rfl

theorem sameParam_cmpTdefs (c : TypeCmp) : (cmpTdefs origA origB c).sameParam = c.sameParam := by
  unfold cmpTdefs
  split
  · rename_i h
    rw [Bool.and_eq_true, decide_eq_true_eq] at h
    rw [h.1]
    rfl
  · rfl

theorem equalAny_cmpFixups : (cmpFixups E origA origB a b ret).equalAny = true ↔
    ret.equalAny = true ∧ SameQuals origA.qual origB.qual ∧
      typeAttributeMissing E origA origB = false := by
  obtain ⟨hequal, -⟩ := beforeQuals E a b ret
  rw [cmpFixups, equalAny_cmpTdefs, ← hequal]
  generalize throughPointer a (decayImplicit a (fixNotEqual E a b ret)) = c
  unfold cmpAttributes
  by_cases hc : c.equalAny = true
  · by_cases hquals : SameQuals origA.qual origB.qual
    · rw [cmpQuals_of_same hquals, hc]
      cases hmissing : typeAttributeMissing E origA origB with
      | false => simp [hquals, hc]
      | true => simp [TypeCmp.equalAny]
    · rcases cmpQuals_of_not_same hquals hc with h | h <;> simp [h, hquals, TypeCmp.equalAny]
  · have hsame : cmpQuals origA.qual origB.qual c = c := by
      rw [cmpQuals, if_neg hc]
    simp [hsame, hc]

theorem sameParam_cmpFixups : (cmpFixups E origA origB a b ret).sameParam = true ↔
    (ret.equalAny = true ∧ (SameQuals origA.qual origB.qual →
      typeAttributeMissing E origA origB = false)) ∨
    (a.pointerLike = false ∧ ret.sameParam = true ∧ ret.equalAny = false) := by
  obtain ⟨hequal, hparam⟩ := beforeQuals E a b ret
  rw [cmpFixups, sameParam_cmpTdefs]
  generalize throughPointer a (decayImplicit a (fixNotEqual E a b ret)) = c at *
  unfold cmpAttributes
  by_cases hc : c.equalAny = true
  · rw [hc] at hequal
    by_cases hquals : SameQuals origA.qual origB.qual
    · rw [cmpQuals_of_same hquals, hc, ← hequal]
      cases hmissing : typeAttributeMissing E origA origB with
      | false => simp [sameParam_of_equalAny hc]
      | true => simp [TypeCmp.sameParam, hquals]
    · rcases cmpQuals_of_not_same hquals hc with h | h <;> rw [h, ← hequal] <;>
        simp [hquals, TypeCmp.equalAny, TypeCmp.sameParam]
  · have hsame : cmpQuals origA.qual origB.qual c = c := by
      rw [cmpQuals, if_neg hc]
    have hret : ret.equalAny = false := by
      rw [← hequal]
      exact Bool.eq_false_iff.mpr hc
    rw [hsame, hret]
    simp only [hc, Bool.false_and, Bool.false_eq_true, false_and, false_or, if_false, and_true]
    rw [hparam]
    cases a.pointerLike <;> simp [hret]

end Fixups

/-! ## One level of a type -/

section Levels

variable {E : TypeEnv} {tentative : Bool} {a b r r' : Ty}

/-- The attributes of `b` are in `a`, where the qualifiers are the same. -/
def AttrsKept (E : TypeEnv) (a b : Ty) : Prop :=
  SameQuals a.qual b.qual → typeAttributeMissing E a b = false

theorem equalTypes_map {x y : Ty} (h : typeCmpR E tentative a b =
      (typeCmpR E tentative r r').map (cmpFixups E a b x y)) :
    EqualTypes E tentative a b ↔ EqualTypes E tentative r r' ∧ SameQuals a.qual b.qual ∧
      typeAttributeMissing E a b = false := by
  unfold EqualTypes
  rw [h]
  cases typeCmpR E tentative r r' with
  | none => simp
  | some c => simp [equalAny_cmpFixups]

theorem likeTypes_map {x y : Ty} (h : typeCmpR E tentative a b =
      (typeCmpR E tentative r r').map (cmpFixups E a b x y)) :
    LikeTypes E tentative a b ↔ (EqualTypes E tentative r r' ∧ AttrsKept E a b) ∨
      (x.pointerLike = false ∧ LikeTypes E tentative r r' ∧ ¬ EqualTypes E tentative r r') := by
  unfold LikeTypes EqualTypes AttrsKept
  rw [h]
  cases typeCmpR E tentative r r' with
  | none => simp
  | some c => simp [sameParam_cmpFixups]

theorem likeTypes_pointer {x y : Ty} (hx : x.pointerLike = true) (h : typeCmpR E tentative a b =
      (typeCmpR E tentative r r').map (cmpFixups E a b x y)) :
    LikeTypes E tentative a b ↔ EqualTypes E tentative r r' ∧ AttrsKept E a b := by
  rw [likeTypes_map h, hx]
  simp

theorem likeTypes_through {x y : Ty} (hx : x.pointerLike = false) (h : typeCmpR E tentative a b =
      (typeCmpR E tentative r r').map (cmpFixups E a b x y)) :
    LikeTypes E tentative a b ↔ LikeTypes E tentative r r' ∧
      (EqualTypes E tentative r r' → AttrsKept E a b) := by
  rw [likeTypes_map h, hx]
  constructor
  · rintro (⟨heq, hkept⟩ | ⟨-, hlike, hne⟩)
    · exact ⟨heq.like, fun _ => hkept⟩
    · exact ⟨hlike, fun heq => absurd heq hne⟩
  · rintro ⟨hlike, hkept⟩
    by_cases heq : EqualTypes E tentative r r'
    · exact .inl ⟨heq, hkept heq⟩
    · exact .inr ⟨rfl, hlike, heq⟩

theorem BType.Same.of_two {x y z : BType} (h : x.Same y) (h' : x.Same z) : z.Same y := by
  cases x <;> cases y <;> cases z <;>
    first | exact (Eq.symm h').trans h | exact absurd h id | exact absurd h' id

theorem equalAny_btypeCmp (x y : BType) : (btypeCmp x y).equalAny = true ↔ x.Same y := by
  rcases btypeCmp_cases x y with ⟨hsame, hcmp⟩ | ⟨hsame, hcmp⟩
  · rw [hcmp]
    exact iff_of_true rfl hsame
  · rw [← coarse_equalAny, hcmp]
    exact iff_of_false nofun hsame

theorem sameParam_btypeCmp (x y : BType) :
    (btypeCmp x y).sameParam = (btypeCmp x y).equalAny := by
  rcases btypeCmp_cases x y with ⟨-, hcmp⟩ | ⟨-, hcmp⟩
  · rw [hcmp]
    rfl
  · rw [← coarse_equalAny, ← coarse_sameParam, hcmp]
    rfl

theorem equalTypes_btype {x y : BType} (ha : a.skipAll = .btype x) (hb : b.skipAll = .btype y) :
    EqualTypes E tentative a b ↔
      x.Same y ∧ SameQuals a.qual b.qual ∧ typeAttributeMissing E a b = false := by
  rw [EqualTypes, typeCmpR_btype ha hb, ← equalAny_btypeCmp]
  simp [equalAny_cmpFixups]

theorem likeTypes_btype {x y : BType} (ha : a.skipAll = .btype x) (hb : b.skipAll = .btype y) :
    LikeTypes E tentative a b ↔ x.Same y ∧ AttrsKept E a b := by
  rw [LikeTypes, typeCmpR_btype ha hb, ← equalAny_btypeCmp]
  simp [sameParam_cmpFixups, sameParam_btypeCmp, AttrsKept]

end Levels

/-! ## Arrays and functions -/

/-- The sizes of two arrays do not differ. -/
def SizesAgree (tentative : Bool) (size size' : Option SizeExpr) (kind kind' : VlaKind) : Prop :=
  cmpSizes tentative size size' kind kind' = some true

instance (tentative : Bool) (size size' : Option SizeExpr) (kind kind' : VlaKind) :
    Decidable (SizesAgree tentative size size' kind kind') :=
  inferInstanceAs (Decidable (_ = _))

/-- A size that settles those of the arrays it agrees with. -/
def SizeFixed (tentative : Bool) (size : Option SizeExpr) (kind : VlaKind) : Prop :=
  kind = .no ∧ (tentative = true → size ≠ none)

instance (tentative : Bool) (size : Option SizeExpr) (kind : VlaKind) :
    Decidable (SizeFixed tentative size kind) :=
  inferInstanceAs (Decidable (_ ∧ _))

theorem sizesAgree_vla {tentative : Bool} {size size' : Option SizeExpr} {kind kind' : VlaKind}
    (h : kind ≠ .no ∨ kind' ≠ .no) : SizesAgree tentative size size' kind kind' := by
  unfold SizesAgree cmpSizes
  exact if_pos (by simpa using h)

theorem sizesAgree_no {tentative : Bool} {size size' : Option SizeExpr} :
    SizesAgree tentative size size' .no .no ↔
      (size = size' ∧ size ≠ some .nonConst) ∨
        (tentative = true ∧ ¬ (size = none ↔ size' = none)) := by
  unfold SizesAgree cmpSizes
  rcases size with _ | n | _ <;> rcases size' with _ | n' | _ <;> simp

theorem SizesAgree.of_two {tentative : Bool} {size size' size'' : Option SizeExpr}
    {kind kind' kind'' : VlaKind} (hfixed : SizeFixed tentative size kind)
    (h : SizesAgree tentative size size' kind kind')
    (h' : SizesAgree tentative size size'' kind kind'') :
    SizesAgree tentative size'' size' kind'' kind' := by
  obtain ⟨rfl, hsize⟩ := hfixed
  by_cases hkind' : kind' = .no
  · by_cases hkind'' : kind'' = .no
    · subst hkind' hkind''
      rw [sizesAgree_no] at h h' ⊢
      rcases h with ⟨rfl, hconst⟩ | ⟨ht, hone⟩
      · rcases h' with ⟨rfl, -⟩ | ⟨ht, hone⟩
        · exact .inl ⟨rfl, hconst⟩
        · exact .inr ⟨ht, fun hiff => hone hiff.symm⟩
      · have hnone : size' = none := by
          by_contra hsome
          exact hone (iff_of_false (hsize ht) hsome)
        rcases h' with ⟨rfl, -⟩ | ⟨-, hone'⟩
        · exact .inr ⟨ht, fun hiff => hone hiff⟩
        · have hnone' : size'' = none := by
            by_contra hsome
            exact hone' (iff_of_false (hsize ht) hsome)
          exact .inl ⟨hnone'.trans hnone.symm, by rw [hnone']; exact nofun⟩
    · exact sizesAgree_vla (.inl hkind'')
  · exact sizesAgree_vla (.inr hkind')

/-- Two parameter lists go together. -/
def ListsAgree (E : TypeEnv) (args args' : Nat) (void variadic void' : Bool)
    (arglist arglist' : List Ty) : Prop :=
  ∃ cmp, funcargsCmp E args args' void variadic void' arglist arglist' = some cmp ∧
    cmp.compatible = true

/-- The parameters are like one another, as far as both lists go. -/
def LikeArgs (E : TypeEnv) : List Ty → List Ty → Prop
  | a :: as, b :: bs => LikeTypes E false a b ∧ LikeArgs E as bs
  | _, _ => True

theorem cmpArglist_compatible (E : TypeEnv) : ∀ as bs : List Ty,
    (∃ cmp, cmpArglist E as bs = some cmp ∧ cmp.compatible = true) ↔ LikeArgs E as bs
  | [], _ => iff_of_true ⟨_, rfl, rfl⟩ trivial
  | _ :: _, [] => iff_of_true ⟨_, rfl, rfl⟩ trivial
  | a :: as, b :: bs => by
      have hparam : ∀ c, (voidPtrConversion a b c).sameParam = c.sameParam := fun c => by
        rw [← coarse_sameParam, coarse_voidPtrConversion, coarse_sameParam]
      rw [LikeArgs, ← cmpArglist_compatible E as bs, LikeTypes, typeCmpR, cmpArglist]
      cases cmpSkipped E false a a b with
      | none => simp
      | some c => cases hc : c.sameParam <;> simp [hparam, hc, FuncargsCmp.compatible]

/-- Lists that are not compared agree; others must have as many parameters. -/
theorem listsAgree_iff {E : TypeEnv} {args args' : Nat} {void variadic void' : Bool}
    {arglist arglist' : List Ty} : ListsAgree E args args' void variadic void' arglist arglist' ↔
      Shares args args' void void' arglist.length arglist'.length ∨
        ((if variadic then arglist.length ≤ arglist'.length
          else arglist.length = arglist'.length) ∧ LikeArgs E arglist arglist') := by
  unfold ListsAgree funcargsCmp
  by_cases hshares : Shares args args' void void' arglist.length arglist'.length
  · obtain ⟨cmp, hcmp, hok⟩ := funcargsHead_of_shares hshares variadic
    rw [hcmp]
    exact iff_of_true ⟨cmp, rfl, hok⟩ (.inl hshares)
  · rw [funcargsHead_of_not_shares hshares variadic, or_iff_right hshares,
      ← cmpArglist_compatible]
    by_cases hcount : if variadic then arglist.length ≤ arglist'.length
        else arglist.length = arglist'.length
    · rw [if_pos hcount, and_iff_right hcount]
    · rw [if_neg hcount]
      exact iff_of_false (by simp [FuncargsCmp.compatible]) fun h => hcount h.1

section Levels

variable {E : TypeEnv} {tentative : Bool} {a b r r' : Ty}

theorem typeCmpR_array_agree {size size' : Option SizeExpr} {kind kind' : VlaKind}
    (ha : a.skipAll = .array size kind r) (hb : b.skipAll = .array size' kind' r')
    (h : SizesAgree tentative size size' kind kind') : typeCmpR E tentative a b =
      (typeCmpR E tentative r r').map
        (cmpFixups E a b (.array size kind r) (.array size' kind' r')) := by
  rw [typeCmpR_array ha hb, h]
  rfl

theorem sizesAgree_of_like {size size' : Option SizeExpr} {kind kind' : VlaKind}
    (ha : a.skipAll = .array size kind r) (hb : b.skipAll = .array size' kind' r')
    (h : LikeTypes E tentative a b) : SizesAgree tentative size size' kind kind' := by
  obtain ⟨c, hc, hparam⟩ := h
  rw [typeCmpR_array ha hb] at hc
  unfold SizesAgree
  cases hsizes : cmpSizes tentative size size' kind kind' with
  | none =>
    rw [hsizes] at hc
    cases hc
  | some same =>
    cases same with
    | true => rfl
    | false =>
      rw [hsizes] at hc
      cases hc
      cases hparam

variable {args args' : Nat} {void variadic void' variadic' : Bool} {arglist arglist' : List Ty}

theorem typeCmpR_func_agree (ha : a.skipAll = .func args void variadic arglist r)
    (hb : b.skipAll = .func args' void' variadic' arglist' r')
    (h : ListsAgree E args args' void variadic void' arglist arglist') :
    typeCmpR E tentative a b = (typeCmpR E tentative r r').map
      (cmpFixups E a b (.func args void variadic arglist r)
        (.func args' void' variadic' arglist' r')) := by
  obtain ⟨cmp, hcmp, hok⟩ := h
  rw [typeCmpR_func ha hb, hcmp, Option.bind_some, if_pos hok]

theorem listsAgree_of_like (ha : a.skipAll = .func args void variadic arglist r)
    (hb : b.skipAll = .func args' void' variadic' arglist' r') (h : LikeTypes E tentative a b) :
    ListsAgree E args args' void variadic void' arglist arglist' := by
  obtain ⟨c, hc, hparam⟩ := h
  rw [typeCmpR_func ha hb] at hc
  obtain ⟨cmp, hcmp, hthen⟩ := Option.bind_eq_some_iff.mp hc
  split at hthen
  · rename_i hok
    exact ⟨cmp, hcmp, hok⟩
  · cases hthen
    cases hparam

/-- What is the same at the front of two equal types, besides their kind. -/
def SameFront (E : TypeEnv) (a b : Ty) : Prop :=
  SameQuals a.qual b.qual ∧ typeAttributeMissing E a b = false

theorem equalTypes_array {size size' : Option SizeExpr} {kind kind' : VlaKind}
    (ha : a.skipAll = .array size kind r) (hb : b.skipAll = .array size' kind' r') :
    EqualTypes E tentative a b ↔ SizesAgree tentative size size' kind kind' ∧
      EqualTypes E tentative r r' ∧ SameFront E a b := by
  constructor
  · intro h
    have hsizes := sizesAgree_of_like ha hb h.like
    exact ⟨hsizes, (equalTypes_map (typeCmpR_array_agree ha hb hsizes)).mp h⟩
  · rintro ⟨hsizes, h⟩
    exact (equalTypes_map (typeCmpR_array_agree ha hb hsizes)).mpr h

theorem equalTypes_func (ha : a.skipAll = .func args void variadic arglist r)
    (hb : b.skipAll = .func args' void' variadic' arglist' r') :
    EqualTypes E tentative a b ↔ ListsAgree E args args' void variadic void' arglist arglist' ∧
      EqualTypes E tentative r r' ∧ SameFront E a b := by
  constructor
  · intro h
    have hlists := listsAgree_of_like ha hb h.like
    exact ⟨hlists, (equalTypes_map (typeCmpR_func_agree ha hb hlists)).mp h⟩
  · rintro ⟨hlists, h⟩
    exact (equalTypes_map (typeCmpR_func_agree ha hb hlists)).mpr h

/-- Types that are like one another skip to the same kind. -/
theorem LikeTypes.kinds (h : LikeTypes E tentative a b) :
    (∃ x y, a.skipAll = .btype x ∧ b.skipAll = .btype y) ∨
    (∃ r r', a.skipAll = .ptr r ∧ b.skipAll = .ptr r') ∨
    (∃ r r', a.skipAll = .block r ∧ b.skipAll = .block r') ∨
    (∃ size kind r size' kind' r', a.skipAll = .array size kind r ∧
      b.skipAll = .array size' kind' r') ∨
    (∃ args void variadic arglist r args' void' variadic' arglist' r',
      a.skipAll = .func args void variadic arglist r ∧
        b.skipAll = .func args' void' variadic' arglist' r') := by
  rcases skipAll_pair a b with hkind | hkind | hkind | hkind | hkind | hdiff
  · exact .inl hkind
  · exact .inr (.inl hkind)
  · exact .inr (.inr (.inl hkind))
  · exact .inr (.inr (.inr (.inl hkind)))
  · exact .inr (.inr (.inr (.inr hkind)))
  · obtain ⟨c, hc, hlike⟩ := h
    obtain rfl := Option.some.inj ((hdiff E tentative).1.symm.trans hc)
    rw [← coarse_sameParam, coarse_cmpKinds] at hlike
    cases hlike

/-! ### What a like type skips to -/

theorem LikeTypes.btype {x : BType} (h : LikeTypes E tentative a b) (ha : a.skipAll = .btype x) :
    ∃ y, b.skipAll = .btype y ∧ x.Same y := by
  rcases h.kinds with ⟨x', y, hx, hy⟩ | ⟨_, _, hx, -⟩ | ⟨_, _, hx, -⟩ | ⟨_, _, _, _, _, _, hx, -⟩ |
      ⟨_, _, _, _, _, _, _, _, _, _, hx, -⟩ <;> obtain heq := ha.symm.trans hx <;> cases heq
  exact ⟨y, hy, ((likeTypes_btype ha hy).mp h).1⟩

theorem LikeTypes.ptr (h : LikeTypes E tentative a b) (ha : a.skipAll = .ptr r) :
    ∃ r', b.skipAll = .ptr r' ∧ EqualTypes E tentative r r' := by
  rcases h.kinds with ⟨_, _, hx, -⟩ | ⟨_, r', hx, hy⟩ | ⟨_, _, hx, -⟩ | ⟨_, _, _, _, _, _, hx, -⟩ |
      ⟨_, _, _, _, _, _, _, _, _, _, hx, -⟩ <;> obtain heq := ha.symm.trans hx <;> cases heq
  exact ⟨r', hy, ((likeTypes_pointer rfl (typeCmpR_ptr ha hy)).mp h).1⟩

theorem LikeTypes.block (h : LikeTypes E tentative a b) (ha : a.skipAll = .block r) :
    ∃ r', b.skipAll = .block r' ∧ EqualTypes E tentative r r' := by
  rcases h.kinds with ⟨_, _, hx, -⟩ | ⟨_, _, hx, -⟩ | ⟨_, r', hx, hy⟩ | ⟨_, _, _, _, _, _, hx, -⟩ |
      ⟨_, _, _, _, _, _, _, _, _, _, hx, -⟩ <;> obtain heq := ha.symm.trans hx <;> cases heq
  exact ⟨r', hy, ((likeTypes_pointer rfl (typeCmpR_block ha hy)).mp h).1⟩

theorem LikeTypes.array {size : Option SizeExpr} {kind : VlaKind} (h : LikeTypes E tentative a b)
    (ha : a.skipAll = .array size kind r) :
    ∃ size' kind' r', b.skipAll = .array size' kind' r' ∧
      SizesAgree tentative size size' kind kind' ∧ LikeTypes E tentative r r' := by
  rcases h.kinds with ⟨_, _, hx, -⟩ | ⟨_, _, hx, -⟩ | ⟨_, _, hx, -⟩ |
      ⟨_, _, _, size', kind', r', hx, hy⟩ |
      ⟨_, _, _, _, _, _, _, _, _, _, hx, -⟩ <;> obtain heq := ha.symm.trans hx <;> cases heq
  have hsizes := sizesAgree_of_like ha hy h
  exact ⟨size', kind', r', hy, hsizes,
    ((likeTypes_through rfl (typeCmpR_array_agree ha hy hsizes)).mp h).1⟩

theorem LikeTypes.func (h : LikeTypes E tentative a b)
    (ha : a.skipAll = .func args void variadic arglist r) :
    ∃ args' void' variadic' arglist' r', b.skipAll = .func args' void' variadic' arglist' r' ∧
      ListsAgree E args args' void variadic void' arglist arglist' ∧
        LikeTypes E tentative r r' := by
  rcases h.kinds with ⟨_, _, hx, -⟩ | ⟨_, _, hx, -⟩ | ⟨_, _, hx, -⟩ | ⟨_, _, _, _, _, _, hx, -⟩ |
      ⟨_, _, _, _, _, args', void', variadic', arglist', r', hx, hy⟩ <;>
    obtain heq := ha.symm.trans hx <;> cases heq
  have hlists := listsAgree_of_like ha hy h
  exact ⟨args', void', variadic', arglist', r', hy, hlists,
    ((likeTypes_through rfl (typeCmpR_func_agree ha hy hlists)).mp h).1⟩

end Levels

end Ucc.Cc1
