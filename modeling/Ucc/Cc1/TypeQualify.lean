/-
  Cc1/TypeQualify.lean --- adding qualifiers to a type.

  Source: type_qualify3 and type_qualify in src/cc1/type_nav.c, type_qual and type_is in
  src/cc1/type_is.c, type_cmp in src/cc1/type.c.

  A node is read in two ways: as what `add` of Cc1/QualReading.lean is about, and as the
  type that type_cmp compares.  The attributes of a typedef are those of its declaration
  or expression, which are given beside the nodes.
-/
import Ucc.Cc1.QualReading

set_option autoImplicit false

namespace Ucc.Cc1

/-! ## Nodes without a reference -/

/-- Only a base type refers to no other node. -/
def Based (s : NavStore) : Prop := ∀ n ∈ s, n.ref = none → ∃ b, n.bits = .btype b

theorem Based.snoc {s : NavStore} (h : Based s) {n : TypeNode}
    (hn : n.ref = none → ∃ b, n.bits = .btype b) : Based (s ++ [n]) := by
  intro m hm
  rcases List.mem_append.1 hm with hm | hm
  · exact h m hm
  · obtain rfl := List.mem_singleton.1 hm
    exact hn

theorem navCall_based {env : NavEnv} {s s' : NavStore} {c : NavCall} {i : Nat} (hs : Based s)
    (h : navCall env s c = some (s', i)) : Based s' := by
  cases c with
  | btype b =>
    rcases Lib.intern_entries h with ⟨rfl, -⟩ | ⟨rfl, -⟩
    · exact hs
    · exact hs.snoc fun _ => ⟨b, rfl⟩
  | request base ctx =>
    obtain ⟨-, -, hintern⟩ := navCall_request h
    rcases Lib.intern_entries hintern with ⟨rfl, -⟩ | ⟨rfl, -⟩
    · exact hs
    · exact hs.snoc fun href => nomatch href
  | atWhere t w =>
    have hnew : Based (s ++ [⟨some (under s t), .whereAt w⟩]) := hs.snoc fun href => nomatch href
    rw [navCall] at h
    split at h
    · cases h
    · split at h
      · obtain ⟨rfl, rfl⟩ := Prod.mk.inj (Option.some.inj h)
        exact hs
      · obtain ⟨rfl, rfl⟩ := Prod.mk.inj (Option.some.inj h)
        exact hnew
    · obtain ⟨rfl, rfl⟩ := Prod.mk.inj (Option.some.inj h)
      exact hnew

theorem NavRun.based {env : NavEnv} {P : NavCall → Prop} {s s' : NavStore}
    (h : NavRun env P s s') (hs : Based s) : Based s' := by
  induction h with
  | refl => exact hs
  | call _ _ hcall ih => exact navCall_based ih hcall

/-- The nodes of a run. -/
structure NavStore.Sound (s : NavStore) : Prop where
  ok : StoreOk s
  based : Based s

theorem NavRun.sound {env : NavEnv} {P : NavCall → Prop} {s s' : NavStore}
    (h : NavRun env P s s') (hs : s.Sound) : s'.Sound :=
  ⟨(h.storeOk hs.ok).1, h.based hs.based⟩

theorem sound_nil : NavStore.Sound [] := ⟨storeOk_nil, fun _ hn => nomatch hn⟩

/-- A node is a base type, or it refers to a node before it. -/
theorem NavStore.Sound.node_cases {s : NavStore} (hs : s.Sound) {i : Nat} (hi : i < s.length) :
    (∃ b, s[i]? = some ⟨none, .btype b⟩) ∨
      ∃ ref bits, s[i]? = some ⟨some ref, bits⟩ ∧ ref < i := by
  obtain ⟨⟨ref, bits⟩, hn⟩ : ∃ n, s[i]? = some n := ⟨_, List.getElem?_eq_getElem hi⟩
  cases ref with
  | none =>
    obtain ⟨b, hb⟩ := hs.based _ (List.mem_of_getElem? hn) rfl
    dsimp only at hb
    subst hb
    exact .inl ⟨b, hn⟩
  | some ref => exact .inr ⟨ref, bits, hn, (hs.ok i _ hn).1 ref rfl⟩

/-! ## Readings of nodes -/

section Walk

variable {α : Type}

/-- What a node says, and then the node it refers to. -/
def walkRefs (s : NavStore) (step : Nat → NodeBits → α → α) (base : Nat → α) : Nat → Nat → α
  | 0, i => base i
  | fuel + 1, i =>
    match s[i]? with
    | some ⟨some ref, bits⟩ => step i bits (walkRefs s step base fuel ref)
    | _ => base i

variable {s s' : NavStore} {step : Nat → NodeBits → α → α} {base base' : Nat → α}

/-- The index of a node is fuel enough. -/
theorem walkRefs_fuel (hs : s.Sound) {fuel i : Nat} (h : i < fuel) :
    walkRefs s step base fuel i = walkRefs s step base (i + 1) i := by
  suffices hfuels : ∀ fuel > i, ∀ fuel' > i,
      walkRefs s step base fuel i = walkRefs s step base fuel' i from
    hfuels fuel h (i + 1) (Nat.lt_succ_self i)
  clear h fuel
  induction i using Nat.strong_induction_on with
  | _ i ih =>
    intro fuel h fuel' h'
    obtain ⟨fuel, rfl⟩ := Nat.exists_eq_succ_of_ne_zero (Nat.ne_zero_of_lt h)
    obtain ⟨fuel', rfl⟩ := Nat.exists_eq_succ_of_ne_zero (Nat.ne_zero_of_lt h')
    rw [walkRefs, walkRefs]
    split
    · rename_i ref bits hn
      have href : ref < i := (hs.ok i _ hn).1 ref rfl
      rw [ih ref href fuel (by omega) fuel' (by omega)]
    · rfl

theorem walkRefs_eq (hs : s.Sound) {i ref : Nat} {bits : NodeBits}
    (h : s[i]? = some ⟨some ref, bits⟩) :
    walkRefs s step base (i + 1) i = step i bits (walkRefs s step base (ref + 1) ref) := by
  rw [walkRefs, h]
  exact congrArg (step i bits) (walkRefs_fuel hs ((hs.ok i _ h).1 ref rfl))

theorem walkRefs_btype {i : Nat} {b : BType} (h : s[i]? = some ⟨none, .btype b⟩) (fuel : Nat) :
    walkRefs s step base fuel i = base i := by
  cases fuel with
  | zero => rfl
  | succ fuel => rw [walkRefs, h]

theorem walkRefs_grown (hs : s.Sound) (h : s <+: s') (hbase : ∀ i < s.length, base' i = base i)
    (fuel : Nat) {i : Nat} (hi : i < s.length) :
    walkRefs s' step base' fuel i = walkRefs s step base fuel i := by
  induction fuel generalizing i with
  | zero => exact hbase i hi
  | succ fuel ih =>
    rw [walkRefs, walkRefs, getElem?_grown h hi]
    split
    · rename_i ref bits hn
      rw [ih (((hs.ok i _ hn).1 ref rfl).trans hi)]
    · exact hbase i hi

end Walk

section Readings

variable (T : Nat → Option Nat → List AttributeType)

/-- What one node adds to the reading of the node it refers to. -/
def stepReading (i : Nat) : NodeBits → Reading → Reading
  | .cast q, r => r.before q []
  | .attr attrs, r => r.before .none (attrs.map Attribute.type)
  | .whereAt _, r => r
  | .tdef typeOf decl, r => r.before .none (T typeOf decl)
  | .array _ isStatic vlaKind, r => .array .none [] isStatic vlaKind r
  | _, _ => .elem .none [] i

/-- A node read as arrays around an element type. -/
def readingOf (s : NavStore) (i : Nat) : Reading :=
  walkRefs s (stepReading T) (.elem .none []) (i + 1) i

/-- The size of an array, as type_cmp sees it. -/
def sizeExpr (env : NavEnv) (size : Nat) : SizeExpr :=
  match env.constFold size with
  | some n => .const n
  | none => .nonConst

/-- What one node adds to the type that it refers to; a base type refers to none. -/
def stepTy (env : NavEnv) (bits : NodeBits) (t : Ty) : Ty :=
  match bits with
  | .btype b => .btype b
  | .tdef typeOf decl => .tdef decl (T typeOf decl) t
  | .ptr _ => .ptr t
  | .block => .block t
  | .func args _ =>
    .func args (env.funcargs args).argsVoid (env.funcargs args).variadic
      (env.funcargs args).arglist t
  | .array size _ vlaKind => .array (size.map (sizeExpr env)) vlaKind t
  | .cast q => .cast q t
  | .attr attrs => .attr (attrs.map Attribute.type) t
  | .whereAt _ => .whereAt t

/-- The type of a node that refers to no other. -/
def baseTy (s : NavStore) (i : Nat) : Ty :=
  match s[i]? with
  | some ⟨_, .btype b⟩ => .btype b
  | _ => .btype (.prim .void none)

/-- A node read as the type that type_cmp compares. -/
def tyOf (env : NavEnv) (s : NavStore) (i : Nat) : Ty :=
  walkRefs s (fun _ => stepTy T env) (baseTy s) (i + 1) i

variable {T} {env : NavEnv} {s s' : NavStore}

theorem readingOf_eq (hs : s.Sound) {i ref : Nat} {bits : NodeBits}
    (h : s[i]? = some ⟨some ref, bits⟩) :
    readingOf T s i = stepReading T i bits (readingOf T s ref) :=
  walkRefs_eq hs h

theorem readingOf_btype {i : Nat} {b : BType} (h : s[i]? = some ⟨none, .btype b⟩) :
    readingOf T s i = .elem .none [] i :=
  walkRefs_btype h (i + 1)

theorem readingOf_grown (hs : s.Sound) (h : s <+: s') {i : Nat} (hi : i < s.length) :
    readingOf T s' i = readingOf T s i :=
  walkRefs_grown hs h (fun _ _ => rfl) (i + 1) hi

theorem tyOf_eq (hs : s.Sound) {i ref : Nat} {bits : NodeBits}
    (h : s[i]? = some ⟨some ref, bits⟩) :
    tyOf T env s i = stepTy T env bits (tyOf T env s ref) :=
  walkRefs_eq hs h

theorem tyOf_grown (hs : s.Sound) (h : s <+: s') {i : Nat} (hi : i < s.length) :
    tyOf T env s' i = tyOf T env s i := by
  refine walkRefs_grown hs h (fun j hj => ?_) (i + 1) hi
  rw [baseTy, baseTy, getElem?_grown h hj]

theorem Reading.quals_before (q : TypeQual) (as : List AttributeType) (r : Reading) :
    (r.before q as).quals = q.union r.quals := by
  cases r <;> rfl

theorem nodeQual_eq (i : Nat) :
    nodeQual s (i + 1) i = (readingOf T s i).quals := by
  suffices h : ∀ fuel i, nodeQual s fuel i =
      (walkRefs s (stepReading T) (.elem .none []) fuel i).quals from h (i + 1) i
  intro fuel
  induction fuel with
  | zero => exact fun i => rfl
  | succ fuel ih =>
    intro i
    have hnone : ∀ q : TypeQual, TypeQual.none.union q = q := fun q => rfl
    rw [nodeQual, walkRefs]
    cases hn : s[i]? with
    | none => rfl
    | some n =>
      obtain ⟨ref, bits⟩ := n
      cases ref with
      | none => rfl
      | some ref =>
        cases bits <;> simp only [stepReading, Reading.quals_before, hnone, ih] <;> rfl

/-- What `type_is` finds: no array, or the outermost one. -/
theorem nodeIsArray_cases (env : NavEnv) (hs : s.Sound) {fuel i : Nat} (hfuel : i < fuel)
    (hi : i < s.length) :
    (nodeIsArray s fuel i = none ∧ ∃ e as b, readingOf T s i = .elem e as b ∧
        (tyOf T env s i).skipAll = tyOf T env s b) ∨
      ∃ ar ref size st kind e as, nodeIsArray s fuel i = some ar ∧ ref < i ∧
        s[ar]? = some ⟨some ref, .array size st kind⟩ ∧
        readingOf T s i = .array e as st kind (readingOf T s ref) ∧
        (tyOf T env s i).skipAll =
          .array (size.map (sizeExpr env)) kind (tyOf T env s ref) := by
  induction fuel generalizing i with
  | zero => exact absurd hfuel (Nat.not_lt_zero i)
  | succ fuel ih =>
    rcases hs.node_cases hi with ⟨b, hn⟩ | ⟨ref, bits, hn, href⟩
    · have hty : tyOf T env s i = .btype b := by
        rw [tyOf, walkRefs_btype hn, baseTy, hn]
      rw [nodeIsArray, hn, readingOf_btype hn]
      exact .inl ⟨rfl, _, _, _, rfl, by rw [hty]; rfl⟩
    · have hself : (∀ t, (stepTy T env bits t).skipAll = stepTy T env bits t) →
          (tyOf T env s i).skipAll = tyOf T env s i := fun h => by
        rw [tyOf_eq hs hn, h]
      rw [nodeIsArray, hn, readingOf_eq hs hn]
      have hrec := ih (i := ref) (by omega) (href.trans hi)
      -- a node that is skipped: what is found is found further on
      have hskip : ∀ q as, stepReading T i bits (readingOf T s ref) =
            (readingOf T s ref).before q as →
          (∀ t, (stepTy T env bits t).skipAll = t.skipAll) →
          (nodeIsArray s fuel ref = none ∧ ∃ e as b, stepReading T i bits
              (readingOf T s ref) = .elem e as b ∧
              (tyOf T env s i).skipAll = tyOf T env s b) ∨
            ∃ ar ref' size st kind e as, nodeIsArray s fuel ref = some ar ∧ ref' < i ∧
              s[ar]? = some ⟨some ref', .array size st kind⟩ ∧
              stepReading T i bits (readingOf T s ref) =
                .array e as st kind (readingOf T s ref') ∧
              (tyOf T env s i).skipAll =
                .array (size.map (sizeExpr env)) kind (tyOf T env s ref') := by
        intro q as hstep hty
        rw [hstep, tyOf_eq hs hn, hty]
        rcases hrec with ⟨hnone, e, bs, b, hread, hb⟩ |
            ⟨ar, ref', size, st, kind, e, bs, har, href', hnode, hread, hr⟩
        · rw [hread]
          exact .inl ⟨hnone, _, _, _, rfl, hb⟩
        · rw [hread]
          exact .inr ⟨ar, ref', size, st, kind, _, _, har, href'.trans href, hnode, rfl, hr⟩
      cases bits with
      | cast q => exact hskip q [] rfl fun _ => rfl
      | attr attrs => exact hskip .none (attrs.map Attribute.type) rfl fun _ => rfl
      | whereAt w =>
        refine hskip .none [] ?_ fun _ => rfl
        rw [stepReading]
        cases readingOf T s ref <;> rfl
      | tdef typeOf decl => exact hskip .none (T typeOf decl) rfl fun _ => rfl
      | array size st kind =>
        exact .inr ⟨i, ref, size, st, kind, _, _, rfl, href, hn, rfl, by rw [tyOf_eq hs hn]; rfl⟩
      | _ => exact .inl ⟨rfl, _, _, _, rfl, hself fun _ => rfl⟩

theorem quals_tyOf (env : NavEnv) (hs : s.Sound) {i : Nat} (hi : i < s.length) :
    (tyOf T env s i).qual = (readingOf T s i).quals := by
  induction i using Nat.strong_induction_on with
  | _ i ih =>
    rcases hs.node_cases hi with ⟨b, hn⟩ | ⟨ref, bits, hn, href⟩
    · rw [tyOf, walkRefs_btype hn, baseTy, hn, readingOf_btype hn]
      rfl
    · have hrec := ih ref href (href.trans hi)
      have hnone : ∀ q : TypeQual, TypeQual.none.union q = q := fun q => rfl
      rw [tyOf_eq hs hn, readingOf_eq hs hn]
      cases bits <;> simp only [stepTy, stepReading, Reading.quals_before, hnone, Ty.qual, hrec] <;>
        rfl

theorem Reading.allAttrs_before (q : TypeQual) (as : List AttributeType) (r : Reading) :
    (r.before q as).allAttrs = as ++ r.allAttrs := by
  cases r with
  | elem e bs b => rfl
  | array e bs st kind r => exact List.append_assoc as bs r.allAttrs

theorem Reading.base_before (q : TypeQual) (as : List AttributeType) (r : Reading) :
    (r.before q as).shape = r.shape := by
  cases r <;> rfl

/-- The attributes of a type are those before it and those of its element type. -/
theorem typeAttrPresent_tyOf (env : NavEnv) (hs : s.Sound) {i : Nat} (hi : i < s.length)
    (E : TypeEnv) (x : AttributeType) :
    typeAttrPresent E x (tyOf T env s i) =
      (decide (x ∈ (readingOf T s i).allAttrs) ||
        typeAttrPresent E x (tyOf T env s (readingOf T s i).shape.2)) := by
  induction i using Nat.strong_induction_on with
  | _ i ih =>
    rcases hs.node_cases hi with ⟨b, hn⟩ | ⟨ref, bits, hn, href⟩
    · rw [readingOf_btype hn]
      rfl
    · have hrec := ih ref href (href.trans hi)
      have hself : readingOf T s i = .elem .none [] i →
          typeAttrPresent E x (tyOf T env s i) =
            (decide (x ∈ (readingOf T s i).allAttrs) ||
              typeAttrPresent E x (tyOf T env s (readingOf T s i).shape.2)) := by
        intro h
        rw [h]
        rfl
      have hread := readingOf_eq (T := T) hs hn
      cases bits with
      | cast q =>
        rw [tyOf_eq hs hn, hread, stepReading, Reading.allAttrs_before, Reading.base_before]
        exact hrec
      | attr attrs =>
        rw [tyOf_eq hs hn, hread, stepReading, Reading.allAttrs_before, Reading.base_before, stepTy,
          typeAttrPresent, hrec]
        simp [List.mem_append, Bool.or_assoc]
      | whereAt w =>
        rw [tyOf_eq hs hn, hread]
        exact hrec
      | tdef typeOf decl =>
        rw [tyOf_eq hs hn, hread, stepReading, Reading.allAttrs_before, Reading.base_before, stepTy,
          typeAttrPresent, hrec]
        simp [List.mem_append, Bool.or_assoc]
      | array size st kind =>
        rw [tyOf_eq hs hn, hread]
        exact hrec
      | _ => exact hself hread

/-- Places are skipped. -/
theorem readingOf_skipWheres (hs : s.Sound) (fuel i : Nat) :
    readingOf T s (skipWheres s fuel i) = readingOf T s i := by
  induction fuel generalizing i with
  | zero => rfl
  | succ fuel ih =>
    rw [skipWheres]
    split
    · rename_i ref w hn
      rw [ih, readingOf_eq hs hn, stepReading]
    · rfl

/-- What does not look at places is the same for the node that requests are about. -/
theorem tyOf_under {β : Sort*} (f : Ty → β) (hf : ∀ t, f (.whereAt t) = f t) (hs : s.Sound)
    (i : Nat) : f (tyOf T env s (under s i)) = f (tyOf T env s i) := by
  suffices h : ∀ fuel i, f (tyOf T env s (skipWheres s fuel i)) =
      f (tyOf T env s i) from h (i + 1) i
  intro fuel
  induction fuel with
  | zero => exact fun i => rfl
  | succ fuel ih =>
    intro i
    rw [skipWheres]
    split
    · rename_i ref w hn
      rw [ih, tyOf_eq hs hn, stepTy, hf]
    · rfl

theorem readingOf_under (hs : s.Sound) (i : Nat) :
    readingOf T s (under s i) = readingOf T s i :=
  readingOf_skipWheres hs (i + 1) i

end Readings

/-! ## Comparing what reads alike -/

/-- The sizes of a type and, for an array, of its element types. -/
def Ty.sizes : Ty → List (Option SizeExpr)
  | .array size _ t => size :: t.sizes
  | .tdef _ _ t => t.sizes
  | .cast _ t => t.sizes
  | .attr _ t => t.sizes
  | .whereAt t => t.sizes
  | _ => []

theorem Ty.sizes_skipAll (t : Ty) : t.skipAll.sizes = t.sizes := by
  induction t using Ty.skipAll.induct with
  | case1 d as t ih => exact ih
  | case2 q t ih => exact ih
  | case3 as t ih => exact ih
  | case4 t ih => exact ih
  | case5 t => rw [Ty.skipAll] <;> assumption

/-- The end of the comparison keeps an equality, but for a typedef at the front. -/
theorem cmpFixups_equalAny {E : TypeEnv} {origA origB a b : Ty} {ret : TypeCmp}
    (hret : ret.equalAny = true) (hqual : origA.qual = origB.qual)
    (hattr : ∀ x, typeAttrPresent E x origA = typeAttrPresent E x origB) :
    (cmpFixups E origA origB a b ret).equalAny = true := by
  have hquals : cmpQuals origA.qual origB.qual ret = ret := by
    have hzero : typeQualCmp origB.qual origB.qual = 0 := by
      have hflip := typeQualCmp_flip origB.qual origB.qual
      omega
    rw [hqual, cmpQuals, if_pos hret, hzero]
    by_cases hnone : origB.qual = .none <;> simp [hnone]
  have hptr : throughPointer a (decayImplicit a (fixNotEqual E a b ret)) = ret := by
    cases ret <;> first | (cases a <;> rfl) | cases hret
  rw [cmpFixups, hptr, hquals, cmpAttributes, typeAttributeMissing_self hattr, Bool.and_false,
    if_neg Bool.false_ne_true, cmpTdefs]
  split
  · rfl
  · exact hret

section Same

variable {E : TypeEnv} {tentative : Bool} {a b : Ty}

/-- Two types that skip to one type, with the same qualifiers and attributes before it. -/
theorem typeCmpR_of_skipAll (hskip : a.skipAll = b.skipAll) (hfold : Foldable a)
    (hqual : a.qual = b.qual) (hattr : ∀ x, typeAttrPresent E x a = typeAttrPresent E x b) :
    ∃ c, typeCmpR E tentative a b = some c ∧ c.equalAny = true := by
  have hfix : ∀ x y, ∃ c, some (cmpFixups E a b x y .equal) = some c ∧ c.equalAny = true :=
    fun x y => ⟨_, rfl, cmpFixups_equalAny rfl hqual hattr⟩
  have hself : ∀ t, Foldable t → typeCmpR E tentative t t = some .equal := fun t ht =>
    (typeCmpR_self E _ tentative t (Nat.lt_succ_self _)).1 ht
  rw [foldable_skipAll] at hfold
  rcases skipAll_concrete a with ⟨x, hx⟩ | ⟨r, hx⟩ | ⟨r, hx⟩ | ⟨size, kind, r, hx⟩ |
      ⟨args, void, variadic, arglist, r, hx⟩
  · have hsame : btypeCmp x x = .equal := by
      rcases btypeCmp_cases x x with ⟨-, h⟩ | ⟨h, -⟩
      · exact h
      · cases x <;> exact absurd rfl h
    rw [typeCmpR_btype hx (hskip ▸ hx), hsame]
    exact hfix _ _
  · rw [hx] at hfold
    rw [typeCmpR_ptr hx (hskip ▸ hx), hself r hfold]
    exact hfix _ _
  · rw [hx] at hfold
    rw [typeCmpR_block hx (hskip ▸ hx), hself r hfold]
    exact hfix _ _
  · rw [hx] at hfold
    obtain ⟨hsize, hr⟩ := hfold
    rw [typeCmpR_array hx (hskip ▸ hx), cmpSizes_self, if_neg (fun h => hsize h.1 h.2),
      Option.bind_some, if_pos rfl, hself r hr]
    exact hfix _ _
  · rw [hx] at hfold
    have hargs : funcargsCmp E args args void variadic void arglist arglist =
        some .exactEqual := by
      rw [funcargsCmp, funcargsHead, if_pos rfl]
    rw [typeCmpR_func hx (hskip ▸ hx), hargs, Option.bind_some,
      if_pos (show FuncargsCmp.exactEqual.compatible = true from rfl), hself r hfold]
    exact hfix _ _

end Same

section Readings

variable {T : Nat → Option Nat → List AttributeType} {env : NavEnv} {s : NavStore}

/-- Nodes that read alike and have the same sizes are equal for type_cmp. -/
theorem typeCmpR_of_reading (hs : s.Sound) {x y : Nat} (hx : x < s.length) (hy : y < s.length)
    (hread : readingOf T s x = readingOf T s y)
    (hsizes : (tyOf T env s x).sizes = (tyOf T env s y).sizes)
    (hfold : Foldable (tyOf T env s x)) (E : TypeEnv) (tentative : Bool) :
    ∃ c, typeCmpR E tentative (tyOf T env s x) (tyOf T env s y) = some c ∧
      c.equalAny = true := by
  induction x using Nat.strong_induction_on generalizing y with
  | _ x ih =>
    have hqual : (tyOf T env s x).qual = (tyOf T env s y).qual := by
      rw [quals_tyOf env hs hx, quals_tyOf env hs hy, hread]
    have hattr : ∀ k, typeAttrPresent E k (tyOf T env s x) =
        typeAttrPresent E k (tyOf T env s y) := fun k => by
      rw [typeAttrPresent_tyOf env hs hx, typeAttrPresent_tyOf env hs hy, hread]
    rcases nodeIsArray_cases (T := T) env hs (Nat.lt_succ_self x) hx with
      ⟨-, e, as, b, hrx, hskx⟩ | ⟨arx, refx, szx, stx, kx, e, as, -, hltx, -, hrx, hskx⟩
    · rcases nodeIsArray_cases (T := T) env hs (Nat.lt_succ_self y) hy with
        ⟨-, e', as', b', hry, hsky⟩ | ⟨ary, refy, szy, sty, ky, e', as', -, hlty, -, hry, hsky⟩
      · rw [hrx, hry] at hread
        obtain ⟨-, -, rfl⟩ := Reading.elem.inj hread
        exact typeCmpR_of_skipAll (hskx.trans hsky.symm) hfold hqual hattr
      · rw [hrx, hry] at hread
        cases hread
    · rcases nodeIsArray_cases (T := T) env hs (Nat.lt_succ_self y) hy with
        ⟨-, e', as', b', hry, hsky⟩ | ⟨ary, refy, szy, sty, ky, e', as', -, hlty, -, hry, hsky⟩
      · rw [hrx, hry] at hread
        cases hread
      · rw [hrx, hry] at hread
        obtain ⟨-, -, -, rfl, hin⟩ := Reading.array.inj hread
        rw [← Ty.sizes_skipAll, hskx, ← Ty.sizes_skipAll (tyOf T env s y), hsky] at hsizes
        obtain ⟨hsize, hrest⟩ := List.cons.inj hsizes
        rw [foldable_skipAll, hskx] at hfold
        obtain ⟨c, hc, heq⟩ := ih refx hltx (hltx.trans hx) (hlty.trans hy) hin hrest hfold.2
        rw [typeCmpR_array hskx hsky, hsize, cmpSizes_self,
          if_neg (fun h => hfold.1 h.1 (hsize.trans h.2)), Option.bind_some, if_pos rfl, hc]
        exact ⟨_, rfl, cmpFixups_equalAny heq hqual hattr⟩

end Readings

/-! ## Requests -/

section Requests

variable (env : NavEnv) {s : NavStore} {base : Nat}

/-- A request gives a node above its base: the one it asks for, or one that passes its
test. -/
theorem navCall_request_spec (ctx : NavCtx) (hbase : base < s.length) (hmade : ctx.Made s = true)
    (htest : ∀ n ∈ s, (eqNode env s ctx n.bits).isSome = true) :
    ∃ s' i bits, navCall env s (.request base ctx) = some (s', i) ∧
      s'[i]? = some ⟨some (under s base), bits⟩ ∧
      (bits = initNode ctx ∨ eqNode env s ctx bits = some true) := by
  obtain ⟨s', i, hintern⟩ := Lib.exists_intern (isCandidate env s (under s base) ctx)
    ⟨some (under s base), initNode ctx⟩ fun n hn => by
      unfold isCandidate
      split
      · exact htest n hn
      · rfl
  have hcall : navCall env s (.request base ctx) = some (s', i) := by
    rw [navCall, if_pos (by simp [hbase, hmade])]
    exact hintern
  rcases Lib.intern_entries hintern with ⟨rfl, hi⟩ | ⟨rfl, rfl⟩
  · obtain ⟨⟨ref, bits⟩, hn, hcand⟩ := Lib.intern_existing hintern hi
    unfold isCandidate at hcand
    split at hcand
    · rename_i href
      dsimp only at href
      subst href
      exact ⟨_, _, bits, hcall, hn, .inr hcand⟩
    · cases hcand
  · exact ⟨_, _, _, hcall, List.getElem?_concat_length, .inl rfl⟩

theorem navCall_cast_spec (hbase : base < s.length) (q : TypeQual) :
    ∃ s' i, navCall env s (.request base (.cast q)) = some (s', i) ∧
      s'[i]? = some ⟨some (under s base), .cast q⟩ := by
  obtain ⟨s', i, bits, hcall, hn, hbits⟩ :=
    navCall_request_spec env (.cast q) hbase rfl fun n _ => by cases n.bits <;> rfl
  refine ⟨s', i, hcall, ?_⟩
  rcases hbits with rfl | htest
  · exact hn
  · cases bits with
    | cast q' =>
      obtain rfl : q' = q := of_decide_eq_true (Option.some.inj htest)
      exact hn
    | _ => cases htest

theorem navCall_array_spec (hbase : base < s.length) (size : Option Nat) :
    ∃ s' i size', navCall env s (.request base (.array size false)) = some (s', i) ∧
      s'[i]? = some ⟨some (under s base), .array size' false .no⟩ ∧
      eqArray env (size', false, .no) (size, false, .no) = true := by
  obtain ⟨s', i, bits, hcall, hn, hbits⟩ := navCall_request_spec env (.array size false)
    hbase rfl fun n _ => by cases n.bits <;> rfl
  rcases hbits with rfl | htest
  · exact ⟨s', i, size, hcall, hn, eqArray_self env _⟩
  · cases bits with
    | array size' st kind =>
      have heq : eqArray env (size', st, kind) (size, false, .no) = true := Option.some.inj htest
      obtain ⟨rfl, rfl⟩ : st = false ∧ kind = .no := by
        unfold eqArray at heq
        grind
      exact ⟨s', i, size', hcall, hn, heq⟩
    | _ => cases htest

end Requests

theorem navCall_sound {env : NavEnv} {s s' : NavStore} {c : NavCall} {i : Nat} (hs : s.Sound)
    (h : navCall env s c = some (s', i)) : s'.Sound ∧ s <+: s' ∧ i < s'.length := by
  obtain ⟨hok, hpre, hi⟩ := navCall_storeOk hs.ok h
  exact ⟨⟨hok, navCall_based hs.based h⟩, hpre, hi⟩

theorem under_lt {s : NavStore} (hs : s.Sound) {i : Nat} (hi : i < s.length) :
    under s i < s.length :=
  (skipWheres_le hs.ok (i + 1) i).trans_lt hi

/-! ## Reading what is qualified -/

section Qualify

variable {T : Nat → Option Nat → List AttributeType} {env : NavEnv} {s s' : NavStore}

theorem TypeQual.diff_union (q e : TypeQual) : (q.diff e).union e = q.union e :=
  TypeQual.eq_of_has fun k => by
    simp only [TypeQual.has_union, TypeQual.has_diff]
    tauto

theorem qualNoop_iff (t : Nat) (q : TypeQual) :
    QualNoop s t q ↔ q.Sub (readingOf T s t).quals := by
  rw [QualNoop, nodeQual_eq t]
  generalize (readingOf T s t).quals = e
  rw [TypeQual.sub_iff]
  have hunion : q.union e = e ↔ ∀ k, q.Has k → e.Has k := by
    constructor
    · intro h k hk
      rw [← h]
      exact (TypeQual.has_union q e k).2 (.inl hk)
    · intro h
      refine TypeQual.eq_of_has fun k => ?_
      rw [TypeQual.has_union, or_iff_right_of_imp (h k)]
  rw [hunion]
  constructor
  · rintro (rfl | ⟨-, h⟩)
    · exact fun k hk => absurd hk (TypeQual.not_has_none k)
    · exact h
  · intro h
    by_cases hq : q = .none
    · exact .inl hq
    · refine .inr ⟨fun he => hq (TypeQual.eq_none_iff.2 fun k hk => ?_), h⟩
      exact TypeQual.not_has_none k (he ▸ h k hk)

/-- The first test of `type_qualify3`. -/
theorem typeQualify_noop {fuel t : Nat} {q : TypeQual} {transform : Bool} (h : QualNoop s t q) :
    typeQualify env (fuel + 1) s t q transform = some (s, t) := by
  rw [typeQualify]
  dsimp only
  by_cases hq : q = .none
  · rw [if_pos hq]
  · rw [if_neg hq, if_pos]
    simpa using h.resolve_left hq

theorem typeQualify_of_not_noop {fuel t : Nat} {q : TypeQual} (h : ¬ QualNoop s t q) :
    typeQualify env (fuel + 1) s t q true =
      match nodeIsArray s (t + 1) t with
      | none => navCall env s (.request t (.cast (q.diff (nodeQual s (t + 1) t))))
      | some arTy =>
          match s[arTy]? with
          | some ⟨some ref, .array size _ _⟩ => do
              let (s, inner) ← typeQualify env fuel s ref (q.diff (nodeQual s (t + 1) t)) true
              navCall env s (.request inner (.array size false))
          | _ => none := by
  rw [QualNoop, not_or] at h
  rw [typeQualify]
  dsimp only
  rw [if_neg h.1, if_neg (by simpa using h.2)]
  rfl

theorem typeQualify_sound (hs : s.Sound) {fuel t i : Nat} (ht : t < s.length) {p : TypeQual}
    {transform : Bool} (h : typeQualify env fuel s t p transform = some (s', i)) :
    s'.Sound ∧ s <+: s' ∧ i < s'.length := by
  obtain ⟨hrun, hi⟩ := typeQualify_run hs.ok ht h
  exact ⟨hrun.sound hs, (hrun.storeOk hs.ok).2, hi⟩

/-- `type_qualify` gives a node. -/
theorem exists_typeQualify (hs : s.Sound) {fuel t : Nat} (ht : t < s.length) (hfuel : t < fuel)
    (q : TypeQual) : ∃ s' i, typeQualify env fuel s t q true = some (s', i) := by
  induction fuel generalizing s t q with
  | zero => exact absurd hfuel (Nat.not_lt_zero t)
  | succ fuel ih =>
    by_cases hnoop : QualNoop s t q
    · exact ⟨s, t, typeQualify_noop hnoop⟩
    · rw [typeQualify_of_not_noop hnoop]
      rcases nodeIsArray_cases (T := fun _ _ => []) env hs (Nat.lt_succ_self t) ht with
        ⟨hnone, -⟩ | ⟨ar, ref, size, st, kind, -, -, har, href, hnode, -, -⟩
      · obtain ⟨s', i, hcall, -⟩ := navCall_cast_spec env ht
          (q.diff (nodeQual s (t + 1) t))
        rw [hnone]
        exact ⟨s', i, hcall⟩
      · obtain ⟨sa, inner, hinner⟩ :=
          ih hs (href.trans ht) (by omega) (q.diff (nodeQual s (t + 1) t))
        obtain ⟨-, -, hlta⟩ := typeQualify_sound hs (href.trans ht) hinner
        obtain ⟨s', i, size', hcall, -⟩ := navCall_array_spec env hlta size
        rw [har]
        dsimp only
        rw [hnode]
        dsimp only
        rw [hinner]
        exact ⟨s', i, hcall⟩

/-- A request for a qualified type gives a node that qualifies. -/
theorem navCall_cast_node {t i : Nat} {q : TypeQual}
    (h : navCall env s (.request t (.cast q)) = some (s', i)) :
    s'[i]? = some ⟨some (under s t), .cast q⟩ := by
  obtain ⟨s'', k, hcall, hn⟩ := navCall_cast_spec env (navCall_request h).1 q
  rw [h] at hcall
  obtain ⟨rfl, rfl⟩ := Prod.mk.inj (Option.some.inj hcall)
  exact hn

theorem navCall_array_node {t i : Nat} {size : Option Nat}
    (h : navCall env s (.request t (.array size false)) = some (s', i)) :
    ∃ size', s'[i]? = some ⟨some (under s t), .array size' false .no⟩ ∧
      eqArray env (size', false, .no) (size, false, .no) = true := by
  obtain ⟨s'', k, size', hcall, hn, heq⟩ := navCall_array_spec env (navCall_request h).1 size
  rw [h] at hcall
  obtain ⟨rfl, rfl⟩ := Prod.mk.inj (Option.some.inj hcall)
  exact ⟨size', hn, heq⟩

/-- A constant size is found again as one expression or one value. -/
theorem sameArray_of_eqArray {size size' : Option Nat}
    (hconst : size.map (sizeExpr env) ≠ some .nonConst)
    (h : eqArray env (size', false, .no) (size, false, .no) = true) :
    SameArray env (size, false, .no) (size', false, .no) ∧
      size'.map (sizeExpr env) = size.map (sizeExpr env) := by
  unfold eqArray at h
  rw [if_neg (fun h => h rfl), if_neg (fun h => h rfl)] at h
  dsimp only at h
  split at h
  · rename_i hsize
    subst hsize
    exact ⟨⟨rfl, .inl rfl⟩, rfl⟩
  · rename_i hne
    cases size' with
    | none => cases h
    | some a =>
      cases size with
      | none => cases h
      | some b =>
        dsimp only at h
        have hfoldb : ∃ k, env.constFold b = some k := by
          cases hb : env.constFold b with
          | none => exact absurd (by simp [sizeExpr, hb]) hconst
          | some k => exact ⟨k, rfl⟩
        obtain ⟨k, hk⟩ := hfoldb
        cases ha : env.constFold a with
        | none =>
          rw [ha] at h
          exact absurd (congrArg some (of_decide_eq_true h)) hne
        | some k' =>
          rw [ha] at h
          have hkk : ctxSizeI env b = k' := of_decide_eq_true h
          rw [ctxSizeI, hk] at hkk
          obtain rfl : k = k' := hkk
          exact ⟨⟨rfl, .inr ⟨b, a, k, rfl, rfl, hk, ha⟩⟩, by simp [sizeExpr, hk, ha]⟩

/-- What `type_qualify` does, in terms of the readings. -/
theorem typeQualify_view (hs : s.Sound) {fuel t i : Nat} (ht : t < s.length) {p : TypeQual}
    (h : typeQualify env (fuel + 1) s t p true = some (s', i)) :
    (p.Sub (readingOf T s t).quals ∧ s' = s ∧ i = t) ∨
    (∃ e as b, readingOf T s t = .elem e as b ∧
      navCall env s (.request t (.cast (p.diff e))) = some (s', i)) ∨
    (∃ ref size st kind e as sa inner,
      readingOf T s t = .array e as st kind (readingOf T s ref) ∧
      (tyOf T env s t).skipAll =
        .array (size.map (sizeExpr env)) kind (tyOf T env s ref) ∧
      ¬ p.Sub e ∧ ref < t ∧
      (∃ ar, nodeIsArray s (t + 1) t = some ar ∧
        s[ar]? = some ⟨some ref, .array size st kind⟩) ∧
      typeQualify env fuel s ref (p.diff e) true = some (sa, inner) ∧
      navCall env sa (.request inner (.array size false)) = some (s', i)) := by
  have hqual : nodeQual s (t + 1) t = (readingOf T s t).quals := nodeQual_eq t
  have harray : arrayToQualify s t true = nodeIsArray s (t + 1) t := rfl
  rcases typeQualify_cases h with ⟨hno, rfl, rfl⟩ | ⟨-, hnone, hcall⟩ |
      ⟨hno, arTy, ref, size, isStatic, kind, sa, inner, har, hnode, hinner, hcall⟩
  · exact .inl ⟨(qualNoop_iff _ p).1 hno, rfl, rfl⟩
  · rcases nodeIsArray_cases (T := T) env hs (Nat.lt_succ_self t) ht with
      ⟨-, e, as, b, hread, -⟩ | ⟨ar, -, -, -, -, -, -, har, -⟩
    · rw [hqual, hread] at hcall
      exact .inr (.inl ⟨e, as, b, hread, hcall⟩)
    · rw [harray, har] at hnone
      cases hnone
  · rw [harray] at har
    rcases nodeIsArray_cases (T := T) env hs (Nat.lt_succ_self t) ht with
      ⟨hnone, -⟩ | ⟨ar, ref', size', st, kind', e, as, har', href, hnode', hread, hskip⟩
    · rw [hnone] at har
      cases har
    · rw [har] at har'
      obtain rfl := Option.some.inj har'
      rw [hnode] at hnode'
      obtain ⟨hr, hbits⟩ := TypeNode.mk.inj (Option.some.inj hnode')
      obtain rfl := Option.some.inj hr
      obtain ⟨rfl, rfl, rfl⟩ := NodeBits.array.inj hbits
      have hsub := mt (qualNoop_iff (T := T) t p).2 hno
      rw [hread] at hsub
      rw [hqual, hread] at hinner
      exact .inr (.inr ⟨ref, size, isStatic, kind, e, as, sa, inner, hread, hskip, hsub, href,
        ⟨arTy, har, hnode⟩, hinner, hcall⟩)

/-- What is qualified reads as the type with the qualifiers added. -/
theorem readingOf_typeQualify (hs : s.Sound) {fuel t i : Nat} (ht : t < s.length) {p : TypeQual}
    (h : typeQualify env fuel s t p true = some (s', i)) :
    readingOf T s' i = (readingOf T s t).add p := by
  induction fuel generalizing s s' t i p with
  | zero => cases h
  | succ fuel ih =>
    rcases typeQualify_view (T := T) hs ht h with ⟨hsub, rfl, rfl⟩ |
        ⟨e, as, b, hread, hcall⟩ |
        ⟨ref, size, st, kind, e, as, sa, inner, hread, -, hsub, href, -, hinner, hcall⟩
    · exact (Reading.add_of_sub_quals hsub).symm
    · obtain ⟨hs', hpre, -⟩ := navCall_sound hs hcall
      rw [readingOf_eq hs' (navCall_cast_node hcall), readingOf_grown hs hpre (under_lt hs ht),
        readingOf_under hs, hread, stepReading, Reading.before, Reading.add, TypeQual.diff_union,
        List.nil_append]
    · obtain ⟨hsa, -, hlta⟩ := typeQualify_sound hs (href.trans ht) hinner
      obtain ⟨hs', hpre, -⟩ := navCall_sound hsa hcall
      obtain ⟨size', hn, -⟩ := navCall_array_node hcall
      rw [readingOf_eq hs' hn, readingOf_grown hsa hpre (under_lt hsa hlta), readingOf_under hsa,
        ih hs (href.trans ht) hinner, stepReading, hread, Reading.add_of_not_sub hsub]

/-- Places are skipped in front of an array too. -/
theorem nodeIsArray_of_under (hs : s.Sound) {y i ref : Nat} {size : Option Nat} {st : Bool}
    {kind : VlaKind} (h : under s y = i) (hn : s[i]? = some ⟨some ref, .array size st kind⟩) :
    nodeIsArray s (y + 1) y = some i := by
  suffices hfuel : ∀ fuel y, skipWheres s fuel y = i → y < fuel → nodeIsArray s fuel y = some i from
    hfuel (y + 1) y h (Nat.lt_succ_self y)
  intro fuel
  induction fuel with
  | zero => exact fun y _ hlt => absurd hlt (Nat.not_lt_zero y)
  | succ fuel ih =>
    intro y hy hlt
    rw [skipWheres] at hy
    split at hy
    · rename_i ref' w hny
      have href := (hs.ok y _ hny).1 ref' rfl
      rw [nodeIsArray, hny]
      exact ih ref' hy (by omega)
    · subst hy
      rw [nodeIsArray, hn]

/-- The node that requests are about is no place. -/
theorem under_of_node {i ref : Nat} {bits : NodeBits} (hn : s[i]? = some ⟨some ref, bits⟩)
    (hbits : ∀ w, bits ≠ .whereAt w) : under s i = i := by
  rw [under, skipWheres, hn]
  cases bits with
  | whereAt w => exact absurd rfl (hbits w)
  | _ => rfl

theorem under_under (hs : s.Sound) (i : Nat) : under s (under s i) = under s i := by
  suffices hfuel : ∀ fuel i, i < fuel → under s (skipWheres s fuel i) = skipWheres s fuel i from
    hfuel (i + 1) i (Nat.lt_succ_self i)
  intro fuel
  induction fuel with
  | zero => exact fun i hlt => absurd hlt (Nat.not_lt_zero i)
  | succ fuel ih =>
    intro i hlt
    rw [skipWheres]
    split
    · rename_i ref w hn
      have href := (hs.ok i _ hn).1 ref rfl
      exact ih ref (by omega)
    · rename_i hno
      rw [under, skipWheres]
      split
      · rename_i ref w hn
        exact absurd hn (hno ref w)
      · rfl

/-- Once it has been qualified, a type is left alone by a second request: one that asks,
of what could come first, for nothing else. -/
theorem typeQualify_again (hs : s.Sound) {fuel fuel' t i y k : Nat} (ht : t < s.length)
    {c p q : TypeQual} {s1 s2 s3 : NavStore} (hkeeps : (readingOf T s t).Keeps c)
    (hp : p ≠ .none) (hpc : p.Sub c) (hfold : Foldable (tyOf T env s t))
    (h : typeQualify env fuel s t p true = some (s1, i))
    (hrun : NavRun env (fun _ => True) s1 s2) (hy : y < s2.length)
    (hunder : under s2 y = under s2 i) (hq : (q.inter c).Sub p)
    (h' : typeQualify env fuel' s2 y q true = some (s3, k)) : k = y ∨ k = i := by
  induction fuel generalizing fuel' s t i y k c p s1 s2 s3 with
  | zero => cases h
  | succ fuel ih =>
    obtain ⟨fuel', rfl⟩ : ∃ n, fuel' = n + 1 := by
      cases fuel' with
      | zero => cases h'
      | succ n => exact ⟨n, rfl⟩
    obtain ⟨hs1, hpre1, hi1⟩ := typeQualify_sound hs ht h
    have hs2 := hrun.sound hs1
    have hpre2 := (hrun.storeOk hs1.ok).2
    have hread2 : readingOf T s2 y = (readingOf T s t).add p := by
      rw [← readingOf_typeQualify hs ht h, ← readingOf_under hs2, hunder, readingOf_under hs2,
        readingOf_grown hs1 hpre2 hi1]
    by_cases hsub : q.Sub (readingOf T s2 y).quals
    · rw [typeQualify_noop ((qualNoop_iff y q).2 hsub)] at h'
      exact .inl (Prod.mk.inj (Option.some.inj h')).2.symm
    · have hsub' := hsub
      rw [hread2] at hsub'
      obtain ⟨e, as, st, kind, r, hr, hpe⟩ := hkeeps.exists_array hp hpc hq hsub'
      rcases typeQualify_view (T := T) hs ht h with ⟨hpq, -, -⟩ | ⟨_, _, _, hread, -⟩ |
          ⟨ref, size, st', kind', e', as', sa, inner, hread, hskip, -, href, -, hinner, hcall⟩
      · rw [hr] at hpq
        exact absurd hpq hpe
      · rw [hr] at hread
        cases hread
      · rw [hr] at hread hkeeps hread2
        obtain ⟨rfl, rfl, rfl, rfl, rfl⟩ := Reading.array.inj hread
        obtain ⟨-, rfl, -, hkeepsr, hpne, hpce⟩ := hkeeps.of_not_sub hpc hpe
        rw [foldable_skipAll, hskip] at hfold
        rw [Reading.add_of_not_sub hpe] at hread2
        obtain ⟨hsa, hprea, hlta⟩ := typeQualify_sound hs (href.trans ht) hinner
        obtain ⟨size1, hn1, hsize1⟩ := navCall_array_node hcall
        have hn2 : s2[i]? = some ⟨some (under sa inner), .array size1 false .no⟩ := by
          rw [getElem?_grown hpre2 hi1, hn1]
        have hyi : under s2 y = i := by
          rw [hunder, under_of_node hn2 fun w hw => nomatch hw]
        -- the second request comes to the array that the first one has made
        rcases typeQualify_view (T := T) hs2 hy h' with ⟨hqq, -, -⟩ | ⟨_, _, _, hready, -⟩ |
            ⟨ref2, size2, st2, kind2, e2, as2, sb, inner2, hready, -, -, href2,
              ⟨ar, har, hnode2⟩, hinner2, hcall2⟩
        · exact absurd hqq hsub
        · rw [hread2] at hready
          cases hready
        · rw [nodeIsArray_of_under hs2 hyi hn2] at har
          obtain rfl := Option.some.inj har
          rw [hn2] at hnode2
          obtain ⟨hr2, hbits2⟩ := TypeNode.mk.inj (Option.some.inj hnode2)
          obtain rfl := Option.some.inj hr2
          obtain ⟨rfl, rfl, rfl⟩ := NodeBits.array.inj hbits2
          rw [hread2] at hready
          obtain ⟨rfl, -⟩ := Reading.array.inj hready
          rw [TypeQual.diff_none] at hinner2
          have hpre12 := (navCall_sound hsa hcall).2.1.trans hpre2
          have hrun2 : NavRun env (fun _ => True) sa s2 :=
            NavRun.trans (.call (.refl sa) trivial hcall) hrun
          have hlt2 : under sa inner < s2.length :=
            (under_lt hsa hlta).trans_le hpre12.length_le
          have hsame2 : under s2 (under sa inner) = under s2 inner := by
            rw [under_grown hsa.ok hpre12 (under_lt hsa hlta), under_grown hsa.ok hpre12 hlta,
              under_under hsa]
          have hinter : (q.inter (c.diff e)).Sub (p.diff e) := by
            refine TypeQual.sub_iff.mpr fun k hk => ?_
            have := TypeQual.sub_iff.mp hq k
            simp only [TypeQual.has_diff, TypeQual.has_inter] at *
            tauto
          have hor :=
            ih hs (href.trans ht) hkeepsr hpne hpce hfold.2 hinner hrun2 hlt2 hsame2 hinter
            hinner2
          obtain ⟨hsb, hpreb, -⟩ := typeQualify_sound hs2 hlt2 hinner2
          obtain ⟨hrunb, -⟩ := typeQualify_run hs2.ok hlt2 hinner2
          obtain ⟨hsame, -⟩ := sameArray_of_eqArray (hfold.1 rfl) hsize1
          refine .inr (navCall_same hsa.ok hcall (hrun.trans hrunb) hcall2 ?_ hsame)
          rcases hor with rfl | rfl
          · rw [under_grown hs2.ok hpreb hlt2, hsame2,
              under_grown hs2.ok hpreb (hlta.trans_le hpre12.length_le)]
          · rfl

/-- What is qualified has the sizes there were, and they are constant. -/
theorem typeQualify_sizes (hs : s.Sound) {fuel t i : Nat} (ht : t < s.length) {c p : TypeQual}
    (hkeeps : (readingOf T s t).Keeps c) (hpc : p.Sub c)
    (hfold : Foldable (tyOf T env s t))
    (h : typeQualify env fuel s t p true = some (s', i)) :
    (tyOf T env s' i).sizes = (tyOf T env s t).sizes ∧
      Foldable (tyOf T env s' i) := by
  induction fuel generalizing s s' t i c p with
  | zero => cases h
  | succ fuel ih =>
    rcases typeQualify_view (T := T) hs ht h with ⟨-, rfl, rfl⟩ |
        ⟨e, as, b, -, hcall⟩ |
        ⟨ref, size, st, kind, e, as, sa, inner, hread, hskip, hsub, href, -, hinner, hcall⟩
    · exact ⟨rfl, hfold⟩
    · obtain ⟨hs', hpre, -⟩ := navCall_sound hs hcall
      rw [tyOf_eq hs' (navCall_cast_node hcall), tyOf_grown hs hpre (under_lt hs ht)]
      exact ⟨tyOf_under Ty.sizes (fun _ => rfl) hs t,
        (tyOf_under Foldable (fun _ => rfl) hs t).mpr hfold⟩
    · rw [hread] at hkeeps
      obtain ⟨-, rfl, -, hkeepsr, -, hpce⟩ := hkeeps.of_not_sub hpc hsub
      rw [foldable_skipAll, hskip] at hfold
      obtain ⟨hszr, hfr⟩ := ih hs (href.trans ht) hkeepsr hpce hfold.2 hinner
      obtain ⟨hsa, hprea, hlta⟩ := typeQualify_sound hs (href.trans ht) hinner
      obtain ⟨hs', hpre, -⟩ := navCall_sound hsa hcall
      obtain ⟨size', hn, heq⟩ := navCall_array_node hcall
      obtain ⟨-, hsize⟩ := sameArray_of_eqArray (hfold.1 rfl) heq
      rw [tyOf_eq hs' hn, tyOf_grown hsa hpre (under_lt hsa hlta),
        ← Ty.sizes_skipAll (tyOf T env s t), hskip, stepTy, Ty.sizes, Ty.sizes, hsize, ← hszr]
      exact ⟨congrArg _ (tyOf_under Ty.sizes (fun _ => rfl) hsa inner), hfold.1,
        (tyOf_under Foldable (fun _ => rfl) hsa inner).mpr hfr⟩

end Qualify

/-! ## Idempotent and otherwise inert -/

/-- `type_qualify`, with fuel for every type. -/
def qualify (env : NavEnv) (s : NavStore) (t : Nat) (q : TypeQual) : Option (NavStore × Nat) :=
  typeQualify env (t + 1) s t q true

/-- What a request for a qualified type should give: a node `r` that the same request
leaves alone, with the qualifiers there were and those that are added; the arrays, the
element type and the sizes are those there were. -/
structure AddsQuals (T : Nat → Option Nat → List AttributeType) (env : NavEnv) (s : NavStore)
    (t : Nat) (q : TypeQual) (s' : NavStore) (r : Nat) : Prop where
  again : ∃ s'', qualify env s' r q = some (s'', r)
  quals : (readingOf T s' r).allQuals = (readingOf T s t).allQuals.union q
  shape : (readingOf T s' r).shape = (readingOf T s t).shape
  sizes : (tyOf T env s' r).sizes = (tyOf T env s t).sizes

/-- Adding more qualifiers to `r` gives, up to type_cmp, what adding all of them at once
does. -/
def Merges (T : Nat → Option Nat → List AttributeType) (env : NavEnv) (t : Nat) (q : TypeQual)
    (s' : NavStore) (r : Nat) (p : TypeQual) : Prop :=
  ∃ s2 r2 s3 r3, qualify env s' r p = some (s2, r2) ∧
    qualify env s2 t (q.union p) = some (s3, r3) ∧
    ∀ tentative, ∃ c, typeCmp env.types tentative (tyOf T env s3 r2) (tyOf T env s3 r3) = some c ∧
      c.equalAny = true

/-- For all qualifiers, a type with some of them added is what it should be. -/
def QualifyInert (T : Nat → Option Nat → List AttributeType) (env : NavEnv) (s : NavStore)
    (t : Nat) : Prop :=
  ∀ q p, ∃ s' r, qualify env s t q = some (s', r) ∧ AddsQuals T env s t q s' r ∧
    Merges T env t q s' r p

section Inert

variable {T : Nat → Option Nat → List AttributeType} {env : NavEnv} {s s' : NavStore} {t r : Nat}

theorem exists_qualify (env : NavEnv) (hs : s.Sound) (ht : t < s.length) (q : TypeQual) :
    ∃ s' r, qualify env s t q = some (s', r) :=
  exists_typeQualify hs ht (Nat.lt_succ_self t) q

theorem TypeQual.sub_all (q : TypeQual) : q.Sub .all :=
  TypeQual.sub_iff.mpr fun k _ => TypeQual.has_all k

theorem TypeQual.inter_all (q : TypeQual) : q.inter .all = q :=
  TypeQual.eq_of_has fun k => by simp

theorem voidPtrConversion_equalAny {a b : Ty} {c : TypeCmp} (h : c.equalAny = true) :
    voidPtrConversion a b c = c := by
  cases c <;> first | rfl | cases h

theorem qualify_none : qualify env s t .none = some (s, t) :=
  typeQualify_noop (.inl rfl)

theorem qualify_reading (hs : s.Sound) (ht : t < s.length) {q : TypeQual}
    (h : qualify env s t q = some (s', r)) : readingOf T s' r = (readingOf T s t).add q :=
  readingOf_typeQualify hs ht h

/-- A type that keeps what is added, and whose sizes are constant, is qualified as it
should be. -/
theorem adds_of_keeps (hs : s.Sound) (ht : t < s.length) {q : TypeQual}
    (hkeeps : (readingOf T s t).Keeps .all) (hfold : Foldable (tyOf T env s t))
    (h : qualify env s t q = some (s', r)) : AddsQuals T env s t q s' r where
  again := by
    obtain ⟨hs', -, hr⟩ := typeQualify_sound hs ht h
    by_cases hq : q = .none
    · exact ⟨s', typeQualify_noop (.inl hq)⟩
    · obtain ⟨s'', k, hk⟩ := exists_qualify env hs' hr q
      have hsub : (q.inter .all).Sub q := by
        rw [TypeQual.inter_all]
        exact TypeQual.sub_iff.mpr fun _ hk => hk
      refine ⟨s'', ?_⟩
      rcases typeQualify_again hs ht hkeeps hq q.sub_all hfold h (.refl s') hr rfl hsub hk with
        rfl | rfl
      · exact hk
      · exact hk
  quals := by rw [qualify_reading hs ht h, hkeeps.allQuals_add q.sub_all]
  shape := by rw [qualify_reading hs ht h, hkeeps.shape_add q.sub_all]
  sizes := (typeQualify_sizes hs ht hkeeps q.sub_all hfold h).1

theorem merges_of_keeps (hs : s.Sound) (ht : t < s.length) {q : TypeQual}
    (hkeeps : (readingOf T s t).Keeps .all) (hfold : Foldable (tyOf T env s t))
    (h : qualify env s t q = some (s', r)) (p : TypeQual) : Merges T env t q s' r p := by
  obtain ⟨hs', hpre, hr⟩ := typeQualify_sound hs ht h
  obtain ⟨s2, r2, h2⟩ := exists_qualify env hs' hr p
  obtain ⟨hs2, hpre2, hr2⟩ := typeQualify_sound hs' hr h2
  have ht2 : t < s2.length := ht.trans_le (hpre.trans hpre2).length_le
  obtain ⟨s3, r3, h3⟩ := exists_qualify env hs2 ht2 (q.union p)
  obtain ⟨hs3, hpre3, hr3⟩ := typeQualify_sound hs2 ht2 h3
  refine ⟨s2, r2, s3, r3, h2, h3, fun tentative => ?_⟩
  have hreadt : readingOf T s2 t = readingOf T s t := readingOf_grown hs (hpre.trans hpre2) ht
  have htyt : tyOf T env s2 t = tyOf T env s t := tyOf_grown hs (hpre.trans hpre2) ht
  have hty2 : tyOf T env s3 r2 = tyOf T env s2 r2 := tyOf_grown hs2 hpre3 hr2
  have hkeepsr : (readingOf T s' r).Keeps .all := by
    rw [qualify_reading hs ht h]
    by_cases hq : q = .none
    · rw [hq, Reading.add_none]
      exact hkeeps
    · exact hkeeps.keeps_add hq q.sub_all
  obtain ⟨hsz, hf⟩ := typeQualify_sizes hs ht hkeeps q.sub_all hfold h
  obtain ⟨hsz2, hf2⟩ := typeQualify_sizes hs' hr hkeepsr p.sub_all hf h2
  obtain ⟨hsz3, -⟩ := typeQualify_sizes hs2 ht2 (hreadt ▸ hkeeps) (q.union p).sub_all
    (htyt ▸ hfold) h3
  have hread : readingOf T s3 r2 = readingOf T s3 r3 := by
    rw [readingOf_grown hs2 hpre3 hr2, qualify_reading hs' hr h2, qualify_reading hs ht h,
      qualify_reading hs2 ht2 h3, hreadt]
    by_cases hq : q = .none
    · have hunion : TypeQual.none.union p = p := rfl
      rw [hq, Reading.add_none, hunion]
    · rw [hkeeps.add_add hq q.sub_all, TypeQual.inter_all]
  have hsizes : (tyOf T env s3 r2).sizes = (tyOf T env s3 r3).sizes := by
    rw [hty2, hsz2, hsz, hsz3, htyt]
  obtain ⟨c, hc, heq⟩ := typeCmpR_of_reading hs3 (hr2.trans_le hpre3.length_le) hr3 hread hsizes
    (hty2 ▸ hf2) env.types tentative
  refine ⟨c, ?_, heq⟩
  rw [typeCmp, hc, Option.map_some, voidPtrConversion_equalAny heq]

end Inert

/-- The first size is 3, no other is constant; there are only `(void)` argument lists. -/
def threeEnv : NavEnv :=
  ⟨fun e => if e = 0 then some 3 else none, fun _ => ⟨true, false, []⟩, noStructs⟩

/-- `int`, `int[3]`, `int[static 3]` and `int[n]`. -/
def arrayNodes : NavStore :=
  [intNode, ⟨some 0, .array (some 0) false .no⟩, ⟨some 0, .array (some 0) true .no⟩,
    ⟨some 0, .array (some 1) false .vla⟩]

theorem arrayNodes_run : NavRun threeEnv (fun _ => True) [] arrayNodes := by
  have hint : NavRun threeEnv (fun _ => True) [] [intNode] :=
    .call (c := .btype (.prim .int none)) (i := 0) (.refl []) trivial rfl
  have harray : NavRun threeEnv (fun _ => True) []
      [intNode, ⟨some 0, .array (some 0) false .no⟩] :=
    .call (c := .request 0 (.array (some 0) false)) (i := 1) hint trivial rfl
  have hstatic : NavRun threeEnv (fun _ => True) []
      [intNode, ⟨some 0, .array (some 0) false .no⟩, ⟨some 0, .array (some 0) true .no⟩] :=
    .call (c := .request 0 (.array (some 0) true)) (i := 2) harray trivial rfl
  exact .call (c := .request 0 (.vla (some 1) .vla)) (i := 3) hstatic trivial rfl

end Ucc.Cc1
