/-
  Cc1/TypeNav.lean --- sharing of type nodes.

  Source: src/cc1/type_nav.c (type_uptree_find_or_new, the eq_* and init_*
  callbacks, and the constructors that use them), attribute_equal of
  src/cc1/attribute.c.

  The nodes are a list in the order of their creation, and a node is its index.
  The nodes above a node, of one kind, are those of the list that refer to it;
  `ups` keeps them in that order too.  Expressions, declarations, argument lists,
  scopes and places in the source are objects with an identity; what is in an
  argument list, and what an expression folds to, is given beside them.
-/
import Ucc.Cc1.TypeCmp
import Ucc.Lib.Intern

set_option autoImplicit false

namespace Ucc.Cc1

/-! ## Nodes -/

/-- `union` of `struct attribute` -/
inductive AttributeBits where
  | none
  | format (fmtFunc fmtIdx varIdx : Nat)
  | name (s : String)
  | number (n : Nat)
deriving DecidableEq

/-- `struct attribute` -/
structure Attribute where
  type : AttributeType
  bits : AttributeBits
deriving DecidableEq

/-- The attributes whose `bits` are compared. -/
def AttributeType.comparesBits : AttributeType → Bool
  | .format | .cleanup | .section | .callConv | .nonnull | .sentinel | .aligned | .constructor
  | .destructor | .visibility | .noSanitize => true
  | _ => false

/-- `attribute_equal` -/
def attributeEqual (a b : Attribute) : Bool :=
  a.type = b.type && (!a.type.comparesBits || a.bits = b.bits)

/-- `struct funcargs` -/
structure Funcargs where
  argsVoid : Bool
  variadic : Bool
  arglist : List Ty

/-- What is in the objects that the nodes refer to, and what the folder and the
comparison of types know. -/
structure NavEnv where
  constFold : Nat → Option (BitVec 64)
  funcargs : Nat → Funcargs
  types : TypeEnv

/-- `bits` of `struct type`, by its kind. -/
inductive NodeBits where
  | btype (b : BType)
  | tdef (typeOf : Nat) (decl : Option Nat)
  | ptr (decayedFrom : Option Nat)
  | block
  | func (args : Nat) (argScope : Option Nat)
  | array (size : Option Nat) (isStatic : Bool) (vlaKind : VlaKind)
  | cast (qual : TypeQual)
  | attr (attrs : List Attribute)
  | whereAt (w : Nat)

/-- `struct type` -/
structure TypeNode where
  ref : Option Nat
  bits : NodeBits

/-- What a request is for: the callbacks, with their context. -/
inductive NavCtx where
  | ptr
  | decayed (arrayFrom : Nat)
  | array (size : Option Nat) (isStatic : Bool)
  | vla (size : Option Nat) (vlaKind : VlaKind)
  | func (args : Nat) (argScope : Option Nat)
  | block
  | attr (attrs : List Attribute)
  | cast (qual : TypeQual)
  | tdef (typeOf : Nat) (decl : Option Nat)

/-! ## The callbacks -/

/-- `sz_i` of `ctx_array_init`: zero for what does not fold. -/
def ctxSizeI (env : NavEnv) (size : Nat) : BitVec 64 := (env.constFold size).getD 0

/-- `eq_array`, of the array parameters of a candidate and of a context. -/
def eqArray (env : NavEnv) (cand ctx : Option Nat × Bool × VlaKind) : Bool :=
  if cand.2.1 ≠ ctx.2.1 then false
  else if cand.2.2 ≠ ctx.2.2 then false
  else if cand.1 = ctx.1 then true
  else
    match cand.1, ctx.1 with
    | some size, some size' =>
        match env.constFold size with
        | some k => ctxSizeI env size' = k
        | none => size = size'
    | _, _ => false

/-- `eq_attr` -/
def eqAttr (cand other : List Attribute) : Bool :=
  cand.length = other.length && cand.all fun a => other.any fun b => attributeEqual a b

/-- `eq_func` -/
def eqFunc (env : NavEnv) (cand : Nat × Option Nat) (ctx : Nat × Option Nat) : Option Bool :=
  if ctx.2 ≠ cand.2 then some false
  else
    (funcargsCmp env.types cand.1 ctx.1 (env.funcargs cand.1).argsVoid
      (env.funcargs cand.1).variadic (env.funcargs ctx.1).argsVoid (env.funcargs cand.1).arglist
      (env.funcargs ctx.1).arglist).map fun cmp => cmp = .exactEqual

/-- The nodes there are. -/
abbrev NavStore := List TypeNode

/-- `bits.array` of a node. -/
def arrayParams (s : NavStore) (i : Nat) : Option (Option Nat × Bool × VlaKind) :=
  match s[i]? with
  | some ⟨_, .array size isStatic kind⟩ => some (size, isStatic, kind)
  | _ => none

/-- The test of a candidate.  Nodes of another kind are in another list. -/
def eqNode (env : NavEnv) (s : NavStore) (ctx : NavCtx) (cand : NodeBits) : Option Bool :=
  match ctx, cand with
  -- `eq_ptr`
  | .ptr, .ptr decayedFrom => some (decayedFrom = none)
  -- `eq_decayed_array`
  | .decayed _, .ptr none => some false
  | .decayed arrayFrom, .ptr (some from') => do
      let cand ← arrayParams s from'
      let ctx ← arrayParams s arrayFrom
      return eqArray env cand ctx
  | .array size isStatic, .array size' isStatic' kind =>
      some (eqArray env (size', isStatic', kind) (size, isStatic, .no))
  -- `eq_false`: a variable length array is not equal to any other type
  | .vla _ _, .array _ _ _ => some false
  | .func args argScope, .func args' argScope' => eqFunc env (args', argScope') (args, argScope)
  -- `eq_true`
  | .block, .block => some true
  | .attr attrs, .attr attrs' => some (eqAttr attrs' attrs)
  -- `eq_qual`
  | .cast qual, .cast qual' => some (qual' = qual)
  -- `eq_tdef`
  | .tdef _ decl, .tdef _ decl' => some (decl' = decl)
  | _, _ => some false

example (env : NavEnv) (s : NavStore) (size : Option Nat) (kind : VlaKind) (cand : NodeBits) :
    eqNode env s (.vla size kind) cand = some false := by
  cases cand <;> simp only [eqNode]

/-- The `init_*` callbacks. -/
def initNode : NavCtx → NodeBits
  | .ptr => .ptr none
  | .decayed arrayFrom => .ptr (some arrayFrom)
  | .array size isStatic => .array size isStatic .no
  | .vla size kind => .array size false kind
  | .func args argScope => .func args argScope
  | .block => .block
  | .attr attrs => .attr attrs
  | .cast qual => .cast qual
  | .tdef typeOf decl => .tdef typeOf decl

/-! ## The constructors -/

/-- `type_skip_wheres`: the fuel is more than the index of the node. -/
def skipWheres (s : NavStore) : Nat → Nat → Nat
  | 0, i => i
  | fuel + 1, i =>
      match s[i]? with
      | some ⟨some ref, .whereAt _⟩ => skipWheres s fuel ref
      | _ => i

/-- The node that requests on a node are about. -/
def under (s : NavStore) (i : Nat) : Nat := skipWheres s (i + 1) i

/-- The test of `type_uptree_find_or_new`, of a node of the list. -/
def isCandidate (env : NavEnv) (s : NavStore) (base : Nat) (ctx : NavCtx) (n : TypeNode) :
    Option Bool :=
  if n.ref = some base then eqNode env s ctx n.bits else some false

/-- `type_uptree_find_or_new` -/
def typeUptreeFindOrNew (env : NavEnv) (s : NavStore) (base : Nat) (ctx : NavCtx) :
    Option (NavStore × Nat) :=
  Lib.intern (isCandidate env s base ctx) ⟨some base, initNode ctx⟩ s

/-- A decayed pointer is made of an array. -/
def NavCtx.Made (s : NavStore) : NavCtx → Bool
  | .decayed arrayFrom => (arrayParams s arrayFrom).isSome
  | _ => true

/-- The calls: the base types, the constructors that go through
`type_uptree_find_or_new`, and `type_at_where`. -/
inductive NavCall where
  | btype (b : BType)
  | request (base : Nat) (ctx : NavCtx)
  | atWhere (t w : Nat)

/-- `type_nav_btype` and its siblings keep one node for each base type. -/
def isBtype (b : BType) (n : TypeNode) : Option Bool :=
  match n.bits with
  | .btype b' => some (b' = b)
  | _ => some false

def navCall (env : NavEnv) (s : NavStore) : NavCall → Option (NavStore × Nat)
  | .btype b => Lib.intern (isBtype b) ⟨none, .btype b⟩ s
  | .request base ctx =>
      if base < s.length && ctx.Made s then typeUptreeFindOrNew env s (under s base) ctx else none
  | .atWhere t w =>
      match s[t]? with
      | none => none
      | some ⟨_, .whereAt w'⟩ =>
          if w' = w then some (s, t)
          else some (s ++ [⟨some (under s t), .whereAt w⟩], s.length)
      | some _ => some (s ++ [⟨some (under s t), .whereAt w⟩], s.length)

/-- Any sequence of calls, of those that `P` allows. -/
inductive NavRun (env : NavEnv) (P : NavCall → Prop) : NavStore → NavStore → Prop
  | refl (s : NavStore) : NavRun env P s s
  | call {s s' s'' : NavStore} {c : NavCall} {i : Nat} :
      NavRun env P s s' → P c → navCall env s' c = some (s'', i) → NavRun env P s s''

/-! ## `type_qualify` -/

/-- `type_qual` -/
def nodeQual (s : NavStore) : Nat → Nat → TypeQual
  | 0, _ => .none
  | fuel + 1, i =>
      match s[i]? with
      | some ⟨some ref, .cast q⟩ => q.union (nodeQual s fuel ref)
      | some ⟨some ref, .attr _⟩ => nodeQual s fuel ref
      | some ⟨some ref, .whereAt _⟩ => nodeQual s fuel ref
      | some ⟨some ref, .tdef _ _⟩ => nodeQual s fuel ref
      | _ => .none

/-- `type_is` an array: the array node. -/
def nodeIsArray (s : NavStore) : Nat → Nat → Option Nat
  | 0, _ => none
  | fuel + 1, i =>
      match s[i]? with
      | some ⟨some ref, .cast _⟩ => nodeIsArray s fuel ref
      | some ⟨some ref, .attr _⟩ => nodeIsArray s fuel ref
      | some ⟨some ref, .whereAt _⟩ => nodeIsArray s fuel ref
      | some ⟨some ref, .tdef _ _⟩ => nodeIsArray s fuel ref
      | some ⟨_, .array _ _ _⟩ => some i
      | _ => none

def TypeQual.diff (q r : TypeQual) : TypeQual :=
  ⟨q.const && !r.const, q.volatile && !r.volatile, q.restrict && !r.restrict⟩

@[simp] theorem TypeQual.diff_none (q : TypeQual) : q.diff .none = q := by
  simp [TypeQual.diff, TypeQual.none]

/-- `type_qualify3` -/
def typeQualify (env : NavEnv) : Nat → NavStore → Nat → TypeQual → Bool → Option (NavStore × Nat)
  | 0, _, _, _, _ => none
  | fuel + 1, s, t, qual, transformArrayQual =>
      let existing := nodeQual s (t + 1) t
      if qual = .none then some (s, t)
      else if existing ≠ .none && qual.union existing = existing then some (s, t)
      else
        match (if transformArrayQual then nodeIsArray s (t + 1) t else none) with
        | none => navCall env s (.request t (.cast (qual.diff existing)))
        | some arTy =>
            match s[arTy]? with
            | some ⟨some ref, .array size _ _⟩ => do
                let (s, inner) ← typeQualify env fuel s ref (qual.diff existing) true
                navCall env s (.request inner (.array size false))
            | _ => none

/-! ## Equal parameters -/

/-- The same flags, and the same size: one expression, or one value. -/
def SameArray (env : NavEnv) (p q : Option Nat × Bool × VlaKind) : Prop :=
  p.2 = q.2 ∧ (p.1 = q.1 ∨ ∃ a b k, p.1 = some a ∧ q.1 = some b ∧
    env.constFold a = some k ∧ env.constFold b = some k)

/-- What `attribute_equal` compares. -/
def Attribute.compared (a : Attribute) : AttributeType × Option AttributeBits :=
  (a.type, if a.type.comparesBits then some a.bits else none)

/-- The same attributes, in any order. -/
def SameAttrs (as bs : List Attribute) : Prop :=
  (as.map Attribute.compared).Perm (bs.map Attribute.compared)

/-- One argument list, or two of the same parameters; `()` says nothing of the
parameters. -/
def SameFuncargs (env : NavEnv) (args args' : Nat) : Prop :=
  args = args' ∨ (env.funcargs args = env.funcargs args' ∧
    ¬ ((env.funcargs args).arglist = [] ∧ (env.funcargs args).argsVoid = false))

/-- Two requests with equal parameters.  Each variable length array is a type of
its own. -/
def SameCtx (env : NavEnv) (s : NavStore) (ctx ctx' : NavCtx) : Prop :=
  match ctx, ctx' with
  | .ptr, .ptr => True
  | .decayed a, .decayed a' => ∃ p p', arrayParams s a = some p ∧ arrayParams s a' = some p' ∧
      SameArray env p p'
  | .array size isStatic, .array size' isStatic' =>
      SameArray env (size, isStatic, .no) (size', isStatic', .no)
  | .func args argScope, .func args' argScope' => argScope = argScope' ∧ SameFuncargs env args args'
  | .block, .block => True
  | .attr attrs, .attr attrs' => SameAttrs attrs attrs'
  | .cast qual, .cast qual' => qual = qual'
  | .tdef _ decl, .tdef _ decl' => decl = decl'
  | _, _ => False

/-- The parameters of a node are those that are requested.  Argument lists are
the same up to `funcargs_cmp`. -/
def HasParams (env : NavEnv) (s : NavStore) (ctx : NavCtx) (bits : NodeBits) : Prop :=
  match ctx, bits with
  | .ptr, .ptr decayedFrom => decayedFrom = none
  | .decayed arrayFrom, .ptr decayedFrom => ∃ a p p', decayedFrom = some a ∧
      arrayParams s a = some p ∧ arrayParams s arrayFrom = some p' ∧ SameArray env p p'
  | .array size isStatic, .array size' isStatic' kind =>
      SameArray env (size', isStatic', kind) (size, isStatic, .no)
  | .func args argScope, .func args' argScope' => argScope' = argScope ∧
      funcargsCmp env.types args' args (env.funcargs args').argsVoid (env.funcargs args').variadic
        (env.funcargs args).argsVoid (env.funcargs args').arglist (env.funcargs args).arglist =
        some .exactEqual
  | .block, .block => True
  | .attr attrs, .attr attrs' => SameAttrs attrs' attrs
  | .cast qual, .cast qual' => qual' = qual
  | .tdef _ decl, .tdef _ decl' => decl' = decl
  | _, _ => False

/-- No attribute list has two equal attributes; an array has a constant size,
unless it is made as one of variable length. -/
def NavCall.Regular (env : NavEnv) : NavCall → Prop
  | .request _ (.attr attrs) => (attrs.map Attribute.compared).Nodup
  | .request _ (.array (some size) _) => (env.constFold size).isSome
  | .request _ (.vla size kind) => kind ≠ .no ∧ ∀ e, size = some e → env.constFold e = none
  | _ => True

/-! ## The callbacks and the parameters -/

theorem eqArray_self (env : NavEnv) (p : Option Nat × Bool × VlaKind) : eqArray env p p = true := by
  simp [eqArray]

/-- `eq_array` tells requests of equal parameters apart from nothing. -/
theorem SameArray.eqArray_eq {env : NavEnv} {p q : Option Nat × Bool × VlaKind}
    (h : SameArray env p q) (cand : Option Nat × Bool × VlaKind) :
    eqArray env cand p = eqArray env cand q := by
  obtain ⟨size, flags⟩ := p
  obtain ⟨size', flags'⟩ := q
  obtain ⟨hflags, hsize⟩ := h
  dsimp only at hflags hsize
  subst hflags
  rcases hsize with rfl | ⟨a, b, k, rfl, rfl, ha, hb⟩
  · rfl
  · obtain ⟨csize, cflags⟩ := cand
    unfold eqArray
    dsimp only
    split
    · rfl
    · split
      · rfl
      · cases csize with
        | none => simp
        | some c =>
          have hia : ctxSizeI env a = k := by rw [ctxSizeI, ha]; rfl
          have hib : ctxSizeI env b = k := by rw [ctxSizeI, hb]; rfl
          by_cases hca : c = a <;> by_cases hcb : c = b
          · rw [← hca, ← hcb]
          · subst hca
            simp [hcb, ha, hib]
          · subst hcb
            simp [hca, hb, hia]
          · cases hc : env.constFold c with
            | none => simp [hca, hcb, hc]
            | some k' => simp [hca, hcb, hc, hia, hib]

/-- The parameters of an array that has been made as the calls allow. -/
def ArrayOk (env : NavEnv) (p : Option Nat × Bool × VlaKind) : Prop :=
  ∀ e, p.1 = some e → if p.2.2 = .no then (env.constFold e).isSome else env.constFold e = none

theorem eqArray_sound {env : NavEnv} {cand ctx : Option Nat × Bool × VlaKind}
    (hcand : ArrayOk env cand) (hctx : ArrayOk env ctx) (h : eqArray env cand ctx = true) :
    SameArray env cand ctx := by
  obtain ⟨size, isStatic, kind⟩ := cand
  obtain ⟨size', isStatic', kind'⟩ := ctx
  unfold eqArray at h
  dsimp only at h
  split at h
  · cases h
  · rename_i hstatic
    split at h
    · cases h
    · rename_i hkind
      rw [not_not] at hstatic hkind
      subst hstatic
      subst hkind
      refine ⟨rfl, ?_⟩
      split at h
      · rename_i hsize
        exact .inl hsize
      · rename_i hsize
        cases size with
        | none => simp at h
        | some a =>
          cases size' with
          | none => simp at h
          | some b =>
            dsimp only at h
            have ha := hcand a rfl
            have hb := hctx b rfl
            dsimp only at ha hb
            cases hfold : env.constFold a with
            | none =>
              rw [hfold, decide_eq_true_eq] at h
              exact absurd (congrArg some h) hsize
            | some k =>
              -- a constant: then it is not of variable length, nor is the other
              have hno : kind = .no := by
                by_contra hno
                rw [if_neg hno, hfold] at ha
                cases ha
              rw [if_pos hno] at hb
              obtain ⟨k', hk'⟩ := Option.isSome_iff_exists.1 hb
              rw [hfold] at h
              have heq : ctxSizeI env b = k := of_decide_eq_true h
              rw [ctxSizeI, hk'] at heq
              obtain rfl : k' = k := heq
              exact .inr ⟨a, b, k', rfl, rfl, hfold, hk'⟩

theorem attributeEqual_iff (a b : Attribute) :
    attributeEqual a b = true ↔ a.compared = b.compared := by
  unfold attributeEqual Attribute.compared
  rw [Bool.and_eq_true, decide_eq_true_eq, Prod.mk.injEq]
  constructor
  · rintro ⟨htype, hbits⟩
    refine ⟨htype, ?_⟩
    rw [← htype]
    split
    · rename_i hcompares
      rw [hcompares] at hbits
      simpa using hbits
    · rfl
  · rintro ⟨htype, hbits⟩
    refine ⟨htype, ?_⟩
    rw [← htype] at hbits
    cases hcompares : a.type.comparesBits with
    | false => rfl
    | true =>
      rw [hcompares, if_pos rfl, if_pos rfl] at hbits
      simpa using hbits

/-- `eq_attr`: as many attributes, and each is among those requested. -/
theorem eqAttr_iff (cand other : List Attribute) :
    eqAttr cand other = true ↔ (cand.map Attribute.compared).length =
        (other.map Attribute.compared).length ∧
      cand.map Attribute.compared ⊆ other.map Attribute.compared := by
  unfold eqAttr
  rw [Bool.and_eq_true, decide_eq_true_eq, List.all_eq_true, List.length_map, List.length_map]
  refine and_congr Iff.rfl ?_
  constructor
  · intro h x hx
    obtain ⟨a, ha, rfl⟩ := List.mem_map.1 hx
    obtain ⟨b, hb, hab⟩ := List.any_eq_true.1 (h a ha)
    rw [(attributeEqual_iff a b).1 hab]
    exact List.mem_map_of_mem hb
  · intro h a ha
    obtain ⟨b, hb, hab⟩ := List.mem_map.1 (h (List.mem_map_of_mem ha))
    exact List.any_eq_true.2 ⟨b, hb, (attributeEqual_iff a b).2 hab.symm⟩

theorem SameAttrs.eqAttr_eq {as bs : List Attribute} (h : SameAttrs as bs)
    (cand : List Attribute) : eqAttr cand as = eqAttr cand bs := by
  rw [Bool.eq_iff_iff, eqAttr_iff, eqAttr_iff, h.length_eq]
  refine and_congr Iff.rfl ⟨fun hsub => ?_, fun hsub => ?_⟩
  · exact List.Subset.trans hsub h.subset
  · exact List.Subset.trans hsub h.symm.subset

theorem eqAttr_sound {cand other : List Attribute} (hnodup : (cand.map Attribute.compared).Nodup)
    (h : eqAttr cand other = true) : SameAttrs cand other := by
  obtain ⟨hlen, hsub⟩ := (eqAttr_iff cand other).1 h
  exact (hnodup.subperm hsub).perm_of_length_le hlen.ge

theorem eqFunc_self (env : NavEnv) (args : Nat) (argScope : Option Nat) :
    eqFunc env (args, argScope) (args, argScope) = some true := by
  simp [eqFunc, funcargsCmp, funcargsHead]

/-- The loop over the parameters of two lists that are equal gives that they are,
if it comes to the end. -/
theorem cmpArglist_self {E : TypeEnv} {ps : List Ty} {cmp : FuncargsCmp}
    (h : cmpArglist E ps ps = some cmp) : cmp = .exactEqual := by
  induction ps with
  | nil => exact (Option.some.inj h).symm
  | cons p ps ih =>
    rw [cmpArglist] at h
    have hself := typeCmpR_self E (sizeOf p + 1) false p (Nat.lt_succ_self _)
    by_cases hfold : Foldable p
    · have hequal : cmpSkipped E false p p p = some .equal := hself.1 hfold
      rw [hequal] at h
      exact ih h
    · have hnone : cmpSkipped E false p p p = none := hself.2 hfold
      rw [hnone] at h
      cases h

/-- Two argument lists of the same parameters are equal, unless they are `()`. -/
theorem funcargsCmp_same {E : TypeEnv} (args args' : Nat) {f : Funcargs} {cmp : FuncargsCmp}
    (hf : ¬ (f.arglist = [] ∧ f.argsVoid = false))
    (h : funcargsCmp E args args' f.argsVoid f.variadic f.argsVoid f.arglist f.arglist =
      some cmp) : cmp = .exactEqual := by
  by_cases hargs : args = args'
  · rw [funcargsCmp, funcargsHead, if_pos hargs] at h
    exact (Option.some.inj h).symm
  · have hshares : ¬ Shares args args' f.argsVoid f.argsVoid f.arglist.length
        f.arglist.length := by
      rintro (heq | ⟨hlen, hvoid⟩ | ⟨hlen, hvoid⟩)
      · exact hargs heq
      · exact hf ⟨List.length_eq_zero_iff.1 hlen, hvoid⟩
      · exact hf ⟨List.length_eq_zero_iff.1 hlen, hvoid⟩
    have hcount : if f.variadic then f.arglist.length ≤ f.arglist.length
        else f.arglist.length = f.arglist.length := by
      split
      · exact Nat.le_refl _
      · rfl
    rw [funcargsCmp, funcargsHead_of_not_shares hshares, if_pos hcount] at h
    exact cmpArglist_self h

theorem SameFuncargs.agree {env : NavEnv} {args args' : Nat} (h : SameFuncargs env args args')
    (cand : Nat × Option Nat) (argScope : Option Nat) {b b' : Bool}
    (hb : eqFunc env cand (args, argScope) = some b)
    (hb' : eqFunc env cand (args', argScope) = some b') : b = b' := by
  rcases h with rfl | ⟨hsame, hempty⟩
  · exact Option.some.inj (hb.symm.trans hb')
  · unfold eqFunc at hb hb'
    dsimp only at hb hb'
    by_cases hscope : argScope ≠ cand.2
    · rw [if_pos hscope] at hb hb'
      exact Option.some.inj (hb.symm.trans hb')
    · rw [if_neg hscope] at hb hb'
      obtain ⟨cmp, hcmp, rfl⟩ := Option.map_eq_some_iff.1 hb
      obtain ⟨cmp', hcmp', rfl⟩ := Option.map_eq_some_iff.1 hb'
      by_cases hc : cand.1 = args ∨ cand.1 = args'
      · -- the candidate has the same parameters as both
        have hcand : env.funcargs cand.1 = env.funcargs args := by
          rcases hc with hc | hc
          · rw [hc]
          · rw [hc, hsame]
        rw [hcand] at hcmp
        rw [hcand, ← hsame] at hcmp'
        rw [funcargsCmp_same _ _ hempty hcmp, funcargsCmp_same _ _ hempty hcmp']
      · rw [not_or] at hc
        have hhead : ∀ void variadic void' count count',
            funcargsHead cand.1 args void variadic void' count count' =
              funcargsHead cand.1 args' void variadic void' count count' := by
          intro void variadic void' count count'
          rw [funcargsHead, funcargsHead, if_neg hc.1, if_neg hc.2]
        rw [funcargsCmp, hhead, hsame] at hcmp
        rw [funcargsCmp] at hcmp'
        rw [Option.some.inj (hcmp.symm.trans hcmp')]

/-- A node that has just been made passes the test. -/
theorem eqNode_initNode {env : NavEnv} {s s' : NavStore} {ctx ctx' : NavCtx}
    (h : SameCtx env s' ctx ctx') (hmade : ctx.Made s = true) :
    eqNode env s ctx (initNode ctx) = some true := by
  cases ctx with
  | ptr => rfl
  | decayed a =>
    obtain ⟨p, hp⟩ := Option.isSome_iff_exists.1 hmade
    simp [eqNode, initNode, hp, eqArray_self]
  | array size isStatic => simp [eqNode, initNode, eqArray_self]
  | vla size kind => cases ctx' <;> exact absurd h id
  | func args argScope => exact eqFunc_self env args argScope
  | block => rfl
  | attr attrs =>
    simp only [eqNode, initNode, Option.some.injEq]
    exact (eqAttr_iff attrs attrs).2 ⟨rfl, List.Subset.refl _⟩
  | cast qual => simp [eqNode, initNode]
  | tdef typeOf decl => simp [eqNode, initNode]

/-- Requests with equal parameters test alike. -/
theorem SameCtx.agree {env : NavEnv} {s : NavStore} {ctx ctx' : NavCtx} (h : SameCtx env s ctx ctx')
    (cand : NodeBits) {b b' : Bool} (hb : eqNode env s ctx cand = some b)
    (hb' : eqNode env s ctx' cand = some b') : b = b' := by
  have hof : eqNode env s ctx cand = eqNode env s ctx' cand → b = b' := fun heq =>
    Option.some.inj (hb.symm.trans (heq.trans hb'))
  cases ctx with
  | ptr =>
    cases ctx' with
    | ptr => exact hof rfl
    | _ => exact absurd h id
  | decayed a =>
    cases ctx' with
    | decayed a' =>
      obtain ⟨p, p', hp, hp', hsame⟩ := h
      apply hof
      cases cand with
      | ptr decayedFrom =>
        cases decayedFrom with
        | none => rfl
        | some from' =>
          simp only [eqNode, hp, hp', Option.bind_eq_bind, Option.bind_some, Option.pure_def,
            hsame.eqArray_eq]
      | _ => rfl
    | _ => exact absurd h id
  | array size isStatic =>
    cases ctx' with
    | array size' isStatic' =>
      apply hof
      cases cand with
      | array csize cstatic ckind => simp only [eqNode, SameArray.eqArray_eq h]
      | _ => rfl
    | _ => exact absurd h id
  | vla size kind => cases ctx' <;> exact absurd h id
  | func args argScope =>
    cases ctx' with
    | func args' argScope' =>
      obtain ⟨rfl, hargs⟩ := h
      cases cand with
      | func cargs cscope => exact hargs.agree (cargs, cscope) argScope hb hb'
      | _ => exact hof rfl
    | _ => exact absurd h id
  | block =>
    cases ctx' with
    | block => exact hof rfl
    | _ => exact absurd h id
  | attr attrs =>
    cases ctx' with
    | attr attrs' =>
      apply hof
      cases cand with
      | attr cattrs => simp only [eqNode, SameAttrs.eqAttr_eq h]
      | _ => rfl
    | _ => exact absurd h id
  | cast qual =>
    cases ctx' with
    | cast qual' =>
      obtain rfl : qual = qual' := h
      exact hof rfl
    | _ => exact absurd h id
  | tdef typeOf decl =>
    cases ctx' with
    | tdef typeOf' decl' =>
      obtain rfl : decl = decl' := h
      apply hof
      cases cand <;> rfl
    | _ => exact absurd h id

/-- What the calls have made so far is as they allow. -/
def NodeOk (env : NavEnv) (bits : NodeBits) : Prop :=
  match bits with
  | .attr attrs => (attrs.map Attribute.compared).Nodup
  | .array size isStatic kind => ArrayOk env (size, isStatic, kind)
  | _ => True

theorem arrayParams_ok {env : NavEnv} {s : NavStore} (hs : ∀ n ∈ s, NodeOk env n.bits) {i : Nat}
    {p : Option Nat × Bool × VlaKind} (h : arrayParams s i = some p) : ArrayOk env p := by
  unfold arrayParams at h
  split at h
  · rename_i ref size isStatic kind hi
    obtain rfl := Option.some.inj h
    exact hs _ (List.mem_of_getElem? hi)
  · cases h

/-- A candidate that passes the test has the parameters that are requested. -/
theorem eqNode_hasParams {env : NavEnv} {s : NavStore} (hs : ∀ n ∈ s, NodeOk env n.bits)
    {base : Nat}
    {ctx : NavCtx} (hregular : (NavCall.request base ctx).Regular env) {cand : NodeBits}
    (hcand : NodeOk env cand) (h : eqNode env s ctx cand = some true) :
    HasParams env s ctx cand := by
  cases ctx with
  | ptr =>
    cases cand with
    | ptr decayedFrom => simpa [eqNode, HasParams] using h
    | _ => cases h
  | decayed arrayFrom =>
    cases cand with
    | ptr decayedFrom =>
      cases decayedFrom with
      | none => cases h
      | some a =>
        simp only [eqNode, Option.bind_eq_bind, Option.bind_eq_some_iff, Option.pure_def,
          Option.some.injEq] at h
        obtain ⟨p, hp, p', hp', heq⟩ := h
        exact ⟨a, p, p', rfl, hp, hp',
          eqArray_sound (arrayParams_ok hs hp) (arrayParams_ok hs hp') heq⟩
    | _ => cases h
  | array size isStatic =>
    cases cand with
    | array csize cstatic ckind =>
      refine eqArray_sound hcand ?_ (Option.some.inj h)
      rintro e rfl
      exact hregular
    | _ => cases h
  | vla size kind => cases cand <;> cases h
  | func args argScope =>
    cases cand with
    | func cargs cscope =>
      replace h : eqFunc env (cargs, cscope) (args, argScope) = some true := h
      unfold eqFunc at h
      dsimp only at h
      split at h
      · cases h
      · rename_i hscope
        rw [not_not] at hscope
        obtain ⟨cmp, hcmp, hexact⟩ := Option.map_eq_some_iff.1 h
        rw [of_decide_eq_true hexact] at hcmp
        exact ⟨hscope.symm, hcmp⟩
    | _ => cases h
  | block =>
    cases cand with
    | block => trivial
    | _ => cases h
  | attr attrs =>
    cases cand with
    | attr cattrs => exact eqAttr_sound hcand (Option.some.inj h)
    | _ => cases h
  | cast qual =>
    cases cand with
    | cast qual' => simpa [eqNode, HasParams] using h
    | _ => cases h
  | tdef typeOf decl =>
    cases cand with
    | tdef typeOf' decl' => simpa [eqNode, HasParams] using h
    | _ => cases h

/-! ## The nodes over a run -/

/-- A node only refers to nodes that were there before it. -/
def StoreOk (s : NavStore) : Prop :=
  ∀ (i : Nat) n, s[i]? = some n →
    (∀ r, n.ref = some r → r < i) ∧ ∀ a, n.bits = .ptr (some a) → a < i

theorem StoreOk.snoc {s : NavStore} (h : StoreOk s) {n : TypeNode}
    (href : ∀ r, n.ref = some r → r < s.length)
    (hptr : ∀ a, n.bits = .ptr (some a) → a < s.length) : StoreOk (s ++ [n]) := by
  intro i m hm
  by_cases hi : i < s.length
  · rw [List.getElem?_append_left hi] at hm
    exact h i m hm
  · have hlt := (List.getElem?_eq_some_iff.1 hm).1
    rw [List.length_append, List.length_singleton] at hlt
    obtain rfl : i = s.length := by omega
    rw [List.getElem?_concat_length] at hm
    obtain rfl := Option.some.inj hm
    exact ⟨href, hptr⟩

theorem skipWheres_le {s : NavStore} (h : StoreOk s) (fuel i : Nat) : skipWheres s fuel i ≤ i := by
  induction fuel generalizing i with
  | zero => exact Nat.le_refl i
  | succ fuel ih =>
    rw [skipWheres]
    split
    · rename_i ref w hi
      have hlt := (h i _ hi).1 ref rfl
      exact (ih ref).trans hlt.le
    · exact Nat.le_refl i

theorem arrayParams_lt {s : NavStore} {i : Nat} {p : Option Nat × Bool × VlaKind}
    (h : arrayParams s i = some p) : i < s.length := by
  unfold arrayParams at h
  split at h
  · rename_i hi
    exact (List.getElem?_eq_some_iff.1 hi).1
  · cases h

/-- What a call does to the nodes: nothing, or one more of them. -/
theorem navCall_entries {env : NavEnv} {s s' : NavStore} {c : NavCall} {i : Nat}
    (hs : StoreOk s) (h : navCall env s c = some (s', i)) :
    (s' = s ∧ i < s.length) ∨ ∃ n : TypeNode, s' = s ++ [n] ∧ i = s.length ∧
      (∀ r, n.ref = some r → r < s.length) ∧ (∀ a, n.bits = .ptr (some a) → a < s.length) ∧
      (c.Regular env → NodeOk env n.bits) := by
  cases c with
  | btype b =>
    rcases Lib.intern_entries h with hold | ⟨rfl, rfl⟩
    · exact .inl hold
    · exact .inr ⟨_, rfl, rfl, by simp, by simp, fun _ => trivial⟩
  | request base ctx =>
    rw [navCall] at h
    split at h
    · rename_i hcond
      rw [Bool.and_eq_true, decide_eq_true_eq] at hcond
      rcases Lib.intern_entries h with hold | ⟨rfl, rfl⟩
      · exact .inl hold
      · refine .inr ⟨_, rfl, rfl, ?_, ?_, ?_⟩
        · intro r hr
          obtain rfl := Option.some.inj hr
          exact (skipWheres_le hs _ base).trans_lt hcond.1
        · intro a ha
          cases ctx with
          | decayed arrayFrom =>
            obtain rfl := Option.some.inj (NodeBits.ptr.inj ha)
            obtain ⟨p, hp⟩ := Option.isSome_iff_exists.1 hcond.2
            exact arrayParams_lt hp
          | _ => cases ha
        · intro hregular
          cases ctx with
          | attr attrs => exact hregular
          | array size isStatic =>
            rintro e rfl
            exact hregular
          | vla size kind =>
            intro e he
            rw [if_neg hregular.1]
            exact hregular.2 e he
          | _ => trivial
    · cases h
  | atWhere t w =>
    rw [navCall] at h
    have hnew : ∀ {u j}, t < s.length →
        some (s ++ [⟨some (under s t), .whereAt w⟩], s.length) = some (u, j) →
        ∃ n : TypeNode, u = s ++ [n] ∧ j = s.length ∧
          (∀ r, n.ref = some r → r < s.length) ∧ (∀ a, n.bits = .ptr (some a) → a < s.length) ∧
          (NavCall.Regular env (.atWhere t w) → NodeOk env n.bits) := by
      intro u j ht heq
      obtain ⟨rfl, rfl⟩ := Prod.mk.inj (Option.some.inj heq)
      refine ⟨_, rfl, rfl, ?_, by simp, fun _ => trivial⟩
      intro r hr
      obtain rfl := Option.some.inj hr
      exact (skipWheres_le hs _ t).trans_lt ht
    split at h
    · cases h
    · rename_i ref w' ht
      have htlt := (List.getElem?_eq_some_iff.1 ht).1
      split at h
      · obtain ⟨rfl, rfl⟩ := Prod.mk.inj (Option.some.inj h)
        exact .inl ⟨rfl, htlt⟩
      · exact .inr (hnew htlt h)
    · rename_i n hn ht
      exact .inr (hnew (List.getElem?_eq_some_iff.1 ht).1 h)

theorem navCall_storeOk {env : NavEnv} {s s' : NavStore} {c : NavCall} {i : Nat}
    (hs : StoreOk s) (h : navCall env s c = some (s', i)) :
    StoreOk s' ∧ s <+: s' ∧ i < s'.length := by
  rcases navCall_entries hs h with ⟨rfl, hi⟩ | ⟨n, rfl, rfl, href, hptr, -⟩
  · exact ⟨hs, List.prefix_rfl, hi⟩
  · exact ⟨hs.snoc href hptr, List.prefix_append s [n], by simp⟩

theorem NavRun.storeOk {env : NavEnv} {P : NavCall → Prop} {s s' : NavStore}
    (h : NavRun env P s s') (hs : StoreOk s) : StoreOk s' ∧ s <+: s' := by
  induction h with
  | refl => exact ⟨hs, List.prefix_rfl⟩
  | call _ _ hcall ih =>
    obtain ⟨hs'', hpre, -⟩ := navCall_storeOk ih.1 hcall
    exact ⟨hs'', ih.2.trans hpre⟩

theorem NavRun.nodeOk {env : NavEnv} {s s' : NavStore} (h : NavRun env (NavCall.Regular env) s s')
    (hs : StoreOk s) (hok : ∀ n ∈ s, NodeOk env n.bits) : ∀ n ∈ s', NodeOk env n.bits := by
  induction h with
  | refl => exact hok
  | call hrun hregular hcall ih =>
    rcases navCall_entries (hrun.storeOk hs).1 hcall with ⟨rfl, -⟩ | ⟨n, rfl, -, -, -, hn⟩
    · exact ih
    · intro m hm
      rcases List.mem_append.1 hm with hm | hm
      · exact ih m hm
      · obtain rfl := List.mem_singleton.1 hm
        exact hn hregular

theorem storeOk_nil : StoreOk [] := fun i n h => by simp at h

/-! ## More nodes change nothing -/

section Growth

variable {s s' : NavStore}

theorem getElem?_grown (h : s <+: s') {i : Nat} (hi : i < s.length) : s'[i]? = s[i]? := by
  obtain ⟨zs, rfl⟩ := h
  exact List.getElem?_append_left hi

theorem skipWheres_grown (hs : StoreOk s) (h : s <+: s') (fuel : Nat) {i : Nat}
    (hi : i < s.length) : skipWheres s' fuel i = skipWheres s fuel i := by
  induction fuel generalizing i with
  | zero => rfl
  | succ fuel ih =>
    rw [skipWheres, skipWheres, getElem?_grown h hi]
    split
    · rename_i ref w hn
      exact ih (((hs i _ hn).1 ref rfl).trans hi)
    · rfl

theorem under_grown (hs : StoreOk s) (h : s <+: s') {i : Nat} (hi : i < s.length) :
    under s' i = under s i :=
  skipWheres_grown hs h (i + 1) hi

theorem nodeQual_grown (hs : StoreOk s) (h : s <+: s') (fuel : Nat) {i : Nat}
    (hi : i < s.length) : nodeQual s' fuel i = nodeQual s fuel i := by
  induction fuel generalizing i with
  | zero => rfl
  | succ fuel ih =>
    rw [nodeQual, nodeQual, getElem?_grown h hi]
    split <;> first
      | rfl
      | (rename_i hn; rw [ih (((hs i _ hn).1 _ rfl).trans hi)])

theorem nodeIsArray_grown (hs : StoreOk s) (h : s <+: s') (fuel : Nat) {i : Nat}
    (hi : i < s.length) : nodeIsArray s' fuel i = nodeIsArray s fuel i := by
  induction fuel generalizing i with
  | zero => rfl
  | succ fuel ih =>
    rw [nodeIsArray, nodeIsArray, getElem?_grown h hi]
    split <;> first
      | rfl
      | (rename_i hn; rw [ih (((hs i _ hn).1 _ rfl).trans hi)])

theorem arrayParams_grown (h : s <+: s') {i : Nat} (hi : i < s.length) :
    arrayParams s' i = arrayParams s i := by
  rw [arrayParams, arrayParams, getElem?_grown h hi]

theorem eqNode_grown {env : NavEnv} (h : s <+: s') {ctx : NavCtx} (hmade : ctx.Made s = true)
    {cand : NodeBits} (hcand : ∀ a, cand = .ptr (some a) → a < s.length) :
    eqNode env s' ctx cand = eqNode env s ctx cand := by
  cases ctx with
  | decayed arrayFrom =>
    obtain ⟨p, hp⟩ := Option.isSome_iff_exists.1 hmade
    cases cand with
    | ptr decayedFrom =>
      cases decayedFrom with
      | none => rfl
      | some a =>
        simp only [eqNode, arrayParams_grown h (hcand a rfl),
          arrayParams_grown h (arrayParams_lt hp)]
    | _ => rfl
  | _ => cases cand <;> rfl

end Growth

/-! ## Requests -/

theorem navCall_request {env : NavEnv} {s s' : NavStore} {base : Nat} {ctx : NavCtx} {i : Nat}
    (h : navCall env s (.request base ctx) = some (s', i)) :
    base < s.length ∧ ctx.Made s = true ∧
      Lib.intern (isCandidate env s (under s base) ctx) ⟨some (under s base), initNode ctx⟩ s =
        some (s', i) := by
  rw [navCall] at h
  split at h
  · rename_i hcond
    rw [Bool.and_eq_true, decide_eq_true_eq] at hcond
    exact ⟨hcond.1, hcond.2, h⟩
  · cases h

/-- A node that is shared has the parameters of the request. -/
theorem navCall_shared {env : NavEnv} {s s' : NavStore} (hok : ∀ n ∈ s, NodeOk env n.bits)
    {base : Nat} {ctx : NavCtx} {i : Nat} (hregular : (NavCall.request base ctx).Regular env)
    (h : navCall env s (.request base ctx) = some (s', i)) (hi : i < s.length) :
    ∃ n, s[i]? = some n ∧ n.ref = some (under s base) ∧ HasParams env s ctx n.bits := by
  obtain ⟨-, -, hintern⟩ := navCall_request h
  obtain ⟨n, hn, htest⟩ := Lib.intern_existing hintern hi
  unfold isCandidate at htest
  split at htest
  · rename_i href
    exact ⟨n, hn, href, eqNode_hasParams hok hregular (hok n (List.mem_of_getElem? hn)) htest⟩
  · cases htest

/-- Two requests with equal parameters on one node give one node. -/
theorem navCall_same {env : NavEnv} {P : NavCall → Prop} {s s1 s2 s3 : NavStore} (hs : StoreOk s)
    {base base' : Nat} {ctx ctx' : NavCtx} {i k : Nat}
    (h : navCall env s (.request base ctx) = some (s1, i)) (hrun : NavRun env P s1 s2)
    (h' : navCall env s2 (.request base' ctx') = some (s3, k))
    (hbase : under s2 base = under s2 base') (hsame : SameCtx env s2 ctx ctx') : k = i := by
  obtain ⟨hlt, hmade, hintern⟩ := navCall_request h
  obtain ⟨-, -, hintern'⟩ := navCall_request h'
  obtain ⟨hs1, hpre1, hi⟩ := navCall_storeOk hs h
  obtain ⟨hs2, hpre2⟩ := hrun.storeOk hs1
  rw [← hbase, under_grown hs (hpre1.trans hpre2) hlt] at hintern'
  have hnew : isCandidate env s (under s base) ctx ⟨some (under s base), initNode ctx⟩ =
      some true := by
    rw [isCandidate, if_pos rfl]
    exact eqNode_initNode hsame hmade
  refine (Lib.intern_firstAt hintern hnew).intern_eq hpre2 ?_ hintern'
  intro x hx b b' hb hb'
  unfold isCandidate at hb hb'
  by_cases href : x.ref = some (under s base)
  · rw [if_pos href] at hb hb'
    -- a decayed pointer among the nodes so far is made of an array before it
    have hcand : ∀ a, x.bits = .ptr (some a) → a < s.length := by
      intro a ha
      obtain ⟨j, hj⟩ := List.mem_iff_getElem?.1 hx
      have hja := (hs1 j x hj).2 a ha
      have hj1 := (List.getElem?_eq_some_iff.1 hj).1
      have hlen : s1.length ≤ s.length + 1 := by
        rcases navCall_entries hs h with ⟨rfl, -⟩ | ⟨n, rfl, -⟩
        · exact Nat.le_succ _
        · rw [List.length_append, List.length_singleton]
      omega
    rw [← eqNode_grown (hpre1.trans hpre2) hmade hcand] at hb
    exact hsame.agree x.bits hb hb'
  · rw [if_neg href] at hb hb'
    exact Option.some.inj (hb.symm.trans hb')

/-! ## Qualifying -/

theorem sameCtx_cast (env : NavEnv) (s : NavStore) (q : TypeQual) :
    SameCtx env s (.cast q) (.cast q) := rfl

theorem sameCtx_array (env : NavEnv) (s : NavStore) (size : Option Nat) (isStatic : Bool) :
    SameCtx env s (.array size isStatic) (.array size isStatic) := ⟨rfl, .inl rfl⟩

theorem NavRun.trans {env : NavEnv} {P : NavCall → Prop} {s s' s'' : NavStore}
    (h : NavRun env P s s') (h' : NavRun env P s' s'') : NavRun env P s s'' := by
  induction h' with
  | refl => exact h
  | call _ hP hcall ih => exact .call ih hP hcall

/-- Qualifying adds nothing. -/
def QualNoop (s : NavStore) (t : Nat) (qual : TypeQual) : Prop :=
  qual = .none ∨ (nodeQual s (t + 1) t ≠ .none ∧
    qual.union (nodeQual s (t + 1) t) = nodeQual s (t + 1) t)

/-- The array whose element type is qualified instead. -/
def arrayToQualify (s : NavStore) (t : Nat) (transform : Bool) : Option Nat :=
  if transform then nodeIsArray s (t + 1) t else none

/-- What `type_qualify` does. -/
theorem typeQualify_cases {env : NavEnv} {fuel : Nat} {s s' : NavStore} {t i : Nat}
    {qual : TypeQual} {transform : Bool}
    (h : typeQualify env (fuel + 1) s t qual transform = some (s', i)) :
    (QualNoop s t qual ∧ s' = s ∧ i = t) ∨
    (¬ QualNoop s t qual ∧ arrayToQualify s t transform = none ∧
      navCall env s (.request t (.cast (qual.diff (nodeQual s (t + 1) t)))) = some (s', i)) ∨
    (¬ QualNoop s t qual ∧ ∃ arTy ref size isStatic kind sa inner,
      arrayToQualify s t transform = some arTy ∧
      s[arTy]? = some ⟨some ref, .array size isStatic kind⟩ ∧
      typeQualify env fuel s ref (qual.diff (nodeQual s (t + 1) t)) true = some (sa, inner) ∧
      navCall env sa (.request inner (.array size false)) = some (s', i)) := by
  rw [typeQualify] at h
  dsimp only at h
  by_cases hnone : qual = .none
  · rw [if_pos hnone] at h
    obtain ⟨rfl, rfl⟩ := Prod.mk.inj (Option.some.inj h)
    exact .inl ⟨.inl hnone, rfl, rfl⟩
  · rw [if_neg hnone] at h
    by_cases hold : (nodeQual s (t + 1) t ≠ .none && decide
        (qual.union (nodeQual s (t + 1) t) = nodeQual s (t + 1) t)) = true
    · rw [if_pos hold] at h
      obtain ⟨rfl, rfl⟩ := Prod.mk.inj (Option.some.inj h)
      rw [Bool.and_eq_true, decide_eq_true_eq, decide_eq_true_eq] at hold
      exact .inl ⟨.inr hold, rfl, rfl⟩
    · rw [if_neg hold] at h
      have hnoop : ¬ QualNoop s t qual := by
        rintro (hq | hq)
        · exact hnone hq
        · exact hold (by simpa using hq)
      change (match arrayToQualify s t transform with
        | none => _
        | some arTy => _) = _ at h
      cases harray : arrayToQualify s t transform with
      | none =>
        rw [harray] at h
        exact .inr (.inl ⟨hnoop, rfl, h⟩)
      | some arTy =>
        rw [harray] at h
        dsimp only at h
        split at h
        · rename_i ref size isStatic kind hnode
          obtain ⟨⟨sa, inner⟩, hinner, hcall⟩ := Option.bind_eq_some_iff.1 h
          exact .inr (.inr ⟨hnoop, arTy, ref, size, isStatic, kind, sa, inner, rfl, hnode, hinner,
            hcall⟩)
        · cases h

/-- `type_qualify` is a sequence of calls. -/
theorem typeQualify_run {env : NavEnv} {fuel : Nat} {s s' : NavStore} (hs : StoreOk s) {t i : Nat}
    (ht : t < s.length) {qual : TypeQual} {transform : Bool}
    (h : typeQualify env fuel s t qual transform = some (s', i)) :
    NavRun env (fun _ => True) s s' ∧ i < s'.length := by
  induction fuel generalizing s s' t qual transform i with
  | zero => cases h
  | succ fuel ih =>
    rcases typeQualify_cases h with ⟨-, rfl, rfl⟩ | ⟨-, -, hcall⟩ |
        ⟨-, arTy, ref, size, isStatic, kind, sa, inner, -, hnode, hinner, hcall⟩
    · exact ⟨.refl _, ht⟩
    · exact ⟨.call (.refl s) trivial hcall, (navCall_storeOk hs hcall).2.2⟩
    · have href : ref < s.length :=
        ((hs arTy _ hnode).1 ref rfl).trans (List.getElem?_eq_some_iff.1 hnode).1
      obtain ⟨hrun, -⟩ := ih hs href hinner
      exact ⟨.call hrun trivial hcall, (navCall_storeOk (hrun.storeOk hs).1 hcall).2.2⟩

/-- Qualifying a node twice gives one node. -/
theorem typeQualify_same {env : NavEnv} {fuel fuel' : Nat} {s s1 s2 s3 : NavStore} (hs : StoreOk s)
    {t i k : Nat} (ht : t < s.length) {qual : TypeQual} {transform : Bool}
    (h : typeQualify env fuel s t qual transform = some (s1, i))
    (hrun : NavRun env (fun _ => True) s1 s2)
    (h' : typeQualify env fuel' s2 t qual transform = some (s3, k)) : k = i := by
  induction fuel generalizing fuel' s s1 s2 s3 t qual transform i k with
  | zero => cases h
  | succ fuel ih =>
    obtain ⟨hrun1, -⟩ := typeQualify_run hs ht h
    obtain ⟨hs1, hpre1⟩ := hrun1.storeOk hs
    obtain ⟨hs2, hpre2⟩ := hrun.storeOk hs1
    have hpre := hpre1.trans hpre2
    cases fuel' with
    | zero => cases h'
    | succ fuel' =>
      have hqual : nodeQual s2 (t + 1) t = nodeQual s (t + 1) t :=
        nodeQual_grown hs hpre (t + 1) ht
      have hnoop : QualNoop s2 t qual ↔ QualNoop s t qual := by
        rw [QualNoop, QualNoop, hqual]
      have harray : arrayToQualify s2 t transform = arrayToQualify s t transform := by
        rw [arrayToQualify, arrayToQualify, nodeIsArray_grown hs hpre (t + 1) ht]
      have hcases' := typeQualify_cases h'
      rw [hnoop, harray, hqual] at hcases'
      rcases typeQualify_cases h with ⟨hno, rfl, rfl⟩ | ⟨hno, hnone, hcall⟩ |
          ⟨hno, arTy, ref, size, isStatic, kind, sa, inner, har, hnode, hinner, hcall⟩
      · rcases hcases' with ⟨-, -, rfl⟩ | ⟨hno', -⟩ | ⟨hno', -⟩
        · rfl
        · exact absurd hno hno'
        · exact absurd hno hno'
      · rcases hcases' with ⟨hno', -⟩ | ⟨-, -, hcall'⟩ | ⟨-, arTy', _, _, _, _, _, _, har', -⟩
        · exact absurd hno' hno
        · exact navCall_same hs hcall hrun hcall' rfl (sameCtx_cast env s2 _)
        · rw [hnone] at har'
          cases har'
      · rcases hcases' with ⟨hno', -⟩ | ⟨-, hnone', -⟩ |
            ⟨-, arTy', ref', size', isStatic', kind', sb, inner', har', hnode', hinner', hcall'⟩
        · exact absurd hno' hno
        · rw [har] at hnone'
          cases hnone'
        · rw [har] at har'
          obtain rfl := Option.some.inj har'
          have harlt := (List.getElem?_eq_some_iff.1 hnode).1
          rw [getElem?_grown hpre harlt, hnode] at hnode'
          obtain ⟨href, hbits⟩ := TypeNode.mk.inj (Option.some.inj hnode')
          obtain rfl := Option.some.inj href
          obtain ⟨rfl, rfl, rfl⟩ := NodeBits.array.inj hbits
          have hreflt : ref < s.length := ((hs arTy _ hnode).1 ref rfl).trans harlt
          obtain ⟨hruna, -⟩ := typeQualify_run hs hreflt hinner
          obtain ⟨hsa, -⟩ := hruna.storeOk hs
          have hrun' : NavRun env (fun _ => True) sa s2 :=
            NavRun.trans (.call (.refl sa) trivial hcall) hrun
          obtain rfl := ih hs hreflt hinner hrun' hinner'
          obtain ⟨hrunb, -⟩ := typeQualify_run hs2
            (hreflt.trans_le (List.IsPrefix.length_le hpre)) hinner'
          exact navCall_same hsa hcall (hrun.trans hrunb) hcall' rfl (sameCtx_array env sb _ _)

/-! ## Sharing -/

/-- No constants, and only `(void)` argument lists. -/
def bareEnv : NavEnv := ⟨fun _ => none, fun _ => ⟨true, false, []⟩, noStructs⟩

/-- The node of `int`, and that of a pointer to it. -/
def intNode : TypeNode := ⟨none, .btype (.prim .int none)⟩

def intPtrNode : TypeNode := ⟨some 0, .ptr none⟩

end Ucc.Cc1
