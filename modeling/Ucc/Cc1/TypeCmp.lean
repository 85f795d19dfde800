/-
  Cc1/TypeCmp.lean --- comparison of types.

  Source: src/cc1/type.c (type_qual_cmp, type_attribute_missing, type_cmp_r,
  type_cmp), src/cc1/funcargs.c (funcargs_cmp), src/cc1/btype.c (btype_cmp),
  src/cc1/type_is.c and type_attr_present of src/cc1/attribute.c for what they
  ask of a type.

  A type is a chain of nodes, down to a base type.  The argument list of a
  function is an object with an identity, and so is the declaration of a
  typedef.  An internal compiler error gives `none`: the size of an array is
  asked of an expression that is not constant.  `__auto_type` has no node here.
-/
import Mathlib.Tactic

set_option autoImplicit false

namespace Ucc.Cc1

/-! ## Types -/

/-- `enum type_primitive`, without those of `struct_union_enum_st`. -/
inductive TypePrimitive where
  | void | bool
  | nchar | schar | uchar
  | int | uint | short | ushort | long | ulong | llong | ullong
  | float | double | ldouble
deriving DecidableEq

/-- The primitives that a `struct_union_enum_st` has. -/
inductive SuePrim where
  | struct | union | enum
deriving DecidableEq

/-- A `struct_union_enum_st *`. -/
structure SueRef where
  primitive : SuePrim
  id : Nat
deriving DecidableEq

/-- `struct btype`: an int may refer to the enum that it came from. -/
inductive BType where
  | prim (p : TypePrimitive) (enumOf : Option Nat)
  | sue (s : SueRef)
deriving DecidableEq

/-- `btype.sue` -/
def BType.sueOf : BType → Option SueRef
  | .prim _ none => none
  | .prim _ (some id) => some ⟨.enum, id⟩
  | .sue s => some s

/-- `enum type_qualifier` -/
structure TypeQual where
  const : Bool
  volatile : Bool
  restrict : Bool
deriving DecidableEq

/-- `qual_none` -/
def TypeQual.none : TypeQual := ⟨false, false, false⟩

def TypeQual.union (q r : TypeQual) : TypeQual :=
  ⟨q.const || r.const, q.volatile || r.volatile, q.restrict || r.restrict⟩

/-- `enum attribute_type` -/
inductive AttributeType where
  | format | unused | used | warnUnused | section | enumBitmask | noreturn | noderef | nonnull
  | returnsNonnull | packed | sentinel | aligned | weak | alias | cleanup | alwaysInline
  | noinline | flatten | constructor | destructor | visibility | stackProtect
  | noStackProtector | noSanitize | fallthrough | desigInit | uccDebug | callConv
deriving DecidableEq

/-- The attributes for which two types are incompatible. -/
def tymismatch : List AttributeType :=
  [.section, .enumBitmask, .noderef, .nonnull, .returnsNonnull, .packed]

inductive VlaKind where
  | no | vla | star
deriving DecidableEq

/-- The size expression of an array, as `const_fold` sees it. -/
inductive SizeExpr where
  | const (n : BitVec 64)
  | nonConst
deriving DecidableEq

/-- `struct type`.  The node of a typedef carries the attributes of its
declaration or expression. -/
inductive Ty where
  | btype (b : BType)
  | tdef (decl : Option Nat) (attrs : List AttributeType) (next : Ty)
  | ptr (ref : Ty)
  | block (ref : Ty)
  | func (args : Nat) (argsVoid variadic : Bool) (arglist : List Ty) (ref : Ty)
  | array (size : Option SizeExpr) (vlaKind : VlaKind) (ref : Ty)
  | cast (qual : TypeQual) (ref : Ty)
  | attr (attrs : List AttributeType) (ref : Ty)
  | whereAt (ref : Ty)

namespace Ty

/-- `type_skip_all` -/
def skipAll : Ty → Ty
  | .tdef _ _ t => t.skipAll
  | .cast _ t => t.skipAll
  | .attr _ t => t.skipAll
  | .whereAt t => t.skipAll
  | t => t

/-- `type_qual` -/
def qual : Ty → TypeQual
  | .tdef _ _ t => t.qual
  | .cast q t => q.union t.qual
  | .attr _ t => t.qual
  | .whereAt t => t.qual
  | _ => .none

/-- The typedef at the front, if there is one, and its declaration. -/
def tdefDecl : Ty → Option (Option Nat)
  | .tdef d _ _ => some d
  | _ => none

/-- `type_is_primitive` -/
def isPrimitive (t : Ty) (p : TypePrimitive) : Bool :=
  match t.skipAll with
  | .btype (.prim q _) => p = q
  | _ => false

/-- `type_is_ptr` -/
def isPtr (t : Ty) : Option Ty :=
  match t.skipAll with
  | .ptr r => some r
  | _ => none

/-- `type_is` a block. -/
def isBlock (t : Ty) : Bool :=
  match t.skipAll with
  | .block _ => true
  | _ => false

/-- `type_is_ptr_or_block` -/
def isPtrOrBlock (t : Ty) : Bool := t.isPtr.isSome || t.isBlock

/-- `type_is_fptr` -/
def isFptr (t : Ty) : Bool :=
  match t.isPtr with
  | some r => match r.skipAll with
    | .func .. => true
    | _ => false
  | none => false

/-- `type_is_void_ptr` -/
def isVoidPtr (t : Ty) : Bool :=
  match t.isPtr with
  | some r => r.isPrimitive .void
  | none => false

/-- `type_is_integral` -/
def isIntegral (t : Ty) : Bool :=
  match t.skipAll with
  | .btype (.prim p _) => match p with
    | .void | .float | .double | .ldouble => false
    | _ => true
  | .btype (.sue s) => s.primitive = .enum
  | _ => false

/-- `type_is_s_or_u` -/
def isSOrU (t : Ty) : Option SueRef :=
  match t.skipAll with
  | .btype b => b.sueOf.filter fun s => s.primitive ≠ .enum
  | _ => none

end Ty

/-- What is known of the structs and unions: their members, and their
attributes; and whether plan 9 extensions are on. -/
structure TypeEnv where
  members : SueRef → List Ty
  sueAttr : SueRef → List AttributeType
  plan9Extensions : Bool

/-- `type_attr_present` -/
def typeAttrPresent (E : TypeEnv) (x : AttributeType) : Ty → Bool
  | .btype b => match b.sueOf with
    | some s => decide (x ∈ E.sueAttr s)
    | none => false
  | .tdef _ attrs t => decide (x ∈ attrs) || typeAttrPresent E x t
  | .attr attrs t => decide (x ∈ attrs) || typeAttrPresent E x t
  | .ptr t => typeAttrPresent E x t
  | .block t => typeAttrPresent E x t
  | .func _ _ _ _ t => typeAttrPresent E x t
  | .array _ _ t => typeAttrPresent E x t
  | .cast _ t => typeAttrPresent E x t
  | .whereAt t => typeAttrPresent E x t

/-- `type_attribute_missing` -/
def typeAttributeMissing (E : TypeEnv) (a b : Ty) : Bool :=
  tymismatch.any fun x => typeAttrPresent E x b && !typeAttrPresent E x a

/-! ## The comparison -/

/-- `enum type_cmp` -/
inductive TypeCmp where
  | equal | equalTypedef
  | qualAdd | qualSub | qualPointedAdd | qualPointedSub | qualNestedChange
  | convertibleImplicit | convertibleExplicit
  | notEqual
deriving DecidableEq

/-- `TYPE_EQUAL_ANY` -/
def TypeCmp.equalAny : TypeCmp → Bool
  | .equal | .equalTypedef => true
  | _ => false

/-- `type_convertible` -/
def typeConvertible : BType → Bool
  | .prim .void _ => false
  | .prim _ _ => true
  | .sue s => s.primitive = .enum

/-- The end of `btype_cmp`. -/
def btypeConvertible (a b : BType) : TypeCmp :=
  if typeConvertible a && typeConvertible b then .convertibleImplicit else .notEqual

/-- `btype_cmp` -/
def btypeCmp (a b : BType) : TypeCmp :=
  match a with
  | .prim .void _ => match b with
    | .prim .void _ => .equal
    | _ => .convertibleImplicit
  | .sue s =>
      if s.primitive = .enum then
        if b = .sue s then .equal else btypeConvertible a b
      else if b.sueOf = some s then .equal else .notEqual
  | .prim p _ => match b with
    | .prim q _ => if p = q then .equal else btypeConvertible a b
    | .sue _ => btypeConvertible a b

/-- The comparison of types of different kinds. -/
def cmpKinds (a b : Ty) : TypeCmp :=
  -- allow _Bool <- pointer
  if a.isPrimitive .bool && b.isPtr.isSome then .convertibleImplicit
  -- allow int <-> ptr (or block)
  else if (a.isPtrOrBlock && b.isIntegral) || (b.isPtrOrBlock && a.isIntegral) then
    .convertibleExplicit
  -- allow void <- anything
  else if a.isPrimitive .void then .convertibleImplicit
  -- allow block <-> fnptr
  else if (a.isFptr && b.isBlock) || (b.isFptr && a.isBlock) then .convertibleExplicit
  else .notEqual

/-- `struct_union_member_find_sue`, of the types that two pointers point to. -/
def hasMemberSue (E : TypeEnv) (a b : Ty) : Bool :=
  match a.isSOrU, b.isSOrU with
  | some needle, some s => (E.members s).any fun m => m.isSOrU = some needle
  | _, _ => false

/-- The fixups of `TYPE_NOT_EQUAL`, and whether the decay is skipped. -/
def fixNotEqual (E : TypeEnv) (a b : Ty) (ret : TypeCmp) : TypeCmp × Bool :=
  if ret = .notEqual then
    match a, b with
    | .func .., _ => (.convertibleExplicit, false)
    | .ptr r, .ptr r' =>
        if E.plan9Extensions then
          if hasMemberSue E r r' then (.convertibleImplicit, true) else (ret, false)
        else (.convertibleExplicit, false)
    | _, _ => (ret, false)
  else (ret, false)

/-- `char *` and `int *` are explicitly convertible. -/
def decayImplicit (a : Ty) (ret : TypeCmp × Bool) : TypeCmp :=
  match a with
  | .ptr _ => if ret.1 = .convertibleImplicit && !ret.2 then .convertibleExplicit else ret.1
  | _ => ret.1

/-- A change of qualifiers, seen through a pointer. -/
def TypeCmp.pointed : TypeCmp → TypeCmp
  | .qualAdd => .qualPointedAdd
  | .qualSub => .qualPointedSub
  | .qualPointedAdd => .qualNestedChange
  | .qualPointedSub => .qualNestedChange
  | c => c

def throughPointer (a : Ty) (ret : TypeCmp) : TypeCmp :=
  match a with
  | .ptr _ | .block _ => ret.pointed
  | _ => ret

/-- `type_qual_cmp` -/
def typeQualCmp (a b : TypeQual) : Int :=
  if a.const && !b.const then -1
  else if b.const && !a.const then 1
  else if a.volatile && !b.volatile then -1
  else if b.volatile && !a.volatile then 1
  else 0

/-- The qualifiers of two types that are equal otherwise. -/
def cmpQuals (a b : TypeQual) (ret : TypeCmp) : TypeCmp :=
  if ret.equalAny then
    if a ≠ .none && b ≠ .none then
      if typeQualCmp a b = -1 then .qualAdd
      else if typeQualCmp a b = 1 then .qualSub
      else ret
    else if a ≠ .none then .qualAdd
    else if b ≠ .none then .qualSub
    else ret
  else ret

/-- The attributes of two types that are equal otherwise. -/
def cmpAttributes (E : TypeEnv) (origA origB : Ty) (ret : TypeCmp) : TypeCmp :=
  if ret.equalAny && typeAttributeMissing E origA origB then .qualPointedSub else ret

/-- Typedefs at the front. -/
def cmpTdefs (origA origB : Ty) (ret : TypeCmp) : TypeCmp :=
  if ret = .equal && origA.tdefDecl ≠ origB.tdefDecl then .equalTypedef else ret

/-- The end of `type_cmp_r`: `a` and `b` are what `origA` and `origB` skip to. -/
def cmpFixups (E : TypeEnv) (origA origB a b : Ty) (ret : TypeCmp) : TypeCmp :=
  cmpTdefs origA origB (cmpAttributes E origA origB (cmpQuals origA.qual origB.qual
    (throughPointer a (decayImplicit a (fixNotEqual E a b ret)))))

/-- The sizes of two arrays: whether they may be equal. -/
def cmpSizes (allowTentativeArray : Bool) (size size' : Option SizeExpr) (kind kind' : VlaKind) :
    Option Bool :=
  if kind ≠ .no || kind' ≠ .no then some true
  else
    match size, size' with
    | some (.const n), some (.const n') => some (n = n')
    -- `const_fold_val_i`: not an integer constant
    | some _, some _ => none
    | none, none => some true
    | _, _ => some allowTentativeArray

/-- `enum funcargs_cmp` -/
inductive FuncargsCmp where
  | exactEqual | implicitConv | mismatchTypes | mismatchCount
deriving DecidableEq

/-- The parameters of a function type are compatible. -/
def FuncargsCmp.compatible : FuncargsCmp → Bool
  | .exactEqual | .implicitConv => true
  | _ => false

/-- The comparison of two parameters is one that `funcargs_cmp` accepts. -/
def TypeCmp.sameParam : TypeCmp → Bool
  | .equal | .qualAdd | .qualSub | .equalTypedef => true
  | _ => false

/-- The implicit conversion of `void *` in `type_cmp`. -/
def voidPtrConversion (a b : Ty) (cmp : TypeCmp) : TypeCmp :=
  if cmp = .convertibleExplicit &&
      ((a.isVoidPtr && b.isPtr.isSome) || (b.isVoidPtr && a.isPtr.isSome)) then
    .convertibleImplicit
  else cmp

/-- `funcargs_cmp` before the loop over the parameters: `none` when it comes to
that. -/
def funcargsHead (args args' : Nat) (void variadic void' : Bool) (count count' : Nat) :
    Option FuncargsCmp :=
  if args = args' then some .exactEqual
  else if (count = 0 && !void) || (count' = 0 && !void') then some .implicitConv
  else if !(if variadic then count ≤ count' else count = count') then some .mismatchCount
  else none

mutual

/-- `type_cmp_r` from `type_skip_all` on: the first type is on the way to what it
skips to. -/
def cmpSkipped (E : TypeEnv) (tentative : Bool) : Ty → Ty → Ty → Option TypeCmp
  | .tdef _ _ a, origA, origB => cmpSkipped E tentative a origA origB
  | .cast _ a, origA, origB => cmpSkipped E tentative a origA origB
  | .attr _ a, origA, origB => cmpSkipped E tentative a origA origB
  | .whereAt a, origA, origB => cmpSkipped E tentative a origA origB
  | .btype x, origA, origB =>
      match origB.skipAll with
      | .btype y => some (cmpFixups E origA origB (.btype x) (.btype y) (btypeCmp x y))
      | b => some (cmpKinds (.btype x) b)
  | .ptr r, origA, origB =>
      match origB.skipAll with
      | .ptr r' => do
          let ret ← cmpSkipped E tentative r r r'
          return cmpFixups E origA origB (.ptr r) (.ptr r') ret
      | b => some (cmpKinds (.ptr r) b)
  | .block r, origA, origB =>
      match origB.skipAll with
      | .block r' => do
          let ret ← cmpSkipped E tentative r r r'
          return cmpFixups E origA origB (.block r) (.block r') ret
      | b => some (cmpKinds (.block r) b)
  | .array size kind r, origA, origB =>
      match origB.skipAll with
      | .array size' kind' r' => do
          if ← cmpSizes tentative size size' kind kind' then
            let ret ← cmpSkipped E tentative r r r'
            return cmpFixups E origA origB (.array size kind r) (.array size' kind' r') ret
          else return .notEqual
      | b => some (cmpKinds (.array size kind r) b)
  | .func args void variadic arglist r, origA, origB =>
      match origB.skipAll with
      | .func args' void' variadic' arglist' r' => do
          let cmp ← match funcargsHead args args' void variadic void' arglist.length
              arglist'.length with
            | some cmp => some cmp
            | none => cmpArglist E arglist arglist'
          if cmp.compatible then
            let ret ← cmpSkipped E tentative r r r'
            return cmpFixups E origA origB (.func args void variadic arglist r)
              (.func args' void' variadic' arglist' r') ret
          else return .convertibleExplicit
      | b => some (cmpKinds (.func args void variadic arglist r) b)

/-- The loop of `funcargs_cmp`. -/
def cmpArglist (E : TypeEnv) : List Ty → List Ty → Option FuncargsCmp
  | a :: as, b :: bs => do
      let cmp ← cmpSkipped E false a a b
      if (voidPtrConversion a b cmp).sameParam then cmpArglist E as bs
      else return .mismatchTypes
  | _, _ => some .exactEqual

end

example (E : TypeEnv) (tentative : Bool) (b c r : Ty) (x : BType) (h : c.skipAll = .ptr r) :
    cmpSkipped E tentative (.btype x) b c = some (cmpKinds (.btype x) (.ptr r)) := by
  rw [cmpSkipped, h]

/-- `type_cmp_r` -/
def typeCmpR (E : TypeEnv) (tentative : Bool) (a b : Ty) : Option TypeCmp :=
  cmpSkipped E tentative a a b

/-- `funcargs_cmp` -/
def funcargsCmp (E : TypeEnv) (args args' : Nat) (void variadic void' : Bool)
    (arglist arglist' : List Ty) : Option FuncargsCmp :=
  match funcargsHead args args' void variadic void' arglist.length arglist'.length with
  | some cmp => some cmp
  | none => cmpArglist E arglist arglist'

/-- `type_cmp` -/
def typeCmp (E : TypeEnv) (tentative : Bool) (a b : Ty) : Option TypeCmp :=
  (typeCmpR E tentative a b).map (voidPtrConversion a b)

/-! ## Conditions on types -/

mutual

/-- No attribute in the type is one for which types are incompatible. -/
def NoMismatch (E : TypeEnv) : Ty → Prop
  | .btype b => ∀ s, b.sueOf = some s → ∀ x ∈ E.sueAttr s, x ∉ tymismatch
  | .tdef _ attrs t => (∀ x ∈ attrs, x ∉ tymismatch) ∧ NoMismatch E t
  | .attr attrs t => (∀ x ∈ attrs, x ∉ tymismatch) ∧ NoMismatch E t
  | .func _ _ _ arglist t => NoMismatchArgs E arglist ∧ NoMismatch E t
  | .ptr t => NoMismatch E t
  | .block t => NoMismatch E t
  | .array _ _ t => NoMismatch E t
  | .cast _ t => NoMismatch E t
  | .whereAt t => NoMismatch E t

def NoMismatchArgs (E : TypeEnv) : List Ty → Prop
  | [] => True
  | t :: ts => NoMismatch E t ∧ NoMismatchArgs E ts

end

/-- The function with fewer parameters is not the variadic one. -/
def CountsSettled (variadic variadic' : Bool) (count count' : Nat) : Prop :=
  ¬ (variadic = true ∧ count < count') ∧ ¬ (variadic' = true ∧ count' < count)

/-- The parameters are not compared: the argument lists are one, or one of them is
`()`. -/
def Shares (args args' : Nat) (void void' : Bool) (count count' : Nat) : Prop :=
  args = args' ∨ (count = 0 ∧ void = false) ∨ (count' = 0 ∧ void' = false)

instance (args args' : Nat) (void void' : Bool) (count count' : Nat) :
    Decidable (Shares args args' void void' count count') :=
  inferInstanceAs (Decidable (_ ∨ _ ∨ _))

mutual

/-- In no pair of function types that is compared has the variadic one fewer
parameters. -/
def Settled : Ty → Ty → Prop
  | .tdef _ _ a, b => Settled a b
  | .cast _ a, b => Settled a b
  | .attr _ a, b => Settled a b
  | .whereAt a, b => Settled a b
  | .btype _, _ => True
  | .ptr r, b => match b.skipAll with
    | .ptr r' => Settled r r'
    | _ => True
  | .block r, b => match b.skipAll with
    | .block r' => Settled r r'
    | _ => True
  | .array _ _ r, b => match b.skipAll with
    | .array _ _ r' => Settled r r'
    | _ => True
  | .func args void variadic arglist r, b => match b.skipAll with
    | .func args' void' variadic' arglist' r' =>
        if Shares args args' void void' arglist.length arglist'.length then Settled r r'
        else CountsSettled variadic variadic' arglist.length arglist'.length ∧
          (arglist.length = arglist'.length → SettledArgs arglist arglist' ∧ Settled r r')
    | _ => True

def SettledArgs : List Ty → List Ty → Prop
  | a :: as, b :: bs => Settled a b ∧ SettledArgs as bs
  | _, _ => True

end

/-- Each array with a size has a constant one, or is known to have a variable
one. -/
def Foldable : Ty → Prop
  | .array size kind t => (kind = .no → size ≠ some .nonConst) ∧ Foldable t
  | .btype _ => True
  | .tdef _ _ t => Foldable t
  | .ptr t => Foldable t
  | .block t => Foldable t
  | .func _ _ _ _ t => Foldable t
  | .cast _ t => Foldable t
  | .attr _ t => Foldable t
  | .whereAt t => Foldable t

/-! ## Skipping -/

theorem cmpSkipped_skipAll (E : TypeEnv) (tentative : Bool) : ∀ a origA origB : Ty,
    cmpSkipped E tentative a origA origB = cmpSkipped E tentative a.skipAll origA origB
  | .tdef _ _ a, origA, origB => by
      rw [cmpSkipped, Ty.skipAll]
      exact cmpSkipped_skipAll E tentative a origA origB
  | .cast _ a, origA, origB => by
      rw [cmpSkipped, Ty.skipAll]
      exact cmpSkipped_skipAll E tentative a origA origB
  | .attr _ a, origA, origB => by
      rw [cmpSkipped, Ty.skipAll]
      exact cmpSkipped_skipAll E tentative a origA origB
  | .whereAt a, origA, origB => by
      rw [cmpSkipped, Ty.skipAll]
      exact cmpSkipped_skipAll E tentative a origA origB
  | .btype _, _, _ => rfl
  | .ptr _, _, _ => rfl
  | .block _, _, _ => rfl
  | .array _ _ _, _, _ => rfl
  | .func _ _ _ _ _, _, _ => rfl

section Kinds

variable {E : TypeEnv} {tentative : Bool} {a b : Ty}

theorem typeCmpR_btype {x y : BType} (ha : a.skipAll = .btype x) (hb : b.skipAll = .btype y) :
    typeCmpR E tentative a b = some (cmpFixups E a b (.btype x) (.btype y) (btypeCmp x y)) := by
  rw [typeCmpR, cmpSkipped_skipAll, ha, cmpSkipped, hb]

theorem typeCmpR_ptr {r r' : Ty} (ha : a.skipAll = .ptr r) (hb : b.skipAll = .ptr r') :
    typeCmpR E tentative a b =
      (typeCmpR E tentative r r').map (cmpFixups E a b (.ptr r) (.ptr r')) := by
  rw [typeCmpR, cmpSkipped_skipAll, ha, cmpSkipped, hb, typeCmpR]
  exact bind_pure_comp _ _

theorem typeCmpR_block {r r' : Ty} (ha : a.skipAll = .block r) (hb : b.skipAll = .block r') :
    typeCmpR E tentative a b =
      (typeCmpR E tentative r r').map (cmpFixups E a b (.block r) (.block r')) := by
  rw [typeCmpR, cmpSkipped_skipAll, ha, cmpSkipped, hb, typeCmpR]
  exact bind_pure_comp _ _

theorem typeCmpR_array {size size' : Option SizeExpr} {kind kind' : VlaKind} {r r' : Ty}
    (ha : a.skipAll = .array size kind r) (hb : b.skipAll = .array size' kind' r') :
    typeCmpR E tentative a b =
      (cmpSizes tentative size size' kind kind').bind fun same =>
        if same then (typeCmpR E tentative r r').map
          (cmpFixups E a b (.array size kind r) (.array size' kind' r'))
        else some .notEqual := by
  rw [typeCmpR, cmpSkipped_skipAll, ha, cmpSkipped, hb, typeCmpR]
  refine congrArg (Option.bind _) (funext fun same => ?_)
  cases same with
  | false => rfl
  | true => exact bind_pure_comp _ _

theorem typeCmpR_func {args args' : Nat} {void variadic void' variadic' : Bool}
    {arglist arglist' : List Ty} {r r' : Ty} (ha : a.skipAll = .func args void variadic arglist r)
    (hb : b.skipAll = .func args' void' variadic' arglist' r') :
    typeCmpR E tentative a b =
      (funcargsCmp E args args' void variadic void' arglist arglist').bind fun cmp =>
        if cmp.compatible then (typeCmpR E tentative r r').map
          (cmpFixups E a b (.func args void variadic arglist r)
            (.func args' void' variadic' arglist' r'))
        else some .convertibleExplicit := by
  have hthen : ∀ cmp : FuncargsCmp,
      (if cmp.compatible then do
        let ret ← cmpSkipped E tentative r r r'
        return cmpFixups E a b (.func args void variadic arglist r)
          (.func args' void' variadic' arglist' r') ret
      else return .convertibleExplicit) =
      if cmp.compatible then (cmpSkipped E tentative r r r').map
        (cmpFixups E a b (.func args void variadic arglist r)
          (.func args' void' variadic' arglist' r'))
      else some .convertibleExplicit := by
    intro cmp
    cases cmp.compatible with
    | false => rfl
    | true => exact bind_pure_comp _ _
  rw [typeCmpR, cmpSkipped_skipAll, ha, cmpSkipped, hb, typeCmpR, funcargsCmp]
  dsimp only
  cases funcargsHead args args' void variadic void' arglist.length arglist'.length with
  | some cmp => exact hthen cmp
  | none => exact congrArg (Option.bind _) (funext hthen)

end Kinds

theorem settled_skipAll : ∀ a b : Ty, Settled a b ↔ Settled a.skipAll b
  | .tdef _ _ a, b => by
      rw [Settled, Ty.skipAll]
      exact settled_skipAll a b
  | .cast _ a, b => by
      rw [Settled, Ty.skipAll]
      exact settled_skipAll a b
  | .attr _ a, b => by
      rw [Settled, Ty.skipAll]
      exact settled_skipAll a b
  | .whereAt a, b => by
      rw [Settled, Ty.skipAll]
      exact settled_skipAll a b
  | .btype _, _ => Iff.rfl
  | .ptr _, _ => Iff.rfl
  | .block _, _ => Iff.rfl
  | .array _ _ _, _ => Iff.rfl
  | .func _ _ _ _ _, _ => Iff.rfl

theorem NoMismatch.skipAll {E : TypeEnv} : ∀ {t : Ty}, NoMismatch E t → NoMismatch E t.skipAll
  | .tdef _ _ t, h => NoMismatch.skipAll (t := t) (by rw [NoMismatch] at h; exact h.2)
  | .cast _ t, h => NoMismatch.skipAll (t := t) (by rwa [NoMismatch] at h)
  | .attr _ t, h => NoMismatch.skipAll (t := t) (by rw [NoMismatch] at h; exact h.2)
  | .whereAt t, h => NoMismatch.skipAll (t := t) (by rwa [NoMismatch] at h)
  | .btype _, h => h
  | .ptr _, h => h
  | .block _, h => h
  | .array _ _ _, h => h
  | .func _ _ _ _ _, h => h

theorem sizeOf_skipAll_le : ∀ t : Ty, sizeOf t.skipAll ≤ sizeOf t
  | .tdef _ _ t => by
      have := sizeOf_skipAll_le t
      rw [Ty.skipAll, Ty.tdef.sizeOf_spec]
      omega
  | .cast _ t => by
      have := sizeOf_skipAll_le t
      rw [Ty.skipAll, Ty.cast.sizeOf_spec]
      omega
  | .attr _ t => by
      have := sizeOf_skipAll_le t
      rw [Ty.skipAll, Ty.attr.sizeOf_spec]
      omega
  | .whereAt t => by
      have := sizeOf_skipAll_le t
      rw [Ty.skipAll, Ty.whereAt.sizeOf_spec]
      omega
  | .btype _ => Nat.le_refl _
  | .ptr _ => Nat.le_refl _
  | .block _ => Nat.le_refl _
  | .array _ _ _ => Nat.le_refl _
  | .func _ _ _ _ _ => Nat.le_refl _

theorem typeAttrPresent_false {E : TypeEnv} {x : AttributeType} (hx : x ∈ tymismatch) :
    ∀ {t : Ty}, NoMismatch E t → typeAttrPresent E x t = false
  | .btype b, h => by
      rw [NoMismatch] at h
      rw [typeAttrPresent]
      split
      · rename_i s hs
        exact decide_eq_false fun hin => h s hs x hin hx
      · rfl
  | .tdef _ attrs t, h => by
      rw [NoMismatch] at h
      rw [typeAttrPresent, typeAttrPresent_false hx h.2, Bool.or_false]
      exact decide_eq_false fun hin => h.1 x hin hx
  | .attr attrs t, h => by
      rw [NoMismatch] at h
      rw [typeAttrPresent, typeAttrPresent_false hx h.2, Bool.or_false]
      exact decide_eq_false fun hin => h.1 x hin hx
  | .func _ _ _ _ t, h => by
      rw [NoMismatch] at h
      rw [typeAttrPresent, typeAttrPresent_false hx h.2]
  | .ptr t, h => by
      rw [NoMismatch] at h
      rw [typeAttrPresent, typeAttrPresent_false hx h]
  | .block t, h => by
      rw [NoMismatch] at h
      rw [typeAttrPresent, typeAttrPresent_false hx h]
  | .array _ _ t, h => by
      rw [NoMismatch] at h
      rw [typeAttrPresent, typeAttrPresent_false hx h]
  | .cast _ t, h => by
      rw [NoMismatch] at h
      rw [typeAttrPresent, typeAttrPresent_false hx h]
  | .whereAt t, h => by
      rw [NoMismatch] at h
      rw [typeAttrPresent, typeAttrPresent_false hx h]

theorem typeAttributeMissing_false {E : TypeEnv} {a b : Ty} (hb : NoMismatch E b) :
    typeAttributeMissing E a b = false := by
  rw [typeAttributeMissing, List.any_eq_false]
  intro x hx
  rw [typeAttrPresent_false hx hb]
  simp

/-! ## Comparisons that mirror each other -/

/-- The other way round. -/
def TypeCmp.flip : TypeCmp → TypeCmp
  | .qualAdd => .qualSub
  | .qualSub => .qualAdd
  | .qualPointedAdd => .qualPointedSub
  | .qualPointedSub => .qualPointedAdd
  | c => c

/-- The comparison, without how different types convert. -/
def TypeCmp.coarse : TypeCmp → TypeCmp
  | .convertibleImplicit => .notEqual
  | .convertibleExplicit => .notEqual
  | c => c

/-- What the other order of the arguments should give. -/
def Mirror (c c' : TypeCmp) : Prop := c'.coarse = c.flip.coarse

instance (c c' : TypeCmp) : Decidable (Mirror c c') :=
  inferInstanceAs (Decidable (_ = _))

theorem mirror_of_coarse {c c' : TypeCmp} (h : c.coarse = .notEqual) (h' : c'.coarse = .notEqual) :
    Mirror c c' := by
  unfold Mirror
  cases c <;> simp_all [TypeCmp.coarse, TypeCmp.flip]

theorem Mirror.of_coarse_eq {c c' d d' : TypeCmp} (h : Mirror c c') (hd : d.coarse = c.coarse)
    (hd' : d'.coarse = c'.coarse) : Mirror d d' := by
  unfold Mirror at h ⊢
  rw [hd', h]
  cases c <;> cases d <;> simp_all [TypeCmp.coarse, TypeCmp.flip]

theorem coarse_btypeConvertible (a b : BType) : (btypeConvertible a b).coarse = .notEqual := by
  unfold btypeConvertible
  split <;> rfl

/-- The same base type, whatever enum an int came from. -/
def BType.Same : BType → BType → Prop
  | .prim p _, .prim q _ => p = q
  | .sue s, .sue s' => s = s'
  | _, _ => False

theorem BType.Same.symm {a b : BType} (h : a.Same b) : b.Same a := by
  cases a <;> cases b <;> first | exact Eq.symm h | exact h

/-- Base types are equal, or differ. -/
theorem btypeCmp_cases (a b : BType) :
    (a.Same b ∧ btypeCmp a b = .equal) ∨
      (¬ a.Same b ∧ (btypeCmp a b).coarse = .notEqual) := by
  cases a with
  | prim p e =>
    cases b with
    | prim q e' =>
      by_cases h : p = q
      · subst h
        exact .inl ⟨rfl, by cases p <;> simp [btypeCmp]⟩
      · refine .inr ⟨h, ?_⟩
        cases p with
        | void => cases q <;> first | exact absurd rfl h | rfl
        | _ =>
          simp only [btypeCmp, h, if_false]
          exact coarse_btypeConvertible _ _
    | sue s =>
      refine .inr ⟨fun h => h, ?_⟩
      cases p with
      | void => rfl
      | _ => exact coarse_btypeConvertible _ _
  | sue s =>
    cases b with
    | prim q e' =>
      refine .inr ⟨fun h => h, ?_⟩
      unfold btypeCmp
      dsimp only
      split
      · rw [if_neg (by simp)]
        exact coarse_btypeConvertible _ _
      · rename_i hs
        rw [if_neg]
        · rfl
        · -- an int only refers to enums
          cases e' with
          | none => simp [BType.sueOf]
          | some id =>
            intro h
            rw [← Option.some.inj h] at hs
            exact hs rfl
    | sue s' =>
      by_cases h : s = s'
      · subst h
        refine .inl ⟨rfl, ?_⟩
        simp [btypeCmp, BType.sueOf]
      · refine .inr ⟨h, ?_⟩
        have hne : s' ≠ s := Ne.symm h
        unfold btypeCmp
        dsimp only
        split
        · rw [if_neg (by simp [hne])]
          exact coarse_btypeConvertible _ _
        · rw [if_neg (by simp [BType.sueOf, hne])]
          rfl

theorem mirror_btypeCmp (a b : BType) : Mirror (btypeCmp a b) (btypeCmp b a) := by
  rcases btypeCmp_cases a b with ⟨hsame, hcmp⟩ | ⟨hsame, hcmp⟩ <;>
    rcases btypeCmp_cases b a with ⟨hsame', hcmp'⟩ | ⟨hsame', hcmp'⟩
  · rw [hcmp, hcmp']
    rfl
  · exact absurd hsame.symm hsame'
  · exact absurd hsame'.symm hsame
  · exact mirror_of_coarse hcmp hcmp'

theorem coarse_cmpKinds (a b : Ty) : (cmpKinds a b).coarse = .notEqual := by
  unfold cmpKinds
  repeat' split
  all_goals rfl

theorem coarse_voidPtrConversion (a b : Ty) (c : TypeCmp) :
    (voidPtrConversion a b c).coarse = c.coarse := by
  unfold voidPtrConversion
  split
  · rename_i h
    rw [Bool.and_eq_true, decide_eq_true_eq] at h
    rw [h.1]
    rfl
  · rfl

theorem coarse_fixNotEqual (E : TypeEnv) (a b : Ty) (c : TypeCmp) :
    (fixNotEqual E a b c).1.coarse = c.coarse := by
  unfold fixNotEqual
  split
  · rename_i h
    subst h
    repeat' split
    all_goals rfl
  · rfl

theorem coarse_decayImplicit (a : Ty) (ret : TypeCmp × Bool) :
    (decayImplicit a ret).coarse = ret.1.coarse := by
  unfold decayImplicit
  split
  · split
    · rename_i h
      rw [Bool.and_eq_true, decide_eq_true_eq] at h
      rw [h.1]
      rfl
    · rfl
  · rfl

/-- A pointer or a block. -/
def Ty.pointerLike : Ty → Bool
  | .ptr _ => true
  | .block _ => true
  | _ => false

theorem throughPointer_eq (a : Ty) (c : TypeCmp) :
    throughPointer a c = if a.pointerLike then c.pointed else c := by
  cases a <;> rfl

theorem Mirror.throughPointer {a b : Ty} {c c' : TypeCmp} (h : Mirror c c')
    (hkind : a.pointerLike = b.pointerLike) :
    Mirror (throughPointer a c) (throughPointer b c') := by
  rw [throughPointer_eq, throughPointer_eq, hkind]
  split
  · cases c <;> cases c' <;> first | exact h | (revert h; decide)
  · exact h

theorem typeQualCmp_flip (q r : TypeQual) : typeQualCmp r q = - typeQualCmp q r := by
  obtain ⟨qc, qv, qr⟩ := q
  obtain ⟨rc, rv, rr⟩ := r
  cases qc <;> cases rc <;> cases qv <;> cases rv <;> rfl

/-- Equal types are equal both ways. -/
theorem Mirror.equalAny {c c' : TypeCmp} (h : Mirror c c') :
    (c.equalAny = true ∧ c' = c) ∨ (c.equalAny = false ∧ c'.equalAny = false) := by
  cases c <;> cases c' <;> revert h <;> decide

theorem Mirror.cmpQuals {c c' : TypeCmp} (h : Mirror c c') (q r : TypeQual) :
    Mirror (cmpQuals q r c) (cmpQuals r q c') := by
  unfold Cc1.cmpQuals
  rcases h.equalAny with ⟨heq, rfl⟩ | ⟨hne, hne'⟩
  · rw [if_pos heq, if_pos heq, typeQualCmp_flip q r]
    by_cases hq : q = .none <;> by_cases hr : r = .none
    · simpa [hq, hr] using h
    · simp [hq, hr, Mirror, TypeCmp.flip]
    · simp [hq, hr, Mirror, TypeCmp.flip]
    · simp only [hq, hr, ne_eq, not_false_eq_true, decide_true, Bool.and_self, if_true]
      by_cases hadd : typeQualCmp q r = -1
      · simp [hadd, Mirror, TypeCmp.flip]
      · by_cases hsub : typeQualCmp q r = 1
        · simp [hsub, Mirror, TypeCmp.flip]
        · rw [if_neg hadd, if_neg hsub, if_neg (by omega), if_neg (by omega)]
          exact h
  · rw [hne, hne']
    exact h

theorem Mirror.cmpTdefs {c c' : TypeCmp} (h : Mirror c c') (a b : Ty) :
    Mirror (cmpTdefs a b c) (cmpTdefs b a c') := by
  have hequal : c = .equal ↔ c' = .equal := by
    cases c <;> cases c' <;> revert h <;> decide
  unfold Cc1.cmpTdefs
  by_cases hc : c = .equal
  · have hc' := hequal.1 hc
    subst hc
    subst hc'
    by_cases hdecl : a.tdefDecl = b.tdefDecl
    · simpa [hdecl] using h
    · have hdecl' : b.tdefDecl ≠ a.tdefDecl := Ne.symm hdecl
      simp [hdecl, hdecl', Mirror, TypeCmp.flip]
  · have hc' := mt hequal.2 hc
    simpa [hc, hc'] using h

/-- What comes after the comparison of what two types refer to. -/
theorem Mirror.cmpFixups {E : TypeEnv} {c c' : TypeCmp} (h : Mirror c c') {origA origB a b : Ty}
    (hA : NoMismatch E origA) (hB : NoMismatch E origB)
    (hkind : a.pointerLike = b.pointerLike) :
    Mirror (cmpFixups E origA origB a b c) (cmpFixups E origB origA b a c') := by
  unfold Cc1.cmpFixups cmpAttributes
  rw [typeAttributeMissing_false hA, typeAttributeMissing_false hB, Bool.and_false, Bool.and_false]
  have hfixed : Mirror (decayImplicit a (fixNotEqual E a b c))
      (decayImplicit b (fixNotEqual E b a c')) := by
    apply h.of_coarse_eq
    · rw [coarse_decayImplicit, coarse_fixNotEqual]
    · rw [coarse_decayImplicit, coarse_fixNotEqual]
  exact ((hfixed.throughPointer hkind).cmpQuals origA.qual origB.qual).cmpTdefs origA origB

/-! ## Both orders of the arguments -/

/-- What a type skips to is one of five kinds. -/
theorem skipAll_concrete : ∀ t : Ty,
    (∃ b, t.skipAll = .btype b) ∨ (∃ r, t.skipAll = .ptr r) ∨ (∃ r, t.skipAll = .block r) ∨
      (∃ size kind r, t.skipAll = .array size kind r) ∨
      ∃ args void variadic arglist r, t.skipAll = .func args void variadic arglist r
  | .tdef _ _ t => skipAll_concrete t
  | .cast _ t => skipAll_concrete t
  | .attr _ t => skipAll_concrete t
  | .whereAt t => skipAll_concrete t
  | .btype b => .inl ⟨b, rfl⟩
  | .ptr r => .inr (.inl ⟨r, rfl⟩)
  | .block r => .inr (.inr (.inl ⟨r, rfl⟩))
  | .array size kind r => .inr (.inr (.inr (.inl ⟨size, kind, r, rfl⟩)))
  | .func args void variadic arglist r =>
      .inr (.inr (.inr (.inr ⟨args, void, variadic, arglist, r, rfl⟩)))

/-- Two types that are compared: of one kind, or not. -/
theorem skipAll_pair (a b : Ty) :
    (∃ x y, a.skipAll = .btype x ∧ b.skipAll = .btype y) ∨
    (∃ r r', a.skipAll = .ptr r ∧ b.skipAll = .ptr r') ∨
    (∃ r r', a.skipAll = .block r ∧ b.skipAll = .block r') ∨
    (∃ size kind r size' kind' r', a.skipAll = .array size kind r ∧
      b.skipAll = .array size' kind' r') ∨
    (∃ args void variadic arglist r args' void' variadic' arglist' r',
      a.skipAll = .func args void variadic arglist r ∧
        b.skipAll = .func args' void' variadic' arglist' r') ∨
    (∀ E tentative, typeCmpR E tentative a b = some (cmpKinds a.skipAll b.skipAll) ∧
      typeCmpR E tentative b a = some (cmpKinds b.skipAll a.skipAll)) := by
  rcases skipAll_concrete a with ⟨x, ha⟩ | ⟨r, ha⟩ | ⟨r, ha⟩ | ⟨size, kind, r, ha⟩ |
      ⟨args, void, variadic, arglist, r, ha⟩ <;>
    rcases skipAll_concrete b with ⟨y, hb⟩ | ⟨r', hb⟩ | ⟨r', hb⟩ | ⟨size', kind', r', hb⟩ |
      ⟨args', void', variadic', arglist', r', hb⟩
  case inl.inl => exact .inl ⟨x, y, ha, hb⟩
  case inr.inl.inr.inl => exact .inr (.inl ⟨r, r', ha, hb⟩)
  case inr.inr.inl.inr.inr.inl => exact .inr (.inr (.inl ⟨r, r', ha, hb⟩))
  case inr.inr.inr.inl.inr.inr.inr.inl =>
    exact .inr (.inr (.inr (.inl ⟨size, kind, r, size', kind', r', ha, hb⟩)))
  case inr.inr.inr.inr.inr.inr.inr.inr =>
    exact .inr (.inr (.inr (.inr (.inl ⟨args, void, variadic, arglist, r, args', void', variadic',
      arglist', r', ha, hb⟩))))
  all_goals
    refine .inr (.inr (.inr (.inr (.inr fun E tentative => ?_))))
    rw [typeCmpR, typeCmpR, cmpSkipped_skipAll E tentative a, cmpSkipped_skipAll E tentative b,
      ha, hb, cmpSkipped, cmpSkipped, ha, hb]
    exact ⟨rfl, rfl⟩

theorem rel_bind {α β γ δ : Type} {R : α → β → Prop} {S : γ → δ → Prop} {x : Option α}
    {y : Option β} {f : α → Option γ} {g : β → Option δ} (h : Option.Rel R x y)
    (hfg : ∀ a b, R a b → Option.Rel S (f a) (g b)) : Option.Rel S (x >>= f) (y >>= g) := by
  cases h with
  | none => exact .none
  | some hR => exact hfg _ _ hR

theorem rel_mono {α β : Type} {R S : α → β → Prop} {x : Option α} {y : Option β}
    (h : Option.Rel R x y) (hRS : ∀ a b, R a b → S a b) : Option.Rel S x y := by
  cases h with
  | none => exact .none
  | some hR => exact .some (hRS _ _ hR)

theorem rel_map {α β γ δ : Type} {R : α → β → Prop} {S : γ → δ → Prop} {x : Option α}
    {y : Option β} {f : α → γ} {g : β → δ} (h : Option.Rel R x y)
    (hfg : ∀ a b, R a b → S (f a) (g b)) : Option.Rel S (x.map f) (y.map g) := by
  cases h with
  | none => exact .none
  | some hR => exact .some (hfg _ _ hR)

theorem cmpSizes_comm (tentative : Bool) (size size' : Option SizeExpr) (kind kind' : VlaKind) :
    cmpSizes tentative size size' kind kind' = cmpSizes tentative size' size kind' kind := by
  unfold cmpSizes
  rw [Bool.or_comm]
  split
  · rfl
  · cases size with
    | none =>
      cases size' with
      | none => rfl
      | some n' => cases n' <;> rfl
    | some n =>
      cases size' with
      | none => cases n <;> rfl
      | some n' =>
        cases n <;> cases n' <;> first | rfl | simp only [eq_comm]

theorem Mirror.sameParam {c c' : TypeCmp} (h : Mirror c c') : c.sameParam = c'.sameParam := by
  cases c <;> cases c' <;> revert h <;> decide

theorem Mirror.voidPtrConversion {c c' : TypeCmp} (h : Mirror c c') (a b : Ty) :
    Mirror (voidPtrConversion a b c) (voidPtrConversion b a c') :=
  h.of_coarse_eq (coarse_voidPtrConversion a b c) (coarse_voidPtrConversion b a c')

theorem Shares.symm {args args' : Nat} {void void' : Bool} {count count' : Nat}
    (h : Shares args args' void void' count count') :
    Shares args' args void' void count' count := by
  unfold Shares at h ⊢
  rw [eq_comm, or_comm (a := count' = 0 ∧ void' = false)]
  exact h

theorem funcargsHead_of_shares {args args' : Nat} {void void' : Bool} {count count' : Nat}
    (h : Shares args args' void void' count count') (variadic : Bool) :
    ∃ cmp, funcargsHead args args' void variadic void' count count' = some cmp ∧
      cmp.compatible = true := by
  unfold funcargsHead
  by_cases hargs : args = args'
  · exact ⟨.exactEqual, by rw [if_pos hargs], rfl⟩
  · have hempty : ((count = 0 && !void) || (count' = 0 && !void')) = true := by
      simpa using h.resolve_left hargs
    exact ⟨.implicitConv, by rw [if_neg hargs, if_pos hempty], rfl⟩

theorem funcargsHead_of_not_shares {args args' : Nat} {void void' : Bool} {count count' : Nat}
    (h : ¬ Shares args args' void void' count count') (variadic : Bool) :
    funcargsHead args args' void variadic void' count count' =
      if (if variadic then count ≤ count' else count = count') then none
      else some .mismatchCount := by
  unfold Shares at h
  rw [not_or] at h
  have hempty : ¬ ((count = 0 && !void) || (count' = 0 && !void')) = true := by
    simpa using h.2
  unfold funcargsHead
  rw [if_neg h.1, if_neg hempty]
  cases variadic with
  | false => simp [ite_not]
  | true =>
    by_cases hle : count ≤ count' <;> simp [hle]

/-- The loops over parameters, as many on either side. -/
theorem cmpArglist_mirror {E : TypeEnv} {as bs : List Ty} (hlen : as.length = bs.length)
    (hsettled : SettledArgs as bs) (has : NoMismatchArgs E as) (hbs : NoMismatchArgs E bs)
    (hone : ∀ a ∈ as, ∀ b, Settled a b → NoMismatch E a → NoMismatch E b →
      Option.Rel Mirror (typeCmpR E false a b) (typeCmpR E false b a)) :
    Option.Rel (fun cmp cmp' => cmp.compatible = cmp'.compatible)
      (cmpArglist E as bs) (cmpArglist E bs as) := by
  induction as generalizing bs with
  | nil =>
    obtain rfl := List.length_eq_zero_iff.1 hlen.symm
    exact .some rfl
  | cons a as ih =>
    cases bs with
    | nil => cases hlen
    | cons b bs =>
      rw [SettledArgs] at hsettled
      rw [NoMismatchArgs] at has hbs
      rw [cmpArglist, cmpArglist]
      have hfirst := hone a List.mem_cons_self b hsettled.1 has.1 hbs.1
      have hrest := ih (Nat.succ.inj hlen) hsettled.2 has.2 hbs.2
        (fun x hx => hone x (List.mem_cons_of_mem a hx))
      refine rel_bind hfirst fun c c' hmirror => ?_
      rw [(hmirror.voidPtrConversion a b).sameParam]
      split
      · exact hrest
      · exact .some rfl

/-- The argument lists of two functions; they are only compatible when there are
as many parameters, or these are not compared. -/
theorem funcargsCmp_mirror {E : TypeEnv} {args args' : Nat} {void variadic void' variadic' : Bool}
    {arglist arglist' : List Ty}
    (hsettled : ¬ Shares args args' void void' arglist.length arglist'.length →
      CountsSettled variadic variadic' arglist.length arglist'.length ∧
        (arglist.length = arglist'.length → SettledArgs arglist arglist'))
    (ha : NoMismatchArgs E arglist) (hb : NoMismatchArgs E arglist')
    (hone : ∀ a ∈ arglist, ∀ b, Settled a b → NoMismatch E a → NoMismatch E b →
      Option.Rel Mirror (typeCmpR E false a b) (typeCmpR E false b a)) :
    Option.Rel (fun cmp cmp' => cmp.compatible = cmp'.compatible ∧ (cmp.compatible = true →
        Shares args args' void void' arglist.length arglist'.length ∨
          arglist.length = arglist'.length))
      (funcargsCmp E args args' void variadic void' arglist arglist')
      (funcargsCmp E args' args void' variadic' void arglist' arglist) := by
  unfold funcargsCmp
  by_cases hshares : Shares args args' void void' arglist.length arglist'.length
  · obtain ⟨cmp, hcmp, hok⟩ := funcargsHead_of_shares hshares variadic
    obtain ⟨cmp', hcmp', hok'⟩ := funcargsHead_of_shares hshares.symm variadic'
    rw [hcmp, hcmp']
    exact .some ⟨hok.trans hok'.symm, fun _ => .inl hshares⟩
  · obtain ⟨⟨hfewer, hfewer'⟩, hargs⟩ := hsettled hshares
    rw [funcargsHead_of_not_shares hshares variadic,
      funcargsHead_of_not_shares (fun h => hshares h.symm) variadic']
    by_cases hlen : arglist.length = arglist'.length
    · have hcount : (if variadic then arglist.length ≤ arglist'.length
          else arglist.length = arglist'.length) := by
        cases variadic <;> simp [hlen]
      have hcount' : (if variadic' then arglist'.length ≤ arglist.length
          else arglist'.length = arglist.length) := by
        cases variadic' <;> simp [hlen]
      rw [if_pos hcount, if_pos hcount']
      exact rel_mono (cmpArglist_mirror hlen (hargs hlen) ha hb hone)
        fun cmp cmp' h => ⟨h, fun _ => .inr hlen⟩
    · have hcount : ¬ (if variadic then arglist.length ≤ arglist'.length
          else arglist.length = arglist'.length) := by
        cases variadic with
        | false => exact hlen
        | true => exact fun hle => hfewer ⟨rfl, lt_of_le_of_ne hle hlen⟩
      have hcount' : ¬ (if variadic' then arglist'.length ≤ arglist.length
          else arglist'.length = arglist.length) := by
        cases variadic' with
        | false => exact fun heq => hlen heq.symm
        | true => exact fun hle => hfewer' ⟨rfl, lt_of_le_of_ne hle (Ne.symm hlen)⟩
      rw [if_neg hcount, if_neg hcount']
      exact .some ⟨rfl, fun h => nomatch h⟩

/-- The comparison mirrors that of the other order. -/
theorem typeCmpR_mirror (E : TypeEnv) (n : Nat) (tentative : Bool) (a b : Ty) (hn : sizeOf a < n)
    (hsettled : Settled a b) (ha : NoMismatch E a) (hb : NoMismatch E b) :
    Option.Rel Mirror (typeCmpR E tentative a b) (typeCmpR E tentative b a) := by
  induction n generalizing tentative a b with
  | zero => exact absurd hn (Nat.not_lt_zero _)
  | succ n ih =>
    have hsize := sizeOf_skipAll_le a
    have hska := ha.skipAll
    have hskb := hb.skipAll
    rw [settled_skipAll] at hsettled
    rcases skipAll_pair a b with ⟨x, y, hx, hy⟩ | ⟨r, r', hx, hy⟩ | ⟨r, r', hx, hy⟩ |
        ⟨size, kind, r, size', kind', r', hx, hy⟩ |
        ⟨args, void, variadic, arglist, r, args', void', variadic', arglist', r', hx, hy⟩ | hdiff
    · rw [typeCmpR_btype hx hy, typeCmpR_btype hy hx]
      exact .some ((mirror_btypeCmp x y).cmpFixups ha hb rfl)
    · rw [hx, Settled, hy] at hsettled
      rw [hx, NoMismatch] at hska
      rw [hy, NoMismatch] at hskb
      rw [hx, Ty.ptr.sizeOf_spec] at hsize
      rw [typeCmpR_ptr hx hy, typeCmpR_ptr hy hx]
      exact rel_map (ih tentative r r' (by omega) hsettled hska hskb)
        fun c c' hmirror => hmirror.cmpFixups ha hb rfl
    · rw [hx, Settled, hy] at hsettled
      rw [hx, NoMismatch] at hska
      rw [hy, NoMismatch] at hskb
      rw [hx, Ty.block.sizeOf_spec] at hsize
      rw [typeCmpR_block hx hy, typeCmpR_block hy hx]
      exact rel_map (ih tentative r r' (by omega) hsettled hska hskb)
        fun c c' hmirror => hmirror.cmpFixups ha hb rfl
    · rw [hx, Settled, hy] at hsettled
      rw [hx, NoMismatch] at hska
      rw [hy, NoMismatch] at hskb
      rw [hx, Ty.array.sizeOf_spec] at hsize
      rw [typeCmpR_array hx hy, typeCmpR_array hy hx,
        cmpSizes_comm tentative size' size kind' kind]
      cases cmpSizes tentative size size' kind kind' with
      | none => exact .none
      | some same =>
        cases same with
        | false => exact .some rfl
        | true =>
          exact rel_map (ih tentative r r' (by omega) hsettled hska hskb)
            fun c c' hmirror => hmirror.cmpFixups ha hb rfl
    · rw [hx, Settled, hy] at hsettled
      rw [hx, NoMismatch] at hska
      rw [hy, NoMismatch] at hskb
      rw [hx, Ty.func.sizeOf_spec] at hsize
      have hargs : ¬ Shares args args' void void' arglist.length arglist'.length →
          CountsSettled variadic variadic' arglist.length arglist'.length ∧
            (arglist.length = arglist'.length → SettledArgs arglist arglist') := by
        intro hshares
        replace hsettled := (if_neg hshares).mp hsettled
        exact ⟨hsettled.1, fun hlen => (hsettled.2 hlen).1⟩
      have hret : Shares args args' void void' arglist.length arglist'.length ∨
          arglist.length = arglist'.length → Settled r r' := by
        intro h
        by_cases hshares : Shares args args' void void' arglist.length arglist'.length
        · exact (if_pos hshares).mp hsettled
        · exact (((if_neg hshares).mp hsettled).2 (h.resolve_left hshares)).2
      have hone : ∀ x ∈ arglist, ∀ y, Settled x y → NoMismatch E x → NoMismatch E y →
          Option.Rel Mirror (typeCmpR E false x y) (typeCmpR E false y x) := by
        intro x hxin y hset hnx hny
        have hlt := List.sizeOf_lt_of_mem hxin
        exact ih false x y (by omega) hset hnx hny
      rw [typeCmpR_func hx hy, typeCmpR_func hy hx]
      refine rel_bind (funcargsCmp_mirror hargs hska.1 hskb.1 hone) ?_
      rintro cmp cmp' ⟨hok, hcompatible⟩
      rw [← hok]
      by_cases hyes : cmp.compatible = true
      · rw [if_pos hyes, if_pos hyes]
        exact rel_map (ih tentative r r' (by omega) (hret (hcompatible hyes)) hska.2 hskb.2)
          fun c c' hmirror => hmirror.cmpFixups ha hb rfl
      · rw [if_neg hyes, if_neg hyes]
        exact .some rfl
    · obtain ⟨hab, hba⟩ := hdiff E tentative
      rw [hab, hba]
      exact .some (mirror_of_coarse (coarse_cmpKinds _ _) (coarse_cmpKinds _ _))

/-! ## A type and itself -/

theorem foldable_skipAll : ∀ t : Ty, Foldable t ↔ Foldable t.skipAll
  | .tdef _ _ t => foldable_skipAll t
  | .cast _ t => foldable_skipAll t
  | .attr _ t => foldable_skipAll t
  | .whereAt t => foldable_skipAll t
  | .btype _ => Iff.rfl
  | .ptr _ => Iff.rfl
  | .block _ => Iff.rfl
  | .array _ _ _ => Iff.rfl
  | .func _ _ _ _ _ => Iff.rfl

theorem typeAttributeMissing_self {E : TypeEnv} {a b : Ty}
    (h : ∀ x, typeAttrPresent E x a = typeAttrPresent E x b) :
    typeAttributeMissing E a b = false := by
  rw [typeAttributeMissing, List.any_eq_false]
  intro x _
  rw [h x]
  simp

/-- Types that agree in all that is looked at besides what they refer to. -/
theorem cmpFixups_equal {E : TypeEnv} {origA origB a b : Ty} (hqual : origA.qual = origB.qual)
    (htdef : origA.tdefDecl = origB.tdefDecl)
    (hattr : ∀ x, typeAttrPresent E x origA = typeAttrPresent E x origB) :
    cmpFixups E origA origB a b .equal = .equal := by
  have hfix : decayImplicit a (fixNotEqual E a b .equal) = .equal := by
    cases a <;> rfl
  have hptr : throughPointer a .equal = .equal := by
    cases a <;> rfl
  have hquals : cmpQuals origA.qual origB.qual .equal = .equal := by
    have hzero : typeQualCmp origB.qual origB.qual = 0 := by
      have hflip := typeQualCmp_flip origB.qual origB.qual
      omega
    rw [hqual, cmpQuals, if_pos (show TypeCmp.equal.equalAny = true from rfl), hzero]
    by_cases hnone : origB.qual = .none <;> simp [hnone]
  rw [cmpFixups, hfix, hptr, hquals, cmpAttributes, typeAttributeMissing_self hattr, cmpTdefs,
    htdef]
  simp

theorem cmpSizes_self (tentative : Bool) (size : Option SizeExpr) (kind : VlaKind) :
    cmpSizes tentative size size kind kind =
      if kind = .no ∧ size = some .nonConst then none else some true := by
  unfold cmpSizes
  by_cases hkind : kind = .no
  · cases size with
    | none => simp [hkind]
    | some n => cases n <;> simp [hkind]
  · simp [hkind]

/-- A type is equal to itself, if the comparison gets to the end. -/
theorem typeCmpR_self (E : TypeEnv) (n : Nat) (tentative : Bool) (t : Ty) (hn : sizeOf t < n) :
    (Foldable t → typeCmpR E tentative t t = some .equal) ∧
      (¬ Foldable t → typeCmpR E tentative t t = none) := by
  induction n generalizing t with
  | zero => exact absurd hn (Nat.not_lt_zero _)
  | succ n ih =>
    have hsize := sizeOf_skipAll_le t
    have hequal : ∀ a b, cmpFixups E t t a b .equal = .equal :=
      fun a b => cmpFixups_equal rfl rfl fun _ => rfl
    rw [foldable_skipAll]
    rcases skipAll_concrete t with ⟨x, hx⟩ | ⟨r, hx⟩ | ⟨r, hx⟩ | ⟨size, kind, r, hx⟩ |
        ⟨args, void, variadic, arglist, r, hx⟩
    · have hsame : btypeCmp x x = .equal := by
        rcases btypeCmp_cases x x with ⟨-, h⟩ | ⟨h, -⟩
        · exact h
        · cases x <;> exact absurd rfl h
      rw [typeCmpR_btype hx hx, hx, hsame, hequal, Foldable]
      exact ⟨fun _ => rfl, fun h => absurd trivial h⟩
    · rw [hx, Ty.ptr.sizeOf_spec] at hsize
      obtain ⟨hyes, hno⟩ := ih r (by omega)
      rw [typeCmpR_ptr hx hx, hx, Foldable]
      refine ⟨fun h => ?_, fun h => ?_⟩
      · rw [hyes h, Option.map_some, hequal]
      · rw [hno h, Option.map_none]
    · rw [hx, Ty.block.sizeOf_spec] at hsize
      obtain ⟨hyes, hno⟩ := ih r (by omega)
      rw [typeCmpR_block hx hx, hx, Foldable]
      refine ⟨fun h => ?_, fun h => ?_⟩
      · rw [hyes h, Option.map_some, hequal]
      · rw [hno h, Option.map_none]
    · rw [hx, Ty.array.sizeOf_spec] at hsize
      obtain ⟨hyes, hno⟩ := ih r (by omega)
      rw [typeCmpR_array hx hx, hx, Foldable, cmpSizes_self]
      by_cases hsz : kind = .no ∧ size = some .nonConst
      · rw [if_pos hsz]
        exact ⟨fun h => absurd hsz.2 (h.1 hsz.1), fun _ => rfl⟩
      · have hfirst : kind = .no → size ≠ some .nonConst := fun hkind hnon => hsz ⟨hkind, hnon⟩
        rw [if_neg hsz, Option.bind_some, if_pos rfl]
        refine ⟨fun h => ?_, fun h => ?_⟩
        · rw [hyes h.2, Option.map_some, hequal]
        · rw [hno fun hr => h ⟨hfirst, hr⟩, Option.map_none]
    · rw [hx, Ty.func.sizeOf_spec] at hsize
      obtain ⟨hyes, hno⟩ := ih r (by omega)
      have hargs : funcargsCmp E args args void variadic void arglist arglist =
          some .exactEqual := by
        rw [funcargsCmp, funcargsHead, if_pos rfl]
      rw [typeCmpR_func hx hx, hx, Foldable, hargs, Option.bind_some,
        if_pos (show FuncargsCmp.exactEqual.compatible = true from rfl)]
      refine ⟨fun h => ?_, fun h => ?_⟩
      · rw [hyes h, Option.map_some, hequal]
      · rw [hno h, Option.map_none]

theorem typeCmp_self_iff (E : TypeEnv) (tentative : Bool) (t : Ty) :
    typeCmp E tentative t t = some .equal ↔ Foldable t := by
  obtain ⟨hyes, hno⟩ := typeCmpR_self E (sizeOf t + 1) tentative t (Nat.lt_succ_self _)
  constructor
  · intro h
    by_contra hfold
    rw [typeCmp, hno hfold] at h
    cases h
  · intro h
    rw [typeCmp, hyes h]
    rfl

/-! ## The relation -/

/-- `type_cmp(a, b)` and `type_cmp(b, a)` agree. -/
def OrderFree (E : TypeEnv) (tentative : Bool) (a b : Ty) : Prop :=
  ((typeCmp E tentative a b).any TypeCmp.equalAny = true ↔
    (typeCmp E tentative b a).any TypeCmp.equalAny = true) ∧
  (typeCmp E tentative a b = some .qualAdd ↔ typeCmp E tentative b a = some .qualSub) ∧
  (typeCmp E tentative a b = some .qualPointedAdd ↔
    typeCmp E tentative b a = some .qualPointedSub)

theorem orderFree_of_settled {E : TypeEnv} (tentative : Bool) {a b : Ty} (ha : NoMismatch E a)
    (hb : NoMismatch E b) (h : Settled a b) : OrderFree E tentative a b := by
  have hmirror := typeCmpR_mirror E (sizeOf a + 1) tentative a b (Nat.lt_succ_self _) h ha hb
  unfold OrderFree typeCmp
  generalize typeCmpR E tentative a b = x at hmirror ⊢
  generalize typeCmpR E tentative b a = y at hmirror ⊢
  cases hmirror with
  | none => simp
  | some hc =>
    replace hc := hc.voidPtrConversion a b
    simp only [Option.map_some, Option.any_some, Option.some.injEq]
    generalize voidPtrConversion a b _ = c at hc ⊢
    generalize voidPtrConversion b a _ = c' at hc ⊢
    cases c <;> cases c' <;> revert hc <;> decide

/-- The loop over the parameters of a function and the same ones with more after
them. -/
theorem cmpArglist_append {E : TypeEnv} {ps : List Ty} (qs : List Ty)
    (h : ∀ p ∈ ps, Foldable p) : cmpArglist E ps (ps ++ qs) = some .exactEqual := by
  induction ps with
  | nil => rfl
  | cons p ps ih =>
    have hself : cmpSkipped E false p p p = some .equal :=
      (typeCmpR_self E (sizeOf p + 1) false p (Nat.lt_succ_self _)).1 (h p List.mem_cons_self)
    rw [List.cons_append, cmpArglist, hself]
    exact ih fun q hq => h q (List.mem_cons_of_mem p hq)

/-- A variadic function and one with more parameters: equal one way only. -/
theorem not_orderFree_variadic (E : TypeEnv) (tentative : Bool) {args args' : Nat}
    (hargs : args ≠ args') (void void' variadic' : Bool) {ps qs : List Ty} {r : Ty}
    (hps : ps ≠ []) (hqs : qs ≠ []) (hfold : ∀ p ∈ ps, Foldable p) (hr : Foldable r) :
    ¬ OrderFree E tentative (.func args void true ps r)
      (.func args' void' variadic' (ps ++ qs) r) := by
  have hps0 : ps.length ≠ 0 := fun h => hps (List.length_eq_zero_iff.1 h)
  have hqs0 : qs.length ≠ 0 := fun h => hqs (List.length_eq_zero_iff.1 h)
  have hlen : (ps ++ qs).length = ps.length + qs.length := List.length_append
  have hshares : ¬ Shares args args' void void' ps.length (ps ++ qs).length := by
    rintro (h | ⟨h, -⟩ | ⟨h, -⟩)
    · exact hargs h
    · exact hps0 h
    · omega
  have hto : typeCmp E tentative (.func args void true ps r)
      (.func args' void' variadic' (ps ++ qs) r) = some .equal := by
    have hcmp : funcargsCmp E args args' void true void' ps (ps ++ qs) = some .exactEqual := by
      have hle : if true then ps.length ≤ (ps ++ qs).length
          else ps.length = (ps ++ qs).length := by
        rw [if_pos rfl]
        omega
      rw [funcargsCmp, funcargsHead_of_not_shares hshares, if_pos hle]
      exact cmpArglist_append qs hfold
    have hret := (typeCmpR_self E (sizeOf r + 1) tentative r (Nat.lt_succ_self _)).1 hr
    have hequal : cmpFixups E (.func args void true ps r) (.func args' void' variadic' (ps ++ qs) r)
        (.func args void true ps r) (.func args' void' variadic' (ps ++ qs) r) .equal = .equal :=
      cmpFixups_equal rfl rfl fun _ => rfl
    rw [typeCmp, typeCmpR_func rfl rfl, hcmp, Option.bind_some,
      if_pos (show FuncargsCmp.exactEqual.compatible = true from rfl), hret, Option.map_some,
      hequal]
    rfl
  have hfrom : typeCmp E tentative (.func args' void' variadic' (ps ++ qs) r)
      (.func args void true ps r) = some .convertibleExplicit := by
    have hcmp : funcargsCmp E args' args void' variadic' void (ps ++ qs) ps =
        some .mismatchCount := by
      have hcount : ¬ (if variadic' then (ps ++ qs).length ≤ ps.length
          else (ps ++ qs).length = ps.length) := by
        cases variadic' with
        | false =>
          intro h
          have : (ps ++ qs).length = ps.length := h
          omega
        | true =>
          intro h
          have : (ps ++ qs).length ≤ ps.length := h
          omega
      rw [funcargsCmp, funcargsHead_of_not_shares (fun h => hshares h.symm), if_neg hcount]
    rw [typeCmp, typeCmpR_func rfl rfl, hcmp]
    rfl
  intro h
  have heq := h.1.1 (by rw [hto]; rfl)
  rw [hfrom] at heq
  cases heq

/-- No structs. -/
def noStructs : TypeEnv := ⟨fun _ => [], fun _ => [], false⟩

/-- `int` -/
def intTy : Ty := .btype (.prim .int none)

end Ucc.Cc1
