/-
  Cc1/Declarator.lean --- declarators, from tokens to types.

  Source: parsed_type_nest, parsed_type_array, parsed_type_func,
  parsed_type_func_or_array, parsed_type_ptr and parse_type_declarator_to_type in
  src/cc1/parse_type.c, and type_qualify3, type_unqualify and type_at_where in
  src/cc1/type_nav.c.

  A token may stand for a whole phrase that another parser reads: an expression
  (less the `*` operators that it starts with), a list of parameter types, a
  list of parameter names.  A linked list of parsed nodes is a list whose head is
  the node that `prev` leads away from.  Locations are not kept.
-/
import Mathlib.Tactic
import Ucc.Cc1.TypeNav

set_option autoImplicit false

namespace Ucc.Cc1

/-! ## Qualifying types -/

namespace Ty

/-- `type_skip_wheres` -/
def skipWheres : Ty → Ty
  | .whereAt t => t.skipWheres
  | t => t

/-- `type_at_where` -/
def atWhere (t : Ty) : Ty := .whereAt t.skipWheres

/-- `type_attributed` -/
def attributed (t : Ty) (attrs : List AttributeType) : Ty :=
  if attrs.isEmpty then t else .attr attrs t

/-- `type_qualify3` -/
def qualify3 (t : Ty) (qual : TypeQual) (transformArrayQual : Bool) : Ty :=
  let existing := t.qual
  if qual = .none then t
  else if existing ≠ .none ∧ qual.union existing = existing then t
  else if transformArrayQual then
    match _harray : t.skipAll with
    | .array size _ ref => .array size .no (qualify3 ref (qual.diff existing) true)
    | _ => .cast (qual.diff existing) t
  else .cast (qual.diff existing) t
termination_by sizeOf t
decreasing_by
  have hle := sizeOf_skipAll_le t
  rw [_harray] at hle
  simp only [Ty.array.sizeOf_spec] at hle
  omega

/-- What the loop of `type_unqualify` finds: the attributes, `t_restrict`, whether
that is also `prev`, and the type below the qualifiers. -/
structure Unqualified where
  attr : List AttributeType
  tRestrict : Option Ty
  prevIsRestrict : Bool
  concrete : Ty

/-- The loop of `type_unqualify`. -/
def unqualifyLoop (attr : List AttributeType) (tRestrict : Option Ty) (prevIsRestrict : Bool) :
    Ty → Unqualified
  | .cast q t =>
      if q.restrict then t.unqualifyLoop attr (some (.cast q t)) true
      else t.unqualifyLoop attr tRestrict false
  | .attr as t => t.unqualifyLoop (attr ++ as) tRestrict prevIsRestrict
  | .tdef _ _ t => t.unqualifyLoop attr tRestrict prevIsRestrict
  | .whereAt t => t.unqualifyLoop attr tRestrict prevIsRestrict
  | t => ⟨attr, tRestrict, prevIsRestrict, t⟩

/-- `type_unqualify` -/
def unqualify (qualified : Ty) : Ty :=
  let u := qualified.unqualifyLoop [] none false
  let ret := match u.tRestrict with
    | some t => if u.prevIsRestrict then t else u.concrete.qualify3 ⟨false, false, true⟩ true
    | none => u.concrete
  ret.attributed u.attr

end Ty

/-! ## Tokens -/

/-- What `parse_func_arglist` returns. -/
structure Arglist where
  id : Nat
  void : Bool
  variadic : Bool
  types : List Ty

/-- An array size, as `const_fold` classifies it. -/
inductive SizeKind where
  | num (n : BitVec 64)
  | vla
  | nonIntegral

inductive DeclToken where
  | openParen | closeParen | openSquare | closeSquare
  | multiply | xor
  | identifier (spel : Nat)
  | qual (q : TypeQual)
  | static
  | attribute (attr : List AttributeType)
  /-- an expression -/
  | expr (kind : SizeKind)
  /-- parameters, of which the first starts with a type -/
  | paramTypes (args : Arglist)
  /-- names of parameters, of which the first is not a typedef -/
  | paramNames (args : Arglist)
  /-- any other token -/
  | other (tok : Nat)

/-- What the parser is called with: whether there is a declaration to name,
whether it must be named, the typedefs in scope, what `()` declares, and how
parameters are parsed that are neither of the two phrases above. -/
structure DeclContext where
  dfor : Bool
  spelNeed : Bool
  atTdef : Nat → Bool
  emptyArgs : Arglist
  parseArgs : List DeclToken → Option (Arglist × List DeclToken)

/-- What is left of the tokens, the name that was found, and `parse_had_error`. -/
structure DeclState where
  toks : List DeclToken
  spel : Option Nat
  hadError : Bool

/-- `parse_at_decl` -/
def parseAtDecl (cx : DeclContext) (includeAttribute : Bool) : List DeclToken → Bool
  | .identifier spel :: _ => cx.atTdef spel
  | .attribute _ :: _ => includeAttribute
  | .qual _ :: _ => true
  | .static :: _ => true
  | .paramTypes _ :: _ => true
  | _ => false

/-- `curtok == token_close_paren` -/
def atCloseParen : List DeclToken → Bool
  | .closeParen :: _ => true
  | _ => false

/-- `EAT(token_close_paren)` -/
def eatCloseParen (s : DeclState) : DeclState :=
  match s.toks with
  | .closeParen :: ts => { s with toks := ts }
  | _ => { s with hadError := true }

/-- `EAT(token_close_square)` -/
def eatCloseSquare (s : DeclState) : DeclState :=
  match s.toks with
  | .closeSquare :: ts => { s with toks := ts }
  | _ => { s with hadError := true }

/-- `parse_func_arglist` -/
def parseFuncArglist (cx : DeclContext) : List DeclToken → Option (Arglist × List DeclToken)
  | .closeParen :: ts => some (cx.emptyArgs, .closeParen :: ts)
  | .paramTypes args :: ts => some (args, ts)
  | .paramNames args :: ts => some (args, ts)
  | ts => cx.parseArgs ts

/-- `PARSE_EXPR_CONSTANT` -/
def parseExprConstant : List DeclToken → Option (SizeKind × List DeclToken)
  | .multiply :: ts => parseExprConstant ts
  | .expr kind :: ts => some (kind, ts)
  | _ => none

/-! ## Parsing -/

/-- `struct type_parsed` -/
inductive TypeParsed where
  | ptr (isPtr : Bool) (attr : List AttributeType) (qual : TypeQual)
  | func (arglist : Arglist)
  | array (size : Option SizeExpr) (qual : TypeQual) (isStatic : Bool) (vlaKind : VlaKind)
  | attr (attr : List AttributeType)

/-- The loop over `static` and the qualifiers of an array. -/
def arraySpecs (q : TypeQual) (isStatic : Nat) : List DeclToken → TypeQual × Nat × List DeclToken
  | .qual q' :: ts => arraySpecs (q.union q') isStatic ts
  | .static :: ts => arraySpecs q (isStatic + 1) ts
  | ts => (q, isStatic, ts)

/-- The size of an array, up to its `]`. -/
def arraySize (s : DeclState) : Option (Option SizeExpr × VlaKind × DeclState) :=
  match s.toks with
  | .closeSquare :: ts => some (none, .no, { s with toks := ts })
  | .multiply :: .closeSquare :: ts => some (none, .star, { s with toks := ts })
  | ts =>
      (parseExprConstant ts).map fun (kind, ts) =>
        let s := eatCloseSquare { s with toks := ts }
        match kind with
        | .num n => (some (.const n), .no, s)
        | .vla => (some .nonConst, .vla, s)
        | .nonIntegral => (none, .no, { s with hadError := true })

/-- `parsed_type_array` -/
def parsedTypeArray : Nat → List TypeParsed → DeclState → Option (List TypeParsed × DeclState)
  | 0, _, _ => none
  | fuel + 1, base, s =>
      match s.toks with
      | .openSquare :: ts =>
          let (q, isStatic, ts) := arraySpecs .none 0 ts
          (arraySize { s with toks := ts }).bind fun (size, vlaKind, s) =>
            if 1 < isStatic then none
            else parsedTypeArray fuel (.array size q (isStatic == 1) vlaKind :: base) s
      | _ => some (base, s)

/-- `parsed_type_func` -/
def parsedTypeFunc (cx : DeclContext) :
    Nat → List TypeParsed → DeclState → Option (List TypeParsed × DeclState)
  | 0, _, _ => none
  | fuel + 1, base, s =>
      match s.toks with
      | .openParen :: ts =>
          (parseFuncArglist cx ts).bind fun (args, ts) =>
            parsedTypeFunc cx fuel (.func args :: base) (eatCloseParen { s with toks := ts })
      | _ => some (base, s)

/-- The loop of `parsed_type_func_or_array`. -/
def funcOrArrayLoop (cx : DeclContext) :
    Nat → List TypeParsed → DeclState → Option (List TypeParsed × DeclState)
  | 0, _, _ => none
  | fuel + 1, parsed, s =>
      match s.toks with
      | .openParen :: _ =>
          (parsedTypeFunc cx fuel parsed s).bind fun (parsed, s) =>
            funcOrArrayLoop cx fuel parsed s
      | .openSquare :: _ =>
          (parsedTypeArray fuel parsed s).bind fun (parsed, s) =>
            funcOrArrayLoop cx fuel parsed s
      | _ => some (parsed, s)

/-- `parse_add_attr` -/
def parseAddAttr (attr : List AttributeType) : List DeclToken → List AttributeType × List DeclToken
  | .attribute as :: ts => parseAddAttr (attr ++ as) ts
  | ts => (attr, ts)

/-- The loop over the qualifiers and attributes of a pointer. -/
def ptrSpecs (attr : List AttributeType) (qual : TypeQual) :
    List DeclToken → List AttributeType × TypeQual × List DeclToken
  | .qual q :: ts => ptrSpecs attr (qual.union q) ts
  | .attribute as :: ts => ptrSpecs (attr ++ as) qual ts
  | ts => (attr, qual, ts)

mutual

/-- `parsed_type_nest` -/
def parsedTypeNest (cx : DeclContext) :
    Nat → List TypeParsed → DeclState → Option (List TypeParsed × DeclState)
  | 0, _, _ => none
  | fuel + 1, base, s =>
      match s.toks with
      | .openParen :: ts =>
          -- the parenthesis is given back
          if parseAtDecl cx (!cx.dfor) ts || atCloseParen ts then some (base, s)
          else
            let (attr, ts) := parseAddAttr [] ts
            (parsedTypePtr cx fuel base { s with toks := ts }).map fun (ret, s) =>
              (if attr.isEmpty then ret else .attr attr :: ret, eatCloseParen s)
      | .identifier spel :: ts =>
          if cx.dfor then some (base, { s with toks := ts, spel := some spel })
          else some (base, { s with toks := ts, hadError := true })
      | _ => some (base, if cx.spelNeed then { s with hadError := true } else s)

/-- `parsed_type_func_or_array` -/
def parsedTypeFuncOrArray (cx : DeclContext) :
    Nat → List TypeParsed → DeclState → Option (List TypeParsed × DeclState)
  | 0, _, _ => none
  | fuel + 1, base, s =>
      (parsedTypeNest cx fuel base s).bind fun (parsed, s) => funcOrArrayLoop cx fuel parsed s

/-- `parsed_type_ptr` -/
def parsedTypePtr (cx : DeclContext) :
    Nat → List TypeParsed → DeclState → Option (List TypeParsed × DeclState)
  | 0, _, _ => none
  | fuel + 1, base, s =>
      match s.toks with
      | .multiply :: ts =>
          let (attr, qual, ts) := ptrSpecs [] .none ts
          (parsedTypePtr cx fuel [] { s with toks := ts }).map fun (sub, s) =>
            (.ptr true attr qual :: (sub ++ base), s)
      | .xor :: ts =>
          let (attr, qual, ts) := ptrSpecs [] .none ts
          (parsedTypePtr cx fuel [] { s with toks := ts }).map fun (sub, s) =>
            (.ptr false attr qual :: (sub ++ base), s)
      | _ => parsedTypeFuncOrArray cx fuel base s

end

/-! ## Folding -/

/-- `create_func_type_stripping_ret_quals` -/
def createFuncTypeStrippingRetQuals (retty : Ty) (args : Arglist) : Ty :=
  let retty := if retty.qual = .none then retty else retty.unqualify
  .func args.id args.void args.variadic args.types retty

/-- The loop of `parse_type_declarator_to_type`, over one node. -/
def wrapParsed (ty : Ty) : TypeParsed → Ty
  | .ptr isPtr _ qual =>
      (if isPtr then Ty.ptr ty else Ty.block ty).atWhere.qualify3 qual false
  | .array size qual _ vlaKind => (Ty.array size vlaKind ty).atWhere.qualify3 qual false
  | .func args => (createFuncTypeStrippingRetQuals ty args).atWhere
  | .attr attr => ty.atWhere.attributed attr

/-- More than the parser needs for so many tokens. -/
def declFuel (toks : List DeclToken) : Nat := 4 * toks.length + 8

/-- `parse_type_declarator_to_type` -/
def parseTypeDeclaratorToType (cx : DeclContext) (base : Ty) (s : DeclState) :
    Option (Ty × DeclState) :=
  (parsedTypePtr cx (declFuel s.toks) [] s).map fun (parsed, s) =>
    let ty := parsed.foldl wrapParsed base
    (if cx.dfor then ty.atWhere else ty, s)

end Ucc.Cc1
