/-
  Cc1/DeclaratorReading.lean --- the type that a declarator declares.

  The grammar of declarators with what each phrase makes of a type, from the
  inside out, and when the parser makes the same.
-/
import Mathlib.Tactic
import Ucc.Cc1.Declarator

set_option autoImplicit false

namespace Ucc.Cc1

/-! ## Types of the language -/

mutual

/-- A type with all its qualifiers. -/
inductive CType where
  | mk (qual : TypeQual) (shape : CShape)

/-- What is qualified. -/
inductive CShape where
  | btype (b : BType)
  | ptr (isPtr : Bool) (target : CType)
  | func (args : Arglist) (ret : CType)
  | array (size : Option SizeExpr) (vlaKind : VlaKind) (of : CType)

end

def CType.qual : CType → TypeQual
  | .mk qual _ => qual

def CType.shape : CType → CShape
  | .mk _ shape => shape

/-- The type without its qualifiers. -/
def CType.unqualified (t : CType) : CType := .mk .none t.shape

/-- The type of the language that a type stands for: without typedefs, attributes
and locations. -/
def Ty.ctype : Ty → CType
  | .btype b => .mk .none (.btype b)
  | .tdef _ _ t => t.ctype
  | .ptr t => .mk .none (.ptr true t.ctype)
  | .block t => .mk .none (.ptr false t.ctype)
  | .func args void variadic types t => .mk .none (.func ⟨args, void, variadic, types⟩ t.ctype)
  | .array size vlaKind t => .mk .none (.array size vlaKind t.ctype)
  | .cast q t => .mk (q.union t.ctype.qual) t.ctype.shape
  | .attr _ t => t.ctype
  | .whereAt t => t.ctype

/-! ## The grammar -/

/-- `*` or `^`, and its qualifiers. -/
structure Pointer where
  isPtr : Bool
  quals : List TypeQual

/-- The size of an array: `[]`, or an expression after some `*` operators. -/
inductive ArraySize where
  | unspecified
  | expr (stars : Nat) (size : SizeExpr)

/-- What stands between the parentheses of a function. -/
inductive Params where
  | none
  | types (args : Arglist)
  | names (args : Arglist)

inductive DeclSuffix where
  | array (size : ArraySize)
  | func (params : Params)

mutual

/-- A declarator: pointers, and a direct declarator with its suffixes. -/
inductive Declarator where
  | mk (ptrs : List Pointer) (core : DeclCore) (suffixes : List DeclSuffix)

inductive DeclCore where
  | name (spel : Nat)
  | abstract
  | paren (d : Declarator)

end

def Pointer.qual (p : Pointer) : TypeQual := p.quals.foldl TypeQual.union .none

def Pointer.tokens (p : Pointer) : List DeclToken :=
  (if p.isPtr then .multiply else .xor) :: p.quals.map .qual

def SizeExpr.kind : SizeExpr → SizeKind
  | .const n => .num n
  | .nonConst => .vla

def ArraySize.tokens : ArraySize → List DeclToken
  | .unspecified => []
  | .expr stars size => List.replicate stars .multiply ++ [.expr size.kind]

def ArraySize.size : ArraySize → Option SizeExpr
  | .unspecified => .none
  | .expr _ size => some size

def ArraySize.vlaKind : ArraySize → VlaKind
  | .expr _ .nonConst => .vla
  | _ => .no

def Params.tokens : Params → List DeclToken
  | .none => []
  | .types args => [.paramTypes args]
  | .names args => [.paramNames args]

def Params.arglist (cx : DeclContext) : Params → Arglist
  | .none => cx.emptyArgs
  | .types args => args
  | .names args => args

def DeclSuffix.tokens : DeclSuffix → List DeclToken
  | .array size => .openSquare :: (size.tokens ++ [.closeSquare])
  | .func params => .openParen :: (params.tokens ++ [.closeParen])

mutual

def Declarator.tokens : Declarator → List DeclToken
  | .mk ptrs core suffixes =>
      ptrs.flatMap Pointer.tokens ++ (core.tokens ++ suffixes.flatMap DeclSuffix.tokens)

def DeclCore.tokens : DeclCore → List DeclToken
  | .name spel => [.identifier spel]
  | .abstract => []
  | .paren d => .openParen :: (d.tokens ++ [.closeParen])

end

mutual

/-- The name declared; an abstract declarator has none. -/
def Declarator.name : Declarator → Option Nat
  | .mk _ core _ => core.spel

def DeclCore.spel : DeclCore → Option Nat
  | .name spel => some spel
  | .abstract => none
  | .paren d => d.name

end

/-- Only names of parameters stand between the parentheses. -/
def DeclSuffix.isNames : DeclSuffix → Bool
  | .func (.names _) => true
  | _ => false

mutual

/-- The grammar has nothing between the parentheses of no declarator, and lists of
parameter names only where a function is named. -/
def Declarator.generated : Declarator → Bool
  | .mk ptrs core suffixes =>
      ((Declarator.mk ptrs core suffixes).name.isSome || suffixes.all (!·.isNames)) &&
        core.generated

def DeclCore.generated : DeclCore → Bool
  | .name _ => true
  | .abstract => true
  | .paren d => !d.tokens.isEmpty && d.generated

end

/-! ## The reading -/

def Pointer.wrap (t : CType) (p : Pointer) : CType := .mk p.qual (.ptr p.isPtr t)

/-- A suffix makes an array, or a function; that has no use for the qualifiers of
what it returns. -/
def DeclSuffix.wrap (cx : DeclContext) (t : CType) : DeclSuffix → CType
  | .array size => .mk .none (.array size.size size.vlaKind t)
  | .func params => .mk .none (.func (params.arglist cx) t.unqualified)

mutual

/-- The type that a declarator declares, where its specifiers say `t`: the pointers
wrap `t`, from the left; the suffixes wrap that, the last one first; and the
result is what the direct declarator has. -/
def Declarator.reading (cx : DeclContext) : Declarator → CType → CType
  | .mk ptrs core suffixes, t =>
      core.reading cx (suffixes.foldr (fun s t => s.wrap cx t) (ptrs.foldl Pointer.wrap t))

def DeclCore.reading (cx : DeclContext) : DeclCore → CType → CType
  | .name _, t => t
  | .abstract, t => t
  | .paren d, t => d.reading cx t

end

/-! ## What the parser leaves -/

/-- The node that the parser makes of a pointer. -/
def Pointer.parsed (p : Pointer) : TypeParsed := .ptr p.isPtr [] p.qual

/-- The node that the parser makes of a suffix. -/
def DeclSuffix.parsed (cx : DeclContext) : DeclSuffix → TypeParsed
  | .array size => .array size.size .none false size.vlaKind
  | .func params => .func (params.arglist cx)

mutual

/-- The list that the parser makes of a declarator. -/
def Declarator.parsed (cx : DeclContext) : Declarator → List TypeParsed
  | .mk ptrs core suffixes =>
      ptrs.map Pointer.parsed ++ ((suffixes.map (DeclSuffix.parsed cx)).reverse ++ core.parsed cx)

def DeclCore.parsed (cx : DeclContext) : DeclCore → List TypeParsed
  | .name _ => []
  | .abstract => []
  | .paren d => d.parsed cx

end

/-- A token with which a declarator may go on. -/
def DeclToken.continues : DeclToken → Bool
  | .openParen | .openSquare | .multiply | .xor | .identifier _ | .qual _ | .attribute _ => true
  | _ => false

/-- The declarator ends here. -/
def DeclEnds (rest : List DeclToken) : Prop := ∀ t ∈ rest.head?, t.continues = false

theorem declEnds_closeParen (rest : List DeclToken) : DeclEnds (.closeParen :: rest) := by
  intro t ht
  cases ht
  rfl

/-! ### Suffixes -/

theorem parseExprConstant_expr (stars : Nat) (kind : SizeKind) (ts : List DeclToken) :
    parseExprConstant (List.replicate stars .multiply ++ .expr kind :: ts) = some (kind, ts) := by
  induction stars with
  | zero => rfl
  | succ n ih => exact ih

theorem arraySize_tokens (size : ArraySize) (s : DeclState) (ts : List DeclToken) :
    arraySize { s with toks := size.tokens ++ .closeSquare :: ts } =
      some (size.size, size.vlaKind, { s with toks := ts }) := by
  cases size with
  | unspecified => rfl
  | expr stars size =>
    have hparse := parseExprConstant_expr stars size.kind (.closeSquare :: ts)
    have htoks : (ArraySize.expr stars size).tokens ++ .closeSquare :: ts =
        List.replicate stars .multiply ++ .expr size.kind :: .closeSquare :: ts := by
      simp [ArraySize.tokens]
    unfold arraySize
    rw [htoks]
    -- only the last of the three cases starts with an expression
    cases stars with
    | zero => cases size <;> rfl
    | succ n =>
      cases n with
      | zero => cases size <;> rfl
      | succ n =>
        have hstars : List.replicate (n + 1 + 1) DeclToken.multiply ++
            .expr size.kind :: .closeSquare :: ts =
            .multiply :: .multiply :: (List.replicate n .multiply ++
              .expr size.kind :: .closeSquare :: ts) := rfl
        rw [hstars] at hparse ⊢
        simp only [hparse]
        cases size <;> rfl

theorem arraySpecs_size (size : ArraySize) (ts : List DeclToken) :
    arraySpecs .none 0 (size.tokens ++ .closeSquare :: ts) =
      (.none, 0, size.tokens ++ .closeSquare :: ts) := by
  cases size with
  | unspecified => rfl
  | expr stars size => cases stars <;> rfl

/-- One array suffix. -/
theorem parsedTypeArray_suffix (fuel : Nat) (base : List TypeParsed) (size : ArraySize)
    (s : DeclState) (ts : List DeclToken) :
    parsedTypeArray (fuel + 1) base { s with toks := (DeclSuffix.array size).tokens ++ ts } =
      parsedTypeArray fuel (.array size.size .none false size.vlaKind :: base)
        { s with toks := ts } := by
  have htoks : (DeclSuffix.array size).tokens ++ ts =
      .openSquare :: (size.tokens ++ .closeSquare :: ts) := by
    simp [DeclSuffix.tokens]
  rw [htoks, parsedTypeArray]
  simp only [arraySpecs_size, arraySize_tokens size s ts, Option.bind_some]
  rfl

theorem parseFuncArglist_params (cx : DeclContext) (params : Params) (ts : List DeclToken) :
    parseFuncArglist cx (params.tokens ++ .closeParen :: ts) =
      some (params.arglist cx, .closeParen :: ts) := by
  cases params <;> rfl

/-- One function suffix. -/
theorem parsedTypeFunc_suffix (cx : DeclContext) (fuel : Nat) (base : List TypeParsed)
    (params : Params) (s : DeclState) (ts : List DeclToken) :
    parsedTypeFunc cx (fuel + 1) base { s with toks := (DeclSuffix.func params).tokens ++ ts } =
      parsedTypeFunc cx fuel (.func (params.arglist cx) :: base) { s with toks := ts } := by
  have htoks : (DeclSuffix.func params).tokens ++ ts =
      .openParen :: (params.tokens ++ .closeParen :: ts) := by
    simp [DeclSuffix.tokens]
  rw [htoks, parsedTypeFunc]
  simp only [parseFuncArglist_params, Option.bind_some]
  rfl

/-- No array starts where the declarator ends, nor where a function suffix does. -/
theorem parsedTypeArray_stop (fuel : Nat) (base : List TypeParsed) (s : DeclState)
    (h : ∀ ts, s.toks ≠ .openSquare :: ts) :
    parsedTypeArray (fuel + 1) base s = some (base, s) := by
  unfold parsedTypeArray
  split
  · next ts hts => exact absurd hts (h ts)
  · rfl

theorem parsedTypeFunc_stop (cx : DeclContext) (fuel : Nat) (base : List TypeParsed)
    (s : DeclState) (h : ∀ ts, s.toks ≠ .openParen :: ts) :
    parsedTypeFunc cx (fuel + 1) base s = some (base, s) := by
  unfold parsedTypeFunc
  split
  · next ts hts => exact absurd hts (h ts)
  · rfl

theorem DeclEnds.ne {rest ts : List DeclToken} {t : DeclToken} (h : DeclEnds rest)
    (ht : t.continues = true) : rest ≠ t :: ts := by
  rintro rfl
  simp [h t rfl] at ht

theorem funcOrArrayLoop_stop (cx : DeclContext) (fuel : Nat) (base : List TypeParsed)
    (s : DeclState) (h : DeclEnds s.toks) :
    funcOrArrayLoop cx (fuel + 1) base s = some (base, s) := by
  unfold funcOrArrayLoop
  split
  · next ts hts => exact absurd hts (h.ne rfl)
  · next ts hts => exact absurd hts (h.ne rfl)
  · rfl

/-- What the loops over suffixes are to leave. -/
def suffixesDone (cx : DeclContext) (s : DeclState) (rest : List DeclToken)
    (suffixes : List DeclSuffix) (base : List TypeParsed) : Option (List TypeParsed × DeclState) :=
  some ((suffixes.map (DeclSuffix.parsed cx)).reverse ++ base, { s with toks := rest })

theorem suffixesDone_cons (cx : DeclContext) (s : DeclState) (rest : List DeclToken)
    (suffix : DeclSuffix) (suffixes : List DeclSuffix) (base : List TypeParsed) :
    suffixesDone cx s rest (suffix :: suffixes) base =
      suffixesDone cx s rest suffixes (suffix.parsed cx :: base) := by
  simp [suffixesDone]

/-- The loops over suffixes.  Arrays are taken by one inner loop and functions by
another, which each go back to the outer one. -/
theorem suffixes_parsed (cx : DeclContext) {rest : List DeclToken} (hrest : DeclEnds rest)
    (s : DeclState) (suffixes : List DeclSuffix) (base : List TypeParsed) (m n : Nat)
    (hm : suffixes.length < m) (hn : suffixes.length + 1 < n) :
    ((parsedTypeArray m base { s with toks := suffixes.flatMap DeclSuffix.tokens ++ rest }).bind
        fun p => funcOrArrayLoop cx n p.1 p.2) = suffixesDone cx s rest suffixes base ∧
      ((parsedTypeFunc cx m base { s with toks := suffixes.flatMap DeclSuffix.tokens ++ rest }).bind
        fun p => funcOrArrayLoop cx n p.1 p.2) = suffixesDone cx s rest suffixes base ∧
      funcOrArrayLoop cx n base { s with toks := suffixes.flatMap DeclSuffix.tokens ++ rest } =
        suffixesDone cx s rest suffixes base := by
  induction suffixes generalizing base m n with
  | nil =>
    obtain ⟨m, rfl⟩ := Nat.exists_eq_add_one_of_ne_zero (Nat.ne_of_gt hm)
    obtain ⟨n, rfl⟩ := Nat.exists_eq_add_one_of_ne_zero (show n ≠ 0 by omega)
    have hstop := funcOrArrayLoop_stop cx n base { s with toks := rest } hrest
    rw [List.flatMap_nil, List.nil_append,
      parsedTypeArray_stop m base { s with toks := rest } fun ts => hrest.ne rfl,
      parsedTypeFunc_stop cx m base { s with toks := rest } fun ts => hrest.ne rfl]
    exact ⟨hstop, hstop, hstop⟩
  | cons suffix suffixes ih =>
    rw [List.length_cons] at hm hn
    obtain ⟨m, rfl⟩ := Nat.exists_eq_add_one_of_ne_zero (show m ≠ 0 by omega)
    obtain ⟨n, rfl⟩ := Nat.exists_eq_add_one_of_ne_zero (show n ≠ 0 by omega)
    obtain ⟨k, rfl⟩ := Nat.exists_eq_add_one_of_ne_zero (show n ≠ 0 by omega)
    rw [List.flatMap_cons, List.append_assoc, suffixesDone_cons]
    cases suffix with
    | array size =>
      have hloop : funcOrArrayLoop cx (k + 1 + 1) base { s with
          toks := (DeclSuffix.array size).tokens ++ (suffixes.flatMap DeclSuffix.tokens ++ rest) } =
          suffixesDone cx s rest suffixes (DeclSuffix.parsed cx (.array size) :: base) := by
        change (parsedTypeArray (k + 1) base _).bind _ = _
        rw [parsedTypeArray_suffix]
        exact (ih _ k (k + 1) (by omega) (by omega)).1
      refine ⟨?_, ?_, hloop⟩
      · rw [parsedTypeArray_suffix]
        exact (ih _ m (k + 1 + 1) (by omega) (by omega)).1
      · rw [parsedTypeFunc_stop]
        · exact hloop
        · intro ts hts
          cases hts
    | func params =>
      have hloop : funcOrArrayLoop cx (k + 1 + 1) base { s with
          toks := (DeclSuffix.func params).tokens ++
            (suffixes.flatMap DeclSuffix.tokens ++ rest) } =
          suffixesDone cx s rest suffixes (DeclSuffix.parsed cx (.func params) :: base) := by
        change (parsedTypeFunc cx (k + 1) base _).bind _ = _
        rw [parsedTypeFunc_suffix]
        exact (ih _ k (k + 1) (by omega) (by omega)).2.1
      refine ⟨?_, ?_, hloop⟩
      · rw [parsedTypeArray_stop]
        · exact hloop
        · intro ts hts
          cases hts
      · rw [parsedTypeFunc_suffix]
        exact (ih _ m (k + 1 + 1) (by omega) (by omega)).2.1

/-! ### Pointers -/

/-- A token that goes on with the pointers of a declarator. -/
def DeclToken.leads : DeclToken → Bool
  | .multiply | .xor | .qual _ | .attribute _ => true
  | _ => false

/-- No pointer starts here. -/
def NoPointer (ts : List DeclToken) : Prop := ∀ t ∈ ts.head?, t.leads = false

theorem NoPointer.ne {ts ts' : List DeclToken} {t : DeclToken} (h : NoPointer ts)
    (ht : t.leads = true) : ts ≠ t :: ts' := by
  rintro rfl
  simp [h t rfl] at ht

/-- After the pointers comes the direct declarator. -/
theorem noPointer_core (core : DeclCore) (suffixes : List DeclSuffix) {rest : List DeclToken}
    (hrest : DeclEnds rest) :
    NoPointer (core.tokens ++ suffixes.flatMap DeclSuffix.tokens ++ rest) := by
  intro t ht
  cases core with
  | name spel =>
    cases ht
    rfl
  | paren d =>
    cases ht
    rfl
  | abstract =>
    cases suffixes with
    | nil =>
      have hcont := hrest t ht
      cases t <;> first | rfl | simp [DeclToken.continues] at hcont
    | cons suffix suffixes =>
      cases suffix <;>
      · cases ht
        rfl

theorem ptrSpecs_quals (attr : List AttributeType) (qual : TypeQual) (quals : List TypeQual)
    {ts : List DeclToken} (hq : ∀ q ts', ts ≠ .qual q :: ts')
    (ha : ∀ as ts', ts ≠ .attribute as :: ts') :
    ptrSpecs attr qual (quals.map .qual ++ ts) = (attr, quals.foldl TypeQual.union qual, ts) := by
  induction quals generalizing qual with
  | nil =>
    rw [List.map_nil, List.nil_append]
    unfold ptrSpecs
    split
    · next q ts' => exact absurd rfl (hq q ts')
    · next as ts' => exact absurd rfl (ha as ts')
    · rfl
  | cons q quals ih => exact ih (qual.union q)

/-- One pointer. -/
theorem parsedTypePtr_pointer (cx : DeclContext) (fuel : Nat) (p : Pointer) (s : DeclState)
    {ts : List DeclToken} (hq : ∀ q ts', ts ≠ .qual q :: ts')
    (ha : ∀ as ts', ts ≠ .attribute as :: ts') :
    parsedTypePtr cx (fuel + 1) [] { s with toks := p.tokens ++ ts } =
      (parsedTypePtr cx fuel [] { s with toks := ts }).map fun r => (p.parsed :: r.1, r.2) := by
  have hspecs := ptrSpecs_quals [] .none p.quals hq ha
  obtain ⟨isPtr, quals⟩ := p
  cases isPtr <;>
  · rw [parsedTypePtr]
    simp only [Pointer.tokens, Bool.false_eq_true, if_true, if_false, List.cons_append, hspecs,
      List.append_nil]
    rfl

/-- All pointers of a declarator. -/
theorem parsedTypePtr_pointers (cx : DeclContext) (fuel : Nat) (ptrs : List Pointer)
    (s : DeclState) {ts : List DeclToken} (hts : NoPointer ts) :
    parsedTypePtr cx (fuel + 1 + ptrs.length) []
        { s with toks := ptrs.flatMap Pointer.tokens ++ ts } =
      (parsedTypeFuncOrArray cx fuel [] { s with toks := ts }).map
        fun r => (ptrs.map Pointer.parsed ++ r.1, r.2) := by
  induction ptrs with
  | nil =>
    rw [List.flatMap_nil, List.nil_append, List.length_nil, Nat.add_zero, parsedTypePtr]
    split
    · next ts' hmul => exact absurd hmul (hts.ne rfl)
    · next ts' hxor => exact absurd hxor (hts.ne rfl)
    · simp
  | cons p ptrs ih =>
    rw [List.flatMap_cons, List.append_assoc, List.length_cons, ← Nat.add_assoc,
      parsedTypePtr_pointer, ih, Option.map_map]
    · rfl
    · intro q ts' h
      cases ptrs with
      | nil => exact hts.ne rfl h
      | cons p' ptrs =>
        obtain ⟨isPtr, quals⟩ := p'
        cases isPtr <;> cases h
    · intro as ts' h
      cases ptrs with
      | nil => exact hts.ne rfl h
      | cons p' ptrs =>
        obtain ⟨isPtr, quals⟩ := p'
        cases isPtr <;> cases h

/-! ### Whole declarators -/

/-- A typedef is named right at the start. -/
def Declarator.startsTypedef (cx : DeclContext) : Declarator → Bool
  | .mk [] (.name spel) _ => cx.atTdef spel
  | _ => false

mutual

/-- A typedef is named right after an open parenthesis. -/
def Declarator.shadows (cx : DeclContext) : Declarator → Bool
  | .mk _ core _ => core.shadows cx

def DeclCore.shadows (cx : DeclContext) : DeclCore → Bool
  | .paren d => d.startsTypedef cx || d.shadows cx
  | _ => false

end

/-- The context allows for a declarator with this name, or without one. -/
def DeclContext.Admits (cx : DeclContext) (name : Option Nat) : Prop :=
  if name.isSome then cx.dfor = true else cx.spelNeed = false

/-- The first token of a declarator in parentheses. -/
theorem Declarator.tokens_head {cx : DeclContext} {d : Declarator} (hne : d.tokens.isEmpty = false)
    (htdef : d.startsTypedef cx = false) (b : Bool) (rest : List DeclToken) :
    parseAtDecl cx b (d.tokens ++ rest) = false ∧ atCloseParen (d.tokens ++ rest) = false ∧
      parseAddAttr [] (d.tokens ++ rest) = ([], d.tokens ++ rest) := by
  obtain ⟨ptrs, core, suffixes⟩ := d
  cases ptrs with
  | cons p ptrs =>
    obtain ⟨isPtr, quals⟩ := p
    cases isPtr <;> exact ⟨rfl, rfl, rfl⟩
  | nil =>
    cases core with
    | name spel => exact ⟨htdef, rfl, rfl⟩
    | paren d => exact ⟨rfl, rfl, rfl⟩
    | abstract =>
      cases suffixes with
      | nil => cases hne
      | cons suffix suffixes => cases suffix <;> exact ⟨rfl, rfl, rfl⟩

/-- No identifier, and no declarator in parentheses. -/
theorem parsedTypeNest_abstract (cx : DeclContext) (fuel : Nat) (base : List TypeParsed)
    (s : DeclState) (hneed : cx.spelNeed = false) (suffixes : List DeclSuffix)
    (hnames : suffixes.all (!·.isNames) = true) {rest : List DeclToken} (hrest : DeclEnds rest)
    (hs : s.toks = suffixes.flatMap DeclSuffix.tokens ++ rest) :
    parsedTypeNest cx (fuel + 1) base s = some (base, s) := by
  unfold parsedTypeNest
  rw [hs]
  cases suffixes with
  | nil =>
    rw [List.flatMap_nil, List.nil_append]
    split
    · exact absurd rfl (hrest.ne rfl)
    · exact absurd rfl (hrest.ne rfl)
    · rw [hneed]
      rfl
  | cons suffix suffixes =>
    cases suffix with
    | array size =>
      change some (base, if cx.spelNeed then _ else s) = _
      rw [hneed]
      rfl
    | func params =>
      cases params with
      | none => exact if_pos (Bool.or_true _)
      | types args => rfl
      | names args => cases hnames

theorem length_le_flatMap {α β : Type} {f : α → List β} (hf : ∀ a, f a ≠ []) (l : List α) :
    l.length ≤ (l.flatMap f).length := by
  induction l with
  | nil => exact Nat.le_refl 0
  | cons a l ih =>
    have := List.length_pos_of_ne_nil (hf a)
    rw [List.flatMap_cons, List.length_append, List.length_cons]
    omega

theorem Pointer.tokens_ne_nil (p : Pointer) : p.tokens ≠ [] := List.cons_ne_nil _ _

theorem DeclSuffix.tokens_ne_nil (s : DeclSuffix) : s.tokens ≠ [] := by
  cases s <;> exact List.cons_ne_nil _ _

/-- The parser of a declarator, cut where the pointers end, where the direct
declarator ends, and where the suffixes end. -/
theorem Declarator.parsedTypePtr_split (cx : DeclContext) {ptrs : List Pointer} {core : DeclCore}
    {suffixes : List DeclSuffix} {rest : List DeclToken} (hrest : DeclEnds rest) (s : DeclState)
    {fuel : Nat} (hfuel : 4 * (Declarator.mk ptrs core suffixes).tokens.length + 8 ≤ fuel) :
    ∃ g, 4 * core.tokens.length + 1 ≤ g ∧ suffixes.length + 1 < g ∧
      parsedTypePtr cx fuel []
          { s with toks := (Declarator.mk ptrs core suffixes).tokens ++ rest } =
        ((parsedTypeNest cx g [] { s with
            toks := core.tokens ++ (suffixes.flatMap DeclSuffix.tokens ++ rest) }).bind fun r =>
          funcOrArrayLoop cx g r.1 r.2).map fun r => (ptrs.map Pointer.parsed ++ r.1, r.2) := by
  have hptrs := length_le_flatMap Pointer.tokens_ne_nil ptrs
  have hsuffixes := length_le_flatMap DeclSuffix.tokens_ne_nil suffixes
  simp only [Declarator.tokens, List.length_append] at hfuel
  obtain ⟨g, rfl⟩ : ∃ g, fuel = g + 1 + 1 + ptrs.length := ⟨fuel - ptrs.length - 2, by omega⟩
  refine ⟨g, by omega, by omega, ?_⟩
  rw [Declarator.tokens, List.append_assoc,
    parsedTypePtr_pointers cx (g + 1) ptrs s (noPointer_core core suffixes hrest),
    List.append_assoc, parsedTypeFuncOrArray]

mutual

/-- The list that the parser makes of a declarator that shadows no typedef. -/
theorem Declarator.parsedTypePtr_eq {cx : DeclContext} : ∀ (d : Declarator)
    (_ : d.generated = true) (_ : d.shadows cx = false) (_ : cx.Admits d.name)
    {rest : List DeclToken} (_ : DeclEnds rest) (s : DeclState) (fuel : Nat)
    (_ : 4 * d.tokens.length + 8 ≤ fuel),
    parsedTypePtr cx fuel [] { s with toks := d.tokens ++ rest } =
      some (d.parsed cx, { s with toks := rest, spel := d.name.or s.spel })
  | .mk ptrs core suffixes, hgen, hshadow, hadmits, rest, hrest, s, fuel, hfuel => by
    rw [Declarator.generated, Bool.and_eq_true, Bool.or_eq_true] at hgen
    obtain ⟨g, hcore, hsuffixes, hsplit⟩ := Declarator.parsedTypePtr_split cx hrest s hfuel
    have hnest := core.parsedTypeNest_eq hgen.2 hshadow hadmits suffixes hgen.1 hrest s g hcore
    have hloop := (suffixes_parsed cx hrest { s with spel := core.spel.or s.spel } suffixes
      (core.parsed cx) g g (by omega) hsuffixes).2.2
    rw [hsplit, hnest, Option.bind_some, hloop]
    rfl

theorem DeclCore.parsedTypeNest_eq {cx : DeclContext} : ∀ (core : DeclCore)
    (_ : core.generated = true) (_ : core.shadows cx = false) (_ : cx.Admits core.spel)
    (suffixes : List DeclSuffix)
    (_ : core.spel.isSome = true ∨ suffixes.all (!·.isNames) = true)
    {rest : List DeclToken} (_ : DeclEnds rest) (s : DeclState) (fuel : Nat)
    (_ : 4 * core.tokens.length + 1 ≤ fuel),
    parsedTypeNest cx fuel []
        { s with toks := core.tokens ++ (suffixes.flatMap DeclSuffix.tokens ++ rest) } =
      some (core.parsed cx,
        { s with toks := suffixes.flatMap DeclSuffix.tokens ++ rest, spel := core.spel.or s.spel })
  | .name spel, _, _, hadmits, suffixes, _, rest, _, s, fuel + 1, _ => by
    exact if_pos hadmits
  | .abstract, _, _, hadmits, suffixes, hnames, rest, hrest, s, fuel + 1, _ => by
    have hnames := hnames.resolve_left (by simp [DeclCore.spel])
    exact parsedTypeNest_abstract cx fuel [] _ hadmits suffixes hnames hrest rfl
  | .paren d, hgen, hshadow, hadmits, suffixes, _, rest, hrest, s, fuel + 1, hfuel => by
    rw [DeclCore.generated, Bool.and_eq_true, Bool.not_eq_true'] at hgen
    rw [DeclCore.shadows, Bool.or_eq_false_iff] at hshadow
    have hsub := d.parsedTypePtr_eq hgen.2 hshadow.2 hadmits
      (declEnds_closeParen (suffixes.flatMap DeclSuffix.tokens ++ rest)) s fuel (by
        simp only [DeclCore.tokens, List.length_cons, List.length_append, List.length_nil] at hfuel
        omega)
    obtain ⟨hdecl, hclose, hattr⟩ := Declarator.tokens_head hgen.1 hshadow.1 (!cx.dfor)
      (.closeParen :: (suffixes.flatMap DeclSuffix.tokens ++ rest))
    have htoks : (DeclCore.paren d).tokens ++ (suffixes.flatMap DeclSuffix.tokens ++ rest) =
        .openParen ::
          (d.tokens ++ .closeParen :: (suffixes.flatMap DeclSuffix.tokens ++ rest)) := by
      simp [DeclCore.tokens]
    rw [htoks, parsedTypeNest]
    simp only [hdecl, hclose, hattr, hsub, Bool.or_self, Bool.false_eq_true, if_false,
      Option.map_some]
    rfl

end

/-! ### Typedefs after a parenthesis -/

theorem eatCloseParen_spel (s : DeclState) : (eatCloseParen s).spel = s.spel := by
  unfold eatCloseParen
  split <;> rfl

theorem eatCloseSquare_spel (s : DeclState) : (eatCloseSquare s).spel = s.spel := by
  unfold eatCloseSquare
  split <;> rfl

theorem arraySize_spel {s s' : DeclState} {size : Option SizeExpr} {vlaKind : VlaKind}
    (h : arraySize s = some (size, vlaKind, s')) : s'.spel = s.spel := by
  unfold arraySize at h
  split at h
  · cases h
    rfl
  · cases h
    rfl
  · rw [Option.map_eq_some_iff] at h
    obtain ⟨⟨kind, ts⟩, -, h⟩ := h
    cases kind <;>
    · cases h
      exact eatCloseSquare_spel _

theorem parsedTypeArray_spel {fuel : Nat} {base parsed : List TypeParsed} {s s' : DeclState}
    (h : parsedTypeArray fuel base s = some (parsed, s')) : s'.spel = s.spel := by
  induction fuel generalizing base s with
  | zero => cases h
  | succ fuel ih =>
    unfold parsedTypeArray at h
    split at h
    · rw [Option.bind_eq_some_iff] at h
      obtain ⟨⟨size, vlaKind, s₁⟩, hsize, h⟩ := h
      dsimp only at h
      split at h
      · cases h
      · have hspel := arraySize_spel hsize
        exact (ih h).trans hspel
    · cases h
      rfl

theorem parsedTypeFunc_spel {cx : DeclContext} {fuel : Nat} {base parsed : List TypeParsed}
    {s s' : DeclState} (h : parsedTypeFunc cx fuel base s = some (parsed, s')) :
    s'.spel = s.spel := by
  induction fuel generalizing base s with
  | zero => cases h
  | succ fuel ih =>
    unfold parsedTypeFunc at h
    split at h
    · rw [Option.bind_eq_some_iff] at h
      obtain ⟨⟨args, ts⟩, -, h⟩ := h
      exact (ih h).trans (eatCloseParen_spel _)
    · cases h
      rfl

/-- Suffixes name nothing, whatever they are. -/
theorem funcOrArrayLoop_spel {cx : DeclContext} {fuel : Nat} {base parsed : List TypeParsed}
    {s s' : DeclState} (h : funcOrArrayLoop cx fuel base s = some (parsed, s')) :
    s'.spel = s.spel := by
  induction fuel generalizing base s with
  | zero => cases h
  | succ fuel ih =>
    unfold funcOrArrayLoop at h
    split at h
    · rw [Option.bind_eq_some_iff] at h
      obtain ⟨⟨p₁, s₁⟩, hfunc, h⟩ := h
      exact (ih h).trans (parsedTypeFunc_spel hfunc)
    · rw [Option.bind_eq_some_iff] at h
      obtain ⟨⟨p₁, s₁⟩, harray, h⟩ := h
      exact (ih h).trans (parsedTypeArray_spel harray)
    · cases h
      rfl

mutual

/-- A declarator that shadows a typedef names nothing. -/
theorem Declarator.spel_of_shadows {cx : DeclContext} : ∀ (d : Declarator)
    (_ : d.generated = true) (_ : d.shadows cx = true) {rest : List DeclToken}
    (_ : DeclEnds rest) (s : DeclState) (fuel : Nat) (_ : 4 * d.tokens.length + 8 ≤ fuel)
    (parsed : List TypeParsed) (s' : DeclState),
    parsedTypePtr cx fuel [] { s with toks := d.tokens ++ rest } = some (parsed, s') →
      s'.spel = s.spel
  | .mk ptrs core suffixes, hgen, hshadow, rest, hrest, s, fuel, hfuel, parsed, s', h => by
    rw [Declarator.generated, Bool.and_eq_true] at hgen
    obtain ⟨g, hcore, -, hsplit⟩ := Declarator.parsedTypePtr_split cx hrest s hfuel
    rw [hsplit, Option.map_eq_some_iff] at h
    obtain ⟨⟨p₁, s₁⟩, h, heq⟩ := h
    rw [Option.bind_eq_some_iff] at h
    obtain ⟨⟨p₂, s₂⟩, hnest, hloop⟩ := h
    obtain rfl : s₁ = s' := (Prod.mk.inj heq).2
    rw [funcOrArrayLoop_spel hloop]
    exact core.spel_of_shadows hgen.2 hshadow _ s g hcore p₂ s₂ hnest

theorem DeclCore.spel_of_shadows {cx : DeclContext} : ∀ (core : DeclCore)
    (_ : core.generated = true) (_ : core.shadows cx = true) (ts : List DeclToken)
    (s : DeclState) (fuel : Nat) (_ : 4 * core.tokens.length + 1 ≤ fuel)
    (parsed : List TypeParsed) (s' : DeclState),
    parsedTypeNest cx fuel [] { s with toks := core.tokens ++ ts } = some (parsed, s') →
      s'.spel = s.spel
  | .paren d, hgen, hshadow, ts, s, fuel + 1, hfuel, parsed, s', h => by
    rw [DeclCore.generated, Bool.and_eq_true, Bool.not_eq_true'] at hgen
    have htoks : (DeclCore.paren d).tokens ++ ts =
        .openParen :: (d.tokens ++ .closeParen :: ts) := by
      simp [DeclCore.tokens]
    rw [htoks, parsedTypeNest] at h
    by_cases htdef : d.startsTypedef cx = true
    · -- the parenthesis is taken for that of a function
      have hdecl : parseAtDecl cx (!cx.dfor) (d.tokens ++ .closeParen :: ts) = true := by
        obtain ⟨ptrs, core, suffixes⟩ := d
        cases ptrs with
        | cons p ptrs => cases htdef
        | nil =>
          cases core with
          | name spel => exact htdef
          | abstract => cases htdef
          | paren d => cases htdef
      simp only [hdecl, Bool.true_or, if_true, Option.some.injEq, Prod.mk.injEq] at h
      rw [← h.2]
    · rw [Bool.not_eq_true] at htdef
      rw [DeclCore.shadows, htdef, Bool.false_or] at hshadow
      obtain ⟨hdecl, hclose, hattr⟩ := Declarator.tokens_head hgen.1 htdef (!cx.dfor)
        (.closeParen :: ts)
      simp only [hdecl, hclose, hattr, Bool.or_self, Bool.false_eq_true, if_false,
        Option.map_eq_some_iff] at h
      obtain ⟨⟨p₁, s₁⟩, hsub, heq⟩ := h
      rw [← (Prod.mk.inj heq).2, eatCloseParen_spel]
      refine d.spel_of_shadows hgen.2 hshadow (declEnds_closeParen ts) s fuel ?_ p₁ s₁ hsub
      simp only [DeclCore.tokens, List.length_cons, List.length_append, List.length_nil] at hfuel
      omega
  | .name _, _, hshadow, _, _, _, _, _, _, _ => by cases hshadow
  | .abstract, _, hshadow, _, _, _, _, _, _, _ => by cases hshadow

end

mutual

theorem Declarator.name_of_shadows {cx : DeclContext} : ∀ (d : Declarator),
    d.shadows cx = true → d.name.isSome = true
  | .mk _ core _, h => core.spel_isSome_of_shadows h

theorem DeclCore.spel_isSome_of_shadows {cx : DeclContext} : ∀ (core : DeclCore),
    core.shadows cx = true → core.spel.isSome = true
  | .paren d, h => by
    rw [DeclCore.shadows, Bool.or_eq_true] at h
    rcases h with h | h
    · obtain ⟨ptrs, core, suffixes⟩ := d
      cases ptrs with
      | cons p ptrs => cases h
      | nil =>
        cases core with
        | name spel => rfl
        | abstract => cases h
        | paren d => cases h
    · exact d.name_of_shadows h
  | .name _, h => by cases h
  | .abstract, h => by cases h

end

/-! ## What the types become -/

@[simp] theorem TypeQual.union_none (q : TypeQual) : q.union .none = q := by
  simp [TypeQual.union, TypeQual.none]

@[simp] theorem TypeQual.none_union (q : TypeQual) : TypeQual.none.union q = q := by
  simp [TypeQual.union, TypeQual.none]

theorem CType.mk_eta (t : CType) : CType.mk t.qual t.shape = t := by
  cases t
  rfl

@[simp] theorem Ty.ctype_qual : ∀ t : Ty, t.ctype.qual = t.qual
  | .tdef _ _ t => t.ctype_qual
  | .cast q t => congrArg q.union t.ctype_qual
  | .attr _ t => t.ctype_qual
  | .whereAt t => t.ctype_qual
  | .btype _ | .ptr _ | .block _ | .func .. | .array .. => rfl

/-- What is below the qualifiers of a type has its shape. -/
theorem Ty.ctype_skipAll : ∀ t : Ty, t.skipAll.ctype = t.ctype.unqualified
  | .tdef _ _ t => t.ctype_skipAll
  | .cast _ t => t.ctype_skipAll
  | .attr _ t => t.ctype_skipAll
  | .whereAt t => t.ctype_skipAll
  | .btype _ | .ptr _ | .block _ | .func .. | .array .. => rfl

@[simp] theorem Ty.ctype_atWhere : ∀ t : Ty, t.atWhere.ctype = t.ctype
  | .whereAt t => t.ctype_atWhere
  | .btype _ | .tdef .. | .ptr _ | .block _ | .func .. | .array .. | .cast .. | .attr .. => rfl

@[simp] theorem Ty.ctype_attributed (t : Ty) (attrs : List AttributeType) :
    (t.attributed attrs).ctype = t.ctype := by
  unfold Ty.attributed
  split <;> rfl

/-- Qualifying what has no qualifiers. -/
theorem Ty.ctype_qualify3 {t : Ty} {q : TypeQual} (ht : t.qual = .none) :
    (t.qualify3 q false).ctype = .mk q t.ctype.shape := by
  rw [Ty.qualify3]
  simp only [ht]
  split
  · next hq =>
    rw [hq, ← ht, ← Ty.ctype_qual, CType.mk_eta]
  · rw [if_neg (by simp)]
    simp [Ty.ctype, ht]

/-- The type is not an array with qualifiers of its own, as `type_qualify` gives
these to the elements. -/
def Ty.ArrayUnqualified (t : Ty) : Prop :=
  ∀ size vlaKind ref, t.skipAll = .array size vlaKind ref → t.qual = .none

theorem Ty.unqualifyLoop_concrete : ∀ (t : Ty) (acc : List AttributeType) (r : Option Ty)
    (p : Bool), (t.unqualifyLoop acc r p).concrete = t.skipAll
  | .tdef _ _ t, acc, r, p => t.unqualifyLoop_concrete acc r p
  | .cast q t, acc, r, p => by
    unfold Ty.unqualifyLoop
    split
    · exact t.unqualifyLoop_concrete acc _ true
    · exact t.unqualifyLoop_concrete acc r false
  | .attr attrs t, acc, r, p => t.unqualifyLoop_concrete (acc ++ attrs) r p
  | .whereAt t, acc, r, p => t.unqualifyLoop_concrete acc r p
  | .btype _, _, _, _ | .ptr _, _, _, _ | .block _, _, _, _ | .func .., _, _, _
  | .array .., _, _, _ => rfl

/-- With `restrict` among the qualifiers, a type that has it is kept. -/
theorem Ty.unqualifyLoop_restrict : ∀ (t : Ty) (acc : List AttributeType) (r : Option Ty)
    (p : Bool),
    if t.qual.restrict then
      ∃ t', (t.unqualifyLoop acc r p).tRestrict = some t' ∧ t'.qual.restrict = true ∧
        t'.ctype.shape = t.ctype.shape
    else (t.unqualifyLoop acc r p).tRestrict = r
  | .tdef _ _ t, acc, r, p => t.unqualifyLoop_restrict acc r p
  | .cast q t, acc, r, p => by
    unfold Ty.unqualifyLoop
    cases hq : q.restrict with
    | true =>
      have hih := t.unqualifyLoop_restrict acc (some (.cast q t)) true
      have hqual : (Ty.cast q t).qual.restrict = true := by simp [Ty.qual, TypeQual.union, hq]
      rw [if_pos hqual, if_pos rfl]
      split at hih
      · exact hih
      · exact ⟨_, hih, hqual, rfl⟩
    | false =>
      have hih := t.unqualifyLoop_restrict acc r false
      have hqual : (Ty.cast q t).qual.restrict = t.qual.restrict := by
        simp [Ty.qual, TypeQual.union, hq]
      rw [hqual, if_neg Bool.false_ne_true]
      exact hih
  | .attr attrs t, acc, r, p => t.unqualifyLoop_restrict (acc ++ attrs) r p
  | .whereAt t, acc, r, p => t.unqualifyLoop_restrict acc r p
  | .btype _, _, _, _ | .ptr _, _, _, _ | .block _, _, _, _ | .func .., _, _, _
  | .array .., _, _, _ => rfl

theorem Ty.skipAll_qual : ∀ t : Ty, t.skipAll.qual = .none
  | .tdef _ _ t => t.skipAll_qual
  | .cast _ t => t.skipAll_qual
  | .attr _ t => t.skipAll_qual
  | .whereAt t => t.skipAll_qual
  | .btype _ | .ptr _ | .block _ | .func .. | .array .. => rfl

theorem Ty.skipAll_skipAll : ∀ t : Ty, t.skipAll.skipAll = t.skipAll
  | .tdef _ _ t => t.skipAll_skipAll
  | .cast _ t => t.skipAll_skipAll
  | .attr _ t => t.skipAll_skipAll
  | .whereAt t => t.skipAll_skipAll
  | .btype _ | .ptr _ | .block _ | .func .. | .array .. => rfl

/-- Without `restrict`, no qualifier is left. -/
theorem Ty.ctype_unqualify {t : Ty} (hr : t.qual.restrict = false) :
    t.unqualify.ctype = t.ctype.unqualified := by
  have hloop := t.unqualifyLoop_restrict [] none false
  rw [hr, if_neg Bool.false_ne_true] at hloop
  unfold Ty.unqualify
  simp only [Ty.ctype_attributed, hloop, t.unqualifyLoop_concrete [] none false]
  exact t.ctype_skipAll

/-- `restrict` is left, on the same shape. -/
theorem Ty.ctype_unqualify_of_restrict {t : Ty} (harray : t.ArrayUnqualified)
    (hr : t.qual.restrict = true) :
    t.unqualify.ctype.shape = t.ctype.shape ∧ t.unqualify.ctype.qual.restrict = true := by
  have hloop := t.unqualifyLoop_restrict [] none false
  rw [if_pos hr] at hloop
  obtain ⟨t', hsome, hrestrict, hshape⟩ := hloop
  unfold Ty.unqualify
  simp only [Ty.ctype_attributed, hsome, t.unqualifyLoop_concrete [] none false]
  split
  · rw [Ty.ctype_qual]
    exact ⟨hshape, hrestrict⟩
  · -- `restrict` alone is put back, and not on the elements of an array
    have hcast : t.skipAll.qualify3 ⟨false, false, true⟩ true =
        .cast ⟨false, false, true⟩ t.skipAll := by
      rw [Ty.qualify3]
      simp only [Ty.skipAll_qual, TypeQual.diff_none]
      rw [if_neg (by decide), if_neg (by simp), if_pos trivial]
      split
      · next size vlaKind ref hcase =>
        rw [Ty.skipAll_skipAll] at hcase
        rw [harray size vlaKind ref hcase] at hr
        cases hr
      · rfl
    rw [hcast]
    refine ⟨?_, rfl⟩
    change t.skipAll.ctype.shape = _
    rw [t.ctype_skipAll]
    rfl

/-! ## The fold over the nodes -/

/-- What a node makes of a type, by the reading. -/
def TypeParsed.reading (t : CType) : TypeParsed → CType
  | .ptr isPtr _ qual => .mk qual (.ptr isPtr t)
  | .array size qual _ vlaKind => .mk qual (.array size vlaKind t)
  | .func args => .mk .none (.func args t.unqualified)
  | .attr _ => t

theorem foldl_pointer_reading (ptrs : List Pointer) (t : CType) :
    (ptrs.map Pointer.parsed).foldl TypeParsed.reading t = ptrs.foldl Pointer.wrap t := by
  rw [List.foldl_map]
  rfl

theorem foldl_suffix_reading (cx : DeclContext) (suffixes : List DeclSuffix) (t : CType) :
    (suffixes.map (DeclSuffix.parsed cx)).reverse.foldl TypeParsed.reading t =
      suffixes.foldr (fun s t => s.wrap cx t) t := by
  rw [List.foldl_reverse, List.foldr_map]
  congr 1
  funext s t
  cases s <;> rfl

mutual

/-- The nodes, in the order of the list, make the type of the reading. -/
theorem Declarator.reading_eq (cx : DeclContext) : ∀ (d : Declarator) (t : CType),
    d.reading cx t = (d.parsed cx).foldl TypeParsed.reading t
  | .mk ptrs core suffixes, t => by
    rw [Declarator.reading, Declarator.parsed, List.foldl_append, List.foldl_append,
      foldl_pointer_reading, foldl_suffix_reading, core.reading_eq cx]

theorem DeclCore.reading_eq (cx : DeclContext) : ∀ (core : DeclCore) (t : CType),
    core.reading cx t = (core.parsed cx).foldl TypeParsed.reading t
  | .name _, _ => rfl
  | .abstract, _ => rfl
  | .paren d, t => d.reading_eq cx t

end

/-- The qualifiers that a node gives. -/
def TypeParsed.qual : TypeParsed → TypeQual
  | .ptr _ _ qual => qual
  | .array _ qual _ _ => qual
  | _ => .none

/-- Whether some function of the nodes returns a type that is qualified with
`restrict`; `r` says whether the type that is wrapped first is. -/
def returnsRestrict (r : Bool) : List TypeParsed → Bool
  | [] => false
  | .func _ :: l => r || returnsRestrict false l
  | node :: l => returnsRestrict node.qual.restrict l

/-- A node of a declarator of the grammar. -/
def TypeParsed.plain : TypeParsed → Bool
  | .ptr _ _ _ => true
  | .func _ => true
  | .array _ qual _ _ => qual = .none
  | .attr _ => false

mutual

theorem Declarator.parsed_plain (cx : DeclContext) : ∀ (d : Declarator),
    ∀ node ∈ d.parsed cx, node.plain = true
  | .mk ptrs core suffixes => by
    intro node hnode
    rw [Declarator.parsed, List.mem_append, List.mem_append, List.mem_reverse] at hnode
    rcases hnode with hnode | hnode | hnode
    · obtain ⟨p, -, rfl⟩ := List.mem_map.1 hnode
      rfl
    · obtain ⟨s, -, rfl⟩ := List.mem_map.1 hnode
      cases s <;> simp [DeclSuffix.parsed, TypeParsed.plain]
    · exact core.parsed_plain cx node hnode

theorem DeclCore.parsed_plain (cx : DeclContext) : ∀ (core : DeclCore),
    ∀ node ∈ core.parsed cx, node.plain = true
  | .name _ => by simp [DeclCore.parsed]
  | .abstract => by simp [DeclCore.parsed]
  | .paren d => d.parsed_plain cx

end

/-- The type that a function is given to return has the shape it had. -/
theorem createFunc_shape {ty : Ty} (harray : ty.ArrayUnqualified) :
    (if ty.qual = .none then ty else ty.unqualify).ctype.shape = ty.ctype.shape := by
  split
  · rfl
  · cases hr : ty.qual.restrict with
    | false =>
      rw [Ty.ctype_unqualify hr]
      rfl
    | true => exact (Ty.ctype_unqualify_of_restrict harray hr).1

/-- It has no qualifiers, if `restrict` was not one. -/
theorem createFunc_unqualified {ty : Ty} (hr : ty.qual.restrict = false) :
    (if ty.qual = .none then ty else ty.unqualify).ctype = ty.ctype.unqualified := by
  split
  · next hnone =>
    rw [CType.unqualified, ← hnone, ← Ty.ctype_qual, CType.mk_eta]
  · exact Ty.ctype_unqualify hr

theorem createFunc_restrict {ty : Ty} (harray : ty.ArrayUnqualified)
    (hr : ty.qual.restrict = true) :
    (if ty.qual = .none then ty else ty.unqualify).ctype ≠ ty.ctype.unqualified := by
  rw [if_neg (by
    intro hnone
    rw [hnone] at hr
    cases hr)]
  intro h
  have := (Ty.ctype_unqualify_of_restrict harray hr).2
  rw [h] at this
  cases this

theorem wrapParsed_ctype {ty : Ty} {node : TypeParsed} (hplain : node.plain = true)
    (hfunc : ∀ args, node = .func args → ty.qual.restrict = false) :
    (wrapParsed ty node).ctype = node.reading ty.ctype := by
  cases node with
  | ptr isPtr attr qual =>
    cases isPtr <;> exact Ty.ctype_qualify3 rfl
  | array size qual isStatic vlaKind => exact Ty.ctype_qualify3 rfl
  | func args =>
    rw [wrapParsed, Ty.ctype_atWhere]
    simp only [createFuncTypeStrippingRetQuals, Ty.ctype, TypeParsed.reading,
      createFunc_unqualified (hfunc args rfl)]
  | attr attr => cases hplain

theorem wrapParsed_shape {ty : Ty} {node : TypeParsed} (hplain : node.plain = true) :
    (∀ args, node ≠ .func args) → (wrapParsed ty node).ctype = node.reading ty.ctype := by
  intro h
  exact wrapParsed_ctype hplain fun args hargs => absurd hargs (h args)

theorem wrapParsed_qual {ty : Ty} {node : TypeParsed} (hplain : node.plain = true) :
    (wrapParsed ty node).qual = node.qual := by
  rw [← Ty.ctype_qual]
  cases node with
  | ptr isPtr attr qual => exact congrArg CType.qual (wrapParsed_shape hplain (by simp))
  | array size qual isStatic vlaKind =>
    exact congrArg CType.qual (wrapParsed_shape hplain (by simp))
  | func args =>
    rw [wrapParsed, Ty.ctype_atWhere]
    rfl
  | attr attr => cases hplain

theorem wrapParsed_arrayUnqualified {ty : Ty} {node : TypeParsed} (hplain : node.plain = true) :
    (wrapParsed ty node).ArrayUnqualified := by
  intro size vlaKind ref hskip
  rw [wrapParsed_qual hplain]
  cases node with
  | ptr isPtr attr qual =>
    have hshape := (wrapParsed ty (.ptr isPtr attr qual)).ctype_skipAll
    rw [hskip, wrapParsed_shape hplain (by simp)] at hshape
    cases hshape
  | array size qual isStatic vlaKind => simpa [TypeParsed.plain, TypeParsed.qual] using hplain
  | func args => rfl
  | attr attr => cases hplain

/-- Types that differ below their qualifiers are never made the same. -/
theorem wrapParsed_shape_ne {ty : Ty} {t : CType} {node : TypeParsed}
    (hplain : node.plain = true) (harray : ty.ArrayUnqualified)
    (h : ty.ctype.shape ≠ t.shape) :
    (wrapParsed ty node).ctype.shape ≠ (node.reading t).shape := by
  cases node with
  | ptr isPtr attr qual =>
    rw [wrapParsed_shape hplain (by simp)]
    intro heq
    simp only [TypeParsed.reading, CType.shape, CShape.ptr.injEq] at heq
    exact h (congrArg CType.shape heq.2)
  | array size qual isStatic vlaKind =>
    rw [wrapParsed_shape hplain (by simp)]
    intro heq
    simp only [TypeParsed.reading, CType.shape, CShape.array.injEq] at heq
    exact h (congrArg CType.shape heq.2.2)
  | func args =>
    rw [wrapParsed, Ty.ctype_atWhere]
    intro heq
    simp only [createFuncTypeStrippingRetQuals, Ty.ctype, TypeParsed.reading, CType.shape,
      CShape.func.injEq] at heq
    have hshape := congrArg CType.shape heq.2
    rw [createFunc_shape harray] at hshape
    exact h hshape
  | attr attr => cases hplain

theorem foldl_shape_ne {nodes : List TypeParsed} (hplain : ∀ node ∈ nodes, node.plain = true)
    {ty : Ty} {t : CType} (harray : ty.ArrayUnqualified) (h : ty.ctype.shape ≠ t.shape) :
    (nodes.foldl wrapParsed ty).ctype.shape ≠ (nodes.foldl TypeParsed.reading t).shape := by
  induction nodes generalizing ty t with
  | nil => exact h
  | cons node nodes ih =>
    have hnode := hplain node (List.mem_cons_self ..)
    exact ih (fun n hn => hplain n (List.mem_cons_of_mem _ hn)) (wrapParsed_arrayUnqualified hnode)
      (wrapParsed_shape_ne hnode harray h)

/-- The fold makes the type of the reading if and only if no function returns a type
qualified with `restrict`. -/
theorem foldl_ctype_iff {nodes : List TypeParsed} (hplain : ∀ node ∈ nodes, node.plain = true)
    {ty : Ty} (harray : ty.ArrayUnqualified) :
    (nodes.foldl wrapParsed ty).ctype = nodes.foldl TypeParsed.reading ty.ctype ↔
      returnsRestrict ty.qual.restrict nodes = false := by
  induction nodes generalizing ty with
  | nil => simp [returnsRestrict]
  | cons node nodes ih =>
    have hnode := hplain node (List.mem_cons_self ..)
    have hrest := fun n hn => hplain n (List.mem_cons_of_mem node hn)
    have hstep := ih hrest (@wrapParsed_arrayUnqualified ty node hnode)
    rw [wrapParsed_qual hnode] at hstep
    rw [List.foldl_cons, List.foldl_cons]
    cases node with
    | ptr isPtr attr qual =>
      rw [← wrapParsed_shape hnode (by simp)]
      exact hstep
    | array size qual isStatic vlaKind =>
      rw [← wrapParsed_shape hnode (by simp)]
      exact hstep
    | func args =>
      rw [returnsRestrict]
      cases hr : ty.qual.restrict with
      | false =>
        rw [← wrapParsed_ctype hnode fun _ _ => hr, Bool.false_or]
        exact hstep
      | true =>
        rw [Bool.true_or]
        refine iff_of_false ?_ (by simp)
        intro heq
        refine foldl_shape_ne hrest (wrapParsed_arrayUnqualified hnode) ?_
          (congrArg CType.shape heq)
        rw [wrapParsed, Ty.ctype_atWhere]
        intro hshape
        simp only [createFuncTypeStrippingRetQuals, Ty.ctype, TypeParsed.reading, CType.shape,
          CShape.func.injEq] at hshape
        exact createFunc_restrict harray hr hshape.2
    | attr attr => cases hnode

/-! ## Declarators of the grammar -/

/-- A declarator that the grammar generates. -/
structure CDeclarator where
  decl : Declarator
  generated : decl.generated = true

/-- A type that declaration specifiers make: `type_qualify` gives the qualifiers of
an array to its elements. -/
structure DeclBase where
  ty : Ty
  arrayUnqualified : ty.ArrayUnqualified

/-- The parser takes the declarator and no more, and finds its name and the type of
its reading. -/
def ReadsAs (cx : DeclContext) (d : CDeclarator) (base : DeclBase) (rest : List DeclToken) :
    Prop :=
  ∃ ty, parseTypeDeclaratorToType cx base.ty ⟨d.decl.tokens ++ rest, none, false⟩ =
      some (ty, ⟨rest, d.decl.name, false⟩) ∧
    ty.ctype = d.decl.reading cx base.ty.ctype

/-- The type that the parser returns, where it takes no parenthesis for that of a
function. -/
theorem parseTypeDeclaratorToType_eq (cx : DeclContext) (d : CDeclarator) (base : Ty)
    {rest : List DeclToken} (hrest : DeclEnds rest) (hadmits : cx.Admits d.decl.name)
    (hshadow : d.decl.shadows cx = false) :
    ∃ ty, parseTypeDeclaratorToType cx base ⟨d.decl.tokens ++ rest, none, false⟩ =
        some (ty, ⟨rest, d.decl.name, false⟩) ∧
      ty.ctype = ((d.decl.parsed cx).foldl wrapParsed base).ctype := by
  have hparse := d.decl.parsedTypePtr_eq d.generated hshadow hadmits hrest ⟨[], none, false⟩
    (declFuel (d.decl.tokens ++ rest)) (by
      unfold declFuel
      rw [List.length_append]
      omega)
  rw [Option.or_none] at hparse
  refine ⟨if cx.dfor then ((d.decl.parsed cx).foldl wrapParsed base).atWhere
    else (d.decl.parsed cx).foldl wrapParsed base, congrArg (Option.map _) hparse, ?_⟩
  · split
    · exact Ty.ctype_atWhere _
    · rfl

/-- The parser reads a declarator as the grammar does, if and only if no typedef is
named right after an open parenthesis and no function returns a type qualified
with `restrict`. -/
theorem declarator_reads_iff (cx : DeclContext) (d : CDeclarator) (base : DeclBase)
    {rest : List DeclToken} (hrest : DeclEnds rest) (hadmits : cx.Admits d.decl.name) :
    ReadsAs cx d base rest ↔
      d.decl.shadows cx = false ∧
        returnsRestrict base.ty.qual.restrict (d.decl.parsed cx) = false := by
  have hfold := @foldl_ctype_iff (d.decl.parsed cx) (d.decl.parsed_plain cx) base.ty
    base.arrayUnqualified
  rw [← d.decl.reading_eq cx] at hfold
  constructor
  · rintro ⟨ty, hrun, hty⟩
    have hshadow : d.decl.shadows cx = false := by
      by_contra hne
      rw [Bool.not_eq_false] at hne
      unfold parseTypeDeclaratorToType at hrun
      rw [Option.map_eq_some_iff] at hrun
      obtain ⟨⟨parsed, s'⟩, hparse, heq⟩ := hrun
      have hspel := d.decl.spel_of_shadows d.generated hne hrest ⟨[], none, false⟩ _ (by
        unfold declFuel
        rw [List.length_append]
        omega) parsed s' hparse
      have hname := d.decl.name_of_shadows hne
      rw [(Prod.mk.inj heq).2] at hspel
      rw [show d.decl.name = none from hspel] at hname
      cases hname
    obtain ⟨ty', hrun', hty'⟩ :=
      parseTypeDeclaratorToType_eq cx d base.ty hrest hadmits hshadow
    rw [hrun, Option.some.injEq, Prod.mk.injEq] at hrun'
    refine ⟨hshadow, hfold.1 ?_⟩
    rw [← hty', ← hrun'.1, hty]
  · rintro ⟨hshadow, hreturns⟩
    obtain ⟨ty, hrun, hty⟩ := parseTypeDeclaratorToType_eq cx d base.ty hrest hadmits hshadow
    exact ⟨ty, hrun, hty.trans (hfold.2 hreturns)⟩

/-- A declaration at the top of a file, without typedefs. -/
def fileContext : DeclContext where
  dfor := true
  spelNeed := false
  atTdef := fun _ => false
  emptyArgs := ⟨0, false, false, []⟩
  parseArgs := fun _ => none

/-- The specifier `int`. -/
def intBase : DeclBase := ⟨.btype (.prim .int none), fun _ _ _ h => by cases h⟩

theorem declEnds_other (tok : Nat) : DeclEnds [.other tok] := by
  intro t ht
  cases ht
  rfl

/-- `(*const f[])(void)` -/
def constTable : CDeclarator where
  decl := .mk [] (.paren (.mk [⟨true, [⟨true, false, false⟩]⟩] (.name 1) [.array .unspecified]))
    [.func (.types ⟨1, true, false, []⟩)]
  generated := rfl

theorem constTable_reads : ReadsAs fileContext constTable intBase [.other 0] :=
  (declarator_reads_iff fileContext constTable intBase (declEnds_other 0) rfl).2 ⟨rfl, rfl⟩

/-- `*restrict f(void)`: the function is given a type that is still qualified. -/
theorem restrict_return_misread :
    ¬ ∀ (cx : DeclContext) (d : CDeclarator) (base : DeclBase) (rest : List DeclToken),
      DeclEnds rest → cx.Admits d.decl.name → ReadsAs cx d base rest := by
  intro h
  have hends := declEnds_other 0
  let d : CDeclarator := ⟨.mk [⟨true, [⟨false, false, true⟩]⟩] (.name 1)
    [.func (.types ⟨1, true, false, []⟩)], rfl⟩
  obtain ⟨ty, hrun, hty⟩ := h fileContext d intBase [.other 0] hends rfl
  obtain ⟨ty', hrun', hty'⟩ := parseTypeDeclaratorToType_eq fileContext d intBase.ty hends rfl rfl
  rw [hrun, Option.some.injEq, Prod.mk.injEq] at hrun'
  rw [hrun'.1, hty', d.decl.reading_eq fileContext] at hty
  have hfold := (foldl_ctype_iff (d.decl.parsed_plain fileContext) intBase.arrayUnqualified).1 hty
  cases hfold

end Ucc.Cc1
