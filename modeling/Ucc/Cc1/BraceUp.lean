/-
  Cc1/BraceUp.lean --- the initialiser of an object is braced up.

  Source: decl_init_brace_up_r, decl_init_brace_up_aggregate,
  decl_init_brace_up_array_chk_char, decl_init_brace_up_array2,
  decl_init_brace_up_sue2, decl_init_brace_up_scalar, is_char_init, find_desig,
  decl_init_is_const and decl_init_brace_up_start in src/cc1/decl_init.c,
  sue_member_find in src/cc1/sue.c, type_str_type in src/cc1/type.c,
  dynarray_nochk_padinsert in src/util/dynarray.c.

  The expressions of a list are constants or strings for all that is asked of them.
  Left out are ranges of elements, expressions of struct type, flexible arrays and
  warnings.
-/
import Ucc.Cc1.FoldSue

set_option autoImplicit false

namespace Ucc.Cc1.Braces

/-! ## Types and initialisers -/

/-- `enum type_str_type`, `type_str_no` apart. -/
inductive StrKind where
  | char
  | wchar
  deriving DecidableEq

mutual

/-- The type of an object.  A scalar has the kind of string that an array of it holds;
an array without a length is incomplete. -/
inductive InitType where
  | scalar (str : Option StrKind)
  | array (elem : InitType) (len : Option Nat)
  | sue (prim : SuePrimitive) (members : InitMembers)

/-- The members of a struct or a union; `pad` is a bit-field without a name, and a
member without a name is an anonymous struct or union. -/
inductive InitMembers where
  | nil
  | member (spel : Option String) (ref : InitType) (rest : InitMembers)
  | pad (rest : InitMembers)

end

/-- Induction over the types that a type is made of. -/
theorem InitType.induct {P : InitType → Prop} {Q : InitMembers → Prop}
    (scalar : ∀ k, P (.scalar k)) (array : ∀ elem len, P elem → P (.array elem len))
    (sue : ∀ prim ms, Q ms → P (.sue prim ms)) (nil : Q .nil)
    (member : ∀ spel ref rest, P ref → Q rest → Q (.member spel ref rest))
    (pad : ∀ rest, Q rest → Q (.pad rest)) (t : InitType) : P t :=
  @InitType.rec P Q scalar array sue nil member pad t

/-- Induction over a list of members. -/
theorem InitMembers.induct {Q : InitMembers → Prop} (nil : Q .nil)
    (member : ∀ spel ref rest, Q rest → Q (.member spel ref rest))
    (pad : ∀ rest, Q rest → Q (.pad rest)) (ms : InitMembers) : Q ms :=
  @InitMembers.rec (fun _ => True) Q (fun _ => trivial) (fun _ _ _ => trivial)
    (fun _ _ _ => trivial) nil (fun spel ref rest _ => member spel ref rest) pad ms

/-- An expression: a string literal with its characters, or another one. -/
inductive InitExpr (E : Type) where
  | val (e : E)
  | str (kind : StrKind) (chars : List E)

/-- What an index of a designator folds to. -/
inductive DesigConst where
  | num (v : BitVec 64)
  | floating
  | nonConst

/-- `struct desig` -/
inductive Desig where
  | index (k : DesigConst)
  | member (spel : String)

/-- `decl_init` as it is parsed, with its designators. -/
inductive Item (E : Type) where
  | expr (desig : List Desig) (e : InitExpr E)
  | brace (desig : List Desig) (inits : List (Item E))

/-- `decl_init` as it is braced up; `none` is `DYNARRAY_NULL`. -/
inductive Braced (E : Type) where
  | scalar (e : InitExpr E)
  | brace (inits : List (Option (Braced E)))

variable {E : Type}

def Item.desig : Item E → List Desig
  | .expr desig _ => desig
  | .brace desig _ => desig

/-- `this->desig = des` -/
def Item.withDesig (desig : List Desig) : Item E → Item E
  | .expr _ e => .expr desig e
  | .brace _ inits => .brace desig inits

/-- Without its designators. -/
def Item.bare (it : Item E) : Item E := it.withDesig []

/-- `type == decl_init_brace` -/
def Item.isBrace : Item E → Bool
  | .expr _ _ => false
  | .brace _ _ => true

/-- There is no designator. -/
def Item.plain (it : Item E) : Bool := it.desig.isEmpty

/-- Why there is no braced-up initialiser. -/
inductive InitError where
  /-- "initialising scalar with %s designator" -/
  | scalarDesig
  /-- "%s designator can't designate array" -/
  | arrayDesig
  /-- "%s designator can't designate struct" -/
  | structDesig
  /-- "non-constant array-designator" -/
  | nonConstIndex
  /-- "non-integral array-designator" -/
  | floatIndex
  /-- "negative array index initialiser" -/
  | negativeIndex
  /-- "designating outside of array bounds (%d)" -/
  | outside
  /-- "%s %s contains no such member \"%s\"" -/
  | noMember
  /-- "can't replace _part_ of array-range subobject without braces" -/
  | replacePart
  /-- "%s must be initialised with an initialiser list or copy-assignment" -/
  | needsList
  /-- an aggregate is initialised from an empty list -/
  | nullIter
  /-- a former initialiser is freed twice -/
  | doubleFree
  /-- `DYNARRAY_NULL` is read -/
  | nullEntry
  /-- the entries of a former initialiser are read where they were before they moved -/
  | moved
  /-- the former initialiser of an aggregate is no brace -/
  | badCurrent
  /-- the loop over the initialisers does not end -/
  | endless
  deriving DecidableEq

/-- A function that takes what it needs from a list of initialisers, and leaves the rest.
The first argument is `current`. -/
abbrev Handler (E : Type) : Type :=
  Option (Braced E) → List (Item E) → Except InitError (Braced E × List (Item E))

/-- `aggregate_brace_f` -/
abbrev AggregateBrace (E : Type) : Type :=
  List (Option (Braced E)) → List (Item E) →
    Except InitError (List (Option (Braced E)) × List (Item E))

/-! ## Scalars -/

section Scalar

variable [Zero E]

mutual

/-- The expression for a scalar.  A former initialiser has been freed: in a brace that is
done a second time. -/
def Item.scalarInit (current : Bool) : Item E → Except InitError (InitExpr E)
  | .expr desig e => if desig.isEmpty then .ok e else .error .scalarDesig
  | .brace desig inits =>
      if !desig.isEmpty then .error .scalarDesig
      else if current then .error .doubleFree
      else scalarInits inits

/-- The first initialiser in the braces of a scalar; what is left is excess. -/
def scalarInits : List (Item E) → Except InitError (InitExpr E)
  | [] => .ok (.val 0)
  | it :: _ => it.scalarInit false

end

/-- `decl_init_brace_up_scalar` -/
def declInitBraceUpScalar : Handler E
  | _, [] => .ok (.scalar (.val 0), [])
  | current, it :: rest => do
      let e ← it.scalarInit current.isSome
      .ok (.scalar e, rest)

end Scalar

/-! ## Constants -/

section Const

variable (isConst : InitExpr E → Bool)

mutual

/-- `decl_init_is_const` -/
def Braced.isConst : Braced E → Bool
  | .scalar e => isConst e
  | .brace inits => initsConst inits

def initsConst : List (Option (Braced E)) → Bool
  | [] => true
  | none :: rest => initsConst rest
  | some b :: rest => b.isConst && initsConst rest

end

end Const

/-! ## Aggregates -/

/-- `dynarray_padinsert` -/
def padinsert (inits : List (Option (Braced E))) (i : Nat) (ins : Braced E) :
    List (Option (Braced E)) :=
  if i < inits.length then inits.set i (some ins)
  else inits ++ List.replicate (i - inits.length) none ++ [some ins]

/-- `current[i]`, where there is one. -/
def entry (inits : List (Option (Braced E))) (i : Nat) : Option (Braced E) := inits.getD i none

/-- `current ? current->bits.ar.inits : NULL` -/
def currentInits : Option (Braced E) → Except InitError (List (Option (Braced E)))
  | none => .ok []
  | some (.brace inits) => .ok inits
  | some (.scalar _) => .error .badCurrent

/-- `decl_init_brace_up_aggregate`: a brace is a list of its own, with its designator in
it; other initialisers are taken up to the next one with a designator. -/
def declInitBraceUpAggregate (braceUp : AggregateBrace E) : Handler E
  | _, [] => .error .nullIter
  | current, .brace desig inits :: rest =>
      if inits.isEmpty then .ok (.brace [none], rest)
      else if desig.isEmpty then do
        let (inits, _) ← braceUp [] inits
        .ok (.brace inits, rest)
      else do
        let former ← currentInits current
        let (inits, _) ← braceUp former [.brace desig inits]
        .ok (.brace inits, rest)
  | current, .expr desig e :: rest => do
      let former ← currentInits current
      let (inits, left) ← braceUp former (.expr desig e :: rest.takeWhile Item.plain)
      .ok (.brace inits, left ++ rest.dropWhile Item.plain)

/-- The turns that a loop over `items` takes at most, for an object of `n` parts. -/
def turns (n : Nat) (items : List (Item E)) : Nat :=
  ((items.map fun it => it.desig.length + 1).sum + 1) * (n + 1)

/-! ## Arrays -/

/-- `(signed)type_array_len`, where it limits an index. -/
def arrayLimit (len : Option Nat) : Option Nat :=
  match len with
  | none => none
  | some len => if len % 2 ^ 32 < 2 ^ 31 then some (len % 2 ^ 32) else none

/-- The index that a designator gives. -/
def Desig.arrayIndex (limit : Option Nat) : Desig → Except InitError Nat
  | .member _ => .error .arrayDesig
  | .index .nonConst => .error .nonConstIndex
  | .index .floating => .error .floatIndex
  | .index (.num v) =>
      if v.toInt < 0 then .error .negativeIndex
      else if limit.any (· ≤ v.toNat) then .error .outside
      else .ok v.toNat

/-- The element that is replaced in part: a scalar is initialised anew. -/
def replacing (isConst : InitExpr E → Bool) (scalarElem : Bool) (current : Option (Braced E)) :
    Except InitError (Option (Braced E)) :=
  match current with
  | none => .ok none
  | some former =>
      if scalarElem then .ok none
      else if former.isConst isConst then .ok (some former)
      else .error .replacePart

/-- `decl_init_brace_up_array2`, from element `i` on. -/
def declInitBraceUpArray2 (isConst : InitExpr E → Bool) (elem : Handler E) (scalarElem : Bool)
    (limit : Option Nat) : Nat → Nat → AggregateBrace E
  | _, _, current, [] => .ok (current, [])
  | 0, _, _, _ :: _ => .error .endless
  | fuel + 1, i, current, it :: rest =>
      match it.desig with
      | [] =>
          if limit.any (· ≤ i) then .ok (current, it :: rest)
          else do
            let former ← replacing isConst scalarElem (entry current i)
            let (braced, rest) ← elem former (it :: rest)
            declInitBraceUpArray2 isConst elem scalarElem limit fuel (i + 1)
              (padinsert current i braced) rest
      | des :: next => do
          let i ← des.arrayIndex limit
          let former ← replacing isConst scalarElem (entry current i)
          let (braced, rest) ← elem former (it.withDesig next :: rest)
          declInitBraceUpArray2 isConst elem scalarElem limit fuel (i + 1)
            (padinsert current i braced) rest

/-- `is_char_init`: the characters for an array of `elem`. -/
def isCharInit (elem : InitType) : List (Item E) → Option (List E)
  | .expr _ (.str kind chars) :: _ =>
      match elem with
      | .scalar (some k) => if kind = k then some chars else none
      | _ => none
  | .brace _ [.expr _ (.str kind chars)] :: _ =>
      match elem with
      | .scalar (some k) => if kind = k then some chars else none
      | _ => none
  | _ => none

/-- The characters that there is room for. -/
def limitChars (limit : Option Nat) (chars : List E) : List E :=
  match limit with
  | none => chars
  | some n => chars.take n

/-! ## Structs and unions -/

/-- A member of a struct or a union, with the names that are found in it and how it is
braced up, as a member or as an anonymous one that a designator looks into. -/
inductive Slot (E : Type) where
  | pad
  | member (spel : Option String) (holds : String → Bool) (up : Bool → Handler E)

/-- The first member that has the name, or an anonymous one that holds it. -/
def findSlot (spel : String) : List (Slot E) → Option (Nat × Bool)
  | [] => none
  | .pad :: rest => (findSlot spel rest).map fun found => (found.1 + 1, found.2)
  | .member (some s) _ _ :: rest =>
      if s = spel then some (0, true)
      else (findSlot spel rest).map fun found => (found.1 + 1, found.2)
  | .member none holds _ :: rest =>
      if holds spel then some (0, false)
      else (findSlot spel rest).map fun found => (found.1 + 1, found.2)

/-- The check for an object that is replaced: the first entry of its former initialiser
is read. -/
def objDiscard (next : List Desig) (former : Option (Braced E)) : Except InitError Unit :=
  match former with
  | some (.brace [none]) => if next.isEmpty then .ok () else .error .nullEntry
  | _ => .ok ()

/-- The same check after an anonymous member has been initialised. -/
def movedDiscard (former : Option (Braced E)) (braced : Braced E) : Except InitError Unit :=
  match former, braced with
  | some (.brace inits), .brace inits' =>
      if inits.length < inits'.length then .error .moved else .ok ()
  | _, _ => .ok ()

/-- `decl_init_brace_up_sue2`, from member `i` on. -/
def declInitBraceUpSue2 (prim : SuePrimitive) (slots : List (Slot E)) (isAnon : Bool) :
    Nat → Nat → AggregateBrace E
  | _, _, current, [] => .ok (current, [])
  | 0, _, _, _ :: _ => .error .endless
  | fuel + 1, i, current, it :: rest =>
      match it.desig with
      | [] =>
          match slots[i]? with
          | none => .ok (current, it :: rest)
          | some .pad => declInitBraceUpSue2 prim slots isAnon fuel (i + 1) current (it :: rest)
          | some (.member _ _ up) => do
              let (braced, rest) ← up false (entry current i) (it :: rest)
              match prim with
              | .union_ => .ok (padinsert current i braced, rest)
              | .struct_ =>
                  declInitBraceUpSue2 prim slots isAnon fuel (i + 1) (padinsert current i braced)
                    rest
      | .index _ :: _ => .error .structDesig
      | .member spel :: next =>
          match findSlot spel slots with
          | none => if isAnon then .ok (current, it :: rest) else .error .noMember
          | some (j, direct) =>
              match slots[j]? with
              | none | some .pad => .error .noMember
              | some (.member _ _ up) => do
                  -- the name is looked for again in an anonymous member
                  let sub := if direct then it.withDesig next else it
                  if direct then objDiscard next (entry current j)
                  let (braced, rest) ← up (!direct) (entry current j) (sub :: rest)
                  -- a brace keeps its designator
                  if !direct && it.isBrace then movedDiscard (entry current j) braced
                  match prim with
                  | .union_ => .ok (padinsert current j braced, rest)
                  | .struct_ =>
                      declInitBraceUpSue2 prim slots isAnon fuel (j + 1)
                        (padinsert current j braced) rest

mutual

/-- `sue_member_find`: there is a member of this name. -/
def InitType.hasMember (spel : String) : InitType → Bool
  | .scalar _ => false
  | .array _ _ => false
  | .sue _ ms => ms.hasMember spel

def InitMembers.hasMember (spel : String) : InitMembers → Bool
  | .nil => false
  | .pad rest => rest.hasMember spel
  | .member (some s) _ rest => decide (s = spel) || rest.hasMember spel
  | .member none ref rest => ref.hasMember spel || rest.hasMember spel

end

def InitType.isScalar : InitType → Bool
  | .scalar _ => true
  | .array _ _ => false
  | .sue _ _ => false

/-! ## Any object -/

section BraceUp

variable [Zero E] (isConst : InitExpr E → Bool)

mutual

/-- `decl_init_brace_up_r`; `isAnon` where a designator looks into an anonymous member. -/
def InitType.braceUp : InitType → Bool → Handler E
  | .scalar _, _ => declInitBraceUpScalar
  | .array elem len, _ => fun current items =>
      match isCharInit elem items with
      | some chars =>
          .ok (.brace ((limitChars (arrayLimit len) chars).map fun c => some (.scalar (.val c))),
            items.tail)
      | none =>
          declInitBraceUpAggregate
            (fun inits items =>
              declInitBraceUpArray2 isConst (elem.braceUp false) elem.isScalar (arrayLimit len)
                (turns ((arrayLimit len).getD 0) items) 0 inits items)
            current items
  | .sue prim ms, isAnon => fun current items =>
      declInitBraceUpAggregate
        (fun inits items =>
          declInitBraceUpSue2 prim ms.slots isAnon (turns ms.slots.length items) 0 inits items)
        current items

def InitMembers.slots : InitMembers → List (Slot E)
  | .nil => []
  | .pad rest => .pad :: rest.slots
  | .member spel ref rest =>
      .member spel (fun s => ref.hasMember s) ref.braceUp :: rest.slots

end

/-- The type once it has been completed. -/
def InitType.complete (t : InitType) (b : Braced E) : InitType :=
  match t, b with
  | .array elem none, .brace inits => .array elem (some inits.length)
  | _, _ => t

/-- An initialiser that `decl_init_brace_up_start` takes for an object of this type. -/
def InitType.startsWith (t : InitType) (init : Item E) : Bool :=
  match t with
  | .scalar _ => true
  | .array elem _ => init.isBrace || (isCharInit elem [init]).isSome
  | .sue _ _ => init.isBrace

/-- `decl_init_brace_up_start`, with the type that the object has then. -/
def declInitBraceUpStart (t : InitType) (init : Item E) :
    Except InitError (Braced E × InitType) :=
  if t.startsWith init then do
    let (b, _) ← t.braceUp isConst false none [init]
    .ok (b, t.complete b)
  else .error .needsList

end BraceUp

end Ucc.Cc1.Braces
