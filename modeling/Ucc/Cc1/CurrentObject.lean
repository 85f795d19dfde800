/-
  Cc1/CurrentObject.lean --- which sub-object an initialiser is for.

  A cursor goes over the sub-objects of an object, as a path of indices.  An initialiser
  without a designator is for the next one, a designator sets the cursor, and a constant is
  for the first scalar of an aggregate.  A list in braces initialises its object anew.

  `Run` reads the lists that are read in this way.  It has no reading for a list that
  designates an object outside of the type, for `{}`, or for one of these:
  - a scalar in braces that has been initialised before;
  - a second member of a union;
  - an element of an array, no scalar, whose former initialisers are no constants;
  - a list in braces with a designator of several steps, and no designator after it;
  - a list in braces for a part of an anonymous member that has been initialised before.
-/
import Ucc.Cc1.BraceUp

set_option autoImplicit false

namespace Ucc.Cc1.Braces

variable {E : Type}

/-! ## The parts of a type -/

/-- The type of member `i`. -/
def InitMembers.child : InitMembers → Nat → Option InitType
  | .nil, _ => none
  | .pad _, 0 => none
  | .pad rest, i + 1 => rest.child i
  | .member _ ref _, 0 => some ref
  | .member _ _ rest, i + 1 => rest.child i

/-- The first member from `i` on that is initialised. -/
def InitMembers.avail : InitMembers → Nat → Option Nat
  | .nil, _ => none
  | .pad rest, i => (rest.avail (i - 1)).map (· + 1)
  | .member _ _ _, 0 => some 0
  | .member _ _ rest, i + 1 => (rest.avail i).map (· + 1)

/-- Member `i` is an anonymous struct or union. -/
def InitMembers.anonAt : InitMembers → Nat → Bool
  | .nil, _ => false
  | .pad _, 0 => false
  | .pad rest, i + 1 => rest.anonAt i
  | .member spel _ _, 0 => spel.isNone
  | .member _ _ rest, i + 1 => rest.anonAt i

/-- The type of part `i`. -/
def InitType.child : InitType → Nat → Option InitType
  | .scalar _, _ => none
  | .array elem len, i => if len.all (i < ·) then some elem else none
  | .sue _ ms, i => ms.child i

/-- The first part from `i` on that is initialised. -/
def InitType.avail : InitType → Nat → Option Nat
  | .scalar _, _ => none
  | .array _ len, i => if len.all (i < ·) then some i else none
  | .sue _ ms, i => ms.avail i

/-- The part after part `i`: a union has no more. -/
def InitType.next : InitType → Nat → Option Nat
  | .scalar _, _ => none
  | .array elem len, i => (InitType.array elem len).avail (i + 1)
  | .sue .struct_ ms, i => ms.avail (i + 1)
  | .sue .union_ _, _ => none

def InitType.anonAt : InitType → Nat → Bool
  | .scalar _, _ => false
  | .array _ _, _ => false
  | .sue _ ms, i => ms.anonAt i

def InitType.isUnion : InitType → Bool
  | .sue .union_ _ => true
  | .sue .struct_ _ => false
  | .scalar _ => false
  | .array _ _ => false

/-- Part `i`, in front of everything else. -/
def cursorAt (i : Option Nat) : Option (List Nat) := i.map fun i => [i]

/-- The cursor in an object where the cursor in part `i` is `c`. -/
def InitType.after (t : InitType) (i : Nat) (c : Option (List Nat)) : Option (List Nat) :=
  match c with
  | some p => some (i :: p)
  | none => cursorAt (t.next i)

/-- The characters that are put into an array of them. -/
def InitType.charInit : InitType → Item E → Option (List E)
  | .scalar _, _ => none
  | .array elem len, it => (isCharInit elem [it]).map (limitChars len)
  | .sue _ _, _ => none

/-- A path from the next member on. -/
def shift : List Nat → List Nat
  | [] => []
  | i :: p => (i + 1) :: p

mutual

/-- The path that designators lead to. -/
def InitType.resolve : InitType → List Desig → Option (List Nat)
  | .scalar _, ds => if ds.isEmpty then some [] else none
  | .array elem len, ds =>
      match ds with
      | [] => some []
      | .index (.num v) :: ds =>
          if 0 ≤ v.toInt ∧ len.all (v.toNat < ·) then (elem.resolve ds).map (v.toNat :: ·)
          else none
      | _ :: _ => none
  | .sue _ ms, ds =>
      match ds with
      | [] => some []
      | .member spel :: ds => ms.resolve spel ds
      | .index _ :: _ => none

/-- The path of a member: it may be found in an anonymous one. -/
def InitMembers.resolve : InitMembers → String → List Desig → Option (List Nat)
  | .nil, _, _ => none
  | .pad rest, spel, ds => (rest.resolve spel ds).map shift
  | .member (some s) ref rest, spel, ds =>
      if s = spel then (ref.resolve ds).map (0 :: ·) else (rest.resolve spel ds).map shift
  | .member none ref rest, spel, ds =>
      if ref.hasMember spel then (ref.resolve (.member spel :: ds)).map (0 :: ·)
      else (rest.resolve spel ds).map shift

end

/-! ## Objects -/

/-- What the scalars of an object are initialised with. -/
abbrev Obj (E : Type) : Type := List Nat → Option (InitExpr E)

/-- Nothing is initialised. -/
def Obj.empty : Obj E := fun _ => none

def Obj.leaf (e : InitExpr E) : Obj E
  | [] => some e
  | _ :: _ => none

/-- An array of characters. -/
def Obj.chars (chars : List E) : Obj E
  | [i] => chars[i]?.map InitExpr.val
  | [] => none
  | _ :: _ :: _ => none

/-- Part `i`. -/
def Obj.part (τ : Obj E) (i : Nat) : Obj E := fun p => τ (i :: p)

/-- Part `i` is initialised in another way. -/
def Obj.setPart (τ : Obj E) (i : Nat) (σ : Obj E) : Obj E
  | [] => none
  | j :: p => if j = i then σ p else τ (j :: p)

/-! ## The reading of a list -/

/-- The expression in the braces of a scalar. -/
inductive ScalarInit : List (Item E) → InitExpr E → Prop
  | expr {e : InitExpr E} {rest : List (Item E)} : ScalarInit (.expr [] e :: rest) e
  | brace {inits rest : List (Item E)} {e : InitExpr E} (h : ScalarInit inits e) :
      ScalarInit (.brace [] inits :: rest) e

/-- Part `i` may be initialised: no other member of a union has been, and what is known of
an element of an array is constant. -/
def InitType.Enter (isConst : InitExpr E → Bool) (t : InitType) (τ : Obj E) (i : Nat) : Prop :=
  match t with
  | .scalar _ => True
  | .array elem _ => elem.isScalar = true ∨ ∀ p e, τ (i :: p) = some e → isConst e = true
  | .sue .struct_ _ => True
  | .sue .union_ _ => ∀ j p, j ≠ i → τ (j :: p) = none

/-- The first initialiser, if any, has a designator. -/
def NextDesig (items : List (Item E)) : Prop := ∀ it ∈ items.head?, it.plain = false

/-- No initialiser has a designator. -/
def AllPlain (items : List (Item E)) : Prop := ∀ it ∈ items, it.plain = true

mutual

/-- An initialiser is read with the cursor at a path; `desig` when a designator has set it.
The object and the cursor after it. -/
inductive Step (isConst : InitExpr E → Bool) :
    InitType → Obj E → Bool → List Nat → Item E → Obj E → Option (List Nat) → Prop
  | scalar {k : Option StrKind} {τ : Obj E} {desig : Bool} {ds : List Desig} {e : InitExpr E} :
      Step isConst (.scalar k) τ desig [] (.expr ds e) (Obj.leaf e) none
  | scalarBrace {k : Option StrKind} {τ : Obj E} {desig : Bool} {ds : List Desig}
      {inits : List (Item E)} {e : InitExpr E} (fresh : τ [] = none)
      (h : ScalarInit inits e) :
      Step isConst (.scalar k) τ desig [] (.brace ds inits) (Obj.leaf e) none
  | string {t : InitType} {τ : Obj E} {desig : Bool} {it : Item E} {chars : List E}
      (h : t.charInit it = some chars) (ne : chars ≠ []) :
      Step isConst t τ desig [] it (Obj.chars chars) none
  | brace {t : InitType} {τ σ : Obj E} {desig : Bool} {ds : List Desig}
      {inits left : List (Item E)} {i : Nat} (h : t.charInit (.brace ds inits) = none)
      (ne : inits ≠ []) (first : t.avail 0 = some i)
      (run : Run isConst t Obj.empty (some [i]) inits σ left) :
      Step isConst t τ desig [] (.brace ds inits) σ none
  | descend {t s : InitType} {τ σ : Obj E} {desig : Bool} {ds : List Desig} {e : InitExpr E}
      {i : Nat} {c : Option (List Nat)} (h : t.charInit (.expr ds e) = none)
      (first : t.avail 0 = some i) (child : t.child i = some s) (enter : t.Enter isConst τ i)
      (step : Step isConst s (τ.part i) false [] (.expr ds e) σ c) :
      Step isConst t τ desig [] (.expr ds e) (τ.setPart i σ) (t.after i c)
  | part {t s : InitType} {τ σ : Obj E} {desig : Bool} {it : Item E} {i : Nat} {p : List Nat}
      {c : Option (List Nat)} (child : t.child i = some s)
      (enter : desig = true ∨ p = [] → t.Enter isConst τ i)
      (array : desig = true → t.charInit it = none)
      (anon : desig = true → it.isBrace = true → t.anonAt i = true → ∀ p, τ (i :: p) = none)
      (step : Step isConst s (τ.part i) desig p it σ c) :
      Step isConst t τ desig (i :: p) it (τ.setPart i σ) (t.after i c)

/-- A list is read with the cursor at a path, or behind everything.  The object after it,
and the initialisers that are in excess. -/
inductive Run (isConst : InitExpr E → Bool) :
    InitType → Obj E → Option (List Nat) → List (Item E) → Obj E → List (Item E) → Prop
  | nil {t : InitType} {τ : Obj E} {c : Option (List Nat)} : Run isConst t τ c [] τ []
  | excess {t : InitType} {τ : Obj E} {it : Item E} {rest : List (Item E)}
      (plain : it.plain = true) : Run isConst t τ none (it :: rest) τ (it :: rest)
  | next {t : InitType} {τ τ' σ : Obj E} {p : List Nat} {c : Option (List Nat)} {it : Item E}
      {rest left : List (Item E)} (plain : it.plain = true)
      (union : t.isUnion = true → AllPlain rest)
      (step : Step isConst t τ false p it.bare τ' c) (run : Run isConst t τ' c rest σ left) :
      Run isConst t τ (some p) (it :: rest) σ left
  | desig {t : InitType} {τ τ' σ : Obj E} {p : List Nat} {c c' : Option (List Nat)}
      {it : Item E} {rest left : List (Item E)} (desig : it.plain = false)
      (resolve : t.resolve it.desig = some p) (union : t.isUnion = true → AllPlain rest)
      (brace : it.isBrace = true → 2 ≤ p.length → NextDesig rest)
      (step : Step isConst t τ true p it.bare τ' c') (run : Run isConst t τ' c' rest σ left) :
      Run isConst t τ c (it :: rest) σ left

end

end Ucc.Cc1.Braces
