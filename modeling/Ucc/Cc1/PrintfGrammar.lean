/-
  Cc1/PrintfGrammar.lean --- the grammar of printf formats.

  Source: the comment that opens parse_format_arg in src/cc1/format_chk.c.

  A directive is what stands after a percent sign, given by its parts: the arguments that
  it takes are read off the parts.  The type of an argument is the one it has before it
  is promoted, so that `%hd` takes a `short` and `%c` a `char`.
-/
import Ucc.Cc1.TypeCmp

set_option autoImplicit false

namespace Ucc.Cc1.Printf

/-- `enum sys` -/
inductive Sys where
  | linux | freebsd | darwin | cygwin
  deriving DecidableEq

/-- What an argument is there for. -/
inductive Desc where
  | fieldWidth | precision | argument
  deriving DecidableEq

/-- `type_nav_btype` of a primitive type. -/
def prim (p : TypePrimitive) : Ty := .btype (.prim p none)

/-- `TYPE_WCHAR` -/
def wchar (sys : Sys) : TypePrimitive := if sys = .cygwin then .short else .int

/-- `TYPE_PRIMITIVE_TO_UNSIGNED`, of the signed ones of the integer conversions. -/
def toUnsigned : TypePrimitive → TypePrimitive
  | .schar => .uchar
  | .int => .uint
  | .short => .ushort
  | .long => .ulong
  | .llong => .ullong
  | p => p

/-! ## The parts of a directive -/

def flagChars : List Char := ['#', '0', '-', ' ', '+', '\x27']

/-- A field width or a precision. -/
inductive Field where
  | star
  | digits (ds : List Char)

namespace Field

def text : Field → List Char
  | star => ['*']
  | digits ds => ds

def Valid : Field → Prop
  | star => True
  | digits ds => ∀ c ∈ ds, c.isDigit = true

def isStar : Field → Bool
  | star => true
  | digits _ => false

end Field

inductive LengthMod where
  | none | h | hh | l | ll | L | j | t | z
  deriving DecidableEq

namespace LengthMod

def text : LengthMod → List Char
  | none => []
  | h => ['h']
  | hh => ['h', 'h']
  | l => ['l']
  | ll => ['l', 'l']
  | L => ['L']
  | j => ['j']
  | t => ['t']
  | z => ['z']

/-- The signed integer that it stands for. -/
def int : LengthMod → Option TypePrimitive
  | none => some .int
  | hh => some .schar
  | h => some .short
  | l => some .long
  | ll | j | t | z => some .llong
  | L => .none

def float : LengthMod → Option TypePrimitive
  | none | l => some .double
  | L => some .ldouble
  | _ => .none

def char (sys : Sys) : LengthMod → Option TypePrimitive
  | none => some .nchar
  | l => some (wchar sys)
  | _ => .none

end LengthMod

/-- The type that a conversion takes, if it takes one; `none` is an invalid conversion. -/
def ownType (sys : Sys) (len : LengthMod) (conv : Char) : Option (Option Ty) :=
  match conv with
  | 'd' | 'i' => len.int.map fun p => some (prim p)
  | 'o' | 'u' | 'x' | 'X' => len.int.map fun p => some (prim (toUnsigned p))
  | 'n' => len.int.map fun p => some (.ptr (prim p))
  | 'e' | 'E' | 'f' | 'F' | 'g' | 'G' | 'a' | 'A' => len.float.map fun p => some (prim p)
  | 'c' => (len.char sys).map fun p => some (prim p)
  | 's' => (len.char sys).map fun p => some (.ptr (prim p))
  | 'p' => if len = .none then some (some (.ptr (prim .void))) else none
  | 'm' => if len = .none ∧ sys = .linux then some none else none
  | '%' => if len = .none then some none else none
  | _ => none

/-! ## Directives -/

structure Directive where
  flags : List Char
  width : Field
  precision : Option Field
  length : LengthMod
  conv : Char

namespace Directive

def precisionText : Option Field → List Char
  | none => []
  | some p => '.' :: p.text

/-- What stands before the conversion. -/
def body (d : Directive) : List Char :=
  d.flags ++ (d.width.text ++ (precisionText d.precision ++ d.length.text))

def text (d : Directive) : List Char := d.body ++ [d.conv]

structure Valid (sys : Sys) (d : Directive) : Prop where
  flags : ∀ c ∈ d.flags, c ∈ flagChars
  width : d.width.Valid
  precision : ∀ p, d.precision = some p → p.Valid
  conv : ∃ ty, ownType sys d.length d.conv = some ty

end Directive

/-- What a width, a precision and a conversion take. -/
def argsOf (width precision : Bool) (own : Option Ty) : List (Desc × Ty) :=
  (if width then [(.fieldWidth, prim .int)] else []) ++
    (if precision then [(.precision, prim .int)] else []) ++
    own.toList.map fun ty => (.argument, ty)

namespace Directive

/-- The arguments that a directive takes, in order. -/
def args (sys : Sys) (d : Directive) : List (Desc × Ty) :=
  argsOf d.width.isStar (d.precision.elim false Field.isStar) (ownType sys d.length d.conv).join

variable {sys : Sys} {d : Directive}

theorem Valid.body_ne (h : d.Valid sys) {c : Char} (hc : c ∈ d.body) : c ≠ '%' := by
  have hfield : ∀ f : Field, f.Valid → '%' ∉ f.text := by
    intro f hf hmem
    cases f with
    | star => exact absurd hmem (by decide)
    | digits ds => exact absurd (hf _ hmem) (by decide)
  rintro rfl
  rw [body, List.mem_append, List.mem_append, List.mem_append] at hc
  rcases hc with hc | hc | hc | hc
  · exact absurd (h.flags _ hc) (by decide)
  · exact hfield _ h.width hc
  · cases hp : d.precision with
    | none => simp [hp, precisionText] at hc
    | some p =>
      rw [hp] at hc
      rcases List.mem_cons.1 hc with hc | hc
      · exact absurd hc (by decide)
      · exact hfield p (h.precision p hp) hc
  · cases hl : d.length <;> simp [hl, LengthMod.text] at hc

end Directive

/-! ## Formats -/

/-- A directive comes first. -/
def Starts (sys : Sys) (cs : List Char) : Prop :=
  ∃ d rest, Directive.Valid sys d ∧ cs = d.text ++ rest

/-- The arguments that a format takes. -/
inductive Takes (sys : Sys) : List Char → List (Desc × Ty) → Prop
  | nil : Takes sys [] []
  | ordinary {c : Char} {cs : List Char} {as : List (Desc × Ty)} (hc : c ≠ '%')
      (h : Takes sys cs as) : Takes sys (c :: cs) as
  | directive {d : Directive} {cs : List Char} {as : List (Desc × Ty)} (hd : d.Valid sys)
      (h : Takes sys cs as) : Takes sys ('%' :: (d.text ++ cs)) (d.args sys ++ as)

namespace Takes

variable {sys : Sys} {cs cs' : List Char} {as as' : List (Desc × Ty)}

theorem append (h : Takes sys cs as) (h' : Takes sys cs' as') :
    Takes sys (cs ++ cs') (as ++ as') := by
  induction h with
  | nil => exact h'
  | ordinary hc _ ih => exact .ordinary hc ih
  | directive hd _ ih =>
    rw [List.cons_append, List.append_assoc, List.append_assoc]
    exact .directive hd ih

theorem ordinaries (h : ∀ c ∈ cs, c ≠ '%') : Takes sys cs [] := by
  induction cs with
  | nil => exact .nil
  | cons c cs ih =>
    rw [List.forall_mem_cons] at h
    exact .ordinary h.1 (ih h.2)

end Takes

end Ucc.Cc1.Printf
