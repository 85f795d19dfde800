/-
  Cc1/FormatChk.lean --- checking printf formats.

  Source: parse_digit, parse_format_arg, format_check_printf_arg, format_check_printf_str
  and the end of format_check_printf in src/cc1/format_chk.c.

  A format is the memory from its first character on, and `none` is a read outside of it.
  The comparison of an argument with its type is not run: what is recorded is that it is
  made, and with which type.
-/
import Ucc.Cc1.PrintfGrammar

set_option autoImplicit false

namespace Ucc.Cc1.Printf

/-- The zero at the end of a string. -/
def nul : Char := '\x00'

/-! ## Scanning -/

/-- A scanner leaves the index where it stops, and the text of an error. -/
abbrev Scan (α : Type) : Type := Option (Except String α × Nat)

def Scan.andThen {α β : Type} (s : Scan α) (k : α → Nat → Scan β) : Scan β :=
  match s with
  | none => none
  | some (.error e, i) => some (.error e, i)
  | some (.ok a, i) => k a i

/-- `strchr` of the flags: it also finds the zero at the end of them. -/
def isModifier (c : Char) : Bool := decide (c ∈ flagChars ++ [nul])

/-- The loop over the flags; `++*i < len` is `increment_str`. -/
def skipFlags (fmt : List Char) (len i : Nat) : Scan Unit :=
  match fmt[i]? with
  | none => none
  | some c =>
      if isModifier c then
        if i + 1 < len then skipFlags fmt len (i + 1)
        else some (.error "invalid modifier character", i + 1)
      else some (.ok (), i)
termination_by len - i

/-- The loop of `parse_digit`. -/
def skipDigits (fmt : List Char) (len i : Nat) : Option (Bool × Nat) :=
  match fmt[i]? with
  | none => none
  | some c =>
      if c.isDigit then
        if i + 1 < len then skipDigits fmt len (i + 1) else some (false, i + 1)
      else some (true, i)
termination_by len - i

/-- `parse_digit`: its result, `*got_asterisk` and the index. -/
def parseDigit (fmt : List Char) (len i : Nat) : Option (Bool × Bool × Nat) :=
  match fmt[i]? with
  | none => none
  | some c =>
      if c = '*' then some (decide (i + 1 < len), true, i + 1)
      else (skipDigits fmt len i).map fun r => (r.1, false, r.2)

/-- A width or a precision, with the text of its error. -/
def parseField (err : String) (fmt : List Char) (len i : Nat) : Scan Bool :=
  (parseDigit fmt len i).map fun r => (if r.1 then .ok r.2.1 else .error err, r.2.2)

def parsePrecision (fmt : List Char) (len i : Nat) : Scan Bool :=
  match fmt[i]? with
  | none => none
  | some c =>
      if c = '.' then
        if i + 1 < len then parseField "invalid precision" fmt len (i + 1)
        else some (.error "incomplete format specifier (missing precision)", i + 1)
      else some (.ok false, i)

/-- The cases of `h` and `l`: the same character once more is another modifier. -/
def parseTwice (fmt : List Char) (len i : Nat) (c : Char) (once twice : LengthMod) :
    Option (LengthMod × Nat) :=
  if i + 1 < len then
    (fmt[i + 1]?).map fun c' => if c' = c then (twice, i + 1) else (once, i)
  else some (once, i)

def lengthSwitch (fmt : List Char) (len i : Nat) : Option (LengthMod × Nat) :=
  match fmt[i]? with
  | none => none
  | some 'h' => parseTwice fmt len i 'h' .h .hh
  | some 'l' => parseTwice fmt len i 'l' .l .ll
  | some 'L' => some (.L, i)
  | some 'j' => some (.j, i)
  | some 't' => some (.t, i)
  | some 'z' => some (.z, i)
  | some _ => some (.none, i)

def parseLength (fmt : List Char) (len i : Nat) : Scan LengthMod :=
  (lengthSwitch fmt len i).map fun r =>
    if r.1 = .none then (.ok r.1, r.2)
    else if r.2 + 1 < len then (.ok r.1, r.2 + 1)
    else (.error "incomplete format specifier", r.2 + 1)

/-- The switch over the conversion. -/
def conversion (sys : Sys) (lengthmod : LengthMod) (c : Char) : Except String (Option Ty) :=
  match c with
  | 'd' | 'i' | 'o' | 'u' | 'x' | 'X' | 'n' =>
      match lengthmod.int with
      | none => .error "invalid length modifier for integer format"
      | some btype =>
          let btype := if c = 'd' ∨ c = 'i' ∨ c = 'n' then btype else toUnsigned btype
          .ok (some (if c = 'n' then .ptr (prim btype) else prim btype))
  | 'e' | 'E' | 'f' | 'F' | 'g' | 'G' | 'a' | 'A' =>
      match lengthmod.float with
      | none => .error "invalid length modifier for float format"
      | some btype => .ok (some (prim btype))
  | 'c' | 's' =>
      match lengthmod.char sys with
      | none =>
          .error (if c = 'c' then "invalid length modifier for char format"
            else "invalid length modifier for string format")
      | some btype => .ok (some (if c = 's' then .ptr (prim btype) else prim btype))
  | 'p' =>
      if lengthmod ≠ .none then .error "invalid length modifier for pointer format"
      else .ok (some (.ptr (prim .void)))
  | 'm' =>
      if sys ≠ .linux then .error "%m used on non-linux system"
      else if lengthmod ≠ .none then .error "invalid length modifier for '%%' format"
      else .ok none
  | '%' =>
      if lengthmod ≠ .none then .error "invalid length modifier for '%%' format"
      else .ok none
  | _ => .error "invalid conversion character"

/-- `struct format_arg` -/
structure FormatArg where
  expectedType : Option Ty
  expectedFieldWidth : Bool
  expectedPrecision : Bool

/-- `parse_format_arg`; the index is left at the conversion. -/
def parseFormatArg (sys : Sys) (fmt : List Char) (len i : Nat) : Scan FormatArg :=
  (skipFlags fmt len i).andThen fun _ i =>
  (parseField "invalid field width" fmt len i).andThen fun width i =>
  (parsePrecision fmt len i).andThen fun precision i =>
  (parseLength fmt len i).andThen fun lengthmod i =>
  (fmt[i]?).map fun c =>
    ((conversion sys lengthmod c).map fun ty => ⟨ty, width, precision⟩, i)

/-! ## Where a scanner stops -/

theorem Scan.andThen_ok {α β : Type} {s : Scan α} {k : α → Nat → Scan β} {b : β} {j : Nat}
    (h : s.andThen k = some (.ok b, j)) : ∃ a i, s = some (.ok a, i) ∧ k a i = some (.ok b, j) := by
  unfold andThen at h
  split at h
  · cases h
  · cases h
  · exact ⟨_, _, rfl, h⟩

theorem skipFlags_le {fmt : List Char} {len i j : Nat} {r : Except String Unit}
    (h : skipFlags fmt len i = some (r, j)) : i ≤ j := by
  fun_induction skipFlags fmt len i with
  | case1 => cases h
  | case2 _ _ _ _ _ ih => exact (Nat.le_succ _).trans (ih h)
  | case3 => cases h; exact Nat.le_succ _
  | case4 => cases h; exact Nat.le_refl _

theorem skipDigits_le {fmt : List Char} {len i j : Nat} {ok : Bool}
    (h : skipDigits fmt len i = some (ok, j)) : i ≤ j := by
  fun_induction skipDigits fmt len i with
  | case1 => cases h
  | case2 _ _ _ _ _ ih => exact (Nat.le_succ _).trans (ih h)
  | case3 => cases h; exact Nat.le_succ _
  | case4 => cases h; exact Nat.le_refl _

theorem parseField_le {err : String} {fmt : List Char} {len i j : Nat} {r : Except String Bool}
    (h : parseField err fmt len i = some (r, j)) : i ≤ j := by
  obtain ⟨⟨ok, star, j'⟩, hdigit, hr⟩ := Option.map_eq_some_iff.mp h
  cases hr
  unfold parseDigit at hdigit
  split at hdigit
  · cases hdigit
  · split at hdigit
    · cases hdigit
      exact Nat.le_succ _
    · obtain ⟨⟨ok', j''⟩, hloop, hr⟩ := Option.map_eq_some_iff.mp hdigit
      cases hr
      exact skipDigits_le hloop

theorem parsePrecision_le {fmt : List Char} {len i j : Nat} {r : Except String Bool}
    (h : parsePrecision fmt len i = some (r, j)) : i ≤ j := by
  unfold parsePrecision at h
  split at h
  · cases h
  · split at h
    · split at h
      · exact (Nat.le_succ _).trans (parseField_le h)
      · cases h
        exact Nat.le_succ _
    · cases h
      exact Nat.le_refl _

theorem parseTwice_le {fmt : List Char} {len i j : Nat} {c : Char} {once twice mod : LengthMod}
    (h : parseTwice fmt len i c once twice = some (mod, j)) : i ≤ j := by
  unfold parseTwice at h
  split at h
  · obtain ⟨c', -, hr⟩ := Option.map_eq_some_iff.mp h
    split at hr <;> cases hr
    · exact Nat.le_succ _
    · exact Nat.le_refl _
  · cases h
    exact Nat.le_refl _

theorem lengthSwitch_le {fmt : List Char} {len i j : Nat} {mod : LengthMod}
    (h : lengthSwitch fmt len i = some (mod, j)) : i ≤ j := by
  unfold lengthSwitch at h
  split at h
  · cases h
  · exact parseTwice_le h
  · exact parseTwice_le h
  all_goals
    cases h
    exact Nat.le_refl _

theorem parseLength_le {fmt : List Char} {len i j : Nat} {r : Except String LengthMod}
    (h : parseLength fmt len i = some (r, j)) : i ≤ j := by
  obtain ⟨⟨mod, j'⟩, hswitch, hr⟩ := Option.map_eq_some_iff.mp h
  have hle := lengthSwitch_le hswitch
  dsimp only at hr
  split at hr
  · cases hr
    exact hle
  · split at hr <;> cases hr <;> exact hle.trans (Nat.le_succ _)

/-- The index never goes back. -/
theorem parseFormatArg_le {sys : Sys} {fmt : List Char} {len i j : Nat} {arg : FormatArg}
    (h : parseFormatArg sys fmt len i = some (.ok arg, j)) : i ≤ j := by
  obtain ⟨_, i1, hflags, h⟩ := Scan.andThen_ok h
  obtain ⟨_, i2, hwidth, h⟩ := Scan.andThen_ok h
  obtain ⟨_, i3, hprecision, h⟩ := Scan.andThen_ok h
  obtain ⟨_, i4, hlength, h⟩ := Scan.andThen_ok h
  obtain ⟨c, -, hr⟩ := Option.map_eq_some_iff.mp h
  obtain rfl : i4 = j := congrArg Prod.snd hr
  exact ((skipFlags_le hflags).trans (parseField_le hwidth)).trans
    ((parsePrecision_le hprecision).trans (parseLength_le hlength))

/-! ## Checking -/

section Checking

variable {α : Type}

/-- An argument that is asked for; there is a warning where none is left. -/
structure Check (α : Type) where
  strloc : Nat
  fmtbegin : Nat
  fmtlen : Nat
  desc : Desc
  type : Ty
  arg : Option α

/-- `format_check_printf_arg`, with what it leaves of the arguments. -/
def formatCheckPrintfArg (fmtbegin fmtlen strloc : Nat) (args : List α) (expectedType : Option Ty)
    (desc : Desc) : List (Check α) × List α :=
  match expectedType with
  | none => ([], args)
  | some ty => ([⟨strloc, fmtbegin, fmtlen, desc, ty, args.head?⟩], args.tail)

/-- The three arguments of a directive. -/
def checkDirective (fmtbegin i : Nat) (arg : FormatArg) (args : List α) :
    List (Check α) × List α :=
  let check := formatCheckPrintfArg fmtbegin (i - fmtbegin + 1) (i + 1)
  let width := check args (if arg.expectedFieldWidth then some (prim .int) else none) .fieldWidth
  let precision :=
    check width.2 (if arg.expectedPrecision then some (prim .int) else none) .precision
  let own := check precision.2 arg.expectedType .argument
  (width.1 ++ precision.1 ++ own.1, own.2)

/-- What `format_check_printf_str` reports: the arguments that it asks for, the error
that it stops at, and an argument too many. -/
structure Outcome (α : Type) where
  checks : List (Check α)
  stop : Option (String × Nat)
  tooMany : Option α

def Outcome.after (checks : List (Check α)) (r : Outcome α) : Outcome α :=
  { r with checks := checks ++ r.checks }

/-- After the loop. -/
def finish (fmt : List Char) (len : Nat) (varIdx : Int) (i : Nat) (args : List α) :
    Option (Outcome α) :=
  let i := if i > len then len else i
  if varIdx ≠ -1 then
    (fmt[i]?).map fun c => ⟨[], none, if c = nul ∨ i = len then args.head? else none⟩
  else some ⟨[], none, none⟩

/-- The loop of `format_check_printf_str`. -/
def checkLoop (sys : Sys) (fmt : List Char) (len : Nat) (varIdx : Int) (i : Nat)
    (args : List α) : Option (Outcome α) :=
  if _hi : i < len then
    match fmt[i]? with
    | none => none
    | some c =>
        if c = nul then finish fmt len varIdx i args
        else if c ≠ '%' then checkLoop sys fmt len varIdx (i + 1) args
        else if i + 1 = len then some ⟨[], some ("incomplete format specifier", i + 2), none⟩
        else
          match _harg : parseFormatArg sys fmt len (i + 1) with
          | none => none
          | some (.error err, j) => some ⟨[], some (err, j + 1), none⟩
          | some (.ok arg, j) =>
              if varIdx = -1 then checkLoop sys fmt len varIdx j args
              else
                let r := checkDirective i j arg args
                (checkLoop sys fmt len varIdx j r.2).map (Outcome.after r.1)
  else finish fmt len varIdx i args
termination_by len - i
decreasing_by
  · omega
  all_goals
    have hle := parseFormatArg_le _harg
    omega

/-- `format_check_printf_str`; `var_idx` becomes a `size_t`. -/
def formatCheckPrintfStr (sys : Sys) (args : List α) (fmt : List Char) (len : Nat)
    (varIdx : Int) : Option (Outcome α) :=
  checkLoop sys fmt len varIdx 0 (args.drop (varIdx % 2 ^ 64).toNat)

end Checking

/-! ## Up to the zero -/

/-- From `i` on there is `cs` and then the zero, and the memory ends. -/
def Ends (fmt : List Char) (i : Nat) (cs : List Char) : Prop := fmt.drop i = cs ++ [nul]

/-- The next character, or the zero. -/
def nextChar : List Char → Char
  | [] => nul
  | c :: _ => c

section Ends

variable {fmt cs : List Char} {i : Nat} {c : Char}

theorem Ends.zero (cs : List Char) : Ends (cs ++ [nul]) 0 cs := rfl

theorem getElem?_of_drop {c : Char} {rest : List Char} (h : fmt.drop i = c :: rest) :
    fmt[i]? = some c := by
  have hhead : (fmt.drop i)[0]? = some c := by rw [h]; rfl
  rwa [List.getElem?_drop, Nat.add_zero] at hhead

theorem Ends.head (h : Ends fmt i (c :: cs)) : fmt[i]? = some c := getElem?_of_drop h

theorem Ends.atNul (h : Ends fmt i []) : fmt[i]? = some nul := getElem?_of_drop h

theorem Ends.append {run : List Char} (h : Ends fmt i (run ++ cs)) :
    Ends fmt (i + run.length) cs := by
  rw [Ends, ← List.drop_drop, h, List.append_assoc, List.drop_left]

theorem Ends.tail (h : Ends fmt i (c :: cs)) : Ends fmt (i + 1) cs := by
  have h' : Ends fmt i ([c] ++ cs) := h
  exact h'.append

theorem Ends.past (h : Ends fmt i []) : fmt[i + 1]? = none := by
  have hnil : fmt.drop (i + 1) = [] := by
    rw [← List.drop_drop, h]
    rfl
  exact List.getElem?_eq_none (List.drop_eq_nil_iff.mp hnil)

theorem Ends.next (h : Ends fmt i cs) : fmt[i]? = some (nextChar cs) := by
  cases cs with
  | nil => exact h.atNul
  | cons c cs => exact h.head

end Ends

/-! ## What the scanners find

A scanner that is to take `run.length` characters either does, or there is nothing after
them that may be read. -/

/-- A scanner takes `n` characters if there is one more. -/
def Finds {α : Type} (s : Scan α) (len i n : Nat) (a : α) : Prop :=
  (i + n < len → s = some (.ok a, i + n)) ∧ (len ≤ i + n → ∃ err j, s = some (.error err, j))

theorem isModifier_flag {c : Char} (h : c ∈ flagChars) : isModifier c = true :=
  decide_eq_true (List.mem_append_left _ h)

theorem not_isModifier {c : Char} (h : c ∉ flagChars) (hnul : c ≠ nul) : isModifier c = false :=
  decide_eq_false (by simpa using ⟨h, hnul⟩)

section Scanners

variable {fmt cs : List Char} {len i : Nat}

/-- Flags, and then another character. -/
theorem skipFlags_run {flags : List Char} {c : Char} (hflags : ∀ f ∈ flags, f ∈ flagChars)
    (hc : c ∉ flagChars) (hnul : c ≠ nul) (h : Ends fmt i (flags ++ c :: cs))
    (hlen : i + (flags ++ c :: cs).length ≤ len) :
    skipFlags fmt len i = some (.ok (), i + flags.length) := by
  induction flags generalizing i with
  | nil =>
    rw [skipFlags, h.head]
    simp [not_isModifier hc hnul]
  | cons f flags ih =>
    rw [List.forall_mem_cons] at hflags
    have hlen' : i + 1 + (flags ++ c :: cs).length ≤ len := by
      simp only [List.cons_append, List.length_cons] at hlen
      omega
    have hlt : i + 1 < len := by
      simp only [List.length_append, List.length_cons] at hlen'
      omega
    rw [skipFlags, h.head]
    simp only [isModifier_flag hflags.1, hlt, if_true]
    rw [ih hflags.2 h.tail hlen', List.length_cons]
    congr 2
    omega

/-- Flags and then the end: the zero is also taken for a flag. -/
theorem skipFlags_all (hflags : ∀ f ∈ cs, f ∈ flagChars) (h : Ends fmt i cs) (hi : i < len)
    (hlen : i + cs.length ≤ len) :
    skipFlags fmt len i =
      if i + cs.length + 1 < len then none
      else some (.error "invalid modifier character", len) := by
  induction cs generalizing i with
  | nil =>
    have hnul : isModifier nul = true := by decide
    rw [skipFlags, h.atNul]
    simp only [hnul, if_true, List.length_nil, Nat.add_zero]
    by_cases hlt : i + 1 < len
    · rw [if_pos hlt, if_pos hlt, skipFlags, h.past]
    · rw [if_neg hlt, if_neg hlt]
      congr 2
      omega
  | cons f cs ih =>
    rw [List.forall_mem_cons] at hflags
    rw [List.length_cons] at hlen ⊢
    rw [skipFlags, h.head]
    simp only [isModifier_flag hflags.1, if_true]
    by_cases hlt : i + 1 < len
    · rw [if_pos hlt, ih hflags.2 h.tail hlt (by omega),
        show i + 1 + cs.length + 1 = i + (cs.length + 1) + 1 by omega]
    · rw [if_neg hlt, if_neg (by omega)]
      congr 2
      omega

/-- Digits, and then something else. -/
theorem skipDigits_run {ds : List Char} (hds : ∀ d ∈ ds, d.isDigit = true)
    (hcs : (nextChar cs).isDigit = false) (h : Ends fmt i (ds ++ cs)) (hi : i < len)
    (hlen : i + (ds ++ cs).length ≤ len) :
    skipDigits fmt len i = some (decide (i + ds.length < len), i + ds.length) := by
  induction ds generalizing i with
  | nil =>
    have hnext : fmt[i]? = some (nextChar cs) := h.next
    rw [skipDigits, hnext]
    simp [hcs, hi]
  | cons d ds ih =>
    rw [List.forall_mem_cons] at hds
    rw [List.cons_append, List.length_cons] at hlen
    have hlen' : i + 1 + (ds ++ cs).length ≤ len := by omega
    rw [skipDigits, h.head]
    simp only [hds.1, if_true, List.length_cons]
    by_cases hlt : i + 1 < len
    · rw [if_pos hlt, ih hds.2 h.tail hlt hlen',
        show i + 1 + ds.length = i + (ds.length + 1) by omega]
    · have hnil : ds.length = 0 := by
        rw [List.length_append] at hlen'
        omega
      simp [hlt, hnil]

/-- The field that is found is the longest one. -/
def Field.Longest (cs : List Char) : Field → Prop
  | .star => True
  | .digits ds => (nextChar cs).isDigit = false ∧ (ds = [] → nextChar cs ≠ '*')

theorem parseDigit_run {f : Field} (hf : f.Valid) (hlong : f.Longest cs)
    (h : Ends fmt i (f.text ++ cs)) (hi : i < len) (hlen : i + (f.text ++ cs).length ≤ len) :
    parseDigit fmt len i =
      some (decide (i + f.text.length < len), f.isStar, i + f.text.length) := by
  cases f with
  | star =>
    rw [parseDigit, h.next]
    rfl
  | digits ds =>
    have hstar : nextChar (ds ++ cs) ≠ '*' := by
      cases ds with
      | nil => exact hlong.2 rfl
      | cons d ds =>
        rintro rfl
        exact absurd (hf '*' (List.mem_cons_self ..)) (by decide)
    rw [parseDigit, h.next]
    simp only [Field.text, hstar, if_false]
    rw [skipDigits_run hf hlong.1 h hi hlen]
    rfl

theorem parseField_run (err : String) {f : Field} (hf : f.Valid) (hlong : f.Longest cs)
    (h : Ends fmt i (f.text ++ cs)) (hi : i < len) (hlen : i + (f.text ++ cs).length ≤ len) :
    Finds (parseField err fmt len i) len i f.text.length f.isStar := by
  rw [parseField, parseDigit_run hf hlong h hi hlen]
  constructor
  · intro hlt
    simp [hlt]
  · intro hle
    have hnot : ¬ i + f.text.length < len := Nat.not_lt.mpr hle
    exact ⟨err, i + f.text.length, by simp [hnot]⟩

theorem parsePrecision_run {p : Option Field} (hp : ∀ f, p = some f → f.Valid ∧ f.Longest cs)
    (hnone : p = none → nextChar cs ≠ '.')
    (h : Ends fmt i (Directive.precisionText p ++ cs)) (hi : i < len)
    (hlen : i + (Directive.precisionText p ++ cs).length ≤ len) :
    Finds (parsePrecision fmt len i) len i (Directive.precisionText p).length
      (p.elim false Field.isStar) := by
  cases p with
  | none =>
    have hnext : fmt[i]? = some (nextChar cs) := h.next
    have hdot : nextChar cs ≠ '.' := hnone rfl
    rw [parsePrecision, hnext]
    constructor
    · intro _
      simp [Directive.precisionText, hdot]
    · intro hle
      exact absurd hi (Nat.not_lt.mpr hle)
  | some f =>
    obtain ⟨hf, hlong⟩ := hp f rfl
    have h' : Ends fmt i ('.' :: (f.text ++ cs)) := h
    have hlen' : i + 1 + (f.text ++ cs).length ≤ len := by
      simp only [Directive.precisionText, List.cons_append, List.length_cons] at hlen
      omega
    rw [parsePrecision, h'.head]
    simp only [if_true, Directive.precisionText, List.length_cons, Option.elim]
    by_cases hlt : i + 1 < len
    · have hfield := parseField_run "invalid precision" hf hlong h'.tail hlt hlen'
      rw [Finds, Nat.add_assoc, Nat.add_comm 1] at hfield
      rw [if_pos hlt]
      exact hfield
    · rw [if_neg hlt]
      exact ⟨fun hlt' => absurd hlt' (by omega), fun _ => ⟨_, _, rfl⟩⟩

/-- The length modifier that is found is the longest one. -/
def LengthMod.Longest (cs : List Char) : LengthMod → Prop
  | .none => nextChar cs ∉ ['h', 'l', 'L', 'j', 't', 'z']
  | .h => nextChar cs ≠ 'h'
  | .l => nextChar cs ≠ 'l'
  | _ => True

/-- One character, which may come twice. -/
theorem parseTwice_once {c : Char} {once twice : LengthMod} (hc : nextChar cs ≠ c)
    (h : Ends fmt i (c :: cs)) : parseTwice fmt len i c once twice = some (once, i) := by
  have hnext : fmt[i + 1]? = some (nextChar cs) := h.tail.next
  rw [parseTwice, hnext]
  simp [hc]

theorem parseTwice_twice {c : Char} {once twice : LengthMod} (h : Ends fmt i (c :: c :: cs))
    (hlt : i + 1 < len) : parseTwice fmt len i c once twice = some (twice, i + 1) := by
  rw [parseTwice, if_pos hlt, h.tail.head]
  simp

theorem lengthSwitch_none {c : Char} (hc : c ∉ ['h', 'l', 'L', 'j', 't', 'z'])
    (hread : fmt[i]? = some c) : lengthSwitch fmt len i = some (.none, i) := by
  simp only [List.mem_cons, List.not_mem_nil, or_false, not_or] at hc
  rw [lengthSwitch, hread]
  split <;> simp_all

/-- What the switch finds, and where. -/
theorem lengthSwitch_run {mod : LengthMod} (hlong : mod.Longest cs)
    (h : Ends fmt i (mod.text ++ cs)) (hlen : i + (mod.text ++ cs).length ≤ len) :
    lengthSwitch fmt len i = some (mod, i + (mod.text.length - 1)) := by
  cases mod with
  | none => exact lengthSwitch_none hlong h.next
  | h =>
    rw [lengthSwitch, h.head]
    exact parseTwice_once hlong h
  | l =>
    rw [lengthSwitch, h.head]
    exact parseTwice_once hlong h
  | hh =>
    rw [lengthSwitch, h.head]
    exact parseTwice_twice h (by simp [LengthMod.text] at hlen; omega)
  | ll =>
    rw [lengthSwitch, h.head]
    exact parseTwice_twice h (by simp [LengthMod.text] at hlen; omega)
  | L | j | t | z =>
    rw [lengthSwitch, h.head]
    rfl

theorem LengthMod.text_pos {mod : LengthMod} (h : mod ≠ .none) : 0 < mod.text.length := by
  cases mod <;> first | exact absurd rfl h | exact Nat.succ_pos _

theorem parseLength_run {mod : LengthMod} (hlong : mod.Longest cs) (h : Ends fmt i (mod.text ++ cs))
    (hi : i < len) (hlen : i + (mod.text ++ cs).length ≤ len) :
    Finds (parseLength fmt len i) len i mod.text.length mod := by
  rw [parseLength, lengthSwitch_run hlong h hlen, Option.map_some]
  by_cases hnone : mod = .none
  · subst hnone
    exact ⟨fun _ => rfl, fun hle => absurd hi (Nat.not_lt.mpr hle)⟩
  · have hpos := LengthMod.text_pos hnone
    have hlast : i + (mod.text.length - 1) + 1 = i + mod.text.length := by omega
    simp only [hnone, if_false, hlast]
    exact ⟨fun hlt => by rw [if_pos hlt], fun hle => by
      rw [if_neg (Nat.not_lt.mpr hle)]
      exact ⟨_, _, rfl⟩⟩

end Scanners

section AndThen

variable {α β : Type} {s : Scan α} {k : α → Nat → Scan β} {len i n : Nat} {a : α}

theorem Finds.andThen (h : Finds s len i n a) (hlt : i + n < len) : s.andThen k = k a (i + n) := by
  rw [h.1 hlt]
  rfl

theorem Finds.andThen_error (h : Finds s len i n a)
    (hk : i + n < len → ∃ err j, k a (i + n) = some (.error err, j)) :
    ∃ err j, s.andThen k = some (.error err, j) := by
  rcases Nat.lt_or_ge (i + n) len with hlt | hle
  · rw [h.andThen hlt]
    exact hk hlt
  · obtain ⟨err, j, herr⟩ := h.2 hle
    exact ⟨err, j, by rw [herr]; rfl⟩

end AndThen

/-! ## A whole directive -/

/-- Each part is the longest one, with `rest` after the length modifier. -/
structure Directive.Longest (d : Directive) (rest : List Char) : Prop where
  flags : ∀ f ∈ d.flags, f ∈ flagChars
  width : d.width.Valid ∧
    d.width.Longest (Directive.precisionText d.precision ++ (d.length.text ++ rest))
  precision : ∀ f, d.precision = some f → f.Valid ∧ f.Longest (d.length.text ++ rest)
  noPrecision : d.precision = none → nextChar (d.length.text ++ rest) ≠ '.'
  length : d.length.Longest rest
  stops : ∃ c cs, d.width.text ++ (Directive.precisionText d.precision ++
    (d.length.text ++ rest)) = c :: cs ∧ c ∉ flagChars ∧ c ≠ nul

section Directives

variable {sys : Sys} {fmt rest : List Char} {len i : Nat} {d : Directive}

theorem parseFormatArg_run (sys : Sys) (hd : d.Longest rest) (h : Ends fmt i (d.body ++ rest))
    (hlen : i + (d.body ++ rest).length ≤ len) :
    (i + d.body.length < len → parseFormatArg sys fmt len i =
      some ((conversion sys d.length (nextChar rest)).map fun ty =>
        ⟨ty, d.width.isStar, d.precision.elim false Field.isStar⟩, i + d.body.length)) ∧
    (len ≤ i + d.body.length →
      ∃ err j, parseFormatArg sys fmt len i = some (.error err, j)) := by
  obtain ⟨c, cs, hstops, hc, hnul⟩ := hd.stops
  have hbody : d.body ++ rest = d.flags ++ (d.width.text ++
      (Directive.precisionText d.precision ++ (d.length.text ++ rest))) := by
    rw [Directive.body, List.append_assoc, List.append_assoc, List.append_assoc]
  have hsize : d.body.length = d.flags.length + d.width.text.length +
      (Directive.precisionText d.precision).length + d.length.text.length := by
    simp only [Directive.body, List.length_append]
    omega
  rw [hbody] at h hlen
  have h1 := h.append
  have h2 := h1.append
  have h3 := h2.append
  have h4 : Ends fmt (i + d.body.length) rest := by
    rw [hsize, ← Nat.add_assoc, ← Nat.add_assoc, ← Nat.add_assoc]
    exact h3.append
  simp only [List.length_append] at hlen
  have hpos : i + d.flags.length < len := by
    have hsome := congrArg List.length hstops
    simp only [List.length_append, List.length_cons] at hsome
    omega
  have hflags : Finds (skipFlags fmt len i) len i d.flags.length () := by
    rw [hstops] at h
    refine ⟨fun _ => skipFlags_run hd.flags hc hnul h ?_, fun hle => absurd hpos (by omega)⟩
    rw [← hstops]
    simp only [List.length_append]
    omega
  have hwidth := parseField_run "invalid field width" hd.width.1 hd.width.2 h1 hpos
    (by simp only [List.length_append]; omega)
  have hprecision := fun hlt : _ < len => parsePrecision_run hd.precision hd.noPrecision h2 hlt
    (by simp only [List.length_append]; omega)
  have hlength := fun hlt : _ < len => parseLength_run hd.length h3 hlt
    (by simp only [List.length_append]; omega)
  constructor
  · intro hlt
    have hlt2 : i + d.flags.length + d.width.text.length < len := by omega
    have hlt3 : i + d.flags.length + d.width.text.length +
        (Directive.precisionText d.precision).length < len := by omega
    rw [parseFormatArg, hflags.andThen hpos, hwidth.andThen hlt2,
      (hprecision hlt2).andThen hlt3, (hlength hlt3).andThen (by omega)]
    rw [hsize, ← Nat.add_assoc, ← Nat.add_assoc, ← Nat.add_assoc] at h4 ⊢
    rw [h4.next]
    rfl
  · intro hle
    rw [parseFormatArg, hflags.andThen hpos]
    refine hwidth.andThen_error fun hlt2 => (hprecision hlt2).andThen_error fun hlt3 =>
      (hlength hlt3).andThen_error fun hlt4 => absurd hlt4 (by omega)

end Directives

/-! ## The longest parts -/

theorem exists_run (p : Char → Prop) [DecidablePred p] (cs : List Char) :
    ∃ run rest, cs = run ++ rest ∧ (∀ c ∈ run, p c) ∧ ∀ c ∈ rest.head?, ¬ p c := by
  induction cs with
  | nil => exact ⟨[], [], rfl, by simp, by simp⟩
  | cons c cs ih =>
    by_cases hc : p c
    · obtain ⟨run, rest, rfl, hrun, hrest⟩ := ih
      exact ⟨c :: run, rest, rfl, List.forall_mem_cons.mpr ⟨hc, hrun⟩, hrest⟩
    · exact ⟨[], c :: cs, rfl, by simp, by simpa using hc⟩

theorem nextChar_of_head {p : Char → Prop} {cs : List Char} (hnul : p nul)
    (h : ∀ c ∈ cs.head?, p c) : p (nextChar cs) := by
  cases cs with
  | nil => exact hnul
  | cons c cs => exact h c rfl

theorem exists_field (cs : List Char) :
    ∃ (f : Field) (rest : List Char), cs = f.text ++ rest ∧ f.Valid ∧ f.Longest rest := by
  obtain ⟨ds, rest, rfl, hds, hrest⟩ := exists_run (fun c => c.isDigit = true) cs
  have hnext : (nextChar rest).isDigit = false :=
    nextChar_of_head (p := fun c => c.isDigit = false) (by decide) (by simpa using hrest)
  by_cases hstar : ds = [] ∧ nextChar rest = '*'
  · obtain ⟨rfl, hstar⟩ := hstar
    cases rest with
    | nil => exact absurd hstar (by decide)
    | cons c rest =>
      obtain rfl : c = '*' := hstar
      exact ⟨.star, rest, rfl, trivial, trivial⟩
  · exact ⟨.digits ds, rest, rfl, hds, hnext, fun hnil hc => hstar ⟨hnil, hc⟩⟩

theorem exists_precision (cs : List Char) :
    ∃ (p : Option Field) (rest : List Char), cs = Directive.precisionText p ++ rest ∧
      (∀ f, p = some f → f.Valid ∧ f.Longest rest) ∧ (p = none → nextChar rest ≠ '.') := by
  by_cases hdot : nextChar cs = '.'
  · cases cs with
    | nil => exact absurd hdot (by decide)
    | cons c cs =>
      obtain rfl : c = '.' := hdot
      obtain ⟨f, rest, rfl, hf, hlong⟩ := exists_field cs
      exact ⟨some f, rest, rfl, fun f' hf' => Option.some.inj hf' ▸ ⟨hf, hlong⟩, nofun⟩
  · exact ⟨none, cs, rfl, nofun, fun _ => hdot⟩

theorem exists_length (cs : List Char) :
    ∃ (mod : LengthMod) (rest : List Char), cs = mod.text ++ rest ∧ mod.Longest rest := by
  have htwice : ∀ (c : Char) (once twice : LengthMod), c ≠ nul → once.text = [c] →
      twice.text = [c, c] → (∀ rest, nextChar rest ≠ c → once.Longest rest) →
      (∀ rest, twice.Longest rest) → ∀ cs, nextChar cs = c →
      ∃ (mod : LengthMod) (rest : List Char), cs = mod.text ++ rest ∧ mod.Longest rest := by
    intro c once twice hne honce htwo hlong1 hlong2 cs hc
    obtain ⟨cs', rfl⟩ : ∃ cs', cs = c :: cs' := by
      cases cs with
      | nil => exact absurd hc.symm hne
      | cons c' cs => exact ⟨cs, congrArg (· :: cs) hc⟩
    by_cases hagain : nextChar cs' = c
    · obtain ⟨cs', rfl⟩ : ∃ cs'', cs' = c :: cs'' := by
        cases cs' with
        | nil => exact absurd hagain.symm hne
        | cons c' cs => exact ⟨cs, congrArg (· :: cs) hagain⟩
      exact ⟨twice, cs', by rw [htwo]; rfl, hlong2 cs'⟩
    · exact ⟨once, cs', by rw [honce]; rfl, hlong1 cs' hagain⟩
  by_cases hh : nextChar cs = 'h'
  · exact htwice 'h' .h .hh (by decide) rfl rfl (fun _ h => h) (fun _ => trivial) cs hh
  by_cases hl : nextChar cs = 'l'
  · exact htwice 'l' .l .ll (by decide) rfl rfl (fun _ h => h) (fun _ => trivial) cs hl
  by_cases hother : nextChar cs ∈ ['L', 'j', 't', 'z']
  · cases cs with
    | nil => exact absurd hother (by decide)
    | cons c cs =>
      simp only [nextChar, List.mem_cons, List.not_mem_nil, or_false] at hother
      rcases hother with rfl | rfl | rfl | rfl
      · exact ⟨.L, cs, rfl, trivial⟩
      · exact ⟨.j, cs, rfl, trivial⟩
      · exact ⟨.t, cs, rfl, trivial⟩
      · exact ⟨.z, cs, rfl, trivial⟩
  · refine ⟨.none, cs, rfl, ?_⟩
    simp only [List.mem_cons, List.not_mem_nil, or_false, not_or] at hother
    simp only [LengthMod.Longest, List.mem_cons, List.not_mem_nil, or_false, not_or]
    exact ⟨hh, hl, hother⟩

/-- A text is flags, or it begins with parts of a directive that are the longest ones. -/
theorem exists_longest {cs : List Char} (hnul : nul ∉ cs) (hnot : ¬ ∀ f ∈ cs, f ∈ flagChars)
    (conv : Char) :
    ∃ (d : Directive) (rest : List Char), d.conv = conv ∧ cs = d.body ++ rest ∧
      d.Longest rest := by
  obtain ⟨flags, cs1, rfl, hflags, hstop⟩ := exists_run (fun c => c ∈ flagChars) cs
  obtain ⟨width, cs2, rfl, hwidth, hwlong⟩ := exists_field cs1
  obtain ⟨precision, cs3, rfl, hprecision, hnone⟩ := exists_precision cs2
  obtain ⟨mod, rest, rfl, hlength⟩ := exists_length cs3
  refine ⟨⟨flags, width, precision, mod, conv⟩, rest, rfl, ?_,
    ⟨hflags, ⟨hwidth, hwlong⟩, hprecision, hnone, hlength, ?_⟩⟩
  · rw [Directive.body, List.append_assoc, List.append_assoc, List.append_assoc]
  · dsimp only
    generalize width.text ++ (Directive.precisionText precision ++ (mod.text ++ rest)) = tail at *
    cases tail with
    | nil =>
      rw [List.append_nil] at hnot
      exact absurd hflags hnot
    | cons c tail =>
      refine ⟨c, tail, rfl, hstop c rfl, ?_⟩
      rintro rfl
      exact hnul (List.mem_append_right _ (List.mem_cons_self ..))

/-! ## Conversions -/

/-- The switch is the table of conversions. -/
theorem conversion_ok {sys : Sys} {mod : LengthMod} {c : Char} {ty : Option Ty} :
    conversion sys mod c = .ok ty ↔ ownType sys mod c = some ty := by
  unfold conversion
  split
  case h_19 => cases mod <;> cases sys <;> simp [ownType]
  case h_21 =>
    have hnone : ownType sys mod c = none := by
      unfold ownType
      split <;> first | rfl | simp_all
    rw [hnone]
    constructor <;> intro h <;> cases h
  all_goals cases mod <;> simp [ownType, LengthMod.int, LengthMod.float, LengthMod.char]

/-- No conversion is a character of another part. -/
theorem ownType_ne {sys : Sys} {mod : LengthMod} {c : Char} {ty : Option Ty}
    (h : ownType sys mod c = some ty) :
    c ∉ flagChars ∧ c.isDigit = false ∧ c ∉ ['*', '.', 'h', 'l', 'L', 'j', 't', 'z', nul] := by
  unfold ownType at h
  split at h
  case h_21 => cases h
  all_goals decide

section Directives

variable {sys : Sys} {fmt cs rest : List Char} {len i : Nat} {d : Directive}

theorem nextChar_length (mod : LengthMod) (c : Char) (rest : List Char) :
    nextChar (mod.text ++ c :: rest) ∈ c :: ['h', 'l', 'L', 'j', 't', 'z'] := by
  cases mod <;> simp [LengthMod.text, nextChar]

/-- What may come after a width or a precision. -/
theorem Directive.Valid.next_field (hd : d.Valid sys) (p : Option Field) (rest : List Char) :
    nextChar (Directive.precisionText p ++ (d.length.text ++ d.conv :: rest)) ∉
      '*' :: nul :: flagChars ∧
    (nextChar (Directive.precisionText p ++ (d.length.text ++ d.conv :: rest))).isDigit =
      false := by
  have hletters : ∀ c ∈ ['h', 'l', 'L', 'j', 't', 'z'],
      c ∉ '*' :: nul :: flagChars ∧ c.isDigit = false := by simp [nul, flagChars]
  cases p with
  | some f => exact ⟨(by decide : '.' ∉ '*' :: nul :: flagChars), (by decide : '.'.isDigit = false)⟩
  | none =>
    obtain ⟨ty, hty⟩ := hd.conv
    obtain ⟨hflag, hdigit, hother⟩ := ownType_ne hty
    rw [Directive.precisionText, List.nil_append]
    rcases List.mem_cons.1 (nextChar_length d.length d.conv rest) with hconv | hletter
    · simp only [List.mem_cons, List.not_mem_nil, or_false, not_or] at hother
      rw [hconv, List.mem_cons, List.mem_cons, not_or, not_or]
      exact ⟨⟨hother.1, hother.2.2.2.2.2.2.2.2, hflag⟩, hdigit⟩
    · exact hletters _ hletter

theorem Directive.Valid.next_length (hd : d.Valid sys) (rest : List Char) :
    nextChar (d.length.text ++ d.conv :: rest) ≠ '.' ∧ d.length.Longest (d.conv :: rest) := by
  obtain ⟨ty, hty⟩ := hd.conv
  obtain ⟨-, -, hother⟩ := ownType_ne hty
  simp only [List.mem_cons, List.not_mem_nil, or_false, not_or] at hother
  constructor
  · intro hdot
    have hnext := nextChar_length d.length d.conv rest
    rw [hdot, List.mem_cons] at hnext
    rcases hnext with hconv | hletter
    · exact hother.2.1 hconv.symm
    · exact absurd hletter (by decide)
  · cases d.length with
    | none => simp [LengthMod.Longest, nextChar, hother]
    | h => exact hother.2.2.1
    | l => exact hother.2.2.2.1
    | hh | ll | L | j | t | z => exact trivial

/-- The zeros at the front of a width are flags. -/
theorem exists_zeros {ds : List Char} (hds : ∀ c ∈ ds, c.isDigit = true) :
    ∃ zeros ds', ds = zeros ++ ds' ∧ (∀ c ∈ zeros, c ∈ flagChars) ∧
      (∀ c ∈ ds', c.isDigit = true) ∧ ∀ c ∈ ds'.head?, c ∉ flagChars := by
  obtain ⟨zeros, ds', rfl, hzeros, hrest⟩ := exists_run (fun c => c = '0') ds
  rw [List.forall_mem_append] at hds
  refine ⟨zeros, ds', rfl, fun c hc => ?_, hds.2, fun c hc hflag => ?_⟩
  · rw [hzeros c hc]
    decide
  · have hflags : ∀ f ∈ flagChars, f.isDigit = true → f = '0' := by simp [flagChars]
    exact hrest c hc (hflags c hflag (hds.2 c (List.mem_of_mem_head? hc)))

/-- Parts with the longest flags, for every valid directive. -/
theorem Directive.Valid.exists_longest (hd : d.Valid sys) (rest : List Char) :
    ∃ d' : Directive, d'.Longest (d.conv :: rest) ∧ d'.body = d.body ∧ d'.length = d.length ∧
      d'.width.isStar = d.width.isStar ∧ d'.precision = d.precision := by
  have hlong : ∀ (p : Option Field) (f : Field),
      f.Longest (Directive.precisionText p ++ (d.length.text ++ d.conv :: rest)) := by
    intro p f
    obtain ⟨hstar, hdigit⟩ := hd.next_field p rest
    cases f with
    | star => trivial
    | digits ds => exact ⟨hdigit, fun _ hc => hstar (hc ▸ List.mem_cons_self ..)⟩
  have hprecision : ∀ f, d.precision = some f →
      f.Valid ∧ f.Longest (d.length.text ++ d.conv :: rest) :=
    fun f hf => ⟨hd.precision f hf, hlong none f⟩
  obtain ⟨hdot, hlength⟩ := hd.next_length rest
  cases hwidth : d.width with
  | star =>
    refine ⟨d, ⟨hd.flags, ⟨hd.width, hlong _ _⟩, hprecision, fun _ => hdot, hlength, ?_⟩,
      rfl, rfl, by rw [hwidth], rfl⟩
    rw [hwidth]
    exact ⟨'*', _, rfl, by decide, by decide⟩
  | digits ds =>
    have hds : (Field.digits ds).Valid := hwidth ▸ hd.width
    obtain ⟨zeros, ds', rfl, hzeros, hds', hhead⟩ := exists_zeros hds
    refine ⟨⟨d.flags ++ zeros, .digits ds', d.precision, d.length, d.conv⟩,
      ⟨List.forall_mem_append.mpr ⟨hd.flags, hzeros⟩, ⟨hds', hlong _ _⟩, hprecision,
        fun _ => hdot, hlength, ?_⟩, ?_, rfl, rfl, rfl⟩
    · cases ds' with
      | cons c ds' =>
        refine ⟨c, _, rfl, hhead c rfl, ?_⟩
        rintro rfl
        exact absurd (hds' nul (List.mem_cons_self ..)) (by decide)
      | nil =>
        obtain ⟨hnext, -⟩ := hd.next_field d.precision rest
        simp only [Field.text, List.nil_append]
        generalize Directive.precisionText d.precision ++ (d.length.text ++ d.conv :: rest) = tail
          at *
        cases tail with
        | nil => exact absurd hnext (by decide)
        | cons c tail =>
          rw [nextChar, List.mem_cons, List.mem_cons, not_or, not_or] at hnext
          exact ⟨c, tail, rfl, hnext.2.2, hnext.2.1⟩
    · simp only [Directive.body, Field.text, hwidth, List.append_assoc]

/-- A directive is taken as it is. -/
theorem parseFormatArg_of_valid (hd : d.Valid sys) (h : Ends fmt i (d.text ++ rest))
    (hlen : i + (d.text ++ rest).length ≤ len) :
    ∃ arg, parseFormatArg sys fmt len i = some (.ok arg, i + d.body.length) ∧
      argsOf arg.expectedFieldWidth arg.expectedPrecision arg.expectedType = d.args sys := by
  obtain ⟨d', hlong, hbody, hmod, hstar, hprecision⟩ := hd.exists_longest rest
  obtain ⟨ty, hty⟩ := hd.conv
  have htext : d.text ++ rest = d'.body ++ d.conv :: rest := by
    rw [Directive.text, List.append_assoc, hbody]
    rfl
  rw [htext] at h hlen
  have hlt : i + d'.body.length < len := by
    rw [List.length_append, List.length_cons] at hlen
    omega
  refine ⟨⟨ty, d.width.isStar, d.precision.elim false Field.isStar⟩, ?_, ?_⟩
  · rw [(parseFormatArg_run sys hlong h hlen).1 hlt, hmod, hstar, hprecision, ← hbody]
    have hconv : conversion sys d.length (nextChar (d.conv :: rest)) = .ok ty :=
      conversion_ok.mpr hty
    rw [hconv]
    rfl
  · rw [Directive.args, hty]
    rfl

/-- What is taken is a directive. -/
theorem valid_of_parseFormatArg {arg : FormatArg} {j : Nat} (hnul : nul ∉ cs)
    (h : Ends fmt i cs) (hi : i < len) (hlen : i + cs.length ≤ len)
    (hok : parseFormatArg sys fmt len i = some (.ok arg, j)) : Starts sys cs := by
  by_cases hflags : ∀ f ∈ cs, f ∈ flagChars
  · rw [parseFormatArg, skipFlags_all hflags h hi hlen] at hok
    split at hok <;> cases hok
  · obtain ⟨d, rest, -, rfl, hlong⟩ := Printf.exists_longest hnul hflags nul
    obtain ⟨hgo, hstop⟩ := parseFormatArg_run sys hlong h hlen
    rcases Nat.lt_or_ge (i + d.body.length) len with hlt | hle
    · rw [hgo hlt] at hok
      cases hconv : conversion sys d.length (nextChar rest) with
      | error err =>
        rw [hconv] at hok
        cases hok
      | ok ty =>
        have hty := conversion_ok.mp hconv
        cases rest with
        | nil => exact ((ownType_ne hty).2.2 (by decide)).elim
        | cons c rest =>
          refine ⟨{ d with conv := c }, rest, ⟨hlong.flags, hlong.width.1,
            fun p hp => (hlong.precision p hp).1, ty, hty⟩, ?_⟩
          rw [Directive.text, List.append_assoc]
          rfl
    · obtain ⟨err, j', herr⟩ := hstop hle
      rw [herr] at hok
      cases hok

theorem not_starts_of_flags (hflags : ∀ f ∈ cs, f ∈ flagChars) : ¬ Starts sys cs := by
  rintro ⟨d, rest, hd, rfl⟩
  obtain ⟨ty, hty⟩ := hd.conv
  refine (ownType_ne hty).1 (hflags d.conv ?_)
  rw [Directive.text]
  simp

/-- What is no directive is an error, unless the zero is taken for a flag and there is
more of `len` to read. -/
theorem parseFormatArg_of_not_starts (hnul : nul ∉ cs) (h : Ends fmt i cs) (hi : i < len)
    (hlen : i + cs.length ≤ len) (hnot : ¬ Starts sys cs)
    (hpast : (∀ f ∈ cs, f ∈ flagChars) → len ≤ i + cs.length + 1) :
    ∃ err j, parseFormatArg sys fmt len i = some (.error err, j) := by
  by_cases hflags : ∀ f ∈ cs, f ∈ flagChars
  · rw [parseFormatArg, skipFlags_all hflags h hi hlen, if_neg (Nat.not_lt.mpr (hpast hflags))]
    exact ⟨_, _, rfl⟩
  · cases hr : parseFormatArg sys fmt len i with
    | none =>
      obtain ⟨d, rest, -, rfl, hlong⟩ := Printf.exists_longest hnul hflags nul
      obtain ⟨hgo, hstop⟩ := parseFormatArg_run sys hlong h hlen
      rcases Nat.lt_or_ge (i + d.body.length) len with hlt | hle
      · rw [hgo hlt] at hr
        cases hr
      · obtain ⟨err, j, herr⟩ := hstop hle
        rw [herr] at hr
        cases hr
    | some r =>
      obtain ⟨r, j⟩ := r
      cases r with
      | error err => exact ⟨err, j, rfl⟩
      | ok arg => exact absurd (valid_of_parseFormatArg hnul h hi hlen hr) hnot

theorem parseFormatArg_past (hflags : ∀ f ∈ cs, f ∈ flagChars) (h : Ends fmt i cs) (hi : i < len)
    (hpast : i + cs.length + 1 < len) : parseFormatArg sys fmt len i = none := by
  rw [parseFormatArg, skipFlags_all hflags h hi (by omega), if_pos hpast]
  rfl

end Directives

end Ucc.Cc1.Printf
