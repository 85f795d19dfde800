/-
  Util/Escape.lean --- escapes in string literals.

  Source: src/util/escape.c, and cstring_escape and str_add_escape in
  src/cc1/str.c.

  A text is the bytes of a buffer from a place on; after its last byte comes a
  zero.  The reader shares its scanner of digits with the integer literals, in
  which an underscore may follow any digit.
-/
import Mathlib.Tactic

set_option autoImplicit false

namespace Ucc.Util

/-- A character of the source, as a byte. -/
def ascii (c : Char) : UInt8 := c.val.toUInt8

/-- `*s` -/
def peek (s : List UInt8) : UInt8 := s.headD 0

/-! ## Reading -/

/-- `isdigit` -/
def isdigit (c : UInt8) : Bool := ascii '0' ≤ c && c ≤ ascii '9'

/-- `isbdigit` -/
def isbdigit (c : UInt8) : Bool := c == ascii '0' || c == ascii '1'

/-- `isodigit`, and `isoct` -/
def isodigit (c : UInt8) : Bool := ascii '0' ≤ c && c < ascii '8'

/-- `tolower` -/
def tolower (c : UInt8) : UInt8 :=
  if ascii 'A' ≤ c && c ≤ ascii 'Z' then c + 32 else c

/-- `isxdigit` -/
def isxdigit (c : UInt8) : Bool :=
  isdigit c || (ascii 'a' ≤ tolower c && tolower c ≤ ascii 'f')

/-- `isprint`, in the C locale. -/
def isprint (c : UInt8) : Bool := 32 ≤ c && c ≤ 126

/-- The table of `escape_char1`. -/
def escapechars : List (Char × UInt8) :=
  [('n', 10), ('t', 9), ('b', 8), ('r', 13), ('v', 11), ('f', 12), ('0', 0), ('a', 7),
   ('e', 27), ('\\', ascii '\\'), ('\'', ascii '\''), ('?', ascii '?'), ('"', ascii '"')]

/-- `escape_char1`; `none` is `-1`. -/
def escapeChar1 (c : UInt8) : Option UInt8 :=
  (escapechars.find? fun e => ascii e.1 == c).map Prod.snd

/-- `inc_and_chk`: the new value, and whether it overflowed. -/
def incAndChk (val : UInt64) (base inc : UInt64) : UInt64 × Bool :=
  let new := val * base + inc
  (new, new < val || val * base < val)

/-- The value of a digit. -/
def digitValue (c : UInt8) : UInt64 :=
  if isdigit c then (c - ascii '0').toUInt64 else (tolower c - ascii 'a' + 10).toUInt64

/-- What `read_ap_num` returns: the value, the rest, and whether it overflowed. -/
structure ApNum where
  val : UInt64
  rest : List UInt8
  of : Bool
  deriving DecidableEq, Repr

/-- The loop of `read_ap_num`; `maxChars` is `none` where there is no limit. -/
def readApNum (test : UInt8 → Bool) (base : UInt64) (maxChars : Option Nat) (val : UInt64)
    (s : List UInt8) : ApNum :=
  match s with
  | [] => ⟨val, [], false⟩
  | c :: s =>
      if test c then
        match incAndChk val base (digitValue c) with
        | (new, true) => ⟨new, (c :: s).dropWhile fun c => test c || c == ascii '_', true⟩
        | (new, false) =>
            let s' := s.dropWhile (· == ascii '_')
            if maxChars = some 1 then ⟨new, s', false⟩
            else readApNum test base (maxChars.map (· - 1)) new s'
      else ⟨val, c :: s, false⟩
termination_by s.length
decreasing_by
  exact Nat.lt_succ_of_le (List.dropWhile_sublist _).length_le

/-- `enum base` -/
inductive Base where
  | bin | oct | dec | hex
  deriving DecidableEq, Repr

/-- The table of `char_seq_to_ullong`. -/
def bases : Base → UInt64 × Option Nat × (UInt8 → Bool)
  | .bin => (2, none, isbdigit)
  | .oct => (8, some 3, isodigit)
  | .dec => (10, none, isdigit)
  | .hex => (16, none, isxdigit)

/-- `char_seq_to_ullong` -/
def charSeqToUllong (s : List UInt8) (applyLimit : Bool) (mode : Base) : ApNum :=
  let (base, maxChars, test) := bases mode
  readApNum test base (if applyLimit then maxChars else none) 0 s

/-- The error codes of an escape. -/
inductive Errno where
  | einval | erange | eilseq
  deriving DecidableEq, Repr

/-- What `escape_char_1` returns: the character, the rest, and its `warn` and
`err`. -/
structure Escaped where
  char : UInt32
  rest : List UInt8
  warn : Option Errno
  err : Option Errno
  deriving DecidableEq, Repr

/-- `escape_char_1`, on what follows the backslash. -/
def escapeChar_1 (start : List UInt8) (isWide : Bool) : Escaped :=
  let esc := peek start
  if esc == ascii 'x' || isodigit esc then
    let digits := if esc == ascii 'x' then start.tail else start
    let n := charSeqToUllong digits true (if esc == ascii 'x' then .hex else .oct)
    { char := n.val.toUInt32
      rest := n.rest
      warn := none
      err :=
        if (if isWide then 0x7fffffff else 0xff) < n.val then some .erange
        else if n.rest.length = digits.length then some .eilseq
        else if n.of then some .erange
        else none }
  else
    match escapeChar1 esc with
    | some c => ⟨c.toUInt32, start.tail, none, none⟩
    | none => ⟨-1, start.tail, some .einval, none⟩

/-- A character that `cstring_escape` adds, with what it reports. -/
structure Added where
  add : UInt32
  warn : Option Errno := none
  err : Option Errno := none
  deriving DecidableEq, Repr

theorem readApNum_length (test : UInt8 → Bool) (base : UInt64) (maxChars : Option Nat)
    (val : UInt64) (s : List UInt8) :
    (readApNum test base maxChars val s).rest.length ≤ s.length := by
  fun_induction readApNum test base maxChars val s with
  | case1 => simp
  | case2 => exact (List.dropWhile_sublist _).length_le
  | case3 val c s _ _ _ s' =>
    exact Nat.le_succ_of_le (List.dropWhile_sublist _).length_le
  | case4 maxChars val c s _ _ _ s' _ ih =>
    exact Nat.le_succ_of_le (ih.trans (List.dropWhile_sublist _).length_le)
  | case5 => simp

theorem escapeChar_1_length (start : List UInt8) (isWide : Bool) :
    (escapeChar_1 start isWide).rest.length ≤ start.length := by
  unfold escapeChar_1
  dsimp only
  split
  · refine (readApNum_length _ _ _ _ _).trans ?_
    split
    · simp
    · exact Nat.le_refl _
  · split
    · simp
    · simp

/-- A `char` as an `unsigned`. -/
def ofChar (c : UInt8) : UInt32 := ⟨c.toBitVec.signExtend 32⟩

/-- The loop of `cstring_escape`. -/
def cstringEscapeLoop (isWide : Bool) (s : List UInt8) : List Added :=
  match s with
  | [] => []
  | c :: s =>
      if c == ascii '\\' then
        let e := escapeChar_1 s isWide
        ⟨e.char, e.warn, e.err⟩ :: cstringEscapeLoop isWide e.rest
      else ⟨ofChar c, none, none⟩ :: cstringEscapeLoop isWide s
termination_by s.length
decreasing_by
  · exact Nat.lt_succ_of_le (escapeChar_1_length s isWide)
  · exact Nat.lt_succ_self _

/-- `cstring_escape` to a string of bytes. -/
def cstringEscape (s : List UInt8) : List UInt8 :=
  (cstringEscapeLoop false s).map fun a => a.add.toUInt8

/-! ## Writing -/

/-- `sprintf("\\%03o")` -/
def octal (v : UInt8) : List UInt8 :=
  [ascii '\\', ascii '0' + v / 64, ascii '0' + v / 8 % 8, ascii '0' + v % 8]

/-- What `str_add_escape` writes for a character. -/
def addEscape (v : UInt8) : List UInt8 :=
  if v == ascii '\\' || v == ascii '"' then [ascii '\\', v]
  else if !isprint v then octal v
  else [v]

/-- `str_add_escape` -/
def strAddEscape (s : List UInt8) : List UInt8 := s.flatMap addEscape

/-! ## Reading what was written -/

@[simp] theorem ofChar_toUInt8 (c : UInt8) : (ofChar c).toUInt8 = c := by
  apply UInt8.toBitVec_inj.1
  apply BitVec.eq_of_getLsbD_eq
  intro i hi
  simp [ofChar, BitVec.getLsbD_signExtend, hi]
  omega

/-- A digit that does not overflow. -/
theorem readApNum_digit {test : UInt8 → Bool} {base : UInt64} {maxChars : Option Nat}
    {val : UInt64} {c : UInt8} {s : List UInt8} (htest : test c = true)
    (hof : (incAndChk val base (digitValue c)).2 = false) :
    readApNum test base maxChars val (c :: s) =
      if maxChars = some 1 then
        ⟨(incAndChk val base (digitValue c)).1, s.dropWhile (· == ascii '_'), false⟩
      else readApNum test base (maxChars.map (· - 1)) (incAndChk val base (digitValue c)).1
        (s.dropWhile (· == ascii '_')) := by
  rw [readApNum]
  simp only [htest, if_true]
  split
  · next hinc => simp [hinc] at hof
  · next hinc => simp [hinc]

/-- The three digits of an octal escape, one after the other. -/
theorem octal_digits (v : UInt8) :
    (isodigit (ascii '0' + v / 64) = true ∧ isodigit (ascii '0' + v / 8 % 8) = true ∧
      isodigit (ascii '0' + v % 8) = true) ∧
    ((ascii '0' + v / 8 % 8 == ascii '_') = false ∧ (ascii '0' + v % 8 == ascii '_') = false) ∧
    incAndChk 0 8 (digitValue (ascii '0' + v / 64)) = ((v / 64).toUInt64, false) ∧
    incAndChk (v / 64).toUInt64 8 (digitValue (ascii '0' + v / 8 % 8)) =
      ((v / 8).toUInt64, false) ∧
    incAndChk (v / 8).toUInt64 8 (digitValue (ascii '0' + v % 8)) = (v.toUInt64, false) := by
  have h : ∀ n : Fin 256,
      (isodigit (ascii '0' + UInt8.ofNat n / 64) = true ∧
        isodigit (ascii '0' + UInt8.ofNat n / 8 % 8) = true ∧
        isodigit (ascii '0' + UInt8.ofNat n % 8) = true) ∧
      ((ascii '0' + UInt8.ofNat n / 8 % 8 == ascii '_') = false ∧
        (ascii '0' + UInt8.ofNat n % 8 == ascii '_') = false) ∧
      incAndChk 0 8 (digitValue (ascii '0' + UInt8.ofNat n / 64)) =
        ((UInt8.ofNat n / 64).toUInt64, false) ∧
      incAndChk (UInt8.ofNat n / 64).toUInt64 8 (digitValue (ascii '0' + UInt8.ofNat n / 8 % 8)) =
        ((UInt8.ofNat n / 8).toUInt64, false) ∧
      incAndChk (UInt8.ofNat n / 8).toUInt64 8 (digitValue (ascii '0' + UInt8.ofNat n % 8)) =
        ((UInt8.ofNat n).toUInt64, false) := by
    decide +kernel
  have hv := h v.toFin
  simpa using hv

/-- An octal escape is read back whole, and the underscores after it with it. -/
theorem readApNum_octal (v : UInt8) (rest : List UInt8) :
    readApNum isodigit 8 (some 3) 0 ((octal v).tail ++ rest) =
      ⟨v.toUInt64, rest.dropWhile (· == ascii '_'), false⟩ := by
  obtain ⟨⟨hd1, hd2, hd3⟩, ⟨hu2, hu3⟩, h1, h2, h3⟩ := octal_digits v
  change readApNum isodigit 8 (some 3) 0 (_ :: _ :: _ :: rest) = _
  rw [readApNum_digit hd1 (by rw [h1]), List.dropWhile_cons_of_neg (by rw [hu2]; simp), h1]
  simp only [Option.map_some, Option.some.injEq, Nat.reduceEqDiff, if_false]
  rw [readApNum_digit hd2 (by rw [h2]), List.dropWhile_cons_of_neg (by rw [hu3]; simp), h2]
  simp only [Option.map_some, Option.some.injEq, Nat.reduceSub, Nat.reduceEqDiff, if_false]
  rw [readApNum_digit hd3 (by rw [h3]), h3]
  simp

theorem escapeChar_1_octal (v : UInt8) (rest : List UInt8) :
    (escapeChar_1 ((octal v).tail ++ rest) false).char.toUInt8 = v ∧
      (escapeChar_1 ((octal v).tail ++ rest) false).rest = rest.dropWhile (· == ascii '_') := by
  have hd := (octal_digits v).1.1
  have hpeek : peek ((octal v).tail ++ rest) = ascii '0' + v / 64 := rfl
  have hx : (ascii '0' + v / 64 == ascii 'x') = false := by
    rw [beq_eq_false_iff_ne]
    intro h
    rw [h] at hd
    revert hd
    decide
  unfold escapeChar_1
  simp only [hpeek, hd, hx, Bool.false_or, if_true, Bool.false_eq_true, if_false,
    charSeqToUllong, bases]
  change (readApNum isodigit 8 (some 3) 0 _).val.toUInt32.toUInt8 = v ∧
    (readApNum isodigit 8 (some 3) 0 _).rest = _
  rw [readApNum_octal]
  simp

/-- A backslash or a quote is read back as itself. -/
theorem escapeChar_1_quoted {v : UInt8} (hv : (v == ascii '\\' || v == ascii '"') = true)
    (rest : List UInt8) :
    (escapeChar_1 (v :: rest) false).char.toUInt8 = v ∧
      (escapeChar_1 (v :: rest) false).rest = rest := by
  rw [Bool.or_eq_true, beq_iff_eq, beq_iff_eq] at hv
  rcases hv with rfl | rfl
  · exact ⟨rfl, rfl⟩
  · exact ⟨rfl, rfl⟩

/-- One character, written and read back. -/
theorem cstringEscape_addEscape (v : UInt8) (rest : List UInt8) :
    cstringEscape (addEscape v ++ rest) =
      v :: cstringEscape (if isprint v then rest else rest.dropWhile (· == ascii '_')) := by
  unfold cstringEscape addEscape
  split
  · next hv =>
    have hprint : isprint v = true := by
      rw [Bool.or_eq_true, beq_iff_eq, beq_iff_eq] at hv
      rcases hv with rfl | rfl <;> decide
    obtain ⟨hchar, hrest⟩ := escapeChar_1_quoted hv rest
    simp [cstringEscapeLoop, hchar, hrest, hprint]
  · next hv =>
    split
    · next hprint =>
      obtain ⟨hchar, hrest⟩ := escapeChar_1_octal v rest
      have hprint : isprint v = false := by simpa using hprint
      have hcons : octal v ++ rest = ascii '\\' :: ((octal v).tail ++ rest) := rfl
      rw [hcons, cstringEscapeLoop]
      simp [hchar, hrest, hprint]
    · next hprint =>
      have hprint : isprint v = true := by simpa using hprint
      have hslash : (v == ascii '\\') = false := by
        rw [Bool.or_eq_true, not_or] at hv
        simpa using hv.1
      rw [List.singleton_append, cstringEscapeLoop]
      simp [hslash, hprint]

/-- Dropping underscores before or after writing is the same. -/
theorem dropWhile_strAddEscape (s : List UInt8) :
    (strAddEscape s).dropWhile (· == ascii '_') = strAddEscape (s.dropWhile (· == ascii '_')) := by
  induction s with
  | nil => rfl
  | cons v s ih =>
    by_cases hv : v = ascii '_'
    · subst hv
      have hesc : addEscape (ascii '_') = [ascii '_'] := by decide
      simpa [strAddEscape, hesc] using ih
    · rw [List.dropWhile_cons_of_neg (by simpa using hv)]
      have hhead : ∃ c l, addEscape v = c :: l ∧ c ≠ ascii '_' := by
        unfold addEscape
        split
        · exact ⟨_, _, rfl, by decide⟩
        · split
          · exact ⟨_, _, rfl, by decide⟩
          · exact ⟨_, _, rfl, hv⟩
      obtain ⟨c, l, hc, hne⟩ := hhead
      unfold strAddEscape
      rw [List.flatMap_cons, hc, List.cons_append]
      exact List.dropWhile_cons_of_neg (by simpa using hne)

/-- The bytes without the underscores that stand right after one that is not
printable. -/
def swallow : List UInt8 → List UInt8
  | [] => []
  | v :: s => v :: swallow (if isprint v then s else s.dropWhile (· == ascii '_'))
termination_by s => s.length
decreasing_by
  split
  · exact Nat.lt_succ_self _
  · exact Nat.lt_succ_of_le (List.dropWhile_sublist _).length_le

/-- What is read back. -/
theorem cstringEscape_strAddEscape (s : List UInt8) :
    cstringEscape (strAddEscape s) = swallow s := by
  fun_induction swallow s with
  | case1 => simp [strAddEscape, cstringEscape, cstringEscapeLoop]
  | case2 v s ih =>
    rw [dite_eq_ite] at ih
    rw [← ih]
    unfold strAddEscape
    rw [List.flatMap_cons, cstringEscape_addEscape]
    split
    · rfl
    · rw [← strAddEscape, dropWhile_strAddEscape]
      rfl

theorem swallow_length (s : List UInt8) : (swallow s).length ≤ s.length := by
  fun_induction swallow s with
  | case1 => exact Nat.le_refl 0
  | case2 v s ih =>
    refine Nat.succ_le_succ (ih.trans ?_)
    split
    · exact Nat.le_refl _
    · exact (List.dropWhile_sublist _).length_le

/-- Only an underscore is dropped. -/
theorem dropWhile_eq_self {s : List UInt8} :
    s.dropWhile (· == ascii '_') = s ↔ ∀ c ∈ s.head?, c ≠ ascii '_' := by
  cases s with
  | nil => simp
  | cons c s =>
    by_cases hc : c = ascii '_'
    · subst hc
      have hlen := (List.dropWhile_sublist (l := s) (· == ascii '_')).length_le
      simp only [List.dropWhile_cons_of_pos (p := (· == ascii '_')) (beq_self_eq_true _)]
      constructor
      · intro h
        rw [h] at hlen
        simp at hlen
      · intro h
        exact absurd rfl (h _ rfl)
    · simp [hc]

/-- A byte string is read back as it was written, if and only if no byte of it
that is not printable is followed by an underscore. -/
theorem cstringEscape_strAddEscape_iff (s : List UInt8) :
    cstringEscape (strAddEscape s) = s ↔
      s.IsChain fun a b => isprint a = true ∨ b ≠ ascii '_' := by
  rw [cstringEscape_strAddEscape]
  induction s with
  | nil => simp [swallow]
  | cons v s ih =>
    rw [swallow, List.isChain_cons, ← ih, List.cons.injEq]
    simp only [true_and]
    cases hv : isprint v with
    | true => simp
    | false =>
      simp only [Bool.false_eq_true, if_false, false_or]
      rw [← dropWhile_eq_self]
      constructor
      · intro h
        have hdrop : s.dropWhile (· == ascii '_') = s := by
          apply (List.dropWhile_sublist _).eq_of_length_le
          calc s.length = (swallow (s.dropWhile (· == ascii '_'))).length := by rw [h]
            _ ≤ (s.dropWhile (· == ascii '_')).length := swallow_length _
        rw [hdrop] at h
        exact ⟨hdrop, h⟩
      · rintro ⟨hdrop, h⟩
        rw [hdrop]
        exact h

/-- The byte 1 and an underscore. -/
theorem cstringEscape_strAddEscape_underscore :
    ¬ ∀ s : List UInt8, cstringEscape (strAddEscape s) = s := by
  intro h
  have hs := h [1, ascii '_']
  rw [cstringEscape_strAddEscape] at hs
  simp [swallow, isprint] at hs

end Ucc.Util
