/-
  Cpp/Text.lean --- the character-level helpers of the preprocessor and its
  directive tokeniser.

  Source: src/util/str.c, src/cpp2/str.c and src/cpp2/tokenise.c.

  A C string is the list of its characters before the terminating NUL; a pointer
  into a string is the suffix it points at, and NULL is `none`.  The character
  classes are those of the C locale.  Every function below recurses on the
  string or on a counter that starts at the string's length, so all of them can
  be evaluated on concrete lines.
-/
import Mathlib.Tactic

set_option autoImplicit false

namespace Ucc.Cpp

/-- A NUL-terminated string, without its terminator. -/
abbrev Text := List Char

/-! ## Faults

Every way in which the preprocessor stops before the end of its input.  `die`
constructors print a diagnostic and exit; `crash` marks a NULL dereference or a
read outside a buffer, which the C program does not detect. -/

/-- Why preprocessing stopped. -/
inductive Fault where
  /-- `UCC_ASSERT` or `ICE`: an internal assertion failed -/
  | ice
  /-- undefined behaviour in the C program -/
  | crash
  /-- "ifdef stack exceeded" -/
  | ifStackExceeded
  /-- "elif unexpected", "else unexpected" -/
  | elseUnexpected
  /-- "endif unexpected" -/
  | endifUnexpected
  /-- "endif expected" -/
  | endifExpected
  /-- "#else already encountered" -/
  | elseRepeated
  /-- "too many arguments to ifdef macro" -/
  | ifdefArguments
  /-- "invalid undef macro" -/
  | undefArguments
  /-- "invalid preproc token" -/
  | invalidPreprocToken
  /-- "unrecognised preproc command" -/
  | unrecognisedCommand (w : Text)
  /-- "word expected" after `#define` -/
  | wordExpected
  /-- a malformed parameter list of a function-like macro -/
  | badParameterList
  /-- "redefining" a builtin macro, or defining `defined` -/
  | badMacroName (nam : Text)
  /-- "invalid #line directive" and its relatives -/
  | badLineDirective
  /-- "too many includes" -/
  | tooManyIncludes
  /-- "#error" -/
  | hashError (msg : Text)
  /-- "can't find include file", or a malformed `#include` argument -/
  | badInclude
  /-- a controlling expression that does not parse or evaluate -/
  | badExpression
  /-- "unterminated function-macro", "wrong number of args", and the other
  errors of macro expansion -/
  | badInvocation (nam : Text)
  deriving DecidableEq, Repr, Inhabited

/-! ## Character classes -/

/-- `isspace`. -/
def isSpace (c : Char) : Bool := c == ' ' || (9 ≤ c.toNat && c.toNat ≤ 13)

/-- `iswordpart`. -/
def isWordPart (c : Char) : Bool := c.isAlphanum || c == '_' || c == '$'

/-- The first character of a word, as `tokenise` tests it. -/
def isWordStart (c : Char) : Bool := c.isAlpha || c == '_'

/-! ## String scanning -/

/-- `str_spc_skip`. -/
def strSpcSkip (s : Text) : Text := s.dropWhile isSpace

/-- `word_end`: the suffix after the leading word. -/
def wordEnd (s : Text) : Text := s.dropWhile isWordPart

/-- The leading word itself, the part of `s` before `word_end s`. -/
def wordOf (s : Text) : Text := s.takeWhile isWordPart

/-- The terminator. -/
def nul : Char := '\x00'

theorem isSpace_nul : isSpace nul = false := by decide

/-- An allocated block: a string, its terminator and whatever bytes follow. -/
abbrev Buf := List Char

/-- The string at the start of a block. -/
def cstr (b : Buf) : Text := b.takeWhile fun c => c != nul

/-- A block that starts with the string `s`. -/
theorem cstr_append_nul {s : Text} (hs : nul ∉ s) {rest : Buf} : cstr (s ++ nul :: rest) = s := by
  unfold cstr
  rw [List.takeWhile_append_of_pos, List.takeWhile_cons_of_neg, List.append_nil]
  · simp
  · intro c hc
    simpa using fun h : c = nul => hs (h ▸ hc)

/-- A fresh block that holds just `s`. -/
def alloc (s : Text) : Buf := s ++ [nul]

/-- `str_quotefin2 s q`: the suffix that starts at the first unescaped `q`.  A
backslash right before the terminator makes the loop step over it and read on
behind; the end of the block ends the model's search. -/
def strQuotefin2 (q : Char) : Buf → Option Buf
  | [] => none
  | [c] => if c == '\\' then none else if c == q then some [c] else none
  | c :: d :: s =>
      if c == nul then none
      else if c == '\\' then strQuotefin2 q s
      else if c == q then some (c :: d :: s)
      else strQuotefin2 q (d :: s)

/-- The search stops at the quote it is looking for. -/
theorem strQuotefin2_spec {q : Char} {s fin : Buf} (h : strQuotefin2 q s = some fin) :
    ∃ front rest, s = front ++ q :: rest ∧ fin = q :: rest := by
  fun_induction strQuotefin2 q s with
  | case1 => simp at h
  | case2 => simp at h
  | case3 c _ hc =>
    cases h
    exact ⟨[], [], by simpa using hc, by simpa using hc⟩
  | case4 => simp at h
  | case5 => simp at h
  | case6 c d s _ _ ih =>
    obtain ⟨front, rest, hs, hfin⟩ := ih h
    exact ⟨c :: d :: front, rest, by rw [hs]; rfl, hfin⟩
  | case7 c d s _ _ hc =>
    cases h
    have hq : c = q := by simpa using hc
    exact ⟨[], d :: s, by rw [hq]; rfl, by rw [hq]⟩
  | case8 c d s _ _ _ ih =>
    obtain ⟨front, rest, hs, hfin⟩ := ih h
    exact ⟨c :: front, rest, by rw [hs]; rfl, hfin⟩

theorem strQuotefin2_suffix {q : Char} {s fin : Buf} (h : strQuotefin2 q s = some fin) :
    fin <:+ s := by
  obtain ⟨front, rest, hs, hfin⟩ := strQuotefin2_spec h
  exact ⟨front, by rw [hs, hfin]⟩

/-- `str_quotefin`. -/
def strQuotefin (s : Text) : Option Text := strQuotefin2 '"' s

/-- `str_trim`.  The loop that should strip trailing space starts on the
terminator, which is not a space, so only leading space goes. -/
def strTrim (s : Text) : Text := strSpcSkip s

/-- The characters that open a literal. -/
def isQuote (c : Char) : Bool := c == '"' || c == '\''

theorem not_wordPart_of_isQuote {q : Char} (h : isQuote q = true) : isWordPart q = false := by
  have hq : q = '"' ∨ q = '\'' := by simpa [isQuote] using h
  rcases hq with rfl | rfl <;> rfl

/-- `word_find_any`: the suffix at the next word outside literals; `n` is at least
the number of bytes left. -/
def wordFindAny : Nat → Buf → Option Buf
  | 0, _ => none
  | _ + 1, [] => none
  | n + 1, c :: s =>
      if c == nul then none
      else if isQuote c then
        match strQuotefin2 c s with
        | none => none
        | some fin => wordFindAny n fin.tail
      else if isWordPart c then some (c :: s)
      else wordFindAny n s

/-- `strchr_nest`, from inside `nest` parentheses. -/
def strchrNest (find : Char) : Nat → Buf → Option Buf
  | _, [] => none
  | nest, c :: s =>
      if c == nul then none
      else if c == '(' then strchrNest find (nest + 1) s
      else
        let nest := if c == ')' then nest - 1 else nest
        if nest == 0 && c == find then some (c :: s) else strchrNest find nest s

/-- `str_join`. -/
def strJoin (sep : Text) : List Text → Text
  | [] => []
  | [s] => s
  | s :: t :: ss => s ++ sep ++ strJoin sep (t :: ss)

/-- `str_quote`. -/
def strQuote (s : Text) : Text :=
  '"' :: (s.flatMap fun c => if c == '"' || c == '\\' then ['\\', c] else [c]) ++ ['"']

/-- `str_replace` on the bytes from `start` to `fin`: in place when the new text is
shorter, which leaves the old bytes behind the new terminator, and in a fresh
block otherwise. -/
def strReplace (b : Buf) (start fin : Nat) (replace : Text) : Buf :=
  let rest := cstr (b.drop fin)
  if replace.length < fin - start then
    let front := b.take start ++ replace ++ rest ++ [nul]
    front ++ b.drop front.length
  else alloc (cstr (b.take start) ++ replace ++ rest)

/-! ## `strtol` with base 0 -/

/-- The value of a digit in a base up to sixteen. -/
def digitValue (c : Char) : Nat :=
  if c.isDigit then c.toNat - '0'.toNat
  else if c.isLower then c.toNat - 'a'.toNat + 10
  else c.toNat - 'A'.toNat + 10

/-- `c` is a digit of the base. -/
def isDigitOf (base : Nat) (c : Char) : Bool :=
  (c.isDigit || c.isAlpha) && digitValue c < base

/-- Accumulate the leading digits of `s`. -/
def readDigits (base : Nat) (acc : Nat) : Text → Nat × Text
  | [] => (acc, [])
  | c :: s =>
      if isDigitOf base c then readDigits base (acc * base + digitValue c) s
      else (acc, c :: s)

/-- The digits of an integer literal with its base marker, or `none` when there
is no digit to convert. -/
def readPrefixed : Text → Option (Nat × Text)
  | '0' :: 'x' :: c :: s =>
      if isDigitOf 16 c then some (readDigits 16 0 (c :: s))
      else some (readDigits 8 0 ('0' :: 'x' :: c :: s))
  | '0' :: 'X' :: c :: s =>
      if isDigitOf 16 c then some (readDigits 16 0 (c :: s))
      else some (readDigits 8 0 ('0' :: 'X' :: c :: s))
  | '0' :: s => some (readDigits 8 0 ('0' :: s))
  | c :: s => if isDigitOf 10 c then some (readDigits 10 0 (c :: s)) else none
  | [] => none

/-- Clamp to the range of a 64-bit `long`. -/
def clampLong (v : Int) : Int := max (-(2 ^ 63)) (min v (2 ^ 63 - 1))

/-- `strtol(s, &end, 0)`: the value and the rest, or `none` when `end == s`. -/
def strtol (s : Text) : Option (Int × Text) :=
  match strSpcSkip s with
  | '-' :: r => (readPrefixed r).map fun p => (clampLong (-(p.1 : Int)), p.2)
  | '+' :: r => (readPrefixed r).map fun p => (clampLong p.1, p.2)
  | r => (readPrefixed r).map fun p => (clampLong p.1, p.2)

/-- Reinterpret the low 32 bits as a signed `int`. -/
def toInt32 (v : Int) : Int := (v + 2 ^ 31) % 2 ^ 32 - 2 ^ 31

/-! ## Tokens -/

/-- `enum tok` of `tokenise.h`. -/
inductive Tok where
  | word
  | openParen
  | closeParen
  | comma
  | elipsis
  | string
  | hashQuote
  | hashJoin
  | other
  deriving DecidableEq, Repr, Inhabited

/-- `struct token`.  `w` is empty where the C field is NULL. -/
structure Token where
  tok : Tok
  w : Text
  hadWhitespace : Bool
  deriving DecidableEq, Repr, Inhabited

/-- `token_str`. -/
def tokenStr (t : Token) : Text :=
  match t.tok with
  | .other | .word | .string => t.w
  | .openParen => ['(']
  | .closeParen => [')']
  | .comma => [',']
  | .elipsis => ['.', '.', '.']
  | .hashQuote => ['#']
  | .hashJoin => ['#', '#']

/-- `tokens_join`. -/
def tokensJoin : List Token → Text
  | [] => []
  | t :: ts => (if t.hadWhitespace then [' '] else []) ++ tokenStr t ++ tokensJoin ts

/-- The body of the `tokenise` loop, on a string that starts with neither space
nor terminator: the token's kind, its spelling and the rest of the line. -/
def readToken (c : Char) (s : Text) : Except Fault (Tok × Text × Text) :=
  if isWordStart c then .ok (.word, c :: wordOf s, wordEnd s)
  else
    match c, s with
    | ',', s => .ok (.comma, [], s)
    | '(', s => .ok (.openParen, [], s)
    | ')', s => .ok (.closeParen, [], s)
    | '"', s =>
        match strQuotefin s with
        | none => .error .ice
        | some fin => .ok (.string, '"' :: s.take (s.length - fin.length + 1), fin.tail)
    | '#', '#' :: s => .ok (.hashJoin, [], s)
    | '#', s => .ok (.hashQuote, [], s)
    | '.', '.' :: '.' :: s => .ok (.elipsis, [], s)
    | c, s => .ok (.other, [c], s)

/-- The `tokenise` loop; `n` bounds the number of tokens. -/
def tokeniseLoop : Nat → Text → Except Fault (List Token)
  | 0, _ => .ok []
  | _ + 1, [] => .ok []
  | n + 1, c₀ :: s₀ =>
      match strSpcSkip (c₀ :: s₀) with
      -- trailing white space leaves one empty word behind
      | [] => .ok [⟨.word, [], isSpace c₀⟩]
      | c :: s =>
          match readToken c s with
          | .error f => .error f
          | .ok (tok, w, rest) =>
              match tokeniseLoop n rest with
              | .error f => .error f
              | .ok ts => .ok (⟨tok, strTrim w, isSpace c₀⟩ :: ts)

/-- `tokenise`; the empty list stands for NULL. -/
def tokenise (line : Text) : Except Fault (List Token) := tokeniseLoop line.length line

/-- `token_is_space`. -/
def tokenIsSpace (t : Token) : Bool :=
  match t.tok with
  | .word => (strSpcSkip t.w).isEmpty
  | _ => false

/-- `tokens_skip_whitespace`. -/
def tokensSkipWhitespace (ts : List Token) : List Token := ts.dropWhile tokenIsSpace

/-- `tokens_count_skip_spc`. -/
def tokensCountSkipSpc (ts : List Token) : Nat := ts.countP fun t => !tokenIsSpace t

/-- The test and the skip of `SINGLE_TOKEN`: the one word among the tokens. -/
def singleToken (ts : List Token) : Option Text :=
  match tokensSkipWhitespace ts with
  | [] => none
  | t :: rest =>
      if tokensCountSkipSpc (t :: rest) = 1 ∧ t.tok = .word then some t.w else none

end Ucc.Cpp
