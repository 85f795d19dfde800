/-
  Cpp/Lexing.lean --- a reference for what is code, literal and comment.

  The lexer goes over a line character by character and says of each what it is a
  part of.  A block comment goes on with the next line; a literal without its
  closing quote ends with its line.
-/
import Ucc.Cpp.Text

set_option autoImplicit false

namespace Ucc.Cpp

/-- What a character is a part of; a literal has its quote. -/
inductive Class where
  | code
  | literal (q : Char)
  | block
  | line
  deriving DecidableEq, Repr, Inhabited

def Class.isComment : Class → Bool
  | .block | .line => true
  | _ => false

/-- The classes of a line's characters, and that of a character behind its last one. -/
def lexLine (c99 : Bool) : Class → Text → List Class × Class
  | cur, [] => ([], cur)
  | .code, '/' :: '*' :: s => ((lexLine c99 .block s).map (.block :: .block :: ·) id)
  | .code, c :: s =>
      if isQuote c then (lexLine c99 (.literal c) s).map (.literal c :: ·) id
      else if c99 && c == '/' && s.head? == some '/' then
        (lexLine c99 .line s).map (.line :: ·) id
      else (lexLine c99 .code s).map (.code :: ·) id
  | .literal q, '\\' :: _ :: s =>
      (lexLine c99 (.literal q) s).map (.literal q :: .literal q :: ·) id
  | .literal q, c :: s =>
      (lexLine c99 (if c == q then .code else .literal q) s).map (.literal q :: ·) id
  | .block, '*' :: '/' :: s => (lexLine c99 .code s).map (.block :: .block :: ·) id
  | .block, _ :: s => (lexLine c99 .block s).map (.block :: ·) id
  | .line, _ :: s => (lexLine c99 .line s).map (.line :: ·) id

/-- The class that the next line starts with. -/
def nextLine : Class → Class
  | .block => .block
  | _ => .code

/-- The classes of the characters of each line. -/
def lexLines (c99 : Bool) : Class → List Text → List (List Class)
  | _, [] => []
  | cur, line :: lines =>
      (lexLine c99 cur line).1 :: lexLines c99 (nextLine (lexLine c99 cur line).2) lines

example : (lexLine true .code "a/*'*/'\"'//b".toList).1 =
    [.code, .block, .block, .block, .block, .block, .literal '\'', .literal '\'', .literal '\'',
      .line, .line, .line] := by decide

variable {c99 : Bool}

theorem lexLine_line (s : Text) :
    lexLine c99 .line s = (List.replicate s.length .line, .line) := by
  induction s with
  | nil => rfl
  | cons c s ih => rw [lexLine, ih]; rfl

theorem lexLine_block {c : Char} {s : Text} (h : ¬ (c = '*' ∧ s.head? = some '/')) :
    lexLine c99 .block (c :: s) = (lexLine c99 .block s).map (.block :: ·) id := by
  rw [lexLine]
  rintro t rfl rfl
  exact h ⟨rfl, rfl⟩

theorem lexLine_code {c : Char} {s : Text} (h : ¬ (c = '/' ∧ s.head? = some '*')) :
    lexLine c99 .code (c :: s) =
      if isQuote c then (lexLine c99 (.literal c) s).map (.literal c :: ·) id
      else if c99 && c == '/' && s.head? == some '/' then (lexLine c99 .line s).map (.line :: ·) id
      else (lexLine c99 .code s).map (.code :: ·) id := by
  rw [lexLine]
  rintro t rfl rfl
  exact h ⟨rfl, rfl⟩

theorem lexLine_literal {c q : Char} {s : Text} (h : c ≠ '\\' ∨ s = []) :
    lexLine c99 (.literal q) (c :: s) =
      (lexLine c99 (if c == q then .code else .literal q) s).map (.literal q :: ·) id := by
  rw [lexLine]
  rintro d t rfl rfl
  simp at h

/-! ## Literals -/

/-- The scan for the closing quote runs over the end of the line. -/
def overruns (q : Char) : Text → Bool
  | [] => false
  | ['\\'] => true
  | '\\' :: _ :: s => overruns q s
  | c :: s => c != q && overruns q s

/-- A literal from behind its opening quote: an escape, or another character. -/
theorem literal_induction {motive : Text → Prop} (nil : motive []) (lone : motive ['\\'])
    (escape : ∀ d s, motive s → motive ('\\' :: d :: s))
    (char : ∀ c s, c ≠ '\\' → motive s → motive (c :: s)) (s : Text) : motive s := by
  induction hlen : s.length using Nat.strong_induction_on generalizing s with
  | _ n ih =>
    have ih : ∀ t : Text, t.length < s.length → motive t := fun t ht =>
      ih t.length (hlen ▸ ht) t rfl
    cases s with
    | nil => exact nil
    | cons c s =>
      by_cases hc : c = '\\'
      · subst hc
        cases s with
        | nil => exact lone
        | cons d s => exact escape d s (ih s (by simp))
      · exact char c s hc (ih s (by simp))

theorem overruns_cons {q c : Char} {s : Text} (h : c ≠ '\\') :
    overruns q (c :: s) = (c != q && overruns q s) := by
  rw [overruns]
  · rintro rfl
    exact absurd rfl h
  · rintro d t rfl
    exact absurd rfl h

theorem strQuotefin2_escape {q d : Char} {s : Text} :
    strQuotefin2 q ('\\' :: d :: s) = strQuotefin2 q s := by
  simp [strQuotefin2, nul]

theorem strQuotefin2_cons {q c : Char} {s : Text} (hback : c ≠ '\\') (hnul : c ≠ nul) :
    strQuotefin2 q (c :: s) = if c = q then some (c :: s) else strQuotefin2 q s := by
  cases s <;> simp [strQuotefin2, hback, hnul]

/-- A run of escapes and of characters other than the quote. -/
inductive LitBody (q : Char) : Text → Prop where
  | nil : LitBody q []
  | escape (d : Char) {s : Text} (hs : LitBody q s) : LitBody q ('\\' :: d :: s)
  | char {c : Char} {s : Text} (hback : c ≠ '\\') (hquote : c ≠ q) (hs : LitBody q s) :
      LitBody q (c :: s)

/-- The scan ends at the quote behind such a run. -/
theorem litBody_of_some {q : Char} {s fin : Text} (hs : nul ∉ s) (h : strQuotefin2 q s = some fin) :
    ∃ body rest, LitBody q body ∧ s = body ++ q :: rest ∧ fin = q :: rest := by
  induction s using literal_induction with
  | nil => simp [strQuotefin2] at h
  | lone => simp [strQuotefin2] at h
  | escape d s ih =>
    rw [strQuotefin2_escape] at h
    obtain ⟨body, rest, hbody, rfl, rfl⟩ := ih (fun h => hs (by simp [h])) h
    exact ⟨'\\' :: d :: body, rest, .escape d hbody, rfl, rfl⟩
  | char c s hc ih =>
    have hnul : c ≠ nul := fun h => hs (h ▸ List.mem_cons_self)
    rw [strQuotefin2_cons hc hnul] at h
    by_cases hcq : c = q
    · subst hcq
      rw [if_pos rfl] at h
      cases h
      exact ⟨[], s, .nil, rfl, rfl⟩
    · rw [if_neg hcq] at h
      obtain ⟨body, rest, hbody, rfl, rfl⟩ := ih (fun h => hs (List.mem_cons_of_mem _ h)) h
      exact ⟨c :: body, rest, .char hc hcq hbody, rfl, rfl⟩

/-- Without an end, the whole line is one. -/
theorem litBody_of_none {q : Char} {s : Text} (hs : nul ∉ s) (h : strQuotefin2 q s = none)
    (hover : overruns q s = false) : LitBody q s := by
  induction s using literal_induction with
  | nil => exact .nil
  | lone => cases hover
  | escape d s ih =>
    rw [strQuotefin2_escape] at h
    exact .escape d (ih (fun h => hs (by simp [h])) h hover)
  | char c s hc ih =>
    have hnul : c ≠ nul := fun h => hs (h ▸ List.mem_cons_self)
    rw [strQuotefin2_cons hc hnul] at h
    rw [overruns_cons hc] at hover
    by_cases hcq : c = q
    · rw [if_pos hcq] at h
      cases h
    · rw [if_neg hcq] at h
      have hrest : overruns q s = false := by simpa [hcq] using hover
      exact .char hc hcq (ih (fun h => hs (List.mem_cons_of_mem _ h)) h hrest)

theorem lexLine_body {q : Char} {body : Text} (h : LitBody q body) (s : Text) :
    lexLine c99 (.literal q) (body ++ s) =
      (lexLine c99 (.literal q) s).map (List.replicate body.length (.literal q) ++ ·) id := by
  induction h with
  | nil => rfl
  | escape d _ ih =>
    rw [List.cons_append, List.cons_append, lexLine, ih]
    rfl
  | char hback hquote _ ih =>
    rw [List.cons_append, lexLine_literal (Or.inl hback), if_neg (by simpa using hquote), ih]
    rfl

/-- A literal goes up to its closing quote. -/
theorem lexLine_closed {q : Char} (hq : q ≠ '\\') {body : Text} (h : LitBody q body) (rest : Text) :
    lexLine c99 (.literal q) (body ++ q :: rest) =
      (lexLine c99 .code rest).map (List.replicate (body.length + 1) (.literal q) ++ ·) id := by
  rw [lexLine_body h, lexLine_literal (Or.inl hq), if_pos (beq_self_eq_true q), Prod.map_map,
    List.replicate_succ']
  simp [Function.comp_def]

/-- Without a closing quote it goes up to the end of the line. -/
theorem lexLine_unclosed {q : Char} {body : Text} (h : LitBody q body) :
    lexLine c99 (.literal q) body = (List.replicate body.length (.literal q), .literal q) := by
  have hall : lexLine c99 (.literal q) (body ++ []) = _ := lexLine_body h []
  rw [List.append_nil] at hall
  rw [hall]
  simp [lexLine]

theorem ne_backslash_of_isQuote {q : Char} (h : isQuote q = true) : q ≠ '\\' := by
  rintro rfl
  cases h

theorem lexLine_quote {q : Char} (hq : isQuote q = true) (s : Text) :
    lexLine c99 .code (q :: s) = (lexLine c99 (.literal q) s).map (.literal q :: ·) id := by
  rw [lexLine_code, if_pos hq]
  rintro ⟨rfl, -⟩
  cases hq

/-- A whole literal, with its quotes. -/
theorem lexLine_quoted {q : Char} (hq : isQuote q = true) {body : Text} (h : LitBody q body)
    (rest : Text) :
    lexLine c99 .code (q :: (body ++ q :: rest)) =
      (lexLine c99 .code rest).map (List.replicate (body.length + 2) (.literal q) ++ ·) id := by
  rw [lexLine_quote hq, lexLine_closed (ne_backslash_of_isQuote hq) h, Prod.map_map]
  rfl

theorem lexLine_quote_unclosed {q : Char} (hq : isQuote q = true) {body : Text}
    (h : LitBody q body) :
    lexLine c99 .code (q :: body) =
      (List.replicate (body.length + 1) (.literal q), .literal q) := by
  rw [lexLine_quote hq, lexLine_unclosed h]
  rfl

end Ucc.Cpp
