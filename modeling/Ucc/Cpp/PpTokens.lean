/-
  Cpp/PpTokens.lean --- preprocessing tokens, as C11 6.4 has them.

  A reference that nothing in the program computes.  Each token is the longest text
  that can be one: an identifier, a number, a literal with its prefix, or a symbol.
  Digraphs are not among the symbols, since `expand_digraphs` has replaced them when
  they are asked for.  A text is white space and tokens; `PpToks` says so without a
  bound, and two texts with nothing between them have the tokens of both when the
  last one of the first does not go on in the second.
-/
import Ucc.Cpp.Tokens

set_option autoImplicit false

namespace Ucc.Cpp

/-! ## Tokens -/

inductive PpKind where
  | identifier
  | number
  | literal
  | symbol
  deriving DecidableEq, Repr, Inhabited

/-- A token, and whether white space stands in front of it. -/
structure PpToken where
  kind : PpKind
  spelling : Text
  blank : Bool
  deriving DecidableEq, Repr, Inhabited

def isExponent (c : Char) : Bool := c == 'e' || c == 'E' || c == 'p' || c == 'P'

def isSign (c : Char) : Bool := c == '+' || c == '-'

/-- What a number has behind its first character; `exponent` is set behind an exponent's letter. -/
def numberOf : Bool → Text → Text
  | _, [] => []
  | exponent, c :: s =>
      if isWordPart c || c == '.' || exponent && isSign c then c :: numberOf (isExponent c) s
      else []

/-- What a literal has behind its opening quote. -/
def literalOf (q : Char) : Text → Text
  | [] => []
  | '\\' :: d :: s => '\\' :: d :: literalOf q s
  | c :: s => if c == q then [c] else c :: literalOf q s

/-- The encoding prefixes of character constants and strings. -/
def encodingPrefix (w : Text) (q : Char) : Bool :=
  isQuote q && (w == ['L'] || w == ['u'] || w == ['U']) || q == '"' && w == ['u', '8']

/-- The symbols of more than one character, the longer ones first. -/
def symbols : List Text :=
  ["...", "<<=", ">>=", "->", "++", "--", "<<", ">>", "<=", ">=", "==", "!=", "&&", "||", "*=",
    "/=", "%=", "+=", "-=", "&=", "^=", "|=", "##"].map String.toList

/-- The symbol at the start of `c :: s`. -/
def symbolOf (c : Char) (s : Text) : Text :=
  match symbols.find? fun w => w.isPrefixOf (c :: s) with
  | some w => w
  | none => [c]

/-- A word, or the literal that it is the prefix of. -/
def ppWord (w : Text) : Text → PpKind × Text
  | q :: s => if encodingPrefix w q then (.literal, w ++ q :: literalOf q s) else (.identifier, w)
  | [] => (.identifier, w)

/-- The token at the start of `c :: s`. -/
def ppRead (c : Char) (s : Text) : PpKind × Text :=
  if isQuote c then (.literal, c :: literalOf c s)
  else if isWordStart c then ppWord (c :: wordOf s) (wordEnd s)
  else if c.isDigit || c == '.' && s.head?.any Char.isDigit then (.number, c :: numberOf false s)
  else (.symbol, symbolOf c s)

/-- The tokens of a text; `n` bounds their number. -/
def ppLoop : Nat → Text → List PpToken
  | 0, _ => []
  | n + 1, s =>
      match strSpcSkip s with
      | [] => []
      | c :: t =>
          let (kind, w) := ppRead c t
          ⟨kind, w, s.head?.any isSpace⟩ :: ppLoop n ((c :: t).drop w.length)

def ppTokens (s : Text) : List PpToken := ppLoop s.length s

example : (ppTokens "a+=.5e-x 'b'u\"c\" ..".toList).map (fun t => (t.kind, t.spelling)) =
    [(.identifier, ['a']), (.symbol, ['+', '=']), (.number, ".5e-x".toList),
      (.literal, "'b'".toList), (.literal, "u\"c\"".toList), (.symbol, ['.']),
      (.symbol, ['.'])] := by
  decide

/-- The text `s` has the tokens `ts`. -/
inductive PpToks : Text → List PpToken → Prop where
  | nil {sp : Text} (hsp : ∀ c ∈ sp, isSpace c) : PpToks sp []
  | cons {sp : Text} (hsp : ∀ c ∈ sp, isSpace c) {c : Char} (hc : isSpace c = false) {s rest : Text}
      {kind : PpKind} {w : Text} (hread : ppRead c s = (kind, w)) (hsplit : c :: s = w ++ rest)
      {ts : List PpToken} (hrest : PpToks rest ts) :
      PpToks (sp ++ c :: s) (⟨kind, w, !sp.isEmpty⟩ :: ts)

theorem numberOf_isPrefix (exponent : Bool) (s : Text) : numberOf exponent s <+: s := by
  induction s generalizing exponent with
  | nil => exact List.prefix_rfl
  | cons c s ih =>
    rw [numberOf]
    split
    · exact (List.prefix_cons_inj c).mpr (ih _)
    · exact List.nil_prefix

theorem literalOf_isPrefix (q : Char) (s : Text) : literalOf q s <+: s := by
  induction s using literal_induction with
  | nil => exact List.prefix_rfl
  | lone =>
    rw [literalOf]
    · split <;> simp [literalOf]
    · simp
  | escape d s ih => exact (List.prefix_cons_inj _).mpr ((List.prefix_cons_inj _).mpr ih)
  | char c s hc ih =>
    rw [literalOf]
    · split
      · exact ⟨s, rfl⟩
      · exact (List.prefix_cons_inj _).mpr ih
    · rintro d t rfl
      exact absurd rfl hc

theorem symbolOf_isPrefix (c : Char) (s : Text) : symbolOf c s <+: c :: s ∧ symbolOf c s ≠ [] := by
  unfold symbolOf
  split
  · rename_i w hw
    have hmem := List.mem_of_find?_eq_some hw
    have hprefix := List.find?_some hw
    refine ⟨List.isPrefixOf_iff_prefix.mp hprefix, ?_⟩
    have hne : ∀ w ∈ symbols, w ≠ [] := by decide
    exact hne w hmem
  · exact ⟨⟨s, rfl⟩, by simp⟩

theorem ppWord_isPrefix {w : Text} (hw : w ≠ []) (r : Text) :
    (ppWord w r).2 <+: w ++ r ∧ (ppWord w r).2 ≠ [] := by
  cases r with
  | nil => exact ⟨List.prefix_append w [], hw⟩
  | cons q s =>
    rw [ppWord]
    split
    · refine ⟨(List.prefix_append_right_inj w).mpr ?_, by simp⟩
      exact (List.prefix_cons_inj q).mpr (literalOf_isPrefix q s)
    · exact ⟨List.prefix_append w _, hw⟩

/-- A token is a part of the text, and not an empty one. -/
theorem ppRead_isPrefix (c : Char) (s : Text) :
    (ppRead c s).2 <+: c :: s ∧ (ppRead c s).2 ≠ [] := by
  unfold ppRead
  split
  · exact ⟨(List.prefix_cons_inj c).mpr (literalOf_isPrefix c s), by simp⟩
  · split
    · have hword : c :: wordOf s ++ wordEnd s = c :: s :=
        congrArg (c :: ·) List.takeWhile_append_dropWhile
      have hprefix := ppWord_isPrefix (w := c :: wordOf s) (by simp) (wordEnd s)
      rw [hword] at hprefix
      exact hprefix
    · split
      · exact ⟨(List.prefix_cons_inj c).mpr (numberOf_isPrefix false s), by simp⟩
      · exact symbolOf_isPrefix c s

/-! ## The tokens of a text -/

theorem ppLoop_cons {n : Nat} {sp : Text} (hsp : ∀ c ∈ sp, isSpace c) {c : Char}
    (hc : isSpace c = false) {s rest : Text} {kind : PpKind} {w : Text}
    (hread : ppRead c s = (kind, w)) (hsplit : c :: s = w ++ rest) :
    ppLoop (n + 1) (sp ++ c :: s) = ⟨kind, w, !sp.isEmpty⟩ :: ppLoop n rest := by
  have hskip : strSpcSkip (sp ++ c :: s) = c :: s := by
    unfold strSpcSkip
    rw [List.dropWhile_append_of_pos hsp, List.dropWhile_cons_of_neg (by simp [hc])]
  have hfirst : (sp ++ c :: s).head?.any isSpace = !sp.isEmpty := by
    cases sp with
    | nil => simpa using hc
    | cons d sp => simpa using hsp d List.mem_cons_self
  have hdrop : (c :: s).drop w.length = rest := by rw [hsplit, List.drop_left]
  rw [ppLoop, hskip]
  dsimp only
  rw [hread, hfirst, hdrop]

theorem ppLoop_spaces (n : Nat) {s : Text} (hs : ∀ c ∈ s, isSpace c) : ppLoop n s = [] := by
  cases n with
  | zero => rfl
  | succ n =>
    have hskip : strSpcSkip s = [] := List.dropWhile_eq_nil_iff.mpr hs
    rw [ppLoop, hskip]

theorem ppToks_ppLoop {n : Nat} {s : Text} (hn : s.length ≤ n) : PpToks s (ppLoop n s) := by
  induction n generalizing s with
  | zero =>
    obtain rfl := List.length_eq_zero_iff.mp (Nat.le_zero.mp hn)
    exact .nil (by simp)
  | succ n ih =>
    rcases spaces_or s with hall | ⟨sp, c, t, rfl, hsp, hc⟩
    · rw [ppLoop_spaces _ hall]
      exact .nil hall
    · obtain ⟨⟨rest, hsplit⟩, hne⟩ := ppRead_isPrefix c t
      have hlen : (c :: t).length = _ := congrArg List.length hsplit.symm
      have hpos := List.length_pos_iff.mpr hne
      rw [ppLoop_cons hsp hc rfl hsplit.symm]
      refine .cons hsp hc rfl hsplit.symm (ih ?_)
      simp only [List.length_append, List.length_cons] at hn hlen
      omega

theorem ppToks_ppTokens (s : Text) : PpToks s (ppTokens s) := ppToks_ppLoop le_rfl

theorem ppLoop_of_ppToks {s : Text} {ts : List PpToken} (h : PpToks s ts) {n : Nat}
    (hn : s.length ≤ n) : ppLoop n s = ts := by
  induction h generalizing n with
  | nil hsp => exact ppLoop_spaces n hsp
  | @cons sp hsp c hc s rest kind w hread hsplit ts _ ih =>
    obtain ⟨k, rfl⟩ : ∃ k, n = k + 1 := ⟨n - 1, by simp at hn; omega⟩
    have hlen : (c :: s).length = _ := congrArg List.length hsplit
    have hpos : 0 < w.length := by
      have hne := (ppRead_isPrefix c s).2
      rw [hread] at hne
      exact List.length_pos_iff.mpr hne
    rw [ppLoop_cons hsp hc hread hsplit, ih]
    simp only [List.length_append, List.length_cons] at hn hlen
    omega

theorem ppTokens_iff {s : Text} {ts : List PpToken} : ppTokens s = ts ↔ PpToks s ts :=
  ⟨fun h => h ▸ ppToks_ppTokens s, fun h => ppLoop_of_ppToks h le_rfl⟩

/-! ## Where one token ends -/

/-- The literal is closed. -/
def literalEnds (q : Char) : Text → Bool
  | [] => false
  | '\\' :: _ :: s => literalEnds q s
  | c :: s => c == q || literalEnds q s

/-- A literal without its closing quote. -/
def PpToken.isOpen (t : PpToken) : Bool :=
  match t.kind, t.spelling.dropWhile fun c => !isQuote c with
  | .literal, q :: s => !literalEnds q s
  | _, _ => false

/-- The last character read was an exponent's letter. -/
def exponentBehind : Bool → Text → Bool
  | exponent, [] => exponent
  | _, c :: w => exponentBehind (isExponent c) w

/-- A number goes on with the character. -/
def numberGoesOn (exponent : Bool) (d : Char) : Bool :=
  isWordPart d || d == '.' || exponent && isSign d

/-- The token could go on with the character. -/
def PpToken.goesOn (t : PpToken) (d : Char) : Bool :=
  match t.kind with
  | .identifier => isWordPart d || encodingPrefix t.spelling d
  | .number => numberGoesOn (exponentBehind false t.spelling) d
  | .literal => false
  | .symbol =>
      symbols.any (fun w => (t.spelling ++ [d]).isPrefixOf w) || t.spelling == ['.'] && d.isDigit ||
        t.spelling == ['/'] && (d == '/' || d == '*')

/-- The text `b` can be written behind `a`: no token of the one goes on in the other. -/
def meets (a b : Text) : Bool :=
  match (ppTokens a).getLast? with
  | none => true
  | some t => !t.isOpen && !(t.spelling.isSuffixOf a && b.head?.any fun d => t.goesOn d)

theorem literalEnds_char {q c : Char} (hc : c ≠ '\\') (s : Text) :
    literalEnds q (c :: s) = (c == q || literalEnds q s) := by
  rw [literalEnds]
  rintro d t rfl
  exact absurd rfl hc

theorem literalOf_char {q c : Char} (hc : c ≠ '\\') (s : Text) :
    literalOf q (c :: s) = if c == q then [c] else c :: literalOf q s := by
  rw [literalOf]
  rintro d t rfl
  exact absurd rfl hc

theorem literalOf_append {q : Char} (hq : q ≠ '\\') {s : Text} (h : literalEnds q s = true)
    (b : Text) : literalOf q (s ++ b) = literalOf q s := by
  induction s using literal_induction with
  | nil => cases h
  | lone =>
    have hback : '\\' = q := by simpa [literalEnds] using h
    exact absurd hback.symm hq
  | escape d s ih => exact congrArg ('\\' :: d :: ·) (ih h)
  | char c s hc ih =>
    rw [literalEnds_char hc] at h
    rw [List.cons_append, literalOf_char hc, literalOf_char hc]
    by_cases hcq : c = q
    · rw [if_pos (by simpa using hcq), if_pos (by simpa using hcq)]
    · rw [if_neg (by simpa using hcq), if_neg (by simpa using hcq),
        ih (by simpa [hcq] using h)]

/-- What was read of a text that goes on behind it. -/
theorem literalEnds_of_ne {q : Char} {s : Text} (h : literalOf q s ≠ s) :
    literalEnds q (literalOf q s) = true := by
  induction s using literal_induction with
  | nil => exact absurd rfl h
  | lone => simp [literalOf] at h
  | escape d s ih => exact ih fun hs => h (congrArg ('\\' :: d :: ·) hs)
  | char c s hc ih =>
    rw [literalOf_char hc] at h ⊢
    by_cases hcq : c = q
    · rw [if_pos (by simpa using hcq), literalEnds_char hc]
      simp [hcq]
    · rw [if_neg (by simpa using hcq)] at h ⊢
      rw [literalEnds_char hc, ih fun hs => h (congrArg (c :: ·) hs), Bool.or_true]

theorem literalOf_again (q : Char) (s : Text) : literalOf q (literalOf q s) = literalOf q s := by
  induction s using literal_induction with
  | nil => rfl
  | lone => simp [literalOf]
  | escape d s ih => exact congrArg ('\\' :: d :: ·) ih
  | char c s hc ih =>
    rw [literalOf_char hc]
    split
    · rename_i hcq
      rw [literalOf_char hc, if_pos hcq]
    · rename_i hcq
      rw [literalOf_char hc, if_neg hcq, ih]

theorem numberOf_append {exponent : Bool} {s r : Text}
    (hr : ∀ d, r.head? = some d →
      numberGoesOn (exponentBehind exponent (numberOf exponent s)) d = false) :
    numberOf exponent (numberOf exponent s ++ r) = numberOf exponent s := by
  induction s generalizing exponent with
  | nil =>
    cases r with
    | nil => rfl
    | cons d r =>
      have hd := hr d rfl
      exact if_neg (by simpa [numberGoesOn, exponentBehind, numberOf] using hd)
  | cons c s ih =>
    rw [numberOf] at hr ⊢
    by_cases hc : (isWordPart c || c == '.' || exponent && isSign c) = true
    · rw [if_pos hc] at hr ⊢
      rw [List.cons_append, numberOf, if_pos hc, ih fun d hd => ?_]
      exact hr d hd
    · rw [if_neg hc] at hr ⊢
      cases r with
      | nil => rfl
      | cons d r =>
        have hd := hr d rfl
        exact if_neg (by simpa [numberGoesOn, exponentBehind] using hd)

theorem numberOf_stops {exponent : Bool} {s r : Text} {d : Char}
    (h : s = numberOf exponent s ++ d :: r) :
    numberGoesOn (exponentBehind exponent (numberOf exponent s)) d = false := by
  induction s generalizing exponent with
  | nil => simp at h
  | cons c s ih =>
    rw [numberOf] at h ⊢
    by_cases hc : (isWordPart c || c == '.' || exponent && isSign c) = true
    · rw [if_pos hc] at h ⊢
      exact ih (List.cons.inj h).2
    · rw [if_neg hc] at h ⊢
      obtain rfl := (List.cons.inj h).1
      simpa [numberGoesOn, exponentBehind] using hc

theorem isQuote_of_encodingPrefix {w : Text} {q : Char} (h : encodingPrefix w q = true) :
    isQuote q = true := by
  rw [encodingPrefix, Bool.or_eq_true, Bool.and_eq_true, Bool.and_eq_true] at h
  rcases h with h | h
  · exact h.1
  · simp [isQuote, h.1]

/-- A literal is read up to the same quote in front of another text. -/
theorem literalOf_other {q : Char} (hq : isQuote q = true) {s r : Text}
    (hr : r ≠ [] → literalEnds q (literalOf q s) = true) :
    literalOf q (literalOf q s ++ r) = literalOf q s := by
  by_cases hnil : r = []
  · rw [hnil, List.append_nil, literalOf_again]
  · rw [literalOf_append (ne_backslash_of_isQuote hq) (hr hnil), literalOf_again]

/-- The quote that a literal starts with, behind its prefix. -/
theorem isOpen_literal {w : Text} (hw : ∀ c ∈ w, isQuote c = false) {q : Char}
    (hq : isQuote q = true) (s : Text) (b : Bool) :
    (⟨.literal, w ++ q :: s, b⟩ : PpToken).isOpen = !literalEnds q s := by
  have hdrop : (w ++ q :: s).dropWhile (fun c => !isQuote c) = q :: s := by
    rw [List.dropWhile_append_of_pos (by simpa using hw), List.dropWhile_cons_of_neg (by simp [hq])]
  unfold PpToken.isOpen
  dsimp only
  rw [hdrop]

theorem isQuote_wordOf {c : Char} (hc : isWordStart c = true) (s : Text) :
    ∀ e ∈ c :: wordOf s, isQuote e = false := by
  have hpart : ∀ e, isWordPart e = true → isQuote e = false := by
    intro e he
    by_contra hquote
    rw [not_wordPart_of_isQuote (by simpa using hquote)] at he
    cases he
  refine List.forall_mem_cons.mpr ⟨hpart c ?_, fun e he => hpart e (List.mem_takeWhile_imp he)⟩
  simp only [isWordStart, Bool.or_eq_true] at hc
  rcases hc with hc | hc
  · simp [isWordPart, Char.isAlphanum, hc]
  · simp [isWordPart, hc]

/-! ## Reading on -/

/-- Nothing of what follows the token belongs to it. -/
def Stops (kind : PpKind) (w r : Text) : Prop :=
  ∀ d, r.head? = some d →
    (⟨kind, w, false⟩ : PpToken).isOpen = false ∧ (⟨kind, w, false⟩ : PpToken).goesOn d = false

theorem ppRead_quote {c : Char} (hc : isQuote c = true) (s : Text) :
    ppRead c s = (.literal, c :: literalOf c s) := if_pos hc

theorem ppRead_word {c : Char} (hc : isWordStart c = true) (s : Text) :
    ppRead c s = ppWord (c :: wordOf s) (wordEnd s) := by
  have hquote := isQuote_wordOf hc s c List.mem_cons_self
  rw [ppRead, if_neg (by simp [hquote]), if_pos hc]

theorem ppRead_number {c : Char} (hquote : isQuote c = false) (hword : isWordStart c = false)
    {s : Text} (hc : (c.isDigit || c == '.' && s.head?.any Char.isDigit) = true) :
    ppRead c s = (.number, c :: numberOf false s) := by
  rw [ppRead, if_neg (by simp [hquote]), if_neg (by simp [hword]), if_pos hc]

theorem Stops.literalEnds {w : Text} (hw : ∀ c ∈ w, isQuote c = false) {q : Char}
    (hq : isQuote q = true) {s r : Text} (h : Stops .literal (w ++ q :: s) r) (hr : r ≠ []) :
    literalEnds q s = true := by
  obtain ⟨d, r', rfl⟩ := List.exists_cons_of_ne_nil hr
  have hopen := (h d rfl).1
  rw [isOpen_literal hw hq] at hopen
  simpa using hopen

theorem isDigit_wordPart {c : Char} (hc : c.isDigit = true) : isWordPart c = true := by
  simp [isWordPart, Char.isAlphanum, hc]

/-- What a number starts with is no exponent. -/
theorem isExponent_of_number {c : Char} {s : Text}
    (h : (c.isDigit || c == '.' && s.head?.any Char.isDigit) = true) : isExponent c = false := by
  cases hexp : isExponent c with
  | false => rfl
  | true =>
    have hletter : c = 'e' ∨ c = 'E' ∨ c = 'p' ∨ c = 'P' := by
      simpa [isExponent, or_assoc] using hexp
    rcases hletter with rfl | rfl | rfl | rfl <;> simp at h

/-- The start of a number is one in front of another text. -/
theorem number_append {c : Char} {s : Text}
    (h : (c.isDigit || c == '.' && s.head?.any Char.isDigit) = true) (r : Text) :
    (c.isDigit || c == '.' && (numberOf false s ++ r).head?.any Char.isDigit) = true := by
  by_cases hdigit : c.isDigit = true
  · simp [hdigit]
  · obtain ⟨rfl, hhead⟩ : c = '.' ∧ s.head?.any Char.isDigit = true := by
      simpa [hdigit] using h
    cases s with
    | nil => cases hhead
    | cons d s =>
      have hd : d.isDigit = true := hhead
      rw [numberOf, if_pos (by simp [isDigit_wordPart hd])]
      simpa using hd

theorem ppRead_again {c : Char} {s v r : Text} {kind : PpKind} (hkind : kind ≠ .symbol)
    (hread : ppRead c s = (kind, c :: v)) (hr : Stops kind (c :: v) r) :
    ppRead c (v ++ r) = (kind, c :: v) := by
  by_cases hquote : isQuote c = true
  · rw [ppRead_quote hquote] at hread
    obtain ⟨rfl, hv⟩ := Prod.mk.inj hread
    obtain rfl := (List.cons.inj hv).2
    rw [ppRead_quote hquote, literalOf_other hquote]
    exact Stops.literalEnds (w := []) (by simp) hquote hr
  by_cases hword : isWordStart c = true
  · rw [ppRead_word hword] at hread ⊢
    generalize hend : wordEnd s = e at hread
    by_cases hprefix : ∃ q rest, e = q :: rest ∧ encodingPrefix (c :: wordOf s) q = true
    · obtain ⟨q, rest, rfl, hprefix⟩ := hprefix
      rw [ppWord, if_pos hprefix] at hread
      obtain ⟨rfl, hv⟩ := Prod.mk.inj hread
      obtain rfl : wordOf s ++ q :: literalOf q rest = v := (List.cons.inj hv).2
      have hq := isQuote_of_encodingPrefix hprefix
      have htext : wordOf s ++ q :: literalOf q rest ++ r =
          wordOf s ++ q :: (literalOf q rest ++ r) := by simp
      obtain ⟨hof, hend'⟩ := wordOf_append (s := s) (r := q :: (literalOf q rest ++ r)) (by
        rintro d hd
        cases hd
        exact not_wordPart_of_isQuote hq)
      rw [htext, hof, hend', ppWord, if_pos hprefix, literalOf_other hq]
      · rfl
      · exact Stops.literalEnds (isQuote_wordOf hword s) hq hr
    · have hident : ppWord (c :: wordOf s) e = (.identifier, c :: wordOf s) := by
        cases e with
        | nil => rfl
        | cons q rest => exact if_neg fun h => hprefix ⟨q, rest, rfl, h⟩
      rw [hident] at hread
      obtain ⟨rfl, hv⟩ := Prod.mk.inj hread
      obtain rfl := (List.cons.inj hv).2
      have hstops : ∀ d, r.head? = some d →
          isWordPart d = false ∧ encodingPrefix (c :: wordOf s) d = false := fun d hd => by
        simpa [PpToken.goesOn] using (hr d hd).2
      obtain ⟨hof, hend'⟩ := wordOf_append (s := s) fun d hd => (hstops d hd).1
      rw [hof, hend']
      cases r with
      | nil => rfl
      | cons d r => exact if_neg (by simp [(hstops d rfl).2])
  have hquote : isQuote c = false := by simpa using hquote
  have hword : isWordStart c = false := by simpa using hword
  by_cases hnumber : (c.isDigit || c == '.' && s.head?.any Char.isDigit) = true
  · rw [ppRead_number hquote hword hnumber] at hread
    obtain ⟨rfl, hv⟩ := Prod.mk.inj hread
    obtain rfl := (List.cons.inj hv).2
    have hexponent : isExponent c = false := isExponent_of_number hnumber
    rw [ppRead_number hquote hword (number_append hnumber r), numberOf_append]
    intro d hd
    have hgoes : numberGoesOn (exponentBehind (isExponent c) (numberOf false s)) d = false :=
      (hr d hd).2
    rw [hexponent] at hgoes
    exact hgoes
  · rw [ppRead, if_neg (by simp [hquote]), if_neg (by simp [hword]), if_neg hnumber] at hread
    obtain ⟨rfl, -⟩ := Prod.mk.inj hread
    exact absurd rfl hkind

/-- What stands behind a token does not belong to it. -/
theorem stops_of_read {c : Char} {v rest : Text} {kind : PpKind} (hkind : kind ≠ .symbol)
    (hread : ppRead c (v ++ rest) = (kind, c :: v)) : Stops kind (c :: v) rest := by
  intro d hd
  obtain ⟨r, rfl⟩ := List.head?_eq_some_iff.mp hd
  generalize hs : v ++ d :: r = s at hread
  by_cases hquote : isQuote c = true
  · rw [ppRead_quote hquote] at hread
    obtain ⟨rfl, hv⟩ := Prod.mk.inj hread
    obtain rfl := (List.cons.inj hv).2
    have hne : literalOf c s ≠ s := fun h => by
      have hlen := congrArg List.length (h.trans hs.symm)
      simp at hlen
    have hopen := isOpen_literal (w := []) (by simp) hquote (literalOf c s) false
    rw [literalEnds_of_ne hne] at hopen
    exact ⟨hopen, rfl⟩
  by_cases hword : isWordStart c = true
  · rw [ppRead_word hword] at hread
    generalize hend : wordEnd s = e at hread
    by_cases hprefix : ∃ q rest, e = q :: rest ∧ encodingPrefix (c :: wordOf s) q = true
    · obtain ⟨q, rest, rfl, hprefix⟩ := hprefix
      rw [ppWord, if_pos hprefix] at hread
      obtain ⟨rfl, hv⟩ := Prod.mk.inj hread
      obtain rfl : wordOf s ++ q :: literalOf q rest = v := (List.cons.inj hv).2
      have hne : literalOf q rest ≠ rest := fun h => by
        have hsplit : wordOf s ++ wordEnd s = s := List.takeWhile_append_dropWhile
        rw [hend] at hsplit
        have hlen := congrArg List.length (hs.trans hsplit.symm)
        rw [h] at hlen
        simp at hlen
      have hopen := isOpen_literal (isQuote_wordOf hword s) (isQuote_of_encodingPrefix hprefix)
        (literalOf q rest) false
      rw [literalEnds_of_ne hne] at hopen
      exact ⟨hopen, rfl⟩
    · have hident : ppWord (c :: wordOf s) e = (.identifier, c :: wordOf s) := by
        cases e with
        | nil => rfl
        | cons q rest => exact if_neg fun h => hprefix ⟨q, rest, rfl, h⟩
      rw [hident] at hread
      obtain ⟨rfl, hv⟩ := Prod.mk.inj hread
      obtain rfl := (List.cons.inj hv).2
      have hsplit : wordOf s ++ wordEnd s = s := List.takeWhile_append_dropWhile
      have hrest : wordEnd s = d :: r := List.append_cancel_left (hsplit.trans hs.symm)
      have hnot : encodingPrefix (c :: wordOf s) d = false := by
        by_contra h
        exact hprefix ⟨d, r, hend.symm.trans hrest, by simpa using h⟩
      exact ⟨rfl, by simp [PpToken.goesOn, isWordPart_head_wordEnd hrest, hnot]⟩
  have hquote : isQuote c = false := by simpa using hquote
  have hword : isWordStart c = false := by simpa using hword
  by_cases hnumber : (c.isDigit || c == '.' && s.head?.any Char.isDigit) = true
  · rw [ppRead_number hquote hword hnumber] at hread
    obtain ⟨rfl, hv⟩ := Prod.mk.inj hread
    obtain rfl := (List.cons.inj hv).2
    have hstops := numberOf_stops hs.symm
    have hgoes : numberGoesOn (exponentBehind (isExponent c) (numberOf false s)) d = false := by
      rw [isExponent_of_number hnumber]
      exact hstops
    exact ⟨rfl, hgoes⟩
  · rw [ppRead, if_neg (by simp [hquote]), if_neg (by simp [hword]), if_neg hnumber] at hread
    obtain ⟨rfl, -⟩ := Prod.mk.inj hread
    exact absurd rfl hkind

/-! ## Symbols -/

/-- A symbol is read again in front of a text that makes no other symbol of it. -/
theorem symbolOf_again {c : Char} {v rest r : Text} (h : symbolOf c (v ++ rest) = c :: v)
    (hr : ∀ w ∈ symbols, w <+: c :: (v ++ r) → w <+: c :: (v ++ rest)) :
    symbolOf c (v ++ r) = c :: v := by
  unfold symbolOf at h ⊢
  cases hfind : symbols.find? fun w => w.isPrefixOf (c :: (v ++ rest)) with
  | none =>
    rw [hfind] at h
    have hnone : symbols.find? (fun w => w.isPrefixOf (c :: (v ++ r))) = none := by
      rw [List.find?_eq_none] at hfind ⊢
      intro w hw hprefix
      exact hfind w hw (List.isPrefixOf_iff_prefix.mpr
        (hr w hw (List.isPrefixOf_iff_prefix.mp hprefix)))
    rw [hnone]
    exact h
  | some u =>
    rw [hfind] at h
    obtain rfl : u = c :: v := h
    rw [List.find?_eq_some_iff_append] at hfind
    obtain ⟨-, front, back, hsymbols, hfront⟩ := hfind
    have hsome : symbols.find? (fun w => w.isPrefixOf (c :: (v ++ r))) = some (c :: v) := by
      rw [List.find?_eq_some_iff_append]
      refine ⟨List.isPrefixOf_iff_prefix.mpr ⟨r, rfl⟩, front, back, hsymbols, fun w hw => ?_⟩
      by_contra hprefix
      have hw' := hfront w hw
      have hmem : w ∈ symbols := hsymbols ▸ List.mem_append_left _ hw
      rw [List.isPrefixOf_iff_prefix.mpr (hr w hmem
        (List.isPrefixOf_iff_prefix.mp (by simpa using hprefix)))] at hw'
      cases hw'
    rw [hsome]

theorem ppRead_symbol {c : Char} {s w : Text} (h : ppRead c s = (.symbol, w)) :
    isQuote c = false ∧ isWordStart c = false ∧
      (c.isDigit || c == '.' && s.head?.any Char.isDigit) = false ∧ symbolOf c s = w := by
  unfold ppRead at h
  split at h
  · cases h
  · split at h
    · unfold ppWord at h
      split at h
      · split at h <;> cases h
      · cases h
    · split at h
      · cases h
      · rename_i hquote hword hnumber
        cases h
        exact ⟨by simpa using hquote, by simpa using hword, Bool.eq_false_iff.mpr hnumber, rfl⟩

theorem ppRead_of_symbol {c : Char} {s : Text} (hquote : isQuote c = false)
    (hword : isWordStart c = false)
    (hnumber : (c.isDigit || c == '.' && s.head?.any Char.isDigit) = false) :
    ppRead c s = (.symbol, symbolOf c s) := by
  rw [ppRead, if_neg (by simp [hquote]), if_neg (by simp [hword]), if_neg (by simp [hnumber])]

theorem isPrefix_goesOn {w a r : Text} {d : Char} (hw : w <+: a ++ d :: r)
    (hlen : a.length < w.length) : a ++ [d] <+: w := by
  have htext : a ++ d :: r = a ++ [d] ++ r := by simp
  rw [htext] at hw
  exact List.prefix_of_prefix_length_le ⟨r, rfl⟩ hw (by simpa using hlen)

/-- A symbol in front of a character that it does not go on with. -/
theorem ppRead_symbol_again {c : Char} {v rest r : Text}
    (hread : ppRead c (v ++ rest) = (.symbol, c :: v)) (hr : Stops .symbol (c :: v) r) :
    ppRead c (v ++ r) = (.symbol, c :: v) := by
  obtain ⟨hquote, hword, hnumber, hsymbol⟩ := ppRead_symbol hread
  have hgoes : ∀ d, r.head? = some d → (∀ w ∈ symbols, ¬ c :: v ++ [d] <+: w) ∧
      (c = '.' → v = [] → d.isDigit = false) := fun d hd => by
    have hstop := (hr d hd).2
    simp only [PpToken.goesOn, Bool.or_eq_false_iff, List.any_eq_false] at hstop
    refine ⟨fun w hw hprefix => hstop.1.1 w hw (List.isPrefixOf_iff_prefix.mpr hprefix), ?_⟩
    rintro rfl rfl
    simpa using hstop.1.2
  rw [ppRead_of_symbol hquote hword, symbolOf_again hsymbol]
  · intro w hw hprefix
    by_cases hlen : w.length ≤ (c :: v).length
    · have hself : c :: v <+: c :: (v ++ r) := ⟨r, rfl⟩
      exact (List.prefix_of_prefix_length_le hprefix hself hlen).trans ⟨rest, rfl⟩
    · cases r with
      | nil =>
        rw [List.append_nil] at hprefix
        exact absurd hprefix.length_le hlen
      | cons d r =>
        exact absurd (isPrefix_goesOn (a := c :: v) hprefix (by omega)) ((hgoes d rfl).1 w hw)
  · rw [Bool.or_eq_false_iff] at hnumber ⊢
    refine ⟨hnumber.1, ?_⟩
    cases v with
    | nil =>
      cases r with
      | nil => simp
      | cons d r =>
        have hdigit : c = '.' → d.isDigit = false := fun hdot => (hgoes d rfl).2 hdot rfl
        simpa using hdigit
    | cons e v => exact hnumber.2

theorem symbols_length : ∀ w ∈ symbols, 2 ≤ w.length ∧ w.length ≤ 3 := by decide

theorem symbols_three : ∀ w ∈ symbols, w.length = 3 → w = ['.', '.', '.'] ∨ w.take 2 ∈ symbols := by
  decide

/-- A single character is read where no symbol starts. -/
theorem notMem_symbols_of_single {c : Char} {s w : Text} (h : symbolOf c s = [c])
    (hw : w <+: c :: s) : w ∉ symbols := by
  intro hmem
  unfold symbolOf at h
  cases hfind : symbols.find? fun w => w.isPrefixOf (c :: s) with
  | none =>
    rw [List.find?_eq_none] at hfind
    exact hfind w hmem (List.isPrefixOf_iff_prefix.mpr hw)
  | some u =>
    rw [hfind] at h
    obtain rfl : u = [c] := h
    have hlen := (symbols_length _ (List.mem_of_find?_eq_some hfind)).1
    simp at hlen

/-- A symbol that something else stands behind; only dots can be taken for more with more text. -/
theorem ppRead_symbol_more {c : Char} {v rest b : Text}
    (hread : ppRead c (v ++ rest) = (.symbol, c :: v)) (hne : rest ≠ [])
    (hdots : ¬ (c :: v = ['.'] ∧ rest = ['.'] ∧ b.head? = some '.')) :
    ppRead c (v ++ (rest ++ b)) = (.symbol, c :: v) := by
  obtain ⟨hquote, hword, hnumber, hsymbol⟩ := ppRead_symbol hread
  obtain ⟨d, rest, rfl⟩ := List.exists_cons_of_ne_nil hne
  rw [ppRead_of_symbol hquote hword, symbolOf_again hsymbol]
  · intro w hw hprefix
    have htext : c :: (v ++ (d :: rest ++ b)) = c :: (v ++ d :: rest) ++ b := by simp
    rw [htext] at hprefix
    by_cases hlen : w.length ≤ (c :: (v ++ d :: rest)).length
    · exact List.prefix_of_prefix_length_le hprefix ⟨b, rfl⟩ hlen
    · have hbound := (symbols_length w hw).2
      simp only [List.length_cons, List.length_append] at hlen
      obtain rfl : v = [] := List.length_eq_zero_iff.mp (by omega)
      obtain rfl : rest = [] := List.length_eq_zero_iff.mp (by omega)
      have hthree : w.length = 3 := by
        simp only [List.length_nil] at hlen
        omega
      obtain ⟨e, b, rfl⟩ : ∃ e b', b = e :: b' := by
        refine List.exists_cons_of_ne_nil ?_
        rintro rfl
        have hle := hprefix.length_le
        simp at hle
        omega
      have hcde : [c, d, e] <+: c :: ([] ++ [d]) ++ e :: b := ⟨b, rfl⟩
      obtain rfl : w = [c, d, e] := by
        have hle := List.prefix_of_prefix_length_le hprefix hcde (by simp [hthree])
        exact hle.eq_of_length (by simp [hthree])
      rcases symbols_three _ hw rfl with hdot | htwo
      · cases hdot
        exact absurd ⟨rfl, rfl, rfl⟩ hdots
      · exact absurd htwo (notMem_symbols_of_single hsymbol (List.prefix_rfl))
  · cases v with
    | nil => exact hnumber
    | cons e v => exact hnumber

/-! ## Texts that are written together -/

/-- A token without the white space in front of it. -/
def PpToken.core (t : PpToken) : PpKind × Text := (t.kind, t.spelling)

theorem PpToks.blanks {sp : Text} (hsp : ∀ c ∈ sp, isSpace c) {b : Text} {tb : List PpToken}
    (h : PpToks b tb) :
    ∃ ts, PpToks (sp ++ b) ts ∧ ts.map PpToken.core = tb.map PpToken.core := by
  cases h with
  | nil hb =>
    refine ⟨[], .nil fun c hc => ?_, rfl⟩
    exact (List.mem_append.mp hc).elim (hsp c) (hb c)
  | @cons sp' hsp' c hc s rest kind w hread hsplit ts hrest =>
    rw [← List.append_assoc]
    refine ⟨_, .cons (fun c hc => ?_) hc hread hsplit hrest, rfl⟩
    exact (List.mem_append.mp hc).elim (hsp c) (hsp' c)

/-- What stands behind the last token of `a` leaves it as it is. -/
def Leaves (a : Text) (ta : List PpToken) (b : Text) : Prop :=
  ∀ t, ta.getLast? = some t →
    t.isOpen = false ∧ (t.spelling <:+ a → ∀ d, b.head? = some d → t.goesOn d = false)

theorem Leaves.behind {a b rest : Text} {t : PpToken} {ta : List PpToken}
    (h : Leaves a (t :: ta) b) (hrest : rest <:+ a) : Leaves rest ta b := by
  intro u hu
  have hlast : (t :: ta).getLast? = some u := by
    cases ta with
    | nil => cases hu
    | cons t' ta =>
      rw [List.getLast?_cons_cons]
      exact hu
  obtain ⟨hopen, hgoes⟩ := h u hlast
  exact ⟨hopen, fun hsuffix => hgoes (hsuffix.trans hrest)⟩

theorem PpToks.append {a : Text} {ta : List PpToken} (ha : PpToks a ta) {b : Text}
    {tb : List PpToken} (hb : PpToks b tb) (h : Leaves a ta b) :
    ∃ ts, PpToks (a ++ b) ts ∧
      ts.map PpToken.core = ta.map PpToken.core ++ tb.map PpToken.core := by
  induction ha with
  | nil hsp => exact hb.blanks hsp
  | @cons sp hsp c hc s rest kind w hread hsplit ta hrest ih =>
    obtain ⟨v, rfl⟩ : ∃ v, w = c :: v := by
      cases w with
      | nil =>
        have hne := (ppRead_isPrefix c s).2
        rw [hread] at hne
        exact absurd rfl hne
      | cons e v =>
        obtain ⟨rfl, -⟩ := List.cons.inj hsplit
        exact ⟨v, rfl⟩
    obtain rfl : s = v ++ rest := (List.cons.inj hsplit).2
    obtain ⟨ts, hts, hcore⟩ := ih (h.behind ⟨sp ++ c :: v, by simp⟩)
    have hread' : ppRead c (v ++ (rest ++ b)) = (kind, c :: v) := by
      by_cases hempty : rest = []
      · subst hempty
        obtain rfl : ta = [] := (ppTokens_iff.mpr hrest).symm
        have hstops : Stops kind (c :: v) b := by
          obtain ⟨hopen, hgoes⟩ := h _ rfl
          exact fun d hd => ⟨hopen, hgoes ⟨sp, by simp⟩ d hd⟩
        by_cases hkind : kind = .symbol
        · subst hkind
          exact ppRead_symbol_again hread hstops
        · exact ppRead_again hkind hread hstops
      · by_cases hkind : kind = .symbol
        · subst hkind
          refine ppRead_symbol_more hread hempty ?_
          rintro ⟨-, rfl, hb⟩
          obtain rfl : ta = [⟨.symbol, ['.'], false⟩] := (ppTokens_iff.mpr hrest).symm
          have hgoes := (h ⟨.symbol, ['.'], false⟩ rfl).2 ⟨sp ++ c :: v, by simp⟩ '.' hb
          revert hgoes
          decide
        · refine ppRead_again hkind hread fun d hd => stops_of_read hkind hread d ?_
          obtain ⟨e, rest, rfl⟩ := List.exists_cons_of_ne_nil hempty
          exact hd
    have htext : sp ++ c :: (v ++ rest) ++ b = sp ++ c :: (v ++ (rest ++ b)) := by simp
    rw [htext]
    have hsplit' : c :: (v ++ (rest ++ b)) = c :: v ++ (rest ++ b) := rfl
    refine ⟨_, .cons hsp hc hread' hsplit' hts, ?_⟩
    rw [List.map_cons, List.map_cons, hcore]
    rfl

theorem leaves_of_meets {a b : Text} (h : meets a b = true) : Leaves a (ppTokens a) b := by
  intro t ht
  unfold meets at h
  rw [ht] at h
  obtain ⟨hopen, hgoes⟩ : t.isOpen = false ∧ (t.spelling.isSuffixOf a = false ∨
      b.head?.any (fun d => t.goesOn d) = false) := by simpa using h
  refine ⟨hopen, fun hsuffix d hd => ?_⟩
  rcases hgoes with hnot | hany
  · rw [List.isSuffixOf_iff_suffix.mpr hsuffix] at hnot
    cases hnot
  · rw [hd] at hany
    exact hany

/-- Texts that meet have the tokens of both. -/
theorem ppTokens_append {a b : Text} (h : meets a b = true) :
    (ppTokens (a ++ b)).map PpToken.core =
      (ppTokens a).map PpToken.core ++ (ppTokens b).map PpToken.core := by
  obtain ⟨ts, hts, hcore⟩ :=
    (ppToks_ppTokens a).append (ppToks_ppTokens b) (leaves_of_meets h)
  rw [ppTokens_iff.mpr hts, hcore]

/-- A token that was read of a text is the only one of its spelling. -/
theorem ppTokens_spelling {c : Char} (hc : isSpace c = false) {v rest : Text} {kind : PpKind}
    (hread : ppRead c (v ++ rest) = (kind, c :: v)) :
    ppTokens (c :: v) = [⟨kind, c :: v, false⟩] := by
  have hstops : Stops kind (c :: v) [] := fun d hd => by cases hd
  have hself : ppRead c v = (kind, c :: v) := by
    by_cases hkind : kind = .symbol
    · subst hkind
      have hagain := ppRead_symbol_again hread hstops
      rwa [List.append_nil] at hagain
    · have hagain := ppRead_again hkind hread hstops
      rwa [List.append_nil] at hagain
  have htoks : PpToks ([] ++ c :: v) _ :=
    .cons (by simp) hc hself (List.append_nil _).symm (.nil (by simp))
  exact ppTokens_iff.mpr htoks

end Ucc.Cpp
