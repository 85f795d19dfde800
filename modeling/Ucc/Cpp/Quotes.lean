/-
  Cpp/Quotes.lean --- when `tokenise` finds every closing quote that it looks for.

  Source: src/cpp2/tokenise.c, with strip_comment of src/cpp2/preproc.c,
  eval_macro_r of src/cpp2/eval.c and handle_define of src/cpp2/directive.c.

  The tokeniser knows strings only.  A double quote in a character constant, in a
  comment that is not cleared or without its end starts one too, and so does the
  end of a string when an argument is cut off inside it.
-/
import Ucc.Cpp.Macro
import Ucc.Cpp.StripComment
import Ucc.Cpp.Tokens

set_option autoImplicit false

namespace Ucc.Cpp

/-! ## The texts that are tokenised -/

/-- The classes of the characters of a line without comments. -/
def lexLiterals : Class → Text → List Class
  | _, [] => []
  | .literal q, '\\' :: _ :: s => .literal q :: .literal q :: lexLiterals (.literal q) s
  | .literal q, c :: s => .literal q :: lexLiterals (if c == q then .code else .literal q) s
  | _, c :: s =>
      if isQuote c then .literal c :: lexLiterals (.literal c) s
      else .code :: lexLiterals .code s

/-- The line, or what follows the hash of a directive. -/
def TokenisedLine (line u : Text) : Prop :=
  u = line ∨ ∃ front, line = front ++ '#' :: u ∧ ∀ c ∈ front, isSpace c

/-- The text between a parenthesis outside literals and the one that `strchr_nest` finds. -/
def ArgumentText (line u : Text) : Prop :=
  ∃ front rest close, line = front ++ '(' :: rest ∧
    (lexLiterals .code line)[front.length]? = some .code ∧
    strchrNest ')' 0 ('(' :: rest) = some close ∧ u = rest.take (rest.length - close.length)

/-- The assertion holds for the line, for the body of a macro it defines and for the arguments of
an invocation on it. -/
structure NeverAsserts (s : Text) : Prop where
  line : ∀ u, TokenisedLine s u → ∃ ts, tokenise u = .ok ts
  body : ∀ u ts body, TokenisedLine s u → tokenise u = .ok ts → body <:+ ts →
    ∃ ts', tokenise (joinBody body) = .ok ts'
  arguments : ∀ u, ArgumentText s u → ∃ ts, tokenise u = .ok ts

/-! ## The lines that keep their strings -/

/-- The line and its characters' classes. -/
def marked (c99 : Bool) (cur : Class) (s : Text) : List (Char × Class) :=
  s.zip (lexLine c99 cur s).1

/-- A quote that the tokeniser or the scan for an invocation takes for what it is not. -/
def strayQuote (mode : CommentStrip) (isDirective : Bool) : Char × Class → Bool
  | (_, .code) => false
  | (c, .literal q) => c == '"' && q != '"'
  | (c, .block) => mode != .stripAll && isQuote c
  | (c, .line) => !mode.cuts isDirective && isQuote c

/-- What is left of a line; the rest of a comment is like code. -/
def shown (mode : CommentStrip) (isDirective : Bool) (x : Char × Class) : Option (Char × Class) :=
  match x.2 with
  | .block => if mode == .stripAll then none else some (x.1, .code)
  | .line => if mode.cuts isDirective then none else some (x.1, .code)
  | _ => some x

/-- No parenthesis of a string ends what one of the code begins. -/
def parensOk : List Bool → List (Char × Class) → Bool
  | _, [] => true
  | opens, (c, k) :: s =>
      if c == '(' then parensOk ((k == .code) :: opens) s
      else if c == ')' then
        !(opens.head? == some true && k == .literal '"') && parensOk opens.tail s
      else parensOk opens s

/-- What the loop starts in. -/
def StripInBlock.startClass (st : StripInBlock) : Class := if st.isIn then .block else .code

/-- Every double quote is a string's, every string has an end, and no argument ends in one. -/
def keepsStrings (c99 : Bool) (mode : CommentStrip) (cur : Class) (line : Text) : Bool :=
  let isDirective := isDirectiveLine line
  safeLine c99 mode isDirective cur line &&
    (marked c99 cur line).all (fun x => !strayQuote mode isDirective x) &&
    (lexLine c99 cur line).2 != .literal '"' &&
    parensOk [] ((marked c99 cur line).filterMap (shown mode isDirective))

/-! ## Texts with their classes -/

/-- A literal's characters with their class. -/
def litChars (q : Char) (s : Text) : List (Char × Class) := s.map fun c => (c, .literal q)

/-- Code and literals; what is known of the literals' bodies depends on whether they end. -/
inductive Lexed (Closed Unclosed : Char → Text → Prop) : List (Char × Class) → Prop where
  | nil : Lexed Closed Unclosed []
  | code {c : Char} {d : List (Char × Class)} (hc : isQuote c = false)
      (hd : Lexed Closed Unclosed d) : Lexed Closed Unclosed ((c, .code) :: d)
  | closed {q : Char} {body : Text} {d : List (Char × Class)} (hq : isQuote q = true)
      (hbody : Closed q body) (hd : Lexed Closed Unclosed d) :
      Lexed Closed Unclosed (litChars q (q :: (body ++ [q])) ++ d)
  | unclosed {q : Char} {body : Text} (hq : isQuote q = true) (hbody : Unclosed q body) :
      Lexed Closed Unclosed (litChars q (q :: body))

/-- The double quotes are those of strings that end. -/
abbrev StringsEnd : List (Char × Class) → Prop :=
  Lexed (fun q body => LitBody q body ∧ (q ≠ '"' → '"' ∉ body))
    (fun q body => LitBody q body ∧ '"' ∉ q :: body)

theorem map_fst_litChars (q : Char) (s : Text) : (litChars q s).map Prod.fst = s := by
  simp [litChars, Function.comp_def]

theorem map_snd_litChars (q : Char) (s : Text) :
    (litChars q s).map Prod.snd = List.replicate s.length (.literal q) := by
  simp [litChars, Function.comp_def, List.map_const']

theorem snd_of_mem_litChars {q : Char} {s : Text} {x : Char × Class} (h : x ∈ litChars q s) :
    x.2 = .literal q := by
  obtain ⟨c, -, rfl⟩ := List.mem_map.mp h
  rfl

theorem lexLiterals_body {q : Char} {body : Text} (h : LitBody q body) (s : Text) :
    lexLiterals (.literal q) (body ++ s) =
      List.replicate body.length (.literal q) ++ lexLiterals (.literal q) s := by
  induction h with
  | nil => rfl
  | escape d _ ih =>
    rw [List.cons_append, List.cons_append, lexLiterals, ih]
    rfl
  | @char c t hback hquote _ ih =>
    rw [List.cons_append, lexLiterals, if_neg (by simpa using hquote), ih]
    · rfl
    · rintro d t' rfl
      exact absurd rfl hback

theorem lexLiterals_quote {q : Char} (hq : isQuote q = true) (s : Text) :
    lexLiterals .code (q :: s) = .literal q :: lexLiterals (.literal q) s := by
  simp [lexLiterals, hq]

theorem lexLiterals_end {q : Char} (hq : q ≠ '\\') (s : Text) :
    lexLiterals (.literal q) (q :: s) = .literal q :: lexLiterals .code s := by
  rw [lexLiterals, if_pos (beq_self_eq_true q)]
  rintro d t rfl
  exact absurd rfl hq

/-- A whole literal, with its quotes. -/
theorem lexLiterals_quoted {q : Char} (hq : isQuote q = true) {body : Text} (h : LitBody q body)
    (rest : Text) :
    lexLiterals .code (q :: (body ++ q :: rest)) =
      List.replicate (body.length + 2) (.literal q) ++ lexLiterals .code rest := by
  have hlen : List.replicate (body.length + 2) (Class.literal q) =
      .literal q :: (List.replicate body.length (.literal q) ++ [.literal q]) := by
    rw [List.replicate_succ, List.replicate_succ']
  rw [lexLiterals_quote hq, lexLiterals_body h, lexLiterals_end (ne_backslash_of_isQuote hq), hlen]
  simp

/-- The classes are those that the text itself has. -/
theorem StringsEnd.classes {d : List (Char × Class)} (h : StringsEnd d) :
    lexLiterals .code (d.map Prod.fst) = d.map Prod.snd := by
  induction h with
  | nil => rfl
  | @code c d hc _ ih =>
    rw [List.map_cons, List.map_cons, ← ih]
    simp [lexLiterals, hc]
  | @closed q body d hq hbody _ ih =>
    have hlen : (q :: (body ++ [q])).length = body.length + 2 := by simp
    rw [List.map_append, List.map_append, map_fst_litChars, map_snd_litChars, hlen, ← ih,
      ← lexLiterals_quoted hq hbody.1]
    simp
  | @unclosed q body hq hbody =>
    have hall := lexLiterals_body hbody.1 []
    rw [List.append_nil] at hall
    rw [map_fst_litChars, map_snd_litChars, lexLiterals_quote hq, hall]
    simp [lexLiterals, List.replicate_succ]

theorem StringsEnd.paired {d : List (Char × Class)} (h : StringsEnd d) :
    Paired (d.map Prod.fst) := by
  induction h with
  | nil => exact .nil
  | @code c d hc _ ih =>
    refine .char ?_ ih
    rintro rfl
    cases hc
  | @closed q body d hq hbody _ ih =>
    obtain ⟨hbody, hmixed⟩ := hbody
    rw [List.map_append, map_fst_litChars]
    by_cases hqq : q = '"'
    · subst hqq
      rw [List.cons_append, List.append_assoc]
      exact .string hbody ih
    · refine (paired_of_notMem ?_).append ih
      simp [hmixed hqq, Ne.symm hqq]
  | unclosed _ hbody =>
    rw [map_fst_litChars]
    exact paired_of_notMem hbody.2

/-- A part that ends before a character that is not of the first part's class. -/
theorem append_eq_of_class {k : Class} {a d p s : List (Char × Class)} {x : Char × Class}
    (ha : ∀ y ∈ a, y.2 = k) (hx : x.2 ≠ k) (h : a ++ d = p ++ x :: s) :
    ∃ p', p = a ++ p' ∧ d = p' ++ x :: s := by
  rcases List.append_eq_append_iff.mp h with ⟨p', hp, hd⟩ | ⟨a', ha', hs⟩
  · exact ⟨p', hp, hd⟩
  · cases a' with
    | nil => exact ⟨[], by simp [ha'], by simpa using hs.symm⟩
    | cons y a' =>
      cases hs
      exact absurd (ha x (ha' ▸ by simp)) hx

/-- The text behind a character of the code. -/
theorem Lexed.behind {Closed Unclosed : Char → Text → Prop} {d p s : List (Char × Class)}
    (h : Lexed Closed Unclosed d) {c : Char} (hd : d = p ++ (c, .code) :: s) :
    Lexed Closed Unclosed s := by
  induction h generalizing p with
  | nil => simp at hd
  | code hc hlexed ih =>
    cases p with
    | nil =>
      cases hd
      exact hlexed
    | cons x p =>
      rw [List.cons_append, List.cons.injEq] at hd
      exact ih hd.2
  | closed hq hbody _ ih =>
    obtain ⟨p', -, hd'⟩ := append_eq_of_class (fun _ => snd_of_mem_litChars) (by simp) hd
    exact ih hd'
  | @unclosed q body =>
    have hmem : (c, Class.code) ∈ litChars q (q :: body) := by simp [hd]
    cases snd_of_mem_litChars hmem

/-- The text in front of a character outside strings. -/
theorem StringsEnd.front {d p s : List (Char × Class)} (h : StringsEnd d) {x : Char × Class}
    (hx : x.2 ≠ .literal '"') (hd : d = p ++ x :: s) : Paired (p.map Prod.fst) := by
  induction h generalizing p with
  | nil => simp at hd
  | @code c d hc _ ih =>
    cases p with
    | nil => exact .nil
    | cons y p =>
      rw [List.cons_append, List.cons.injEq] at hd
      obtain ⟨rfl, hd⟩ := hd
      refine .char ?_ (ih hd)
      rintro rfl
      cases hc
  | @closed q body d hq hbody _ ih =>
    obtain ⟨hbody, hmixed⟩ := hbody
    by_cases hqq : q = '"'
    · subst hqq
      obtain ⟨p', rfl, hd'⟩ := append_eq_of_class (fun _ => snd_of_mem_litChars) hx hd
      rw [List.map_append, map_fst_litChars, List.cons_append, List.append_assoc]
      exact .string hbody (ih hd')
    · have hnot : '"' ∉ q :: (body ++ [q]) := by simp [hmixed hqq, Ne.symm hqq]
      rcases List.append_eq_append_iff.mp hd with ⟨p', rfl, hd'⟩ | ⟨a', ha', -⟩
      · rw [List.map_append, map_fst_litChars]
        exact (paired_of_notMem hnot).append (ih hd')
      · refine paired_of_notMem fun hm => hnot ?_
        rw [← map_fst_litChars q (q :: (body ++ [q])), ha', List.map_append]
        exact List.mem_append_left _ hm
  | @unclosed q body _ hbody =>
    refine paired_of_notMem fun hm => hbody.2 ?_
    rw [← map_fst_litChars q (q :: body), hd, List.map_append]
    exact List.mem_append_left _ hm

/-! ## Parentheses -/

theorem parensOk_other {c : Char} (hopen : c ≠ '(') (hclose : c ≠ ')') (opens : List Bool)
    (k : Class) (d : List (Char × Class)) : parensOk opens ((c, k) :: d) = parensOk opens d := by
  rw [parensOk, if_neg (by simpa using hopen), if_neg (by simpa using hclose)]

/-- The end of a text, with the parentheses that are open there. -/
theorem parensOk_append {d s : List (Char × Class)} {opens : List Bool}
    (h : parensOk opens (d ++ s) = true) : ∃ opens', parensOk opens' s = true := by
  induction d generalizing opens with
  | nil => exact ⟨opens, h⟩
  | cons x d ih =>
    obtain ⟨c, k⟩ := x
    rw [List.cons_append, parensOk] at h
    split at h
    · exact ih h
    · split at h
      · rw [Bool.and_eq_true] at h
        exact ih h.2
      · exact ih h

theorem parensOk_close {opens : List Bool} {k : Class} {d : List (Char × Class)}
    (h : parensOk opens ((')', k) :: d) = true) :
    (opens.head? = some true → k ≠ .literal '"') ∧ parensOk opens.tail d = true := by
  rw [parensOk, if_neg (by decide), if_pos (by decide), Bool.and_eq_true] at h
  refine ⟨fun hhead hk => ?_, h.2⟩
  simp [hhead, hk] at h

theorem strchrNest_close (nest : Nat) (s : Text) :
    strchrNest ')' (nest + 1) (')' :: s) =
      if nest = 0 then some (')' :: s) else strchrNest ')' nest s := by
  rw [strchrNest, if_neg (by decide), if_neg (by decide)]
  simp

theorem strchrNest_other {c : Char} (hopen : c ≠ '(') (hclose : c ≠ ')') (hnul : c ≠ nul)
    (nest : Nat) (s : Text) : strchrNest ')' nest (c :: s) = strchrNest ')' nest s := by
  rw [strchrNest, if_neg (by simpa using hnul), if_neg (by simpa using hopen)]
  simp [hclose]

/-- `i` are the parentheses that were opened behind the one that is looked at. -/
theorem strchrNest_outside {s : List (Char × Class)} {i opens : List Bool}
    (hnul : nul ∉ s.map Prod.fst) (h : parensOk (i ++ true :: opens) s = true) {close : Text}
    (hclose : strchrNest ')' (i.length + 1) (s.map Prod.fst) = some close) :
    ∃ p x b, s = p ++ x :: b ∧ x.2 ≠ .literal '"' ∧ close = (x :: b).map Prod.fst := by
  induction s generalizing i with
  | nil => cases hclose
  | cons y s ih =>
    obtain ⟨c, k⟩ := y
    rw [List.map_cons, List.mem_cons, not_or] at hnul
    rw [List.map_cons] at hclose
    by_cases hopen : c = '('
    · subst hopen
      obtain ⟨p, x, b, rfl, hx, hb⟩ := ih (i := (k == .code) :: i) hnul.2 h hclose
      exact ⟨('(', k) :: p, x, b, rfl, hx, hb⟩
    by_cases hend : c = ')'
    · subst hend
      obtain ⟨hk, hrest⟩ := parensOk_close h
      rw [strchrNest_close] at hclose
      cases i with
      | nil =>
        cases hclose
        exact ⟨[], (')', k), s, rfl, hk rfl, rfl⟩
      | cons _ i =>
        rw [if_neg (by simp)] at hclose
        obtain ⟨p, x, b, rfl, hx, hb⟩ := ih (i := i) hnul.2 hrest hclose
        exact ⟨(')', k) :: p, x, b, rfl, hx, hb⟩
    · rw [parensOk_other hopen hend] at h
      rw [strchrNest_other hopen hend (Ne.symm hnul.1)] at hclose
      obtain ⟨p, x, b, rfl, hx, hb⟩ := ih hnul.2 h hclose
      exact ⟨(c, k) :: p, x, b, rfl, hx, hb⟩

/-- An argument of a line whose strings end. -/
theorem StringsEnd.argument {d : List (Char × Class)} (h : StringsEnd d)
    (hnul : nul ∉ d.map Prod.fst) (hparens : parensOk [] d = true) {u : Text}
    (hu : ArgumentText (d.map Prod.fst) u) :
    Paired u := by
  obtain ⟨front, rest, close, hline, hclass, hclose, rfl⟩ := hu
  obtain ⟨p, y, rfl, rfl, hrest⟩ := List.map_eq_append_iff.mp hline
  obtain ⟨⟨c, k⟩, s, rfl, hc, rfl⟩ := List.map_eq_cons_iff.mp hrest
  obtain rfl : c = '(' := hc
  have hclass := h.classes ▸ hclass
  obtain rfl : k = .code := by simpa using hclass
  obtain ⟨opens, hopens⟩ := parensOk_append hparens
  have hnuls : nul ∉ s.map Prod.fst := fun hm => hnul (by simp [hm])
  obtain ⟨arg, x, b, rfl, hx, rfl⟩ := strchrNest_outside (i := []) hnuls hopens hclose
  have hrest : StringsEnd (arg ++ x :: b) := h.behind rfl
  have harg := hrest.front hx rfl
  have hlen : ((arg ++ x :: b).map Prod.fst).length - ((x :: b).map Prod.fst).length =
      (arg.map Prod.fst).length := by simp
  rw [hlen, List.map_append, List.take_left]
  exact harg

/-! ## The line that `strip_comment` leaves -/

/-- What is open in the one text is closed by the same characters of the other. -/
def Admits (d d' : List (Char × Class)) : Prop :=
  ∀ opens, parensOk opens d = true → parensOk opens d' = true

theorem Admits.refl (d : List (Char × Class)) : Admits d d := fun _ h => h

theorem Admits.append (a : List (Char × Class)) {d d' : List (Char × Class)} (h : Admits d d') :
    Admits (a ++ d) (a ++ d') := by
  induction a with
  | nil => exact h
  | cons x a ih =>
    obtain ⟨c, k⟩ := x
    intro opens ho
    rw [List.cons_append, parensOk] at ho ⊢
    split
    · rw [if_pos ‹_›] at ho
      exact ih _ ho
    · rw [if_neg ‹_›] at ho
      split
      · rw [if_pos ‹_›, Bool.and_eq_true] at ho
        rw [Bool.and_eq_true]
        exact ⟨ho.1, ih _ ho.2⟩
      · rw [if_neg ‹_›] at ho
        exact ih _ ho

/-- A character that is new in the second text. -/
theorem Admits.put {c : Char} (hopen : c ≠ '(') (hclose : c ≠ ')') {k : Class}
    {d d' : List (Char × Class)} (h : Admits d d') : Admits d ((c, k) :: d') := by
  intro opens ho
  rw [parensOk_other hopen hclose]
  exact h opens ho

/-- A character that is gone from it. -/
theorem Admits.drop {c : Char} (hopen : c ≠ '(') (hclose : c ≠ ')') {k : Class}
    {d d' : List (Char × Class)} (h : Admits d d') : Admits ((c, k) :: d) d' := by
  intro opens ho
  rw [parensOk_other hopen hclose] at ho
  exact h opens ho

theorem zip_replicate_class (s : Text) (k : Class) :
    s.zip (List.replicate s.length k) = s.map fun c => (c, k) := by
  induction s with
  | nil => rfl
  | cons c s ih => rw [List.length_cons, List.replicate_succ, List.zip_cons_cons, ih, List.map_cons]

theorem marked_append {c99 : Bool} {cur cur' : Class} {a s : Text} {ks : List Class}
    (hlen : a.length = ks.length)
    (hlex : lexLine c99 cur (a ++ s) = (lexLine c99 cur' s).map (ks ++ ·) id) :
    marked c99 cur (a ++ s) = a.zip ks ++ marked c99 cur' s := by
  unfold marked
  rw [hlex, ← List.zip_append hlen]
  rfl

theorem filterMap_shown_litChars (mode : CommentStrip) (isDirective : Bool) (q : Char) (s : Text) :
    (litChars q s).filterMap (shown mode isDirective) = litChars q s := by
  induction s with
  | nil => rfl
  | cons c s ih => exact congrArg ((c, Class.literal q) :: ·) ih

/-- A delimiter of a block comment. -/
theorem admits_block {mode : CommentStrip} {isDirective : Bool} {c : Char} (hopen : c ≠ '(')
    (hclose : c ≠ ')') {d d' : List (Char × Class)}
    (h : Admits (d.filterMap (shown mode isDirective)) d') :
    Admits (((c, .block) :: d).filterMap (shown mode isDirective)) d' := by
  cases hmode : mode == .stripAll with
  | true => simpa [shown, hmode] using h
  | false => simpa [shown, hmode] using h.drop hopen hclose

/-- What stands for the marked line, and its strings end. -/
def StringsEndIn (mode : CommentStrip) (isDirective : Bool) (src : List (Char × Class)) (t : Text) :
    Prop :=
  ∃ d, d.map Prod.fst = t ∧ StringsEnd d ∧ Admits (src.filterMap (shown mode isDirective)) d

/-- Both characters of a delimiter, and what stands for them. -/
theorem StringsEndIn.delimiter {mode : CommentStrip} {isDirective : Bool}
    {src : List (Char × Class)} {t : Text} (h : StringsEndIn mode isDirective src t)
    {a b a' b' : Char}
    (hsrc : ∀ c ∈ [a, b], c ≠ '(' ∧ c ≠ ')')
    (hout : ∀ c ∈ [a', b'], c ≠ '(' ∧ c ≠ ')' ∧ isQuote c = false) :
    StringsEndIn mode isDirective ((a, .block) :: (b, .block) :: src) (a' :: b' :: t) := by
  obtain ⟨ha, hb⟩ : (a ≠ '(' ∧ a ≠ ')') ∧ b ≠ '(' ∧ b ≠ ')' := by simpa using hsrc
  obtain ⟨ha', hb'⟩ : (a' ≠ '(' ∧ a' ≠ ')' ∧ isQuote a' = false) ∧
      b' ≠ '(' ∧ b' ≠ ')' ∧ isQuote b' = false := by simpa using hout
  obtain ⟨d, rfl, hends, hadmits⟩ := h
  refine ⟨(a', .code) :: (b', .code) :: d, rfl, .code ha'.2.2 (.code hb'.2.2 hends), ?_⟩
  exact admits_block ha.1 ha.2 (admits_block hb.1 hb.2
    ((hadmits.put hb'.1 hb'.2.1).put ha'.1 ha'.2.1))

/-- A comment that is no code any more, but reads like it. -/
theorem stringsEnd_of_no_quote {s : Text} (h : ∀ c ∈ s, isQuote c = false) {d : List (Char × Class)}
    (hd : StringsEnd d) : StringsEnd (s.map (fun c => (c, .code)) ++ d) := by
  induction s with
  | nil => exact hd
  | cons c s ih =>
    exact .code (h c List.mem_cons_self) (ih fun e he => h e (List.mem_cons_of_mem _ he))

/-- The strings of the line that the loop leaves end, and it has the parentheses that are shown. -/
theorem stringsEnd_of_renders {c99 : Bool} {mode : CommentStrip} {isDirective : Bool} {cur : Class}
    {s t : Text} (h : Renders c99 mode isDirective cur s t)
    (hstray : ∀ x ∈ marked c99 cur s, strayQuote mode isDirective x = false)
    (hend : (lexLine c99 cur s).2 ≠ .literal '"') :
    StringsEndIn mode isDirective (marked c99 cur s) t := by
  induction h with
  | nil => exact ⟨[], rfl, .nil, .refl _⟩
  | @code c s t hquote hlex _ ih =>
    have hmarked : marked c99 .code (c :: s) = (c, .code) :: marked c99 .code s :=
      marked_append (show [c].length = [Class.code].length from rfl) hlex
    rw [hmarked] at hstray ⊢
    rw [hlex] at hend
    obtain ⟨d, rfl, hends, hadmits⟩ := ih (fun x hx => hstray x (List.mem_cons_of_mem _ hx)) hend
    exact ⟨(c, .code) :: d, rfl, .code hquote hends, hadmits.append [(c, .code)]⟩
  | @closed q body s t hquote hbody _ ih =>
    have hlex : lexLine c99 .code (q :: (body ++ q :: s)) = _ := lexLine_quoted hquote hbody s
    have htext : q :: (body ++ q :: s) = q :: (body ++ [q]) ++ s := by simp
    have hlen : (q :: (body ++ [q])).length = body.length + 2 := by simp
    have hmarked : marked c99 .code (q :: (body ++ q :: s)) =
        litChars q (q :: (body ++ [q])) ++ marked c99 .code s := by
      rw [htext] at hlex ⊢
      rw [marked_append (by simp) hlex, ← hlen, zip_replicate_class]
      rfl
    rw [hmarked] at hstray ⊢
    rw [hlex] at hend
    obtain ⟨d, rfl, hends, hadmits⟩ := ih (fun x hx => hstray x (List.mem_append_right _ hx)) hend
    refine ⟨litChars q (q :: (body ++ [q])) ++ d, by simp [map_fst_litChars],
      .closed hquote ⟨hbody, fun hq hm => ?_⟩ hends, ?_⟩
    · have hmem : ('"', Class.literal q) ∈ litChars q (q :: (body ++ [q])) :=
        List.mem_map.mpr ⟨'"', by simp [hm], rfl⟩
      have hfalse := hstray _ (List.mem_append_left _ hmem)
      simp [strayQuote, hq] at hfalse
    · rw [List.filterMap_append, filterMap_shown_litChars]
      exact hadmits.append _
  | @unclosed q body hquote hbody =>
    have hlex : lexLine c99 .code (q :: body) = _ := lexLine_quote_unclosed hquote hbody
    have hmarked : marked c99 .code (q :: body) = litChars q (q :: body) := by
      unfold marked
      rw [hlex]
      exact zip_replicate_class (q :: body) (.literal q)
    rw [hmarked] at hstray ⊢
    rw [hlex] at hend
    have hq : q ≠ '"' := fun hq => hend (hq ▸ rfl)
    refine ⟨litChars q (q :: body), map_fst_litChars _ _,
      .unclosed hquote ⟨hbody, fun hm => ?_⟩, ?_⟩
    · have hmem : ('"', Class.literal q) ∈ litChars q (q :: body) :=
        List.mem_map.mpr ⟨'"', hm, rfl⟩
      have hfalse := hstray _ hmem
      simp [strayQuote, hq] at hfalse
    · rw [filterMap_shown_litChars]
      exact .refl _
  | cut => exact ⟨[], rfl, .nil, fun _ _ => rfl⟩
  | @line s hc99 hcuts =>
    have hlex : lexLine c99 .code ('/' :: '/' :: s) =
        (List.replicate ('/' :: '/' :: s).length .line, .line) := by
      rw [lexLine_code (by simp), if_neg (by decide), if_pos (by simp [hc99]), lexLine_line]
      rfl
    have hmarked : marked c99 .code ('/' :: '/' :: s) =
        ('/' :: '/' :: s).map fun c => (c, .line) := by
      unfold marked
      rw [hlex]
      exact zip_replicate_class _ _
    rw [hmarked] at hstray ⊢
    have hquote : ∀ c ∈ s, isQuote c = false := fun c hc => by
      have hfalse := hstray (c, .line) (by simp [hc])
      simpa [strayQuote, hcuts] using hfalse
    have hend : StringsEnd [('*', .code), ('/', .code)] := .code rfl (.code rfl .nil)
    have hshown : (('/' :: '/' :: s).map fun c => (c, Class.line)).filterMap
        (shown mode isDirective) = ('/' :: '/' :: s).map fun c => (c, .code) := by
      simp [shown, hcuts, Function.comp_def]
    refine ⟨('/', .code) :: ('*', .code) ::
      (s.map (fun c => (c, .code)) ++ [('*', .code), ('/', .code)]), by simp [Function.comp_def],
      .code rfl (.code rfl (stringsEnd_of_no_quote hquote hend)), ?_⟩
    rw [hshown, List.map_cons, List.map_cons]
    have htail : Admits [] [('*', Class.code), ('/', .code)] := fun _ _ => rfl
    have hbody := htail.append (s.map fun c => (c, .code))
    rw [List.append_nil] at hbody
    exact ((hbody.put (by decide) (by decide)).put (by decide) (by decide)).drop
      (by decide) (by decide) |>.drop (by decide) (by decide)
  | beginCut _ ih =>
    have hrest := ih
      (fun x hx => hstray x (List.mem_cons_of_mem _ (List.mem_cons_of_mem _ hx))) hend
    exact hrest.delimiter (by simp) (by simp [isQuote])
  | begin _ ih =>
    have hrest := ih
      (fun x hx => hstray x (List.mem_cons_of_mem _ (List.mem_cons_of_mem _ hx))) hend
    exact hrest.delimiter (by simp) (by simp [isQuote])
  | endClear _ ih =>
    have hrest := ih
      (fun x hx => hstray x (List.mem_cons_of_mem _ (List.mem_cons_of_mem _ hx))) hend
    exact hrest.delimiter (by simp) (by simp [isQuote])
  | endKeep _ ih =>
    have hrest := ih
      (fun x hx => hstray x (List.mem_cons_of_mem _ (List.mem_cons_of_mem _ hx))) hend
    exact hrest.delimiter (by simp) (by simp [isQuote])
  | @block c s t hlex _ ih =>
    have hmarked : marked c99 .block (c :: s) = (c, .block) :: marked c99 .block s :=
      marked_append (show [c].length = [Class.block].length from rfl) hlex
    rw [hmarked] at hstray ⊢
    rw [hlex] at hend
    obtain ⟨d, rfl, hends, hadmits⟩ := ih (fun x hx => hstray x (List.mem_cons_of_mem _ hx)) hend
    have hfalse := hstray (c, .block) List.mem_cons_self
    cases hmode : mode == .stripAll with
    | true =>
      refine ⟨(' ', .code) :: d, rfl, .code rfl hends, ?_⟩
      simpa [shown, hmode] using hadmits.put (by decide) (by decide)
    | false =>
      refine ⟨(c, .code) :: d, rfl, .code ?_ hends, ?_⟩
      · have hkept : (mode != .stripAll) = true := by simp [bne, hmode]
        simpa only [strayQuote, hkept, Bool.true_and] using hfalse
      · simpa [shown, hmode] using hadmits.append [(c, .code)]

/-! ## Characters that were not there -/

/-- The characters that a line has, and those that comments are written with. -/
def FromLine (s : Text) (r : Stripped) : Prop := ∀ c ∈ r.line, c ∈ s ∨ c ∈ [' ', '*', '/']

theorem FromLine.put {s s' a : Text} {r : Stripped} (h : FromLine s' r) (hs : s' ⊆ s)
    (ha : ∀ c ∈ a, c ∈ s ∨ c ∈ [' ', '*', '/']) (ks : List Class) : FromLine s (r.put ks a) := by
  intro c hc
  rcases List.mem_append.mp hc with hc | hc
  · exact ha c hc
  · exact (h c hc).imp_left (@hs c)

theorem ok_of_map_ok {f : Stripped → Stripped} {x : Except Fault Stripped} {r : Stripped}
    (h : x.map f = .ok r) : ∃ r', x = .ok r' ∧ r = f r' := by
  cases x with
  | error => cases h
  | ok r' =>
    cases h
    exact ⟨r', rfl, rfl⟩

theorem stripLoop_fromLine {c99 : Bool} {mode : CommentStrip} {isDirective : Bool} {n : Nat}
    {st : StripInBlock} {closes : Bool} {s : Text} {r : Stripped}
    (h : stripLoop c99 mode isDirective n st closes s = .ok r) : FromLine s r := by
  induction n generalizing st closes s r with
  | zero =>
    cases h
    simp [FromLine]
  | succ n ih =>
    cases s with
    | nil =>
      cases h
      simp [FromLine]
    | cons c s =>
      have htail : s.tail ⊆ c :: s := fun e he => List.mem_cons_of_mem c (List.mem_of_mem_tail he)
      have hblank : ∀ e ∈ [' ', ' '], e ∈ c :: s ∨ e ∈ [' ', '*', '/'] := by simp
      have hself : ∀ e ∈ [c], e ∈ c :: s ∨ e ∈ [' ', '*', '/'] := by simp
      rw [stripLoop] at h
      dsimp only at h
      split at h
      · split at h
        · split at h
          · obtain ⟨r', hr, rfl⟩ := ok_of_map_ok h
            exact (ih hr).put htail hblank _
          · obtain ⟨r', hr, rfl⟩ := ok_of_map_ok h
            exact (ih hr).put (List.subset_cons_self c s) hself _
        · obtain ⟨r', hr, rfl⟩ := ok_of_map_ok h
          refine (ih hr).put (List.subset_cons_self c s) ?_ _
          split <;> simp
      · split at h
        · split at h
          · cases h
          · split at h
            · cases h
              exact fun e he => Or.inl he
            · obtain ⟨r', hr, rfl⟩ := ok_of_map_ok h
              refine (ih hr).put ?_ ?_ _
              · exact fun e he => List.mem_cons_of_mem c
                  ((strQuotefin2_suffix ‹_›).subset (List.mem_of_mem_tail he))
              · refine fun e he => Or.inl ?_
                rcases List.mem_cons.mp he with rfl | he
                · exact List.mem_cons_self
                · exact List.mem_cons_of_mem c (List.mem_of_mem_take he)
        · split at h
          · split at h
            · cases h
              simp [FromLine]
            · cases h
              intro e he
              simp only [List.cons_append, List.mem_cons, List.mem_append, List.not_mem_nil,
                or_false] at he ⊢
              rcases he with rfl | rfl | he | rfl | rfl
              · exact Or.inl (Or.inl rfl)
              · simp
              · exact Or.inl (Or.inr (List.mem_of_mem_tail he))
              · simp
              · simp
          · split at h
            · split at h
              · obtain ⟨r', hr, rfl⟩ := ok_of_map_ok h
                exact (ih hr).put htail hblank _
              · obtain ⟨r', hr, rfl⟩ := ok_of_map_ok h
                exact (ih hr).put (List.subset_cons_self c s) hself _
            · obtain ⟨r', hr, rfl⟩ := ok_of_map_ok h
              exact (ih hr).put (List.subset_cons_self c s) hself _

/-! ## The assertion -/

theorem TokenisedLine.paired {line u : Text} (h : TokenisedLine line u) (hline : Paired line) :
    Paired u := by
  rcases h with rfl | ⟨front, rfl, hfront⟩
  · exact hline
  · have hnot : '"' ∉ front := fun hm => absurd (hfront _ hm) (by decide)
    exact (hline.drop hnot).tail (by decide)

theorem TokenisedLine.subset {line u : Text} (h : TokenisedLine line u) : u ⊆ line := by
  rcases h with rfl | ⟨front, rfl, -⟩
  · exact List.Subset.refl u
  · exact fun c hc => List.mem_append_right _ (List.mem_cons_of_mem _ hc)

theorem ArgumentText.subset {line u : Text} (h : ArgumentText line u) : u ⊆ line := by
  obtain ⟨front, rest, close, rfl, -, -, rfl⟩ := h
  exact fun c hc => List.mem_append_right _ (List.mem_cons_of_mem _ (List.mem_of_mem_take hc))

/-- Each text that is tokenised has its double quotes paired. -/
theorem neverAsserts_of_paired {line : Text} (hnul : nul ∉ line) (hline : Paired line)
    (harguments : ∀ u, ArgumentText line u → Paired u) : NeverAsserts line := by
  have htokenised {u : Text} (hu : TokenisedLine line u) : nul ∉ u :=
    fun hm => hnul (hu.subset hm)
  refine ⟨fun u hu => ?_, fun u ts body hu hts hbody => ?_, fun u hu => ?_⟩
  · exact tokenises_of_paired (htokenised hu) (hu.paired hline)
  · have hok := tokenOk_of_toks (htokenised hu) (tokenise_iff.mp hts)
    have hokb : ∀ t ∈ body, TokenOk t := fun t ht => hok t (hbody.subset ht)
    cases body with
    | nil => exact ⟨[], rfl⟩
    | cons t body =>
      have hfirst : TokenOk { t with hadWhitespace := false } := hokb t List.mem_cons_self
      exact tokenises_tokensJoin
        (List.forall_mem_cons.mpr ⟨hfirst, fun t' ht => hokb t' (List.mem_cons_of_mem _ ht)⟩)
  · exact tokenises_of_paired (fun hm => hnul (hu.subset hm)) (harguments u hu)

end Ucc.Cpp
