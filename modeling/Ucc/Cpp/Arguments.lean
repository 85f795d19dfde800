/-
  Cpp/Arguments.lean --- where an invocation ends, and how its arguments are split.

  Source: strchr_nest in src/cpp2/str.c, split_func_args and eval_macro_r in
  src/cpp2/eval.c.

  The reference works on characters with their classes.  `strchr_nest` does not look
  at the classes and the tokens know strings only, so a literal with a parenthesis
  of its own, or a character constant with a comma, can mislead them.
-/
import Ucc.Cpp.Eval
import Ucc.Cpp.Quotes

set_option autoImplicit false

namespace Ucc.Cpp

/-! ## The reference -/

/-- The characters of a line, each with its class. -/
def literals (line : Text) : List (Char × Class) := line.zip (lexLiterals .code line)

/-- The rest from the parenthesis on that closes the invocation, from behind `n` more that were
opened. -/
def closing : Nat → List (Char × Class) → Option (List (Char × Class))
  | _, [] => none
  | n, (c, k) :: d =>
      if k != .code then closing n d
      else if c == '(' then closing (n + 1) d
      else if c == ')' then
        if n = 0 then some ((c, k) :: d) else closing (n - 1) d
      else closing n d

/-- The nesting depth behind a character. -/
def nestBehind (n : Nat) (x : Char × Class) : Nat :=
  if x.2 != .code then n
  else if x.1 == '(' then n + 1
  else if x.1 == ')' then n - 1
  else n

/-- The pieces between the commas of the code that stand in no parentheses. -/
def pieces : Nat → List (Char × Class) → List Text
  | _, [] => [[]]
  | n, x :: d =>
      if x == (',', .code) && n == 0 then [] :: pieces 0 d
      else (pieces (nestBehind n x) d).modifyHead (x.1 :: ·)

/-- How many commas there are between them. -/
def topCommas : Nat → List (Char × Class) → Nat
  | _, [] => 0
  | n, x :: d =>
      (if x == (',', .code) && n == 0 then 1 else 0) + topCommas (nestBehind n x) d

/-- The arguments of an invocation. -/
def argumentPieces (a : List (Char × Class)) : List Text := if a.isEmpty then [] else pieces 0 a

/-- The values of `nest` in the loop of `split_func_args`. -/
def nests : Int → List Token → List Int
  | nest, [] => [nest]
  | nest, t :: ts =>
      let nest' :=
        match t.tok with
        | .openParen => nest + 1
        | .closeParen => nest - 1
        | _ => nest
      nest :: nests nest' ts

/-- The tokens of the piece, joined; the blank at its end may be dropped. -/
def JoinsPiece (piece arg : Text) : Prop :=
  ∃ ts, tokenise piece = .ok ts ∧
    (arg = tokensJoin ts ∨ arg = tokensJoin (ts.filter fun t => !tokenIsSpace t))

/-- The arguments are the pieces, and `nest` stays where it can be. -/
def SplitsAs (a : List (Char × Class)) : Prop :=
  ∃ ts args, tokenise (a.map Prod.fst) = .ok ts ∧ splitFuncArgs (a.map Prod.fst) = .ok args ∧
    List.Forall₂ JoinsPiece (argumentPieces a) args ∧
    args.length = (if a.isEmpty then 0 else topCommas 0 a + 1) ∧ ∀ nest ∈ nests 0 ts, 0 ≤ nest

/-- What is read of an invocation, from behind its parenthesis. -/
structure Delimits (d : List (Char × Class)) : Prop where
  close : strchrNest ')' 0 ('(' :: d.map Prod.fst) = (closing 0 d).map (·.map Prod.fst)
  split : ∀ a e, closing 0 d = some e → d = a ++ e → SplitsAs a

/-! ## The invocations that are read as they should be -/

/-- Up to the end of the invocation every literal closes the parentheses that it opens, and no
others; `l` are open in it. -/
def literalsNest : Nat → Nat → List (Char × Class) → Bool
  | _, _, [] => true
  | n, l, (c, k) :: d =>
      if k == .code then
        l == 0 &&
          if c == '(' then literalsNest (n + 1) 0 d
          else if c == ')' then n == 0 || literalsNest (n - 1) 0 d
          else literalsNest n 0 d
      else if c == '(' then literalsNest n (l + 1) d
      else if c == ')' then l != 0 && literalsNest n (l - 1) d
      else literalsNest n l d

/-- A character that the tokeniser makes nothing of in a character constant. -/
def plainConstant : Char × Class → Bool
  | (c, .literal q) => q == '"' || !(c == ',' || c == '(' || c == ')' || c == '"')
  | _ => true

/-- The characters in front of the end. -/
def insideOf (d : List (Char × Class)) : List (Char × Class) :=
  match closing 0 d with
  | none => []
  | some e => d.take (d.length - e.length)

/-- No literal of the invocation misleads the scan or the tokens. -/
def argumentsOk (d : List (Char × Class)) : Bool :=
  literalsNest 0 0 d && (insideOf d).all plainConstant

example : (closing 0 (literals "a(b), \")\", ',')".toList)).map (·.length) = some 1 ∧
    pieces 0 (literals "a(b,c), \",\"".toList) = ["a(b,c)".toList, " \",\"".toList] := by decide

/-! ## The end of the invocation -/

theorem strchrNest_closing {d : List (Char × Class)} (hnul : nul ∉ d.map Prod.fst) {n l : Nat}
    (h : literalsNest n l d = true) :
    strchrNest ')' (n + l + 1) (d.map Prod.fst) = (closing n d).map (·.map Prod.fst) := by
  induction d generalizing n l with
  | nil => rfl
  | cons x d ih =>
    obtain ⟨c, k⟩ := x
    rw [List.map_cons, List.mem_cons, not_or] at hnul
    rw [literalsNest] at h
    rw [List.map_cons, closing]
    by_cases hk : k = .code
    · subst hk
      rw [if_pos (by decide), Bool.and_eq_true] at h
      obtain ⟨hl, h⟩ := h
      obtain rfl : l = 0 := by simpa using hl
      rw [if_neg (by decide)]
      by_cases hopen : c = '('
      · subst hopen
        rw [if_pos (beq_self_eq_true _)] at h ⊢
        exact ih hnul.2 h
      rw [if_neg (by simpa using hopen)] at h ⊢
      by_cases hclose : c = ')'
      · subst hclose
        rw [if_pos (beq_self_eq_true _)] at h ⊢
        rw [strchrNest_close]
        cases n with
        | zero => rfl
        | succ n =>
          rw [if_neg (by omega), if_neg (by omega)]
          exact ih hnul.2 (by simpa using h)
      · rw [if_neg (by simpa using hclose)] at h ⊢
        rw [strchrNest_other hopen hclose (Ne.symm hnul.1)]
        exact ih hnul.2 h
    · rw [if_neg (by simpa using hk)] at h
      rw [if_pos (by simpa using hk)]
      by_cases hopen : c = '('
      · subst hopen
        rw [if_pos (beq_self_eq_true _)] at h
        exact ih hnul.2 h
      rw [if_neg (by simpa using hopen)] at h
      by_cases hclose : c = ')'
      · subst hclose
        rw [if_pos (beq_self_eq_true _), Bool.and_eq_true] at h
        obtain ⟨hl, h⟩ := h
        obtain ⟨m, rfl⟩ := Nat.exists_eq_succ_of_ne_zero (by simpa using hl)
        rw [strchrNest_close, if_neg (by omega)]
        exact ih hnul.2 h
      · rw [if_neg (by simpa using hclose)] at h
        rw [strchrNest_other hopen hclose (Ne.symm hnul.1)]
        exact ih hnul.2 h

/-! ## The tokens of a piece -/

/-- A rest of the arguments at the depth `n`, and the pieces it is split to; the first one goes on
with the piece that the rest begins in.  Only strings are literals here. -/
inductive PiecesOf : Nat → Text → List Text → Prop where
  | nil (n : Nat) : PiecesOf n [] [[]]
  | plain {n : Nat} {c : Char} (hc : c ∉ [',', '(', ')', '"']) {s p : Text} {ps : List Text}
      (hs : PiecesOf n s (p :: ps)) : PiecesOf n (c :: s) ((c :: p) :: ps)
  | string {n : Nat} {body : Text} (hbody : LitBody '"' body) {s p : Text} {ps : List Text}
      (hs : PiecesOf n s (p :: ps)) :
      PiecesOf n ('"' :: (body ++ '"' :: s)) (('"' :: (body ++ '"' :: p)) :: ps)
  | comma {s : Text} {ps : List Text} (hs : PiecesOf 0 s ps) : PiecesOf 0 (',' :: s) ([] :: ps)
  | inner {n : Nat} {s p : Text} {ps : List Text} (hs : PiecesOf (n + 1) s (p :: ps)) :
      PiecesOf (n + 1) (',' :: s) ((',' :: p) :: ps)
  | opens {n : Nat} {s p : Text} {ps : List Text} (hs : PiecesOf (n + 1) s (p :: ps)) :
      PiecesOf n ('(' :: s) (('(' :: p) :: ps)
  | closes {n : Nat} {s p : Text} {ps : List Text} (hs : PiecesOf n s (p :: ps)) :
      PiecesOf (n + 1) (')' :: s) ((')' :: p) :: ps)

theorem PiecesOf.ne_nil {n : Nat} {s : Text} {ps : List Text} (h : PiecesOf n s ps) :
    ∃ p ps', ps = p :: ps' := by
  cases h <;> exact ⟨_, _, rfl⟩

/-- The first piece is a part of the rest. -/
theorem PiecesOf.prefix_first {n : Nat} {s p : Text} {ps : List Text}
    (h : PiecesOf n s (p :: ps)) : p <+: s := by
  generalize hpieces : p :: ps = pieces at h
  induction h generalizing p ps with
  | nil =>
    cases hpieces
    exact List.prefix_rfl
  | plain _ _ ih =>
    cases hpieces
    exact (List.prefix_cons_inj _).mpr (ih rfl)
  | string _ _ ih =>
    cases hpieces
    refine (List.prefix_cons_inj _).mpr ((List.prefix_append_right_inj _).mpr ?_)
    exact (List.prefix_cons_inj _).mpr (ih rfl)
  | comma =>
    cases hpieces
    exact List.nil_prefix
  | inner _ ih =>
    cases hpieces
    exact (List.prefix_cons_inj _).mpr (ih rfl)
  | opens _ ih =>
    cases hpieces
    exact (List.prefix_cons_inj _).mpr (ih rfl)
  | closes _ ih =>
    cases hpieces
    exact (List.prefix_cons_inj _).mpr (ih rfl)

/-- Plain characters go to the piece. -/
theorem PiecesOf.plains {n : Nat} {a s p : Text} {ps : List Text}
    (ha : ∀ c ∈ a, c ∉ [',', '(', ')', '"']) (h : PiecesOf n (a ++ s) (p :: ps)) :
    ∃ p', p = a ++ p' ∧ PiecesOf n s (p' :: ps) := by
  induction a generalizing p with
  | nil => exact ⟨p, rfl, h⟩
  | cons c a ih =>
    have hc := ha c List.mem_cons_self
    generalize hu : c :: a ++ s = u at h
    cases h with
    | nil => cases hu
    | plain _ hs =>
      cases hu
      obtain ⟨p', rfl, hp⟩ := ih (fun e he => ha e (List.mem_cons_of_mem _ he)) hs
      exact ⟨p', rfl, hp⟩
    | string =>
      obtain rfl : c = '"' := (List.cons.inj hu).1
      simp at hc
    | comma =>
      cases hu
      simp at hc
    | inner =>
      cases hu
      simp at hc
    | opens =>
      cases hu
      simp at hc
    | closes =>
      cases hu
      simp at hc

/-! ## Reading a token of a piece -/

/-- A token that a piece can have, and what is read of a text with it. -/
def PlainToken (tok : Tok) (w : Text) : Prop :=
  tok ≠ .comma ∧ tok ≠ .openParen ∧ tok ≠ .closeParen ∧ (tok = .word → strSpcSkip w ≠ [])

theorem readToken_plain {c : Char} (hc : c ∉ [',', '(', ')', '"']) (hspace : isSpace c = false)
    (s : Text) :
    ∃ tok w x rest, s = x ++ rest ∧ (∀ e ∈ c :: x, e ∉ [',', '(', ')', '"']) ∧ PlainToken tok w ∧
      ∀ p, p <+: rest → readToken c (x ++ p) = .ok (tok, w, p) := by
  have hself : ∀ e ∈ [c], e ∉ [',', '(', ')', '"'] := by simpa using hc
  by_cases hword : isWordStart c = true
  · refine ⟨.word, c :: wordOf s, wordOf s, wordEnd s, List.takeWhile_append_dropWhile.symm, ?_,
      ⟨by simp, by simp, by simp, fun _ => ?_⟩, fun p hp => ?_⟩
    · refine List.forall_mem_cons.mpr ⟨hc, fun e he hspecial => ?_⟩
      have hpart : isWordPart e = true := List.mem_takeWhile_imp he
      simp only [List.mem_cons, List.not_mem_nil, or_false] at hspecial
      rcases hspecial with rfl | rfl | rfl | rfl <;> cases hpart
    · simp [strSpcSkip, hspace]
    · obtain ⟨hof, hend⟩ := wordOf_append (s := s) (r := p) fun d hd => by
        obtain ⟨p', rfl⟩ := List.head?_eq_some_iff.mp hd
        obtain ⟨r, hr⟩ := hp
        exact isWordPart_head_wordEnd hr.symm
      unfold readToken
      rw [if_pos hword, hof, hend]
  have hword : isWordStart c = false := by simpa using hword
  by_cases hhash : c = '#'
  · subst hhash
    by_cases hjoin : s.head? = some '#'
    · obtain ⟨t, rfl⟩ := List.head?_eq_some_iff.mp hjoin
      exact ⟨.hashJoin, [], ['#'], t, rfl, by simp, by simp [PlainToken], fun p _ => rfl⟩
    · refine ⟨.hashQuote, [], [], s, rfl, hself, by simp [PlainToken], fun p hp => ?_⟩
      refine readToken_hash fun hhead => hjoin ?_
      obtain ⟨t, rfl⟩ := List.head?_eq_some_iff.mp hhead
      obtain ⟨r, rfl⟩ := hp
      rfl
  by_cases hdots : c = '.' ∧ ∃ t, s = '.' :: '.' :: t
  · obtain ⟨rfl, t, rfl⟩ := hdots
    exact ⟨.elipsis, [], ['.', '.'], t, rfl, by simp, by simp [PlainToken], fun p _ => rfl⟩
  · refine ⟨.other, [c], [], s, rfl, hself, by simp [PlainToken], fun p hp => ?_⟩
    refine readToken_single hc hword hhash fun hp' => hdots ⟨hp'.1, ?_⟩
    obtain ⟨-, t, rfl⟩ := hp'
    obtain ⟨r, rfl⟩ := hp
    exact ⟨t ++ r, rfl⟩

/-! ## The loop of `split_func_args` -/

theorem tokenIsSpace_of_plain {tok : Tok} {w : Text} (h : PlainToken tok w) (b : Bool) :
    tokenIsSpace ⟨tok, w, b⟩ = false := by
  cases tok <;> simp [tokenIsSpace]
  exact h.2.2.2 rfl

theorem splitArgs_plain {tok : Tok} {w : Text} (h : PlainToken tok w) (b : Bool) (nest : Int)
    (cur ts : List Token) :
    splitArgs nest cur (⟨tok, w, b⟩ :: ts) = splitArgs nest (cur ++ [⟨tok, w, b⟩]) ts := by
  obtain ⟨hcomma, hopen, hclose, -⟩ := h
  cases tok <;> first | contradiction | rfl

theorem nests_plain {tok : Tok} {w : Text} (h : PlainToken tok w) (b : Bool) (nest : Int)
    (ts : List Token) : nests nest (⟨tok, w, b⟩ :: ts) = nest :: nests nest ts := by
  obtain ⟨hcomma, hopen, hclose, -⟩ := h
  cases tok <;> first | contradiction | rfl

/-- Without the blank at the end. -/
def dropBlank (ts : List Token) : List Token := ts.filter fun t => !tokenIsSpace t

/-- What the loop makes of a rest that it comes to at the depth `n`, in the middle of a piece. -/
structure LoopsTo (n : Nat) (s p : Text) (ps : List Text) (ts tp : List Token)
    (args : List Text) : Prop where
  toks : Toks s ts
  piece : ∃ tp', Toks p tp' ∧ (tp = tp' ∨ tp = dropBlank tp')
  split : ∀ cur, splitArgs n cur ts = tokensJoin (cur ++ tp) :: args
  rest : List.Forall₂ JoinsPiece ps args
  nonneg : ∀ nest ∈ nests n ts, 0 ≤ nest

theorem LoopsTo.joins {n : Nat} {s p : Text} {ps : List Text} {ts tp : List Token}
    {args : List Text} (h : LoopsTo n s p ps ts tp args) : JoinsPiece p (tokensJoin tp) := by
  obtain ⟨tp', htoks, htp⟩ := h.piece
  refine ⟨tp', tokenise_iff.mpr htoks, ?_⟩
  rcases htp with rfl | rfl
  · exact Or.inl rfl
  · exact Or.inr rfl

/-- The end of the arguments. -/
theorem loopsTo_spaces (n : Nat) {s : Text} (hs : ∀ c ∈ s, isSpace c) :
    ∃ ts tp, LoopsTo n s s [] ts tp [] := by
  by_cases hne : s = []
  · subst hne
    exact ⟨[], [], .nil, ⟨[], .nil, Or.inl rfl⟩, by simp [splitArgs], .nil, by simp [nests]⟩
  · have htoks := Toks.spaces hne hs
    exact ⟨_, _, htoks, ⟨_, htoks, Or.inl rfl⟩, by simp [splitArgs], .nil, by simp [nests]⟩

/-- A token that stays in the piece and leaves the depth `m`. -/
theorem LoopsTo.token {n m : Nat} {rest p : Text} {ps : List Text} {ts tp : List Token}
    {args : List Text} (h : LoopsTo m rest p ps ts tp args) {sp : Text}
    (hsp : ∀ c ∈ sp, isSpace c) {c : Char} (hc : isSpace c = false) {s s' : Text} {tok : Tok}
    {w : Text} (hread : readToken c s = .ok (tok, w, rest))
    (hread' : readToken c s' = .ok (tok, w, p))
    (hspace : ∀ b, tokenIsSpace ⟨tok, w, b⟩ = false)
    (hsplit : ∀ b cur ts,
      splitArgs n cur (⟨tok, w, b⟩ :: ts) = splitArgs m (cur ++ [⟨tok, w, b⟩]) ts)
    (hnests : ∀ b ts, nests n (⟨tok, w, b⟩ :: ts) = (n : Int) :: nests m ts) :
    ∃ ts tp, LoopsTo n (sp ++ c :: s) (sp ++ c :: s') ps ts tp args := by
  obtain ⟨tp', htoks, htp⟩ := h.piece
  have hpiece := Toks.cons hsp hc hread' htoks
  refine ⟨_, ⟨tok, w, !sp.isEmpty⟩ :: tp, .cons hsp hc hread h.toks, ⟨_, hpiece, ?_⟩,
    fun cur => ?_, h.rest, ?_⟩
  · rcases htp with rfl | rfl
    · exact Or.inl rfl
    · exact Or.inr (by simp [dropBlank, hspace])
  · rw [hsplit, h.split, List.append_assoc, List.singleton_append]
  · rw [hnests]
    exact List.forall_mem_cons.mpr ⟨Int.natCast_nonneg n, h.nonneg⟩

/-- A comma between two pieces. -/
theorem LoopsTo.comma {rest p : Text} {ps : List Text} {ts tp : List Token} {args : List Text}
    (h : LoopsTo 0 rest p ps ts tp args) {sp : Text} (hsp : ∀ c ∈ sp, isSpace c) :
    ∃ ts, LoopsTo 0 (sp ++ ',' :: rest) sp (p :: ps) ts [] (tokensJoin tp :: args) := by
  have hread : readToken ',' rest = .ok (.comma, [], rest) := rfl
  refine ⟨_, .cons hsp rfl hread h.toks, ?_, fun cur => ?_, .cons h.joins h.rest, ?_⟩
  · by_cases hne : sp = []
    · subst hne
      exact ⟨[], .nil, Or.inl rfl⟩
    · exact ⟨_, .spaces hne hsp, Or.inr rfl⟩
  · have hrest := h.split []
    rw [List.nil_append] at hrest
    rw [splitArgs, ← hrest, List.append_nil]
    rfl
  · exact List.forall_mem_cons.mpr ⟨le_rfl, h.nonneg⟩

theorem loopsTo_of_pieces {n : Nat} {s p : Text} {ps : List Text} (h : PiecesOf n s (p :: ps))
    (hnul : nul ∉ s) : ∃ ts tp args, LoopsTo n s p ps ts tp args := by
  induction hlen : s.length using Nat.strong_induction_on generalizing n s p ps with
  | _ len ih =>
    have ih {m : Nat} {t q : Text} {qs : List Text} (hlt : t.length < s.length)
        (hp : PiecesOf m t (q :: qs)) (hn : nul ∉ t) : ∃ ts tp args, LoopsTo m t q qs ts tp args :=
      ih _ (hlen ▸ hlt) hp hn rfl
    have hspaces {a : Text} (ha : ∀ c ∈ a, isSpace c) : ∀ c ∈ a, c ∉ [',', '(', ')', '"'] := by
      intro c hc hspecial
      have hsp := ha c hc
      simp only [List.mem_cons, List.not_mem_nil, or_false] at hspecial
      rcases hspecial with rfl | rfl | rfl | rfl <;> cases hsp
    rcases spaces_or s with hall | ⟨sp, c, t, rfl, hsp, hc⟩
    · rw [← List.append_nil s] at h
      obtain ⟨p', hp, hnil⟩ := h.plains (hspaces hall)
      cases hnil
      obtain ⟨ts, tp, hloop⟩ := loopsTo_spaces n hall
      rw [List.append_nil] at hp
      exact ⟨ts, tp, [], hp ▸ hloop⟩
    · obtain ⟨p', rfl, hp⟩ := h.plains (hspaces hsp)
      have hnult : nul ∉ t := fun hm => hnul (by simp [hm])
      have hlent : t.length < (sp ++ c :: t).length := by simp; omega
      by_cases hplain : c ∉ [',', '(', ')', '"']
      · obtain ⟨tok, w, x, rest, rfl, hx, htok, hread⟩ := readToken_plain hplain hc t
        obtain ⟨q, rfl, hrest⟩ := hp.plains (a := c :: x) hx
        obtain ⟨ts, tp, args, hloop⟩ := ih (by simp at hlent ⊢; omega) hrest
          (fun hm => hnult (List.mem_append_right _ hm))
        obtain ⟨ts', tp', hloop'⟩ := hloop.token hsp hc (hread rest List.prefix_rfl)
          (hread q hrest.prefix_first) (tokenIsSpace_of_plain htok)
          (fun b cur ts => splitArgs_plain htok b n cur ts) (fun b ts => nests_plain htok b n ts)
        exact ⟨ts', tp', args, hloop'⟩
      · cases hp with
        | plain hc' => exact absurd hc' hplain
        | @string _ body hbody rest q _ hrest =>
          obtain ⟨ts, tp, args, hloop⟩ := ih (by simp at hlent ⊢; omega) hrest
            (fun hm => hnult (by simp [hm]))
          have hbodynul : nul ∉ body := fun hm => hnult (by simp [hm])
          obtain ⟨ts', tp', hloop'⟩ := hloop.token hsp hc (readToken_string hbody hbodynul rest)
            (readToken_string hbody hbodynul q) (fun _ => rfl) (fun _ _ _ => rfl) (fun _ _ => rfl)
          exact ⟨ts', tp', args, hloop'⟩
        | comma hrest =>
          obtain ⟨q, qs, rfl⟩ := hrest.ne_nil
          obtain ⟨ts, tp, args, hloop⟩ := ih hlent hrest hnult
          obtain ⟨ts', hloop'⟩ := hloop.comma hsp
          rw [List.append_nil]
          exact ⟨ts', [], _, hloop'⟩
        | @inner m rest q _ hrest =>
          obtain ⟨ts, tp, args, hloop⟩ := ih hlent hrest hnult
          obtain ⟨ts', tp', hloop'⟩ := hloop.token hsp hc rfl rfl (fun _ => rfl)
            (fun _ _ _ => by rw [splitArgs]; exact if_neg (by omega)) (fun _ _ => rfl)
          exact ⟨ts', tp', args, hloop'⟩
        | @opens m rest q _ hrest =>
          obtain ⟨ts, tp, args, hloop⟩ := ih hlent hrest hnult
          obtain ⟨ts', tp', hloop'⟩ := hloop.token hsp hc rfl rfl (fun _ => rfl)
            (fun _ _ _ => rfl) (fun _ _ => rfl)
          exact ⟨ts', tp', args, hloop'⟩
        | @closes m rest q _ hrest =>
          obtain ⟨ts, tp, args, hloop⟩ := ih hlent hrest hnult
          have hnest : ((m + 1 : Nat) : Int) - 1 = m := by omega
          obtain ⟨ts', tp', hloop'⟩ := hloop.token (n := m + 1) hsp hc rfl rfl (fun _ => rfl)
            (fun b cur ts => by
              show splitArgs (((m + 1 : Nat) : Int) - 1) (cur ++ [⟨.closeParen, [], b⟩]) ts = _
              rw [hnest])
            (fun _ ts => congrArg (((m + 1 : Nat) : Int) :: nests · ts) hnest)
          exact ⟨ts', tp', args, hloop'⟩

/-! ## The pieces of the reference -/

theorem lexLiterals_unclosed {q : Char} {s : Text} (hs : nul ∉ s) (h : strQuotefin2 q s = none) :
    lexLiterals (.literal q) s = List.replicate s.length (.literal q) := by
  induction s using literal_induction with
  | nil => rfl
  | lone => simp [lexLiterals]
  | escape d s ih =>
    rw [strQuotefin2_escape] at h
    rw [lexLiterals, ih (fun hm => hs (by simp [hm])) h]
    rfl
  | char c s hc ih =>
    have hnul : c ≠ nul := fun h => hs (h ▸ List.mem_cons_self)
    rw [strQuotefin2_cons hc hnul] at h
    split at h
    · cases h
    · rename_i hcq
      rw [lexLiterals, if_neg (by simpa using hcq), ih (fun hm => hs (List.mem_cons_of_mem _ hm)) h]
      · rfl
      · rintro d t rfl
        exact absurd rfl hc

/-- A line as it is lexed. -/
theorem lexed_literals {line : Text} (hnul : nul ∉ line) :
    Lexed LitBody (fun _ _ => True) (literals line) := by
  induction hlen : line.length using Nat.strong_induction_on generalizing line with
  | _ len ih =>
    cases line with
    | nil => exact .nil
    | cons c s =>
      have hnuls : nul ∉ s := fun hm => hnul (List.mem_cons_of_mem _ hm)
      by_cases hc : isQuote c = true
      · cases hfin : strQuotefin2 c s with
        | none =>
          have hall : literals (c :: s) = litChars c (c :: s) := by
            unfold literals
            rw [lexLiterals_quote hc, lexLiterals_unclosed hnuls hfin]
            exact zip_replicate_class (c :: s) (.literal c)
          rw [hall]
          exact .unclosed hc trivial
        | some fin =>
          obtain ⟨body, rest, hbody, rfl, rfl⟩ := litBody_of_some hnuls hfin
          have htext : c :: (body ++ c :: rest) = c :: (body ++ [c]) ++ rest := by simp
          have hlen' : body.length + 2 = (c :: (body ++ [c])).length := by simp
          have hsplit : literals (c :: (body ++ c :: rest)) =
              litChars c (c :: (body ++ [c])) ++ literals rest := by
            unfold literals
            rw [lexLiterals_quoted hc hbody, htext, hlen', List.zip_append (by simp),
              zip_replicate_class]
            rfl
          rw [hsplit]
          refine .closed hc hbody (ih _ ?_ (fun hm => hnuls (by simp [hm])) rfl)
          simp at hlen
          omega
      · have hc : isQuote c = false := by simpa using hc
        have hcode : literals (c :: s) = (c, .code) :: literals s := by
          simp [literals, lexLiterals, hc]
        rw [hcode]
        exact .code hc (ih _ (by simp at hlen; omega) hnuls rfl)

theorem closing_literals {n : Nat} {q : Char} {s : Text} {d : List (Char × Class)} :
    closing n (litChars q s ++ d) = closing n d := by
  induction s with
  | nil => rfl
  | cons c s ih => exact ih

theorem closing_step {n : Nat} {c : Char} (h : ¬ (c = ')' ∧ n = 0)) (d : List (Char × Class)) :
    closing n ((c, .code) :: d) = closing (nestBehind n (c, .code)) d := by
  by_cases hopen : c = '('
  · subst hopen
    rfl
  by_cases hend : c = ')'
  · subst hend
    have hn : n ≠ 0 := fun hn => h ⟨rfl, hn⟩
    rw [closing, if_neg (by decide), if_neg (by decide), if_pos (by decide), if_neg hn]
    rfl
  · simp [closing, nestBehind, hopen, hend]

theorem pieces_stay {n : Nat} {x : Char × Class} (h : ¬ (x = (',', .code) ∧ n = 0))
    (a : List (Char × Class)) :
    pieces n (x :: a) = (pieces (nestBehind n x) a).modifyHead (x.1 :: ·) := by
  rw [pieces, if_neg (by simpa using h)]

theorem pieces_literals {n : Nat} {q : Char} {s : Text} {a : List (Char × Class)} :
    pieces n (litChars q s ++ a) = (pieces n a).modifyHead (s ++ ·) := by
  induction s with
  | nil => exact (congrFun List.modifyHead_id (pieces n a)).symm
  | cons c s ih =>
    have hone : pieces n (litChars q (c :: s) ++ a) =
        (pieces n (litChars q s ++ a)).modifyHead (c :: ·) := pieces_stay (by simp) _
    rw [hone, ih, List.modifyHead_modifyHead]
    rfl

theorem PiecesOf.put {n : Nat} {s p : Text} {ps : List Text} (h : PiecesOf n s (p :: ps))
    {a : Text} (ha : ∀ c ∈ a, c ∉ [',', '(', ')', '"']) : PiecesOf n (a ++ s) ((a ++ p) :: ps) := by
  induction a with
  | nil => exact h
  | cons c a ih =>
    exact .plain (ha c List.mem_cons_self) (ih fun e he => ha e (List.mem_cons_of_mem _ he))

/-- The pieces of a literal and of what follows it. -/
theorem PiecesOf.literal {n : Nat} {a : List (Char × Class)}
    (h : PiecesOf n (a.map Prod.fst) (pieces n a)) {q : Char} (hq : isQuote q = true) {body : Text}
    (hbody : LitBody q body)
    (hplain : ∀ x ∈ litChars q (q :: (body ++ [q])), plainConstant x = true) :
    PiecesOf n ((litChars q (q :: (body ++ [q])) ++ a).map Prod.fst)
      (pieces n (litChars q (q :: (body ++ [q])) ++ a)) := by
  obtain ⟨p, ps, hps⟩ := h.ne_nil
  rw [List.map_append, map_fst_litChars, pieces_literals, hps]
  rw [hps] at h
  by_cases hquote : q = '"'
  · subst hquote
    have hstring := PiecesOf.string hbody h
    simpa using hstring
  · refine h.put fun c hc => ?_
    have hx := hplain (c, .literal q) (List.mem_map.mpr ⟨c, hc, rfl⟩)
    simpa [plainConstant, hquote, and_assoc] using hx

/-- One more character of the code, after which the depth is `m`. -/
theorem PiecesOf.step {n : Nat} {c : Char} {a : List (Char × Class)}
    (h : PiecesOf (nestBehind n (c, .code)) (a.map Prod.fst) (pieces (nestBehind n (c, .code)) a))
    (hquote : c ≠ '"') (hclose : ¬ (c = ')' ∧ n = 0)) :
    PiecesOf n (((c, .code) :: a).map Prod.fst) (pieces n ((c, .code) :: a)) := by
  by_cases hcomma : c = ',' ∧ n = 0
  · obtain ⟨rfl, rfl⟩ := hcomma
    exact .comma h
  · obtain ⟨p, ps, hps⟩ := h.ne_nil
    rw [pieces_stay (by simpa using hcomma), hps]
    rw [hps] at h
    by_cases hopen : c = '('
    · subst hopen
      exact .opens h
    by_cases hend : c = ')'
    · subst hend
      obtain ⟨m, rfl⟩ := Nat.exists_eq_succ_of_ne_zero fun hn => hclose ⟨rfl, hn⟩
      exact .closes h
    have hstay : nestBehind n (c, .code) = n := by simp [nestBehind, hopen, hend]
    rw [hstay] at h
    by_cases hinner : c = ','
    · subst hinner
      obtain ⟨m, rfl⟩ := Nat.exists_eq_succ_of_ne_zero fun hn => hcomma ⟨rfl, hn⟩
      exact .inner h
    · exact .plain (by simp [hinner, hopen, hend, hquote]) h

/-- The pieces in front of the closing parenthesis. -/
theorem piecesOf_lexed {Unclosed : Char → Text → Prop} {d : List (Char × Class)}
    (h : Lexed LitBody Unclosed d) {n : Nat} {e : List (Char × Class)}
    (hclose : closing n d = some e) :
    ∃ a, d = a ++ e ∧
      ((∀ x ∈ a, plainConstant x = true) → PiecesOf n (a.map Prod.fst) (pieces n a)) := by
  induction h generalizing n with
  | nil => cases hclose
  | @code c d hc _ ih =>
    by_cases hend : c = ')' ∧ n = 0
    · obtain ⟨rfl, rfl⟩ := hend
      cases hclose
      exact ⟨[], rfl, fun _ => .nil 0⟩
    · rw [closing_step hend] at hclose
      obtain ⟨a, rfl, ha⟩ := ih hclose
      refine ⟨(c, .code) :: a, rfl, fun hplain => ?_⟩
      refine (ha fun x hx => hplain x (List.mem_cons_of_mem _ hx)).step ?_ hend
      rintro rfl
      cases hc
  | @closed q body d hq hbody _ ih =>
    rw [closing_literals] at hclose
    obtain ⟨a, rfl, ha⟩ := ih hclose
    refine ⟨litChars q (q :: (body ++ [q])) ++ a, by simp, fun hplain => ?_⟩
    exact (ha fun x hx => hplain x (List.mem_append_right _ hx)).literal hq hbody
      fun x hx => hplain x (List.mem_append_left _ hx)
  | @unclosed q body hq =>
    have hnone : closing n (litChars q (q :: body) ++ []) = none := closing_literals
    rw [List.append_nil, hclose] at hnone
    cases hnone

theorem pieces_length (n : Nat) (a : List (Char × Class)) :
    (pieces n a).length = topCommas n a + 1 := by
  induction a generalizing n with
  | nil => rfl
  | cons x a ih =>
    rw [topCommas]
    by_cases hcomma : x = (',', .code) ∧ n = 0
    · obtain ⟨rfl, rfl⟩ := hcomma
      have hnest : nestBehind 0 (',', .code) = 0 := rfl
      rw [pieces, if_pos (by decide), List.length_cons, ih, if_pos (by decide), hnest]
      omega
    · rw [pieces_stay hcomma, List.length_modifyHead, ih, if_neg (by simpa using hcomma)]
      omega

/-! ## Invocations -/

theorem splitsAs_of_pieces {a : List (Char × Class)} (hnul : nul ∉ a.map Prod.fst)
    (h : PiecesOf 0 (a.map Prod.fst) (pieces 0 a)) : SplitsAs a := by
  cases a with
  | nil => exact ⟨[], [], rfl, rfl, .nil, rfl, by simp [nests]⟩
  | cons x a =>
    have hlen := pieces_length 0 (x :: a)
    obtain ⟨p, ps, hps⟩ := h.ne_nil
    have hargs : argumentPieces (x :: a) = p :: ps := hps
    rw [hps] at h hlen
    obtain ⟨ts, tp, args, hloop⟩ := loopsTo_of_pieces h hnul
    have hrun := hloop.split []
    rw [List.nil_append] at hrun
    have htoks := tokenise_iff.mpr hloop.toks
    have hjoins : List.Forall₂ JoinsPiece (p :: ps) (tokensJoin tp :: args) :=
      .cons hloop.joins hloop.rest
    refine ⟨ts, tokensJoin tp :: args, htoks, ?_, hargs ▸ hjoins, ?_, hloop.nonneg⟩
    · cases ts with
      | nil =>
        have hempty : (x :: a).map Prod.fst = [] := by
          have htoks := hloop.toks
          generalize (x :: a).map Prod.fst = u at htoks
          cases htoks
          rfl
        cases hempty
      | cons t ts =>
        unfold splitFuncArgs
        rw [htoks]
        exact congrArg Except.ok hrun
    · rw [← hjoins.length_eq, hlen]
      rfl

end Ucc.Cpp
