/-
  Cpp/BodyTokens.lean --- the tokens of a macro's body, against preprocessing tokens.

  Source: src/cpp2/tokenise.c.

  The tokeniser of the program reads less at once than C11 6.4 does: words, strings
  and single characters.  So every preprocessing token is a run of its tokens, and
  the text behind it begins with a new one.
-/
import Ucc.Cpp.PpTokens

set_option autoImplicit false

namespace Ucc.Cpp

/-! ## Tokens of a text that goes on -/

/-- No token of `a` goes on in `b`. -/
def Cut (a b : Text) : Prop :=
  ∀ e d, a.getLast? = some e → b.head? = some d →
    ¬ (isWordPart e = true ∧ isWordPart d = true) ∧ ¬ (e = '.' ∧ d = '.') ∧ ¬ (e = '#' ∧ d = '#')

theorem Cut.behind {a b rest : Text} (h : Cut a b) (hrest : rest <:+ a) : Cut rest b := by
  intro e d he hd
  refine h e d ?_ hd
  obtain ⟨front, rfl⟩ := hrest
  cases rest with
  | nil => cases he
  | cons c rest =>
    rw [List.getLast?_append, he]
    rfl

theorem isWordPart_of_isWordStart {c : Char} (h : isWordStart c = true) : isWordPart c = true := by
  simp only [isWordStart, Bool.or_eq_true] at h
  rcases h with h | h
  · simp [isWordPart, Char.isAlphanum, h]
  · simp [isWordPart, h]

/-- The token asks for nothing: it is no name and no operator of a body. -/
def Tok.isPlain (tok : Tok) : Bool := tok != .word && tok != .hashQuote && tok != .hashJoin

/-- A character that is no part of a longer token. -/
theorem readToken_char {c : Char} (hword : isWordStart c = false) (hquote : c ≠ '"')
    (hhash : c ≠ '#') (hdot : c ≠ '.') :
    ∃ tok w, tok.isPlain = true ∧ (∀ b, tokenStr ⟨tok, w, b⟩ = [c]) ∧
      ∀ s, readToken c s = .ok (tok, w, s) := by
  by_cases hcomma : c = ','
  · subst hcomma
    exact ⟨.comma, [], rfl, fun b => rfl, fun s => rfl⟩
  by_cases hopen : c = '('
  · subst hopen
    exact ⟨.openParen, [], rfl, fun b => rfl, fun s => rfl⟩
  by_cases hclose : c = ')'
  · subst hclose
    exact ⟨.closeParen, [], rfl, fun b => rfl, fun s => rfl⟩
  · refine ⟨.other, [c], rfl, fun b => rfl, fun s => ?_⟩
    exact readToken_single (by simp [hcomma, hopen, hclose, hquote]) hword hhash fun h => hdot h.1

/-- The token is the same when the text goes on. -/
theorem readToken_more {c : Char} {s rest b : Text} {tok : Tok} {w : Text} (hnul : nul ∉ s)
    (hread : readToken c s = .ok (tok, w, rest)) (hcut : Cut (c :: s) b) :
    readToken c (s ++ b) = .ok (tok, w, rest ++ b) := by
  by_cases hword : isWordStart c = true
  · have hsplit : wordOf s ++ wordEnd s = s := List.takeWhile_append_dropWhile
    rw [readToken_word hword] at hread ⊢
    cases hread
    obtain ⟨hof, hend⟩ := wordOf_append (s := s) (r := wordEnd s ++ b) fun d hd => by
      cases hrest : wordEnd s with
      | cons e r =>
        rw [hrest] at hd
        cases hd
        exact isWordPart_head_wordEnd hrest
      | nil =>
        rw [hrest] at hsplit hd
        have hall : ∀ e ∈ c :: s, isWordPart e = true := by
          refine List.forall_mem_cons.mpr ⟨isWordPart_of_isWordStart hword, fun e he => ?_⟩
          rw [← hsplit, List.append_nil] at he
          exact List.mem_takeWhile_imp he
        have hlast : (c :: s).getLast? = some _ := List.getLast?_eq_some_getLast (by simp)
        have hpart := hall _ (List.getLast_mem (l := c :: s) (by simp))
        have hnot := (hcut _ d hlast hd).1
        simpa [hpart] using hnot
    rw [← List.append_assoc, hsplit] at hof hend
    rw [hof, hend]
  by_cases hquote : c = '"'
  · subst hquote
    obtain ⟨body, hbody, rfl, rfl, rfl⟩ := readToken_quote hnul hread
    rw [List.append_assoc]
    exact readToken_string hbody (fun hm => hnul (by simp [hm])) (rest ++ b)
  by_cases hhash : c = '#'
  · subst hhash
    by_cases hjoin : s.head? = some '#'
    · obtain ⟨t, rfl⟩ := List.head?_eq_some_iff.mp hjoin
      cases hread
      rfl
    · rw [readToken_hash hjoin] at hread
      cases hread
      refine readToken_hash fun hhead => ?_
      cases s with
      | nil => exact (hcut '#' '#' rfl hhead).2.2 ⟨rfl, rfl⟩
      | cons d s => exact hjoin hhead
  by_cases hdot : c = '.'
  · subst hdot
    by_cases hdots : ∃ t, s = '.' :: '.' :: t
    · obtain ⟨t, rfl⟩ := hdots
      cases hread
      rfl
    · rw [readToken_single (by decide) rfl hhash fun h => hdots h.2] at hread
      cases hread
      refine readToken_single (by decide) rfl hhash fun ⟨_, t, ht⟩ => ?_
      cases s with
      | nil =>
        obtain rfl : b = '.' :: '.' :: t := ht
        exact (hcut '.' '.' rfl rfl).2.1 ⟨rfl, rfl⟩
      | cons d s =>
        rw [List.cons_append, List.cons.injEq] at ht
        obtain ⟨rfl, ht⟩ := ht
        cases s with
        | nil =>
          obtain rfl : b = '.' :: t := ht
          exact (hcut '.' '.' rfl rfl).2.1 ⟨rfl, rfl⟩
        | cons e s =>
          rw [List.cons_append, List.cons.injEq] at ht
          obtain ⟨rfl, -⟩ := ht
          exact hdots ⟨s, rfl⟩
  · obtain ⟨tok', w', -, -, hall⟩ := readToken_char (by simpa using hword) hquote hhash hdot
    rw [hall] at hread ⊢
    cases hread
    rfl

/-- The first token of a text. -/
theorem Toks.read {sp : Text} (hsp : ∀ c ∈ sp, isSpace c) {c : Char} (hc : isSpace c = false)
    {s : Text} {ts : List Token} (h : Toks (sp ++ c :: s) ts) :
    ∃ tok w rest ts', readToken c s = .ok (tok, w, rest) ∧
      ts = ⟨tok, w, !sp.isEmpty⟩ :: ts' ∧ Toks rest ts' := by
  have hloop := loop_of_toks h (n := (sp ++ c :: s).length + 1) (by omega)
  rw [tokeniseLoop_cons hsp hc] at hloop
  cases hread : readToken c s with
  | error f =>
    rw [hread] at hloop
    cases hloop
  | ok r =>
    obtain ⟨tok, w, rest⟩ := r
    rw [hread] at hloop
    dsimp only at hloop
    have hlen := (readToken_rest hread).1.length_le
    cases hrest : tokeniseLoop (sp ++ c :: s).length rest with
    | error f =>
      rw [hrest] at hloop
      cases hloop
    | ok ts' =>
      rw [hrest] at hloop
      cases hloop
      exact ⟨tok, w, rest, ts', rfl, rfl, toks_of_loop (by simp; omega) hrest⟩

theorem Toks.cons_inv {sp : Text} (hsp : ∀ c ∈ sp, isSpace c) {c : Char} (hc : isSpace c = false)
    {s : Text} {tok : Tok} {w rest : Text} (hread : readToken c s = .ok (tok, w, rest))
    {ts : List Token} (h : Toks (sp ++ c :: s) ts) :
    ∃ ts', ts = ⟨tok, w, !sp.isEmpty⟩ :: ts' ∧ Toks rest ts' := by
  obtain ⟨tok', w', rest', ts', hread', rfl, hts'⟩ := h.read hsp hc
  cases hread.symm.trans hread'
  exact ⟨ts', rfl, hts'⟩

theorem Toks.unique {s : Text} {ts ts' : List Token} (h : Toks s ts) (h' : Toks s ts') :
    ts = ts' := by
  have hloop := (loop_of_toks h le_rfl).symm.trans (loop_of_toks h' le_rfl)
  exact Except.ok.inj hloop

/-- White space leaves at most an empty word. -/
theorem toks_spaces {s : Text} (hs : ∀ c ∈ s, isSpace c) {ts : List Token} (h : Toks s ts) :
    s = [] ∧ ts = [] ∨ s ≠ [] ∧ ts = [⟨.word, [], true⟩] := by
  by_cases hne : s = []
  · subst hne
    exact Or.inl ⟨rfl, h.unique .nil⟩
  · exact Or.inr ⟨hne, h.unique (.spaces hne hs)⟩

/-- The tokens of a text that goes on behind a cut. -/
theorem Toks.split {a b : Text} {ta ts : List Token} (ha : Toks a ta) (hnul : nul ∉ a)
    (hlast : ∀ e, a.getLast? = some e → isSpace e = false) (hcut : Cut a b)
    (h : Toks (a ++ b) ts) : ∃ tb, ts = ta ++ tb ∧ Toks b tb := by
  induction ha generalizing ts with
  | nil => exact ⟨ts, rfl, h⟩
  | @spaces sp hne hsp =>
    have hend := hlast _ (List.getLast?_eq_some_getLast hne)
    rw [hsp _ (List.getLast_mem hne)] at hend
    cases hend
  | @cons sp hsp c hc s tok w rest hread ta _ ih =>
    have hsuffix : rest <:+ sp ++ c :: s :=
      (readToken_rest hread).1.trans ((List.suffix_cons c s).trans (List.suffix_append sp _))
    have hcut' : Cut (c :: s) b := hcut.behind (List.suffix_append sp _)
    have hnuls : nul ∉ s := fun hm => hnul (by simp [hm])
    rw [List.append_assoc] at h
    obtain ⟨ts', rfl, hts'⟩ := h.cons_inv hsp hc (readToken_more hnuls hread hcut')
    obtain ⟨tb, rfl, htb⟩ := ih (fun hm => hnul (hsuffix.subset hm))
      (fun e he => hlast e (by
        obtain ⟨front, hfront⟩ := hsuffix
        rw [← hfront, List.getLast?_append, he]
        rfl)) (hcut.behind hsuffix) hts'
    exact ⟨tb, rfl, htb⟩

/-! ## The tokens of a preprocessing token -/

/-- The tokens `tw` are written `w`, behind white space or not. -/
def WrittenAs (w : Text) (blank : Bool) (tw : List Token) : Prop :=
  ∃ t tl, tw = t :: tl ∧ t.hadWhitespace = blank ∧ tokenStr t ≠ [] ∧ tokenStr t ++ tokensJoin tl = w

theorem tokenStr_readToken {c : Char} {s : Text} {tok : Tok} {w rest : Text}
    (h : readToken c s = .ok (tok, w, rest)) (b : Bool) : tokenStr ⟨tok, w, b⟩ ≠ [] := by
  by_cases hc : c = '"'
  · subst hc
    unfold readToken at h
    rw [if_neg (by decide)] at h
    cases hfin : strQuotefin s with
    | none =>
      simp only [hfin] at h
      cases h
    | some fin =>
      simp only [hfin] at h
      cases h
      simp [tokenStr]
  · obtain ⟨tok', w', piece, rest', hread, hpiece, -, hstr⟩ := readToken_other hc s
    cases h.symm.trans hread
    rw [hstr]
    rintro rfl
    have hlen := (readToken_rest hread).1.length_le
    rw [List.nil_append] at hpiece
    rw [← hpiece] at hlen
    simp at hlen

theorem ppRead_identifier {c : Char} {s w rest : Text} (h : ppRead c s = (.identifier, w))
    (hsplit : c :: s = w ++ rest) :
    isWordStart c = true ∧ readToken c s = .ok (.word, w, rest) := by
  by_cases hquote : isQuote c = true
  · rw [ppRead_quote hquote] at h
    cases h
  by_cases hword : isWordStart c = true
  · have hof : w = c :: wordOf s := by
      rw [ppRead_word hword] at h
      unfold ppWord at h
      split at h
      · split at h
        · cases h
        · exact (Prod.mk.inj h).2.symm
      · exact (Prod.mk.inj h).2.symm
    subst hof
    have hends : wordOf s ++ wordEnd s = s := List.takeWhile_append_dropWhile
    have hrest : s = wordOf s ++ rest := (List.cons.inj hsplit).2
    rw [readToken_word hword, List.append_cancel_left (hends.trans hrest)]
    exact ⟨hword, rfl⟩
  · rw [ppRead, if_neg hquote, if_neg hword] at h
    split at h <;> cases h

theorem ppRead_hash {c : Char} {s rest : Text} (h : ppRead c s = (.symbol, ['#']))
    (hsplit : c :: s = ['#'] ++ rest) : readToken c s = .ok (.hashQuote, [], rest) := by
  obtain ⟨rfl, rfl⟩ := List.cons.inj hsplit
  refine readToken_hash fun hhead => ?_
  obtain ⟨t, ht⟩ := List.head?_eq_some_iff.mp hhead
  have hnot := notMem_symbols_of_single (ppRead_symbol h).2.2.2 (w := ['#', '#'])
    ⟨t, by rw [ht]; rfl⟩
  exact hnot (by decide)

theorem ppRead_join {c : Char} {s rest : Text} (hsplit : c :: s = ['#', '#'] ++ rest) :
    readToken c s = .ok (.hashJoin, [], rest) := by
  obtain ⟨rfl, rfl⟩ := List.cons.inj hsplit
  rfl

/-- A character that the tokeniser makes a token of its own of. -/
def ordinary (c : Char) : Bool :=
  !isSpace c && !isWordStart c && !(c == ',' || c == '(' || c == ')' || c == '"') && c != '#' &&
    c != '.'

theorem readToken_ordinary {c : Char} (h : ordinary c = true) (s : Text) :
    isSpace c = false ∧ readToken c s = .ok (.other, [c], s) := by
  simp only [ordinary, Bool.and_eq_true, Bool.not_eq_true', Bool.or_eq_false_iff, bne_iff_ne] at h
  obtain ⟨⟨⟨⟨hspace, hword⟩, hspecial⟩, hhash⟩, hdot⟩ := h
  refine ⟨hspace, readToken_single ?_ hword hhash fun h => hdot h.1⟩
  simpa [and_assoc] using hspecial

theorem symbols_ordinary :
    ∀ w ∈ symbols, w = ['.', '.', '.'] ∨ w = ['#', '#'] ∨ ∀ c ∈ w, ordinary c = true := by
  simp [symbols, ordinary, isSpace, isWordStart]

/-- Ordinary characters without white space between them. -/
theorem toks_ordinary {w rest : Text} (hw : ∀ c ∈ w, ordinary c = true) {ts : List Token}
    (h : Toks (w ++ rest) ts) :
    ∃ tw ts', ts = tw ++ ts' ∧ Toks rest ts' ∧ tokensJoin tw = w ∧
      ∀ t ∈ tw, t.tok.isPlain = true := by
  induction w generalizing ts with
  | nil => exact ⟨[], ts, rfl, h, rfl, by simp⟩
  | cons c w ih =>
    obtain ⟨hspace, hread⟩ := readToken_ordinary (hw c List.mem_cons_self) (w ++ rest)
    have hnil : ∀ e ∈ ([] : Text), isSpace e = true := by simp
    obtain ⟨ts₁, rfl, hts₁⟩ := Toks.cons_inv hnil hspace hread h
    obtain ⟨tw, ts', rfl, hts', hjoin, hother⟩ :=
      ih (fun e he => hw e (List.mem_cons_of_mem _ he)) hts₁
    refine ⟨⟨.other, [c], false⟩ :: tw, ts', rfl, hts', ?_, ?_⟩
    · rw [tokensJoin, hjoin]
      rfl
    · exact List.forall_mem_cons.mpr ⟨rfl, hother⟩

/-- The tokens of a symbol that is no operator of a body. -/
theorem toks_symbol {sp : Text} (hsp : ∀ c ∈ sp, isSpace c) {c : Char} (hc : isSpace c = false)
    {s w rest : Text} (hread : ppRead c s = (.symbol, w)) (hsplit : c :: s = w ++ rest)
    (hhash : w ≠ ['#']) (hjoin : w ≠ ['#', '#']) {ts : List Token} (h : Toks (sp ++ c :: s) ts) :
    ∃ tw ts', ts = tw ++ ts' ∧ Toks rest ts' ∧ WrittenAs w (!sp.isEmpty) tw ∧
      ∀ t ∈ tw, t.tok.isPlain = true := by
  obtain ⟨hquote, hword, -, hsymbol⟩ := ppRead_symbol hread
  by_cases hmem : w ∈ symbols
  · rcases symbols_ordinary w hmem with rfl | rfl | hall
    · obtain ⟨rfl, rfl⟩ := List.cons.inj hsplit
      have hone : readToken '.' ('.' :: '.' :: rest) = .ok (.elipsis, [], rest) := rfl
      obtain ⟨ts', rfl, hts'⟩ := h.cons_inv hsp hc hone
      exact ⟨[_], ts', rfl, hts', ⟨_, [], rfl, rfl, by simp [tokenStr], rfl⟩, by simp [Tok.isPlain]⟩
    · exact absurd rfl hjoin
    · obtain ⟨v, rfl⟩ : ∃ v, w = c :: v := by
        cases w with
        | nil => simp [symbols] at hmem
        | cons e v =>
          obtain ⟨rfl, -⟩ := List.cons.inj hsplit
          exact ⟨v, rfl⟩
      obtain rfl : s = v ++ rest := (List.cons.inj hsplit).2
      have hone := (readToken_ordinary (hall c List.mem_cons_self) (v ++ rest)).2
      obtain ⟨ts₁, rfl, hts₁⟩ := h.cons_inv hsp hc hone
      obtain ⟨tl, ts', rfl, hts', hjoined, hplain⟩ :=
        toks_ordinary (fun e he => hall e (List.mem_cons_of_mem _ he)) hts₁
      refine ⟨⟨.other, [c], !sp.isEmpty⟩ :: tl, ts', rfl, hts',
        ⟨_, tl, rfl, rfl, by simp [tokenStr], by rw [hjoined]; rfl⟩, ?_⟩
      exact List.forall_mem_cons.mpr ⟨rfl, hplain⟩
  · have hone : w = [c] := by
      unfold symbolOf at hsymbol
      cases hfind : symbols.find? fun w => w.isPrefixOf (c :: s) with
      | none =>
        rw [hfind] at hsymbol
        exact hsymbol.symm
      | some u =>
        rw [hfind] at hsymbol
        obtain rfl : u = w := hsymbol
        exact absurd (List.mem_of_find?_eq_some hfind) hmem
    subst hone
    obtain rfl : s = rest := (List.cons.inj hsplit).2
    have hdquote : c ≠ '"' := by
      rintro rfl
      cases hquote
    obtain ⟨tok, w, hplain, hstr, hone⟩ : ∃ tok w, tok.isPlain = true ∧
        (∀ b, tokenStr ⟨tok, w, b⟩ = [c]) ∧ readToken c s = .ok (tok, w, s) := by
      by_cases hdot : c = '.'
      · subst hdot
        refine ⟨.other, ['.'], rfl, fun b => rfl, ?_⟩
        refine readToken_single (by decide) rfl (by decide) fun h => ?_
        obtain ⟨-, t, rfl⟩ := h
        exact notMem_symbols_of_single hsymbol (w := ['.', '.', '.']) ⟨t, rfl⟩ (by decide)
      · obtain ⟨tok, w, hplain, hstr, hone⟩ :=
          readToken_char hword hdquote (fun h => hhash (h ▸ rfl)) hdot
        exact ⟨tok, w, hplain, hstr, hone s⟩
    obtain ⟨ts', rfl, hts'⟩ := h.cons_inv hsp hc hone
    refine ⟨[_], ts', rfl, hts', ⟨_, [], rfl, rfl, ?_, ?_⟩, by simpa using hplain⟩
    · rw [hstr]
      simp
    · rw [hstr]
      rfl

/-! ## Numbers and literals -/

theorem literalOf_last {q : Char} (hq : q ≠ '\\') {s : Text}
    (h : literalEnds q (literalOf q s) = true) : (literalOf q s).getLast? = some q := by
  induction s using literal_induction with
  | nil => cases h
  | lone =>
    have hlone : literalOf q ['\\'] = ['\\'] := by simp [literalOf]
    rw [hlone] at h
    have hback : '\\' = q := by simpa [literalEnds] using h
    exact absurd hback.symm hq
  | escape d s ih =>
    have hlast := ih h
    rw [literalOf, List.getLast?_cons, List.getLast?_cons, hlast]
    rfl
  | char c s hc ih =>
    rw [literalOf_char hc] at h ⊢
    by_cases hcq : c = q
    · rw [if_pos (by simpa using hcq), hcq]
      rfl
    · rw [if_neg (by simpa using hcq)] at h ⊢
      rw [literalEnds_char hc] at h
      rw [List.getLast?_cons, ih (by simpa [hcq] using h)]
      rfl

theorem numberOf_chars (exponent : Bool) (s : Text) :
    ∀ e ∈ numberOf exponent s, isWordPart e = true ∨ e = '.' ∨ isSign e = true := by
  induction s generalizing exponent with
  | nil => simp [numberOf]
  | cons c s ih =>
    rw [numberOf]
    split
    · rename_i hc
      refine List.forall_mem_cons.mpr ⟨?_, ih _⟩
      have hcases : (isWordPart c = true ∨ c = '.') ∨ exponent = true ∧ isSign c = true := by
        simpa using hc
      rcases hcases with (hpart | hdot) | hsign
      · exact Or.inl hpart
      · exact Or.inr (Or.inl hdot)
      · exact Or.inr (Or.inr hsign.2)
    · simp

theorem ppRead_literal {c : Char} {s w : Text} (h : ppRead c s = (.literal, w)) :
    ∃ p q t, w = p ++ q :: literalOf q t ∧ isQuote q = true ∧ ∀ e ∈ p, isQuote e = false := by
  by_cases hquote : isQuote c = true
  · rw [ppRead_quote hquote] at h
    exact ⟨[], c, s, (Prod.mk.inj h).2.symm, hquote, by simp⟩
  by_cases hword : isWordStart c = true
  · rw [ppRead_word hword] at h
    unfold ppWord at h
    split at h
    · rename_i q t _
      split at h
      · rename_i hprefix
        exact ⟨_, q, t, (Prod.mk.inj h).2.symm, isQuote_of_encodingPrefix hprefix,
          isQuote_wordOf hword s⟩
      · cases h
    · cases h
  · rw [ppRead, if_neg hquote, if_neg hword] at h
    split at h <;> cases h

theorem ppRead_number_chars {c : Char} {s w : Text} (h : ppRead c s = (.number, w)) :
    ∀ e ∈ w, isWordPart e = true ∨ e = '.' ∨ isSign e = true := by
  by_cases hquote : isQuote c = true
  · rw [ppRead_quote hquote] at h
    cases h
  by_cases hword : isWordStart c = true
  · rw [ppRead_word hword] at h
    unfold ppWord at h
    split at h
    · split at h <;> cases h
    · cases h
  by_cases hnumber : (c.isDigit || c == '.' && s.head?.any Char.isDigit) = true
  · rw [ppRead_number (by simpa using hquote) (by simpa using hword) hnumber] at h
    obtain rfl := (Prod.mk.inj h).2
    refine List.forall_mem_cons.mpr ⟨?_, numberOf_chars false s⟩
    have hcases : c.isDigit = true ∨ c = '.' ∧ s.head?.any Char.isDigit = true := by
      simpa using hnumber
    rcases hcases with hdigit | ⟨hdot, -⟩
    · exact Or.inl (isDigit_wordPart hdigit)
    · exact Or.inr (Or.inl hdot)
  · rw [ppRead, if_neg hquote, if_neg hword, if_neg hnumber] at h
    cases h

theorem isSpace_of_isWordPart {c : Char} (h : isWordPart c = true) : isSpace c = false := by
  by_contra hspace
  simp only [isSpace, Bool.not_eq_false, Bool.or_eq_true, Bool.and_eq_true, beq_iff_eq,
    decide_eq_true_eq] at hspace
  have hnat : c.toNat = 32 ∨ 9 ≤ c.toNat ∧ c.toNat ≤ 13 := by
    rcases hspace with rfl | hspace
    · exact Or.inl rfl
    · exact Or.inr hspace
  have hpart : (65 ≤ c.toNat ∧ c.toNat ≤ 90) ∨ (97 ≤ c.toNat ∧ c.toNat ≤ 122) ∨
      (48 ≤ c.toNat ∧ c.toNat ≤ 57) ∨ c.toNat = 95 ∨ c.toNat = 36 := by
    unfold isWordPart at h
    delta Char.isAlphanum Char.isAlpha Char.isUpper Char.isLower Char.isDigit at h
    simp only [Bool.or_eq_true, Bool.and_eq_true, decide_eq_true_eq, beq_iff_eq,
      UInt32.le_iff_toNat_le] at h
    rcases h with (((h | h) | h) | rfl) | rfl
    · exact Or.inl h
    · exact Or.inr (Or.inl h)
    · exact Or.inr (Or.inr (Or.inl h))
    · exact Or.inr (Or.inr (Or.inr (Or.inl rfl)))
    · exact Or.inr (Or.inr (Or.inr (Or.inr rfl)))
  omega

/-- A number or a literal that something stands behind ends in its last character. -/
theorem cut_of_read {c : Char} {v rest : Text} {kind : PpKind}
    (hkind : kind = .number ∨ kind = .literal) (hread : ppRead c (v ++ rest) = (kind, c :: v))
    (hne : rest ≠ []) :
    Cut (c :: v) rest ∧ ∀ e, (c :: v).getLast? = some e → isSpace e = false := by
  have hstops := stops_of_read (by rcases hkind with rfl | rfl <;> simp) hread
  rcases hkind with rfl | rfl
  · have hchars := ppRead_number_chars hread
    refine ⟨fun e d he hd => ?_, fun e he => ?_⟩
    · have hgoes : numberGoesOn (exponentBehind false (c :: v)) d = false := (hstops d hd).2
      simp only [numberGoesOn, Bool.or_eq_false_iff, beq_eq_false_iff_ne] at hgoes
      refine ⟨fun h => ?_, fun h => hgoes.1.2 h.2, ?_⟩
      · rw [hgoes.1.1] at h
        cases h.2
      · rintro ⟨rfl, -⟩
        rcases hchars _ (List.mem_of_getLast? he) with h | h | h <;> revert h <;> decide
    · rcases hchars e (List.mem_of_getLast? he) with h | rfl | h
      · exact isSpace_of_isWordPart h
      · rfl
      · have hsign : e = '+' ∨ e = '-' := by simpa [isSign] using h
        rcases hsign with rfl | rfl <;> rfl
  · obtain ⟨p, q, t, hw, hq, hp⟩ := ppRead_literal hread
    rw [hw] at hstops ⊢
    have hends := hstops.literalEnds hp hq hne
    have hlast : (p ++ q :: literalOf q t).getLast? = some q := by
      rw [List.getLast?_append, List.getLast?_cons,
        literalOf_last (ne_backslash_of_isQuote hq) hends]
      rfl
    have hcases : q = '"' ∨ q = '\'' := by simpa [isQuote] using hq
    refine ⟨fun e d he _ => ?_, fun e he => ?_⟩
    · obtain rfl : q = e := Option.some.inj (hlast.symm.trans he)
      rw [not_wordPart_of_isQuote hq]
      rcases hcases with rfl | rfl <;> simp
    · obtain rfl : q = e := Option.some.inj (hlast.symm.trans he)
      rcases hcases with rfl | rfl <;> rfl

/-- The tokens of a number or a literal are those that its spelling has alone. -/
theorem toks_frozen {sp : Text} (hsp : ∀ c ∈ sp, isSpace c) {c : Char} (hc : isSpace c = false)
    {v rest : Text} {kind : PpKind} (hkind : kind = .number ∨ kind = .literal)
    (hread : ppRead c (v ++ rest) = (kind, c :: v)) (hnul : nul ∉ v) {tw₀ : List Token}
    (hself : Toks (c :: v) tw₀) (hjoin : tokensJoin tw₀ = c :: v) {ts : List Token}
    (h : Toks (sp ++ c :: (v ++ rest)) ts) :
    ∃ tw ts', ts = tw ++ ts' ∧ Toks rest ts' ∧ WrittenAs (c :: v) (!sp.isEmpty) tw ∧
      ∀ t ∈ tw, ∃ t₀ ∈ tw₀, t.tok = t₀.tok ∧ t.w = t₀.w := by
  have hnil : ∀ e ∈ ([] : Text), isSpace e = true := by simp
  obtain ⟨tok, w, r, tl, hone, rfl, htl⟩ := Toks.read hnil hc hself
  have hwritten : WrittenAs (c :: v) (!sp.isEmpty) (⟨tok, w, !sp.isEmpty⟩ :: tl) := by
    refine ⟨_, tl, rfl, rfl, tokenStr_readToken hone _, ?_⟩
    rw [← hjoin]
    rfl
  have hsame : ∀ t ∈ (⟨tok, w, !sp.isEmpty⟩ : Token) :: tl,
      ∃ t₀ ∈ (⟨tok, w, !([] : Text).isEmpty⟩ : Token) :: tl, t.tok = t₀.tok ∧ t.w = t₀.w := by
    refine List.forall_mem_cons.mpr ⟨⟨_, List.mem_cons_self, rfl, rfl⟩, fun t ht => ?_⟩
    exact ⟨t, List.mem_cons_of_mem _ ht, rfl, rfl⟩
  by_cases hne : rest = []
  · subst hne
    rw [List.append_nil] at h
    obtain ⟨ts₁, rfl, hts₁⟩ := h.cons_inv hsp hc hone
    obtain rfl := htl.unique hts₁
    exact ⟨_, [], (List.append_nil _).symm, .nil, hwritten, hsame⟩
  · obtain ⟨hcut, hlast⟩ := cut_of_read hkind hread hne
    obtain ⟨ts₁, rfl, hts₁⟩ := h.cons_inv hsp hc (readToken_more hnul hone hcut)
    have hsuffix : r <:+ c :: v := (readToken_rest hone).1.trans (List.suffix_cons c v)
    obtain ⟨ts', rfl, hts'⟩ := htl.split (fun hm => hnul ((readToken_rest hone).1.subset hm))
      (fun e he => hlast e (by
        obtain ⟨front, hfront⟩ := hsuffix
        rw [← hfront, List.getLast?_append, he]
        rfl)) (hcut.behind hsuffix) hts₁
    exact ⟨_, ts', rfl, hts', hwritten, hsame⟩

/-! ## Operators -/

/-- `#`. -/
def PpToken.isHash (t : PpToken) : Bool := t.kind == .symbol && t.spelling == ['#']

/-- `##`. -/
def PpToken.isJoin (t : PpToken) : Bool := t.kind == .symbol && t.spelling == ['#', '#']

theorem readToken_isPlain {c : Char} (hword : isWordStart c = false) (hhash : c ≠ '#') {s : Text}
    {tok : Tok} {w rest : Text} (h : readToken c s = .ok (tok, w, rest)) : tok.isPlain = true := by
  unfold readToken at h
  rw [if_neg (by simp [hword])] at h
  split at h
  · cases h
    rfl
  · cases h
    rfl
  · cases h
    rfl
  · split at h
    · cases h
    · cases h
      rfl
  · exact absurd rfl hhash
  · exact absurd rfl hhash
  · cases h
    rfl
  · cases h
    rfl

/-- A word begins with a letter. -/
theorem isWordStart_of_readToken {c : Char} {s w rest : Text}
    (h : readToken c s = .ok (.word, w, rest)) : isWordStart c = true := by
  by_contra hword
  have hword : isWordStart c = false := by simpa using hword
  by_cases hhash : c = '#'
  · subst hhash
    by_cases hhead : s.head? = some '#'
    · obtain ⟨t, rfl⟩ := List.head?_eq_some_iff.mp hhead
      cases h
    · rw [readToken_hash hhead] at h
      cases h
  · have hplain := readToken_isPlain hword hhash h
    cases hplain

theorem head_readToken_join {c : Char} {s w rest : Text}
    (h : readToken c s = .ok (.hashJoin, w, rest)) : c = '#' ∧ s.head? = some '#' := by
  by_cases hword : isWordStart c = true
  · rw [readToken_word hword] at h
    cases h
  by_cases hhash : c = '#'
  · subst hhash
    refine ⟨rfl, ?_⟩
    by_contra hhead
    rw [readToken_hash hhead] at h
    cases h
  · have hplain := readToken_isPlain (by simpa using hword) hhash h
    cases hplain

/-- Both readers see the same `##`. -/
theorem head_join {s : Text} {ts : List Token} (hts : Toks s ts) {pts : List PpToken}
    (hpts : PpToks s pts) :
    ts.head?.map Token.tok = some .hashJoin ↔ pts.head?.any PpToken.isJoin = true := by
  cases hpts with
  | nil hsp =>
    rcases toks_spaces hsp hts with ⟨-, rfl⟩ | ⟨-, rfl⟩ <;> simp
  | @cons sp hsp c hc s rest kind w hread hsplit pts hrest =>
    obtain ⟨tok, w', rest', ts', hone, rfl, -⟩ := hts.read hsp hc
    constructor
    · intro htok
      obtain rfl : tok = .hashJoin := by simpa using htok
      obtain ⟨rfl, hhead⟩ := head_readToken_join hone
      obtain ⟨t, rfl⟩ := List.head?_eq_some_iff.mp hhead
      have hjoin : ppRead '#' ('#' :: t) = (.symbol, ['#', '#']) := by
        rw [ppRead_of_symbol (by decide) (by decide) (by simp)]
        simp [symbolOf, symbols]
      cases hread.symm.trans hjoin
      rfl
    · intro hjoin
      have hcore : kind = .symbol ∧ w = ['#', '#'] := by simpa [PpToken.isJoin] using hjoin
      obtain ⟨rfl, rfl⟩ := hcore
      rw [ppRead_join hsplit] at hone
      cases hone
      rfl

end Ucc.Cpp
