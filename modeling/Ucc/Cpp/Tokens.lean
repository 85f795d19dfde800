/-
  Cpp/Tokens.lean --- what `tokenise` does, as a relation, and when it fails.

  Source: src/cpp2/tokenise.c.

  `Toks` relates a text to its tokens and has no bound on their number.  The only
  error of `tokenise` is the assertion that a string is closed; it holds when the
  double quotes of the text pair up, whatever else they stand in.
-/
import Mathlib.Data.List.TakeWhile
import Ucc.Cpp.Lexing

set_option autoImplicit false

namespace Ucc.Cpp

/-! ## The relation -/

/-- The text `s` has the tokens `ts`. -/
inductive Toks : Text → List Token → Prop where
  | nil : Toks [] []
  | spaces {sp : Text} (hne : sp ≠ []) (hsp : ∀ c ∈ sp, isSpace c) : Toks sp [⟨.word, [], true⟩]
  | cons {sp : Text} (hsp : ∀ c ∈ sp, isSpace c) {c : Char} (hc : isSpace c = false) {s : Text}
      {tok : Tok} {w rest : Text} (hread : readToken c s = .ok (tok, w, rest)) {ts : List Token}
      (hrest : Toks rest ts) : Toks (sp ++ c :: s) (⟨tok, w, !sp.isEmpty⟩ :: ts)

theorem strTrim_cons {c : Char} (hc : isSpace c = false) (s : Text) : strTrim (c :: s) = c :: s := by
  simp [strTrim, strSpcSkip, hc]

/-- What is read of the text, and that trimming does nothing to it. -/
theorem readToken_rest {c : Char} {s : Text} {tok : Tok} {w rest : Text}
    (h : readToken c s = .ok (tok, w, rest)) :
    rest <:+ s ∧ (w = [] ∨ ∃ w', w = c :: w') := by
  unfold readToken at h
  split at h
  · cases h
    exact ⟨List.dropWhile_suffix _, Or.inr ⟨_, rfl⟩⟩
  · split at h
    · cases h
      exact ⟨List.suffix_rfl, Or.inl rfl⟩
    · cases h
      exact ⟨List.suffix_rfl, Or.inl rfl⟩
    · cases h
      exact ⟨List.suffix_rfl, Or.inl rfl⟩
    · split at h
      · cases h
      · cases h
        exact ⟨(List.tail_suffix _).trans (strQuotefin2_suffix ‹_›), Or.inr ⟨_, rfl⟩⟩
    · cases h
      exact ⟨List.suffix_cons _ _, Or.inl rfl⟩
    · cases h
      exact ⟨List.suffix_rfl, Or.inl rfl⟩
    · cases h
      exact ⟨(List.suffix_cons _ _).trans (List.suffix_cons _ _), Or.inl rfl⟩
    · cases h
      exact ⟨List.suffix_rfl, Or.inr ⟨_, rfl⟩⟩

theorem strTrim_readToken {c : Char} (hc : isSpace c = false) {s : Text} {tok : Tok} {w rest : Text}
    (h : readToken c s = .ok (tok, w, rest)) : strTrim w = w := by
  rcases (readToken_rest h).2 with rfl | ⟨w', rfl⟩
  · rfl
  · exact strTrim_cons hc w'

/-- One round of the loop. -/
theorem tokeniseLoop_cons {n : Nat} {sp : Text} (hsp : ∀ c ∈ sp, isSpace c) {c : Char}
    (hc : isSpace c = false) (s : Text) :
    tokeniseLoop (n + 1) (sp ++ c :: s) =
      match readToken c s with
      | .error f => .error f
      | .ok (tok, w, rest) =>
          match tokeniseLoop n rest with
          | .error f => .error f
          | .ok ts => .ok (⟨tok, w, !sp.isEmpty⟩ :: ts) := by
  have hskip : strSpcSkip (sp ++ c :: s) = c :: s := by
    unfold strSpcSkip
    rw [List.dropWhile_append_of_pos hsp, List.dropWhile_cons_of_neg (by simp [hc])]
  obtain ⟨c₀, s₀, htext, hfirst⟩ : ∃ c₀ s₀, sp ++ c :: s = c₀ :: s₀ ∧ isSpace c₀ = !sp.isEmpty := by
    cases sp with
    | nil => exact ⟨c, s, rfl, hc⟩
    | cons d sp => exact ⟨d, sp ++ c :: s, rfl, hsp d List.mem_cons_self⟩
  rw [htext] at hskip ⊢
  rw [tokeniseLoop, hskip, hfirst]
  dsimp only
  cases hread : readToken c s with
  | error f => rfl
  | ok r =>
    obtain ⟨tok, w, rest⟩ := r
    dsimp only
    have htrim := strTrim_readToken hc hread
    cases tokeniseLoop n rest with
    | error f => rfl
    | ok ts => exact congrArg (fun w => Except.ok ((⟨tok, w, !sp.isEmpty⟩ : Token) :: ts)) htrim

theorem tokeniseLoop_spaces (n : Nat) {sp : Text} (hne : sp ≠ []) (hsp : ∀ c ∈ sp, isSpace c) :
    tokeniseLoop (n + 1) sp = .ok [⟨.word, [], true⟩] := by
  cases sp with
  | nil => exact absurd rfl hne
  | cons c sp =>
    have hskip : strSpcSkip (c :: sp) = [] := List.dropWhile_eq_nil_iff.mpr hsp
    rw [tokeniseLoop, hskip]
    dsimp only
    rw [hsp c List.mem_cons_self]

/-- A text is white space, or starts with a token behind some. -/
theorem spaces_or (s : Text) :
    (∀ c ∈ s, isSpace c) ∨ ∃ sp c t, s = sp ++ c :: t ∧ (∀ c ∈ sp, isSpace c) ∧ isSpace c = false := by
  induction s with
  | nil => exact Or.inl (by simp)
  | cons c s ih =>
    cases hc : isSpace c with
    | false => exact Or.inr ⟨[], c, s, rfl, by simp, hc⟩
    | true =>
      rcases ih with hall | ⟨sp, d, t, rfl, hsp, hd⟩
      · exact Or.inl (List.forall_mem_cons.mpr ⟨hc, hall⟩)
      · exact Or.inr ⟨c :: sp, d, t, rfl, List.forall_mem_cons.mpr ⟨hc, hsp⟩, hd⟩

theorem toks_of_loop {n : Nat} {s : Text} (hn : s.length ≤ n) {ts : List Token}
    (h : tokeniseLoop n s = .ok ts) : Toks s ts := by
  induction n generalizing s ts with
  | zero =>
    obtain rfl := List.length_eq_zero_iff.mp (Nat.le_zero.mp hn)
    cases h
    exact .nil
  | succ n ih =>
    rcases spaces_or s with hall | ⟨sp, c, t, rfl, hsp, hc⟩
    · by_cases hne : s = []
      · subst hne
        cases h
        exact .nil
      · rw [tokeniseLoop_spaces n hne hall] at h
        cases h
        exact .spaces hne hall
    · rw [tokeniseLoop_cons hsp hc] at h
      cases hread : readToken c t with
      | error f =>
        rw [hread] at h
        cases h
      | ok r =>
        obtain ⟨tok, w, rest⟩ := r
        have hlen := (readToken_rest hread).1.length_le
        rw [hread] at h
        dsimp only at h
        cases hrest : tokeniseLoop n rest with
        | error f =>
          rw [hrest] at h
          cases h
        | ok ts' =>
          rw [hrest] at h
          cases h
          exact .cons hsp hc hread (ih (by simp at hn; omega) hrest)

theorem loop_of_toks {s : Text} {ts : List Token} (h : Toks s ts) {n : Nat} (hn : s.length ≤ n) :
    tokeniseLoop n s = .ok ts := by
  induction h generalizing n with
  | nil => cases n <;> rfl
  | spaces hne hsp =>
    obtain ⟨k, rfl⟩ : ∃ k, n = k + 1 := ⟨n - 1, by
      have hpos := List.length_pos_iff.mpr hne
      omega⟩
    exact tokeniseLoop_spaces k hne hsp
  | cons hsp hc hread _ ih =>
    obtain ⟨k, rfl⟩ : ∃ k, n = k + 1 := ⟨n - 1, by simp at hn; omega⟩
    have hlen := (readToken_rest hread).1.length_le
    rw [tokeniseLoop_cons hsp hc, hread]
    dsimp only
    rw [ih (by simp at hn; omega)]

theorem tokenise_iff {s : Text} {ts : List Token} : tokenise s = .ok ts ↔ Toks s ts :=
  ⟨toks_of_loop le_rfl, fun h => loop_of_toks h le_rfl⟩

/-! ## Words -/

theorem wordOf_append {s r : Text} (hr : ∀ d, r.head? = some d → isWordPart d = false) :
    wordOf (wordOf s ++ r) = wordOf s ∧ wordEnd (wordOf s ++ r) = r := by
  have hword : ∀ c ∈ wordOf s, isWordPart c = true := fun c hc => List.mem_takeWhile_imp hc
  have hrest : r.takeWhile isWordPart = [] ∧ r.dropWhile isWordPart = r := by
    cases r with
    | nil => exact ⟨rfl, rfl⟩
    | cons d r =>
      have hd := hr d rfl
      exact ⟨List.takeWhile_cons_of_neg (by simp [hd]), List.dropWhile_cons_of_neg (by simp [hd])⟩
  unfold wordOf wordEnd at *
  rw [List.takeWhile_append_of_pos hword, List.dropWhile_append_of_pos hword, hrest.1, hrest.2]
  exact ⟨List.append_nil _, rfl⟩

theorem isWordPart_head_wordEnd {s r : Text} {d : Char} (h : wordEnd s = d :: r) :
    isWordPart d = false := by
  have hhead := List.head?_dropWhile_not isWordPart s
  unfold wordEnd at h
  rw [h] at hhead
  simpa using hhead

theorem readToken_word {c : Char} (hc : isWordStart c = true) (s : Text) :
    readToken c s = .ok (.word, c :: wordOf s, wordEnd s) := by
  unfold readToken
  exact if_pos hc

theorem readToken_hash {s : Text} (h : s.head? ≠ some '#') :
    readToken '#' s = .ok (.hashQuote, [], s) := by
  cases s with
  | nil => rfl
  | cons c s =>
    unfold readToken
    rw [if_neg (by decide)]
    split <;> simp_all

/-- Any other character stands for itself. -/
theorem readToken_single {c : Char} (hc : c ∉ [',', '(', ')', '"']) (hword : isWordStart c = false)
    (hhash : c ≠ '#') {s : Text} (hdots : ¬ (c = '.' ∧ ∃ t, s = '.' :: '.' :: t)) :
    readToken c s = .ok (.other, [c], s) := by
  unfold readToken
  rw [if_neg (by simp [hword])]
  split <;> simp_all

/-! ## Double quotes -/

/-- The double quotes pair up when nothing but the strings between them is known. -/
inductive Paired : Text → Prop where
  | nil : Paired []
  | char {c : Char} (hc : c ≠ '"') {s : Text} (hs : Paired s) : Paired (c :: s)
  | string {body : Text} (hbody : LitBody '"' body) {s : Text} (hs : Paired s) :
      Paired ('"' :: (body ++ '"' :: s))

theorem paired_of_notMem {s : Text} (h : '"' ∉ s) : Paired s := by
  induction s with
  | nil => exact .nil
  | cons c s ih =>
    exact .char (fun hc => h (hc ▸ List.mem_cons_self)) (ih fun hs => h (List.mem_cons_of_mem _ hs))

theorem Paired.append {a b : Text} (ha : Paired a) (hb : Paired b) : Paired (a ++ b) := by
  induction ha with
  | nil => exact hb
  | char hc _ ih => exact .char hc ih
  | string hbody _ ih =>
    rw [List.cons_append, List.append_assoc]
    exact .string hbody ih

theorem Paired.tail {c : Char} (hc : c ≠ '"') {s : Text} (h : Paired (c :: s)) : Paired s := by
  cases h with
  | char _ hs => exact hs
  | string => exact absurd rfl hc

/-- What is no string can be dropped. -/
theorem Paired.drop {a b : Text} (ha : '"' ∉ a) (h : Paired (a ++ b)) : Paired b := by
  induction a with
  | nil => exact h
  | cons c a ih =>
    exact ih (fun hm => ha (List.mem_cons_of_mem _ hm))
      (h.tail fun hc => ha (hc ▸ List.mem_cons_self))

/-- The scan for the closing quote ends behind a string's body. -/
theorem LitBody.strQuotefin2 {q : Char} (hback : q ≠ '\\') (hq : q ≠ nul) {body : Text}
    (h : LitBody q body) (hnul : nul ∉ body) (rest : Text) :
    Ucc.Cpp.strQuotefin2 q (body ++ q :: rest) = some (q :: rest) := by
  induction h with
  | nil => rw [List.nil_append, strQuotefin2_cons hback hq, if_pos rfl]
  | escape d _ ih =>
    rw [List.cons_append, List.cons_append, strQuotefin2_escape]
    exact ih fun hm => hnul (by simp [hm])
  | @char c s hc hcq _ ih =>
    have hcnul : c ≠ nul := fun hm => hnul (hm ▸ List.mem_cons_self)
    rw [List.cons_append, strQuotefin2_cons hc hcnul, if_neg hcq]
    exact ih fun hm => hnul (List.mem_cons_of_mem _ hm)

/-- A string that is closed is read as a whole. -/
theorem readToken_string {body : Text} (hbody : LitBody '"' body) (hnul : nul ∉ body)
    (rest : Text) :
    readToken '"' (body ++ '"' :: rest) = .ok (.string, '"' :: (body ++ ['"']), rest) := by
  have hfin : strQuotefin (body ++ '"' :: rest) = some ('"' :: rest) :=
    hbody.strQuotefin2 (by decide) (by decide) hnul rest
  have hlen : (body ++ '"' :: rest).length - ('"' :: rest).length + 1 = body.length + 1 := by simp
  have htake : (body ++ '"' :: rest).take (body.length + 1) = body ++ ['"'] := by
    rw [List.take_length_add_append]
    rfl
  rw [readToken, if_neg (by decide)]
  simp only [hfin, hlen, htake]
  rfl

theorem readToken_quote {s : Text} (hnul : nul ∉ s) {tok : Tok} {w rest : Text}
    (h : readToken '"' s = .ok (tok, w, rest)) :
    ∃ body, LitBody '"' body ∧ s = body ++ '"' :: rest ∧ tok = .string ∧
      w = '"' :: (body ++ ['"']) := by
  cases hfin : strQuotefin s with
  | none =>
    rw [readToken, if_neg (by decide)] at h
    simp only [hfin] at h
    cases h
  | some fin =>
    obtain ⟨body, after, hbody, rfl, rfl⟩ := litBody_of_some hnul hfin
    rw [readToken_string hbody (fun hm => hnul (by simp [hm]))] at h
    cases h
    exact ⟨body, hbody, rfl, rfl, rfl⟩

/-- Any other token has no double quote in it, and can be read. -/
theorem readToken_other {c : Char} (hc : c ≠ '"') (s : Text) :
    ∃ tok w piece rest, readToken c s = .ok (tok, w, rest) ∧ c :: s = piece ++ rest ∧
      '"' ∉ piece ∧ ∀ b, tokenStr ⟨tok, w, b⟩ = piece := by
  by_cases hword : isWordStart c = true
  · have hnot : '"' ∉ c :: wordOf s := by
      intro hm
      rcases List.mem_cons.mp hm with hm | hm
      · exact hc hm.symm
      · exact absurd (List.mem_takeWhile_imp hm) (by decide)
    refine ⟨.word, c :: wordOf s, c :: wordOf s, wordEnd s, ?_, ?_, hnot, fun _ => rfl⟩
    · unfold readToken
      exact if_pos hword
    rw [List.cons_append, wordOf, wordEnd, List.takeWhile_append_dropWhile]
  · unfold readToken
    rw [if_neg hword]
    split
    · exact ⟨_, _, [','], _, rfl, rfl, by decide, fun _ => rfl⟩
    · exact ⟨_, _, ['('], _, rfl, rfl, by decide, fun _ => rfl⟩
    · exact ⟨_, _, [')'], _, rfl, rfl, by decide, fun _ => rfl⟩
    · exact absurd rfl hc
    · exact ⟨_, _, ['#', '#'], _, rfl, rfl, by decide, fun _ => rfl⟩
    · exact ⟨_, _, ['#'], _, rfl, rfl, by decide, fun _ => rfl⟩
    · exact ⟨_, _, ['.', '.', '.'], _, rfl, rfl, by decide, fun _ => rfl⟩
    · exact ⟨_, _, [c], _, rfl, rfl, by simpa using hc.symm, fun _ => rfl⟩

/-- The text of a token: a string, or no double quote in it. -/
def TokenOk (t : Token) : Prop :=
  nul ∉ tokenStr t ∧
    ('"' ∉ tokenStr t ∨ ∃ body, LitBody '"' body ∧ tokenStr t = '"' :: (body ++ ['"']))

theorem toks_of_paired {s : Text} (hnul : nul ∉ s) (h : Paired s) : ∃ ts, Toks s ts := by
  induction hlen : s.length using Nat.strong_induction_on generalizing s with
  | _ n ih =>
    have ih : ∀ {t : Text}, t.length < s.length → nul ∉ t → Paired t → ∃ ts, Toks t ts :=
      fun hlt hn hp => ih _ (hlen ▸ hlt) hn hp rfl
    rcases spaces_or s with hall | ⟨sp, c, t, rfl, hsp, hc⟩
    · by_cases hne : s = []
      · subst hne
        exact ⟨[], .nil⟩
      · exact ⟨_, .spaces hne hall⟩
    · have hquote : '"' ∉ sp := fun hm => absurd (hsp _ hm) (by decide)
      have hpaired := h.drop hquote
      have hnult : nul ∉ t := fun hm => hnul (by simp [hm])
      cases hpaired with
      | char hcq hs =>
        obtain ⟨tok, w, piece, rest, hread, hpiece, hnot, -⟩ := readToken_other hcq t
        have hlen := (readToken_rest hread).1.length_le
        have hrest : Paired rest := Paired.drop hnot (hpiece ▸ Paired.char hcq hs)
        obtain ⟨ts, hts⟩ := ih (by simp; omega)
          (fun hm => hnult ((readToken_rest hread).1.subset hm)) hrest
        exact ⟨_, .cons hsp hc hread hts⟩
      | @string body hbody rest hs =>
        obtain ⟨ts, hts⟩ := ih (by simp; omega) (fun hm => hnult (by simp [hm])) hs
        have hread := readToken_string hbody (fun hm => hnult (by simp [hm])) rest
        exact ⟨_, .cons hsp hc hread hts⟩

/-- When the double quotes pair up, every string has an end. -/
theorem tokenises_of_paired {s : Text} (hnul : nul ∉ s) (h : Paired s) :
    ∃ ts, tokenise s = .ok ts := by
  obtain ⟨ts, hts⟩ := toks_of_paired hnul h
  exact ⟨ts, tokenise_iff.mpr hts⟩

theorem tokenOk_of_toks {s : Text} {ts : List Token} (hnul : nul ∉ s) (h : Toks s ts) :
    ∀ t ∈ ts, TokenOk t := by
  induction h with
  | nil => simp
  | spaces => simp [TokenOk, tokenStr]
  | @cons sp _ c _ s tok w rest hread ts _ ih =>
    have hnuls : nul ∉ s := fun hm => hnul (by simp [hm])
    have hnulr : nul ∉ rest := fun hm => hnuls ((readToken_rest hread).1.subset hm)
    refine List.forall_mem_cons.mpr ⟨?_, ih hnulr⟩
    by_cases hc : c = '"'
    · subst hc
      obtain ⟨body, hbody, rfl, rfl, rfl⟩ := readToken_quote hnuls hread
      have hbodynul : nul ∉ body := fun hm => hnuls (by simp [hm])
      have hquote : nul ≠ '"' := by decide
      exact ⟨by simp [tokenStr, hbodynul, hquote], Or.inr ⟨body, hbody, rfl⟩⟩
    · obtain ⟨tok', w', piece, rest', hread', hpiece, hnot, hstr⟩ := readToken_other hc s
      cases hread.symm.trans hread'
      refine ⟨fun hm => hnul ?_, Or.inl (by rw [hstr]; exact hnot)⟩
      rw [hstr] at hm
      exact List.mem_append_right _ (hpiece ▸ List.mem_append_left _ hm)

/-- The text that tokens are joined to. -/
theorem paired_tokensJoin {ts : List Token} (h : ∀ t ∈ ts, TokenOk t) : Paired (tokensJoin ts) := by
  induction ts with
  | nil => exact .nil
  | cons t ts ih =>
    have hrest := ih fun u hu => h u (List.mem_cons_of_mem _ hu)
    have htok : Paired (tokenStr t) := by
      rcases (h t List.mem_cons_self).2 with hnot | ⟨body, hbody, hstr⟩
      · exact paired_of_notMem hnot
      · rw [hstr]
        exact .string hbody .nil
    unfold tokensJoin
    refine (Paired.append ?_ htok).append hrest
    exact paired_of_notMem (by split <;> simp)

theorem nul_notMem_tokensJoin {ts : List Token} (h : ∀ t ∈ ts, TokenOk t) :
    nul ∉ tokensJoin ts := by
  induction ts with
  | nil => simp [tokensJoin]
  | cons t ts ih =>
    have hrest := ih fun u hu => h u (List.mem_cons_of_mem _ hu)
    have htok := (h t List.mem_cons_self).1
    have hspace : nul ≠ ' ' := by decide
    unfold tokensJoin
    split <;> simp [htok, hrest, hspace]

/-- Tokens that are joined can be read again. -/
theorem tokenises_tokensJoin {ts : List Token} (h : ∀ t ∈ ts, TokenOk t) :
    ∃ ts', tokenise (tokensJoin ts) = .ok ts' :=
  tokenises_of_paired (nul_notMem_tokensJoin h) (paired_tokensJoin h)

end Ucc.Cpp
