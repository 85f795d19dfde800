/-
  Cpp/ObjectExpand.lean --- expansion against the reference.

  For object-like macros, the scan of `eval_expand_macros` gives the reference's
  line when it never loses its place: when every offset taken before a rescan
  still lies, after the rescan, in text that has nothing left to expand.  This is
  so when each macro that the line leads to expands to at least as many characters
  as its body has, and the characters beyond hold no quote and no name.

  The proof follows the levels of rescans.  At each level the first macro found
  is the only one the scan itself replaces: its rescan has expanded all others in
  the whole rest of the line.
-/
import Ucc.Cpp.EvalHalts
import Ucc.Cpp.Reference

set_option autoImplicit false

namespace Ucc.Cpp

open Ucc.Lib

/-! ## The positions of a run -/

/-- The position is within the line, or at its terminator. -/
def InLine (s : Scan) : Prop := s.pos ≤ (cstr s.buf).length

/-- Within the turn that starts at `s`, the scan is at `s'`. -/
inductive Passes (E : Env) : Scan → Scan → Prop
  | start (s : Scan) : Passes E s s
  | word {s : Scan} {p : Nat} : turnOf s.st.macros s.buf s.pos = .skip p →
      Passes E s { s with pos := p }
  | name {s : Scan} {m : Macro} {p : Nat} : turnOf s.st.macros s.buf s.pos = .found m p →
      Passes E s { s with pos := p }
  | back {s s₁ : Scan} {m : Macro} {p : Nat} :
      turnOf s.st.macros s.buf s.pos = .found m p →
      Ret (fun n => evalMacro E (rescanAt E n) m { s with pos := p }) s₁ → Passes E s s₁

/-- After the turn at `s` there is a turn at `s'`, of the same scan or of the rescan
that the turn at `s` starts. -/
inductive Turns (E : Env) : Scan → Scan → Prop
  | skip {s : Scan} {p : Nat} : turnOf s.st.macros s.buf s.pos = .skip p →
      nextPos s.buf p false = .ok (some (p + 1)) → Turns E s { s with pos := p + 1 }
  | rescan {s s₁ : Scan} {m : Macro} {p : Nat} :
      turnOf s.st.macros s.buf s.pos = .found m p → m.blue = 0 →
      Ret (fun n => evalMacroR E (rescanAt E n) m ⟨s.st.enter m, s.buf, p⟩) s₁ →
      Turns E s ⟨(s.st.enter m).paint s₁.st, s₁.buf, 0⟩
  | next {s s₁ : Scan} {m : Macro} {p : Nat} :
      turnOf s.st.macros s.buf s.pos = .found m p →
      Ret (fun n => evalMacro E (rescanAt E n) m { s with pos := p }) s₁ →
      nextPos s₁.buf s₁.pos true = .ok (some (s₁.pos + 1)) →
      Turns E s { s₁ with pos := s₁.pos + 1 }

/-- Throughout the run from `s`, rescans included, the position is within the
current line. -/
def Stays (E : Env) (s : Scan) : Prop :=
  ∀ s', Relation.ReflTransGen (Turns E) s s' → ∀ s'', Passes E s' s'' → InLine s''

theorem stays_of_turn {E : Env} {s : Scan} (hpass : ∀ s', Passes E s s' → InLine s')
    (hturn : ∀ s', Turns E s s' → Stays E s') : Stays E s := by
  intro s' hs'
  rcases hs'.cases_head with rfl | ⟨s₁, h₁, hrest⟩
  · exact hpass
  · exact hturn s₁ h₁ s' hrest

/-- The scan returns `r`, and never leaves the line. -/
def Goes (E : Env) (s : Scan) (r : EvalState × Buf) : Prop :=
  Ret (fun n => expandFrom E n s) r ∧ Stays E s

theorem resume_ret_none {E : Env} {s : Scan} {checkQuote : Bool}
    (h : nextPos s.buf s.pos checkQuote = .ok none) :
    Ret (fun n => resume E n s checkQuote) (s.st, s.buf) := by
  refine ⟨0, ?_⟩
  unfold resume
  rw [h]
  rfl

theorem resume_ret_some {E : Env} {s : Scan} {checkQuote : Bool} {r : EvalState × Buf}
    (h : nextPos s.buf s.pos checkQuote = .ok (some (s.pos + 1)))
    (hr : Ret (fun n => expandFrom E n { s with pos := s.pos + 1 }) r) :
    Ret (fun n => resume E n s checkQuote) r := by
  obtain ⟨n, hn⟩ := hr
  refine ⟨n, ?_⟩
  unfold resume
  rw [h]
  exact hn

theorem goes_done {E : Env} {s : Scan} (hturn : turnOf s.st.macros s.buf s.pos = .done)
    (hin : InLine s) : Goes E s (s.st, s.buf) := by
  refine ⟨⟨1, expandFrom_done hturn 0⟩, stays_of_turn ?_ ?_⟩
  · intro s' hs'
    cases hs' with
    | start => exact hin
    | word h => rw [hturn] at h; cases h
    | name h => rw [hturn] at h; cases h
    | back h => rw [hturn] at h; cases h
  · intro s' hs'
    cases hs' with
    | skip h => rw [hturn] at h; cases h
    | rescan h => rw [hturn] at h; cases h
    | next h => rw [hturn] at h; cases h

theorem goes_skip {E : Env} {s : Scan} {p : Nat} {r : EvalState × Buf}
    (hturn : turnOf s.st.macros s.buf s.pos = .skip p) (hin : InLine s)
    (hp : InLine { s with pos := p })
    (hgo : (nextPos s.buf p false = .ok none ∧ r = (s.st, s.buf)) ∨
      (nextPos s.buf p false = .ok (some (p + 1)) ∧ Goes E { s with pos := p + 1 } r)) :
    Goes E s r := by
  constructor
  · have hres : Ret (fun n => resume E n { s with pos := p } false) r := by
      rcases hgo with ⟨hnext, rfl⟩ | ⟨hnext, hgo⟩
      · exact resume_ret_none (s := { s with pos := p }) hnext
      · exact resume_ret_some (s := { s with pos := p }) hnext hgo.1
    obtain ⟨n, hn⟩ := hres
    exact ⟨n + 1, (expandFrom_skip hturn n).trans hn⟩
  · apply stays_of_turn
    · intro s' hs'
      cases hs' with
      | start => exact hin
      | word h =>
        rw [hturn] at h
        cases h
        exact hp
      | name h => rw [hturn] at h; cases h
      | back h => rw [hturn] at h; cases h
    · intro s' hs'
      cases hs' with
      | skip h hn =>
        rw [hturn] at h
        cases h
        rcases hgo with ⟨hnext, -⟩ | ⟨-, hgo⟩
        · rw [hnext] at hn
          cases hn
        · exact hgo.2
      | rescan h => rw [hturn] at h; cases h
      | next h => rw [hturn] at h; cases h

/-- A macro was found, and `eval_macro` returned `s₁`. -/
theorem goes_found {E : Env} {s : Scan} (s₁ : Scan) {m : Macro} {p : Nat} {r : EvalState × Buf}
    (hturn : turnOf s.st.macros s.buf s.pos = .found m p) (hin : InLine s)
    (hp : InLine { s with pos := p })
    (heval : Ret (fun n => evalMacro E (rescanAt E n) m { s with pos := p }) s₁)
    (hback : InLine s₁)
    (hrescan : m.blue = 0 → ∀ s₂,
      Ret (fun n => evalMacroR E (rescanAt E n) m ⟨s.st.enter m, s.buf, p⟩) s₂ →
        Stays E ⟨(s.st.enter m).paint s₂.st, s₂.buf, 0⟩)
    (hgo : (nextPos s₁.buf s₁.pos true = .ok none ∧ r = (s₁.st, s₁.buf)) ∨
      (nextPos s₁.buf s₁.pos true = .ok (some (s₁.pos + 1)) ∧
        Goes E { s₁ with pos := s₁.pos + 1 } r)) :
    Goes E s r := by
  have hunique : ∀ s₂, Ret (fun n => evalMacro E (rescanAt E n) m { s with pos := p }) s₂ →
      s₂ = s₁ := fun s₂ hs₂ => hs₂.unique (evalMacro_grows E m _) heval
  constructor
  · have hres : Ret (fun n => resume E n s₁ true) r := by
      rcases hgo with ⟨hnext, rfl⟩ | ⟨hnext, hgo⟩
      · exact resume_ret_none hnext
      · exact resume_ret_some hnext hgo.1
    rw [ret_call rfl (expandFrom_found hturn),
      ret_bind (evalMacro_grows E m _) fun s' => resume_grows E s' true]
    exact ⟨s₁, heval, hres⟩
  · apply stays_of_turn
    · intro s' hs'
      cases hs' with
      | start => exact hin
      | word h => rw [hturn] at h; cases h
      | name h =>
        rw [hturn] at h
        cases h
        exact hp
      | back h hs₂ =>
        rw [hturn] at h
        cases h
        rw [hunique _ hs₂]
        exact hback
    · intro s' hs'
      cases hs' with
      | skip h => rw [hturn] at h; cases h
      | rescan h hblue hs₂ =>
        rw [hturn] at h
        cases h
        exact hrescan hblue _ hs₂
      | next h hs₂ hn =>
        rw [hturn] at h
        cases h
        rw [hunique _ hs₂] at hn ⊢
        rcases hgo with ⟨hnext, -⟩ | ⟨-, hgo⟩
        · rw [hnext] at hn
          cases hn
        · exact hgo.2

/-- Two positions from which the same turn is taken. -/
theorem goes_of_same_turn {E : Env} {st : EvalState} {b : Buf} {pos pos' : Nat}
    {r : EvalState × Buf} (hsame : turnOf st.macros b pos' = turnOf st.macros b pos)
    (hin : InLine ⟨st, b, pos'⟩) (hgo : Goes E ⟨st, b, pos⟩ r) : Goes E ⟨st, b, pos'⟩ r := by
  constructor
  · obtain ⟨n, hn⟩ := hgo.1
    refine ⟨n, ?_⟩
    cases n with
    | zero => exact hn
    | succ n =>
      dsimp only at hn ⊢
      rw [expandFrom] at hn ⊢
      dsimp only at hn ⊢
      rw [hsame]
      exact hn
  · have hstart := hgo.2 _ .refl
    apply stays_of_turn
    · intro s' hs'
      cases hs' with
      | start => exact hin
      | word h => exact hstart _ (.word (hsame.symm.trans h))
      | name h => exact hstart _ (.name (hsame.symm.trans h))
      | back h hs₂ => exact hstart _ (.back (hsame.symm.trans h) hs₂)
    · intro s' hs'
      have hturn : Turns E ⟨st, b, pos⟩ s' := by
        cases hs' with
        | skip h hn => exact .skip (hsame.symm.trans h) hn
        | rescan h hblue hs₂ => exact .rescan (hsame.symm.trans h) hblue hs₂
        | next h hs₂ hn => exact .next (hsame.symm.trans h) hs₂ hn
      exact fun s₁ hs₁ => hgo.2 s₁ (.head hturn hs₁)

/-! ## Scanning segments -/

theorem isWordPart_nul : isWordPart nul = false := by decide

theorem isQuote_nul : isQuote nul = false := by decide

theorem Seg.Ok.nul_notMem {s : Seg} (h : s.Ok) : nul ∉ s.text := by
  cases s with
  | word w =>
    intro hmem
    have hnul := h.2 nul hmem
    rw [isWordPart_nul] at hnul
    cases hnul
  | lit s =>
    obtain ⟨q, body, -, -, hnul, -⟩ := h
    exact hnul
  | sep c =>
    intro hmem
    exact h.2.2 (List.mem_singleton.mp hmem).symm
  | rest s =>
    obtain ⟨q, body, -, -, hnul, -⟩ := h
    exact hnul

theorem Tidy.nul_notMem {T : List Seg} (h : Tidy T) : nul ∉ flat T := by
  intro hmem
  obtain ⟨s, hs, hc⟩ := List.mem_flatMap.mp hmem
  exact (h.1 s hs).nul_notMem hc

/-- `word_find_any` with enough steps. -/
def findWord (s : Buf) : Option Buf := wordFindAny s.length s

theorem wordFindAny_eq {n : Nat} {s : Buf} (h : s.length ≤ n) : wordFindAny n s = findWord s := by
  suffices H : ∀ (k n : Nat) (s : Buf), s.length ≤ k → s.length ≤ n →
      wordFindAny n s = wordFindAny k s from H _ _ _ le_rfl h
  intro k
  induction k with
  | zero =>
    intro n s hk _
    have hs : s = [] := List.length_eq_zero_iff.mp (Nat.le_zero.mp hk)
    subst hs
    cases n <;> rfl
  | succ k ih =>
    intro n s hk hn
    cases s with
    | nil => cases n <;> rfl
    | cons c s =>
      cases n with
      | zero => simp at hn
      | succ n =>
        simp only [List.length_cons, Nat.add_le_add_iff_right] at hk hn
        rw [wordFindAny, wordFindAny]
        split
        · rfl
        · split
          · split
            · rfl
            · rename_i fin hfin
              have hlen := (strQuotefin2_suffix hfin).length_le
              have htail : fin.tail.length ≤ fin.length := by simp
              exact ih n _ (by omega) (by omega)
          · split
            · rfl
            · exact ih n s hk hn

theorem findWord_cons (c : Char) (s : Buf) :
    findWord (c :: s) =
      if c == nul then none
      else if isQuote c then
        match strQuotefin2 c s with
        | none => none
        | some fin => findWord fin.tail
      else if isWordPart c then some (c :: s) else findWord s := by
  rw [findWord, List.length_cons, wordFindAny]
  split
  · rfl
  · split
    · cases hfin : strQuotefin2 c s with
      | none => rfl
      | some fin =>
        have hlen := (strQuotefin2_suffix hfin).length_le
        have htail : fin.tail.length ≤ fin.length := by simp
        exact wordFindAny_eq (htail.trans hlen)
    · split
      · rfl
      · exact wordFindAny_eq le_rfl

theorem findWord_nul (t : Buf) : findWord (nul :: t) = none := by
  rw [findWord_cons, if_pos]
  decide

/-- What is no word is passed over. -/
theorem findWord_seg {s : Seg} (hok : s.Ok) (hword : ∀ w, s ≠ .word w) (t u : Buf)
    (hrest : ∀ r, s = .rest r → t = nul :: u) : findWord (s.text ++ t) = findWord t := by
  cases s with
  | word w => exact absurd rfl (hword w)
  | lit s =>
    obtain ⟨q, body, rfl, hq, hnul, hfin⟩ := hok
    have hq' : (q == nul) = false := by
      apply beq_eq_false_iff_ne.mpr
      rintro rfl
      exact hnul List.mem_cons_self
    have htext : Seg.text (.lit (q :: (body ++ [q]))) ++ t = q :: (body ++ q :: t) := by
      simp [Seg.text]
    rw [htext, findWord_cons, hq', hq, hfin]
    rfl
  | sep c =>
    obtain ⟨hword', hquote, hnul⟩ := hok
    show findWord (c :: t) = _
    rw [findWord_cons, beq_eq_false_iff_ne.mpr hnul, hquote, hword']
    rfl
  | rest s =>
    obtain ⟨q, body, rfl, hq, hnul, hfin⟩ := hok
    have hq' : (q == nul) = false := by
      apply beq_eq_false_iff_ne.mpr
      rintro rfl
      exact hnul List.mem_cons_self
    rw [hrest _ rfl, findWord_nul]
    show findWord (q :: (body ++ nul :: u)) = none
    rw [findWord_cons, hq', hq, hfin]
    rfl

theorem findWord_word {w : Text} (hw : (Seg.word w).Ok) (t : Buf) :
    findWord (w ++ t) = some (w ++ t) := by
  obtain ⟨hne, hall⟩ := hw
  obtain ⟨c, w, rfl⟩ := List.exists_cons_of_ne_nil hne
  have hc := hall c List.mem_cons_self
  have hnul : (c == nul) = false := by
    apply beq_eq_false_iff_ne.mpr
    rintro rfl
    rw [isWordPart_nul] at hc
    cases hc
  have hquote : isQuote c = false := by
    cases hq : isQuote c with
    | false => rfl
    | true =>
      rw [not_wordPart_of_isQuote hq] at hc
      cases hc
  rw [List.cons_append, findWord_cons, hnul, hquote, hc]
  rfl

theorem turnOf_eq (t : Table) (pre : Buf) {u : Buf} (hu : u ≠ []) :
    turnOf t (pre ++ u) pre.length =
      match findWord u with
      | none => .done
      | some s =>
          if wordOf s = ['L'] ∧
              ((pre ++ u).drop ((pre ++ u).length - s.length + (wordOf s).length)).head? =
                some '"' then
            .skip ((pre ++ u).length - s.length + (wordOf s).length)
          else
            match macroFind t (wordOf s) with
            | some m => .found m ((pre ++ u).length - s.length)
            | none => .skip ((pre ++ u).length - s.length + (wordOf s).length) := by
  have hlen := List.length_pos_of_ne_nil hu
  unfold turnOf
  rewrite [if_neg (by rw [List.length_append]; omega), List.drop_left,
    wordFindAny_eq (by rw [List.length_append]; omega)]
  rfl

/-- Two positions with no word between them. -/
theorem turnOf_congr {t : Table} {b pre pre' : Buf} (u u' : Buf) (hb : b = pre ++ u)
    (hb' : b = pre' ++ u')
    (hu : u ≠ []) (hu' : u' ≠ []) (h : findWord u = findWord u') :
    turnOf t b pre.length = turnOf t b pre'.length := by
  have h₁ := turnOf_eq t pre hu
  have h₂ := turnOf_eq t pre' hu'
  rw [← hb] at h₁
  rw [← hb'] at h₂
  rw [h₁, h₂, h]

/-- What follows a word is not part of it, and no quote. -/
theorem Tidy.after_word {w : Text} {T : List Seg} (h : Tidy (.word w :: T)) :
    T = [] ∨ ∃ c T', T = .sep c :: T' ∧ isWordPart c = false ∧ isQuote c = false ∧ c ≠ nul := by
  cases T with
  | nil => exact .inl rfl
  | cons s T =>
    have hbefore := List.IsChain.rel h.2
    cases s with
    | sep c => exact .inr ⟨c, T, rfl, h.1 (.sep c) (List.mem_cons_of_mem _ List.mem_cons_self)⟩
    | word => exact hbefore.elim
    | lit => exact hbefore.elim
    | rest => exact hbefore.elim

theorem wordOf_word {w : Text} {T : List Seg} (h : Tidy (.word w :: T)) (t : Buf) :
    wordOf (w ++ (flat T ++ nul :: t)) = w := by
  unfold wordOf
  rw [List.takeWhile_append_of_pos (h.1 _ List.mem_cons_self).2]
  rcases h.after_word with rfl | ⟨c, T', rfl, hc, -, -⟩
  · simp [isWordPart_nul]
  · simp [Seg.text, hc]

/-- At a word, the turn is to skip it or to expand it. -/
theorem turnOf_word (t : Table) (pre : Buf) {w : Text} {T : List Seg}
    (h : Tidy (.word w :: T)) (u : Buf) :
    turnOf t (pre ++ (w ++ (flat T ++ nul :: u))) pre.length =
      match macroFind t w with
      | some m => .found m pre.length
      | none => .skip (pre.length + w.length) := by
  have hne : w ++ (flat T ++ nul :: u) ≠ [] := by
    intro hnil
    simp at hnil
  have hlen : (pre ++ (w ++ (flat T ++ nul :: u))).length -
      (w ++ (flat T ++ nul :: u)).length = pre.length := by
    rw [List.length_append]
    omega
  have hdrop : (pre ++ (w ++ (flat T ++ nul :: u))).drop (pre.length + w.length) =
      flat T ++ nul :: u := by
    rw [← List.append_assoc, ← List.length_append, List.drop_left]
  have hquote : (flat T ++ nul :: u).head? ≠ some '"' := by
    rcases h.after_word with rfl | ⟨c, T', rfl, -, hc, -⟩
    · intro hhead
      have hc' : nul = '"' := by simpa using hhead
      exact absurd hc' (by decide)
    · intro hhead
      have hc' : c = '"' := by simpa [Seg.text] using hhead
      rw [hc'] at hc
      cases hc
  rw [turnOf_eq t pre hne, findWord_word (h.1 _ List.mem_cons_self)]
  dsimp only
  rw [wordOf_word h, hlen, hdrop, if_neg fun hL => hquote hL.2]

/-- The scan is in a line `L` with `T` left of it. -/
def At (L T : List Seg) (s : Scan) : Prop :=
  Tidy L ∧ Tidy T ∧ ∃ pre u, flat L = pre ++ flat T ∧ s.buf = flat L ++ nul :: u ∧
    s.pos = pre.length

theorem At.inLine {L T : List Seg} {s : Scan} (h : At L T s) : InLine s := by
  obtain ⟨hL, -, pre, u, hflat, hbuf, hpos⟩ := h
  unfold InLine
  rw [hbuf, cstr_append_nul hL.nul_notMem, hpos, hflat, List.length_append]
  omega

theorem At.tail {L T : List Seg} {t : Seg} {s : Scan} (h : At L (t :: T) s) :
    At L T { s with pos := s.pos + t.text.length } := by
  obtain ⟨hL, hT, pre, u, hflat, hbuf, hpos⟩ := h
  refine ⟨hL, Tidy.right (T := [t]) hT, pre ++ t.text, u, ?_, hbuf, ?_⟩
  · rw [hflat, flat_cons, List.append_assoc]
  · rw [hpos, List.length_append]

theorem At.buf_eq {L T : List Seg} {s : Scan} (h : At L T s) :
    ∃ pre u, s.buf = pre ++ (flat T ++ nul :: u) ∧ s.pos = pre.length := by
  obtain ⟨-, -, pre, u, hflat, hbuf, hpos⟩ := h
  exact ⟨pre, u, by rw [hbuf, hflat, List.append_assoc], hpos⟩

theorem At.pos_eq {L T : List Seg} {s : Scan} (h : At L T s) :
    s.pos = (flat L).length - (flat T).length := by
  obtain ⟨-, -, pre, u, hflat, -, hpos⟩ := h
  rw [hpos, hflat, List.length_append]
  omega

theorem At.drop {L T : List Seg} {st : EvalState} {b : Buf} :
    ∀ {T₀ : List Seg} {pos : Nat}, At L (T₀ ++ T) ⟨st, b, pos⟩ →
      At L T ⟨st, b, pos + (flat T₀).length⟩ := by
  intro T₀
  induction T₀ with
  | nil =>
    intro pos h
    exact h
  | cons t T₀ ih =>
    intro pos h
    have htail := ih h.tail
    rwa [Nat.add_assoc, ← List.length_append] at htail

/-- The end of the line. -/
theorem At.turn_nil {L : List Seg} {s : Scan} (h : At L [] s) :
    turnOf s.st.macros s.buf s.pos = .done := by
  obtain ⟨pre, u, hbuf, hpos⟩ := h.buf_eq
  rw [hbuf, hpos, turnOf_eq _ pre (by simp), flat_nil, List.nil_append, findWord_nul]

/-- What is no word does not change the turn. -/
theorem At.turn_seg {L T : List Seg} {t : Seg} {s : Scan} (h : At L (t :: T) s)
    (hword : ∀ w, t ≠ .word w) :
    turnOf s.st.macros s.buf s.pos = turnOf s.st.macros s.buf (s.pos + t.text.length) := by
  obtain ⟨pre, u, hbuf, hpos⟩ := h.buf_eq
  have hpos' : s.pos + t.text.length = (pre ++ t.text).length := by rw [hpos, List.length_append]
  rw [hpos, ← hpos, hpos', hpos]
  apply turnOf_congr (flat (t :: T) ++ nul :: u) (flat T ++ nul :: u) hbuf
  · rw [hbuf, flat_cons]
    simp only [List.append_assoc]
  · simp
  · simp
  · rw [flat_cons, List.append_assoc]
    refine findWord_seg (h.2.1.1 t List.mem_cons_self) hword _ u ?_
    rintro r rfl
    cases T with
    | nil => rfl
    | cons t' T => exact (List.IsChain.rel h.2.1.2).elim

/-! ## Walking over what is left alone -/

/-- The word is painted, or names no macro, in the state `st`. -/
def Dormant (st : EvalState) : Seg → Prop
  | .word w => ∀ m, macroFind st.macros w = some m → m.blue ≠ 0
  | _ => True

/-- The character behind a word. -/
theorem At.next_word {L T : List Seg} {w : Text} {s : Scan} (h : At L (.word w :: T) s)
    (q : Bool) :
    (T = [] ∧ nextPos s.buf (s.pos + w.length) q = .ok none) ∨
      ∃ c T', T = .sep c :: T' ∧
        nextPos s.buf (s.pos + w.length) q = .ok (some (s.pos + w.length + 1)) := by
  obtain ⟨pre, u, hbuf, hpos⟩ := h.buf_eq
  have hdrop : s.buf.drop (s.pos + w.length) = flat T ++ nul :: u := by
    rw [hbuf, hpos, flat_cons, List.append_assoc, ← List.append_assoc]
    show ((pre ++ w) ++ _).drop _ = _
    rw [← List.length_append, List.drop_left]
  rcases h.2.1.after_word with rfl | ⟨c, T', rfl, -, hquote, hnul⟩
  · refine .inl ⟨rfl, ?_⟩
    unfold nextPos
    rw [hdrop]
    simp [isQuote_nul]
  · refine .inr ⟨c, T', rfl, ?_⟩
    unfold nextPos
    rw [hdrop]
    simp [Seg.text, hquote, hnul]

theorem Goes.eq_of_nil {E : Env} {L : List Seg} {s : Scan} {r : EvalState × Buf}
    (h : At L [] s) (hgo : Goes E s r) : r = (s.st, s.buf) :=
  hgo.1.unique (expandFrom_grows E s) ⟨1, expandFrom_done h.turn_nil 0⟩

/-- One word that is left alone. -/
theorem goes_dormant {E : Env} {L T : List Seg} {w : Text} {s : Scan} {r : EvalState × Buf}
    (h : At L (.word w :: T) s) (hw : Dormant s.st (.word w))
    (hgo : Goes E { s with pos := s.pos + w.length } r) : Goes E s r := by
  have hT := h.tail
  -- the rest of the turn: stop at the end of the line, or step over one character
  have hrest : ∀ q, (nextPos s.buf (s.pos + w.length) q = .ok none ∧ r = (s.st, s.buf)) ∨
      (nextPos s.buf (s.pos + w.length) q = .ok (some (s.pos + w.length + 1)) ∧
        Goes E { s with pos := s.pos + w.length + 1 } r) := by
    intro q
    rcases h.next_word q with ⟨rfl, hnext⟩ | ⟨c, T', rfl, hnext⟩
    · exact .inl ⟨hnext, Goes.eq_of_nil (s := { s with pos := s.pos + w.length }) hT hgo⟩
    · refine .inr ⟨hnext, ?_⟩
      have hsep := hT.turn_seg fun _ hc => nomatch hc
      exact goes_of_same_turn hsep.symm hT.tail.inLine hgo
  obtain ⟨pre, u, hbuf, hpos⟩ := h.buf_eq
  have hturn := turnOf_word s.st.macros pre h.2.1 u
  rw [flat_cons, List.append_assoc] at hbuf
  rw [← show s.buf = pre ++ (w ++ (flat T ++ nul :: u)) from hbuf, ← hpos] at hturn
  cases hm : macroFind s.st.macros w with
  | none =>
    rw [hm] at hturn
    exact goes_skip hturn h.inLine hT.inLine (hrest false)
  | some m =>
    rw [hm] at hturn
    have hblue : m.blue ≠ 0 := hw m hm
    have hnam : m.nam = w := by simpa using List.find?_some hm
    have heval : ∀ n, evalMacro E (rescanAt E n) m s =
        pure { s with pos := s.pos + w.length } := by
      intro n
      unfold evalMacro
      rw [if_pos hblue, hnam]
    refine goes_found { s with pos := s.pos + w.length } hturn h.inLine h.inLine
      ⟨0, heval 0⟩ hT.inLine (fun hzero => absurd hzero hblue) (hrest true)

/-- The scan walks over segments that are left alone. -/
theorem goes_walk {E : Env} {L T : List Seg} {st : EvalState} {b : Buf} {r : EvalState × Buf}
    (hgo : ∀ pos, At L T ⟨st, b, pos⟩ → Goes E ⟨st, b, pos⟩ r) :
    ∀ (T₀ : List Seg) (pos : Nat), (∀ s ∈ T₀, Dormant st s) → At L (T₀ ++ T) ⟨st, b, pos⟩ →
      Goes E ⟨st, b, pos⟩ r := by
  intro T₀
  induction T₀ with
  | nil =>
    intro pos _ hat
    exact hgo pos hat
  | cons t T₀ ih =>
    intro pos hdorm hat
    have hrest := ih (pos + t.text.length) (fun s hs => hdorm s (List.mem_cons_of_mem _ hs))
      hat.tail
    cases t with
    | word w => exact goes_dormant hat (hdorm _ List.mem_cons_self) hrest
    | lit => exact goes_of_same_turn (hat.turn_seg fun _ hc => nomatch hc) hat.inLine hrest
    | sep => exact goes_of_same_turn (hat.turn_seg fun _ hc => nomatch hc) hat.inLine hrest
    | rest => exact goes_of_same_turn (hat.turn_seg fun _ hc => nomatch hc) hat.inLine hrest

/-- A line in which everything is left alone. -/
theorem goes_all_dormant {E : Env} {L T : List Seg} {s : Scan} (h : At L T s)
    (hdorm : ∀ t ∈ T, Dormant s.st t) : Goes E s (s.st, s.buf) := by
  refine goes_walk (L := L) (T := []) ?_ T s.pos hdorm (by rwa [List.append_nil])
  intro pos hat
  exact goes_done hat.turn_nil hat.inLine

/-! ## Coming back from a rescan -/

/-- Going on at offset `k` of the expansion `x` finds nothing to expand: `x` has no
quote from there on, and the rest of a word cut there names no macro. -/
def Landing (D : List Def) (k : Nat) (x : Text) : Prop :=
  k ≤ x.length ∧ (∀ c ∈ x.drop k, isQuote c = false) ∧
    ∀ c y, x.drop k = c :: y → isWordPart c = true → wordOf y ≠ [] → findDef D (wordOf y) = none

/-- A cut in the text of some segments falls into one of them. -/
theorem flat_cut {X : List Seg} {k : Nat} (hk : k < (flat X).length) :
    ∃ X₁ s X₂ j, X = X₁ ++ s :: X₂ ∧ k = (flat X₁).length + j ∧ j < s.text.length := by
  induction X generalizing k with
  | nil => simp at hk
  | cons s X ih =>
    by_cases hs : k < s.text.length
    · exact ⟨[], s, X, k, rfl, by simp, hs⟩
    · rw [flat_cons, List.length_append] at hk
      obtain ⟨X₁, s', X₂, j, rfl, hkj, hj⟩ := ih (k := k - s.text.length) (by omega)
      refine ⟨s :: X₁, s', X₂, j, rfl, ?_, hj⟩
      rw [flat_cons, List.length_append]
      omega

/-- Behind the offset of a landing, the line goes on with segments that hold no
unpainted name. -/
theorem Landing.segs {D : List Def} {k : Nat} {X C : List Seg} (h : Landing D k (flat X))
    (hk : k < (flat X).length) (hX : Tidy (X ++ C)) (hrest : ∀ s, .rest s ∉ X) :
    ∃ c Y, (flat X).drop k = c :: flat Y ∧ isQuote c = false ∧ c ≠ nul ∧ Tidy (Y ++ C) ∧
      ∀ w, .word w ∈ Y → .word w ∈ X ∨ findDef D w = none := by
  obtain ⟨X₁, s, X₂, j, rfl, hkj, hj⟩ := flat_cut hk
  obtain ⟨-, hquote, hcut⟩ := h
  have hdrop : (flat (X₁ ++ s :: X₂)).drop k = s.text.drop j ++ flat X₂ := by
    rw [flat_append, flat_cons, hkj, ← List.drop_drop, List.drop_left,
      List.drop_append_of_le_length hj.le]
  have htidy₂ : Tidy (s :: X₂ ++ C) := by
    rw [List.append_assoc] at hX
    exact hX.right
  have hmemX : ∀ w, .word w ∈ X₂ → .word w ∈ X₁ ++ s :: X₂ := fun w hw =>
    List.mem_append_right _ (List.mem_cons_of_mem _ hw)
  rw [hdrop] at hquote hcut ⊢
  have hok := htidy₂.1 s List.mem_cons_self
  cases s with
  | sep c =>
    have hj0 : j = 0 := by
      simp only [Seg.text, List.length_cons, List.length_nil] at hj
      omega
    subst hj0
    exact ⟨c, X₂, rfl, hok.2.1, hok.2.2, htidy₂.right (T := [.sep c]),
      fun w hw => .inl (hmemX w hw)⟩
  | word w =>
    obtain ⟨c, w', hw'⟩ := List.exists_cons_of_ne_nil
      (List.ne_nil_of_length_pos (by rw [List.length_drop]; exact Nat.sub_pos_of_lt hj) :
        w.drop j ≠ [])
    have hmem : ∀ a ∈ c :: w', isWordPart a = true := by
      intro a ha
      rw [← hw'] at ha
      exact hok.2 a (List.mem_of_mem_drop ha)
    have hc := hmem c List.mem_cons_self
    have hquote' : isQuote c = false := by
      apply hquote
      show c ∈ w.drop j ++ flat X₂
      rw [hw']
      exact List.mem_cons_self
    have hnul : c ≠ nul := by
      rintro rfl
      rw [isWordPart_nul] at hc
      cases hc
    have htail : Tidy (X₂ ++ C) := htidy₂.right (T := [.word w])
    show ∃ c' Y, w.drop j ++ flat X₂ = c' :: flat Y ∧ _
    rw [hw']
    by_cases hne : w' = []
    · subst hne
      exact ⟨c, X₂, rfl, hquote', hnul, htail, fun w hw => .inl (hmemX w hw)⟩
    · refine ⟨c, .word w' :: X₂, rfl, hquote', hnul, ⟨?_, ?_⟩, ?_⟩
      · intro s hs
        rcases List.mem_cons.mp hs with rfl | hs
        · exact ⟨hne, fun a ha => hmem a (List.mem_cons_of_mem _ ha)⟩
        · exact htail.1 s hs
      · -- the end of a word may stand where the word stood
        refine List.isChain_cons.mpr ⟨fun y hy => ?_, htail.2⟩
        exact ((List.isChain_cons.mp htidy₂.2).1 y hy).word_of fun _ h => by cases h
      · intro v hv
        rcases List.mem_cons.mp hv with heq | hv
        · cases heq
          refine .inr ?_
          have hword : wordOf (w' ++ flat X₂) = w' := by
            unfold wordOf
            rw [List.takeWhile_append_of_pos fun a ha => hmem a (List.mem_cons_of_mem _ ha)]
            rcases (Tidy.left (U := C) htidy₂).after_word with rfl | ⟨a, T', rfl, ha, -, -⟩
            · simp
            · simp [Seg.text, ha]
          have hfind := hcut c (w' ++ flat X₂) (by show w.drop j ++ flat X₂ = _; rw [hw']; rfl) hc
          rw [hword] at hfind
          exact hfind hne
        · exact .inl (hmemX v hv)
  | lit s =>
    -- the closing quote would lie behind the offset
    obtain ⟨q, body, rfl, hq, -, -⟩ := hok
    have hmem : q ∈ (q :: (body ++ [q])).drop j := by
      have hj' : j ≤ (q :: body).length := by
        simp only [Seg.text, List.length_cons, List.length_append, List.length_nil] at hj ⊢
        omega
      rw [← List.cons_append, List.drop_append_of_le_length hj']
      exact List.mem_append_right _ List.mem_cons_self
    have := hquote q (List.mem_append_left _ hmem)
    rw [hq] at this
    cases this
  | rest s => exact absurd (List.mem_append_right _ List.mem_cons_self) (hrest s)

/-! ## The state at a level of rescans -/

/-- The definitions are `D`, and the painted macros are those of `S`. -/
def Painted (D : List Def) (S : List Text) (st : EvalState) : Prop :=
  st.macros.defs = D ∧ ∀ w m, macroFind st.macros w = some m → (m.blue ≠ 0 ↔ w ∈ S)

theorem Painted.keep {D : List Def} {S : List Text} {st st' : EvalState}
    (hst : Painted D S st) (h : st'.macros.painted = st.macros.painted) : Painted D S st' := by
  refine ⟨defs_keep _ _ h hst.1, fun w m hm => ?_⟩
  obtain ⟨m₀, hm₀, heq⟩ := macroFind_blue h hm
  rw [← heq]
  exact hst.2 w m₀ hm₀

theorem macroFind_updateFirst_ne {nam w : Text} {f : Macro → Macro} {t : Table}
    (hf : ∀ m, (f m).nam = m.nam) (hne : nam ≠ w) :
    macroFind (updateFirst nam f t) w = macroFind t w := by
  induction t with
  | nil => rfl
  | cons m t ih =>
    simp only [macroFind] at ih
    by_cases h : m.nam = nam
    · simp [updateFirst, macroFind, h, hf, hne]
    · simp [updateFirst, macroFind, h, ih, List.find?_cons]

theorem Painted.enter {D : List Def} {S : List Text} {st : EvalState} (hst : Painted D S st)
    {w : Text} {m : Macro} (hm : macroFind st.macros w = some m) (hblue : m.blue = 0) :
    Painted D (w :: S) (st.enter m) := by
  have hnam : m.nam = w := by simpa using List.find?_some hm
  refine ⟨(enter_defs m st).trans hst.1, fun w' m' hm' => ?_⟩
  have hfind : macroFind (macroBlue m.nam 1 (macroUse m.nam 1 st.macros)) w' = some m' := hm'
  unfold macroBlue macroUse at hfind
  rw [hnam] at hfind
  by_cases hw' : w = w'
  · subst hw'
    rw [macroFind_updateFirst, macroFind_updateFirst, hm] at hfind
    · cases hfind
      simp [hblue]
    · intro m
      rfl
    · intro m
      rfl
  · rw [macroFind_updateFirst_ne _ hw', macroFind_updateFirst_ne _ hw'] at hfind
    · rw [hst.2 w' m' hfind, List.mem_cons]
      exact ⟨.inr, fun h => h.resolve_left fun heq => hw' heq.symm⟩
    · intro m
      rfl
    · intro m
      rfl

theorem macroFind_of_findDef {t : Table} {w : Text} {d : Def} (h : findDef t.defs w = some d) :
    ∃ m, macroFind t w = some m ∧ m.toDef = d := by
  cases hm : macroFind t w with
  | none =>
    have hsome := isSome_macroFind t w
    rw [hm] at hsome
    have hmem := List.mem_of_find?_eq_some h
    have hnam : d.nam = w := by simpa using List.find?_some h
    have : isDefined t.defs w = true := by
      unfold isDefined
      exact List.any_eq_true.mpr ⟨d, hmem, by simpa using hnam⟩
    rw [this] at hsome
    cases hsome
  | some m =>
    have hd := macroFind_findDef hm
    rw [h] at hd
    exact ⟨m, rfl, (Option.some.inj hd).symm⟩

/-- The macro behind a body. -/
theorem Painted.macro_of_body {D : List Def} {S : List Text} {st : EvalState}
    (hst : Painted D S st) {w : Text} {B : List Seg} (hw : w ∉ S) (hB : bodyOf D w = some B) :
    ∃ m, macroFind st.macros w = some m ∧ m.nam = w ∧ m.type = .object ∧
      m.val = some (flat B) ∧ m.blue = 0 := by
  unfold bodyOf at hB
  obtain ⟨d, hd, hval⟩ := Option.bind_eq_some_iff.mp hB
  split at hval
  · rename_i htype
    rw [← hst.1] at hd
    obtain ⟨m, hm, rfl⟩ := macroFind_of_findDef hd
    obtain ⟨val, hv, rfl⟩ := Option.map_eq_some_iff.mp hval
    refine ⟨m, hm, by simpa using List.find?_some hm, htype, ?_, ?_⟩
    · rw [flat_lex]
      exact hv
    · by_contra hblue
      exact hw ((hst.2 w m hm).mp hblue)
  · cases hval

theorem Painted.dormant {D : List Def} {S : List Text} {U : Text → Prop} {st : EvalState}
    (hst : Painted D S st) (hU : Usable D U) {s : Seg} (hs : Idle D S s)
    (hword : ∀ w, s = .word w → U w) : Dormant st s := by
  cases s with
  | word w =>
    intro m hm
    rcases hs with hmem | hnone
    · exact (hst.2 w m hm).mpr hmem
    · have hd := macroFind_findDef hm
      rw [hst.1, hU.object w (hword w rfl) hnone] at hd
      cases hd
  | lit => trivial
  | sep => trivial
  | rest => trivial

/-! ## Replacing one macro -/

theorem strReplace_mid {a c : Text} (w u val : Text) (ha : nul ∉ a) (hc : nul ∉ c) :
    ∃ u', strReplace (a ++ (w ++ (c ++ nul :: u))) a.length (a.length + w.length) val =
      a ++ (val ++ (c ++ nul :: u')) := by
  have hdrop : (a ++ (w ++ (c ++ nul :: u))).drop (a.length + w.length) = c ++ nul :: u := by
    rw [← List.append_assoc, ← List.length_append, List.drop_left]
  have hcstr : cstr a = a := by
    have hall : ∀ x ∈ a, (x != nul) = true := by
      intro x hx
      simp only [bne_iff_ne, ne_eq]
      rintro rfl
      exact ha hx
    have happ : List.takeWhile _ (a ++ []) = a ++ List.takeWhile _ [] :=
      List.takeWhile_append_of_pos hall
    rwa [List.append_nil, List.takeWhile_nil, List.append_nil] at happ
  unfold strReplace
  dsimp only
  rw [hdrop, cstr_append_nul hc, List.take_left]
  split
  · refine ⟨(a ++ (w ++ (c ++ nul :: u))).drop (a ++ val ++ c ++ [nul]).length, ?_⟩
    simp only [List.append_assoc, List.cons_append, List.nil_append]
  · refine ⟨[], ?_⟩
    simp only [alloc, hcstr, List.append_assoc]

/-- The scan returns the line `R`, and never leaves the line. -/
def GoesTo (E : Env) (s : Scan) (R : List Seg) : Prop :=
  ∃ st' u, Goes E s (st', flat R ++ nul :: u)

/-- From the offset `k` of the expansion `X`, the scan finds its way to what follows. -/
theorem goes_land {E : Env} {D : List Def} {S : List Text} {U : Text → Prop}
    {A X C : List Seg} {st : EvalState} {u : Buf} {k : Nat} {R : List Seg}
    (hst : Painted D S st) (hU : Usable D U) (hXU : WordsIn U X)
    (htidy : Tidy (A ++ (X ++ C))) (hrest : ∀ s, .rest s ∉ X)
    (hC : C = [] ∨ ∃ c T, C = .sep c :: T)
    (hland : Landing D k (flat X)) (hidle : k < (flat X).length → Normal D S X)
    (hgo : ∀ pos, At (A ++ (X ++ C)) C ⟨st, flat (A ++ (X ++ C)) ++ nul :: u, pos⟩ →
      GoesTo E ⟨st, flat (A ++ (X ++ C)) ++ nul :: u, pos⟩ R) :
    ∃ st' u', let b := flat (A ++ (X ++ C)) ++ nul :: u
      let r := (st', flat R ++ nul :: u')
      (nextPos b ((flat A).length + k) true = .ok none ∧ r = (st, b)) ∨
        (nextPos b ((flat A).length + k) true = .ok (some ((flat A).length + k + 1)) ∧
          Goes E ⟨st, b, (flat A).length + k + 1⟩ r) := by
  have hCtidy : Tidy C := htidy.right.right
  have hflat : flat (A ++ (X ++ C)) = (flat A ++ flat X) ++ flat C := by
    simp only [flat_append, List.append_assoc]
  have hatC : At (A ++ (X ++ C)) C
      ⟨st, flat (A ++ (X ++ C)) ++ nul :: u, (flat A ++ flat X).length⟩ :=
    ⟨htidy, hCtidy, flat A ++ flat X, u, hflat, rfl, rfl⟩
  obtain ⟨st', u', hgoC⟩ := hgo _ hatC
  refine ⟨st', u', ?_⟩
  dsimp only
  rcases Nat.lt_or_ge k (flat X).length with hk | hk
  · -- inside the expansion: step over one character, then over the rest of it
    obtain ⟨c, Y, hdrop, hquote, hnul, hY, hYw⟩ := hland.segs hk htidy.right hrest
    have hbuf : (flat (A ++ (X ++ C)) ++ nul :: u).drop ((flat A).length + k) =
        c :: (flat (Y ++ C) ++ nul :: u) := by
      rw [hflat, ← List.drop_drop, List.append_assoc, List.append_assoc, List.drop_left,
        List.drop_append_of_le_length hk.le, hdrop, flat_append]
      simp only [List.cons_append, List.append_assoc]
    refine .inr ⟨?_, ?_⟩
    · unfold nextPos
      rw [hbuf]
      simp [hquote, hnul]
    · have hat : At (A ++ (X ++ C)) (Y ++ C)
          ⟨st, flat (A ++ (X ++ C)) ++ nul :: u, (flat A).length + k + 1⟩ := by
        refine ⟨htidy, hY, flat A ++ ((flat X).take k ++ [c]), u, ?_, rfl, ?_⟩
        · have hX : flat X = (flat X).take k ++ c :: flat Y := by
            rw [← hdrop, List.take_append_drop]
          rw [hflat, flat_append]
          nth_rewrite 1 [hX]
          simp only [List.append_assoc, List.cons_append, List.nil_append]
        · simp only [List.length_append, List.length_take, List.length_cons, List.length_nil]
          omega
      refine goes_walk (L := A ++ (X ++ C)) (T := C) ?_ Y _ ?_ hat
      · intro pos hpos
        have heq : pos = (flat A ++ flat X).length := hpos.pos_eq.trans hatC.pos_eq.symm
        rw [heq]
        exact hgoC
      · intro t ht
        cases t with
        | word w =>
          rcases hYw w ht with hw | hnone
          · exact hst.dormant hU (hidle hk _ hw) fun w' hw' => hXU w' (hw' ▸ hw)
          · intro m hm
            have hd := macroFind_findDef hm
            rw [hst.1, hnone] at hd
            cases hd
        | lit => trivial
        | sep => trivial
        | rest => trivial
  · -- right behind the expansion
    have hk' : k = (flat X).length := le_antisymm hland.1 hk
    have hpos : (flat A).length + k = (flat A ++ flat X).length := by
      rw [hk', List.length_append]
    rw [hpos]
    have hbuf : (flat (A ++ (X ++ C)) ++ nul :: u).drop (flat A ++ flat X).length =
        flat C ++ nul :: u := by
      rw [hflat, List.append_assoc, List.drop_left]
    rcases hC with rfl | ⟨c, T, rfl⟩
    · refine .inl ⟨?_, hgoC.eq_of_nil hatC⟩
      unfold nextPos
      rw [hbuf]
      simp [isQuote_nul]
    · have hok := hCtidy.1 (.sep c) List.mem_cons_self
      refine .inr ⟨?_, ?_⟩
      · unfold nextPos
        rw [hbuf]
        simp [Seg.text, hok.2.1, hok.2.2]
      · have hsep := hatC.turn_seg fun _ hc => by cases hc
        exact goes_of_same_turn hsep.symm hatC.tail.inLine hgoC

/-- One replacement: the rescan expands the whole line to `A`, `X` and `C'`, and the
scan goes on from the end of the body's length in `X`. -/
theorem goes_replace {E : Env} {D : List Def} {S : List Text} {U : Text → Prop}
    {A B C X C' R : List Seg} {w : Text} {s : Scan}
    (hat : At (A ++ .word w :: C) (.word w :: C) s) (hst : Painted D S s.st)
    (hU : Usable D U) (hw : w ∉ S) (hB : bodyOf D w = some B)
    (hXU : WordsIn U X) (htidy : Tidy (A ++ (X ++ C'))) (hrest : ∀ s, .rest s ∉ X)
    (hC : C' = [] ∨ ∃ c T, C' = .sep c :: T)
    (hland : Landing D (flat B).length (flat X))
    (hidle : (flat B).length < (flat X).length → Normal D S X)
    (hscan : ∀ st' u, Painted D (w :: S) st' →
      GoesTo E ⟨st', flat (A ++ (B ++ C)) ++ nul :: u, 0⟩ (A ++ (X ++ C')))
    (hgo : ∀ st' u pos, Painted D S st' →
      At (A ++ (X ++ C')) C' ⟨st', flat (A ++ (X ++ C')) ++ nul :: u, pos⟩ →
        GoesTo E ⟨st', flat (A ++ (X ++ C')) ++ nul :: u, pos⟩ R) :
    GoesTo E s R := by
  obtain ⟨m, hm, hnam, htype, hval, hblue⟩ := hst.macro_of_body hw hB
  obtain ⟨hL, hT, pre, u, hflat, hbuf, hpos⟩ := hat
  have hpre : pre = flat A := by
    rw [flat_append] at hflat
    exact (List.append_cancel_right hflat).symm
  subst hpre
  have hsbuf : s.buf = flat A ++ (w ++ (flat C ++ nul :: u)) := by
    rw [hbuf, hflat, flat_cons]
    simp only [List.append_assoc]
    rfl
  have hturn : turnOf s.st.macros s.buf s.pos = .found m s.pos := by
    have h := turnOf_word s.st.macros (flat A) hT u
    rw [hm] at h
    rw [hsbuf, hpos, h]
  -- the replaced line, and its rescan
  obtain ⟨u₁, hrep⟩ := strReplace_mid w u (flat B) hL.left.nul_notMem
    (Tidy.right (T := [.word w]) hT).nul_notMem
  have hline : strReplace s.buf s.pos (s.pos + m.nam.length) (flat B) =
      flat (A ++ (B ++ C)) ++ nul :: u₁ := by
    rw [hsbuf, hpos, hnam, hrep]
    simp only [flat_append, List.append_assoc]
  obtain ⟨st₂, u₂, hgo₂⟩ := hscan (s.st.enter m) u₁ (hst.enter hm hblue)
  obtain ⟨n, hn⟩ := hgo₂.1
  have hlen : st₂.macros.length = (s.st.enter m).macros.length :=
    length_eq_of_painted (expandFrom_painted n hn)
  have heval : evalMacro E (rescanAt E n) m s =
      pure ⟨st₂.update (macroBlue m.nam (-1)), flat (A ++ (X ++ C')) ++ nul :: u₂,
        s.pos + (flat B).length⟩ := by
    apply evalMacro_object_pure htype hval s hblue _ hlen
    rw [hline]
    exact hn
  have hst₁ : Painted D S (st₂.update (macroBlue m.nam (-1))) :=
    hst.keep (evalMacro_painted (rescanAt_keeps E n) heval)
  -- where the scan goes on
  obtain ⟨st', u', hcont⟩ := goes_land hst₁ hU hXU htidy hrest hC hland hidle
    (fun pos hat => hgo _ u₂ pos hst₁ hat)
  rw [← hpos] at hcont
  have hin : InLine s := At.inLine ⟨hL, hT, flat A, u, hflat, hbuf, hpos⟩
  refine ⟨st', u', goes_found _ hturn hin hin ⟨n, heval⟩ ?_ ?_ hcont⟩
  · show s.pos + (flat B).length ≤ (cstr (flat (A ++ (X ++ C')) ++ nul :: u₂)).length
    rw [cstr_append_nul htidy.nul_notMem, hpos, flat_append, flat_append, List.length_append,
      List.length_append]
    have := hland.1
    omega
  · rintro - s₂ ⟨k, hk⟩
    dsimp only at hk
    rw [evalMacroR_object htype hval] at hk
    cases Partial.pure_inj.mp hk
    have hpaint : (s.st.enter m).paint (s.st.enter m) = s.st.enter m := by
      show EvalState.mk (snapshotAlterBlue _ _ 1 (s.st.enter m).macros) _ = _
      rw [snapshotAlterBlue_same (snapshotTake_length _)]
    dsimp only
    rw [hpaint, hline]
    exact hgo₂.2

/-- The scan walks over segments that are left alone, and goes on from there. -/
theorem GoesTo.walk {E : Env} {L T₀ T R : List Seg} {s : Scan} (hat : At L (T₀ ++ T) s)
    (hdorm : ∀ t ∈ T₀, Dormant s.st t)
    (hgo : ∀ pos, At L T { s with pos := pos } → GoesTo E { s with pos := pos } R) :
    GoesTo E s R := by
  have hat' : At L T { s with pos := s.pos + (flat T₀).length } := hat.drop
  obtain ⟨st', u, hgoes⟩ := hgo _ hat'
  refine ⟨st', u, goes_walk (L := L) (T := T) ?_ T₀ s.pos hdorm hat⟩
  intro pos hpos
  have heq : pos = s.pos + (flat T₀).length := hpos.pos_eq.trans hat'.pos_eq.symm
  rw [heq]
  exact hgoes

/-! ## A level of rescans -/

/-- A line has nothing to expand, or a first macro to expand. -/
theorem normal_or_first (D : List Def) (S : List Text) (T : List Seg) :
    Normal D S T ∨ ∃ T₀ w B C, T = T₀ ++ .word w :: C ∧ Normal D S T₀ ∧ w ∉ S ∧
      bodyOf D w = some B := by
  induction T with
  | nil => exact .inl fun s hs => nomatch hs
  | cons t T ih =>
    rcases idle_or_macro D S t with ht | ⟨w, B, rfl, hw, hB⟩
    · rcases ih with hT | ⟨T₀, w, B, C, rfl, hT₀, hw, hB⟩
      · refine .inl fun s hs => ?_
        rcases List.mem_cons.mp hs with rfl | hs
        · exact ht
        · exact hT s hs
      · refine .inr ⟨t :: T₀, w, B, C, rfl, fun s hs => ?_, hw, hB⟩
        rcases List.mem_cons.mp hs with rfl | hs
        · exact ht
        · exact hT₀ s hs
    · exact .inr ⟨[], w, B, T, rfl, fun s hs => (nomatch hs), hw, hB⟩

/-- What follows a word still follows it after expansion. -/
theorem expandAll_after_word {D : List Def} {S : List Text} {w : Text} {C : List Seg}
    (h : Tidy (.word w :: C)) :
    expandAll D S C = [] ∨ ∃ c T, expandAll D S C = .sep c :: T := by
  rcases h.after_word with rfl | ⟨c, T, rfl, -⟩
  · exact .inl (expandAll_nil D S)
  · refine .inr ⟨c, expandAll D S T, ?_⟩
    have hsep : Idle D S (.sep c) := trivial
    rw [expandAll_cons, expandAll_idle hsep]
    rfl

section Level

variable {E : Env} {D : List Def} {U : Text → Prop} {S : List Text} {w : Text} {B : List Seg}

/-- The rescans with `w` painted as well give the reference's line. -/
def RescansTo (E : Env) (D : List Def) (U : Text → Prop) (S : List Text) : Prop :=
  ∀ (L : List Seg) (st : EvalState) (u : Buf), WordsIn U L → Tidy L → Painted D S st →
    GoesTo E ⟨st, flat L ++ nul :: u, 0⟩ (expandAll D S L)

/-- The position taken before the rescan of `w` is a good one after it. -/
structure Lands (D : List Def) (S : List Text) (w : Text) (B : List Seg) : Prop where
  landing : Landing D (flat B).length (flat (expandAll D (w :: S) B))
  idle : (flat B).length < (flat (expandAll D (w :: S) B)).length →
    Normal D S (expandAll D (w :: S) B)

variable (hU : Usable D U) (hw : w ∉ S) (hUw : U w) (hB : bodyOf D w = some B)
  (hlands : Lands D S w B) (hscans : RescansTo E D U (w :: S))
  (hnormal : Normal D (w :: S) (expandAll D (w :: S) B))

include hU hw hUw hB hlands hscans

/-- One replacement of `w`; what follows is then the rest of the line with all
macros but those of `S` and `w` expanded. -/
theorem goes_level_step {A C R : List Seg} {s : Scan}
    (hat : At (A ++ .word w :: C) (.word w :: C) s) (hst : Painted D S s.st)
    (hA : Normal D (w :: S) A) (hwords : WordsIn U (A ++ .word w :: C))
    (hgo : ∀ st' u pos, Painted D S st' →
      At (A ++ (expandAll D (w :: S) B ++ expandAll D (w :: S) C)) (expandAll D (w :: S) C)
        ⟨st', flat (A ++ (expandAll D (w :: S) B ++ expandAll D (w :: S) C)) ++ nul :: u, pos⟩ →
      GoesTo E
        ⟨st', flat (A ++ (expandAll D (w :: S) B ++ expandAll D (w :: S) C)) ++ nul :: u, pos⟩ R) :
    GoesTo E s R := by
  have hBU := hU.body hUw hB
  have hBwhole := hU.whole w B hUw hB
  have hCU : WordsIn U C := fun w' hw' => hwords w' (List.mem_append_right _
    (List.mem_cons_of_mem _ hw'))
  have hline : Tidy (A ++ (B ++ C)) := hat.1.replace hBwhole
  have hexpand : expandAll D (w :: S) (A ++ (B ++ C)) =
      A ++ (expandAll D (w :: S) B ++ expandAll D (w :: S) C) := by
    rw [expandAll_append, expandAll_append, expandAll_normal hA]
  have hXwhole := whole_expandAll hU (w :: S) hBU hBwhole
  have htidy : Tidy (A ++ (expandAll D (w :: S) B ++ expandAll D (w :: S) C)) := by
    have h := tidy_expandAll hU (w :: S) (A := A) (hBU.append hCU) hline
    rwa [expandAll_append] at h
  refine goes_replace hat hst hU hw hB (wordsIn_expandAll hU.closed _ hBU) htidy hXwhole.2
    (expandAll_after_word hat.2.1) hlands.landing hlands.idle ?_ hgo
  intro st' u hst'
  have h := hscans (A ++ (B ++ C)) st' u (hwords.left.append (hBU.append hCU)) hline hst'
  rwa [hexpand] at h

include hnormal

/-- Once everything but `w` is expanded, the scan replaces each `w` in turn. -/
theorem goes_level_rest (k : Nat) :
    ∀ {A T : List Seg} {s : Scan}, T.length ≤ k → At (A ++ T) T s → Painted D S s.st →
      WordsIn U (A ++ T) → Normal D (w :: S) (A ++ T) → GoesTo E s (A ++ expandAll D S T) := by
  induction k with
  | zero =>
    intro A T s hk hat hst _ _
    have hT : T = [] := List.length_eq_zero_iff.mp (Nat.le_zero.mp hk)
    subst hT
    rw [expandAll_nil]
    obtain ⟨-, -, pre, u, -, hbuf, -⟩ := id hat
    refine ⟨s.st, u, ?_⟩
    rw [← hbuf]
    exact goes_done hat.turn_nil hat.inLine
  | succ k ih =>
    intro A T s hk hat hst hwords hidle
    rcases normal_or_first D S T with hT | ⟨T₀, v, B', C, rfl, hT₀, hv, hB'⟩
    · rw [expandAll_normal hT]
      obtain ⟨-, -, pre, u, -, hbuf, -⟩ := id hat
      refine ⟨s.st, u, ?_⟩
      rw [← hbuf]
      exact goes_all_dormant hat fun t ht =>
        hst.dormant hU (hT t ht) fun v hv => hwords v (List.mem_append_right _ (hv ▸ ht))
    · -- the only name that is painted in the rescans and not here is `w`
      have hvw : v = w := by
        have hmem : .word v ∈ A ++ (T₀ ++ .word v :: C) :=
          List.mem_append_right _ (List.mem_append_right _ List.mem_cons_self)
        rcases hidle _ hmem with hmem | hnone
        · exact (List.mem_cons.mp hmem).resolve_right hv
        · rw [hB'] at hnone
          cases hnone
      subst hvw
      have hassoc : A ++ (T₀ ++ .word v :: C) = (A ++ T₀) ++ .word v :: C := by
        rw [List.append_assoc]
      have hC : Normal D (v :: S) C := fun t ht => hidle t (List.mem_append_right _
        (List.mem_append_right _ (List.mem_cons_of_mem _ ht)))
      have hAT₀ : Normal D (v :: S) (A ++ T₀) := by
        intro t ht
        apply hidle t
        rw [hassoc]
        exact List.mem_append_left _ ht
      have hfinal : A ++ expandAll D S (T₀ ++ .word v :: C) =
          (A ++ T₀) ++ (expandAll D (v :: S) B ++ expandAll D S C) := by
        rw [expandAll_append, expandAll_normal hT₀, expandAll_cons, expandAll_unpainted hv hB,
          List.append_assoc]
      have hdorm : ∀ t ∈ T₀, Dormant s.st t := fun t ht =>
        hst.dormant hU (hT₀ t ht) fun v' hv' => hwords v'
          (List.mem_append_right _ (List.mem_append_left _ (hv' ▸ ht)))
      rw [hassoc] at hat hwords
      rw [hfinal]
      apply GoesTo.walk hat hdorm
      intro pos hat'
      apply goes_level_step hU hw hUw hB hlands hscans hat' hst hAT₀ hwords
      -- the rest of the line is as it was, and shorter
      rw [expandAll_normal hC, ← List.append_assoc, ← List.append_assoc]
      intro st' u pos' hst' hat''
      refine ih ?_ hat'' hst' ?_ ?_
      · simp only [List.length_append, List.length_cons] at hk
        omega
      · have hXU := wordsIn_expandAll hU.closed (v :: S) (hU.body hUw hB)
        refine (hwords.left.append hXU).append fun v' hv' => hwords v' ?_
        exact List.mem_append_right _ (List.mem_cons_of_mem _ hv')
      · exact (hAT₀.append hnormal).append hC

/-- From the start of a line whose first macro to expand is `w`. -/
theorem goes_level_first {T₀ C : List Seg} {st : EvalState} {u : Buf}
    (hT₀ : Normal D S T₀) (hwords : WordsIn U (T₀ ++ .word w :: C))
    (htidy : Tidy (T₀ ++ .word w :: C)) (hst : Painted D S st)
    (hC : Normal D (w :: S) (expandAll D (w :: S) C))
    (htwice : expandAll D S (expandAll D (w :: S) C) = expandAll D S C) :
    GoesTo E ⟨st, flat (T₀ ++ .word w :: C) ++ nul :: u, 0⟩
      (expandAll D S (T₀ ++ .word w :: C)) := by
  have hfinal : expandAll D S (T₀ ++ .word w :: C) =
      T₀ ++ (expandAll D (w :: S) B ++ expandAll D S C) := by
    rw [expandAll_append, expandAll_normal hT₀, expandAll_cons, expandAll_unpainted hw hB]
  have hat : At (T₀ ++ .word w :: C) (T₀ ++ .word w :: C)
      ⟨st, flat (T₀ ++ .word w :: C) ++ nul :: u, 0⟩ :=
    ⟨htidy, htidy, [], u, rfl, rfl, rfl⟩
  have hdorm : ∀ t ∈ T₀, Dormant st t := fun t ht =>
    hst.dormant hU (hT₀ t ht) fun v hv => hwords v (List.mem_append_left _ (hv ▸ ht))
  have hCU : WordsIn U C := fun v hv => hwords v (List.mem_append_right _
    (List.mem_cons_of_mem _ hv))
  rw [hfinal]
  apply GoesTo.walk hat hdorm
  intro pos hat'
  apply goes_level_step hU hw hUw hB hlands hscans hat' hst (hT₀.cons w) hwords
  rw [← List.append_assoc, ← List.append_assoc, ← htwice]
  intro st' u' pos' hst' hat''
  refine goes_level_rest hU hw hUw hB hlands hscans hnormal _ le_rfl hat'' hst' ?_ ?_
  · have hXU := wordsIn_expandAll hU.closed (w :: S) (hU.body hUw hB)
    exact (hwords.left.append hXU).append (wordsIn_expandAll hU.closed _ hCU)
  · exact ((hT₀.cons w).append hnormal).append hC

end Level

/-- A level of rescans gives the reference's line when the next one does and the
offsets are good. -/
theorem rescansTo_of_next {E : Env} {D : List Def} {U : Text → Prop} {S : List Text}
    (hU : Usable D U)
    (h : ∀ w B, w ∉ S → U w → bodyOf D w = some B →
      RescansTo E D U (w :: S) ∧ Lands D S w B ∧
        ∀ C, WordsIn U C → Normal D (w :: S) (expandAll D (w :: S) C) ∧
          expandAll D S (expandAll D (w :: S) C) = expandAll D S C) :
    RescansTo E D U S := by
  intro L st u hwords htidy hst
  rcases normal_or_first D S L with hL | ⟨T₀, w, B, C, rfl, hT₀, hw, hB⟩
  · rw [expandAll_normal hL]
    refine ⟨st, u, goes_all_dormant (L := L) (T := L) ⟨htidy, htidy, [], u, rfl, rfl, rfl⟩ ?_⟩
    exact fun t ht => hst.dormant hU (hL t ht) fun v hv => hwords v (hv ▸ ht)
  · have hUw := hwords w (List.mem_append_right _ List.mem_cons_self)
    have hCU : WordsIn U C := fun v hv => hwords v (List.mem_append_right _
      (List.mem_cons_of_mem _ hv))
    obtain ⟨hscans, hlands, hrest⟩ := h w B hw hUw hB
    exact goes_level_first hU hw hUw hB hlands hscans (hrest B (hU.body hUw hB)).1 hT₀ hwords
      htidy hst (hrest C hCU).1 (hrest C hCU).2

/-! ## Lines for which expansion keeps its place -/

/-- The offset of every macro of `U` is good, whatever else is painted. -/
def AllLand (D : List Def) (U : Text → Prop) : Prop :=
  ∀ w B S, U w → bodyOf D w = some B → w ∉ S →
    Landing D (flat B).length (flat (expandAll D (w :: S) B))

theorem rescansTo_of_acyclic {E : Env} {D : List Def} {U : Text → Prop} (hU : Usable D U)
    (hacyc : Acyclic D U) (hland : AllLand D U) : ∀ S, RescansTo E D U S := by
  intro S
  induction hn : fresh D S using Nat.strong_induction_on generalizing S with
  | _ n ih =>
    apply rescansTo_of_next hU
    intro w B hw hUw hB
    have hlt := fresh_cons hw hB
    rw [hn] at hlt
    refine ⟨ih _ hlt _ rfl, ⟨hland w B S hUw hB hw, fun _ => ?_⟩, fun C hC => ⟨?_, ?_⟩⟩
    · -- `w` does not occur in its own expansion
      have h := normal_expandAll hU.closed hacyc (w :: S) (hU.body hUw hB)
      intro t ht
      have ht' := h t ht
      cases t with
      | word v =>
        rcases ht' with hmem | hnone
        · rcases List.mem_cons.mp hmem with rfl | hmem
          · exact absurd (wordsIn_reached hB _ _ ht) (hacyc _ hUw)
          · exact .inl hmem
        · exact .inr hnone
      | lit => trivial
      | sep => trivial
      | rest => trivial
    · exact normal_expandAll hU.closed hacyc (w :: S) hC
    · exact expandAll_twice hU.closed hacyc hC

theorem rescansTo_of_one {E : Env} {D : List Def} {U : Text → Prop} (hU : Usable D U)
    {nam : Text} (hone : ∀ w B, U w → bodyOf D w = some B → w = nam) (S : List Text) :
    RescansTo E D U S := by
  -- with the one macro painted there is nothing to expand
  have hnormal : ∀ S' C, nam ∈ S' → WordsIn U C → Normal D S' C := by
    intro S' C hmem hC t ht
    rcases idle_or_macro D S' t with hidle | ⟨w, B, rfl, hw, hB⟩
    · exact hidle
    · rw [hone w B (hC w ht) hB] at hw
      exact absurd hmem hw
  have hpainted : ∀ S', nam ∈ S' → RescansTo E D U S' := by
    intro S' hmem
    apply rescansTo_of_next hU
    intro w B hw hUw hB
    rw [hone w B hUw hB] at hw
    exact absurd hmem hw
  apply rescansTo_of_next hU
  intro w B hw hUw hB
  have hmem : nam ∈ w :: S := by
    rw [hone w B hUw hB]
    exact List.mem_cons_self
  have hBeq : expandAll D (w :: S) B = B := expandAll_normal (hnormal _ B hmem (hU.body hUw hB))
  refine ⟨hpainted _ hmem, ⟨?_, ?_⟩, fun C hC => ?_⟩
  · rw [hBeq]
    refine ⟨le_rfl, ?_, ?_⟩
    · rw [List.drop_length]
      exact fun c hc => nomatch hc
    · rw [List.drop_length]
      exact fun c y hcy => nomatch hcy
  · rw [hBeq]
    exact fun h => absurd h (lt_irrefl _)
  · have hC' := hnormal (w :: S) C hmem hC
    rw [expandAll_normal hC']
    exact ⟨hC', rfl⟩

/-- The names that the line leads to. -/
inductive Used (D : List Def) (line : Text) : Text → Prop
  | line {w : Text} : .word w ∈ lex line → Used D line w
  | body {w w' : Text} : Used D line w → Mentions D w w' → Used D line w'

/-- The line and the bodies it leads to have no word right in front of a literal,
and the scan keeps its place: either no macro leads back to itself and every
expansion is at least as long as its body and has neither a quote nor a name cut
by the body's length; or all of this is about a single macro. -/
structure KeepsPlace (D : List Def) (line : Text) : Prop where
  tidy : Tidy (lex line)
  object : ∀ w, Used D line w → bodyOf D w = none → findDef D w = none
  whole : ∀ w B, Used D line w → bodyOf D w = some B → Whole B
  place : (Acyclic D (Used D line) ∧ AllLand D (Used D line)) ∨
    ∃ nam, ∀ w B, Used D line w → bodyOf D w = some B → w = nam

/-- The macros that are painted on entry. -/
def paintedNames (t : Table) : List Text :=
  (t.map Macro.nam).filter fun w => (macroFind t w).any fun m => decide (m.blue ≠ 0)

theorem painted_start (st : EvalState) :
    Painted st.macros.defs (paintedNames st.macros) st := by
  refine ⟨rfl, fun w m hm => ?_⟩
  have hmem : w ∈ st.macros.map Macro.nam :=
    List.mem_map.mpr ⟨m, List.mem_of_find?_eq_some hm, by simpa using List.find?_some hm⟩
  simp only [paintedNames, List.mem_filter, hmem, true_and, hm, Option.any_some,
    decide_eq_true_eq]

/-- An object-like macro, not painted. -/
def objectMacro (nam val : Text) : Macro := ⟨nam, some val, .object, [], 0, 0⟩

/-- `#define A B` and `#define B 12`. -/
def twoStepTable : Table := [objectMacro ['A'] ['B'], objectMacro ['B'] ['1', '2']]

theorem bodyOf_twoStep (w : Text) :
    bodyOf (Table.defs twoStepTable) w =
      if w = ['A'] then some [.word ['B']]
      else if w = ['B'] then some [.word ['1', '2']] else none := by
  by_cases hA : w = ['A']
  · subst hA
    rfl
  · by_cases hB : w = ['B']
    · subst hB
      rfl
    · have hA' : ¬['A'] = w := fun h => hA h.symm
      have hB' : ¬['B'] = w := fun h => hB h.symm
      simp [bodyOf, findDef, Table.defs, twoStepTable, objectMacro, Macro.toDef, hA, hB, hA', hB']

theorem mentions_twoStep {w w' : Text} (h : Mentions (Table.defs twoStepTable) w w') :
    (w = ['A'] ∧ w' = ['B']) ∨ (w = ['B'] ∧ w' = ['1', '2']) := by
  obtain ⟨B, hB, hmem⟩ := h
  rw [bodyOf_twoStep] at hB
  split at hB
  · cases hB
    exact .inl ⟨by assumption, by simpa using hmem⟩
  · split at hB
    · cases hB
      exact .inr ⟨by assumption, by simpa using hmem⟩
    · cases hB

theorem used_twoStep {w : Text} (h : Used (Table.defs twoStepTable) ['A', ' ', 'A'] w) :
    w = ['A'] ∨ w = ['B'] ∨ w = ['1', '2'] := by
  induction h with
  | line hw =>
    have hlex : lex ['A', ' ', 'A'] = [.word ['A'], .sep ' ', .word ['A']] := rfl
    rw [hlex] at hw
    exact .inl (by simpa using hw)
  | body _ hm _ =>
    rcases mentions_twoStep hm with ⟨-, rfl⟩ | ⟨-, rfl⟩
    · exact .inr (.inl rfl)
    · exact .inr (.inr rfl)

/-- How many replacements a name is away from a number. -/
def twoStepRank (w : Text) : Nat := if w = ['A'] then 2 else if w = ['B'] then 1 else 0

theorem twoStep_keepsPlace : KeepsPlace (Table.defs twoStepTable) ['A', ' ', 'A'] where
  tidy := by
    have hlex : lex ['A', ' ', 'A'] = [.word ['A'], .sep ' ', .word ['A']] := rfl
    rw [hlex]
    refine ⟨?_, by simp [Seg.Before]⟩
    intro s hs
    simp only [List.mem_cons, List.not_mem_nil, or_false] at hs
    rcases hs with rfl | rfl | rfl
    · exact ⟨by decide, by simp [isWordPart]⟩
    · exact ⟨by decide, by decide, by decide⟩
    · exact ⟨by decide, by simp [isWordPart]⟩
  object := by
    intro w hw hnone
    rcases used_twoStep hw with rfl | rfl | rfl
    · rw [bodyOf_twoStep] at hnone
      cases hnone
    · rw [bodyOf_twoStep] at hnone
      cases hnone
    · rfl
  whole := by
    intro w B _ hB
    rw [bodyOf_twoStep] at hB
    split at hB
    · cases hB
      exact ⟨⟨by simp [Seg.Ok, isWordPart], by simp⟩, by simp⟩
    · split at hB
      · cases hB
        exact ⟨⟨by simp [Seg.Ok, isWordPart], by simp⟩, by simp⟩
      · cases hB
  place := by
    refine .inl ⟨?_, ?_⟩
    · intro w _ hcycle
      have hrank : ∀ a b, Relation.TransGen (Mentions (Table.defs twoStepTable)) a b →
          twoStepRank b < twoStepRank a := by
        intro a b hab
        induction hab with
        | single hm => rcases mentions_twoStep hm with ⟨rfl, rfl⟩ | ⟨rfl, rfl⟩ <;> decide
        | tail _ hm ih =>
          refine lt_trans ?_ ih
          rcases mentions_twoStep hm with ⟨rfl, rfl⟩ | ⟨rfl, rfl⟩ <;> decide
      exact lt_irrefl _ (hrank w w hcycle)
    · intro w B S _ hB hS
      have hnum : ∀ S', expandAll (Table.defs twoStepTable) S' [.word ['1', '2']] =
          [.word ['1', '2']] := fun S' => expandAll_idle (.inr (bodyOf_twoStep _))
      rw [bodyOf_twoStep] at hB
      split at hB
      · cases hB
        by_cases hmem : ['B'] ∈ w :: S
        · have hidle : Idle (Table.defs twoStepTable) (w :: S) (.word ['B']) := .inl hmem
          rw [expandAll_idle hidle]
          exact ⟨le_rfl, fun c hc => (by cases hc), fun c y hcy => (by cases hcy)⟩
        · rw [expandAll_unpainted hmem (bodyOf_twoStep _), hnum]
          -- the scan goes on inside the number, behind its first digit
          refine ⟨by decide, by simp [Seg.text, isQuote], ?_⟩
          intro c y hcy _ hne
          cases hcy
          exact absurd rfl hne
      · split at hB
        · cases hB
          rw [hnum]
          exact ⟨le_rfl, fun c hc => (by cases hc), fun c y hcy => (by cases hcy)⟩
        · cases hB

/-- `#define A BB` and `#define BB b`. -/
def shrinkTable : Table := [objectMacro ['A'] ['B', 'B'], objectMacro ['B', 'B'] ['b']]

end Ucc.Cpp
