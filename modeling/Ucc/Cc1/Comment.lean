/-
  Cc1/Comment.lean --- comments.

  Source: nexttoken (the case of a slash), rawnextchar, peeknextchar,
  tokenise_read_line and tokenise_next_line in src/cc1/tokenise.c; the lines are those
  that next_line of src/cc1/cc1.c returns, with the end of each cut off.

  The loop that skips a comment starts with the star that opened it, and has no way out
  but the end of the comment.  Locations in the source are not kept.
-/
import Ucc.Lib.Partial

set_option autoImplicit false

namespace Ucc.Cc1.Tokens

open Ucc.Lib

/-! ## The line buffer -/

/-- A `char` that does not end a string. -/
abbrev SrcChar := { c : UInt8 // c ≠ 0 }

def star : SrcChar := ⟨42, by decide⟩
def slash : SrcChar := ⟨47, by decide⟩
def hash : SrcChar := ⟨35, by decide⟩
def newline : SrcChar := ⟨10, by decide⟩

/-- The static variables of the tokeniser; `lines` is what `in_func` still returns. -/
structure Source where
  /-- `bufferpos`; `none` is a null pointer -/
  bufferpos : Option (List SrcChar)
  lines : List (List SrcChar)
  buffereof : Bool
  inComment : Bool

/-- `tokenise_read_line`, with the lines that come after; `none` is the end. -/
def readLine (inComment : Bool) : List (List SrcChar) → Option (List SrcChar × List (List SrcChar))
  | [] => none
  | l :: lines =>
      -- a line directive
      if !inComment && l.head? == some hash then readLine inComment lines
      else some (l, lines)

namespace Source

/-- `tokenise_next_line` -/
def nextLine (s : Source) : Source :=
  if s.buffereof then { s with bufferpos := none }
  else match readLine s.inComment s.lines with
    | none => { s with bufferpos := none, lines := [], buffereof := true }
    | some (l, lines) => { s with bufferpos := some l, lines := lines }

/-- `*bufferpos`; `none` is the zero at the end of the line. -/
def atBufferpos (s : Source) : Option SrcChar := s.bufferpos.bind List.head?

theorem readLine_length {inComment : Bool} {lines lines' : List (List SrcChar)}
    {l : List SrcChar} (h : readLine inComment lines = some (l, lines')) :
    lines'.length < lines.length := by
  induction lines with
  | nil => cases h
  | cons m lines ih =>
    rw [readLine] at h
    split at h
    · exact (ih h).trans (Nat.lt_succ_self _)
    · cases h
      exact Nat.lt_succ_self _

theorem nextLine_length {s : Source} (h : s.buffereof = false)
    (hnext : s.nextLine.buffereof = false) : s.nextLine.lines.length < s.lines.length := by
  unfold nextLine at hnext ⊢
  rw [h] at hnext ⊢
  cases hread : readLine s.inComment s.lines with
  | none => simp [hread] at hnext
  | some r => exact readLine_length hread

/-- `rawnextchar`; `none` is `EOF`. -/
def rawnextchar (s : Source) : Option SrcChar × Source :=
  match _heof : s.buffereof with
  | true => (none, s)
  | false =>
      match s.bufferpos with
      | some (c :: rest) => (some c, { s with bufferpos := some rest })
      | some [] | none =>
          match _hnext : s.nextLine.buffereof with
          | true => (none, s.nextLine)
          | false => s.nextLine.rawnextchar
termination_by s.lines.length
decreasing_by exact nextLine_length _heof _hnext

theorem rawnextchar_eof {s : Source} (h : s.buffereof = true) : s.rawnextchar = (none, s) := by
  rw [rawnextchar]
  split
  · rfl
  · rename_i hno
    rw [h] at hno
    cases hno

theorem rawnextchar_cons {s : Source} {c : SrcChar} {rest : List SrcChar}
    (h : s.buffereof = false) (hbuf : s.bufferpos = some (c :: rest)) :
    s.rawnextchar = (some c, { s with bufferpos := some rest }) := by
  rw [rawnextchar]
  split
  · rename_i hyes
    rw [h] at hyes
    cases hyes
  · rw [hbuf]

theorem rawnextchar_nil {s : Source} (h : s.buffereof = false)
    (hbuf : s.bufferpos.getD [] = []) :
    s.rawnextchar =
      if s.nextLine.buffereof then (none, s.nextLine) else s.nextLine.rawnextchar := by
  conv_lhs => rw [rawnextchar]
  split
  · rename_i hyes
    rw [h] at hyes
    cases hyes
  · split
    · rename_i heq
      rw [heq] at hbuf
      cases hbuf
    all_goals
      split
      · rename_i hnext
        rw [if_pos hnext]
      · rename_i hnext
        rw [if_neg (by rw [hnext]; exact Bool.false_ne_true)]

/-- `peeknextchar` -/
def peeknextchar (s : Source) : Option SrcChar × Source :=
  let s := if s.bufferpos.isNone then s.nextLine else s
  if s.buffereof then (none, s) else (s.atBufferpos, s)

end Source

/-! ## The case of a slash -/

/-- What `die_at` says. -/
inductive LexError where
  | noEndToComment
  deriving DecidableEq

/-- The loop over a comment, for a number of turns.  `break` is not in it, so what comes
after it, the error, is not reached. -/
def commentLoop : Nat → Source → Partial LexError Source
  | 0, _ => .deep
  | n + 1, s =>
      let (nextc, s) := s.rawnextchar
      if nextc = some star ∧ s.atBufferpos = some slash then
        -- "eat the /"
        pure { s.rawnextchar.2 with inComment := false }
      else commentLoop n s

/-- What a slash is. -/
inductive Slash where
  /-- a comment; `nexttoken` is called again -/
  | comment (s : Source)
  /-- `token_divide` -/
  | divide (s : Source)

/-- `nexttoken`, after it has read a slash. -/
def nexttokenSlash (n : Nat) (s : Source) : Partial LexError Slash :=
  let (c, s) := s.peeknextchar
  if c = some star then do
    let s ← commentLoop n { s with inComment := true }
    pure (.comment s)
  else if c = some slash then pure (.comment s.nextLine)
  else pure (.divide s)

/-! ## Where a comment ends -/

/-- What is left to read, with the ends of the lines. -/
def Source.text (s : Source) : List SrcChar :=
  s.bufferpos.getD [] ++ s.lines.flatMap (newline :: ·)

/-- `rest` comes after the first `*/`. -/
def CommentEnd (t rest : List SrcChar) : Prop :=
  ∃ body, t = body ++ star :: slash :: rest ∧
    ∀ body' rest', t = body' ++ star :: slash :: rest' → body.length ≤ body'.length

/-- What comes after the first `*/`. -/
def afterEnd : List SrcChar → Option (List SrcChar)
  | [] => none
  | c :: t => if c = star ∧ t.head? = some slash then some t.tail else afterEnd t

theorem afterEnd_eq_none {t : List SrcChar} :
    afterEnd t = none ↔ ∀ body rest, t ≠ body ++ star :: slash :: rest := by
  induction t with
  | nil => simp [afterEnd]
  | cons c t ih =>
    rw [afterEnd]
    split
    · rename_i h
      obtain ⟨rfl, hslash⟩ := h
      cases t with
      | nil => cases hslash
      | cons d t =>
        cases hslash
        simp only [reduceCtorEq, false_iff, not_forall, not_not]
        exact ⟨[], t, rfl⟩
    · rename_i h
      rw [ih]
      constructor
      · rintro hno (_ | ⟨b, body⟩) rest heq
        · obtain ⟨rfl, rfl⟩ := List.cons.inj heq
          exact h ⟨rfl, rfl⟩
        · exact hno body rest (List.cons.inj heq).2
      · intro hno body rest heq
        exact hno (c :: body) rest (by rw [heq, List.cons_append])

theorem commentEnd_of_afterEnd {t rest : List SrcChar} (h : afterEnd t = some rest) :
    CommentEnd t rest := by
  induction t with
  | nil => cases h
  | cons c t ih =>
    rw [afterEnd] at h
    split at h
    · rename_i hend
      obtain ⟨rfl, hslash⟩ := hend
      cases h
      cases t with
      | nil => cases hslash
      | cons d t =>
        cases hslash
        exact ⟨[], rfl, fun _ _ _ => Nat.zero_le _⟩
    · rename_i hno
      obtain ⟨body, rfl, hfirst⟩ := ih h
      refine ⟨c :: body, rfl, ?_⟩
      rintro (_ | ⟨b, body'⟩) rest' heq
      · obtain ⟨rfl, htail⟩ := List.cons.inj heq
        exact absurd ⟨rfl, by rw [htail]; rfl⟩ hno
      · exact Nat.succ_le_succ (hfirst body' rest' (List.cons.inj heq).2)

theorem CommentEnd.unique {t rest rest' : List SrcChar} (h : CommentEnd t rest)
    (h' : CommentEnd t rest') : rest = rest' := by
  obtain ⟨body, rfl, hfirst⟩ := h
  obtain ⟨body', heq, hfirst'⟩ := h'
  have hlen : body.length = body'.length :=
    le_antisymm (hfirst body' rest' heq) (hfirst' body rest rfl)
  simpa using (List.append_inj heq hlen).2

theorem commentEnd_iff {t rest : List SrcChar} : CommentEnd t rest ↔ afterEnd t = some rest := by
  refine ⟨fun h => ?_, commentEnd_of_afterEnd⟩
  cases hafter : afterEnd t with
  | none =>
    obtain ⟨body, rfl, -⟩ := h
    exact absurd rfl (afterEnd_eq_none.mp hafter body rest)
  | some r => rw [(commentEnd_of_afterEnd hafter).unique h]

/-- The end of a line is not in the end of a comment. -/
theorem afterEnd_newline (t : List SrcChar) : afterEnd (newline :: t) = afterEnd t := by
  rw [afterEnd, if_neg]
  rintro ⟨h, -⟩
  exact absurd h (by decide)

/-! ## The loop -/

/-- In a comment, a line is left to read in the buffer. -/
structure Source.Inside (s : Source) : Prop where
  buffereof : s.buffereof = false
  inComment : s.inComment = true

/-- What `rawnextchar` does in a comment. -/
structure Source.Reads (s : Source) (c : SrcChar) (s' : Source) : Prop where
  eq : s.rawnextchar = (some c, s')
  inside : s'.Inside
  some_bufferpos : s'.bufferpos.isSome = true
  afterEnd_eq : afterEnd s.text = afterEnd (c :: s'.text)
  length_lt : s'.text.length < s.text.length

theorem Source.text_nextLine {s : Source} {l : List SrcChar} {lines : List (List SrcChar)}
    (hbuf : s.bufferpos.getD [] = []) (hlines : s.lines = l :: lines) :
    s.text = newline :: { s with bufferpos := some l, lines := lines }.text := by
  rw [Source.text, hbuf, hlines, List.flatMap_cons]
  rfl

theorem Source.Inside.nextLine_nil {s : Source} (h : s.Inside) (hlines : s.lines = []) :
    s.nextLine = { s with bufferpos := none, lines := [], buffereof := true } := by
  simp [Source.nextLine, h.buffereof, hlines, readLine]

theorem Source.Inside.nextLine_cons {s : Source} (h : s.Inside) {l : List SrcChar}
    {lines : List (List SrcChar)} (hlines : s.lines = l :: lines) :
    s.nextLine = { s with bufferpos := some l, lines := lines } := by
  simp [Source.nextLine, h.buffereof, h.inComment, hlines, readLine]

theorem Source.Inside.reads_cons {s : Source} (h : s.Inside) {c : SrcChar}
    (rest : List SrcChar) (hbuf : s.bufferpos = some (c :: rest)) :
    s.Reads c { s with bufferpos := some rest } where
  eq := Source.rawnextchar_cons h.buffereof hbuf
  inside := ⟨h.buffereof, h.inComment⟩
  some_bufferpos := rfl
  afterEnd_eq := by rw [Source.text, hbuf]; rfl
  length_lt := by
    rw [Source.text, Source.text, hbuf]
    exact Nat.lt_succ_self _

/-- One character, or the end of the input.  The induction is on the lines. -/
theorem Source.Inside.rawnextchar {s : Source} (h : s.Inside) :
    (∃ c s', s.Reads c s') ∨
      (s.rawnextchar.1 = none ∧ s.rawnextchar.2.buffereof = true ∧ afterEnd s.text = none) := by
  induction hlines : s.lines generalizing s with
  | nil =>
    cases hbuf : s.bufferpos.getD [] with
    | cons c rest =>
      refine Or.inl ⟨c, _, h.reads_cons rest ?_⟩
      cases hs : s.bufferpos with
      | none => rw [hs] at hbuf; cases hbuf
      | some b => rw [hs] at hbuf; exact congrArg some hbuf
    | nil =>
      refine Or.inr ?_
      rw [Source.rawnextchar_nil h.buffereof hbuf, h.nextLine_nil hlines, Source.text, hbuf, hlines]
      exact ⟨rfl, rfl, rfl⟩
  | cons l lines ih =>
    cases hbuf : s.bufferpos.getD [] with
    | cons c rest =>
      refine Or.inl ⟨c, _, h.reads_cons rest ?_⟩
      cases hs : s.bufferpos with
      | none => rw [hs] at hbuf; cases hbuf
      | some b => rw [hs] at hbuf; exact congrArg some hbuf
    | nil =>
      have hnext := h.nextLine_cons hlines
      have hraw : s.rawnextchar = s.nextLine.rawnextchar := by
        rw [Source.rawnextchar_nil h.buffereof hbuf, if_neg]
        rw [hnext, h.buffereof]
        exact Bool.false_ne_true
      have htext := Source.text_nextLine hbuf hlines
      rw [← hnext] at htext
      have hinside : s.nextLine.Inside := by
        rw [hnext]
        exact ⟨h.buffereof, h.inComment⟩
      rw [hraw, htext, afterEnd_newline]
      rcases ih hinside (by rw [hnext]) with ⟨c, s', hreads⟩ | hend
      · refine Or.inl ⟨c, s', hraw.trans hreads.eq, hreads.inside, hreads.some_bufferpos, ?_, ?_⟩
        · rw [htext, afterEnd_newline, hreads.afterEnd_eq]
        · rw [htext]
          exact hreads.length_lt.trans (Nat.lt_succ_self _)
      · exact Or.inr hend

/-- The character behind the one that was read. -/
theorem Source.head?_text {s : Source} (h : s.bufferpos.isSome = true) {c : SrcChar}
    (hc : c ≠ newline) : s.text.head? = some c ↔ s.atBufferpos = some c := by
  obtain ⟨b, hb⟩ := Option.isSome_iff_exists.mp h
  rw [Source.text, Source.atBufferpos, hb]
  cases b with
  | cons d b => rfl
  | nil =>
    cases s.lines with
    | nil => simp
    | cons l lines => simp [Ne.symm hc]

/-- After the end of the input the loop goes on. -/
theorem commentLoop_eof (n : Nat) {s : Source} (h : s.buffereof = true) :
    commentLoop n s = .deep := by
  induction n with
  | zero => rfl
  | succ n ih =>
    rw [commentLoop, Source.rawnextchar_eof h]
    simpa [star] using ih

/-- The end of the comment. -/
theorem commentLoop_end (n : Nat) {s s' : Source} (hreads : s.Reads star s')
    (hslash : s'.atBufferpos = some slash) :
    ∃ s'', commentLoop (n + 1) s = pure s'' ∧ s''.text = s'.text.tail ∧ s''.inComment = false := by
  obtain ⟨b, hb⟩ := Option.isSome_iff_exists.mp hreads.some_bufferpos
  rw [Source.atBufferpos, hb] at hslash
  obtain ⟨rest, rfl⟩ : ∃ rest, b = slash :: rest := List.head?_eq_some_iff.mp hslash
  refine ⟨{ s' with bufferpos := some rest, inComment := false }, ?_, ?_, rfl⟩
  · rw [commentLoop, hreads.eq]
    simp only [Source.atBufferpos, hb, Option.bind_some, List.head?_cons, and_self, if_true,
      Source.rawnextchar_cons hreads.inside.buffereof hb]
  · rw [Source.text, Source.text, hb]
    rfl

/-- Any other character. -/
theorem commentLoop_next (n : Nat) {s s' : Source} {c : SrcChar} (hreads : s.Reads c s')
    (hno : ¬ (c = star ∧ s'.atBufferpos = some slash)) :
    commentLoop (n + 1) s = commentLoop n s' := by
  rw [commentLoop, hreads.eq]
  simp only [Option.some.injEq, if_neg hno]

/-- The loop comes to the end of the comment, or goes on. -/
theorem commentLoop_spec (n : Nat) {s : Source} (h : s.Inside) :
    (afterEnd s.text = none → commentLoop n s = .deep) ∧
    (s.text.length < n → ∀ rest, afterEnd s.text = some rest →
      ∃ s', commentLoop n s = pure s' ∧ s'.text = rest ∧ s'.inComment = false) := by
  induction n generalizing s with
  | zero => exact ⟨fun _ => rfl, fun hn => absurd hn (Nat.not_lt_zero _)⟩
  | succ n ih =>
    rcases h.rawnextchar with ⟨c, s', hreads⟩ | ⟨hnone, heof, hend⟩
    · have hhead : s'.text.head? = some slash ↔ s'.atBufferpos = some slash :=
        Source.head?_text hreads.some_bufferpos (by decide)
      rw [hreads.afterEnd_eq, afterEnd]
      by_cases hfound : c = star ∧ s'.text.head? = some slash
      · rw [if_pos hfound]
        obtain ⟨rfl, hslash⟩ := hfound
        refine ⟨fun hno => (nomatch hno), fun _ rest hrest => ?_⟩
        cases hrest
        exact commentLoop_end n hreads (hhead.mp hslash)
      · rw [if_neg hfound, commentLoop_next n hreads (by rwa [← hhead])]
        obtain ⟨hdeep, hret⟩ := ih hreads.inside
        exact ⟨hdeep, fun hn => hret (by have := hreads.length_lt; omega)⟩
    · rw [hend, commentLoop]
      refine ⟨fun _ => ?_, fun _ _ hrest => (nomatch hrest)⟩
      simpa [hnone, star] using commentLoop_eof n heof

theorem commentLoop_grows (s : Source) : Grows fun n => commentLoop n s := by
  intro n
  induction n generalizing s with
  | zero => exact .inl rfl
  | succ n ih =>
    show (commentLoop (n + 1) s).Le (commentLoop (n + 2) s)
    rw [commentLoop, commentLoop]
    dsimp only
    split
    · exact .refl _
    · exact ih _

/-! ## Comments -/

/-- A slash was read, and a star comes next, with `t` after it on the line. -/
def opened (t : List SrcChar) (lines : List (List SrcChar)) : Source :=
  ⟨some (star :: t), lines, false, false⟩

/-- The same, where the loop starts. -/
def skipping (t : List SrcChar) (lines : List (List SrcChar)) : Source :=
  ⟨some (star :: t), lines, false, true⟩

/-- What comes after the star that opens the comment. -/
def afterStar (t : List SrcChar) (lines : List (List SrcChar)) : List SrcChar :=
  t ++ lines.flatMap (newline :: ·)

/-- A comment ends where it does in C, or there is an error if it does not end. -/
structure LexedLikeC (t : List SrcChar) (lines : List (List SrcChar)) : Prop where
  halts : Halts fun n => nexttokenSlash n (opened t lines)
  resumes : ∀ rest, CommentEnd (afterStar t lines) rest → ∃ n s,
    nexttokenSlash n (opened t lines) = pure (.comment s) ∧ s.text = rest ∧ s.inComment = false
  unterminated : (∀ rest, ¬ CommentEnd (afterStar t lines) rest) →
    ∃ n, nexttokenSlash n (opened t lines) = .die .noEndToComment

section Opened

variable (t : List SrcChar) (lines : List (List SrcChar))

theorem nexttokenSlash_opened (n : Nat) :
    nexttokenSlash n (opened t lines) =
      commentLoop n (skipping t lines) >>= fun s => pure (.comment s) := rfl

theorem nexttokenSlash_grows : Grows fun n => nexttokenSlash n (opened t lines) := fun n =>
  (commentLoop_grows _ n).bind fun _ => .refl _

/-- The loop starts with the star that opened the comment. -/
theorem inside_skipping : (skipping t lines).Inside := ⟨rfl, rfl⟩

variable {t lines}

theorem nexttokenSlash_deep (h : afterEnd (star :: afterStar t lines) = none) (n : Nat) :
    nexttokenSlash n (opened t lines) = .deep := by
  rw [nexttokenSlash_opened, (commentLoop_spec n (inside_skipping t lines)).1 h]
  rfl

theorem nexttokenSlash_ends {rest : List SrcChar}
    (h : afterEnd (star :: afterStar t lines) = some rest) :
    ∃ n s, nexttokenSlash n (opened t lines) = pure (.comment s) ∧ s.text = rest ∧
      s.inComment = false := by
  obtain ⟨s, hloop, htext, hin⟩ :=
    (commentLoop_spec _ (inside_skipping t lines)).2 (Nat.lt_succ_self _) rest h
  refine ⟨(skipping t lines).text.length + 1, s, ?_, htext, hin⟩
  rw [nexttokenSlash_opened, hloop]
  rfl

/-- A slash after the star ends the comment. -/
theorem afterEnd_opened {a : List SrcChar} (h : a.head? = some slash) :
    afterEnd (star :: a) = some a.tail := by rw [afterEnd, if_pos ⟨rfl, h⟩]

theorem afterEnd_star {a : List SrcChar} (h : a.head? ≠ some slash) :
    afterEnd (star :: a) = afterEnd a := by rw [afterEnd, if_neg fun h' => h h'.2]

/-- A comment that a slash after the star ends goes on in C. -/
theorem CommentEnd.ne_tail {a rest : List SrcChar} (h : CommentEnd a rest)
    (hslash : a.head? = some slash) : rest ≠ a.tail := by
  obtain ⟨body, rfl, -⟩ := h
  cases body with
  | nil => exact absurd (Option.some.inj hslash) (by decide)
  | cons c body =>
    intro heq
    have hlen := congrArg List.length heq
    simp only [List.cons_append, List.tail_cons, List.length_append, List.length_cons] at hlen
    omega

theorem not_lexedLikeC_slash (hslash : (afterStar t lines).head? = some slash) :
    ¬ LexedLikeC t lines := by
  intro h
  obtain ⟨m, s, hends, htext, -⟩ := nexttokenSlash_ends (afterEnd_opened hslash)
  have hgrows := nexttokenSlash_grows t lines
  by_cases hend : ∃ rest, CommentEnd (afterStar t lines) rest
  · obtain ⟨rest, hrest⟩ := hend
    obtain ⟨n, s', hres, htext', -⟩ := h.resumes rest hrest
    have heq : Slash.comment s = .comment s' := Ret.unique hgrows ⟨m, hends⟩ ⟨n, hres⟩
    cases heq
    exact hrest.ne_tail hslash (htext'.symm.trans htext)
  · obtain ⟨n, herror⟩ := h.unterminated fun rest hrest => hend ⟨rest, hrest⟩
    have hmax := hgrows.le (le_max_left m n) hends
    have hsame := hgrows.mono (le_max_right m n)
    rcases hsame with hdeep | hsame
    · exact Partial.die_ne_deep _ (herror.symm.trans hdeep)
    · exact Partial.die_ne_pure _ _ (herror.symm.trans (hsame.trans hmax))

/-- A comment is lexed as in C if it ends, and no slash comes right after its first star. -/
theorem nexttoken_comment_iff (t : List SrcChar) (lines : List (List SrcChar)) :
    LexedLikeC t lines ↔
      (∃ rest, CommentEnd (afterStar t lines) rest) ∧
        (afterStar t lines).head? ≠ some slash := by
  constructor
  · intro h
    have hslash : (afterStar t lines).head? ≠ some slash := fun hslash =>
      not_lexedLikeC_slash hslash h
    refine ⟨?_, hslash⟩
    by_contra hno
    have hnone : afterEnd (afterStar t lines) = none := by
      rw [Option.eq_none_iff_forall_ne_some]
      exact fun rest hrest => hno ⟨rest, commentEnd_of_afterEnd hrest⟩
    obtain ⟨n, hn⟩ := h.halts
    exact hn (nexttokenSlash_deep (by rw [afterEnd_star hslash, hnone]) n)
  · rintro ⟨⟨rest, hrest⟩, hslash⟩
    have hafter : afterEnd (star :: afterStar t lines) = some rest := by
      rw [afterEnd_star hslash]
      exact commentEnd_iff.mp hrest
    obtain ⟨n, s, hends, htext, hin⟩ := nexttokenSlash_ends hafter
    refine ⟨⟨n, ?_⟩, fun rest' hrest' => ⟨n, s, hends, ?_, hin⟩, fun hno => absurd hrest (hno rest)⟩
    · show nexttokenSlash n (opened t lines) ≠ .deep
      rw [hends]
      exact Partial.pure_ne_deep _
    · rw [htext, hrest.unique hrest']

/-- After `/*`, the end of the input; and `/*/ */`. -/
theorem nexttoken_comment_wrong :
    ¬ LexedLikeC [] [] ∧ ¬ LexedLikeC [slash, star, slash] [] := by
  constructor
  · intro h
    obtain ⟨n, hn⟩ := h.halts
    exact hn (nexttokenSlash_deep (by decide) n)
  · exact not_lexedLikeC_slash rfl

end Opened

end Ucc.Cc1.Tokens
