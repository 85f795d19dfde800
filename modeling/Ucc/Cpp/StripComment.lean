/-
  Cpp/StripComment.lean --- `strip_comment`, against the lexer of Cpp/Lexing.

  Source: strip_comment in src/cpp2/preproc.c.

  The loop works on the line in place; here it takes the rest of the line and
  gives the new one.  It also says of every character what it took it for, which
  the source does not write down.  The comments that are not cleared are looked at
  again: the star of their opening may end them, and the slash of their end may
  begin another one.
-/
import Mathlib.Data.List.TakeWhile
import Ucc.Cpp.Lexing

set_option autoImplicit false

namespace Ucc.Cpp

/-! ## The program -/

/-- `strip_in_block` -/
inductive StripInBlock where
  | notInBlock
  | inBlockBegin
  | inBlockEnd
  | inBlockFull
  deriving DecidableEq, Repr, Inhabited

/-- `enum comment_strip` -/
inductive CommentStrip where
  | stripAll
  | stripExceptDirective
  | stripNone
  deriving DecidableEq, Repr, Inhabited

/-- The line, what its characters were taken for, and `strip_in_block`. -/
structure Stripped where
  line : Text
  classes : List Class
  inBlock : StripInBlock
  deriving DecidableEq, Repr

/-- The loop went on behind some characters. -/
def Stripped.put (classes : List Class) (line : Text) (r : Stripped) : Stripped :=
  { r with line := line ++ r.line, classes := classes ++ r.classes }

/-- The state is one of a comment. -/
def StripInBlock.isIn (st : StripInBlock) : Bool := st == .inBlockFull || st == .inBlockBegin

/-- The comments that the switches on `strip_comments` take away. -/
def CommentStrip.cuts (mode : CommentStrip) (isDirective : Bool) : Bool :=
  match mode with
  | .stripAll => true
  | .stripExceptDirective => isDirective
  | .stripNone => false

/-- The loop of `strip_comment`; `n` bounds its rounds, and `closes` is set on the slash that
ends a comment. -/
def stripLoop (c99 : Bool) (mode : CommentStrip) (isDirective : Bool) :
    Nat → StripInBlock → Bool → Text → Except Fault Stripped
  | 0, st, _, _ => .ok ⟨[], [], st⟩
  | _, st, _, [] => .ok ⟨[], [], st⟩
  | n + 1, st, closes, c :: s =>
      let clearComments := mode == .stripAll
      if st.isIn then
        if c == '*' && s.head? == some '/' then
          if clearComments then
            (stripLoop c99 mode isDirective n .inBlockEnd false s.tail).map
              (.put [.block, .block] [' ', ' '])
          else (stripLoop c99 mode isDirective n .inBlockEnd true s).map (.put [.block] [c])
        else
          (stripLoop c99 mode isDirective n st false s).map
            (.put [.block] [if clearComments then ' ' else c])
      else if isQuote c then
        -- the scan would read what is behind the terminator
        if overruns c s then .error .crash
        else
          match strQuotefin2 c s with
          | none => .ok ⟨c :: s, List.replicate (s.length + 1) (.literal c), st⟩
          | some fin =>
              let len := s.length - fin.length + 1
              (stripLoop c99 mode isDirective n st false fin.tail).map
                (.put (List.replicate (len + 1) (.literal c)) (c :: s.take len))
      else if c99 && c == '/' && s.head? == some '/' then
        let classes := List.replicate (s.length + 1) .line
        if mode.cuts isDirective then .ok ⟨[], classes, st⟩
        else .ok ⟨c :: '*' :: s.tail ++ ['*', '/'], classes, st⟩
      else if c == '/' && s.head? == some '*' then
        if mode.cuts isDirective then
          (stripLoop c99 mode isDirective n .inBlockBegin false s.tail).map
            (.put [.block, .block] [' ', ' '])
        else (stripLoop c99 mode isDirective n .inBlockBegin false s).map (.put [.block] [c])
      else
        (stripLoop c99 mode isDirective n st false s).map
          (.put [if closes then .block else .code] [c])

/-- `is_directive` -/
def isDirectiveLine (line : Text) : Bool := (strSpcSkip line).head? == some '#'

/-- `strip_in_block` at the start of a line -/
def StripInBlock.startLine : StripInBlock → StripInBlock
  | .inBlockBegin => .inBlockFull
  | .inBlockEnd => .notInBlock
  | st => st

/-- `strip_comment` -/
def stripComment (c99 : Bool) (mode : CommentStrip) (st : StripInBlock) (line : Text) :
    Except Fault Stripped :=
  stripLoop c99 mode (isDirectiveLine line) line.length st.startLine false line

/-! ## What a line should become -/

/-- The line with its block comments blanked and its line comment cut off. -/
def blanked (line : Text) (classes : List Class) : Text :=
  ((line.zip classes).takeWhile fun (_, k) => k != .line).map fun (c, k) =>
    if k = .block then ' ' else c

/-- What is not a comment stays. -/
def Keeps (s : Text) (classes : List Class) (s' : Text) : Prop :=
  ∀ (i : Nat) (k : Class), classes[i]? = some k → k.isComment = false → s'[i]? = s[i]?

/-- The line was lexed as it should be, from the class `cur` on. -/
structure StripsAs (c99 : Bool) (mode : CommentStrip) (cur : Class) (line : Text) (r : Stripped) :
    Prop where
  classes : r.classes = (lexLine c99 cur line).1
  inBlock : r.inBlock.isIn = true ↔ (lexLine c99 cur line).2 = .block
  cleared : mode = .stripAll → r.line = blanked line r.classes
  kept : mode ≠ .stripAll → Keeps line r.classes r.line

/-- Characters that neither end a line nor lose what they are. -/
structure PassesAs (mode : CommentStrip) (line : Text) (classes : List Class) (line' : Text) :
    Prop where
  classes_length : classes.length = line.length
  length : line'.length = line.length
  no_line : .line ∉ classes
  cleared : mode = .stripAll → line' = blanked line classes
  kept : mode ≠ .stripAll → Keeps line classes line'

theorem blanked_append {a : Text} {ks : List Class} (hlen : ks.length = a.length)
    (hline : .line ∉ ks) (s : Text) (ks' : List Class) :
    blanked (a ++ s) (ks ++ ks') = blanked a ks ++ blanked s ks' := by
  have hall : ∀ x ∈ a.zip ks, (x.2 != .line) = true := by
    rintro ⟨c, k⟩ hx
    have hk := (List.of_mem_zip hx).2
    simpa using fun h : k = .line => hline (h ▸ hk)
  unfold blanked
  rw [List.zip_append hlen.symm, List.takeWhile_append_of_pos hall, List.map_append]
  congr 2
  exact (List.takeWhile_eq_self_iff.mpr hall).symm

theorem Keeps.append {a a' : Text} {ks : List Class} (h : Keeps a ks a')
    (hks : ks.length = a.length) (hlen : a'.length = a.length) {s s' : Text} {ks' : List Class}
    (h' : Keeps s ks' s') : Keeps (a ++ s) (ks ++ ks') (a' ++ s') := by
  intro i k hk hcomment
  by_cases hi : i < a.length
  · rw [List.getElem?_append_left (by omega)] at hk ⊢
    rw [List.getElem?_append_left hi]
    exact h i k hk hcomment
  · rw [List.getElem?_append_right (by omega)] at hk ⊢
    rw [List.getElem?_append_right (by omega), hlen]
    exact h' _ k (hks ▸ hk) hcomment

theorem StripsAs.put {c99 : Bool} {mode : CommentStrip} {cur cur' : Class} {s : Text} {r : Stripped}
    (h : StripsAs c99 mode cur' s r) {a a' : Text} {ks : List Class} (hpass : PassesAs mode a ks a')
    (hlex : lexLine c99 cur (a ++ s) = (lexLine c99 cur' s).map (ks ++ ·) id) :
    StripsAs c99 mode cur (a ++ s) (r.put ks a') := by
  constructor
  · rw [hlex, Stripped.put, h.classes]
    rfl
  · rw [hlex]
    exact h.inBlock
  · intro hmode
    show a' ++ r.line = blanked (a ++ s) (ks ++ r.classes)
    rw [blanked_append hpass.classes_length hpass.no_line, hpass.cleared hmode, h.cleared hmode]
  · intro hmode
    exact (hpass.kept hmode).append hpass.classes_length hpass.length (h.kept hmode)

theorem Keeps.refl (line : Text) (classes : List Class) : Keeps line classes line :=
  fun _ _ _ _ => rfl

theorem Keeps.comments {classes : List Class} (h : ∀ k ∈ classes, k.isComment = true)
    (line line' : Text) : Keeps line classes line' := by
  intro i k hk hcomment
  rw [h k (List.mem_of_getElem? hk)] at hcomment
  cases hcomment

theorem passesAs_code {mode : CommentStrip} (c : Char) : PassesAs mode [c] [.code] [c] :=
  ⟨rfl, rfl, by simp, fun _ => rfl, fun _ => .refl _ _⟩

theorem passesAs_block {mode : CommentStrip} (c : Char) :
    PassesAs mode [c] [.block] [if mode == .stripAll then ' ' else c] := by
  refine ⟨rfl, rfl, by simp, ?_, fun _ => .comments (by simp [Class.isComment]) _ _⟩
  rintro rfl
  rfl

theorem passesAs_blocks {mode : CommentStrip} (c d : Char) :
    PassesAs mode [c, d] [.block, .block] [' ', ' '] :=
  ⟨rfl, rfl, by simp, fun _ => rfl, fun _ => .comments (by simp [Class.isComment]) _ _⟩

theorem passesAs_literal {mode : CommentStrip} {s : Text} {n : Nat} (hn : n = s.length) (q : Char) :
    PassesAs mode s (List.replicate n (.literal q)) s := by
  subst hn
  refine ⟨by simp, rfl, by simp [List.mem_replicate], fun _ => ?_, fun _ => .refl _ _⟩
  induction s with
  | nil => rfl
  | cons c s ih =>
    rw [List.length_cons, List.replicate_succ]
    have hone : blanked ([c] ++ s) ([.literal q] ++ List.replicate s.length (.literal q)) =
        [c] ++ s := by
      rw [blanked_append rfl (by simp), ← ih]
      rfl
    exact hone.symm

/-! ## The lines that are lexed as they should be -/

/-- No character of a kept comment's delimiters is looked at a second time to any effect, and no
literal ends in a backslash that the line's end follows. -/
def safeLine (c99 : Bool) (mode : CommentStrip) (isDirective : Bool) : Class → Text → Bool
  | _, [] => true
  | .code, '/' :: '*' :: s =>
      !(!mode.cuts isDirective && s.head? == some '/') && safeLine c99 mode isDirective .block s
  | .code, c :: s =>
      if isQuote c then !overruns c s && safeLine c99 mode isDirective (.literal c) s
      else if c99 && c == '/' && s.head? == some '/' then true
      else safeLine c99 mode isDirective .code s
  | .literal q, '\\' :: _ :: s => safeLine c99 mode isDirective (.literal q) s
  | .literal q, c :: s =>
      safeLine c99 mode isDirective (if c == q then .code else .literal q) s
  | .block, '*' :: '/' :: s =>
      !(mode != .stripAll && (s.head? == some '*' || c99 && s.head? == some '/')) &&
        safeLine c99 mode isDirective .code s
  | .block, _ :: s => safeLine c99 mode isDirective .block s
  | .line, _ => true

variable {c99 isDirective : Bool} {mode : CommentStrip}

theorem safeLine_block {c : Char} {s : Text} (h : ¬ (c = '*' ∧ s.head? = some '/')) :
    safeLine c99 mode isDirective .block (c :: s) = safeLine c99 mode isDirective .block s := by
  rw [safeLine]
  rintro t rfl rfl
  exact h ⟨rfl, rfl⟩

theorem safeLine_code {c : Char} {s : Text} (h : ¬ (c = '/' ∧ s.head? = some '*')) :
    safeLine c99 mode isDirective .code (c :: s) =
      if isQuote c then !overruns c s && safeLine c99 mode isDirective (.literal c) s
      else if c99 && c == '/' && s.head? == some '/' then true
      else safeLine c99 mode isDirective .code s := by
  rw [safeLine]
  rintro t rfl rfl
  exact h ⟨rfl, rfl⟩

theorem safeLine_closed {q : Char} (hq : q ≠ '\\') {body : Text} (h : LitBody q body)
    (rest : Text) :
    safeLine c99 mode isDirective (.literal q) (body ++ q :: rest) =
      safeLine c99 mode isDirective .code rest := by
  induction h with
  | nil =>
    rw [List.nil_append, safeLine, if_pos (beq_self_eq_true q)]
    rintro d t rfl
    exact absurd rfl hq
  | escape d _ ih => exact ih
  | @char c s hback hquote _ ih =>
    rw [List.cons_append, safeLine, if_neg (by simpa using hquote), ih]
    rintro d t rfl
    exact absurd rfl hback

/-! ## The loop -/

/-- The slash that ends a kept comment. -/
theorem stripLoop_closes {n : Nat} {s : Text} (hstar : s.head? ≠ some '*')
    (hslash : c99 = true → s.head? ≠ some '/') :
    stripLoop c99 mode isDirective (n + 1) .inBlockEnd true ('/' :: s) =
      (stripLoop c99 mode isDirective n .inBlockEnd false s).map (.put [.block] ['/']) := by
  rw [stripLoop]
  rw [if_neg (by decide), if_neg (by decide), if_neg (by simpa using hslash),
    if_neg (by simpa using hstar)]
  rfl

/-- How the loop rewrites a line, piece by piece. -/
inductive Renders (c99 : Bool) (mode : CommentStrip) (isDirective : Bool) :
    Class → Text → Text → Prop where
  | nil (cur : Class) : Renders c99 mode isDirective cur [] []
  | code {c : Char} {s t : Text} (hquote : isQuote c = false)
      (hlex : lexLine c99 .code (c :: s) = (lexLine c99 .code s).map (.code :: ·) id)
      (hrest : Renders c99 mode isDirective .code s t) :
      Renders c99 mode isDirective .code (c :: s) (c :: t)
  | closed {q : Char} {body s t : Text} (hquote : isQuote q = true) (hbody : LitBody q body)
      (hrest : Renders c99 mode isDirective .code s t) :
      Renders c99 mode isDirective .code (q :: (body ++ q :: s)) (q :: (body ++ q :: t))
  | unclosed {q : Char} {body : Text} (hquote : isQuote q = true) (hbody : LitBody q body) :
      Renders c99 mode isDirective .code (q :: body) (q :: body)
  | cut {s : Text} (hc99 : c99 = true) (hcuts : mode.cuts isDirective = true) :
      Renders c99 mode isDirective .code ('/' :: '/' :: s) []
  | line {s : Text} (hc99 : c99 = true) (hcuts : mode.cuts isDirective = false) :
      Renders c99 mode isDirective .code ('/' :: '/' :: s) ('/' :: '*' :: s ++ ['*', '/'])
  | beginCut {s t : Text} (hrest : Renders c99 mode isDirective .block s t) :
      Renders c99 mode isDirective .code ('/' :: '*' :: s) (' ' :: ' ' :: t)
  | begin {s t : Text} (hrest : Renders c99 mode isDirective .block s t) :
      Renders c99 mode isDirective .code ('/' :: '*' :: s) ('/' :: '*' :: t)
  | block {c : Char} {s t : Text}
      (hlex : lexLine c99 .block (c :: s) = (lexLine c99 .block s).map (.block :: ·) id)
      (hrest : Renders c99 mode isDirective .block s t) :
      Renders c99 mode isDirective .block (c :: s) ((if mode == .stripAll then ' ' else c) :: t)
  | endClear {s t : Text} (hrest : Renders c99 mode isDirective .code s t) :
      Renders c99 mode isDirective .block ('*' :: '/' :: s) (' ' :: ' ' :: t)
  | endKeep {s t : Text} (hrest : Renders c99 mode isDirective .code s t) :
      Renders c99 mode isDirective .block ('*' :: '/' :: s) ('*' :: '/' :: t)

/-- What a loop in the class `cur` makes of a line. -/
def Loops (c99 : Bool) (mode : CommentStrip) (isDirective : Bool) (n : Nat) (cur : Class)
    (s : Text) : Prop :=
  ∀ st : StripInBlock, (st.isIn = true ↔ cur = .block) →
    ∃ r, stripLoop c99 mode isDirective n st false s = .ok r ∧ StripsAs c99 mode cur s r ∧
      Renders c99 mode isDirective cur s r.line

theorem loops_nil (n : Nat) (cur : Class) : Loops c99 mode isDirective n cur [] := by
  intro st hst
  refine ⟨⟨[], [], st⟩, by cases n <;> rfl, ⟨rfl, hst, fun _ => rfl, fun _ => .refl _ _⟩, .nil cur⟩

/-- A round in a comment. -/
theorem stripLoop_block {n : Nat} {st : StripInBlock} (hin : st.isIn = true) {c : Char} {s : Text}
    (h : ¬ (c = '*' ∧ s.head? = some '/')) :
    stripLoop c99 mode isDirective (n + 1) st false (c :: s) =
      (stripLoop c99 mode isDirective n st false s).map
        (.put [.block] [if mode == .stripAll then ' ' else c]) := by
  rw [stripLoop, if_pos hin, if_neg (by simpa using h)]

theorem loops_block {n : Nat} {c : Char} {s : Text} (h : ¬ (c = '*' ∧ s.head? = some '/'))
    (hrest : Loops c99 mode isDirective n .block s) :
    Loops c99 mode isDirective (n + 1) .block (c :: s) := by
  intro st hst
  obtain ⟨r, hrun, hr, hrender⟩ := hrest st hst
  refine ⟨r.put [.block] [if mode == .stripAll then ' ' else c], ?_,
    hr.put (passesAs_block c) (lexLine_block h), .block (lexLine_block h) hrender⟩
  rw [stripLoop_block (hst.mpr rfl) h, hrun]
  rfl

/-- Both characters of the end are blanked. -/
theorem loops_end_clear {n : Nat} {s : Text} (hmode : mode = .stripAll)
    (hrest : Loops c99 mode isDirective n .code s) :
    Loops c99 mode isDirective (n + 1) .block ('*' :: '/' :: s) := by
  intro st hst
  obtain ⟨r, hrun, hr, hrender⟩ := hrest .inBlockEnd (by decide)
  refine ⟨r.put [.block, .block] [' ', ' '], ?_, hr.put (passesAs_blocks '*' '/') rfl,
    .endClear hrender⟩
  rw [stripLoop, if_pos (hst.mpr rfl), if_pos (by simp)]
  rw [if_pos (by rw [hmode]; rfl), List.tail_cons, hrun]
  rfl

/-- The slash of the end is looked at once more, and nothing comes of it. -/
theorem loops_end_keep {n : Nat} {s : Text} (hmode : mode ≠ .stripAll) (hstar : s.head? ≠ some '*')
    (hslash : c99 = true → s.head? ≠ some '/') (hrest : Loops c99 mode isDirective n .code s) :
    Loops c99 mode isDirective (n + 2) .block ('*' :: '/' :: s) := by
  intro st hst
  obtain ⟨r, hrun, hr, hrender⟩ := hrest .inBlockEnd (by decide)
  refine ⟨(r.put [.block] ['/']).put [.block] ['*'], ?_, ?_, .endKeep hrender⟩
  · rw [stripLoop, if_pos (hst.mpr rfl), if_pos (by simp)]
    rw [if_neg (by simpa using hmode), stripLoop_closes hstar hslash, hrun]
    rfl
  · have hpass : PassesAs mode ['*', '/'] [.block, .block] ['*', '/'] :=
      ⟨rfl, rfl, by simp, fun h => absurd h hmode, fun _ => .refl _ _⟩
    exact hr.put hpass rfl

theorem loops_closed {n : Nat} {q : Char} (hq : isQuote q = true) {body rest : Text}
    (hbody : LitBody q body) (hover : overruns q (body ++ q :: rest) = false)
    (hfin : strQuotefin2 q (body ++ q :: rest) = some (q :: rest))
    (hrest : Loops c99 mode isDirective n .code rest) :
    Loops c99 mode isDirective (n + 1) .code (q :: (body ++ q :: rest)) := by
  intro st hst
  have hout : st.isIn = false := by simpa using hst
  obtain ⟨r, hrun, hr, hrender⟩ := hrest st hst
  have hlen : (body ++ q :: rest).length - (q :: rest).length + 1 = body.length + 1 := by simp
  have htake : (body ++ q :: rest).take (body.length + 1) = body ++ [q] := by
    rw [List.take_length_add_append]
    rfl
  refine ⟨r.put (List.replicate (body.length + 2) (.literal q)) (q :: (body ++ [q])), ?_, ?_, ?_⟩
  · rw [stripLoop, if_neg (by simp [hout]), if_pos hq, if_neg (by simp [hover])]
    simp only [hfin, hlen, htake, List.tail_cons, hrun]
    rfl
  · have hpass : PassesAs mode (q :: (body ++ [q])) (List.replicate (body.length + 2) (.literal q))
        (q :: (body ++ [q])) := passesAs_literal (by simp) q
    have htext : q :: (body ++ q :: rest) = q :: (body ++ [q]) ++ rest := by simp
    rw [htext]
    refine hr.put hpass ?_
    rw [← htext, lexLine_quoted hq hbody]
  · have hclosed := Renders.closed hq hbody hrender
    simpa [Stripped.put] using hclosed

theorem loops_unclosed {n : Nat} {q : Char} (hq : isQuote q = true) {body : Text}
    (hbody : LitBody q body) (hover : overruns q body = false) (hfin : strQuotefin2 q body = none) :
    Loops c99 mode isDirective (n + 1) .code (q :: body) := by
  intro st hst
  have hout : st.isIn = false := by simpa using hst
  have hlex : lexLine c99 .code (q :: body) = _ := lexLine_quote_unclosed hq hbody
  have hpass : PassesAs mode (q :: body) (List.replicate (body.length + 1) (.literal q))
      (q :: body) := passesAs_literal (by simp) q
  refine ⟨⟨q :: body, List.replicate (body.length + 1) (.literal q), st⟩, ?_, ?_,
    .unclosed hq hbody⟩
  · rw [stripLoop, if_neg (by simp [hout]), if_pos hq, if_neg (by simp [hover])]
    simp only [hfin]
  · exact ⟨by rw [hlex], by rw [hlex]; simp [hout], hpass.cleared, hpass.kept⟩

/-- A line comment is cut off, or becomes a block comment. -/
theorem loops_line {n : Nat} {s : Text} (hc99 : c99 = true) :
    Loops c99 mode isDirective (n + 1) .code ('/' :: '/' :: s) := by
  intro st hst
  have hout : st.isIn = false := by simpa using hst
  have hlex : lexLine c99 .code ('/' :: '/' :: s) =
      (List.replicate (s.length + 2) .line, .line) := by
    rw [lexLine_code (by simp), if_neg (by decide), if_pos (by simp [hc99]), lexLine_line]
    rfl
  have hcomment : ∀ k ∈ List.replicate (s.length + 2) Class.line, k.isComment = true := by
    intro k hk
    rw [List.eq_of_mem_replicate hk]
    rfl
  by_cases hcuts : mode.cuts isDirective = true
  · refine ⟨⟨[], List.replicate (s.length + 2) .line, st⟩, ?_, ?_, .cut hc99 hcuts⟩
    · rw [stripLoop, if_neg (by simp [hout]), if_neg (by decide), if_pos (by simp [hc99])]
      dsimp only
      rw [if_pos hcuts]
      rfl
    · exact ⟨by rw [hlex], by rw [hlex]; simp [hout],
        fun _ => by simp [blanked, List.replicate_succ], fun _ => .comments hcomment _ _⟩
  · refine ⟨⟨'/' :: '*' :: s ++ ['*', '/'], List.replicate (s.length + 2) .line, st⟩, ?_, ?_,
      .line hc99 (by simpa using hcuts)⟩
    · rw [stripLoop, if_neg (by simp [hout]), if_neg (by decide), if_pos (by simp [hc99])]
      dsimp only
      rw [if_neg hcuts]
      rfl
    · refine ⟨by rw [hlex], by rw [hlex]; simp [hout], ?_, fun _ => .comments hcomment _ _⟩
      rintro rfl
      exact absurd rfl hcuts

theorem loops_begin_cut {n : Nat} {s : Text} (hcuts : mode.cuts isDirective = true)
    (hrest : Loops c99 mode isDirective n .block s) :
    Loops c99 mode isDirective (n + 1) .code ('/' :: '*' :: s) := by
  intro st hst
  have hout : st.isIn = false := by simpa using hst
  obtain ⟨r, hrun, hr, hrender⟩ := hrest .inBlockBegin (by decide)
  refine ⟨r.put [.block, .block] [' ', ' '], ?_, hr.put (passesAs_blocks '/' '*') rfl,
    .beginCut hrender⟩
  rw [stripLoop, if_neg (by simp [hout]), if_neg (by decide), if_neg (by simp), if_pos (by simp),
    if_pos hcuts, List.tail_cons, hrun]
  rfl

/-- The star is looked at once more, as a part of the comment. -/
theorem loops_begin_keep {n : Nat} {s : Text} (hcuts : mode.cuts isDirective = false)
    (hslash : s.head? ≠ some '/') (hrest : Loops c99 mode isDirective n .block s) :
    Loops c99 mode isDirective (n + 2) .code ('/' :: '*' :: s) := by
  intro st hst
  have hout : st.isIn = false := by simpa using hst
  have hmode : mode ≠ .stripAll := by
    rintro rfl
    cases hcuts
  have hstar : ¬ ('*' = '*' ∧ s.head? = some '/') := fun h => hslash h.2
  obtain ⟨r, hrun, hr, hrender⟩ := hrest .inBlockBegin (by decide)
  have hpass : PassesAs mode ['/', '*'] [.block, .block] ['/', '*'] :=
    ⟨rfl, rfl, by simp, fun h => absurd h hmode, fun _ => .refl _ _⟩
  refine ⟨(r.put [.block] ['*']).put [.block] ['/'], ?_, hr.put hpass rfl, .begin hrender⟩
  rw [stripLoop, if_neg (by simp [hout]), if_neg (by decide), if_neg (by simp), if_pos (by simp),
    if_neg (by simp [hcuts]), stripLoop_block rfl hstar, if_neg (by simpa using hmode), hrun]
  rfl

theorem loops_code {n : Nat} {c : Char} {s : Text} (hquote : isQuote c = false)
    (hline : (c99 && c == '/' && s.head? == some '/') = false)
    (hbegin : ¬ (c = '/' ∧ s.head? = some '*')) (hrest : Loops c99 mode isDirective n .code s) :
    Loops c99 mode isDirective (n + 1) .code (c :: s) := by
  intro st hst
  have hout : st.isIn = false := by simpa using hst
  have hlex : lexLine c99 .code (c :: s) = (lexLine c99 .code s).map (.code :: ·) id := by
    rw [lexLine_code hbegin, if_neg (by simp [hquote]), if_neg (by simp [hline])]
  obtain ⟨r, hrun, hr, hrender⟩ := hrest st hst
  refine ⟨r.put [.code] [c], ?_, hr.put (passesAs_code c) hlex, .code hquote hlex hrender⟩
  rw [stripLoop, if_neg (by simp [hout]), if_neg (by simp [hquote]), if_neg (by simp [hline]),
    if_neg (by simpa using hbegin), hrun]
  rfl

theorem loops_of_safe (n : Nat) {cur : Class} {s : Text} (hcur : cur = .code ∨ cur = .block)
    (hn : s.length ≤ n) (hnul : nul ∉ s) (hsafe : safeLine c99 mode isDirective cur s = true) :
    Loops c99 mode isDirective n cur s := by
  induction n using Nat.strong_induction_on generalizing cur s with
  | _ n ih =>
    cases s with
    | nil => exact loops_nil n cur
    | cons c s =>
      obtain ⟨m, rfl⟩ : ∃ m, n = m + 1 := ⟨n - 1, by simp at hn; omega⟩
      have hlen : s.length ≤ m := by simpa using hn
      have hnuls : nul ∉ s := fun h => hnul (List.mem_cons_of_mem _ h)
      rcases hcur with rfl | rfl
      · by_cases hbegin : c = '/' ∧ s.head? = some '*'
        · obtain ⟨rfl, hhead⟩ := hbegin
          obtain ⟨t, rfl⟩ : ∃ t, s = '*' :: t := List.head?_eq_some_iff.mp hhead
          rw [safeLine, Bool.and_eq_true] at hsafe
          have hnult : nul ∉ t := fun h => hnuls (List.mem_cons_of_mem _ h)
          simp only [List.length_cons] at hlen
          cases hcuts : mode.cuts isDirective with
          | true =>
            exact loops_begin_cut hcuts (ih m (by omega) (Or.inr rfl) (by omega) hnult hsafe.2)
          | false =>
            obtain ⟨k, rfl⟩ : ∃ k, m = k + 1 := ⟨m - 1, by omega⟩
            exact loops_begin_keep hcuts (by simpa [hcuts] using hsafe.1)
              (ih k (by omega) (Or.inr rfl) (by omega) hnult hsafe.2)
        rw [safeLine_code hbegin] at hsafe
        by_cases hquote : isQuote c = true
        · rw [if_pos hquote, Bool.and_eq_true] at hsafe
          obtain ⟨hover, hsafe⟩ := hsafe
          have hover : overruns c s = false := by simpa using hover
          cases hfin : strQuotefin2 c s with
          | none => exact loops_unclosed hquote (litBody_of_none hnuls hfin hover) hover hfin
          | some fin =>
            obtain ⟨body, rest, hbody, rfl, rfl⟩ := litBody_of_some hnuls hfin
            rw [safeLine_closed (ne_backslash_of_isQuote hquote) hbody] at hsafe
            have hnulr : nul ∉ rest := fun h => hnuls (by simp [h])
            exact loops_closed hquote hbody hover hfin
              (ih m (by omega) (Or.inl rfl) (by simp at hlen; omega) hnulr hsafe)
        rw [if_neg hquote] at hsafe
        by_cases hline : (c99 && c == '/' && s.head? == some '/') = true
        · obtain ⟨⟨hc99, rfl⟩, hhead⟩ : (c99 = true ∧ c = '/') ∧ s.head? = some '/' := by
            simpa using hline
          obtain ⟨t, rfl⟩ : ∃ t, s = '/' :: t := List.head?_eq_some_iff.mp hhead
          exact loops_line hc99
        · rw [if_neg hline] at hsafe
          exact loops_code (by simpa using hquote) (by simpa using hline) hbegin
            (ih m (by omega) (Or.inl rfl) hlen hnuls hsafe)
      · by_cases hend : c = '*' ∧ s.head? = some '/'
        · obtain ⟨rfl, hhead⟩ := hend
          obtain ⟨t, rfl⟩ : ∃ t, s = '/' :: t := List.head?_eq_some_iff.mp hhead
          rw [safeLine, Bool.and_eq_true] at hsafe
          have hnult : nul ∉ t := fun h => hnuls (List.mem_cons_of_mem _ h)
          simp only [List.length_cons] at hlen
          by_cases hmode : mode = .stripAll
          · exact loops_end_clear hmode (ih m (by omega) (Or.inl rfl) (by omega) hnult hsafe.2)
          · obtain ⟨k, rfl⟩ : ∃ k, m = k + 1 := ⟨m - 1, by omega⟩
            obtain ⟨hstar, hslash⟩ : t.head? ≠ some '*' ∧ (c99 = false ∨ t.head? ≠ some '/') := by
              simpa [hmode] using hsafe.1
            have hslash : c99 = true → t.head? ≠ some '/' := fun h =>
              hslash.resolve_left (by simp [h])
            exact loops_end_keep hmode hstar hslash
              (ih k (by omega) (Or.inl rfl) (by omega) hnult hsafe.2)
        · rw [safeLine_block hend] at hsafe
          exact loops_block hend (ih m (by omega) (Or.inr rfl) hlen hnuls hsafe)

/-! ## A sequence of lines -/

/-- Every line is lexed as it should be, each from the state that the one before it left. -/
def Strips (c99 : Bool) (mode : CommentStrip) : StripInBlock → Class → List Text → Prop
  | _, _, [] => True
  | st, cur, line :: lines =>
      ∃ r, stripComment c99 mode st line = .ok r ∧ StripsAs c99 mode cur line r ∧
        Strips c99 mode r.inBlock (nextLine (lexLine c99 cur line).2) lines

/-- Every line can be, from the class that the lexer ends the one before it in. -/
def safeLines (c99 : Bool) (mode : CommentStrip) : Class → List Text → Bool
  | _, [] => true
  | cur, line :: lines =>
      safeLine c99 mode (isDirectiveLine line) cur line &&
        safeLines c99 mode (nextLine (lexLine c99 cur line).2) lines

theorem strips_of_safe (lines : List Text) (hnul : ∀ line ∈ lines, nul ∉ line) {st : StripInBlock}
    {cur : Class} (hcur : cur = .code ∨ cur = .block) (hst : st.isIn = true ↔ cur = .block)
    (hsafe : safeLines c99 mode cur lines = true) : Strips c99 mode st cur lines := by
  induction lines generalizing st cur with
  | nil => trivial
  | cons line lines ih =>
    rw [safeLines, Bool.and_eq_true] at hsafe
    obtain ⟨r, hrun, hr, -⟩ :=
      loops_of_safe line.length hcur le_rfl (hnul line List.mem_cons_self) hsafe.1 st.startLine
        (by rw [← hst]; cases st <;> decide)
    refine ⟨r, hrun, hr, ih (fun l hl => hnul l (List.mem_cons_of_mem _ hl)) ?_ ?_ hsafe.2⟩
    · cases (lexLine c99 cur line).2 <;> simp [nextLine]
    · rw [hr.inBlock]
      cases (lexLine c99 cur line).2 <;> simp [nextLine]

theorem strip_comment_run (c99 : Bool) (mode : CommentStrip) (lines : List Text)
    (hnul : ∀ line ∈ lines, nul ∉ line) (hsafe : safeLines c99 mode .code lines = true) :
    Strips c99 mode .notInBlock .code lines :=
  strips_of_safe lines hnul (Or.inl rfl) (by decide) hsafe

theorem strip_comment_run_kept :
    Strips true .stripNone .notInBlock .code ["a /* \"".toList, "x */ b // c".toList] :=
  strip_comment_run true .stripNone _ (by decide) (by decide)

/-- The code behind the comment is taken for a line comment. -/
theorem strip_comment_slash : ¬ Strips true .stripNone .notInBlock .code ["/* a *//b".toList] := by
  rintro ⟨r, hrun, hr, -⟩
  have hcode : stripComment true .stripNone .notInBlock "/* a *//b".toList =
      .ok ⟨"/* a */*b*/".toList, List.replicate 6 .block ++ List.replicate 3 .line,
        .inBlockEnd⟩ := by decide
  cases hcode.symm.trans hrun
  have hclasses := hr.classes
  revert hclasses
  decide

end Ucc.Cpp
