/-
  Cpp/Reference.lean --- what the expansion of object-like macros should be.

  A line is a list of segments: words, literals and single other characters.  The
  reference replaces every word that names a macro by the segments of its body,
  expanded in turn with that macro painted, and leaves everything else alone.  It
  goes over the line once and has no position to lose.

  The text of a line is not looked at again after `lex`, so the reference is a
  homomorphism on lists of segments; most of this file is about how it behaves
  when the set of painted names grows.
-/
import Ucc.Cpp.Macro

set_option autoImplicit false

namespace Ucc.Cpp

/-! ## Segments -/

/-- A piece of a line. -/
inductive Seg where
  | word (w : Text)
  /-- a string or character literal, with its quotes -/
  | lit (s : Text)
  | sep (c : Char)
  /-- a literal that is not closed: the rest of the line -/
  | rest (s : Text)
  deriving DecidableEq, Repr, Inhabited

/-- The characters of a segment. -/
def Seg.text : Seg → Text
  | .word w => w
  | .lit s => s
  | .sep c => [c]
  | .rest s => s

/-- The characters of a line. -/
def flat (T : List Seg) : Text := T.flatMap Seg.text

/-- Cut a text into segments; `n` is at least its length. -/
def lexFrom : Nat → Text → List Seg
  | 0, _ => []
  | _ + 1, [] => []
  | n + 1, c :: s =>
      if isQuote c then
        match strQuotefin2 c s with
        | none => [.rest (c :: s)]
        | some fin => .lit (c :: s.take (s.length - fin.length + 1)) :: lexFrom n fin.tail
      else if isWordPart c then .word (c :: wordOf s) :: lexFrom n (wordEnd s)
      else .sep c :: lexFrom n s

/-- Cut a line into segments. -/
def lex (s : Text) : List Seg := lexFrom s.length s

@[simp] theorem flat_nil : flat [] = [] := rfl

@[simp] theorem flat_cons (s : Seg) (T : List Seg) : flat (s :: T) = s.text ++ flat T := rfl

@[simp] theorem flat_append (T U : List Seg) : flat (T ++ U) = flat T ++ flat U :=
  List.flatMap_append

/-- Nothing is lost in cutting. -/
theorem flat_lexFrom (n : Nat) (s : Text) (hn : s.length ≤ n) : flat (lexFrom n s) = s := by
  fun_induction lexFrom n s with
  | case1 s => rw [List.length_eq_zero_iff.mp (Nat.le_zero.mp hn)]; rfl
  | case2 => rfl
  | case3 => simp [Seg.text]
  | case4 n c s hc fin hfin ih =>
    obtain ⟨front, rest, rfl, rfl⟩ := strQuotefin2_spec hfin
    have htake : (front ++ c :: rest).take ((front ++ c :: rest).length - (c :: rest).length + 1) =
        front ++ [c] := by
      have hlen : (front ++ c :: rest).length - (c :: rest).length + 1 = (front ++ [c]).length := by
        simp
      have happ : front ++ c :: rest = (front ++ [c]) ++ rest := by simp
      rw [hlen, happ, List.take_left]
    have hrest : flat (lexFrom n rest) = rest := by
      apply ih
      simp only [List.length_cons, List.length_append] at hn
      show rest.length ≤ n
      omega
    rw [htake, flat_cons]
    show (c :: (front ++ [c])) ++ flat (lexFrom n rest) = _
    rw [hrest]
    simp
  | case5 n c s _ _ ih =>
    have hlen : (wordEnd s).length ≤ s.length := (List.dropWhile_suffix isWordPart).length_le
    rw [flat_cons, ih (by simp only [List.length_cons] at hn; omega)]
    exact congrArg (List.cons c) List.takeWhile_append_dropWhile
  | case6 n c s _ _ ih =>
    rw [flat_cons, ih (by simpa using hn)]
    rfl

theorem flat_lex (s : Text) : flat (lex s) = s := flat_lexFrom s.length s le_rfl

/-! ## Well-formed lines -/

/-- What `lex` makes of a string that holds no NUL, apart from a literal whose last
character escapes the terminator. -/
def Seg.Ok : Seg → Prop
  | .word w => w ≠ [] ∧ ∀ c ∈ w, isWordPart c = true
  | .lit s => ∃ q body, s = q :: (body ++ [q]) ∧ isQuote q = true ∧ nul ∉ s ∧
      ∀ t, strQuotefin2 q (body ++ q :: t) = some (q :: t)
  | .sep c => isWordPart c = false ∧ isQuote c = false ∧ c ≠ nul
  | .rest s => ∃ q body, s = q :: body ∧ isQuote q = true ∧ nul ∉ s ∧
      ∀ t, strQuotefin2 q (body ++ nul :: t) = none

/-- `b` may follow `a`: nothing follows an unclosed literal, and a word is followed
by neither a word nor a literal. -/
def Seg.Before : Seg → Seg → Prop
  | .word _, .sep _ => True
  | .word _, _ => False
  | .rest _, _ => False
  | _, _ => True

/-- A line without a word right in front of a literal. -/
def Tidy (T : List Seg) : Prop := (∀ s ∈ T, s.Ok) ∧ T.IsChain Seg.Before

/-- A replacement list: tidy, and every literal closed. -/
def Whole (B : List Seg) : Prop := Tidy B ∧ ∀ s, .rest s ∉ B

theorem Seg.Before.of_word {a b : Seg} {w : Text} (h : a.Before (.word w)) : a.Before b := by
  cases a with
  | word => exact h.elim
  | rest => exact h.elim
  | lit => cases b <;> trivial
  | sep => cases b <;> trivial

theorem Seg.Before.word_of {a b : Seg} {w : Text} (h : Seg.Before (.word w) b)
    (ha : ∀ s, a ≠ .rest s) : a.Before b := by
  cases b with
  | sep =>
    cases a with
    | rest s => exact (ha s rfl).elim
    | word => trivial
    | lit => trivial
    | sep => trivial
  | word => exact h.elim
  | lit => exact h.elim
  | rest => exact h.elim

theorem Tidy.left {T U : List Seg} (h : Tidy (T ++ U)) : Tidy T :=
  ⟨fun s hs => h.1 s (List.mem_append_left _ hs), h.2.left_of_append⟩

theorem Tidy.right {T U : List Seg} (h : Tidy (T ++ U)) : Tidy U :=
  ⟨fun s hs => h.1 s (List.mem_append_right _ hs), h.2.right_of_append⟩

/-- A word may be replaced by a whole list of segments. -/
theorem Tidy.replace {A B C : List Seg} {w : Text} (h : Tidy (A ++ .word w :: C)) (hB : Whole B) :
    Tidy (A ++ (B ++ C)) := by
  obtain ⟨hok, hchain⟩ := h
  rw [List.isChain_append] at hchain
  obtain ⟨hA, hC, hAw⟩ := hchain
  have hwC := (List.isChain_cons.mp hC).1
  refine ⟨?_, ?_⟩
  · intro s hs
    rcases List.mem_append.mp hs with hs | hs
    · exact hok s (List.mem_append_left _ hs)
    · rcases List.mem_append.mp hs with hs | hs
      · exact hB.1.1 s hs
      · exact hok s (List.mem_append_right _ (List.mem_cons_of_mem _ hs))
  · rw [List.isChain_append]
    refine ⟨hA, ?_, ?_⟩
    · rw [List.isChain_append]
      refine ⟨hB.1.2, hC.tail, ?_⟩
      intro b hb c hc
      refine (hwC c hc).word_of fun s hs => ?_
      subst hs
      exact hB.2 s (List.mem_of_getLast? hb)
    · intro a ha b hb
      exact (hAw a ha (.word w) rfl).of_word

/-! ## The reference -/

/-- The replacement list of an object-like macro. -/
def bodyOf (D : List Def) (w : Text) : Option (List Seg) :=
  (findDef D w).bind fun d => if d.type = .object then d.val.map lex else none

/-- Expand every word that names a macro outside `S`, to the given depth. -/
def expandSegs (D : List Def) : Nat → List Text → List Seg → List Seg
  | 0, _, T => T
  | n + 1, S, T =>
      T.flatMap fun
        | .word w =>
            if w ∈ S then [.word w]
            else
              match bodyOf D w with
              | none => [.word w]
              | some B => expandSegs D n (w :: S) B
        | s => [s]

/-- The line that expansion should return, when the macros of `S` are painted. -/
def referenceLine (D : List Def) (S : List Text) (line : Text) : Text :=
  flat (expandSegs D D.length S (lex line))

/-- How many definitions are not painted. -/
def fresh (D : List Def) (S : List Text) : Nat := D.countP fun d => decide (d.nam ∉ S)

/-- The expansion to full depth. -/
def expandAll (D : List Def) (S : List Text) (T : List Seg) : List Seg :=
  expandSegs D (fresh D S) S T

theorem fresh_le (D : List Def) (S : List Text) : fresh D S ≤ D.length := List.countP_le_length

theorem bodyOf_find {D : List Def} {w : Text} {B : List Seg} (h : bodyOf D w = some B) :
    ∃ d ∈ D, d.nam = w ∧ d.type = .object ∧ d.val.map lex = some B := by
  unfold bodyOf at h
  obtain ⟨d, hd, hB⟩ := Option.bind_eq_some_iff.mp h
  split at hB
  · rename_i htype
    exact ⟨d, List.mem_of_find?_eq_some hd, by simpa using List.find?_some hd, htype, hB⟩
  · cases hB

/-- Painting one more macro leaves fewer. -/
theorem fresh_cons {D : List Def} {S : List Text} {w : Text} {B : List Seg}
    (hw : w ∉ S) (hB : bodyOf D w = some B) : fresh D (w :: S) < fresh D S := by
  obtain ⟨d, hd, hnam, -, -⟩ := bodyOf_find hB
  obtain ⟨D₁, D₂, rfl⟩ := List.append_of_mem hd
  have hle : ∀ D' : List Def, fresh D' (w :: S) ≤ fresh D' S := by
    intro D'
    apply List.countP_mono_left
    intro d' _ hd'
    simp only [List.mem_cons, not_or, decide_eq_true_eq] at hd' ⊢
    exact hd'.2
  have h₁ := hle D₁
  have h₂ := hle D₂
  have hold : decide (d.nam ∉ S) = true := by simpa [hnam] using hw
  have hnew : decide (d.nam ∉ w :: S) = false := by simp [hnam]
  unfold fresh at h₁ h₂ ⊢
  simp only [List.countP_append, List.countP_cons, hold, hnew, if_true, Bool.false_eq_true,
    if_false]
  omega

theorem bodyOf_none_of_fresh {D : List Def} {S : List Text} {w : Text} (h : fresh D S = 0)
    (hw : w ∉ S) : bodyOf D w = none := by
  cases hB : bodyOf D w with
  | none => rfl
  | some B =>
    have := fresh_cons hw hB
    omega

/-- The segments of one word of the line. -/
def expandWord (D : List Def) (n : Nat) (S : List Text) : Seg → List Seg
  | .word w =>
      if w ∈ S then [.word w]
      else
        match bodyOf D w with
        | none => [.word w]
        | some B => expandSegs D n (w :: S) B
  | s => [s]

theorem expandSegs_succ (D : List Def) (n : Nat) (S : List Text) (T : List Seg) :
    expandSegs D (n + 1) S T = T.flatMap (expandWord D n S) := by
  rw [expandSegs]
  rfl

/-- More depth than there are unpainted macros makes no difference. -/
theorem expandSegs_depth {D : List Def} (n : Nat) :
    ∀ {S : List Text} (T : List Seg), fresh D S ≤ n →
      expandSegs D (n + 1) S T = expandSegs D n S T := by
  induction n with
  | zero =>
    intro S T hn
    have hword : ∀ s, expandWord D 0 S s = [s] := by
      intro s
      cases s with
      | word w =>
        by_cases hw : w ∈ S
        · simp [expandWord, hw]
        · simp [expandWord, hw, bodyOf_none_of_fresh (Nat.le_zero.mp hn) hw]
      | lit => rfl
      | sep => rfl
      | rest => rfl
    rw [expandSegs_succ]
    show T.flatMap _ = T
    rw [funext hword, List.flatMap_singleton']
  | succ n ih =>
    intro S T hn
    rw [expandSegs_succ, expandSegs_succ]
    congr 1
    funext s
    cases s with
    | word w =>
      by_cases hw : w ∈ S
      · simp [expandWord, hw]
      · cases hB : bodyOf D w with
        | none => simp [expandWord, hw, hB]
        | some B =>
          have hlt := fresh_cons hw hB
          simp only [expandWord, hw, if_false, hB]
          exact ih B (by omega)
    | lit => rfl
    | sep => rfl
    | rest => rfl

theorem expandSegs_eq {D : List Def} {S : List Text} {n : Nat} (hn : fresh D S ≤ n)
    (T : List Seg) : expandSegs D n S T = expandAll D S T := by
  induction hn with
  | refl => rfl
  | step hle ih => rw [expandSegs_depth _ T hle, ih]

theorem referenceLine_eq (D : List Def) (S : List Text) (line : Text) :
    referenceLine D S line = flat (expandAll D S (lex line)) := by
  unfold referenceLine
  rw [expandSegs_eq (fresh_le D S)]

/-! ## One segment at a time -/

theorem expandAll_flatMap (D : List Def) (S : List Text) (T : List Seg) :
    expandAll D S T = T.flatMap (expandWord D (fresh D S) S) := by
  rw [← expandSegs_succ, expandSegs_depth _ T le_rfl]
  rfl

@[simp] theorem expandAll_nil (D : List Def) (S : List Text) : expandAll D S [] = [] := by
  rw [expandAll_flatMap]
  rfl

@[simp] theorem expandAll_append (D : List Def) (S : List Text) (T U : List Seg) :
    expandAll D S (T ++ U) = expandAll D S T ++ expandAll D S U := by
  simp only [expandAll_flatMap, List.flatMap_append]

theorem expandAll_cons (D : List Def) (S : List Text) (s : Seg) (T : List Seg) :
    expandAll D S (s :: T) = expandAll D S [s] ++ expandAll D S T :=
  expandAll_append D S [s] T

/-- A macro that is not painted becomes its body, expanded with it painted. -/
theorem expandAll_unpainted {D : List Def} {S : List Text} {w : Text} {B : List Seg} (hw : w ∉ S)
    (hB : bodyOf D w = some B) : expandAll D S [.word w] = expandAll D (w :: S) B := by
  rw [expandAll_flatMap]
  simp only [List.flatMap_cons, List.flatMap_nil, List.append_nil, expandWord, hw, if_false, hB]
  exact expandSegs_eq (fresh_cons hw hB).le B

/-- The word is painted, or names no object-like macro. -/
def Idle (D : List Def) (S : List Text) : Seg → Prop
  | .word w => w ∈ S ∨ bodyOf D w = none
  | _ => True

/-- Nothing to expand. -/
def Normal (D : List Def) (S : List Text) (T : List Seg) : Prop := ∀ s ∈ T, Idle D S s

theorem expandAll_idle {D : List Def} {S : List Text} {s : Seg} (hs : Idle D S s) :
    expandAll D S [s] = [s] := by
  rw [expandAll_flatMap]
  cases s with
  | word w =>
    rcases hs with hw | hB
    · simp [expandWord, hw]
    · simp [expandWord, hB]
  | lit => rfl
  | sep => rfl
  | rest => rfl

theorem expandAll_normal {D : List Def} {S : List Text} {T : List Seg} (h : Normal D S T) :
    expandAll D S T = T := by
  induction T with
  | nil => exact expandAll_nil D S
  | cons s T ih =>
    rw [expandAll_cons, expandAll_idle (h s List.mem_cons_self),
      ih fun s hs => h s (List.mem_cons_of_mem _ hs)]
    rfl

theorem Normal.append {D : List Def} {S : List Text} {T U : List Seg} (hT : Normal D S T)
    (hU : Normal D S U) : Normal D S (T ++ U) := by
  intro s hs
  rcases List.mem_append.mp hs with hs | hs
  · exact hT s hs
  · exact hU s hs

theorem Idle.cons {D : List Def} {S : List Text} {s : Seg} (h : Idle D S s) (w : Text) :
    Idle D (w :: S) s := by
  cases s with
  | word w' => exact h.imp_left (List.mem_cons_of_mem w)
  | lit => trivial
  | sep => trivial
  | rest => trivial

theorem Normal.cons {D : List Def} {S : List Text} {T : List Seg} (h : Normal D S T) (w : Text) :
    Normal D (w :: S) T :=
  fun s hs => (h s hs).cons w

/-- A macro is idle, or it is the body that counts. -/
theorem idle_or_macro (D : List Def) (S : List Text) (s : Seg) :
    Idle D S s ∨ ∃ w B, s = .word w ∧ w ∉ S ∧ bodyOf D w = some B := by
  cases s with
  | word w =>
    by_cases hw : w ∈ S
    · exact .inl (.inl hw)
    · cases hB : bodyOf D w with
      | none => exact .inl (.inr hB)
      | some B => exact .inr ⟨w, B, rfl, hw, hB⟩
  | lit => exact .inl trivial
  | sep => exact .inl trivial
  | rest => exact .inl trivial

/-- What holds of the segments left alone, and of a body's expansion once it holds
of the body, holds of every expansion. -/
theorem expandAll_mem {D : List Def} {P : List Text → Seg → Prop} {Q : Seg → Prop}
    (hidle : ∀ S s, Q s → Idle D S s → P S s)
    (hbody : ∀ w B s, Q (.word w) → bodyOf D w = some B → s ∈ B → Q s)
    (hstep : ∀ S w s, Q (.word w) → w ∉ S → P (w :: S) s → P S s) :
    ∀ {S : List Text} {T : List Seg}, (∀ s ∈ T, Q s) → ∀ s ∈ expandAll D S T, P S s := by
  intro S
  induction hn : fresh D S using Nat.strong_induction_on generalizing S with
  | _ n ih =>
    intro T hT s hs
    induction T with
    | nil =>
      rw [expandAll_nil] at hs
      cases hs
    | cons t T ihT =>
      rw [expandAll_cons] at hs
      rcases List.mem_append.mp hs with hs | hs
      · have ht := hT t List.mem_cons_self
        rcases idle_or_macro D S t with hidle' | ⟨w, B, rfl, hw, hB⟩
        · rw [expandAll_idle hidle', List.mem_singleton] at hs
          subst hs
          exact hidle S s ht hidle'
        · rw [expandAll_unpainted hw hB] at hs
          have hlt := fresh_cons hw hB
          rw [hn] at hlt
          exact hstep S w s ht hw
            (ih _ hlt rfl (fun s' hs' => hbody w B s' ht hB hs') s hs)
      · exact ihT (fun s' hs' => hT s' (List.mem_cons_of_mem _ hs')) hs

/-! ## The names a line leads to -/

/-- The body of `w` names `w'`. -/
def Mentions (D : List Def) (w w' : Text) : Prop := ∃ B, bodyOf D w = some B ∧ .word w' ∈ B

/-- Every word of the line is in `U`. -/
def WordsIn (U : Text → Prop) (T : List Seg) : Prop := ∀ w, .word w ∈ T → U w

/-- A set of names that is closed under mention; those that name a macro name an
object-like one with a whole replacement list. -/
structure Usable (D : List Def) (U : Text → Prop) : Prop where
  closed : ∀ w w', U w → Mentions D w w' → U w'
  object : ∀ w, U w → bodyOf D w = none → findDef D w = none
  whole : ∀ w B, U w → bodyOf D w = some B → Whole B

/-- No macro of `U` leads back to itself. -/
def Acyclic (D : List Def) (U : Text → Prop) : Prop :=
  ∀ w, U w → ¬ Relation.TransGen (Mentions D) w w

theorem WordsIn.append {U : Text → Prop} {T T' : List Seg} (hT : WordsIn U T)
    (hT' : WordsIn U T') : WordsIn U (T ++ T') := by
  intro w hw
  rcases List.mem_append.mp hw with hw | hw
  · exact hT w hw
  · exact hT' w hw

theorem WordsIn.left {U : Text → Prop} {T T' : List Seg} (h : WordsIn U (T ++ T')) :
    WordsIn U T :=
  fun w hw => h w (List.mem_append_left _ hw)

theorem Usable.body {D : List Def} {U : Text → Prop} (hU : Usable D U) {w : Text} {B : List Seg}
    (hw : U w) (hB : bodyOf D w = some B) : WordsIn U B :=
  fun w' hw' => hU.closed w w' hw ⟨B, hB, hw'⟩

/-- Expansion stays among names closed under mention. -/
theorem wordsIn_expandAll {D : List Def} {U : Text → Prop}
    (hclosed : ∀ w w', U w → Mentions D w w' → U w') (S : List Text) {T : List Seg}
    (hT : WordsIn U T) : WordsIn U (expandAll D S T) := by
  have hmem : ∀ s ∈ expandAll D S T, ∀ w, s = .word w → U w := by
    apply expandAll_mem (P := fun _ s => ∀ w, s = .word w → U w)
      (Q := fun s => ∀ w, s = .word w → U w)
    · intro S s hs _
      exact hs
    · rintro w B s hw hB hs w' rfl
      exact hclosed w w' (hw w rfl) ⟨B, hB, hs⟩
    · intro S w s _ _ hs
      exact hs
    · rintro s hs w rfl
      exact hT w hs
  exact fun w hw => hmem _ hw w rfl

theorem wordsIn_reached {D : List Def} {w : Text} {B : List Seg} (hB : bodyOf D w = some B)
    (S : List Text) : WordsIn (Relation.TransGen (Mentions D) w) (expandAll D S B) :=
  wordsIn_expandAll (fun _ _ h hm => h.tail hm) S fun _ hw' => .single ⟨B, hB, hw'⟩

/-- In an acyclic set, expansion leaves nothing to expand. -/
theorem normal_expandAll {D : List Def} {U : Text → Prop}
    (hclosed : ∀ w w', U w → Mentions D w w' → U w') (hacyc : Acyclic D U) :
    ∀ (S : List Text) {T : List Seg}, WordsIn U T → Normal D S (expandAll D S T) := by
  intro S
  induction hn : fresh D S using Nat.strong_induction_on generalizing S with
  | _ n ih =>
    intro T hT
    induction T with
    | nil =>
      rw [expandAll_nil]
      exact fun s hs => nomatch hs
    | cons t T ihT =>
      rw [expandAll_cons]
      refine Normal.append ?_ (ihT fun w hw => hT w (List.mem_cons_of_mem _ hw))
      rcases idle_or_macro D S t with hidle | ⟨w, B, rfl, hw, hB⟩
      · rw [expandAll_idle hidle]
        intro s hs
        rw [List.mem_singleton] at hs
        subst hs
        exact hidle
      · have hlt := fresh_cons hw hB
        rw [hn] at hlt
        have hUw := hT w List.mem_cons_self
        have hBU : WordsIn U B := fun w' hw' => hclosed w w' hUw ⟨B, hB, hw'⟩
        rw [expandAll_unpainted hw hB]
        intro s hs
        have hs' := ih _ hlt _ rfl hBU s hs
        cases s with
        | word w' =>
          -- `w` itself does not come back, so it need not be painted
          rcases hs' with hmem | hnone
          · rcases List.mem_cons.mp hmem with rfl | hmem
            · exact absurd (wordsIn_reached hB _ _ hs) (hacyc _ hUw)
            · exact .inl hmem
          · exact .inr hnone
        | lit => trivial
        | sep => trivial
        | rest => trivial

/-! ## Painting more names -/

theorem expandAll_congr {D : List Def} : ∀ {S S' : List Text}, (∀ w, w ∈ S ↔ w ∈ S') →
    ∀ T, expandAll D S T = expandAll D S' T := by
  intro S
  induction hn : fresh D S using Nat.strong_induction_on generalizing S with
  | _ n ih =>
    intro S' h T
    induction T with
    | nil => rw [expandAll_nil, expandAll_nil]
    | cons t T ihT =>
      rw [expandAll_cons, expandAll_cons D S', ihT]
      congr 1
      rcases idle_or_macro D S t with hidle | ⟨w, B, rfl, hw, hB⟩
      · have hidle' : Idle D S' t := by
          cases t with
          | word w => exact hidle.imp_left (h w).mp
          | lit => trivial
          | sep => trivial
          | rest => trivial
        rw [expandAll_idle hidle, expandAll_idle hidle']
      · have hlt := fresh_cons hw hB
        rw [hn] at hlt
        have hw' : w ∉ S' := fun hmem => hw ((h w).mpr hmem)
        rw [expandAll_unpainted hw hB, expandAll_unpainted hw' hB]
        refine ih _ hlt rfl (fun w' => ?_) B
        simp only [List.mem_cons, h]

/-- Painting a name that nothing leads to changes nothing. -/
theorem expandAll_unreached {D : List Def} {m : Text} : ∀ {S : List Text} {T : List Seg},
    WordsIn (fun w => ¬ Relation.ReflTransGen (Mentions D) w m) T →
      expandAll D (m :: S) T = expandAll D S T := by
  intro S
  induction hn : fresh D S using Nat.strong_induction_on generalizing S with
  | _ n ih =>
    intro T hT
    induction T with
    | nil => rw [expandAll_nil, expandAll_nil]
    | cons t T ihT =>
      rw [expandAll_cons, expandAll_cons D S, ihT fun w hw => hT w (List.mem_cons_of_mem _ hw)]
      congr 1
      rcases idle_or_macro D S t with hidle | ⟨w, B, rfl, hw, hB⟩
      · rw [expandAll_idle hidle, expandAll_idle (hidle.cons m)]
      · have hlt := fresh_cons hw hB
        rw [hn] at hlt
        have hreach := hT w List.mem_cons_self
        have hne : w ≠ m := by
          rintro rfl
          exact hreach .refl
        have hw' : w ∉ m :: S := by
          simp only [List.mem_cons, not_or]
          exact ⟨hne, hw⟩
        rw [expandAll_unpainted hw hB, expandAll_unpainted hw' hB]
        have hBU : WordsIn (fun w => ¬ Relation.ReflTransGen (Mentions D) w m) B := by
          intro w' hw' hreach'
          exact hreach (.head ⟨B, hB, hw'⟩ hreach')
        rw [← ih _ hlt rfl hBU]
        apply expandAll_congr
        intro w'
        simp only [List.mem_cons]
        tauto

/-- In an acyclic set, expanding all but one macro first makes no difference. -/
theorem expandAll_twice {D : List Def} {U : Text → Prop}
    (hclosed : ∀ w w', U w → Mentions D w w' → U w') (hacyc : Acyclic D U) {m : Text} :
    ∀ {S : List Text} {T : List Seg}, WordsIn U T →
      expandAll D S (expandAll D (m :: S) T) = expandAll D S T := by
  intro S
  induction hn : fresh D S using Nat.strong_induction_on generalizing S with
  | _ n ih =>
    intro T hT
    induction T with
    | nil => simp only [expandAll_nil]
    | cons t T ihT =>
      rw [expandAll_cons, expandAll_append, expandAll_cons D S t T,
        ihT fun w hw => hT w (List.mem_cons_of_mem _ hw)]
      congr 1
      rcases idle_or_macro D (m :: S) t with hidle | ⟨w, B, rfl, hw, hB⟩
      · rw [expandAll_idle hidle]
      · have hwS : w ∉ S := fun hmem => hw (List.mem_cons_of_mem _ hmem)
        have hlt := fresh_cons hwS hB
        rw [hn] at hlt
        have hUw := hT w List.mem_cons_self
        have hBU : WordsIn U B := fun w' hw' => hclosed w w' hUw ⟨B, hB, hw'⟩
        rw [expandAll_unpainted hw hB, expandAll_unpainted hwS hB]
        have hswap : expandAll D (w :: m :: S) B = expandAll D (m :: w :: S) B := by
          apply expandAll_congr
          intro w'
          simp only [List.mem_cons]
          tauto
        have hnoreturn : WordsIn (fun w' => ¬ Relation.ReflTransGen (Mentions D) w' w)
            (expandAll D (m :: w :: S) B) := by
          intro w' hw' hreach
          exact hacyc w hUw ((wordsIn_reached hB _ w' hw').trans_left hreach)
        rw [hswap, ← expandAll_unreached hnoreturn]
        exact ih _ hlt rfl hBU

/-! ## Expansion keeps a line tidy -/

theorem noRest_expandAll {D : List Def} {U : Text → Prop} (hU : Usable D U) (S : List Text)
    {T : List Seg} (hT : WordsIn U T) (hrest : ∀ s, .rest s ∉ T) (s : Text) :
    .rest s ∉ expandAll D S T := by
  have hmem : ∀ t ∈ expandAll D S T, t ≠ .rest s := by
    apply expandAll_mem (P := fun _ t => t ≠ .rest s)
      (Q := fun t => t ≠ .rest s ∧ ∀ w, t = .word w → U w)
    · intro S t ht _
      exact ht.1
    · rintro w B t ⟨-, hw⟩ hB ht
      refine ⟨?_, ?_⟩
      · rintro rfl
        exact (hU.whole w B (hw w rfl) hB).2 s ht
      · rintro w' rfl
        exact hU.closed w w' (hw w rfl) ⟨B, hB, ht⟩
    · intro S w t _ _ ht
      exact ht
    · intro t ht
      refine ⟨?_, ?_⟩
      · rintro rfl
        exact hrest s ht
      · rintro w rfl
        exact hT w ht
  exact fun h => hmem _ h rfl

theorem tidy_expandAll {D : List Def} {U : Text → Prop} (hU : Usable D U) :
    ∀ (S : List Text) {A T : List Seg}, WordsIn U T → Tidy (A ++ T) →
      Tidy (A ++ expandAll D S T) := by
  intro S
  induction hn : fresh D S using Nat.strong_induction_on generalizing S with
  | _ n ih =>
    intro A T hT htidy
    induction T generalizing A with
    | nil =>
      rw [expandAll_nil]
      exact htidy
    | cons t T ihT =>
      have hT' : WordsIn U T := fun w hw => hT w (List.mem_cons_of_mem _ hw)
      rw [expandAll_cons]
      rcases idle_or_macro D S t with hidle | ⟨w, B, rfl, hw, hB⟩
      · rw [expandAll_idle hidle, ← List.append_assoc]
        apply ihT hT'
        rwa [List.append_assoc]
      · have hlt := fresh_cons hw hB
        rw [hn] at hlt
        have hUw := hT w List.mem_cons_self
        have hBwhole := hU.whole w B hUw hB
        have hX : Whole (expandAll D (w :: S) B) :=
          ⟨by simpa using ih _ hlt _ rfl (A := []) (hU.body hUw hB) hBwhole.1,
            noRest_expandAll hU _ (hU.body hUw hB) hBwhole.2⟩
        rw [expandAll_unpainted hw hB, ← List.append_assoc]
        apply ihT hT'
        rw [List.append_assoc]
        exact htidy.replace hX

theorem whole_expandAll {D : List Def} {U : Text → Prop} (hU : Usable D U) (S : List Text)
    {B : List Seg} (hB : WordsIn U B) (hwhole : Whole B) : Whole (expandAll D S B) :=
  ⟨tidy_expandAll hU S (A := []) hB hwhole.1, noRest_expandAll hU S hB hwhole.2⟩

end Ucc.Cpp
