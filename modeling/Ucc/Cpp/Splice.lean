/-
  Cpp/Splice.lean --- physical lines to logical lines.

  Source: read_line, expand_trigraphs, splice_lines and the loop of preprocess in
  src/cpp2/preproc.c.

  `splice_lines` calls itself for the line behind a continuation.  It owes an
  empty line for each, which `n_nls` counts and the calls that follow deliver.
  At the end of the file it also ends the loop of `preprocess`, and what is owed
  then is lost.
-/
import Ucc.Cpp.Text
import Ucc.Lib.Partial

set_option autoImplicit false

namespace Ucc.Cpp

open Ucc.Lib Ucc.Lib.Partial

/-! ## The program -/

/-- The lines left of each open file, the innermost first, and the empty lines owed. -/
structure Reader where
  files : List (List Text)
  nNls : Nat

/-- `read_line`.  At its end a file is closed and the one that includes it is read; there is no
reading on behind the end of the outermost one. -/
def readLine : List (List Text) → Except Fault (Option Text × List (List Text))
  | [] => .error .crash
  | (line :: f) :: files => .ok (some line, f :: files)
  | [[]] => .ok (none, [])
  | [] :: f :: files => readLine (f :: files)

/-- The `map` of `expand_trigraphs` -/
def trigraph : Char → Option Char
  | '(' => some '['
  | ')' => some ']'
  | '<' => some '{'
  | '>' => some '}'
  | '=' => some '#'
  | '/' => some '\\'
  | '\'' => some '^'
  | '!' => some '|'
  | '-' => some '~'
  | _ => none

/-- `expand_trigraphs` -/
def expandTrigraphs : Text → Text
  | '?' :: '?' :: d :: rest =>
      match trigraph d with
      | some e => e :: expandTrigraphs rest
      | none => '?' :: expandTrigraphs ('?' :: d :: rest)
  | c :: s => c :: expandTrigraphs s
  | [] => []

/-- `strrchr(line, '\\')`: what stands in front of the last backslash, and what behind. -/
def lastBackslash : Text → Option (Text × Text)
  | [] => none
  | c :: s =>
      match lastBackslash s with
      | some (front, back) => some (c :: front, back)
      | none => if c = '\\' then some ([], s) else none

/-- The line in front of its continuation, if it ends in one. -/
def continued (line : Text) : Option Text :=
  match lastBackslash line with
  | none => none
  | some (front, back) => if strSpcSkip back = [] then some front else none

/-- `splice_lines`: the line, `*peof` and the new state; the number bounds the depth. -/
def spliceLines (trigraphs : Bool) :
    Nat → Reader → Bool → Partial Fault (Option Text × Bool × Reader)
  | 0, _, _ => deep
  | n + 1, st, peof =>
      if st.nNls ≠ 0 then pure (some [], peof, { st with nNls := st.nNls - 1 })
      else do
        let (line, files) ← Partial.ofExcept (readLine st.files)
        match line with
        | none => pure (none, true, { st with files })
        | some line =>
            let line := if trigraphs then expandTrigraphs line else line
            match continued line with
            | none => pure (some line, peof, { st with files })
            | some front => do
                let (next, peof, st) ← spliceLines trigraphs n { st with files } peof
                match next with
                | some next => pure (some (front ++ next), peof, { st with nNls := st.nNls + 1 })
                | none => pure (some front, true, st)

/-- The lines that the loop of `preprocess` gets. -/
def delivered (trigraphs : Bool) : Nat → Reader → Bool → Partial Fault (List Text)
  | 0, _, _ => deep
  | n + 1, st, eof =>
      if eof then pure []
      else do
        let (line, eof, st) ← spliceLines trigraphs n st eof
        match line with
        | none => pure []
        | some line => (line :: ·) <$> delivered trigraphs n st eof

/-! ## Logical lines -/

/-- The lines that a continuation holds together. -/
def groups : List Text → List (List Text)
  | [] => []
  | line :: lines =>
      if (continued line).isNone then [line] :: groups lines
      else
        match groups lines with
        | [] => [[line]]
        | g :: gs => (line :: g) :: gs

/-- A group as one line. -/
def joined (g : List Text) : Text := g.flatMap fun line => (continued line).getD line

/-- Each group as one line, with empty lines for the others. -/
def logicalLines (lines : List Text) : List Text :=
  (groups lines).flatMap fun g => joined g :: List.replicate (g.length - 1) []

/-- The physical lines of the open files. -/
def physicalLines (trigraphs : Bool) (files : List (List Text)) : List Text :=
  files.flatten.map fun line => if trigraphs then expandTrigraphs line else line

/-! ## Reading -/

variable {trigraphs : Bool}

theorem readLine_cons {files : List (List Text)} {line : Text} {lines : List Text}
    (h : physicalLines trigraphs files = line :: lines) :
    ∃ raw files', readLine files = .ok (some raw, files') ∧ files' ≠ [] ∧
      (if trigraphs then expandTrigraphs raw else raw) = line ∧
      physicalLines trigraphs files' = lines := by
  fun_induction readLine files with
  | case1 => cases h
  | case2 raw f files =>
    obtain ⟨hline, hlines⟩ := List.cons.inj h
    exact ⟨raw, f :: files, rfl, List.cons_ne_nil _ _, hline, hlines⟩
  | case3 => cases h
  | case4 f files ih => exact ih h

theorem readLine_nil {files : List (List Text)} (hne : files ≠ [])
    (h : physicalLines trigraphs files = []) : readLine files = .ok (none, []) := by
  fun_induction readLine files with
  | case1 => exact absurd rfl hne
  | case2 raw f files => cases h
  | case3 => rfl
  | case4 f files ih => exact ih (List.cons_ne_nil _ _) h

/-! ## A group -/

/-- Lines that end in a continuation, and a last one; `unfinished` when that one does too. -/
inductive Group : Bool → List Text → Prop where
  | last (line : Text) : Group (continued line).isSome [line]
  | cons {line : Text} {unfinished : Bool} {g : List Text} (hline : (continued line).isSome)
      (hg : Group unfinished g) : Group unfinished (line :: g)

theorem Group.length_pos {unfinished : Bool} {g : List Text} (h : Group unfinished g) :
    0 < g.length := by
  cases h <;> simp

/-- The lines start with a group, which only the end of the file leaves unfinished. -/
theorem exists_group (lines : List Text) (hne : lines ≠ []) :
    (∃ g rest, Group false g ∧ lines = g ++ rest) ∨ Group true lines := by
  induction lines with
  | nil => exact absurd rfl hne
  | cons line lines ih =>
    cases hline : (continued line).isSome with
    | false => exact Or.inl ⟨[line], lines, hline ▸ .last line, rfl⟩
    | true =>
      cases lines with
      | nil => exact Or.inr (hline ▸ .last line)
      | cons next lines =>
        rcases ih (List.cons_ne_nil _ _) with ⟨g, rest, hg, heq⟩ | hg
        · exact Or.inl ⟨line :: g, rest, .cons hline hg, by rw [heq]; rfl⟩
        · exact Or.inr (.cons hline hg)

theorem groups_append {unfinished : Bool} {g : List Text} (hg : Group unfinished g)
    {rest : List Text} (hend : unfinished = true → rest = []) : groups (g ++ rest) = g :: groups rest := by
  induction hg with
  | last line =>
    cases hline : continued line with
    | none => simp [groups, hline]
    | some front =>
      obtain rfl := hend (by simp [hline])
      simp [groups, hline]
  | @cons line unfinished g hline _ ih =>
    obtain ⟨front, hfront⟩ := Option.isSome_iff_exists.mp hline
    simp [groups, hfront, ih hend]

theorem spliceLines_nil {files : List (List Text)} (hne : files ≠ [])
    (h : physicalLines trigraphs files = []) (n : Nat) (eof : Bool) :
    spliceLines trigraphs (n + 1) ⟨files, 0⟩ eof = pure (none, true, ⟨[], 0⟩) := by
  rw [spliceLines, if_neg (by simp), readLine_nil hne h]
  rfl

theorem spliceLines_last {files files' : List (List Text)} {raw line : Text}
    (hread : readLine files = .ok (some raw, files'))
    (hline : (if trigraphs then expandTrigraphs raw else raw) = line)
    (hcont : continued line = none) (n : Nat) (eof : Bool) :
    spliceLines trigraphs (n + 1) ⟨files, 0⟩ eof = pure (some line, eof, ⟨files', 0⟩) := by
  rw [spliceLines, if_neg (by simp), hread]
  subst hline
  show (match continued _ with | none => _ | some front => _) = _
  rw [hcont]

theorem spliceLines_continued {files files' : List (List Text)} {raw line front : Text}
    (hread : readLine files = .ok (some raw, files'))
    (hline : (if trigraphs then expandTrigraphs raw else raw) = line)
    (hcont : continued line = some front) (n : Nat) (eof : Bool) :
    spliceLines trigraphs (n + 1) ⟨files, 0⟩ eof = (do
      let (next, eof, st) ← spliceLines trigraphs n ⟨files', 0⟩ eof
      match next with
      | some next => pure (some (front ++ next), eof, ⟨st.files, st.nNls + 1⟩)
      | none => pure (some front, true, st)) := by
  rw [spliceLines, if_neg (by simp), hread]
  subst hline
  show (match continued _ with | none => _ | some front => _) = _
  rw [hcont]

theorem spliceLines_group {unfinished : Bool} {g rest : List Text} (hg : Group unfinished g)
    (hend : unfinished = true → rest = []) {files : List (List Text)}
    (hlines : physicalLines trigraphs files = g ++ rest) {n : Nat} (hn : g.length < n) :
    ∃ files', spliceLines trigraphs n ⟨files, 0⟩ false =
        pure (some (joined g), unfinished, ⟨files', g.length - 1⟩) ∧
      (unfinished = false → files' ≠ [] ∧ physicalLines trigraphs files' = rest) := by
  induction hg generalizing files n with
  | last line =>
    obtain ⟨n, rfl⟩ : ∃ k, n = k + 2 := ⟨n - 2, by simp at hn; omega⟩
    obtain ⟨raw, files', hread, hne, hline, hrest⟩ := readLine_cons hlines
    cases hcont : continued line with
    | none =>
      refine ⟨files', ?_, fun _ => ⟨hne, hrest⟩⟩
      rw [spliceLines_last hread hline hcont]
      simp [joined, hcont]
    | some front =>
      obtain rfl := hend (by simp [hcont])
      refine ⟨[], ?_, by simp⟩
      rw [spliceLines_continued hread hline hcont, spliceLines_nil hne hrest n false, pure_bind]
      simp [joined, hcont]
  | @cons line unfinished g hcont hg ih =>
    obtain ⟨n, rfl⟩ : ∃ k, n = k + 1 := ⟨n - 1, by omega⟩
    obtain ⟨raw, files', hread, hne, hline, hrest⟩ := readLine_cons hlines
    obtain ⟨front, hfront⟩ := Option.isSome_iff_exists.mp hcont
    obtain ⟨files'', hsplice, hafter⟩ := ih hend hrest (n := n) (by simpa using hn)
    refine ⟨files'', ?_, hafter⟩
    have hpos := hg.length_pos
    rw [spliceLines_continued hread hline hfront, hsplice, pure_bind]
    simp only [joined, List.flatMap_cons, hfront, Option.getD_some, List.length_cons,
      Nat.add_sub_cancel, Nat.sub_add_cancel hpos]

/-! ## The whole file -/

/-- The last line ends in a continuation. -/
def unfinished (g : List Text) : Bool := g.getLast?.any fun line => (continued line).isSome

theorem Group.unfinished_eq {u : Bool} {g : List Text} (h : Group u g) : unfinished g = u := by
  induction h with
  | last line => rfl
  | @cons line u g _ hg ih =>
    cases g with
    | nil => exact absurd hg.length_pos (by simp)
    | cons next g => exact ih

/-- What is delivered of a group. -/
def deliveredGroup (g : List Text) : List Text :=
  joined g :: if unfinished g then [] else List.replicate (g.length - 1) []

theorem delivered_owed (n : Nat) (files : List (List Text)) (debt : Nat) :
    delivered trigraphs (n + 2) ⟨files, debt + 1⟩ false =
      ([] :: ·) <$> delivered trigraphs (n + 1) ⟨files, debt⟩ false := by
  rfl

theorem delivered_eq (n debt : Nat) {files : List (List Text)} (hne : files ≠ [])
    (hn : (physicalLines trigraphs files).length + debt + 1 < n) :
    delivered trigraphs n ⟨files, debt⟩ false =
      pure (List.replicate debt [] ++
        (groups (physicalLines trigraphs files)).flatMap deliveredGroup) := by
  induction n generalizing debt files with
  | zero => omega
  | succ n ih =>
    obtain ⟨n, rfl⟩ : ∃ k, n = k + 1 := ⟨n - 1, by omega⟩
    cases debt with
    | succ debt =>
      rw [delivered_owed, ih debt hne (by omega)]
      rfl
    | zero =>
      by_cases hlines : physicalLines trigraphs files = []
      · rw [delivered, if_neg (by simp), spliceLines_nil hne hlines, pure_bind, hlines]
        rfl
      rcases exists_group _ hlines with ⟨g, rest, hg, hsplit⟩ | hg
      · have hlen : g.length + rest.length = (physicalLines trigraphs files).length := by
          rw [hsplit, List.length_append]
        have hpos := hg.length_pos
        obtain ⟨files', hsplice, hafter⟩ :=
          spliceLines_group hg (by simp) hsplit (by omega : g.length < n + 1)
        obtain ⟨hne', rfl⟩ := hafter rfl
        rw [delivered, if_neg (by simp), hsplice, pure_bind]
        dsimp only
        rw [ih (g.length - 1) hne' (by omega), hsplit, groups_append hg (by simp)]
        simp [deliveredGroup, hg.unfinished_eq]
      · have hall := (List.append_nil (physicalLines trigraphs files)).symm
        obtain ⟨files', hsplice, -⟩ :=
          spliceLines_group hg (fun _ => rfl) hall (by omega : _ < n + 1)
        rw [delivered, if_neg (by simp), hsplice, pure_bind]
        dsimp only
        rw [hall, groups_append hg (fun _ => rfl)]
        simp [deliveredGroup, hg.unfinished_eq, delivered, groups]

theorem unfinished_append {g : List Text} (hg : unfinished g = false) (rest : List Text) :
    unfinished (g ++ rest) = unfinished rest := by
  cases rest with
  | nil => rw [List.append_nil, hg]; rfl
  | cons line rest =>
    unfold unfinished
    rw [List.getLast?_append_of_ne_nil _ (List.cons_ne_nil _ _)]

/-- In a group every line in front of the last one is continued. -/
theorem Group.unfinished_dropLast {u : Bool} {g : List Text} (h : Group u g) :
    unfinished g.dropLast = decide (2 ≤ g.length) := by
  induction h with
  | last line => rfl
  | @cons line u g hline hg ih =>
    cases g with
    | nil => exact absurd hg.length_pos (by simp)
    | cons next g =>
      cases g with
      | nil => simpa [unfinished] using hline
      | cons third g => simpa [unfinished] using ih

/-- Empty lines get lost where the last group ends the file with another line in it. -/
theorem deliveredGroup_eq_iff (lines : List Text) :
    (groups lines).flatMap deliveredGroup = logicalLines lines ↔
      ¬ (unfinished lines ∧ unfinished lines.dropLast) := by
  induction hlen : lines.length using Nat.strong_induction_on generalizing lines with
  | _ n ih =>
    by_cases hnil : lines = []
    · subst hnil
      simp [groups, logicalLines, unfinished]
    rcases exists_group lines hnil with ⟨g, rest, hg, rfl⟩ | hg
    · have hpos := hg.length_pos
      have hrest := ih rest.length (by simp at hlen; omega) rest rfl
      have hclosed : deliveredGroup g = joined g :: List.replicate (g.length - 1) [] := by
        rw [deliveredGroup, hg.unfinished_eq]
        rfl
      have hdrop : unfinished (g ++ rest) = true ∧ unfinished (g ++ rest).dropLast = true ↔
          unfinished rest = true ∧ unfinished rest.dropLast = true := by
        rw [unfinished_append hg.unfinished_eq]
        by_cases hempty : rest = []
        · subst hempty
          simp [unfinished]
        · rw [List.dropLast_append_of_ne_nil hempty, unfinished_append hg.unfinished_eq]
      rw [hdrop, ← hrest, logicalLines, groups_append hg (by simp), List.flatMap_cons,
        List.flatMap_cons, hclosed, List.append_cancel_left_eq]
      rfl
    · have hone : groups lines = [lines] := by
        have hall : groups (lines ++ []) = lines :: groups [] := groups_append hg fun _ => rfl
        rwa [List.append_nil] at hall
      rw [logicalLines, hone, hg.unfinished_eq, hg.unfinished_dropLast]
      simp only [List.flatMap_cons, List.flatMap_nil, List.append_nil, deliveredGroup,
        hg.unfinished_eq, if_true, List.cons.injEq, true_and, decide_eq_true_eq]
      rw [eq_comm, List.replicate_eq_nil_iff]
      omega

/-- Every line keeps its number. -/
theorem logicalLines_append {front : List Text} (hfront : unfinished front = false)
    (back : List Text) :
    logicalLines (front ++ back) = logicalLines front ++ logicalLines back := by
  induction hlen : front.length using Nat.strong_induction_on generalizing front with
  | _ n ih =>
    by_cases hnil : front = []
    · subst hnil
      rfl
    rcases exists_group front hnil with ⟨g, rest, hg, rfl⟩ | hg
    · have hpos := hg.length_pos
      rw [unfinished_append hg.unfinished_eq] at hfront
      have hrest := ih rest.length (by simp at hlen; omega) hfront rfl
      unfold logicalLines at hrest ⊢
      rw [List.append_assoc, groups_append hg (by simp), groups_append hg (by simp),
        List.flatMap_cons, List.flatMap_cons, hrest, List.append_assoc]
    · rw [hg.unfinished_eq] at hfront
      cases hfront

theorem groups_flatten (lines : List Text) :
    (groups lines).flatten = lines ∧ ∀ g ∈ groups lines, g ≠ [] := by
  fun_induction groups lines with
  | case1 => simp
  | case2 line lines hline ih => simpa using ih
  | case3 line lines hline hgs ih =>
    rw [hgs] at ih
    simpa using ih.1.symm
  | case4 line lines hline g gs hgs ih =>
    rw [hgs] at ih
    simp at ih ⊢
    exact ⟨ih.1, ih.2.2⟩

theorem logicalLines_length (lines : List Text) : (logicalLines lines).length = lines.length := by
  obtain ⟨hflatten, hne⟩ := groups_flatten lines
  have hgroup : ∀ g ∈ groups lines, (joined g :: List.replicate (g.length - 1) []).length =
      g.length := by
    intro g hg
    have hpos := List.length_pos_iff.mpr (hne g hg)
    simp
    omega
  calc (logicalLines lines).length
      = ((groups lines).map List.length).sum := by
        rw [logicalLines, List.length_flatMap, List.map_congr_left hgroup]
    _ = (groups lines).flatten.length := List.length_flatten.symm
    _ = lines.length := by rw [hflatten]

/-- The loop gets the logical lines and comes to an end; no line in front of which a group ends
changes its number. -/
def Splices (trigraphs : Bool) (files : List (List Text)) : Prop :=
  ∃ out, Lib.Settles (fun n => delivered trigraphs n ⟨files, 0⟩ false) out ∧
    out = logicalLines (physicalLines trigraphs files) ∧
    out.length = (physicalLines trigraphs files).length ∧
    ∀ front back, physicalLines trigraphs files = front ++ back → unfinished front = false →
      out.drop front.length = logicalLines back

theorem splices_iff (file : List Text) (outer : List (List Text)) :
    Splices trigraphs (file :: outer) ↔
      (groups (physicalLines trigraphs (file :: outer))).flatMap deliveredGroup =
        logicalLines (physicalLines trigraphs (file :: outer)) := by
  have hrun : Lib.Settles (fun n => delivered trigraphs n ⟨file :: outer, 0⟩ false)
      ((groups (physicalLines trigraphs (file :: outer))).flatMap deliveredGroup) :=
    ⟨_, fun n hn => delivered_eq n 0 (List.cons_ne_nil _ _) hn⟩
  constructor
  · rintro ⟨out, hout, rfl, -⟩
    exact hrun.unique hout
  · intro hout
    rw [hout] at hrun
    refine ⟨_, hrun, rfl, logicalLines_length _, fun front back hsplit hfront => ?_⟩
    rw [hsplit, logicalLines_append hfront, ← logicalLines_length front, List.drop_left]

theorem splice_lines_iff (trigraphs : Bool) (file : List Text) (outer : List (List Text)) :
    Splices trigraphs (file :: outer) ↔
      ¬ (unfinished (physicalLines trigraphs (file :: outer)) ∧
        unfinished (physicalLines trigraphs (file :: outer)).dropLast) :=
  (splices_iff file outer).trans (deliveredGroup_eq_iff _)

/-- Two lines, both with a backslash at their ends: the empty line is not delivered. -/
theorem splice_lines_last_continued : ¬ Splices false [["a\\".toList, "b\\".toList]] := by
  rw [splices_iff]
  decide

end Ucc.Cpp
