/-
  Cpp/Conditional.lean --- what conditional inclusion selects.

  Source: src/cpp2/directive.c.

  `Block` is the syntax of a well-nested sequence of lines.  Its `select` is the
  reading of the C standard: of each conditional only the first branch whose
  condition holds (or `#else`, when none does) is passed on, and only the lines
  passed on have an effect.  The first half of the file proves that the line loop
  over the flattened block does exactly that, from any state, and restores the
  state of the conditionals.

  The second half is about the expressions that `select` never looks at.  The
  handlers test the innermost `noop` flag where they mean
  `parse_should_noop`, so an `#elif`, or an `#if` after an `#else`, of a
  conditional nested in a skipped group is evaluated after all.  `stepOk`
  excludes those two shapes; without them a skipped expression can be replaced
  by anything.
-/
import Ucc.Cpp.Directive

set_option autoImplicit false

namespace Ucc.Cpp

/-! ## Runs of the line loop over a list of lines -/

/-- The loop consumes exactly `lines` from the top file, prints `out` and goes
on from `st'`. -/
def Runs (h : Hooks) (st : State) (lines : List Text) (out : List Out) (st' : State) :
    Prop :=
  ∀ (n : Nat) (rest : List Text) (files : List (List Text)),
    run h (n + lines.length) st ((lines ++ rest) :: files)
      = emit out (run h n st' (rest :: files))

/-- The loop prints `out` and stops with the fault `f` somewhere in `lines`. -/
def Fails (h : Hooks) (st : State) (lines : List Text) (out : List Out) (f : Fault) :
    Prop :=
  ∀ (n : Nat) (rest : List Text) (files : List (List Text)),
    run h (n + lines.length) st ((lines ++ rest) :: files) = some (out, .error f)

theorem Runs.nil (h : Hooks) (st : State) : Runs h st [] [] st := by
  intro n rest files
  simp

theorem Runs.append {h : Hooks} {st₁ st₂ st₃ : State} {l₁ l₂ : List Text}
    {o₁ o₂ : List Out} (h₁ : Runs h st₁ l₁ o₁ st₂) (h₂ : Runs h st₂ l₂ o₂ st₃) :
    Runs h st₁ (l₁ ++ l₂) (o₁ ++ o₂) st₃ := by
  intro n rest files
  have hlen : n + (l₁ ++ l₂).length = (n + l₂.length) + l₁.length := by
    rw [List.length_append]; omega
  rw [hlen, List.append_assoc, h₁, h₂, emit_emit]

theorem Runs.append_fails {h : Hooks} {st₁ st₂ : State} {l₁ l₂ : List Text}
    {o₁ o₂ : List Out} {f : Fault} (h₁ : Runs h st₁ l₁ o₁ st₂)
    (h₂ : Fails h st₂ l₂ o₂ f) : Fails h st₁ (l₁ ++ l₂) (o₁ ++ o₂) f := by
  intro n rest files
  have hlen : n + (l₁ ++ l₂).length = (n + l₂.length) + l₁.length := by
    rw [List.length_append]; omega
  rw [hlen, List.append_assoc, h₁, h₂]
  rfl

theorem Fails.append {h : Hooks} {st : State} {l₁ : List Text} {o : List Out}
    {f : Fault} (h₁ : Fails h st l₁ o f) (l₂ : List Text) : Fails h st (l₁ ++ l₂) o f := by
  intro n rest files
  have hlen : n + (l₁ ++ l₂).length = (n + l₂.length) + l₁.length := by
    rw [List.length_append]; omega
  rw [hlen, List.append_assoc, h₁]

theorem Runs.single {h : Hooks} {st st' : State} {line : Text} {out : List Out}
    (hstep : filterMacros h st line = (out, .ok (st', none))) :
    Runs h st [line] out st' := by
  intro n rest files
  simp [run, hstep]

theorem Fails.single {h : Hooks} {st : State} {line : Text} {out : List Out} {f : Fault}
    (hstep : filterMacros h st line = (out, .error f)) : Fails h st [line] out f := by
  intro n rest files
  simp [run, hstep]

theorem Fails.not_runs {h : Hooks} {st st' : State} {lines : List Text}
    {o o' : List Out} {f : Fault} (hf : Fails h st lines o f) : ¬ Runs h st lines o' st' := by
  intro hr
  have h₁ := hf 2 [] []
  rw [hr 2 [] []] at h₁
  simp [run, emit] at h₁

/-! ## Well-nested sequences of lines -/

/-- An ordinary line. -/
abbrev TextLine := { line : Text // lineKind line = .text }

/-- A line that is the directive `c`. -/
structure CommandLine (c : Command) where
  line : Text
  args : List Token
  kind : lineKind line = .command c args

/-- A line that opens a conditional. -/
inductive Opener where
  | if_ (l : CommandLine .if_)
  | ifdef (l : CommandLine .ifdef) (nam : Text)
      (single : singleToken (tokensSkipWhitespace l.args) = some nam)
  | ifndef (l : CommandLine .ifndef) (nam : Text)
      (single : singleToken (tokensSkipWhitespace l.args) = some nam)

/-- The text of an opening line. -/
def Opener.line : Opener → Text
  | .if_ l => l.line
  | .ifdef l _ _ => l.line
  | .ifndef l _ _ => l.line

mutual
/-- A well-nested sequence of lines. -/
inductive Block where
  | nil
  | text (l : TextLine) (rest : Block)
  | define (l : CommandLine .define) (rest : Block)
  | undef (l : CommandLine .undef) (rest : Block)
  | cond (o : Opener) (body : Block) (tail : Branches) (rest : Block)
/-- The rest of a conditional after one of its branches. -/
inductive Branches where
  | endif (l : CommandLine .endif)
  | else_ (l : CommandLine .else_) (body : Block) (e : CommandLine .endif)
  | elif (l : CommandLine .elif) (body : Block) (tail : Branches)
end

mutual
/-- The lines of a block in order. -/
def Block.flatten : Block → List Text
  | .nil => []
  | .text l rest => [l.1] ++ rest.flatten
  | .define l rest => [l.line] ++ rest.flatten
  | .undef l rest => [l.line] ++ rest.flatten
  | .cond o body tail rest => ([o.line] ++ (body.flatten ++ tail.flatten)) ++ rest.flatten
/-- The lines of the remaining branches, `#endif` included. -/
def Branches.flatten : Branches → List Text
  | .endif l => [l.line]
  | .else_ l body e => [l.line] ++ (body.flatten ++ [e.line])
  | .elif l body tail => [l.line] ++ (body.flatten ++ tail.flatten)
end

mutual
/-- How deeply conditionals nest in a block. -/
def Block.depth : Block → Nat
  | .nil => 0
  | .text _ rest => rest.depth
  | .define _ rest => rest.depth
  | .undef _ rest => rest.depth
  | .cond _ body tail rest => max (max body.depth tail.depth + 1) rest.depth
/-- How deeply conditionals nest in the remaining branches. -/
def Branches.depth : Branches → Nat
  | .endif _ => 0
  | .else_ _ body _ => body.depth
  | .elif _ body tail => max body.depth tail.depth
end

/-! ## What the C standard selects -/

/-- The lines passed on and the definitions afterwards. -/
abbrev Selection := Except Fault (List Text × List Def)

/-- Select from one part, then from the next with the definitions it left. -/
def Selection.andThen (x : Selection) (k : List Def → Selection) : Selection :=
  match x with
  | .error f => .error f
  | .ok (ls, ds) =>
      match k ds with
      | .error f => .error f
      | .ok (ls', ds') => .ok (ls ++ ls', ds')

/-- A table with given definitions and no expansion in progress. -/
def freshTable (ds : List Def) : Table := ds.map fun d => ⟨d.nam, d.val, d.type, d.args, 0, 0⟩

@[simp] theorem defs_freshTable (ds : List Def) : (freshTable ds).defs = ds := by
  simp [freshTable, Table.defs, Macro.toDef, Function.comp_def]

/-- The effect of a live `#define` or `#undef`: nothing is passed on. -/
def Selection.ofTable : Except Fault Table → Selection
  | .error f => .error f
  | .ok t => .ok ([], t.defs)

/-- The truth value of an opening line under the definitions in force. -/
def Opener.truth (tv : List Def → List Token → Bool) (ds : List Def) : Opener → Bool
  | .if_ l => tv ds l.args
  | .ifdef _ nam _ => isDefined ds nam
  | .ifndef _ nam _ => !isDefined ds nam

mutual
/-- The lines of a block that are passed on. -/
def Block.select (tv : List Def → List Token → Bool) : Block → List Def → Selection
  | .nil, ds => .ok ([], ds)
  | .text l rest, ds => Selection.andThen (.ok ([l.1], ds)) (rest.select tv)
  | .define l rest, ds =>
      Selection.andThen (.ofTable (handleDefine (freshTable ds) l.args)) (rest.select tv)
  | .undef l rest, ds =>
      Selection.andThen (.ofTable (handleUndef (freshTable ds) l.args)) (rest.select tv)
  | .cond o body tail rest, ds =>
      Selection.andThen (if o.truth tv ds then body.select tv ds else tail.select tv ds)
        (rest.select tv)
/-- The lines passed on by the remaining branches when no branch was taken yet. -/
def Branches.select (tv : List Def → List Token → Bool) : Branches → List Def → Selection
  | .endif _, ds => .ok ([], ds)
  | .else_ _ body _, ds => body.select tv ds
  | .elif l body tail, ds => if tv ds l.args then body.select tv ds else tail.select tv ds
end

/-! ## The loop reaches a selection -/

/-- The state of the conditionals. -/
def State.conds (st : State) : List IfEntry × Bool × IfElifState :=
  (st.ifStack, st.noop, st.ifElifChosen)

/-- From `st` the loop over `lines` selects `sel` and leaves the conditionals in
the state `c`. -/
def Reaches (h : Hooks) (st : State) (lines : List Text)
    (c : List IfEntry × Bool × IfElifState) (sel : Selection) : Prop :=
  match sel with
  | .error f => ∃ out, Fails h st lines out f
  | .ok (ls, ds) =>
      ∃ out st', Runs h st lines out st' ∧ passed out = ls ∧ st'.conds = c ∧
        st'.macros.defs = ds

/-- Sequential composition of two stretches of the input. -/
theorem Reaches.append {h : Hooks} {st : State} {l₁ l₂ : List Text}
    {c₁ c₂ : List IfEntry × Bool × IfElifState} {x : Selection}
    {k : List Def → Selection} (h₁ : Reaches h st l₁ c₁ x)
    (h₂ : ∀ st₁ : State, st₁.conds = c₁ → Reaches h st₁ l₂ c₂ (k st₁.macros.defs)) :
    Reaches h st (l₁ ++ l₂) c₂ (x.andThen k) := by
  cases x with
  | error f =>
    obtain ⟨out, hf⟩ := h₁
    exact ⟨out, hf.append l₂⟩
  | ok r =>
    obtain ⟨ls, ds⟩ := r
    obtain ⟨out₁, st₁, hr₁, hp₁, hc₁, hd₁⟩ := h₁
    have hnext := h₂ st₁ hc₁
    rw [hd₁] at hnext
    show Reaches h st (l₁ ++ l₂) c₂
      (match k ds with
        | .error f => .error f
        | .ok (ls', ds') => .ok (ls ++ ls', ds'))
    cases hk : k ds with
    | error f =>
      rw [hk] at hnext
      obtain ⟨out₂, hf⟩ := hnext
      exact ⟨out₁ ++ out₂, hr₁.append_fails hf⟩
    | ok r' =>
      obtain ⟨ls', ds'⟩ := r'
      rw [hk] at hnext
      obtain ⟨out₂, st₂, hr₂, hp₂, hc₂, hd₂⟩ := hnext
      refine ⟨out₁ ++ out₂, st₂, hr₁.append hr₂, ?_, hc₂, hd₂⟩
      rw [passed_append, hp₁, hp₂]

/-- A directive line that prints nothing and changes no definition, in front of
a stretch of input. -/
theorem Reaches.cons {h : Hooks} {st st' : State} {line : Text} {lines : List Text}
    {c : List IfEntry × Bool × IfElifState} {sel : Selection}
    (hstep : filterMacros h st line = ([.blank], .ok (st', none)))
    (hrest : Reaches h st' lines c sel) : Reaches h st ([line] ++ lines) c sel := by
  have hr := Runs.single hstep
  cases sel with
  | error f =>
    obtain ⟨out, hf⟩ := hrest
    exact ⟨_, hr.append_fails hf⟩
  | ok r =>
    obtain ⟨out, st'', hr', hp, hc, hd⟩ := hrest
    exact ⟨_, st'', hr.append hr', by rw [passed_append, hp]; rfl, hc, hd⟩

/-- A stretch that is skipped, followed by another one. -/
theorem Reaches.skip_append {h : Hooks} {st : State} {l₁ l₂ : List Text}
    {c₁ c₂ : List IfEntry × Bool × IfElifState} {ds : List Def} {sel : Selection}
    (h₁ : Reaches h st l₁ c₁ (.ok ([], ds)))
    (h₂ : ∀ st₁ : State, st₁.conds = c₁ → st₁.macros.defs = ds → Reaches h st₁ l₂ c₂ sel) :
    Reaches h st (l₁ ++ l₂) c₂ sel := by
  obtain ⟨out₁, st₁, hr₁, hp₁, hc₁, hd₁⟩ := h₁
  have hnext := h₂ st₁ hc₁ hd₁
  cases sel with
  | error f =>
    obtain ⟨out₂, hf⟩ := hnext
    exact ⟨_, hr₁.append_fails hf⟩
  | ok r =>
    obtain ⟨out₂, st₂, hr₂, hp₂, hc₂, hd₂⟩ := hnext
    exact ⟨_, st₂, hr₁.append hr₂, by rw [passed_append, hp₁, hp₂]; rfl, hc₂, hd₂⟩

/-- A selected stretch, followed by a skipped one. -/
theorem Reaches.append_skip {h : Hooks} {st : State} {l₁ l₂ : List Text}
    {c₁ c₂ : List IfEntry × Bool × IfElifState} {x : Selection}
    (h₁ : Reaches h st l₁ c₁ x)
    (h₂ : ∀ st₁ : State, st₁.conds = c₁ →
      Reaches h st₁ l₂ c₂ (.ok ([], st₁.macros.defs))) :
    Reaches h st (l₁ ++ l₂) c₂ x := by
  have hseq := Reaches.append (k := fun ds => .ok ([], ds)) h₁ h₂
  have hx : x.andThen (fun ds => .ok ([], ds)) = x := by
    cases x with
    | error f => rfl
    | ok r => simp [Selection.andThen]
  rwa [hx] at hseq

/-! ## One line at a time -/

/-- The evaluator gives every controlling expression the truth value `tv` under
the definitions in force, every line expands, and neither call changes a
definition. -/
structure Hooks.Evaluates (h : Hooks) (tv : List Def → List Token → Bool) : Prop where
  ifEval : ∀ (t : Table) (args : List Token),
    ∃ t', h.ifEval t args = .ok (tv t.defs args, t') ∧ t'.defs = t.defs
  expand : ∀ (t : Table) (line : Text),
    ∃ line' t', h.expandMacros t line = .ok (line', t') ∧ t'.defs = t.defs

theorem filterMacros_command (h : Hooks) (st : State) {line : Text} {c : Command}
    {args : List Token} (hk : lineKind line = .command c args) :
    filterMacros h st line =
      ((handleCommand h st c args).1, noFile (handleCommand h st c args).2) := by
  simp [filterMacros, hk]

/-- The state inside a conditional whose first branch is `b`. -/
def State.pushed (st : State) (t : Table) (b : Bool) : State :=
  { ifStack := ⟨st.ifElifChosen, st.noop⟩ :: st.ifStack
    noop := !b
    ifElifChosen := if b then .gotTruth else .noTruth
    macros := t }

@[simp] theorem outerNoop_pushed (st : State) (t : Table) (b : Bool) :
    (st.pushed t b).outerNoop = st.parseShouldNoop := by
  simp [State.pushed, State.outerNoop, State.parseShouldNoop]

theorem ifPush_eq {st : State} (hroom : st.ifStack.length + 1 < nIfStack) (b : Bool) :
    ifPush st b = .ok (st.pushed st.macros b) := by
  have hne : st.ifStack.length + 1 ≠ nIfStack := by omega
  simp [ifPush, hne, State.pushed]

/-- An opening line pushes its truth value, or false where `noop` is set. -/
theorem Opener.step {h : Hooks} {tv : List Def → List Token → Bool} (hh : h.Evaluates tv)
    (o : Opener) (st : State) (hroom : st.ifStack.length + 1 < nIfStack) :
    ∃ t, t.defs = st.macros.defs ∧
      filterMacros h st o.line =
        ([.blank],
          .ok (st.pushed t (!st.noop && o.truth tv st.macros.defs), none)) := by
  cases o with
  | if_ l =>
    rw [Opener.line, filterMacros_command h st l.kind]
    cases hn : st.noop with
    | true =>
      refine ⟨st.macros, rfl, ?_⟩
      simp [handleCommand, handleIf, hn, ifPush_eq hroom, noFile]
    | false =>
      obtain ⟨t, he, ht⟩ := hh.ifEval st.macros l.args
      refine ⟨t, ht, ?_⟩
      have hif : handleIf h st l.args = .ok (st.pushed t (tv st.macros.defs l.args)) := by
        rw [handleIf, if_neg (by simp [hn]), he]
        exact @ifPush_eq { st with macros := t } hroom _
      simp [handleCommand, hif, noFile, Opener.truth]
  | ifdef l nam single =>
    rw [Opener.line, filterMacros_command h st l.kind]
    refine ⟨st.macros, rfl, ?_⟩
    cases hn : st.noop with
    | true => simp [handleCommand, handleSomedef, single, hn, ifPush_eq hroom, noFile]
    | false =>
      simp [handleCommand, handleSomedef, single, hn, ifPush_eq hroom, noFile,
        Opener.truth, isSome_macroFind]
  | ifndef l nam single =>
    rw [Opener.line, filterMacros_command h st l.kind]
    refine ⟨st.macros, rfl, ?_⟩
    cases hn : st.noop with
    | true => simp [handleCommand, handleSomedef, single, hn, ifPush_eq hroom, noFile]
    | false =>
      simp [handleCommand, handleSomedef, single, hn, ifPush_eq hroom, noFile,
        Opener.truth, isSome_macroFind]

/-- `#endif` ends the innermost conditional. -/
theorem endif_reaches (h : Hooks) (l : CommandLine .endif) {st : State} {e : IfEntry}
    {s : List IfEntry} (hst : st.ifStack = e :: s) :
    Reaches h st [l.line] (s, e.noop, e.ifChosen) (.ok ([], st.macros.defs)) := by
  have hstep : filterMacros h st l.line =
      ([.blank], .ok ({ st with ifStack := s, noop := e.noop, ifElifChosen := e.ifChosen },
        none)) := by
    rw [filterMacros_command h st l.kind]
    simp [handleCommand, handleEndif, hst, noFile]
  exact ⟨_, _, Runs.single hstep, rfl, rfl, rfl⟩

theorem text_skipped (h : Hooks) (l : TextLine) {st : State}
    (hs : st.parseShouldNoop = true) :
    filterMacros h st l.1 = ([.blank], .ok (st, none)) := by
  simp [filterMacros, l.2, hs]

theorem define_skipped (h : Hooks) (l : CommandLine .define) {st : State}
    (hs : st.parseShouldNoop = true) :
    filterMacros h st l.line = ([.blank], .ok (st, none)) := by
  rw [filterMacros_command h st l.kind]
  simp [handleCommand, hs, noFile]

theorem undef_skipped (h : Hooks) (l : CommandLine .undef) {st : State}
    (hs : st.parseShouldNoop = true) :
    filterMacros h st l.line = ([.blank], .ok (st, none)) := by
  rw [filterMacros_command h st l.kind]
  simp [handleCommand, hs, noFile]

/-- A live line that changes the table reaches the corresponding selection. -/
theorem table_reaches {h : Hooks} {st : State} {line : Text} {x y : Except Fault Table}
    (hstep : filterMacros h st line = ([.blank], noFile (withTable st x)))
    (hxy : SameDefs x y) :
    Reaches h st [line] st.conds (.ofTable y) := by
  cases x with
  | error f =>
    cases y with
    | ok t => exact hxy.elim
    | error f' =>
      have hf : f = f' := hxy
      subst hf
      exact ⟨_, Fails.single hstep⟩
  | ok t =>
    cases y with
    | error f' => exact hxy.elim
    | ok t' => exact ⟨_, _, Runs.single hstep, rfl, rfl, hxy⟩

/-! ## Skipped stretches

The induction is on the block.  Inside a skipped group the innermost `noop` may
be off, since an `#else` or a true `#elif` clears it; what stays is the flag that
was saved on the stack, so the invariant of the branches is `outerNoop`, or that
a branch was taken before. -/

section Selects

variable {h : Hooks} {tv : List Def → List Token → Bool}

theorem outerNoop_of_conds {st st' : State} (hc : st.conds = st'.conds) :
    st.outerNoop = st'.outerNoop := by
  have hs : st.ifStack = st'.ifStack := congrArg Prod.fst hc
  simp [State.outerNoop, hs]

theorem parseShouldNoop_of_conds {st st' : State} (hc : st.conds = st'.conds) :
    st.parseShouldNoop = st'.parseShouldNoop := by
  have hn : st.noop = st'.noop := congrArg (fun c => c.2.1) hc
  simp [State.parseShouldNoop, hn, outerNoop_of_conds hc]

mutual
theorem Block.skip (hh : h.Evaluates tv) : ∀ (b : Block) (st : State),
    st.parseShouldNoop = true → st.ifStack.length + b.depth < nIfStack →
    Reaches h st b.flatten st.conds (.ok ([], st.macros.defs))
  | .nil, st, _, _ => ⟨[], st, Runs.nil h st, rfl, rfl, rfl⟩
  | .text l rest, st, hs, hd => (Block.skip hh rest st hs hd).cons (text_skipped h l hs)
  | .define l rest, st, hs, hd => (Block.skip hh rest st hs hd).cons (define_skipped h l hs)
  | .undef l rest, st, hs, hd => (Block.skip hh rest st hs hd).cons (undef_skipped h l hs)
  | .cond o body tail rest, st, hs, hd => by
    simp only [Block.depth] at hd
    obtain ⟨t, ht, hstep⟩ := o.step hh st (by omega)
    generalize (!st.noop && o.truth tv st.macros.defs) = b at hstep
    have hout : (st.pushed t b).outerNoop = true := by rw [outerNoop_pushed, hs]
    have hlen : (st.pushed t b).ifStack.length = st.ifStack.length + 1 := rfl
    have hbody := Block.skip hh body (st.pushed t b)
      (by simp [State.parseShouldNoop, hout]) (by omega)
    have hcond : Reaches h st ([o.line] ++ (body.flatten ++ tail.flatten)) st.conds
        (.ok ([], st.macros.defs)) := by
      refine Reaches.cons hstep (hbody.skip_append fun st₁ hc hd₁ => ?_)
      have hstack : st₁.ifStack = ⟨st.ifElifChosen, st.noop⟩ :: st.ifStack :=
        congrArg Prod.fst hc
      have hchosen : st₁.ifElifChosen = if b then .gotTruth else .noTruth :=
        congrArg (fun c => c.2.2) hc
      have htail := Branches.skip hh tail st₁ _ _ hstack
        (by rw [hchosen]; cases b <;> simp)
        (Or.inl (by rw [outerNoop_of_conds hc, hout]))
        (by rw [hstack, List.length_cons]; omega)
      rwa [hd₁, show (st.pushed t b).macros.defs = st.macros.defs from ht] at htail
    refine hcond.skip_append fun st₁ hc hd₁ => ?_
    have hrest := Block.skip hh rest st₁ (by rw [parseShouldNoop_of_conds hc, hs])
      (by rw [show st₁.ifStack = st.ifStack from congrArg Prod.fst hc]; omega)
    rwa [hc, hd₁] at hrest
theorem Branches.skip (hh : h.Evaluates tv) : ∀ (br : Branches) (st : State) (e : IfEntry)
    (s : List IfEntry), st.ifStack = e :: s → st.ifElifChosen ≠ .lastElse →
    (st.outerNoop = true ∨ st.ifElifChosen = .gotTruth) →
    st.ifStack.length + br.depth < nIfStack →
    Reaches h st br.flatten (s, e.noop, e.ifChosen) (.ok ([], st.macros.defs))
  | .endif l, st, e, s, hst, _, _, _ => endif_reaches h l hst
  | .else_ l body el, st, e, s, hst, hne, hskip, hd => by
    -- `#else` sets `noop` when a branch was taken and clears it otherwise
    obtain ⟨st₁, hstep, hstack, hnoop, hmac⟩ : ∃ st₁ : State,
        filterMacros h st l.line = ([.blank], .ok (st₁, none)) ∧ st₁.ifStack = st.ifStack ∧
          st₁.parseShouldNoop = true ∧ st₁.macros = st.macros := by
      rw [filterMacros_command h st l.kind]
      cases hch : st.ifElifChosen with
      | lastElse => exact absurd hch hne
      | gotTruth =>
        refine ⟨{ st with noop := true, ifElifChosen := .lastElse }, ?_, rfl, rfl, rfl⟩
        simp [handleCommand, handleElse, hst, hch, noFile]
      | noTruth =>
        have hout : st.outerNoop = true := hskip.resolve_right (by simp [hch])
        refine ⟨{ st with noop := false, ifElifChosen := .lastElse }, ?_, rfl, ?_, rfl⟩
        · simp [handleCommand, handleElse, hst, hch, noFile]
        · simpa [State.parseShouldNoop, State.outerNoop] using hout
    have hbody := Block.skip hh body st₁ hnoop (by rw [hstack]; simpa [Branches.depth] using hd)
    refine Reaches.cons hstep (hbody.skip_append fun st₂ hc hd₂ => ?_)
    have hstack₂ : st₂.ifStack = e :: s := by
      rw [show st₂.ifStack = st₁.ifStack from congrArg Prod.fst hc, hstack, hst]
    have hend := endif_reaches h el hstack₂
    rwa [hd₂, hmac] at hend
  | .elif l body tail, st, e, s, hst, hne, hskip, hd => by
    simp only [Branches.depth] at hd
    obtain ⟨st₁, hstep, hstack, hne₁, hskip₁, hnoop, hmac⟩ : ∃ st₁ : State,
        filterMacros h st l.line = ([.blank], .ok (st₁, none)) ∧ st₁.ifStack = st.ifStack ∧
          st₁.ifElifChosen ≠ .lastElse ∧
          (st₁.outerNoop = true ∨ st₁.ifElifChosen = .gotTruth) ∧
          st₁.parseShouldNoop = true ∧ st₁.macros.defs = st.macros.defs := by
      rw [filterMacros_command h st l.kind]
      cases hch : st.ifElifChosen with
      | lastElse => exact absurd hch hne
      | gotTruth =>
        refine ⟨{ st with noop := true }, ?_, rfl, by simp [hch], .inr hch, rfl, rfl⟩
        simp [handleCommand, handleElif, hst, hch, noFile]
      | noTruth =>
        have hout : st.outerNoop = true := hskip.resolve_right (by simp [hch])
        obtain ⟨t, he, ht⟩ := hh.ifEval st.macros l.args
        refine ⟨{ st with
          macros := t
          ifElifChosen := if tv st.macros.defs l.args then .gotTruth else .noTruth
          noop := !tv st.macros.defs l.args }, ?_, rfl, ?_, .inl hout, ?_, ht⟩
        · simp [handleCommand, handleElif, hst, hch, he, noFile]
        · dsimp only
          split <;> simp
        · have hout' : st.ifStack.any (fun e => e.noop) = true := hout
          simp [State.parseShouldNoop, State.outerNoop, hout']
    have hlen : st₁.ifStack.length = st.ifStack.length := by rw [hstack]
    have hbody := Block.skip hh body st₁ hnoop (by omega)
    refine Reaches.cons hstep (hbody.skip_append fun st₂ hc hd₂ => ?_)
    have hstack₂ : st₂.ifStack = e :: s := by
      rw [show st₂.ifStack = st₁.ifStack from congrArg Prod.fst hc, hstack, hst]
    have hchosen : st₂.ifElifChosen = st₁.ifElifChosen := congrArg (fun c => c.2.2) hc
    have hlen₂ : st₂.ifStack.length = st.ifStack.length := by rw [hstack₂, hst]
    have htail := Branches.skip hh tail st₂ e s hstack₂ (by rw [hchosen]; exact hne₁)
      (by rw [hchosen, outerNoop_of_conds hc]; exact hskip₁) (by omega)
    rwa [hd₂, hmac] at htail
end

/-! ## Live stretches -/

/-- A live line is passed to output. -/
theorem text_reaches (hh : h.Evaluates tv) (l : TextLine) {st : State}
    (hs : st.parseShouldNoop = false) :
    Reaches h st [l.1] st.conds (.ok ([l.1], st.macros.defs)) := by
  obtain ⟨line', t, he, ht⟩ := hh.expand st.macros l.1
  have hstep : filterMacros h st l.1 =
      ([.line l.1 line'], .ok ({ st with macros := t }, none)) := by
    simp [filterMacros, l.2, hs, he]
  exact ⟨_, _, Runs.single hstep, rfl, rfl, ht⟩

theorem define_reaches (l : CommandLine .define) {st : State}
    (hs : st.parseShouldNoop = false) :
    Reaches h st [l.line] st.conds
      (.ofTable (handleDefine (freshTable st.macros.defs) l.args)) := by
  refine table_reaches ?_ (sameDefs_handleDefine (defs_freshTable _).symm l.args)
  rw [filterMacros_command h st l.kind]
  simp [handleCommand, hs]

theorem undef_reaches (l : CommandLine .undef) {st : State}
    (hs : st.parseShouldNoop = false) :
    Reaches h st [l.line] st.conds
      (.ofTable (handleUndef (freshTable st.macros.defs) l.args)) := by
  refine table_reaches ?_ (sameDefs_handleUndef (defs_freshTable _).symm l.args)
  rw [filterMacros_command h st l.kind]
  simp [handleCommand, hs]

/-- The first branch of a live conditional runs when its condition holds, and
the others are then skipped. -/
theorem taken_reaches (hh : h.Evaluates tv) {body : Block} {tail : Branches} {st : State}
    {e : IfEntry} {s : List IfEntry} {sel : Selection} (hst : st.ifStack = e :: s)
    (hch : st.ifElifChosen = .gotTruth) (hd : st.ifStack.length + tail.depth < nIfStack)
    (hbody : Reaches h st body.flatten st.conds sel) :
    Reaches h st (body.flatten ++ tail.flatten) (s, e.noop, e.ifChosen) sel := by
  refine hbody.append_skip fun st₁ hc => ?_
  have hstack : st₁.ifStack = st.ifStack := congrArg Prod.fst hc
  have hchosen : st₁.ifElifChosen = .gotTruth := (congrArg (fun c => c.2.2) hc).trans hch
  exact Branches.skip hh tail st₁ e s (hstack.trans hst) (by simp [hchosen]) (.inr hchosen)
    (by rw [hstack]; exact hd)

mutual
theorem Block.live (hh : h.Evaluates tv) : ∀ (b : Block) (st : State),
    st.parseShouldNoop = false → st.ifStack.length + b.depth < nIfStack →
    Reaches h st b.flatten st.conds (b.select tv st.macros.defs)
  | .nil, st, _, _ => ⟨[], st, Runs.nil h st, rfl, rfl, rfl⟩
  | .text l rest, st, hs, hd =>
    (text_reaches hh l hs).append fun st₁ hc => by
      have hrest := Block.live hh rest st₁ (by rw [parseShouldNoop_of_conds hc, hs])
        (by rw [show st₁.ifStack = st.ifStack from congrArg Prod.fst hc]; exact hd)
      rwa [hc] at hrest
  | .define l rest, st, hs, hd =>
    (define_reaches l hs).append fun st₁ hc => by
      have hrest := Block.live hh rest st₁ (by rw [parseShouldNoop_of_conds hc, hs])
        (by rw [show st₁.ifStack = st.ifStack from congrArg Prod.fst hc]; exact hd)
      rwa [hc] at hrest
  | .undef l rest, st, hs, hd =>
    (undef_reaches l hs).append fun st₁ hc => by
      have hrest := Block.live hh rest st₁ (by rw [parseShouldNoop_of_conds hc, hs])
        (by rw [show st₁.ifStack = st.ifStack from congrArg Prod.fst hc]; exact hd)
      rwa [hc] at hrest
  | .cond o body tail rest, st, hs, hd => by
    simp only [Block.depth] at hd
    obtain ⟨t, ht, hstep⟩ := o.step hh st (by omega)
    have hnoop : st.noop = false := by
      simp only [State.parseShouldNoop, Bool.or_eq_false_iff] at hs
      exact hs.1
    rw [hnoop, Bool.not_false, Bool.true_and] at hstep
    have hlen (b : Bool) : (st.pushed t b).ifStack.length = st.ifStack.length + 1 := rfl
    have hout (b : Bool) : (st.pushed t b).outerNoop = false := by rw [outerNoop_pushed, hs]
    have hcond : Reaches h st ([o.line] ++ (body.flatten ++ tail.flatten)) st.conds
        (if o.truth tv st.macros.defs then body.select tv st.macros.defs
          else tail.select tv st.macros.defs) := by
      refine Reaches.cons hstep ?_
      cases htruth : o.truth tv st.macros.defs with
      | true =>
        have hbody := Block.live hh body (st.pushed t true)
          (by simp [State.parseShouldNoop, hout]; rfl) (by rw [hlen]; omega)
        rw [show (st.pushed t true).macros.defs = st.macros.defs from ht] at hbody
        have hroom : (st.pushed t true).ifStack.length + tail.depth < nIfStack := by
          rw [hlen]; omega
        exact taken_reaches hh rfl rfl hroom hbody
      | false =>
        have hbody := Block.skip hh body (st.pushed t false) rfl (by rw [hlen]; omega)
        refine hbody.skip_append fun st₁ hc hd₁ => ?_
        have hstack : st₁.ifStack = ⟨st.ifElifChosen, st.noop⟩ :: st.ifStack :=
          congrArg Prod.fst hc
        have htail := Branches.live hh tail st₁ _ _ hstack
          (by rw [outerNoop_of_conds hc, hout]) (congrArg (fun c => c.2.2) hc)
          (by rw [hstack, List.length_cons]; omega)
        rwa [hd₁, show (st.pushed t false).macros.defs = st.macros.defs from ht] at htail
    refine hcond.append fun st₁ hc => ?_
    have hrest := Block.live hh rest st₁ (by rw [parseShouldNoop_of_conds hc, hs])
      (by rw [show st₁.ifStack = st.ifStack from congrArg Prod.fst hc]; omega)
    rwa [hc] at hrest
theorem Branches.live (hh : h.Evaluates tv) : ∀ (br : Branches) (st : State) (e : IfEntry)
    (s : List IfEntry), st.ifStack = e :: s → st.outerNoop = false →
    st.ifElifChosen = .noTruth → st.ifStack.length + br.depth < nIfStack →
    Reaches h st br.flatten (s, e.noop, e.ifChosen) (br.select tv st.macros.defs)
  | .endif l, st, e, s, hst, _, _, _ => endif_reaches h l hst
  | .else_ l body el, st, e, s, hst, hout, hch, hd => by
    have hstep : filterMacros h st l.line =
        ([.blank], .ok ({ st with noop := false, ifElifChosen := .lastElse }, none)) := by
      rw [filterMacros_command h st l.kind]
      simp [handleCommand, handleElse, hst, hch, noFile]
    have hbody := Block.live hh body { st with noop := false, ifElifChosen := .lastElse }
      (by simpa [State.parseShouldNoop, State.outerNoop] using hout)
      (by simpa [Branches.depth] using hd)
    refine Reaches.cons hstep (hbody.append_skip fun st₁ hc => ?_)
    exact endif_reaches h el ((congrArg Prod.fst hc).trans hst)
  | .elif l body tail, st, e, s, hst, hout, hch, hd => by
    simp only [Branches.depth] at hd
    obtain ⟨t, he, ht⟩ := hh.ifEval st.macros l.args
    simp only [Branches.flatten, Branches.select]
    cases htruth : tv st.macros.defs l.args with
    | true =>
      let st₁ : State := { st with macros := t, ifElifChosen := .gotTruth, noop := false }
      have hstep : filterMacros h st l.line = ([.blank], .ok (st₁, none)) := by
        rw [filterMacros_command h st l.kind]
        simp [handleCommand, handleElif, hst, hch, he, htruth, noFile, st₁]
      have hbody := Block.live hh body st₁
        (by simpa [State.parseShouldNoop, State.outerNoop, st₁] using hout)
        (by show st.ifStack.length + _ < _; omega)
      rw [show st₁.macros.defs = st.macros.defs from ht] at hbody
      have hroom : st₁.ifStack.length + tail.depth < nIfStack := by
        show st.ifStack.length + _ < _
        omega
      exact Reaches.cons hstep (taken_reaches hh hst rfl hroom hbody)
    | false =>
      let st₁ : State := { st with macros := t, ifElifChosen := .noTruth, noop := true }
      have hstep : filterMacros h st l.line = ([.blank], .ok (st₁, none)) := by
        rw [filterMacros_command h st l.kind]
        simp [handleCommand, handleElif, hst, hch, he, htruth, noFile, st₁]
      have hbody := Block.skip hh body st₁ rfl (by show st.ifStack.length + _ < _; omega)
      refine Reaches.cons hstep (hbody.skip_append fun st₂ hc hd₂ => ?_)
      have hstack₂ : st₂.ifStack = e :: s := (congrArg Prod.fst hc).trans hst
      have hlen₂ : st₂.ifStack.length = st.ifStack.length := by rw [hstack₂, hst]
      have htail := Branches.live hh tail st₂ e s hstack₂
        (by rw [outerNoop_of_conds hc]; exact hout) (congrArg (fun c => c.2.2) hc) (by omega)
      rwa [hd₂, show st₁.macros.defs = st.macros.defs from ht] at htail
end

end Selects

/-- Hooks under which every condition holds and a line expands to itself. -/
def plainHooks : Hooks where
  ifEval t _ := .ok (true, t)
  expandMacros t line := .ok (line, t)
  includeLines t _ := .ok ([], t)

theorem plainHooks_evaluates : plainHooks.Evaluates fun _ _ => true :=
  ⟨fun t _ => ⟨t, rfl, rfl⟩, fun t line => ⟨line, t, rfl, rfl⟩⟩

/-- `b` inside `#if 1` and `#endif`. -/
def wrap (b : Block) : Block :=
  .cond (.if_ ⟨"#if 1".toList, [⟨.other, "1".toList, true⟩], by decide⟩) b
    (.endif ⟨"#endif".toList, [], by decide⟩) .nil

/-- `n` conditionals, one inside the other. -/
def nest : Nat → Block
  | 0 => .nil
  | n + 1 => wrap (nest n)

theorem nest_select (n : Nat) (ds : List Def) :
    (nest n).select (fun _ _ => true) ds = .ok ([], ds) := by
  induction n with
  | zero => rfl
  | succ n ih =>
    simp [nest, wrap, Block.select, Opener.truth, ih, Selection.andThen]

/-- Nesting that overruns the if-stack is fatal. -/
theorem nest_fails (n : Nat) (st : State) (hlt : st.ifStack.length < nIfStack)
    (hn : nIfStack ≤ st.ifStack.length + n) :
    ∃ out, Fails plainHooks st (nest n).flatten out .ifStackExceeded := by
  induction n generalizing st with
  | zero => omega
  | succ n ih =>
    let l : CommandLine .if_ := ⟨"#if 1".toList, [⟨.other, "1".toList, true⟩], by decide⟩
    let e : CommandLine .endif := ⟨"#endif".toList, [], by decide⟩
    have hflat : (nest (n + 1)).flatten = [l.line] ++ ((nest n).flatten ++ [e.line]) := by
      simp [nest, wrap, Block.flatten, Branches.flatten, Opener.line, l, e]
    rw [hflat]
    by_cases hfull : st.ifStack.length + 1 = nIfStack
    · -- the next push finds the stack full
      have hstep : filterMacros plainHooks st l.line = ([.blank], .error .ifStackExceeded) := by
        rw [filterMacros_command plainHooks st l.kind]
        cases hb : st.noop <;>
          simp [handleCommand, handleIf, hb, plainHooks, ifPush, hfull, noFile]
      exact ⟨_, (Fails.single hstep).append _⟩
    · obtain ⟨t, -, hstep⟩ :=
        Opener.step plainHooks_evaluates (.if_ l) st (by omega)
      generalize hst₁ : st.pushed t _ = st₁ at hstep
      have hlen : st₁.ifStack.length = st.ifStack.length + 1 := by rw [← hst₁]; rfl
      obtain ⟨out, hf⟩ := ih st₁ (by omega) (by omega)
      exact ⟨_, (Runs.single hstep).append_fails (hf.append _)⟩

/-- The controlling expression of `line` cannot affect the result. -/
def deadExpr (st : State) (line : Text) : Bool :=
  match lineKind line with
  | .command .if_ _ => st.parseShouldNoop
  | .command .elif _ => st.outerNoop || st.ifElifChosen == .gotTruth
  | _ => false

/-- The condition under which the handlers' own tests agree with
`parse_should_noop`: where an outer group is skipped, an `#if` finds the
innermost flag set, and an `#elif` does not find its conditional without a
truth. -/
def stepOk (st : State) (line : Text) : Bool :=
  match lineKind line with
  | .command .if_ _ => !st.outerNoop || st.noop
  | .command .elif _ => !st.outerNoop || st.ifElifChosen != .noTruth
  | _ => true

/-- The loop over `files` from `st` comes to read `line` in the state `st'`. -/
inductive Comes (h : Hooks) : State → List (List Text) → State → Text → Prop where
  | here (st : State) (line : Text) (lines : List Text) (files : List (List Text)) :
      Comes h st ((line :: lines) :: files) st line
  | pop {st st' : State} {files : List (List Text)} {line : Text}
      (hrest : Comes h st files st' line) : Comes h st ([] :: files) st' line
  | next {st st₁ st' : State} {out : List Out} {line line' : Text} {lines : List Text}
      {files : List (List Text)} (hstep : filterMacros h st line = (out, .ok (st₁, none)))
      (hrest : Comes h st₁ (lines :: files) st' line') :
      Comes h st ((line :: lines) :: files) st' line'
  | enter {st st₁ st' : State} {out : List Out} {line line' : Text} {new lines : List Text}
      {files : List (List Text)} (hstep : filterMacros h st line = (out, .ok (st₁, some new)))
      (hrest : Comes h st₁ (new :: lines :: files) st' line') :
      Comes h st ((line :: lines) :: files) st' line'

/-- The second input differs from the first only in expressions that are dead
when the run over the first comes to them: the line is still the same directive,
with any other tokens after its name. -/
inductive Variant (h : Hooks) : State → List (List Text) → List (List Text) → Prop where
  | same (st : State) (files : List (List Text)) : Variant h st files files
  | pop {st : State} {files files' : List (List Text)} (hrest : Variant h st files files') :
      Variant h st ([] :: files) ([] :: files')
  | keep {st : State} {line : Text} {lines lines' : List Text} {files files' : List (List Text)}
      (hlen : files.length = files'.length)
      (hnext : ∀ out st₁, filterMacros h st line = (out, .ok (st₁, none)) →
        Variant h st₁ (lines :: files) (lines' :: files'))
      (henter : ∀ out st₁ new, filterMacros h st line = (out, .ok (st₁, some new)) →
        Variant h st₁ (new :: lines :: files) (new :: lines' :: files')) :
      Variant h st ((line :: lines) :: files) ((line :: lines') :: files')
  | replace {st : State} {line line' : Text} {c : Command} {args args' : List Token}
      {lines lines' : List Text} {files files' : List (List Text)}
      (hlen : files.length = files'.length) (hdead : deadExpr st line = true)
      (hline : lineKind line = .command c args) (hline' : lineKind line' = .command c args')
      (hnext : ∀ out st₁, filterMacros h st line = (out, .ok (st₁, none)) →
        Variant h st₁ (lines :: files) (lines' :: files')) :
      Variant h st ((line :: lines) :: files) ((line' :: lines') :: files')

/-- Where `stepOk` holds, a line with a dead expression does the same whatever
the evaluator and the tokens of the expression are. -/
theorem filterMacros_dead {st : State} {line line' : Text} {c : Command}
    {args args' : List Token} (hok : stepOk st line = true) (hdead : deadExpr st line = true)
    (hline : lineKind line = .command c args) (hline' : lineKind line' = .command c args')
    (h h' : Hooks) : filterMacros h' st line' = filterMacros h st line := by
  rw [filterMacros_command h st hline, filterMacros_command h' st hline']
  simp only [stepOk, deadExpr, hline] at hok hdead
  cases c with
  | if_ =>
    have hnoop : st.noop = true := by
      simp only [State.parseShouldNoop, Bool.or_eq_true] at hdead
      rcases hdead with hnoop | hout
      · exact hnoop
      · simpa [hout] using hok
    simp [handleCommand, handleIf, hnoop]
  | elif =>
    have hch : st.ifElifChosen ≠ .noTruth := by
      simp only [Bool.or_eq_true, beq_iff_eq] at hdead
      rcases hdead with hout | hgot
      · simpa [hout] using hok
      · simp [hgot]
    cases hc : st.ifElifChosen with
    | noTruth => exact absurd hc hch
    | gotTruth => simp [handleCommand, handleElif, hc]
    | lastElse => simp [handleCommand, handleElif, hc]
  | _ => simp at hdead

/-- A directive with a handler opens no file. -/
theorem filterMacros_command_noFile {h : Hooks} {st st' : State} {line : Text} {c : Command}
    {args : List Token} {out : List Out} {new : Option (List Text)}
    (hline : lineKind line = .command c args)
    (hstep : filterMacros h st line = (out, .ok (st', new))) : new = none := by
  rw [filterMacros_command h st hline] at hstep
  have hnew := congrArg Prod.snd hstep
  cases hr : (handleCommand h st c args).2 with
  | error f => simp [hr, noFile] at hnew
  | ok st₁ => simp_all [noFile]

/-- Two runs take the same first step, and agree from there on. -/
theorem run_cons_congr {h : Hooks} {n : Nat} {st : State} {line line' : Text}
    {lines lines' : List Text} {files files' : List (List Text)}
    (hlen : files.length = files'.length)
    (hstep : filterMacros h st line' = filterMacros h st line)
    (hnext : ∀ out st₁, filterMacros h st line = (out, .ok (st₁, none)) →
      run h n st₁ (lines' :: files') = run h n st₁ (lines :: files))
    (henter : ∀ out st₁ new, filterMacros h st line = (out, .ok (st₁, some new)) →
      run h n st₁ (new :: lines' :: files') = run h n st₁ (new :: lines :: files)) :
    run h (n + 1) st ((line' :: lines') :: files') =
      run h (n + 1) st ((line :: lines) :: files) := by
  simp only [run, hstep]
  split
  · rfl
  · rename_i out st₁ heq
    rw [hnext out st₁ heq]
  · rename_i out st₁ new heq
    rw [henter out st₁ new heq, hlen]

/-- The run over a variant is the run over the original. -/
theorem Variant.run_eq {h : Hooks} {st : State} {files files' : List (List Text)}
    (hv : Variant h st files files')
    (hok : ∀ st' line, Comes h st files st' line → stepOk st' line = true) (n : Nat) :
    run h n st files' = run h n st files := by
  induction hv generalizing n with
  | same st files => rfl
  | pop hrest ih =>
    cases n with
    | zero => rfl
    | succ n => exact ih (fun st' line hc => hok st' line (.pop hc)) n
  | keep hlen hnext henter ihnext ihenter =>
    cases n with
    | zero => rfl
    | succ n =>
      refine run_cons_congr hlen rfl (fun out st₁ hs => ?_) fun out st₁ new hs => ?_
      · exact ihnext out st₁ hs (fun st' l hc => hok st' l (.next hs hc)) n
      · exact ihenter out st₁ new hs (fun st' l hc => hok st' l (.enter hs hc)) n
  | replace hlen hdead hline hline' hnext ihnext =>
    cases n with
    | zero => rfl
    | succ n =>
      have hstep := filterMacros_dead (hok _ _ (.here _ _ _ _)) hdead hline hline' h h
      refine run_cons_congr hlen hstep (fun out st₁ hs => ?_) fun out st₁ new hs => ?_
      · exact ihnext out st₁ hs (fun st' l hc => hok st' l (.next hs hc)) n
      · cases filterMacros_command_noFile hline hs

/-- In a run in which every line meets `stepOk`, no dead expression is
evaluated (the evaluator may be any other), and dead expressions can be replaced
by any tokens without a change in the output or in how the run ends. -/
theorem skipped_groups_inert (h : Hooks) (st : State) (files : List (List Text))
    (hok : ∀ st' line, Comes h st files st' line → stepOk st' line = true) :
    (∀ st' line, Comes h st files st' line → deadExpr st' line = true →
      ∀ ifEval, filterMacros { h with ifEval := ifEval } st' line = filterMacros h st' line) ∧
    ∀ files', Variant h st files files' → ∀ n, run h n st files' = run h n st files := by
  constructor
  · intro st' line hcomes hdead ifEval
    cases hk : lineKind line with
    | command c args => exact filterMacros_dead (hok _ _ hcomes) hdead hk hk h _
    | _ => simp [deadExpr, hk] at hdead
  · intro files' hv n
    exact hv.run_eq hok n

/-- The run over `line` goes on from `st₁`, so a variant of what follows is a
variant of the whole. -/
theorem Variant.step {h : Hooks} {st st₁ : State} {out : List Out} {line : Text}
    {lines lines' : List Text} {files files' : List (List Text)}
    (hlen : files.length = files'.length)
    (hstep : filterMacros h st line = (out, .ok (st₁, none)))
    (hrest : Variant h st₁ (lines :: files) (lines' :: files')) :
    Variant h st ((line :: lines) :: files) ((line :: lines') :: files') := by
  refine .keep hlen (fun out' st₂ hs => ?_) fun out' st₂ new hs => ?_
  · rw [hstep] at hs
    cases hs
    exact hrest
  · rw [hstep] at hs
    cases hs

/-- The lines a run comes to, one step at a time. -/
theorem Comes.step {h : Hooks} {st st₁ st' : State} {out : List Out} {line l : Text}
    {lines : List Text} {files : List (List Text)}
    (hcomes : Comes h st ((line :: lines) :: files) st' l)
    (hstep : filterMacros h st line = (out, .ok (st₁, none))) :
    (st' = st ∧ l = line) ∨ Comes h st₁ (lines :: files) st' l := by
  cases hcomes with
  | here => exact .inl ⟨rfl, rfl⟩
  | next hs hrest =>
    rw [hstep] at hs
    cases hs
    exact .inr hrest
  | enter hs hrest =>
    rw [hstep] at hs
    cases hs

/-- Evaluates the expressions `0` and `1`, and fails on any other. -/
def digitHooks : Hooks where
  ifEval t args :=
    if tokensJoin args = " 0".toList then .ok (false, t)
    else if tokensJoin args = " 1".toList then .ok (true, t)
    else .error .badExpression
  expandMacros t line := .ok (line, t)
  includeLines t _ := .ok ([], t)

/-- In the body of a conditional that is not taken. -/
def inSkipped : State := (State.init []).pushed [] false

/-- In the body of a conditional nested in a skipped one. -/
def inNested : State := inSkipped.pushed [] false

theorem digitHooks_zero :
    filterMacros digitHooks (State.init []) "#if 0".toList
      = ([.blank], .ok (inSkipped, none)) := by
  decide

theorem digitHooks_nested :
    filterMacros digitHooks inSkipped "#if 1".toList = ([.blank], .ok (inNested, none)) := by
  decide

theorem skipped_groups_inert_nested :
    run digitHooks 9 (State.init [])
        [["#if 0".toList, "#if /".toList, "#endif".toList, "#endif".toList]] =
      run digitHooks 9 (State.init [])
        [["#if 0".toList, "#if 1".toList, "#endif".toList, "#endif".toList]] := by
  refine (skipped_groups_inert digitHooks (State.init []) _ ?_).2 _ ?_ 9
  · intro st' line hcomes
    have hendif : filterMacros digitHooks inNested "#endif".toList =
        ([.blank], .ok (inSkipped, none)) := by decide
    have hendif' : filterMacros digitHooks inSkipped "#endif".toList =
        ([.blank], .ok (State.init [], none)) := by decide
    rcases hcomes.step digitHooks_zero with ⟨rfl, rfl⟩ | hcomes
    · decide
    rcases hcomes.step digitHooks_nested with ⟨rfl, rfl⟩ | hcomes
    · decide
    rcases hcomes.step hendif with ⟨rfl, rfl⟩ | hcomes
    · decide
    rcases hcomes.step hendif' with ⟨rfl, rfl⟩ | hcomes
    · decide
    cases hcomes with
    | pop hcomes => cases hcomes
  · have hline : lineKind "#if 1".toList = .command .if_ [⟨.other, "1".toList, true⟩] := by
      decide
    have hline' : lineKind "#if /".toList = .command .if_ [⟨.other, "/".toList, true⟩] := by
      decide
    exact .step rfl digitHooks_zero
      (.replace rfl (by decide) hline hline' fun _ _ _ => .same _ _)

/-- `#elif` of a conditional nested in a skipped group is evaluated. -/
theorem skipped_groups_not_inert :
    ¬ ∀ (h : Hooks) (st : State) (files : List (List Text)),
      (∀ st' line, Comes h st files st' line → deadExpr st' line = true →
        ∀ ifEval, filterMacros { h with ifEval := ifEval } st' line = filterMacros h st' line) ∧
      ∀ files', Variant h st files files' → ∀ n, run h n st files' = run h n st files := by
  intro hall
  have hline : lineKind "#elif 1".toList = .command .elif [⟨.other, "1".toList, true⟩] := by
    decide
  have hline' : lineKind "#elif /".toList = .command .elif [⟨.other, "/".toList, true⟩] := by
    decide
  have heq := (hall digitHooks (State.init [])
    [["#if 0".toList, "#if 1".toList, "#elif 1".toList, "#endif".toList, "#endif".toList]]).2
    [["#if 0".toList, "#if 1".toList, "#elif /".toList, "#endif".toList, "#endif".toList]]
    (.step rfl digitHooks_zero (.step rfl digitHooks_nested
      (.replace rfl (by decide) hline hline' fun _ _ _ => .same _ _))) 9
  revert heq
  decide

end Ucc.Cpp
