/-
  Cpp/Directive.lean --- conditional inclusion and the line loop.

  Source: src/cpp2/directive.c, and `filter_macros` / `preprocess` of
  src/cpp2/preproc.c.

  The state of the conditionals is a stack of saved (`if_chosen`, `noop`) pairs
  and the current pair.  `parse_should_noop` reads the whole stack, but
  `handle_if`, `handle_somedef` and `handle_elif` test only the current pair;
  the model keeps that difference.

  What a controlling expression evaluates to, what a line expands to and what an
  include file contains are supplied by `Hooks`: the definitions here are the
  control flow around those three calls and hold for any of them.

  The input is the sequence of logical lines, after splicing and comment
  removal, as a stack of files.  The output is what `puts`, `directive_sync` and
  `handle_pragma` print; line markers and diagnostics are left out.
-/
import Ucc.Cpp.Macro

set_option autoImplicit false

namespace Ucc.Cpp

/-! ## Classifying a line

`filter_macros` and `parse_directive` first find out which directive a line is.
That much depends on the text alone. -/

/-- The directives with a handler, by the name after `#`. -/
inductive Command where
  | ifdef
  | ifndef
  | if_
  | elif
  | else_
  | endif
  | define
  | undef
  | warning
  | error
  | pragma
  deriving DecidableEq, Repr, Inhabited

/-- The `HANDLE` chain of `parse_directive`. -/
def commandOf (w : Text) : Option Command :=
  if w = "ifdef".toList then some .ifdef
  else if w = "ifndef".toList then some .ifndef
  else if w = "if".toList then some .if_
  else if w = "elif".toList then some .elif
  else if w = "else".toList then some .else_
  else if w = "endif".toList then some .endif
  else if w = "define".toList then some .define
  else if w = "undef".toList then some .undef
  else if w = "warning".toList then some .warning
  else if w = "error".toList then some .error
  else if w = "pragma".toList then some .pragma
  else none

/-- `handle_line_directive`: whether the text after `#` is a line directive.
Its effect on the current location is not modelled. -/
def handleLineDirective (line : Text) : Except Fault Bool :=
  let line := strSpcSkip line
  let isLine := wordOf line = "line".toList
  if "line".toList.isPrefixOf line && !isLine then .ok false
  else
    let line := strSpcSkip (if isLine then wordEnd line else line)
    match strtol line with
    | none => if isLine then .error .badLineDirective else .ok false
    | some (v, rest) =>
        if toInt32 v < 0 then .error .badLineDirective
        else
          match strSpcSkip rest with
          | '"' :: fname =>
              if fname.isEmpty || !fname.contains '"' then .error .badLineDirective
              else .ok true
          | _ => .ok true

/-- What a line is, before any state is looked at. -/
inductive LineKind where
  /-- an ordinary line of the program -/
  | text
  /-- `# 12 "file"` or `#line 12` -/
  | lineDirective
  /-- `#include`, with the text after the word -/
  | include_ (arg rest : Text)
  /-- `#` alone: `tokenise` returns NULL -/
  | null
  /-- `#` followed by something that is not a word -/
  | notWord
  /-- a directive with a handler, and the tokens after its name -/
  | command (c : Command) (args : List Token)
  /-- any other word -/
  | unknown (w : Text)
  /-- a line that stops the preprocessor while it is being classified -/
  | bad (f : Fault)
  deriving DecidableEq, Repr, Inhabited

/-- The kind of a directive, from the text after its `#`. -/
def directiveKind (line : Text) : LineKind :=
  match handleLineDirective line with
  | .error f => .bad f
  | .ok true => .lineDirective
  | .ok false =>
      let start := strSpcSkip line
      if wordOf start = "include".toList then .include_ (start.drop 7) line
      else
        match tokenise line with
        | .error f => .bad f
        | .ok [] => .null
        | .ok (t :: args) =>
            if t.tok ≠ .word then .notWord
            else
              match commandOf t.w with
              | some c => .command c args
              | none => .unknown t.w

/-- The kind of a line: a directive when its first character, or its first
character after space, is `#`. -/
def lineKind (line : Text) : LineKind :=
  match strSpcSkip line with
  | '#' :: rest => directiveKind rest
  | _ => .text

/-! ## State -/

/-- `enum if_elif_state`. -/
inductive IfElifState where
  | noTruth
  | gotTruth
  | lastElse
  deriving DecidableEq, Repr, Inhabited

/-- An element of `if_stack`. -/
structure IfEntry where
  ifChosen : IfElifState
  noop : Bool
  deriving DecidableEq, Repr, Inhabited

/-- The preprocessor's state between two lines.  The head of `ifStack` is the
innermost saved entry, so `if_idx` is its length. -/
structure State where
  ifStack : List IfEntry
  noop : Bool
  ifElifChosen : IfElifState
  macros : Table
  deriving DecidableEq, Repr, Inhabited

/-- The state at the start of the input. -/
def State.init (macros : Table) : State := ⟨[], false, .noTruth, macros⟩

/-- `N_IFSTACK`. -/
def nIfStack : Nat := 64

/-- Some enclosing conditional, other than the innermost, is being skipped. -/
def State.outerNoop (st : State) : Bool := st.ifStack.any fun e => e.noop

/-- `parse_should_noop`. -/
def State.parseShouldNoop (st : State) : Bool := st.noop || st.outerNoop

/-- The calls out of the conditional machinery. -/
structure Hooks where
  /-- `if_eval`: the truth value of a controlling expression -/
  ifEval : Table → List Token → Except Fault (Bool × Table)
  /-- `eval_expand_macros` on a line of the program -/
  expandMacros : Table → Text → Except Fault (Text × Table)
  /-- `handle_include`: the lines of the file an argument names -/
  includeLines : Table → Text → Except Fault (List Text × Table)

/-- A piece of output. -/
inductive Out where
  /-- the expansion of a line of the program -/
  | line (raw expanded : Text)
  /-- the empty line that replaces a skipped line or a directive -/
  | blank
  /-- `#pragma`, passed on to the compiler -/
  | pragma (s : Text)
  deriving DecidableEq, Repr, Inhabited

/-- The lines passed to output, before expansion. -/
def passed : List Out → List Text
  | [] => []
  | .line raw _ :: os => raw :: passed os
  | _ :: os => passed os

theorem passed_append (a b : List Out) : passed (a ++ b) = passed a ++ passed b := by
  induction a with
  | nil => rfl
  | cons o a ih => cases o <;> simp [passed, ih]

/-! ## Handlers -/

/-- `if_push`. -/
def ifPush (st : State) (isTrue : Bool) : Except Fault State :=
  if st.ifStack.length + 1 = nIfStack then .error .ifStackExceeded
  else
    .ok { st with
      ifStack := ⟨st.ifElifChosen, st.noop⟩ :: st.ifStack
      noop := !isTrue
      ifElifChosen := if isTrue then .gotTruth else .noTruth }

/-- `handle_somedef`. -/
def handleSomedef (st : State) (args : List Token) (rev : Bool) : Except Fault State :=
  match singleToken (tokensSkipWhitespace args) with
  | none => .error .ifdefArguments
  | some nam =>
      if st.noop then ifPush st false
      else ifPush st (rev ^^ (macroFind st.macros nam).isSome)

/-- `handle_if`. -/
def handleIf (h : Hooks) (st : State) (args : List Token) : Except Fault State :=
  if st.noop then ifPush st false
  else
    match h.ifEval st.macros args with
    | .error f => .error f
    | .ok (b, t) => ifPush { st with macros := t } b

/-- `handle_elif`. -/
def handleElif (h : Hooks) (st : State) (args : List Token) : Except Fault State :=
  if st.ifStack = [] then .error .elseUnexpected
  else
    match st.ifElifChosen with
    | .gotTruth => .ok { st with noop := true }
    | .noTruth =>
        match h.ifEval st.macros args with
        | .error f => .error f
        | .ok (b, t) =>
            .ok { st with
              macros := t
              ifElifChosen := if b then .gotTruth else .noTruth
              noop := !b }
    | .lastElse => .error .elseRepeated

/-- `handle_else`. -/
def handleElse (st : State) : Except Fault State :=
  if st.ifStack = [] then .error .elseUnexpected
  else
    match st.ifElifChosen with
    | .gotTruth => .ok { st with noop := true, ifElifChosen := .lastElse }
    | .noTruth => .ok { st with noop := false, ifElifChosen := .lastElse }
    | .lastElse => .error .elseRepeated

/-- `handle_endif` and `if_pop`. -/
def handleEndif (st : State) : Except Fault State :=
  match st.ifStack with
  | [] => .error .endifUnexpected
  | e :: rest => .ok { st with ifStack := rest, noop := e.noop, ifElifChosen := e.ifChosen }

/-- Store a new macro table. -/
def withTable (st : State) : Except Fault Table → Except Fault State
  | .error f => .error f
  | .ok t => .ok { st with macros := t }

/-- `HANDLE` of a directive that has one.  The conditionals come first; after
them a skipped line is done with. -/
def handleCommand (h : Hooks) (st : State) (c : Command) (args : List Token) :
    List Out × Except Fault State :=
  match c with
  | .ifdef => ([.blank], handleSomedef st args false)
  | .ifndef => ([.blank], handleSomedef st args true)
  | .if_ => ([.blank], handleIf h st args)
  | .elif => ([.blank], handleElif h st args)
  | .else_ => ([.blank], handleElse st)
  | .endif => ([.blank], handleEndif st)
  | .define =>
      ([.blank], if st.parseShouldNoop then .ok st
        else withTable st (handleDefine st.macros args))
  | .undef =>
      ([.blank], if st.parseShouldNoop then .ok st
        else withTable st (handleUndef st.macros args))
  | .warning => ([.blank], .ok st)
  | .error =>
      ([.blank], if st.parseShouldNoop then .ok st
        else .error (.hashError (tokensJoin args)))
  | .pragma =>
      if st.parseShouldNoop then ([.blank], .ok st)
      else ([.blank, .pragma (tokensJoin args)], .ok st)

/-- The result of one line: its output, and the next state with the lines of a
newly opened include file. -/
abbrev LineResult := List Out × Except Fault (State × Option (List Text))

/-- A line that opens no file. -/
def noFile : Except Fault State → Except Fault (State × Option (List Text))
  | .error f => .error f
  | .ok st => .ok (st, none)

/-- `filter_macros`, followed by the `puts` of `preprocess`. -/
def filterMacros (h : Hooks) (st : State) (line : Text) : LineResult :=
  match lineKind line with
  | .text =>
      if st.parseShouldNoop then ([.blank], .ok (st, none))
      else
        match h.expandMacros st.macros line with
        | .error f => ([], .error f)
        | .ok (expanded, t) => ([.line line expanded], .ok ({ st with macros := t }, none))
  | .bad f => ([], .error f)
  | .lineDirective => ([], .ok (st, none))
  | .include_ arg rest =>
      if st.parseShouldNoop then
        -- a skipped `#include` is tokenised like any other directive
        match tokenise rest with
        | .error f => ([], .error f)
        | .ok _ => ([.blank], .ok (st, none))
      else
        match h.includeLines st.macros arg with
        | .error f => ([.blank], .error f)
        | .ok (lines, t) => ([.blank], .ok ({ st with macros := t }, some lines))
  | .null => ([], .ok (st, none))
  | .notWord =>
      ([], if st.parseShouldNoop then .ok (st, none) else .error .invalidPreprocToken)
  | .unknown w =>
      ([.blank], if st.parseShouldNoop then .ok (st, none)
        else .error (.unrecognisedCommand w))
  | .command c args =>
      let r := handleCommand h st c args
      (r.1, noFile r.2)

/-! ## The line loop -/

/-- The size of `file_stack`. -/
def nFileStack : Nat := 64

/-- The output so far and, unless the loop is still running, how it ended. -/
abbrev RunResult := Option (List Out × Except Fault State)

/-- Put output in front of a result. -/
def emit (out : List Out) : RunResult → RunResult
  | none => none
  | some (out', r) => some (out ++ out', r)

@[simp] theorem emit_nil (r : RunResult) : emit [] r = r := by
  cases r <;> rfl

theorem emit_emit (a b : List Out) (r : RunResult) :
    emit a (emit b r) = emit (a ++ b) r := by
  cases r <;> simp [emit]

/-- The `while` loop of `preprocess` over a stack of files, for at most `n`
reads; `none` when the loop has not ended by then. -/
def run (h : Hooks) : Nat → State → List (List Text) → RunResult
  | 0, _, _ => none
  | _ + 1, st, [] => some ([], .ok st)
  | n + 1, st, [] :: files => run h n st files
  | n + 1, st, (line :: lines) :: files =>
      match filterMacros h st line with
      | (out, .error f) => some (out, .error f)
      | (out, .ok (st', none)) => emit out (run h n st' (lines :: files))
      | (out, .ok (st', some new)) =>
          -- `preproc_push` puts the new file on the stack
          if files.length + 2 = nFileStack + 1 then some (out, .error .tooManyIncludes)
          else emit out (run h n st' (new :: lines :: files))

/-- `parse_end_validate`. -/
def parseEndValidate (st : State) : Except Fault State :=
  if st.ifStack = [] then .ok st else .error .endifExpected

/-- `preprocess`, on a main file. -/
def preprocess (h : Hooks) (n : Nat) (macros : Table) (file : List Text) : RunResult :=
  (run h n (State.init macros) [file]).map fun r =>
    (r.1, match r.2 with
      | .error f => .error f
      | .ok st => parseEndValidate st)

end Ucc.Cpp
