/-
  Cpp/Eval.lean --- macro expansion.

  Source: src/cpp2/eval.c and src/cpp2/snapshot.c, with `has_func` of
  src/cpp2/has.c.

  `eval_expand_macros` rewrites a line in place.  After each replacement it
  rescans the whole line from its start, with the replaced macro and every macro
  used meanwhile painted blue, and then goes on at an offset it took before the
  rescan.  The model keeps the block the line lives in, so an offset that ends up
  behind the terminator reads what the C program reads there; an offset outside
  the block is a crash.

  The functions below `expandFrom` take the rescan as an argument.  `expandFrom`
  ties the knot with a bound on the number of turns and calls.
-/
import Ucc.Cpp.Macro
import Ucc.Lib.Partial

set_option autoImplicit false

namespace Ucc.Cpp

open Ucc.Lib

/-! ## State -/

/-- The handlers of `has_tbl`. -/
inductive HasFn where
  | feature
  | extension
  | attribute
  | builtin
  deriving DecidableEq, Repr, Inhabited

/-- What the builtin macros read. -/
structure Env where
  currentFname : Text
  currentLine : Nat
  cppDate : Text
  cppTime : Text
  cppTimestamp : Text
  cppBasefile : Text
  /-- the tables behind `__has_feature` and its relatives -/
  has : HasFn → Text → Bool

/-- The macro table and the value of `__COUNTER__`. -/
structure EvalState where
  macros : Table
  counter : Nat
  deriving DecidableEq, Repr, Inhabited

/-- A line, the position of the scan in it, and the state. -/
structure Scan where
  st : EvalState
  buf : Buf
  pos : Nat
  deriving DecidableEq, Repr, Inhabited

/-- A result of the expansion, or nothing when it has not ended. -/
abbrev EvalM := Partial Fault

/-- A rescan: the line with its state before and after. -/
abbrev Rescan := EvalState → Buf → EvalM (EvalState × Buf)

/-- Apply a function to the macro table. -/
def EvalState.update (f : Table → Table) (st : EvalState) : EvalState :=
  { st with macros := f st.macros }

/-! ## Snapshots -/

/-- `snapshot_take`: the use counts. -/
def snapshotTake (t : Table) : List Int := t.map Macro.useCnt

/-- `snapshot_restore_used`. -/
def snapshotRestoreUsed (pre : List Int) (t : Table) : Table :=
  List.zipWith (fun c m => { m with useCnt := c }) pre t

/-- `snapshot_alter_blue`. -/
def snapshotAlterBlue (pre post : List Int) (change : Int) (t : Table) : Table :=
  List.zipWith (fun d m => { m with blue := m.blue + d })
    (List.zipWith (fun a b => if a ≠ b then change else 0) pre post) t

/-- `macro_use`. -/
def macroUse (nam : Text) (adj : Int) (t : Table) : Table :=
  updateFirst nam (fun m => { m with useCnt := m.useCnt + adj }) t

/-- `m->blue += adj`. -/
def macroBlue (nam : Text) (adj : Int) (t : Table) : Table :=
  updateFirst nam (fun m => { m with blue := m.blue + adj }) t

/-! ## Arguments of a function-like macro -/

/-- The loop of `split_func_args`; `cur` holds the tokens since the last comma. -/
def splitArgs : Int → List Token → List Token → List Text
  | _, cur, [] => [tokensJoin cur]
  | nest, cur, t :: ts =>
      match t.tok with
      | .comma =>
          if nest = 0 then tokensJoin cur :: splitArgs nest [] ts
          else splitArgs nest (cur ++ [t]) ts
      | .openParen => splitArgs (nest + 1) (cur ++ [t]) ts
      | .closeParen => splitArgs (nest - 1) (cur ++ [t]) ts
      | _ => splitArgs nest (cur ++ [t]) ts

/-- `split_func_args`. -/
def splitFuncArgs (argsStr : Text) : Except Fault (List Text) :=
  match tokenise argsStr with
  | .error f => .error f
  | .ok [] => .ok []
  | .ok ts => .ok (splitArgs 0 [] ts)

/-- `VA_ARGS_STR`. -/
def vaArgsStr : Text := "__VA_ARGS__".toList

/-- The arguments behind the named ones, as `__VA_ARGS__` stands for them. -/
def vaArgs (m : Macro) (args : List Text) : Text :=
  strJoin ", ".toList (args.drop m.args.length)

/-- The argument of the parameter `word`. -/
def paramArg : List Text → List Text → Text → Except Fault (Option Text)
  | [], _, _ => .ok none
  | p :: ps, args, word =>
      if p = word then
        match args with
        | [] => .error .crash
        | a :: _ => .ok (some a)
      else paramArg ps args.tail word

/-- `find_arg`: `none` when the word is no parameter and stands for itself. -/
def findArg (m : Macro) (word : Text) (args : List Text) : Except Fault (Option Text) :=
  if word = vaArgsStr then .ok (some (vaArgs m args))
  else paramArg m.args args word

/-- `noeval_hash`: the operand of `#` or `##`. -/
def noevalHash (m : Macro) (args : List Text) (needArg : Bool) :
    Option Token → Except Fault Text
  | none => .error (.badInvocation m.nam)
  | some t =>
      if t.tok ≠ .word then .error (.badInvocation m.nam)
      else
        match findArg m t.w args with
        | .error f => .error f
        | .ok (some a) => .ok a
        | .ok none => if needArg then .error (.badInvocation m.nam) else .ok t.w

/-- The operands of a run of `##` after a first word, joined to it, and the
tokens that follow. -/
def hashJoins (m : Macro) (args : List Text) : Text → List Token → Except Fault (Text × List Token)
  | word, [] => .ok (word, [])
  | word, [t] =>
      if t.tok = .hashJoin then .error (.badInvocation m.nam) else .ok (word, [t])
  | word, t :: t' :: ts =>
      if t.tok = .hashJoin then
        match noevalHash m args false (some t') with
        | .error f => .error f
        | .ok w => hashJoins m args (word ++ w) ts
      else .ok (word, t :: t' :: ts)

/-- `APPEND`. -/
def appendTok (replace : Text) (ws : Bool) (w : Text) : Text :=
  replace ++ (if ws && !replace.isEmpty then [' '] else []) ++ w

/-- An argument expanded on its own: its uses do not count. -/
def expandArg (rescan : Rescan) (st : EvalState) (word : Text) : EvalM (EvalState × Text) := do
  let (st', b) ← rescan st (alloc word)
  pure (st'.update (snapshotRestoreUsed (snapshotTake st.macros)), cstr b)

/-- The loop of `eval_func_macro` over the tokens of the body; `n` is at least
their number. -/
def evalTokens (rescan : Rescan) (m : Macro) (args : List Text) :
    Nat → EvalState → Text → List Token → EvalM (EvalState × Text)
  | 0, st, replace, _ => pure (st, replace)
  | _ + 1, st, replace, [] => pure (st, replace)
  | n + 1, st, replace, t :: ts =>
      match t.tok with
      | .hashQuote => do
          let w ← .ofExcept (noevalHash m args true ts.head?)
          evalTokens rescan m args n st
            (appendTok replace t.hadWhitespace (strQuote w)) ts.tail
      | .hashJoin => .die (.badInvocation m.nam)
      | .word =>
          if ts.head?.map Token.tok = some .hashJoin then do
            let first ← .ofExcept (noevalHash m args false (some t))
            let (word, ts) ← .ofExcept (hashJoins m args first ts)
            evalTokens rescan m args n st (appendTok replace t.hadWhitespace word) ts
          else do
            let arg ← .ofExcept (findArg m t.w args)
            match arg with
            | none =>
                evalTokens rescan m args n st (appendTok replace t.hadWhitespace t.w) ts
            | some a => do
                let (st, word) ← expandArg rescan st a
                evalTokens rescan m args n st (appendTok replace t.hadWhitespace word) ts
      | _ => evalTokens rescan m args n st (appendTok replace t.hadWhitespace (tokenStr t)) ts

/-- `has_func`: `none` stands for -1. -/
def hasFunc (E : Env) (fn arg : Text) : Option Bool :=
  let fn := if "__has_".toList.isPrefixOf fn then fn.drop 6 else fn
  if fn = "feature".toList then some (E.has .feature arg)
  else if fn = "extension".toList then some (E.has .extension arg)
  else if fn = "attribute".toList then some (E.has .attribute arg)
  else if fn = "builtin".toList then some (E.has .builtin arg)
  else none

/-- The arguments that an invocation supplies, once their number is checked. -/
def checkArgs (m : Macro) (args : List Text) : Except Fault (List Text) :=
  let got := args.length
  let exp := m.args.length
  if (if m.type = .variadic then got < exp else got ≠ exp) then
    if got = 0 ∧ exp = 1 then .ok [[]] else .error (.badInvocation m.nam)
  else .ok (args.map strTrim)

/-- `eval_func_macro`. -/
def evalFuncMacro (E : Env) (rescan : Rescan) (m : Macro) (st : EvalState) (argsStr : Text) :
    EvalM (EvalState × Text) := do
  let args ← .ofExcept (splitFuncArgs argsStr)
  match m.val with
  | none =>
      match args with
      | [a] =>
          match hasFunc E m.nam a with
          | none => .die (.badInvocation m.nam)
          | some r => pure (st, if r then ['1'] else ['0'])
      | _ => .die (.badInvocation m.nam)
  | some val => do
      let args ← .ofExcept (checkArgs m args)
      let toks ← .ofExcept (tokenise val)
      evalTokens rescan m args toks.length st [] toks

/-! ## Expansion of a line -/

/-- `HAS_INCLUDE_STR`. -/
def hasIncludeStr : Text := "__has_include".toList

/-- The value of an object-like macro, and the state after `__COUNTER__`. -/
def objectValue (E : Env) (m : Macro) (st : EvalState) : Except Fault (EvalState × Text) :=
  match m.val with
  | some val => .ok (st, val)
  | none =>
      if m.nam = "__FILE__".toList then .ok (st, strQuote E.currentFname)
      else if m.nam = "__LINE__".toList then .ok (st, Nat.toDigits 10 E.currentLine)
      else if m.nam = "__COUNTER__".toList then
        .ok ({ st with counter := st.counter + 1 }, Nat.toDigits 10 st.counter)
      else if m.nam = "__DATE__".toList then .ok (st, E.cppDate)
      else if m.nam = "__TIME__".toList then .ok (st, E.cppTime)
      else if m.nam = "__TIMESTAMP__".toList then .ok (st, E.cppTimestamp)
      else if m.nam = "__BASE_FILE__".toList then .ok (st, E.cppBasefile)
      else .error .ice

/-- What follows the name of a function-like macro at `pos`. -/
inductive Call where
  /-- no parenthesis: the name stands for itself -/
  | none
  /-- the parenthesis is not closed -/
  | unterminated
  /-- the text between the parentheses, and the position behind them -/
  | args (argsStr : Text) (fin : Nat)
  deriving DecidableEq, Repr, Inhabited

/-- `open_b` and `close_b` of `eval_macro_r`. -/
def callOf (m : Macro) (b : Buf) (pos : Nat) : Call :=
  match strSpcSkip (b.drop (pos + m.nam.length)) with
  | '(' :: s =>
      match strchrNest ')' 0 ('(' :: s) with
      | .none => .unterminated
      | some close => .args (s.take (s.length - close.length)) (b.length - close.length + 1)
  | _ => .none

/-- `eval_macro_r`: replace one invocation. -/
def evalMacroR (E : Env) (rescan : Rescan) (m : Macro) (s : Scan) : EvalM Scan :=
  if m.type = .object then do
    let (st, val) ← .ofExcept (objectValue E m s.st)
    pure ⟨st, strReplace s.buf s.pos (s.pos + m.nam.length) val, s.pos + val.length⟩
  else
    match callOf m s.buf s.pos with
    | .none => pure { s with st := s.st.update (macroUse m.nam (-1)) }
    | .unterminated => .die (.badInvocation m.nam)
    | .args argsStr fin =>
        if m.nam = hasIncludeStr then pure s
        else do
          let (st, val) ← evalFuncMacro E rescan m s.st argsStr
          pure ⟨st, strReplace s.buf s.pos fin val, s.pos + val.length⟩

/-- `eval_macro_double_eval`: the position is taken before the rescan. -/
def evalMacroDoubleEval (E : Env) (rescan : Rescan) (m : Macro) (s : Scan) : EvalM Scan := do
  let pre := snapshotTake s.st.macros
  let s ← evalMacroR E rescan m s
  let post := snapshotTake s.st.macros
  let (st, b) ← rescan (s.st.update (snapshotAlterBlue pre post 1)) s.buf
  pure ⟨st.update (snapshotAlterBlue pre post (-1)), b, s.pos⟩

/-- `eval_macro`. -/
def evalMacro (E : Env) (rescan : Rescan) (m : Macro) (s : Scan) : EvalM Scan :=
  if m.blue ≠ 0 then pure { s with pos := s.pos + m.nam.length }
  else do
    let st := s.st.update fun t => macroBlue m.nam 1 (macroUse m.nam 1 t)
    let s ← evalMacroDoubleEval E rescan m { s with st := st }
    pure { s with st := s.st.update (macroBlue m.nam (-1)) }

/-- What the scan does at a position of the line. -/
inductive Turn where
  /-- the end of the line, or no word left on it -/
  | done
  /-- a read outside the block -/
  | outside
  /-- nothing to expand before `pos` -/
  | skip (pos : Nat)
  /-- the name of the macro `m` at `pos` -/
  | found (m : Macro) (pos : Nat)
  deriving DecidableEq, Repr, Inhabited

/-- One turn of the loop of `eval_expand_macros`, up to the call of `eval_macro`.
`L` in front of a string is stepped over together with its quote. -/
def turnOf (t : Table) (b : Buf) (pos : Nat) : Turn :=
  if b.length ≤ pos then .outside
  else
    match wordFindAny b.length (b.drop pos) with
    | none => .done
    | some s =>
        let start := b.length - s.length
        let fin := start + (wordOf s).length
        if wordOf s = ['L'] ∧ (b.drop fin).head? = some '"' then .skip fin
        else
          match macroFind t (wordOf s) with
          | some m => .found m start
          | none => .skip fin

/-- The end of a turn: where the loop goes on, when it does. -/
def nextPos (b : Buf) (pos : Nat) (checkQuote : Bool) : Except Fault (Option Nat) :=
  match b.drop pos with
  | [] => .error .crash
  | c :: s =>
      if checkQuote && isQuote c && (strQuotefin2 c s).isNone then .error .ice
      else if c == nul then .ok none
      else .ok (some (pos + 1))

/-- The loop of `eval_expand_macros`. -/
def expandFrom (E : Env) : Nat → Scan → EvalM (EvalState × Buf)
  | 0, _ => .deep
  | n + 1, s =>
      match turnOf s.st.macros s.buf s.pos with
      | .done => pure (s.st, s.buf)
      | .outside => .die .crash
      | .skip pos => do
          match ← .ofExcept (nextPos s.buf pos false) with
          | none => pure (s.st, s.buf)
          | some pos => expandFrom E n { s with pos := pos }
      | .found m pos => do
          let s ← evalMacro E (fun st b => expandFrom E n ⟨st, b, 0⟩) m { s with pos := pos }
          match ← .ofExcept (nextPos s.buf s.pos true) with
          | none => pure (s.st, s.buf)
          | some pos => expandFrom E n { s with pos := pos }

/-- `eval_expand_macros`. -/
def evalExpandMacros (E : Env) (n : Nat) (st : EvalState) (line : Text) :
    EvalM (EvalState × Text) := do
  let (st, b) ← expandFrom E n ⟨st, alloc line, 0⟩
  pure (st, cstr b)

end Ucc.Cpp
