/-
  Cpp/Macro.lean --- the macro table and the directives that change it.

  Source: src/cpp2/macro.c, and `handle_define` / `handle_undef` of
  src/cpp2/directive.c.

  The table is the list of the macros in order of first definition; `macro_find`
  walks it from the front.  A macro keeps two counters besides its definition:
  `blue`, raised while the macro is being expanded, and `use_cnt`, which the
  snapshots of snapshot.c compare.  Neither is touched by the directives.
  `defs` forgets the counters.
-/
import Ucc.Cpp.Text

set_option autoImplicit false

namespace Ucc.Cpp

/-- The `type` field of a macro. -/
inductive MacroType where
  | object
  | func
  | variadic
  deriving DecidableEq, Repr, Inhabited

/-- `struct macro`.  `val = none` marks a builtin, whose value is computed when
it is expanded. -/
structure Macro where
  nam : Text
  val : Option Text
  type : MacroType
  args : List Text
  blue : Int
  useCnt : Int
  deriving DecidableEq, Repr, Inhabited

/-- A definition: a macro without its counters. -/
structure Def where
  nam : Text
  val : Option Text
  type : MacroType
  args : List Text
  deriving DecidableEq, Repr, Inhabited

/-- The definition a macro carries. -/
def Macro.toDef (m : Macro) : Def := ⟨m.nam, m.val, m.type, m.args⟩

/-- The macro table. -/
abbrev Table := List Macro

/-- The definitions of a table. -/
def Table.defs (t : Table) : List Def := t.map Macro.toDef

/-- `macro_find`. -/
def macroFind (t : Table) (nam : Text) : Option Macro := t.find? fun m => m.nam == nam

/-- Whether a name is defined, read off the definitions alone. -/
def isDefined (ds : List Def) (nam : Text) : Bool := ds.any fun d => d.nam == nam

theorem isSome_macroFind (t : Table) (nam : Text) :
    (macroFind t nam).isSome = isDefined t.defs nam := by
  induction t with
  | nil => rfl
  | cons m t ih =>
    cases h : m.nam == nam with
    | true => simp [macroFind, isDefined, Table.defs, Macro.toDef, h]
    | false =>
      simp only [macroFind, isDefined, Table.defs] at ih
      simp only [macroFind, isDefined, Table.defs, List.find?_cons, h, List.map_cons,
        List.any_cons, ih, Macro.toDef, Bool.false_or]

/-- The definition `macro_find` gives. -/
def findDef (ds : List Def) (nam : Text) : Option Def := ds.find? fun d => d.nam == nam

theorem macroFind_findDef {t : Table} {nam : Text} {m : Macro} (h : macroFind t nam = some m) :
    findDef t.defs nam = some m.toDef := by
  induction t with
  | nil => simp [macroFind] at h
  | cons m₀ t ih =>
    by_cases hm : m₀.nam = nam
    · have heq : m₀ = m := by simpa [macroFind, hm] using h
      subst heq
      simp [findDef, Table.defs, Macro.toDef, hm]
    · have htail := ih (by simpa [macroFind, hm] using h)
      simpa [findDef, Table.defs, Macro.toDef, hm] using htail

/-- The name that `#define` may not use. -/
def definedStr : Text := "defined".toList

/-- Replace the first macro called `nam`. -/
def updateFirst (nam : Text) (f : Macro → Macro) : Table → Table
  | [] => []
  | m :: t => if m.nam == nam then f m :: t else m :: updateFirst nam f t

/-- `macro_add`: redefine in place, or append a fresh macro.  Redefining a
function-like macro as an object-like one leaves its parameter list behind. -/
def macroAdd (t : Table) (nam : Text) (val : Text) : Except Fault Table :=
  if nam = definedStr then .error (.badMacroName nam)
  else
    match macroFind t nam with
    | some m =>
        match m.val with
        | none => .error (.badMacroName nam)
        | some _ =>
            .ok (updateFirst nam (fun m => { m with val := some val, type := .object }) t)
    | none => .ok (t ++ [⟨nam, some val, .object, [], 0, 0⟩])

/-- `macro_add_func`. -/
def macroAddFunc (t : Table) (nam val : Text) (args : List Text) (variadic : Bool) :
    Except Fault Table :=
  match macroAdd t nam val with
  | .error f => .error f
  | .ok t' =>
      .ok (updateFirst nam
        (fun m => { m with args := args, type := if variadic then .variadic else .func }) t')

/-- `macro_remove`: drop the first macro called `nam`, if there is one. -/
def macroRemove (nam : Text) (t : Table) : Table := t.eraseP fun m => m.nam == nam

/-! ## `#define` and `#undef` -/

/-- The parameter list of a function-like macro, from the token after the
opening parenthesis: the names, whether `...` ended it, and the body's tokens.
Running out of tokens between two parameters is accepted; running out right
after a name or after `...` reads through NULL. -/
def readParams : List Token → List Text → Except Fault (List Text × Bool × List Token)
  | [], args => .ok (args, false, [])
  | t :: ts, args =>
      match t.tok with
      | .closeParen => .ok (args, false, ts)
      | .elipsis =>
          match ts with
          | [] => .error .crash
          | t' :: ts' =>
              if t'.tok = .closeParen then .ok (args, true, ts') else .error .badParameterList
      | .word =>
          match ts with
          | [] => .error .crash
          | t' :: ts' =>
              match t'.tok with
              | .comma => readParams ts' (args ++ [tokenStr t])
              | .closeParen => .ok (args ++ [tokenStr t], false, ts')
              | _ => .error .badParameterList
      | _ => .error .badParameterList

/-- Join the body's tokens, the first one without its leading space. -/
def joinBody : List Token → Text
  | [] => []
  | t :: ts => tokensJoin ({ t with hadWhitespace := false } :: ts)

/-- `handle_define`, once the directive is known to be live. -/
def handleDefine (t : Table) : List Token → Except Fault Table
  | [] => .error .crash
  | name :: ts =>
      if name.tok ≠ .word then .error .wordExpected
      else
        match ts with
        | [] => macroAdd t name.w []
        | p :: ps =>
            if p.tok = .openParen ∧ p.hadWhitespace = false then
              match readParams ps [] with
              | .error f => .error f
              | .ok (args, variadic, body) =>
                  macroAddFunc t name.w (joinBody body) args variadic
            else macroAdd t name.w (joinBody (p :: ps))

/-- `handle_undef`, once the directive is known to be live. -/
def handleUndef (t : Table) (ts : List Token) : Except Fault Table :=
  match singleToken ts with
  | none => .error .undefArguments
  | some nam => .ok (macroRemove nam t)

/-! ## The directives act on the definitions

Two tables with the same definitions stay so under every directive: what
`#define` and `#undef` do never depends on the counters. -/

theorem defs_updateFirst {t t' : Table} {nam : Text} {f : Macro → Macro}
    (hf : ∀ m m' : Macro, m.toDef = m'.toDef → (f m).toDef = (f m').toDef)
    (h : t.defs = t'.defs) :
    Table.defs (updateFirst nam f t) = Table.defs (updateFirst nam f t') := by
  induction t generalizing t' with
  | nil =>
    cases t' with
    | nil => rfl
    | cons m' t' => simp [Table.defs] at h
  | cons m t ih =>
    cases t' with
    | nil => simp [Table.defs] at h
    | cons m' t' =>
      simp only [Table.defs, List.map_cons, List.cons.injEq] at h
      have hnam : m.nam = m'.nam := congrArg Def.nam h.1
      have htail := ih h.2
      simp only [updateFirst, hnam]
      split
      · simpa [Table.defs] using ⟨hf m m' h.1, h.2⟩
      · simpa [Table.defs] using ⟨h.1, htail⟩

theorem macroFind_toDef {t t' : Table} (h : t.defs = t'.defs) (nam : Text) :
    (macroFind t nam).map Macro.toDef = (macroFind t' nam).map Macro.toDef := by
  induction t generalizing t' with
  | nil =>
    cases t' with
    | nil => rfl
    | cons m' t' => simp [Table.defs] at h
  | cons m t ih =>
    cases t' with
    | nil => simp [Table.defs] at h
    | cons m' t' =>
      simp only [Table.defs, List.map_cons, List.cons.injEq] at h
      have hnam : m.nam = m'.nam := congrArg Def.nam h.1
      have htail := ih h.2
      by_cases hm : m'.nam = nam
      · simp [macroFind, hnam, hm, h.1]
      · simpa [macroFind, hnam, hm] using htail

/-- Two results of a table operation that agree on the definitions and on the
fault. -/
def SameDefs : Except Fault Table → Except Fault Table → Prop
  | .ok t, .ok t' => t.defs = t'.defs
  | .error f, .error f' => f = f'
  | _, _ => False

theorem sameDefs_macroAdd {t t' : Table} (h : t.defs = t'.defs) (nam val : Text) :
    SameDefs (macroAdd t nam val) (macroAdd t' nam val) := by
  unfold macroAdd
  split
  · exact rfl
  · have hfind := macroFind_toDef h nam
    cases hm : macroFind t nam with
    | none =>
      cases hm' : macroFind t' nam with
      | some m' => simp [hm, hm'] at hfind
      | none =>
        show Table.defs (t ++ _) = Table.defs (t' ++ _)
        simp only [Table.defs, List.map_append] at h ⊢
        rw [h]
    | some m =>
      cases hm' : macroFind t' nam with
      | none => simp [hm, hm'] at hfind
      | some m' =>
        have hval : m.val = m'.val := by
          simpa [hm, hm', Macro.toDef] using congrArg (Option.map Def.val) hfind
        dsimp only
        rw [hval]
        cases m'.val with
        | none => exact rfl
        | some _ =>
          refine defs_updateFirst ?_ h
          intro a b hab
          simp only [Macro.toDef, Def.mk.injEq] at hab ⊢
          exact ⟨hab.1, trivial, trivial, hab.2.2.2⟩

theorem sameDefs_macroAddFunc {t t' : Table} (h : t.defs = t'.defs) (nam val : Text)
    (args : List Text) (variadic : Bool) :
    SameDefs (macroAddFunc t nam val args variadic)
      (macroAddFunc t' nam val args variadic) := by
  have hadd := sameDefs_macroAdd h nam val
  unfold macroAddFunc
  cases ha : macroAdd t nam val with
  | error f =>
    cases ha' : macroAdd t' nam val with
    | ok u' => simp [ha, ha', SameDefs] at hadd
    | error f' => simpa [ha, ha', SameDefs] using hadd
  | ok u =>
    cases ha' : macroAdd t' nam val with
    | error f' => simp [ha, ha', SameDefs] at hadd
    | ok u' =>
      have hu : u.defs = u'.defs := by simpa [ha, ha', SameDefs] using hadd
      refine defs_updateFirst ?_ hu
      intro a b hab
      simp only [Macro.toDef, Def.mk.injEq] at hab ⊢
      exact ⟨hab.1, hab.2.1, trivial, trivial⟩

theorem sameDefs_handleDefine {t t' : Table} (h : t.defs = t'.defs) (ts : List Token) :
    SameDefs (handleDefine t ts) (handleDefine t' ts) := by
  unfold handleDefine
  split
  · exact rfl
  · split
    · exact rfl
    · split
      · exact sameDefs_macroAdd h _ _
      · split
        · split
          · exact rfl
          · exact sameDefs_macroAddFunc h _ _ _ _
        · exact sameDefs_macroAdd h _ _

theorem defs_macroRemove {t t' : Table} (h : t.defs = t'.defs) (nam : Text) :
    Table.defs (macroRemove nam t) = Table.defs (macroRemove nam t') := by
  induction t generalizing t' with
  | nil =>
    cases t' with
    | nil => rfl
    | cons m' t' => simp [Table.defs] at h
  | cons m t ih =>
    cases t' with
    | nil => simp [Table.defs] at h
    | cons m' t' =>
      simp only [Table.defs, List.map_cons, List.cons.injEq] at h
      have hnam : m.nam = m'.nam := congrArg Def.nam h.1
      have htail := ih h.2
      simp only [macroRemove, List.eraseP_cons, hnam] at htail ⊢
      cases m'.nam == nam with
      | true => exact h.2
      | false => simpa [Table.defs] using ⟨h.1, htail⟩

theorem sameDefs_handleUndef {t t' : Table} (h : t.defs = t'.defs) (ts : List Token) :
    SameDefs (handleUndef t ts) (handleUndef t' ts) := by
  unfold handleUndef
  split
  · exact rfl
  · exact defs_macroRemove h _

end Ucc.Cpp
