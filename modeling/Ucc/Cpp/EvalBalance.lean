/-
  Cpp/EvalBalance.lean --- expansion leaves the blue counters as it found them.

  `Table.painted` forgets the use counts and keeps the definitions and the blue
  counters.  Every function of Cpp/Eval.lean that returns gives the table back
  with the same definitions and counters, provided the rescan it is given does;
  `expandFrom_painted` is the induction on the bound that discharges this for the
  rescan.

  The second half shows that a larger bound never changes what a smaller one
  returned.
-/
import Ucc.Cpp.Eval

set_option autoImplicit false

namespace Ucc.Cpp

open Ucc.Lib

/-! ## Operations on the table -/

/-- A macro without its use count. -/
def Macro.painted (m : Macro) : Macro := { m with useCnt := 0 }

/-- The table without its use counts. -/
def Table.painted (t : Table) : Table := t.map Macro.painted

theorem Table.painted_length (t : Table) : t.painted.length = t.length := List.length_map _

theorem length_eq_of_painted {t t' : Table} (h : t.painted = t'.painted) :
    t.length = t'.length := by
  have hlen := congrArg List.length h
  rwa [Table.painted_length, Table.painted_length] at hlen

theorem blue_eq_of_painted {t t' : Table} (h : t.painted = t'.painted) :
    t.map Macro.blue = t'.map Macro.blue := by
  have hblue := congrArg (List.map Macro.blue) h
  simpa [Table.painted, Macro.painted, Function.comp_def] using hblue

theorem defs_eq_of_painted {t t' : Table} (h : t.painted = t'.painted) :
    t.defs = t'.defs := by
  have hdefs := congrArg (List.map Macro.toDef) h
  rwa [Table.painted, Table.painted, List.map_map, List.map_map] at hdefs

theorem updateFirst_painted (nam : Text) (f g : Macro → Macro)
    (hfg : ∀ m, (f m).painted = g m.painted) (t : Table) :
    (updateFirst nam f t).painted = updateFirst nam g t.painted := by
  induction t with
  | nil => rfl
  | cons m t ih =>
    have hnam : m.painted.nam = m.nam := rfl
    simp only [Table.painted, List.map_cons, updateFirst, hnam] at ih ⊢
    split
    · simp only [List.map_cons, hfg]
    · simp only [List.map_cons, ih]

theorem updateFirst_id {nam : Text} {f : Macro → Macro} (hf : ∀ m, f m = m) (t : Table) :
    updateFirst nam f t = t := by
  induction t with
  | nil => rfl
  | cons m t ih => simp only [updateFirst, hf, ih, ite_self]

theorem updateFirst_comp (nam : Text) (f g : Macro → Macro) (hg : ∀ m, (g m).nam = m.nam)
    (t : Table) :
    updateFirst nam f (updateFirst nam g t) = updateFirst nam (fun m => f (g m)) t := by
  induction t with
  | nil => rfl
  | cons m t ih =>
    by_cases hm : m.nam == nam
    · simp [updateFirst, hm, hg]
    · simp [updateFirst, hm, ih]

@[simp] theorem macroUse_painted (nam : Text) (adj : Int) (t : Table) :
    (macroUse nam adj t).painted = t.painted := by
  unfold macroUse
  rw [updateFirst_painted nam _ id, updateFirst_id]
  · intro m
    rfl
  · intro m
    rfl

theorem macroBlue_painted (nam : Text) (adj : Int) (t : Table) :
    (macroBlue nam adj t).painted = macroBlue nam adj t.painted := by
  unfold macroBlue
  apply updateFirst_painted
  intro m
  rfl

/-- Lowering a counter undoes raising it. -/
theorem macroBlue_cancel (nam : Text) (t : Table) :
    macroBlue nam (-1) (macroBlue nam 1 t) = t := by
  unfold macroBlue
  rw [updateFirst_comp, updateFirst_id]
  · intro m
    simp
  · intro m
    rfl

theorem snapshotRestoreUsed_painted {pre : List Int} {t : Table} (hlen : pre.length = t.length) :
    (snapshotRestoreUsed pre t).painted = t.painted := by
  unfold snapshotRestoreUsed
  induction t generalizing pre with
  | nil => simp
  | cons m t ih =>
    cases pre with
    | nil => simp at hlen
    | cons c pre =>
      have htail := ih (by simpa using hlen)
      simp only [Table.painted] at htail
      simp [Table.painted, Macro.painted, htail]

theorem snapshotAlterBlue_painted (pre post : List Int) (change : Int) (t : Table) :
    (snapshotAlterBlue pre post change t).painted =
      snapshotAlterBlue pre post change t.painted := by
  unfold snapshotAlterBlue
  generalize List.zipWith _ pre post = ds
  induction t generalizing ds with
  | nil => simp [Table.painted]
  | cons m t ih =>
    cases ds with
    | nil => simp [Table.painted]
    | cons d ds =>
      have htail := ih ds
      simp only [Table.painted] at htail
      simp [Table.painted, Macro.painted, htail]

/-- `snapshot_unblue_used` undoes `snapshot_blue_used`. -/
theorem snapshotAlterBlue_cancel {pre post : List Int} {t : Table}
    (hpre : pre.length = t.length) (hpost : post.length = t.length) :
    snapshotAlterBlue pre post (-1) (snapshotAlterBlue pre post 1 t) = t := by
  induction t generalizing pre post with
  | nil => simp [snapshotAlterBlue]
  | cons m t ih =>
    cases pre with
    | nil => simp at hpre
    | cons a pre =>
      cases post with
      | nil => simp at hpost
      | cons b post =>
        have hpre' : pre.length = t.length := by simpa using hpre
        have hpost' : post.length = t.length := by simpa using hpost
        have htail := ih hpre' hpost'
        unfold snapshotAlterBlue at htail ⊢
        simp only [List.zipWith_cons_cons, htail, List.cons.injEq, and_true]
        by_cases hab : a = b
        · simp [hab]
        · simp [hab]

theorem snapshotTake_length (t : Table) : (snapshotTake t).length = t.length := List.length_map _

/-! ## Each function keeps the table -/

/-- Whatever it returns, it returns with the definitions and counters it got. -/
def Rescan.Keeps (rescan : Rescan) : Prop :=
  ∀ st b st' b', rescan st b = pure (st', b') → st'.macros.painted = st.macros.painted

theorem expandArg_painted {rescan : Rescan} (hkeep : rescan.Keeps) {st st' : EvalState}
    {word r : Text} (h : expandArg rescan st word = pure (st', r)) :
    st'.macros.painted = st.macros.painted := by
  obtain ⟨⟨st₁, b⟩, hscan, h⟩ := Partial.bind_eq_pure.mp h
  obtain ⟨rfl, rfl⟩ := Prod.mk.inj (Partial.pure_inj.mp h)
  have hpaint := hkeep _ _ _ _ hscan
  refine (snapshotRestoreUsed_painted ?_).trans hpaint
  rw [snapshotTake_length, length_eq_of_painted hpaint]

theorem evalTokens_painted {rescan : Rescan} (hkeep : rescan.Keeps) {m : Macro}
    {args : List Text} (n : Nat) {st st' : EvalState} {replace r : Text} {ts : List Token}
    (h : evalTokens rescan m args n st replace ts = pure (st', r)) :
    st'.macros.painted = st.macros.painted := by
  induction n generalizing st replace ts with
  | zero =>
    cases Partial.pure_inj.mp h
    rfl
  | succ n ih =>
    cases ts with
    | nil =>
      cases Partial.pure_inj.mp h
      rfl
    | cons t ts =>
      unfold evalTokens at h
      split at h
      · obtain ⟨w, -, h⟩ := Partial.bind_eq_pure.mp h
        exact ih h
      · exact absurd h (Partial.die_ne_pure _ _)
      · split at h
        · obtain ⟨first, -, h⟩ := Partial.bind_eq_pure.mp h
          obtain ⟨p, -, h⟩ := Partial.bind_eq_pure.mp h
          exact ih h
        · obtain ⟨arg, -, h⟩ := Partial.bind_eq_pure.mp h
          split at h
          · exact ih h
          · obtain ⟨⟨st₁, word⟩, harg, h⟩ := Partial.bind_eq_pure.mp h
            exact (ih h).trans (expandArg_painted hkeep harg)
      · exact ih h

theorem evalFuncMacro_painted {E : Env} {rescan : Rescan} (hkeep : rescan.Keeps) {m : Macro}
    {st st' : EvalState} {argsStr r : Text}
    (h : evalFuncMacro E rescan m st argsStr = pure (st', r)) :
    st'.macros.painted = st.macros.painted := by
  obtain ⟨args, -, h⟩ := Partial.bind_eq_pure.mp h
  split at h
  · split at h
    · split at h
      · exact absurd h (Partial.die_ne_pure _ _)
      · cases Partial.pure_inj.mp h
        rfl
    · exact absurd h (Partial.die_ne_pure _ _)
  · obtain ⟨args', -, h⟩ := Partial.bind_eq_pure.mp h
    obtain ⟨toks, -, h⟩ := Partial.bind_eq_pure.mp h
    exact evalTokens_painted hkeep _ h

theorem objectValue_macros {E : Env} {m : Macro} {st st' : EvalState} {r : Text}
    (h : objectValue E m st = .ok (st', r)) : st'.macros = st.macros := by
  unfold objectValue at h
  split at h
  · cases h
    rfl
  · repeat' split at h
    all_goals cases h
    all_goals rfl

theorem evalMacroR_painted {E : Env} {rescan : Rescan} (hkeep : rescan.Keeps) {m : Macro}
    {s s' : Scan} (h : evalMacroR E rescan m s = pure s') :
    s'.st.macros.painted = s.st.macros.painted := by
  unfold evalMacroR at h
  split at h
  · obtain ⟨⟨st, val⟩, hval, h⟩ := Partial.bind_eq_pure.mp h
    cases Partial.pure_inj.mp h
    have hevals := objectValue_macros (Partial.ofExcept_eq_pure.mp hval)
    exact congrArg Table.painted hevals
  · split at h
    · cases Partial.pure_inj.mp h
      exact macroUse_painted _ _ _
    · exact absurd h (Partial.die_ne_pure _ _)
    · split at h
      · cases Partial.pure_inj.mp h
        rfl
      · obtain ⟨⟨st, val⟩, hval, h⟩ := Partial.bind_eq_pure.mp h
        cases Partial.pure_inj.mp h
        exact evalFuncMacro_painted hkeep hval

/-- The counters raised before the rescan are lowered after it. -/
theorem evalMacroDoubleEval_painted {E : Env} {rescan : Rescan} (hkeep : rescan.Keeps)
    {m : Macro} {s s' : Scan} (h : evalMacroDoubleEval E rescan m s = pure s') :
    s'.st.macros.painted = s.st.macros.painted := by
  obtain ⟨s₁, hr, h⟩ := Partial.bind_eq_pure.mp h
  obtain ⟨⟨st, b⟩, hscan, h⟩ := Partial.bind_eq_pure.mp h
  cases Partial.pure_inj.mp h
  have hr' := evalMacroR_painted hkeep hr
  have hlen := length_eq_of_painted hr'
  have hscan' := hkeep _ _ _ _ hscan
  show (snapshotAlterBlue _ _ (-1) st.macros).painted = _
  rw [snapshotAlterBlue_painted, hscan']
  show snapshotAlterBlue _ _ (-1) (snapshotAlterBlue _ _ 1 s₁.st.macros).painted = _
  rw [snapshotAlterBlue_painted, snapshotAlterBlue_cancel, hr']
  · rw [snapshotTake_length, Table.painted_length, hlen]
  · rw [snapshotTake_length, Table.painted_length]

theorem evalMacro_painted {E : Env} {rescan : Rescan} (hkeep : rescan.Keeps) {m : Macro}
    {s s' : Scan} (h : evalMacro E rescan m s = pure s') :
    s'.st.macros.painted = s.st.macros.painted := by
  unfold evalMacro at h
  split at h
  · cases Partial.pure_inj.mp h
    rfl
  · obtain ⟨s₁, hdouble, h⟩ := Partial.bind_eq_pure.mp h
    cases Partial.pure_inj.mp h
    have hdouble' := evalMacroDoubleEval_painted hkeep hdouble
    show (macroBlue m.nam (-1) s₁.st.macros).painted = _
    rw [macroBlue_painted, hdouble']
    show macroBlue m.nam (-1) (macroBlue m.nam 1 (macroUse m.nam 1 s.st.macros)).painted = _
    rw [macroBlue_painted, macroUse_painted, macroBlue_cancel]

/-- Expansion gives the table back with the counters it got. -/
theorem expandFrom_painted {E : Env} (n : Nat) {s : Scan} {st' : EvalState} {b' : Buf}
    (h : expandFrom E n s = pure (st', b')) : st'.macros.painted = s.st.macros.painted := by
  induction n generalizing s st' b' with
  | zero => exact absurd h (Partial.deep_ne_pure _)
  | succ n ih =>
    have hkeep : Rescan.Keeps fun st b => expandFrom E n ⟨st, b, 0⟩ :=
      fun st b st' b' h => ih h
    unfold expandFrom at h
    split at h
    · cases Partial.pure_inj.mp h
      rfl
    · exact absurd h (Partial.die_ne_pure _ _)
    · obtain ⟨next, -, h⟩ := Partial.bind_eq_pure.mp h
      split at h
      · cases Partial.pure_inj.mp h
        rfl
      · rename_i pos
        exact ih (s := { s with pos := pos }) h
    · obtain ⟨s₁, heval, h⟩ := Partial.bind_eq_pure.mp h
      have heval' := evalMacro_painted hkeep heval
      obtain ⟨next, -, h⟩ := Partial.bind_eq_pure.mp h
      split at h
      · cases Partial.pure_inj.mp h
        exact heval'
      · rename_i pos
        exact (ih (s := { s₁ with pos := pos }) h).trans heval'

theorem evalExpandMacros_painted {E : Env} {n : Nat} {st st' : EvalState} {line r : Text}
    (h : evalExpandMacros E n st line = pure (st', r)) :
    st'.macros.painted = st.macros.painted := by
  obtain ⟨⟨st₁, b⟩, hscan, h⟩ := Partial.bind_eq_pure.mp h
  cases Partial.pure_inj.mp h
  exact expandFrom_painted n hscan

/-! ## A larger bound -/

/-- The second rescan had the larger bound. -/
def Rescan.Le (r r' : Rescan) : Prop := ∀ st b, (r st b).Le (r' st b)

theorem expandArg_le {r r' : Rescan} (hle : r.Le r') (st : EvalState) (word : Text) :
    (expandArg r st word).Le (expandArg r' st word) :=
  (hle _ _).bind fun _ => .refl _

theorem evalTokens_le {r r' : Rescan} (hle : r.Le r') (m : Macro) (args : List Text) (n : Nat)
    (st : EvalState) (replace : Text) (ts : List Token) :
    (evalTokens r m args n st replace ts).Le (evalTokens r' m args n st replace ts) := by
  induction n generalizing st replace ts with
  | zero => exact .refl _
  | succ n ih =>
    cases ts with
    | nil => exact .refl _
    | cons t ts =>
      unfold evalTokens
      split
      · exact (Partial.Le.refl _).bind fun w => ih _ _ _
      · exact .refl _
      · split
        · exact (Partial.Le.refl _).bind fun _ => (Partial.Le.refl _).bind fun _ => ih _ _ _
        · refine (Partial.Le.refl _).bind fun arg => ?_
          split
          · exact ih _ _ _
          · exact (expandArg_le hle _ _).bind fun _ => ih _ _ _
      · exact ih _ _ _

theorem evalFuncMacro_le {E : Env} {r r' : Rescan} (hle : r.Le r') (m : Macro) (st : EvalState)
    (argsStr : Text) : (evalFuncMacro E r m st argsStr).Le (evalFuncMacro E r' m st argsStr) := by
  refine (Partial.Le.refl _).bind fun args => ?_
  split
  · exact .refl _
  · exact (Partial.Le.refl _).bind fun _ => (Partial.Le.refl _).bind fun _ =>
      evalTokens_le hle _ _ _ _ _ _

theorem evalMacroR_le {E : Env} {r r' : Rescan} (hle : r.Le r') (m : Macro) (s : Scan) :
    (evalMacroR E r m s).Le (evalMacroR E r' m s) := by
  unfold evalMacroR
  split
  · exact .refl _
  · split
    · exact .refl _
    · exact .refl _
    · split
      · exact .refl _
      · exact (evalFuncMacro_le hle _ _ _).bind fun _ => .refl _

theorem evalMacroDoubleEval_le {E : Env} {r r' : Rescan} (hle : r.Le r') (m : Macro) (s : Scan) :
    (evalMacroDoubleEval E r m s).Le (evalMacroDoubleEval E r' m s) :=
  (evalMacroR_le hle m s).bind fun _ => (hle _ _).bind fun _ => .refl _

theorem evalMacro_le {E : Env} {r r' : Rescan} (hle : r.Le r') (m : Macro) (s : Scan) :
    (evalMacro E r m s).Le (evalMacro E r' m s) := by
  unfold evalMacro
  split
  · exact .refl _
  · exact (evalMacroDoubleEval_le hle _ _).bind fun _ => .refl _

theorem expandFrom_grows (E : Env) (s : Scan) : Grows fun n => expandFrom E n s := by
  intro n
  induction n generalizing s with
  | zero => exact .inl rfl
  | succ n ih =>
    have hle : Rescan.Le (fun st b => expandFrom E n ⟨st, b, 0⟩)
        fun st b => expandFrom E (n + 1) ⟨st, b, 0⟩ := fun st b => ih _
    show Partial.Le (expandFrom E (n + 1) s) (expandFrom E (n + 1 + 1) s)
    rw [expandFrom, expandFrom]
    split
    · exact .refl _
    · exact .refl _
    · refine (Partial.Le.refl _).bind fun next => ?_
      split
      · exact .refl _
      · exact ih _
    · refine (evalMacro_le hle _ _).bind fun s' => (Partial.Le.refl _).bind fun next => ?_
      split
      · exact .refl _
      · exact ih _

/-! ## Object-like macros -/

theorem snapshotAlterBlue_same {pre : List Int} {t : Table} (hlen : pre.length = t.length)
    (change : Int) : snapshotAlterBlue pre pre change t = t := by
  unfold snapshotAlterBlue
  induction t generalizing pre with
  | nil => simp
  | cons m t ih =>
    cases pre with
    | nil => simp at hlen
    | cons a pre =>
      have htail := ih (by simpa using hlen)
      rw [List.zipWith_cons_cons, List.zipWith_cons_cons, htail]
      simp

/-- The state in which `eval_macro` replaces `m`. -/
def EvalState.enter (m : Macro) (st : EvalState) : EvalState :=
  st.update fun t => macroBlue m.nam 1 (macroUse m.nam 1 t)

section Object

variable {E : Env} {rescan : Rescan} {m : Macro} {val : Text}
  (htype : m.type = .object) (hval : m.val = some val) (s : Scan)

include htype hval

theorem evalMacroR_object :
    evalMacroR E rescan m s =
      pure ⟨s.st, strReplace s.buf s.pos (s.pos + m.nam.length) val, s.pos + val.length⟩ := by
  unfold evalMacroR objectValue
  rw [if_pos htype, hval]
  rfl

/-- An object-like macro is replaced by its value, and the line is rescanned with
that macro painted and no other. -/
theorem evalMacro_object (hblue : m.blue = 0) :
    evalMacro E rescan m s =
      rescan (s.st.enter m) (strReplace s.buf s.pos (s.pos + m.nam.length) val) >>= fun r =>
        pure ⟨(r.1.update (snapshotAlterBlue (snapshotTake (s.st.enter m).macros)
            (snapshotTake (s.st.enter m).macros) (-1))).update (macroBlue m.nam (-1)),
          r.2, s.pos + val.length⟩ := by
  have hpaint : (s.st.enter m).update (snapshotAlterBlue (snapshotTake (s.st.enter m).macros)
      (snapshotTake (s.st.enter m).macros) 1) = s.st.enter m := by
    show EvalState.mk (snapshotAlterBlue _ _ 1 (s.st.enter m).macros) _ = _
    rw [snapshotAlterBlue_same (snapshotTake_length _)]
  unfold evalMacro evalMacroDoubleEval
  rw [if_neg (not_not.mpr hblue)]
  dsimp only
  rw [evalMacroR_object htype hval, bind_assoc, pure_bind, bind_assoc]
  show rescan ((s.st.enter m).update (snapshotAlterBlue (snapshotTake (s.st.enter m).macros)
    (snapshotTake (s.st.enter m).macros) 1)) _ >>= _ = _
  rw [hpaint]
  rfl

theorem evalMacro_object_pure (hblue : m.blue = 0) {st' : EvalState} {b' : Buf}
    (hscan : rescan (s.st.enter m) (strReplace s.buf s.pos (s.pos + m.nam.length) val) =
      pure (st', b'))
    (hlen : st'.macros.length = (s.st.enter m).macros.length) :
    evalMacro E rescan m s =
      pure ⟨st'.update (macroBlue m.nam (-1)), b', s.pos + val.length⟩ := by
  have hsame : st'.update (snapshotAlterBlue (snapshotTake (s.st.enter m).macros)
      (snapshotTake (s.st.enter m).macros) (-1)) = st' := by
    show EvalState.mk (snapshotAlterBlue _ _ (-1) st'.macros) _ = _
    rw [snapshotAlterBlue_same ((snapshotTake_length _).trans hlen.symm)]
  rw [evalMacro_object htype hval s hblue, hscan, pure_bind, hsame]

end Object

theorem macroFind_updateFirst {nam : Text} {f : Macro → Macro} {t : Table}
    (hf : ∀ m, (f m).nam = m.nam) :
    macroFind (updateFirst nam f t) nam = (macroFind t nam).map f := by
  induction t with
  | nil => rfl
  | cons m t ih =>
    simp only [macroFind] at ih
    by_cases h : m.nam = nam
    · simp [updateFirst, macroFind, h, hf]
    · simp [updateFirst, macroFind, h, ih]

end Ucc.Cpp
