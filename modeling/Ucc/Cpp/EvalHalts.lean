/-
  Cpp/EvalHalts.lean --- when macro expansion comes to an end.

  The blue counters bound the nesting of rescans, not the length of one scan.  A
  scan goes on at an offset taken before the rescan, over text in which nothing
  is painted any more, so a macro whose expansion names it again behind that
  offset is replaced for ever.

  `Steps` is replacement without painting and without a position: any name of a
  macro, anywhere in the block, may be replaced.  When no such chain is infinite
  the expansion ends, whatever the positions do; it also ends when a single macro
  is all that is ever named.
-/
import Ucc.Cpp.EvalBalance

set_option autoImplicit false

namespace Ucc.Cpp

open Ucc.Lib

/-! ## Replacement without painting -/

/-- The word at `pos` names a macro defined as `m` is. -/
def NamedAt (D : List Def) (b : Buf) (pos : Nat) (m : Macro) : Prop :=
  wordOf (b.drop pos) ≠ [] ∧ findDef D (wordOf (b.drop pos)) = some m.toDef

/-- Any number of replacements, each of an invocation anywhere in the block and
with the arguments expanded by such replacements. -/
inductive Steps (E : Env) (D : List Def) : Buf → Buf → Prop
  | refl (b : Buf) : Steps E D b b
  | step {b b' : Buf} {m : Macro} {rescan : Rescan} {st : EvalState} {pos : Nat} {s : Scan} :
      NamedAt D b pos m → st.macros.defs = D → rescan.Keeps →
      (∀ st₁ st₂ b₁ b₂, st₁.macros.defs = D → rescan st₁ b₁ = pure (st₂, b₂) →
        Steps E D b₁ b₂) →
      evalMacroR E rescan m ⟨st, b, pos⟩ = pure s → Steps E D s.buf b' → Steps E D b b'

/-- `a` is an argument of an invocation in the block. -/
def ArgOf (D : List Def) (b : Buf) (a : Text) : Prop :=
  ∃ m pos argsStr fin args args' word, NamedAt D b pos m ∧
    callOf m b pos = .args argsStr fin ∧ splitFuncArgs argsStr = .ok args ∧
    checkArgs m args = .ok args' ∧ findArg m word args' = .ok (some a)

/-- `b'` comes from `b`: by replacements that change it, or as an argument. -/
def Below (E : Env) (D : List Def) (b' b : Buf) : Prop :=
  (Steps E D b b' ∧ b' ≠ b) ∨ ∃ a, ArgOf D b a ∧ b' = alloc a

/-- No chain of replacements, nor of arguments within arguments, is infinite. -/
def NonRecursive (E : Env) (D : List Def) (b : Buf) : Prop := Acc (Below E D) b

/-- Everything that comes from `b` names the one macro `nam`, or none. -/
def Lone (E : Env) (D : List Def) (nam : Text) (b : Buf) : Prop :=
  ∀ b', Relation.ReflTransGen (Below E D) b' b → ∀ pos m, NamedAt D b' pos m → m.nam = nam

/-- The replacements of a line end, or there is one macro to replace. -/
def Settles (E : Env) (D : List Def) (b : Buf) : Prop :=
  NonRecursive E D b ∨ ∃ nam, Lone E D nam b

theorem Steps.trans {E : Env} {D : List Def} {a b c : Buf} (hab : Steps E D a b)
    (hbc : Steps E D b c) : Steps E D a c := by
  induction hab with
  | refl => exact hbc
  | step hnamed hst hkeep hargs heval _ _ ih => exact .step hnamed hst hkeep hargs heval (ih hbc)

/-! ## One turn of the scan -/

/-- `word_find_any` stops at a word. -/
theorem wordFindAny_spec {n : Nat} {s s' : Buf} (h : wordFindAny n s = some s') :
    s' <:+ s ∧ wordOf s' ≠ [] := by
  fun_induction wordFindAny n s with
  | case1 => simp at h
  | case2 => simp at h
  | case3 => simp at h
  | case4 => simp at h
  | case5 n c s _ _ fin hfin ih =>
    obtain ⟨hsuffix, hword⟩ := ih h
    refine ⟨?_, hword⟩
    have hs : fin.tail <:+ s := (List.tail_suffix fin).trans (strQuotefin2_suffix hfin)
    exact (hsuffix.trans hs).trans (List.suffix_cons c s)
  | case6 n c s _ _ hword =>
    cases h
    refine ⟨List.suffix_refl _, ?_⟩
    simp [wordOf, hword]
  | case7 n c s _ _ _ ih =>
    obtain ⟨hsuffix, hword⟩ := ih h
    exact ⟨hsuffix.trans (List.suffix_cons c s), hword⟩

theorem drop_of_suffix {s b : Buf} (h : s <:+ b) : b.drop (b.length - s.length) = s := by
  obtain ⟨front, rfl⟩ := h
  simp

/-- Where `word_find_any` stops, as a position in the block. -/
theorem wordFindAny_pos {b s : Buf} {pos : Nat} (hpos : pos < b.length)
    (h : wordFindAny b.length (b.drop pos) = some s) :
    pos ≤ b.length - s.length ∧ b.drop (b.length - s.length) = s ∧ wordOf s ≠ [] := by
  obtain ⟨hsuffix, hword⟩ := wordFindAny_spec h
  have hlen := hsuffix.length_le
  rw [List.length_drop] at hlen
  refine ⟨by omega, drop_of_suffix (hsuffix.trans (List.drop_suffix pos b)), hword⟩

/-- A macro is found at a later position of the block, by its name. -/
theorem turnOf_found {t : Table} {b : Buf} {pos p : Nat} {m : Macro}
    (h : turnOf t b pos = .found m p) :
    pos < b.length ∧ pos ≤ p ∧ p < b.length ∧ NamedAt t.defs b p m ∧
      macroFind t m.nam = some m ∧ wordOf (b.drop p) = m.nam := by
  unfold turnOf at h
  split at h
  · cases h
  · rename_i hpos
    push Not at hpos
    split at h
    · cases h
    · rename_i s hs
      obtain ⟨hle, hdrop, hword⟩ := wordFindAny_pos hpos hs
      dsimp only at h
      split at h
      · cases h
      · split at h
        · rename_i m' hfind
          obtain ⟨rfl, rfl⟩ := Turn.found.inj h
          have hnam : m'.nam = wordOf s := by simpa using List.find?_some hfind
          have hlt : b.length - s.length < b.length := by
            have hne : s ≠ [] := by
              rintro rfl
              exact hword rfl
            have := List.length_pos_of_ne_nil hne
            omega
          refine ⟨hpos, hle, hlt, ⟨?_, ?_⟩, ?_, ?_⟩
          · rwa [hdrop]
          · rw [hdrop]
            exact macroFind_findDef hfind
          · rwa [hnam]
          · rw [hdrop, hnam]
        · cases h

/-- The name of the macro ends within the block. -/
theorem turnOf_found_end {t : Table} {b : Buf} {pos p : Nat} {m : Macro}
    (h : turnOf t b pos = .found m p) : p + m.nam.length ≤ b.length := by
  obtain ⟨-, -, hlt, -, -, hword⟩ := turnOf_found h
  have hle := (List.takeWhile_sublist (l := b.drop p) isWordPart).length_le
  rw [List.length_drop] at hle
  have hlen : (wordOf (b.drop p)).length = m.nam.length := congrArg List.length hword
  unfold wordOf at hlen
  omega

theorem turnOf_skip {t : Table} {b : Buf} {pos p : Nat} (h : turnOf t b pos = .skip p) :
    pos < b.length ∧ pos ≤ p := by
  unfold turnOf at h
  split at h
  · cases h
  · rename_i hpos
    push Not at hpos
    split at h
    · cases h
    · rename_i s hs
      obtain ⟨hle, -, -⟩ := wordFindAny_pos hpos hs
      dsimp only at h
      split at h
      · cases h
        exact ⟨hpos, by omega⟩
      · split at h
        · cases h
        · cases h
          exact ⟨hpos, by omega⟩

theorem nextPos_some {b : Buf} {pos p : Nat} {checkQuote : Bool}
    (h : nextPos b pos checkQuote = .ok (some p)) : p = pos + 1 := by
  unfold nextPos at h
  split at h
  · cases h
  · split at h
    · cases h
    · split at h
      · cases h
      · simpa using h.symm

/-- The rescan that `expandFrom` passes down. -/
def rescanAt (E : Env) (n : Nat) : Rescan := fun st b => expandFrom E n ⟨st, b, 0⟩

/-- The rest of a turn, from `if(!*line)` on. -/
def resume (E : Env) (n : Nat) (s : Scan) (checkQuote : Bool) : EvalM (EvalState × Buf) := do
  match ← .ofExcept (nextPos s.buf s.pos checkQuote) with
  | none => pure (s.st, s.buf)
  | some pos => expandFrom E n { s with pos := pos }

theorem expandFrom_done {E : Env} {s : Scan} (h : turnOf s.st.macros s.buf s.pos = .done)
    (n : Nat) : expandFrom E (n + 1) s = pure (s.st, s.buf) := by
  rw [expandFrom, h]

theorem expandFrom_outside {E : Env} {s : Scan}
    (h : turnOf s.st.macros s.buf s.pos = .outside) (n : Nat) :
    expandFrom E (n + 1) s = .die .crash := by
  rw [expandFrom, h]

theorem expandFrom_skip {E : Env} {s : Scan} {p : Nat}
    (h : turnOf s.st.macros s.buf s.pos = .skip p) (n : Nat) :
    expandFrom E (n + 1) s = resume E n { s with pos := p } false := by
  rw [expandFrom, h]
  rfl

theorem expandFrom_found {E : Env} {s : Scan} {m : Macro} {p : Nat}
    (h : turnOf s.st.macros s.buf s.pos = .found m p) (n : Nat) :
    expandFrom E (n + 1) s =
      evalMacro E (rescanAt E n) m { s with pos := p } >>= fun s' => resume E n s' true := by
  rw [expandFrom, h]
  rfl

theorem resume_eq_pure {E : Env} {n : Nat} {s : Scan} {checkQuote : Bool}
    {r : EvalState × Buf} (h : resume E n s checkQuote = pure r) :
    r = (s.st, s.buf) ∨ expandFrom E n { s with pos := s.pos + 1 } = pure r := by
  obtain ⟨next, hnext, h⟩ := Partial.bind_eq_pure.mp h
  split at h
  · exact .inl (Partial.pure_inj.mp h).symm
  · rename_i pos
    rw [nextPos_some (Partial.ofExcept_eq_pure.mp hnext)] at h
    exact .inr h

/-! ## The table while a macro is being expanded -/

theorem defs_updateFirst_of_keep (nam : Text) {f : Macro → Macro}
    (hf : ∀ m, (f m).toDef = m.toDef) (t : Table) : (updateFirst nam f t).defs = t.defs := by
  induction t with
  | nil => rfl
  | cons m t ih =>
    simp only [Table.defs] at ih
    unfold updateFirst
    split
    · simp [Table.defs, hf]
    · simp [Table.defs, ih]

theorem enter_defs (m : Macro) (st : EvalState) :
    (st.enter m).macros.defs = st.macros.defs := by
  show (macroBlue m.nam 1 (macroUse m.nam 1 st.macros)).defs = _
  unfold macroBlue macroUse
  rw [defs_updateFirst_of_keep, defs_updateFirst_of_keep]
  · intro m
    rfl
  · intro m
    rfl

theorem snapshotAlterBlue_defs {pre post : List Int} {change : Int} {t : Table}
    (hpre : pre.length = t.length) (hpost : post.length = t.length) :
    (snapshotAlterBlue pre post change t).defs = t.defs := by
  induction t generalizing pre post with
  | nil => simp [snapshotAlterBlue]
  | cons m t ih =>
    cases pre with
    | nil => simp at hpre
    | cons a pre =>
      cases post with
      | nil => simp at hpost
      | cons b post =>
        have hpre' : pre.length = t.length := by simpa using hpre
        have hpost' : post.length = t.length := by simpa using hpost
        have htail := ih hpre' hpost'
        exact congrArg (List.cons m.toDef) htail

/-- The state of the rescan, after the replacement took the state from `st` to `st'`. -/
def EvalState.paint (st st' : EvalState) : EvalState :=
  st'.update (snapshotAlterBlue (snapshotTake st.macros) (snapshotTake st'.macros) 1)

theorem paint_defs {st st' : EvalState} (h : st'.macros.painted = st.macros.painted) :
    (st.paint st').macros.defs = st.macros.defs := by
  have hlen := length_eq_of_painted h
  show (snapshotAlterBlue _ _ 1 st'.macros).defs = _
  rw [snapshotAlterBlue_defs, defs_eq_of_painted h]
  · rw [snapshotTake_length, hlen]
  · rw [snapshotTake_length]

/-- How many macros are not painted. -/
def Table.unpainted (t : Table) : Nat := (t.map Macro.blue).countP fun n => n ≤ 0

theorem unpainted_of_painted {t t' : Table} (h : t.painted = t'.painted) :
    t.unpainted = t'.unpainted := by
  unfold Table.unpainted
  rw [blue_eq_of_painted h]

theorem unpainted_macroUse (nam : Text) (adj : Int) (t : Table) :
    (macroUse nam adj t).unpainted = t.unpainted :=
  unpainted_of_painted (macroUse_painted nam adj t)

theorem unpainted_macroBlue {t : Table} {nam : Text} {m : Macro} (hm : macroFind t nam = some m)
    (hblue : m.blue = 0) : (macroBlue nam 1 t).unpainted < t.unpainted := by
  induction t with
  | nil => simp [macroFind] at hm
  | cons m₀ t ih =>
    simp only [Table.unpainted, macroBlue] at ih
    by_cases h : m₀.nam = nam
    · have heq : m₀ = m := by simpa [macroFind, h] using hm
      subst heq
      simp [Table.unpainted, macroBlue, updateFirst, h, hblue]
    · have htail := ih (by simpa [macroFind, h] using hm)
      simp only [Table.unpainted, macroBlue, updateFirst, List.map_cons, List.countP_cons,
        beq_iff_eq, h, if_false]
      omega

theorem unpainted_alterBlue (pre post : List Int) (t : Table) :
    (snapshotAlterBlue pre post 1 t).unpainted ≤ t.unpainted := by
  induction t generalizing pre post with
  | nil => simp [snapshotAlterBlue]
  | cons m t ih =>
    cases pre with
    | nil => simp [snapshotAlterBlue, Table.unpainted]
    | cons a pre =>
      cases post with
      | nil => simp [snapshotAlterBlue, Table.unpainted]
      | cons b post =>
        have htail := ih pre post
        simp only [Table.unpainted, snapshotAlterBlue] at htail
        have hhead : (if m.blue + (if a ≠ b then 1 else 0) ≤ 0 then 1 else 0) ≤
            (if m.blue ≤ 0 then 1 else 0) := by
          split_ifs <;> omega
        simp only [Table.unpainted, snapshotAlterBlue, List.zipWith_cons_cons, List.map_cons,
          List.countP_cons, decide_eq_true_eq]
        omega

/-- Each level of rescans has one macro less to replace. -/
theorem paint_unpainted {st st' : EvalState} {m : Macro} (hm : macroFind st.macros m.nam = some m)
    (hblue : m.blue = 0) (h : st'.macros.painted = (st.enter m).macros.painted) :
    ((st.enter m).paint st').macros.unpainted < st.macros.unpainted := by
  have hfind : macroFind (macroUse m.nam 1 st.macros) m.nam =
      some { m with useCnt := m.useCnt + 1 } := by
    unfold macroUse
    rw [macroFind_updateFirst, hm]
    · rfl
    · intro m
      rfl
  calc ((st.enter m).paint st').macros.unpainted
      ≤ st'.macros.unpainted := unpainted_alterBlue _ _ _
    _ = (macroBlue m.nam 1 (macroUse m.nam 1 st.macros)).unpainted := unpainted_of_painted h
    _ < (macroUse m.nam 1 st.macros).unpainted := unpainted_macroBlue hfind hblue
    _ = st.macros.unpainted := unpainted_macroUse _ _ _

/-! ## Every expansion is a chain of replacements -/

/-- What `eval_macro` returns, in its two cases. -/
theorem evalMacro_eq_pure {E : Env} {rescan : Rescan} {m : Macro} {s s' : Scan}
    (h : evalMacro E rescan m s = pure s') :
    (m.blue ≠ 0 ∧ s' = { s with pos := s.pos + m.nam.length }) ∨
      (m.blue = 0 ∧ ∃ s₁ st₂ b₂,
        evalMacroR E rescan m { s with st := s.st.enter m } = pure s₁ ∧
        rescan ((s.st.enter m).paint s₁.st) s₁.buf = pure (st₂, b₂) ∧
        s'.buf = b₂ ∧ s'.pos = s₁.pos) := by
  unfold evalMacro at h
  split at h
  · rename_i hblue
    exact .inl ⟨hblue, (Partial.pure_inj.mp h).symm⟩
  · rename_i hblue
    push Not at hblue
    obtain ⟨s₀, hdouble, h⟩ := Partial.bind_eq_pure.mp h
    cases Partial.pure_inj.mp h
    obtain ⟨s₁, hr, h⟩ := Partial.bind_eq_pure.mp hdouble
    obtain ⟨⟨st₂, b₂⟩, hscan, h⟩ := Partial.bind_eq_pure.mp h
    cases Partial.pure_inj.mp h
    exact .inr ⟨hblue, s₁, st₂, b₂, hr, hscan, rfl, rfl⟩

/-- A rescan that only makes replacements. -/
def Rescan.Sound (E : Env) (D : List Def) (rescan : Rescan) : Prop :=
  ∀ st₁ st₂ b₁ b₂, st₁.macros.defs = D → rescan st₁ b₁ = pure (st₂, b₂) → Steps E D b₁ b₂

theorem evalMacroR_steps {E : Env} {D : List Def} {rescan : Rescan} (hkeep : rescan.Keeps)
    (hsound : rescan.Sound E D) {m : Macro} {s s' : Scan} (hst : s.st.macros.defs = D)
    (hnamed : NamedAt D s.buf s.pos m)
    (h : evalMacroR E rescan m { s with st := s.st.enter m } = pure s') :
    Steps E D s.buf s'.buf :=
  .step hnamed ((enter_defs m s.st).trans hst) hkeep hsound h (.refl _)

theorem evalMacro_steps {E : Env} {D : List Def} {rescan : Rescan} (hkeep : rescan.Keeps)
    (hsound : rescan.Sound E D) {m : Macro} {s s' : Scan} (hst : s.st.macros.defs = D)
    (hnamed : NamedAt D s.buf s.pos m) (h : evalMacro E rescan m s = pure s') :
    Steps E D s.buf s'.buf := by
  rcases evalMacro_eq_pure h with ⟨-, rfl⟩ | ⟨-, s₁, st₂, b₂, hr, hscan, rfl, -⟩
  · exact .refl _
  · have hdefs := paint_defs (evalMacroR_painted hkeep hr)
    rw [enter_defs, hst] at hdefs
    exact (evalMacroR_steps hkeep hsound hst hnamed hr).trans (hsound _ _ _ _ hdefs hscan)

theorem rescanAt_keeps (E : Env) (n : Nat) : (rescanAt E n).Keeps :=
  fun _ _ _ _ h => expandFrom_painted n h

/-- What expansion returns is reached by replacements. -/
theorem expandFrom_steps {E : Env} {D : List Def} (n : Nat) {s : Scan} {st' : EvalState}
    {b' : Buf} (hst : s.st.macros.defs = D) (h : expandFrom E n s = pure (st', b')) :
    Steps E D s.buf b' := by
  induction n generalizing s st' b' with
  | zero => exact absurd h (Partial.deep_ne_pure _)
  | succ n ih =>
    -- the rest of a turn starts from a scan that replacements reach
    have hresume : ∀ (s₁ : Scan) (q : Bool), s₁.st.macros.defs = D → Steps E D s.buf s₁.buf →
        resume E n s₁ q = pure (st', b') → Steps E D s.buf b' := by
      intro s₁ q hst₁ hsteps hres
      rcases resume_eq_pure hres with heq | hrest
      · cases heq
        exact hsteps
      · exact hsteps.trans (ih (s := { s₁ with pos := s₁.pos + 1 }) hst₁ hrest)
    cases hturn : turnOf s.st.macros s.buf s.pos with
    | done =>
      rw [expandFrom_done hturn] at h
      cases Partial.pure_inj.mp h
      exact .refl _
    | outside =>
      rw [expandFrom_outside hturn] at h
      exact absurd h (Partial.die_ne_pure _ _)
    | skip p =>
      rw [expandFrom_skip hturn] at h
      exact hresume { s with pos := p } _ hst (.refl _) h
    | found m p =>
      rw [expandFrom_found hturn] at h
      obtain ⟨s₁, heval, h⟩ := Partial.bind_eq_pure.mp h
      obtain ⟨-, -, -, hnamed, -, -⟩ := turnOf_found hturn
      rw [hst] at hnamed
      have hsound : (rescanAt E n).Sound E D := fun st₁ st₂ b₁ b₂ hst₁ hscan =>
        ih (s := ⟨st₁, b₁, 0⟩) hst₁ hscan
      have hst₁ := (defs_eq_of_painted (evalMacro_painted (rescanAt_keeps E n) heval)).trans hst
      have hsteps : Steps E D s.buf s₁.buf :=
        evalMacro_steps (s := { s with pos := p }) (rescanAt_keeps E n) hsound hst hnamed heval
      exact hresume _ _ hst₁ hsteps h

theorem rescanAt_sound (E : Env) (D : List Def) (n : Nat) : (rescanAt E n).Sound E D :=
  fun _ _ _ _ hst h => expandFrom_steps n hst h

/-! ## Replacing one invocation comes back -/

/-- Rescans of an argument come back, from any state with the definitions `D`. -/
def ArgHalts (E : Env) (P : EvalState → Prop) (a : Text) : Prop :=
  ∀ st, P st → Halts fun n => expandFrom E n ⟨st, alloc a, 0⟩

theorem rescanAt_le (E : Env) (n : Nat) : (rescanAt E n).Le (rescanAt E (n + 1)) :=
  fun _ _ => expandFrom_grows E _ n

theorem expandArg_grows (E : Env) (st : EvalState) (a : Text) :
    Grows fun n => expandArg (rescanAt E n) st a :=
  fun n => expandArg_le (rescanAt_le E n) st a

theorem evalTokens_grows (E : Env) (m : Macro) (args : List Text) (k : Nat) (st : EvalState)
    (replace : Text) (ts : List Token) :
    Grows fun n => evalTokens (rescanAt E n) m args k st replace ts :=
  fun n => evalTokens_le (rescanAt_le E n) m args k st replace ts

theorem evalMacroR_grows (E : Env) (m : Macro) (s : Scan) :
    Grows fun n => evalMacroR E (rescanAt E n) m s :=
  fun n => evalMacroR_le (rescanAt_le E n) m s

theorem evalMacro_grows (E : Env) (m : Macro) (s : Scan) :
    Grows fun n => evalMacro E (rescanAt E n) m s :=
  fun n => evalMacro_le (rescanAt_le E n) m s

theorem resume_grows (E : Env) (s : Scan) (checkQuote : Bool) :
    Grows fun n => resume E n s checkQuote := by
  refine (grows_const _).bind fun next => ?_
  split
  · exact grows_const _
  · exact expandFrom_grows E _

theorem expandArg_halts {E : Env} {P : EvalState → Prop} {a : Text} (ha : ArgHalts E P a)
    {st : EvalState} (hst : P st) : Halts fun n => expandArg (rescanAt E n) st a :=
  halts_bind (expandFrom_grows E _) (fun _ => grows_const _) (ha st hst)
    fun _ _ => halts_const (Partial.pure_ne_deep _)

theorem evalTokens_halts {E : Env} {P : EvalState → Prop}
    (hP : ∀ st st' : EvalState, st'.macros.painted = st.macros.painted → P st → P st')
    {m : Macro} {args : List Text}
    (hargs : ∀ word a, findArg m word args = .ok (some a) → ArgHalts E P a) (k : Nat)
    {st : EvalState} (hst : P st) (replace : Text) (ts : List Token) :
    Halts fun n => evalTokens (rescanAt E n) m args k st replace ts := by
  induction k generalizing st replace ts with
  | zero => exact halts_const (Partial.pure_ne_deep _)
  | succ k ih =>
    cases ts with
    | nil => exact halts_const (Partial.pure_ne_deep _)
    | cons t ts =>
      simp only [evalTokens]
      split
      · refine halts_bind (grows_const _) (fun _ => evalTokens_grows E m args k _ _ _)
          (halts_const (Partial.ofExcept_ne_deep _)) fun w _ => ?_
        exact ih hst _ _
      · exact halts_const (Partial.die_ne_deep _)
      · split
        · refine halts_bind (grows_const _)
            (fun _ => (grows_const _).bind fun _ => evalTokens_grows E m args k _ _ _)
            (halts_const (Partial.ofExcept_ne_deep _)) fun first _ => ?_
          refine halts_bind (grows_const _) (fun _ => evalTokens_grows E m args k _ _ _)
            (halts_const (Partial.ofExcept_ne_deep _)) fun p _ => ?_
          exact ih hst _ _
        · refine halts_bind (grows_const _) (fun arg => ?_)
            (halts_const (Partial.ofExcept_ne_deep _)) fun arg harg => ?_
          · split
            · exact evalTokens_grows E m args k _ _ _
            · exact (expandArg_grows E _ _).bind fun _ => evalTokens_grows E m args k _ _ _
          · split
            · exact ih hst _ _
            · have hfind := Partial.ofExcept_eq_pure.mp (ret_const.mp harg)
              refine halts_bind (expandArg_grows E _ _)
                (fun _ => evalTokens_grows E m args k _ _ _)
                (expandArg_halts (hargs _ _ hfind) hst) fun r hr => ?_
              obtain ⟨n, hn⟩ := hr
              exact ih (hP _ _ (expandArg_painted (rescanAt_keeps E n) hn) hst) _ _
      · exact ih hst _ _

/-- Replacing an invocation comes back when the rescans of its arguments do. -/
theorem evalMacroR_halts {E : Env} {P : EvalState → Prop}
    (hP : ∀ st st' : EvalState, st'.macros.painted = st.macros.painted → P st → P st')
    {D : List Def} {m : Macro} {s : Scan} (hnamed : NamedAt D s.buf s.pos m) (hst : P s.st)
    (hargs : ∀ a, ArgOf D s.buf a → ArgHalts E P a) :
    Halts fun n => evalMacroR E (rescanAt E n) m s := by
  unfold evalMacroR
  split
  · exact halts_const (Partial.bind_ne_deep (Partial.ofExcept_ne_deep _)
      fun _ _ => Partial.pure_ne_deep _)
  · split
    · exact halts_const (Partial.pure_ne_deep _)
    · exact halts_const (Partial.die_ne_deep _)
    · rename_i argsStr fin hcall
      split
      · exact halts_const (Partial.pure_ne_deep _)
      · refine halts_bind (fun n => evalFuncMacro_le (rescanAt_le E n) _ _ _)
          (fun _ => grows_const _) ?_ fun _ _ => halts_const (Partial.pure_ne_deep _)
        unfold evalFuncMacro
        refine halts_bind (grows_const _) (fun args => ?_)
          (halts_const (Partial.ofExcept_ne_deep _)) fun args hsplit => ?_
        · split
          · exact grows_const _
          · exact (grows_const _).bind fun _ => (grows_const _).bind fun _ =>
              evalTokens_grows E _ _ _ _ _ _
        · have hsplit := Partial.ofExcept_eq_pure.mp (ret_const.mp hsplit)
          split
          · refine halts_const ?_
            split
            · split
              · exact Partial.die_ne_deep _
              · exact Partial.pure_ne_deep _
            · exact Partial.die_ne_deep _
          · refine halts_bind (grows_const _)
              (fun _ => (grows_const _).bind fun _ => evalTokens_grows E _ _ _ _ _ _)
              (halts_const (Partial.ofExcept_ne_deep _)) fun args' hcheck => ?_
            have hcheck := Partial.ofExcept_eq_pure.mp (ret_const.mp hcheck)
            refine halts_bind (grows_const _) (fun _ => evalTokens_grows E _ _ _ _ _ _)
              (halts_const (Partial.ofExcept_ne_deep _)) fun toks _ => ?_
            refine evalTokens_halts hP (fun word a hfind => ?_) _ hst _ _
            exact hargs a ⟨m, s.pos, argsStr, fin, args, args', word, hnamed, hcall, hsplit,
              hcheck, hfind⟩

/-! ## A turn of the scan comes back -/

theorem evalMacro_halts {E : Env} {m : Macro} {s : Scan}
    (hr : m.blue = 0 → Halts fun n => evalMacroR E (rescanAt E n) m { s with st := s.st.enter m })
    (hscan : m.blue = 0 → ∀ s₁,
      Ret (fun n => evalMacroR E (rescanAt E n) m { s with st := s.st.enter m }) s₁ →
        Halts fun n => expandFrom E n ⟨(s.st.enter m).paint s₁.st, s₁.buf, 0⟩) :
    Halts fun n => evalMacro E (rescanAt E n) m s := by
  unfold evalMacro
  split
  · exact halts_const (Partial.pure_ne_deep _)
  · rename_i hblue
    push Not at hblue
    have hrest : ∀ s₁ : Scan, Grows fun n =>
        rescanAt E n ((s.st.enter m).paint s₁.st) s₁.buf >>= fun r =>
          (pure ⟨r.1.update (snapshotAlterBlue (snapshotTake (s.st.enter m).macros)
            (snapshotTake s₁.st.macros) (-1)), r.2, s₁.pos⟩ : EvalM Scan) :=
      fun s₁ => (expandFrom_grows E _).bind fun _ => grows_const _
    refine halts_bind (fun n => evalMacroDoubleEval_le (rescanAt_le E n) _ _)
      (fun _ => grows_const _) ?_ fun _ _ => halts_const (Partial.pure_ne_deep _)
    refine halts_bind (evalMacroR_grows E m _) hrest (hr hblue) fun s₁ hs₁ => ?_
    exact halts_bind (expandFrom_grows E _) (fun _ => grows_const _) (hscan hblue s₁ hs₁)
      fun _ _ => halts_const (Partial.pure_ne_deep _)

theorem resume_halts {E : Env} {s : Scan} {checkQuote : Bool}
    (h : Halts fun n => expandFrom E n { s with pos := s.pos + 1 }) :
    Halts fun n => resume E n s checkQuote := by
  refine halts_bind (grows_const _) (fun next => ?_)
    (halts_const (Partial.ofExcept_ne_deep _)) fun next hnext => ?_
  · split
    · exact grows_const _
    · exact expandFrom_grows E _
  · split
    · exact halts_const (Partial.pure_ne_deep _)
    · rw [nextPos_some (Partial.ofExcept_eq_pure.mp (ret_const.mp hnext))]
      exact h

/-- The scan comes back when the rest of its turn does. -/
theorem expandFrom_halts_of_turn {E : Env} {s : Scan}
    (hskip : ∀ p, turnOf s.st.macros s.buf s.pos = .skip p →
      Halts fun n => expandFrom E n { s with pos := p + 1 })
    (heval : ∀ m p, turnOf s.st.macros s.buf s.pos = .found m p →
      Halts fun n => evalMacro E (rescanAt E n) m { s with pos := p })
    (hfound : ∀ m p s', turnOf s.st.macros s.buf s.pos = .found m p →
      Ret (fun n => evalMacro E (rescanAt E n) m { s with pos := p }) s' →
        Halts fun n => expandFrom E n { s' with pos := s'.pos + 1 }) :
    Halts fun n => expandFrom E n s := by
  cases hturn : turnOf s.st.macros s.buf s.pos with
  | done => exact halts_call (expandFrom_done hturn) (halts_const (Partial.pure_ne_deep _))
  | outside => exact halts_call (expandFrom_outside hturn) (halts_const (Partial.die_ne_deep _))
  | skip p =>
    apply halts_call (expandFrom_skip hturn)
    apply resume_halts
    exact hskip p hturn
  | found m p =>
    apply halts_call (expandFrom_found hturn)
    refine halts_bind (evalMacro_grows E m _) (fun s' => resume_grows E s' true)
      (heval m p hturn) fun s' hs' => ?_
    apply resume_halts
    exact hfound m p s' hturn hs'

/-! ## Positions -/

theorem evalMacroR_pos {E : Env} {rescan : Rescan} {m : Macro} {s s' : Scan}
    (h : evalMacroR E rescan m s = pure s') : s.pos ≤ s'.pos := by
  unfold evalMacroR at h
  split at h
  · obtain ⟨p, -, h⟩ := Partial.bind_eq_pure.mp h
    cases Partial.pure_inj.mp h
    exact Nat.le_add_right _ _
  · split at h
    · cases Partial.pure_inj.mp h
      exact le_rfl
    · exact absurd h (Partial.die_ne_pure _ _)
    · split at h
      · cases Partial.pure_inj.mp h
        exact le_rfl
      · obtain ⟨p, -, h⟩ := Partial.bind_eq_pure.mp h
        cases Partial.pure_inj.mp h
        exact Nat.le_add_right _ _

theorem evalMacro_pos {E : Env} {rescan : Rescan} {m : Macro} {s s' : Scan}
    (h : evalMacro E rescan m s = pure s') : s.pos ≤ s'.pos := by
  rcases evalMacro_eq_pure h with ⟨-, rfl⟩ | ⟨-, s₁, st₂, b₂, hr, -, -, hpos⟩
  · exact Nat.le_add_right _ _
  · have hle := evalMacroR_pos hr
    rwa [← hpos] at hle

/-! ## Chains of replacements that end -/

/-- The definitions of the state are `D`; expansion keeps this. -/
theorem defs_keep {D : List Def} :
    ∀ st st' : EvalState, st'.macros.painted = st.macros.painted → st.macros.defs = D →
      st'.macros.defs = D :=
  fun _ _ h hst => (defs_eq_of_painted h).trans hst

/-- At the end of the block nothing is left to scan. -/
theorem expandFrom_halts_at_end {E : Env} {st : EvalState} {b : Buf} {pos : Nat}
    (h : b.length ≤ pos) : Halts fun n => expandFrom E n ⟨st, b, pos⟩ := by
  apply expandFrom_halts_of_turn
  · intro p hturn
    exact absurd (turnOf_skip hturn).1 (not_lt.mpr h)
  · intro m p hturn
    exact absurd (turnOf_found hturn).1 (not_lt.mpr h)
  · intro m p s' hturn
    exact absurd (turnOf_found hturn).1 (not_lt.mpr h)

theorem expandFrom_halts_of_nonRecursive {E : Env} {D : List Def} {b : Buf}
    (hb : NonRecursive E D b) :
    ∀ (st : EvalState) (pos : Nat), st.macros.defs = D →
      Halts fun n => expandFrom E n ⟨st, b, pos⟩ := by
  induction hb with
  | intro b _ ih =>
    -- while the block stays as it is, each rescan has fewer macros left to
    -- replace, and each turn starts further right
    suffices H : ∀ u k (st : EvalState) (pos : Nat), st.macros.defs = D →
        st.macros.unpainted ≤ u → b.length - pos ≤ k →
          Halts fun n => expandFrom E n ⟨st, b, pos⟩ from
      fun st pos hst => H _ _ st pos hst le_rfl le_rfl
    intro u
    induction u using Nat.strong_induction_on with
    | _ u ihu =>
      intro k
      induction k with
      | zero =>
        intro st pos hst hu hk
        exact expandFrom_halts_at_end (by omega)
      | succ k ihk =>
        intro st pos hst hu hk
        apply expandFrom_halts_of_turn
        · intro p hturn
          have hp := turnOf_skip hturn
          dsimp only at hp
          exact ihk st (p + 1) hst hu (by omega)
        · intro m p hturn
          obtain ⟨-, -, -, hnamed, hfind, -⟩ := turnOf_found hturn
          dsimp only at hnamed hfind
          rw [hst] at hnamed
          have hst' := (enter_defs m st).trans hst
          apply evalMacro_halts
          · intro _
            refine evalMacroR_halts defs_keep hnamed hst' fun a ha st₁ hst₁ => ?_
            exact ih _ (.inr ⟨a, ha, rfl⟩) st₁ 0 hst₁
          · rintro hblue s₁ ⟨n, hn⟩
            have hpaint := evalMacroR_painted (rescanAt_keeps E n) hn
            have hdefs := (paint_defs hpaint).trans hst'
            have hsteps : Steps E D b s₁.buf :=
              evalMacroR_steps (s := ⟨st, b, p⟩) (rescanAt_keeps E n) (rescanAt_sound E D n) hst
                hnamed hn
            by_cases heq : s₁.buf = b
            · rw [heq]
              have hless := paint_unpainted hfind hblue hpaint
              exact ihu _ (lt_of_lt_of_le hless hu) _ _ _ hdefs le_rfl le_rfl
            · exact ih _ (.inl ⟨hsteps, heq⟩) _ _ hdefs
        · rintro m p s' hturn ⟨n, hn⟩
          obtain ⟨hlt, hle, -, hnamed, -, -⟩ := turnOf_found hturn
          dsimp only at hlt hle hnamed
          rw [hst] at hnamed
          have hpaint := evalMacro_painted (rescanAt_keeps E n) hn
          have hdefs := defs_keep _ _ hpaint hst
          have hsteps : Steps E D b s'.buf :=
            evalMacro_steps (s := ⟨st, b, p⟩) (rescanAt_keeps E n) (rescanAt_sound E D n) hst
              hnamed hn
          have hpos := evalMacro_pos hn
          dsimp only at hpos
          by_cases heq : s'.buf = b
          · have hunp := unpainted_of_painted hpaint
            have hhalts := ihk s'.st (s'.pos + 1) hdefs (by rw [hunp]; exact hu) (by omega)
            rw [← heq] at hhalts
            exact hhalts
          · exact ih _ (.inl ⟨hsteps, heq⟩) _ _ hdefs

/-! ## One macro -/

/-- Every macro named in the block is painted. -/
def Inert (st : EvalState) (b : Buf) : Prop :=
  ∀ pos p m, turnOf st.macros b pos = .found m p → m.blue ≠ 0

theorem evalMacro_inert {E : Env} {rescan : Rescan} {m : Macro} {s s' : Scan}
    (hm : m.blue ≠ 0) (h : evalMacro E rescan m s = pure s') :
    s' = { s with pos := s.pos + m.nam.length } := by
  rcases evalMacro_eq_pure h with ⟨-, heq⟩ | ⟨hblue, -⟩
  · exact heq
  · exact absurd hblue hm

/-- A scan that finds painted macros only leaves everything as it is. -/
theorem expandFrom_inert {E : Env} (n : Nat) {st : EvalState} {b : Buf} (hb : Inert st b)
    {pos : Nat} {r : EvalState × Buf} (h : expandFrom E n ⟨st, b, pos⟩ = pure r) :
    r = (st, b) := by
  induction n generalizing pos with
  | zero => exact absurd h (Partial.deep_ne_pure _)
  | succ n ih =>
    cases hturn : turnOf st.macros b pos with
    | done =>
      rw [expandFrom_done hturn] at h
      exact (Partial.pure_inj.mp h).symm
    | outside =>
      rw [expandFrom_outside hturn] at h
      exact absurd h (Partial.die_ne_pure _ _)
    | skip p =>
      rw [expandFrom_skip hturn] at h
      rcases resume_eq_pure h with heq | hrest
      · exact heq
      · exact ih hrest
    | found m p =>
      rw [expandFrom_found hturn] at h
      obtain ⟨s', heval, h⟩ := Partial.bind_eq_pure.mp h
      have hs' := evalMacro_inert (hb pos p m hturn) heval
      subst hs'
      rcases resume_eq_pure h with heq | hrest
      · exact heq
      · exact ih hrest

theorem expandFrom_halts_of_inert {E : Env} {st : EvalState} {b : Buf} (hb : Inert st b)
    (pos : Nat) : Halts fun n => expandFrom E n ⟨st, b, pos⟩ := by
  induction hk : b.length - pos using Nat.strong_induction_on generalizing pos with
  | _ k ih =>
    apply expandFrom_halts_of_turn
    · intro p hturn
      have hp := turnOf_skip hturn
      dsimp only at hp
      exact ih _ (by omega) (p + 1) rfl
    · intro m p hturn
      have hm := hb pos p m hturn
      exact evalMacro_halts (fun hblue => absurd hblue hm) fun hblue => absurd hblue hm
    · rintro m p s' hturn ⟨n, hn⟩
      have hs' := evalMacro_inert (hb pos p m hturn) hn
      have hp := turnOf_found hturn
      subst hs'
      dsimp only at hp
      exact ih _ (by omega) (p + m.nam.length + 1) rfl

theorem strReplace_length {b : Buf} {start fin : Nat} {replace : Text} (hlt : start < fin)
    (hfin : fin ≤ b.length) :
    (strReplace b start fin replace).length - (start + replace.length) ≤ b.length - start := by
  have hrest : (cstr (b.drop fin)).length ≤ b.length - fin := by
    have h := (List.takeWhile_sublist (l := b.drop fin) fun c => c != nul).length_le
    rwa [List.length_drop] at h
  have hfront : (cstr (b.take start)).length ≤ start := by
    have h := (List.takeWhile_sublist (l := b.take start) fun c => c != nul).length_le
    rw [List.length_take] at h
    exact h.trans (min_le_left _ _)
  unfold strReplace
  dsimp only
  split
  · simp only [List.length_append, List.length_take, List.length_drop, List.length_cons,
      List.length_nil]
    omega
  · simp only [alloc, List.length_append, List.length_cons, List.length_nil]
    omega

/-- `strchr_nest` moves forward, to a character it is looking for. -/
theorem strchrNest_suffix {find : Char} {nest : Nat} {s close : Buf}
    (h : strchrNest find nest s = some close) : close <:+ s ∧ close ≠ [] := by
  fun_induction strchrNest find nest s with
  | case1 => simp at h
  | case2 => simp at h
  | case3 nest c s _ _ ih =>
    obtain ⟨hsuffix, hne⟩ := ih h
    exact ⟨hsuffix.trans (List.suffix_cons c s), hne⟩
  | case4 =>
    cases h
    exact ⟨List.suffix_refl _, List.cons_ne_nil _ _⟩
  | case5 nest c s _ _ _ _ ih =>
    obtain ⟨hsuffix, hne⟩ := ih h
    exact ⟨hsuffix.trans (List.suffix_cons c s), hne⟩

/-- The invocation ends behind the name and within the block. -/
theorem callOf_fin {m : Macro} {b : Buf} {pos fin : Nat} {argsStr : Text}
    (h : callOf m b pos = .args argsStr fin) : pos + m.nam.length < fin ∧ fin ≤ b.length := by
  unfold callOf at h
  split at h
  · rename_i s hopen
    split at h
    · cases h
    · rename_i close hclose
      cases h
      obtain ⟨hsuffix, hne⟩ := strchrNest_suffix hclose
      rw [← hopen] at hsuffix
      have hlen := (hsuffix.trans (List.dropWhile_suffix isSpace)).length_le
      rw [List.length_drop] at hlen
      have hpos := List.length_pos_of_ne_nil hne
      constructor
      · omega
      · omega
  · cases h

/-- A replacement leaves no more of the block to scan than there was. -/
theorem evalMacroR_room {E : Env} {rescan : Rescan} {m : Macro} {s s' : Scan}
    (hnam : m.nam ≠ []) (hlen : s.pos + m.nam.length ≤ s.buf.length)
    (h : evalMacroR E rescan m s = pure s') :
    s'.buf.length - s'.pos ≤ s.buf.length - s.pos := by
  have hpos := List.length_pos_of_ne_nil hnam
  unfold evalMacroR at h
  split at h
  · obtain ⟨p, -, h⟩ := Partial.bind_eq_pure.mp h
    cases Partial.pure_inj.mp h
    exact strReplace_length (by omega) hlen
  · split at h
    · cases Partial.pure_inj.mp h
      exact le_rfl
    · exact absurd h (Partial.die_ne_pure _ _)
    · rename_i argsStr fin hcall
      split at h
      · cases Partial.pure_inj.mp h
        exact le_rfl
      · obtain ⟨p, -, h⟩ := Partial.bind_eq_pure.mp h
        cases Partial.pure_inj.mp h
        obtain ⟨hlt, hfin⟩ := callOf_fin hcall
        exact strReplace_length (by omega) hfin

theorem macroFind_painted (t : Table) (nam : Text) :
    macroFind t.painted nam = (macroFind t nam).map Macro.painted := by
  induction t with
  | nil => rfl
  | cons m t ih =>
    simp only [macroFind, Table.painted] at ih
    have hnam : m.painted.nam = m.nam := rfl
    by_cases h : m.nam = nam
    · simp [macroFind, Table.painted, hnam, h]
    · simp [macroFind, Table.painted, hnam, h, ih]

/-- Tables that agree on counters give macros that do. -/
theorem macroFind_blue {t t' : Table} (h : t'.painted = t.painted) {nam : Text} {m : Macro}
    (hm : macroFind t' nam = some m) : ∃ m₀, macroFind t nam = some m₀ ∧ m₀.blue = m.blue := by
  have hfind := macroFind_painted t' nam
  rw [h, macroFind_painted, hm] at hfind
  cases hm₀ : macroFind t nam with
  | none => simp [hm₀] at hfind
  | some m₀ =>
    have heq : m₀.painted = m.painted := by simpa [hm₀] using hfind
    have hblue : m₀.painted.blue = m.painted.blue := congrArg Macro.blue heq
    exact ⟨m₀, rfl, hblue⟩

theorem macroFind_alterBlue {pre post : List Int} {t : Table} {nam : Text} {m' : Macro}
    (h : macroFind (snapshotAlterBlue pre post 1 t) nam = some m') :
    ∃ m, macroFind t nam = some m ∧ m.blue ≤ m'.blue := by
  induction t generalizing pre post with
  | nil => simp [snapshotAlterBlue, macroFind] at h
  | cons m t ih =>
    cases pre with
    | nil => simp [snapshotAlterBlue, macroFind] at h
    | cons a pre =>
      cases post with
      | nil => simp [snapshotAlterBlue, macroFind] at h
      | cons b post =>
        by_cases hnam : m.nam = nam
        · refine ⟨m, by simp [macroFind, hnam], ?_⟩
          simp only [snapshotAlterBlue, macroFind, List.zipWith_cons_cons, List.find?_cons, hnam,
            beq_self_eq_true, Option.some.injEq] at h
          subst h
          dsimp only
          split_ifs
          · omega
          · omega
        · simp only [snapshotAlterBlue, macroFind, List.zipWith_cons_cons, List.find?_cons,
            beq_eq_false_iff_ne.mpr hnam] at h
          have htail : macroFind (snapshotAlterBlue pre post 1 t) nam = some m' := h
          obtain ⟨m₁, hm₁, hle⟩ := ih htail
          refine ⟨m₁, ?_, hle⟩
          simpa [macroFind, hnam] using hm₁

/-- The definitions are `D` and the macro `nam` is painted. -/
def PaintedAt (D : List Def) (nam : Text) (st : EvalState) : Prop :=
  st.macros.defs = D ∧ ∀ m, macroFind st.macros nam = some m → 0 < m.blue

theorem PaintedAt.keep {D : List Def} {nam : Text} :
    ∀ st st' : EvalState, st'.macros.painted = st.macros.painted → PaintedAt D nam st →
      PaintedAt D nam st' := by
  intro st st' h ⟨hst, hblue⟩
  refine ⟨defs_keep _ _ h hst, fun m hm => ?_⟩
  obtain ⟨m₀, hm₀, heq⟩ := macroFind_blue h hm
  rw [← heq]
  exact hblue m₀ hm₀

theorem paintedAt_enter {D : List Def} {st : EvalState} {m : Macro}
    (hst : st.macros.defs = D) (hm : macroFind st.macros m.nam = some m) (hblue : m.blue = 0) :
    PaintedAt D m.nam (st.enter m) := by
  refine ⟨(enter_defs m st).trans hst, fun m' hm' => ?_⟩
  have hfind : macroFind (macroBlue m.nam 1 (macroUse m.nam 1 st.macros)) m.nam = some m' := hm'
  unfold macroBlue macroUse at hfind
  rw [macroFind_updateFirst fun _ => by rfl, macroFind_updateFirst fun _ => by rfl, hm] at hfind
  cases hfind
  dsimp only
  omega

theorem PaintedAt.paint {D : List Def} {nam : Text} {st st' : EvalState}
    (h : st'.macros.painted = st.macros.painted) (hst : PaintedAt D nam st) :
    PaintedAt D nam (st.paint st') := by
  refine ⟨(paint_defs h).trans hst.1, fun m' hm' => ?_⟩
  obtain ⟨m, hm, hle⟩ := macroFind_alterBlue hm'
  have hpos := (PaintedAt.keep _ _ h hst).2 m hm
  omega

theorem Lone.below {E : Env} {D : List Def} {nam : Text} {b b' : Buf} (hb : Lone E D nam b)
    (h : Below E D b' b) : Lone E D nam b' :=
  fun b₁ hb₁ => hb b₁ (hb₁.tail h)

theorem Lone.steps {E : Env} {D : List Def} {nam : Text} {b b' : Buf} (hb : Lone E D nam b)
    (h : Steps E D b b') : Lone E D nam b' := by
  by_cases heq : b' = b
  · rwa [heq]
  · exact hb.below (.inl ⟨h, heq⟩)

theorem Lone.inert {E : Env} {D : List Def} {nam : Text} {b : Buf} (hb : Lone E D nam b)
    {st : EvalState} (hst : PaintedAt D nam st) : Inert st b := by
  intro pos p m hturn
  obtain ⟨-, -, -, hnamed, hfind, -⟩ := turnOf_found hturn
  rw [hst.1] at hnamed
  rw [hb b .refl p m hnamed] at hfind
  have := hst.2 m hfind
  omega

theorem expandFrom_halts_of_lone {E : Env} {D : List Def} {nam : Text} (k : Nat) :
    ∀ (b : Buf) (st : EvalState) (pos : Nat), Lone E D nam b → st.macros.defs = D →
      b.length - pos ≤ k → Halts fun n => expandFrom E n ⟨st, b, pos⟩ := by
  induction k with
  | zero =>
    intro b st pos hb hst hk
    exact expandFrom_halts_at_end (by omega)
  | succ k ih =>
    intro b st pos hb hst hk
    -- once the macro is painted, its arguments and the rescan are left alone
    have hevent : ∀ m p, turnOf st.macros b pos = .found m p → m.blue = 0 →
        m.nam = nam ∧ NamedAt D b p m ∧ PaintedAt D nam (st.enter m) := by
      intro m p hturn hblue
      obtain ⟨-, -, -, hnamed, hfind, -⟩ := turnOf_found hturn
      rw [hst] at hnamed
      have hnam := hb b .refl p m hnamed
      have hpaint := paintedAt_enter hst hfind hblue
      rw [hnam] at hpaint
      exact ⟨hnam, hnamed, hpaint⟩
    apply expandFrom_halts_of_turn
    · intro p hturn
      have hp := turnOf_skip hturn
      dsimp only at hp
      exact ih b st (p + 1) hb hst (by omega)
    · intro m p hturn
      apply evalMacro_halts
      · intro hblue
        obtain ⟨-, hnamed, hpaint⟩ := hevent m p hturn hblue
        refine evalMacroR_halts PaintedAt.keep hnamed hpaint fun a ha st₁ hst₁ => ?_
        have hlone : Lone E D nam (alloc a) := hb.below (.inr ⟨a, ha, rfl⟩)
        exact expandFrom_halts_of_inert (hlone.inert hst₁) 0
      · rintro hblue s₁ ⟨n, hn⟩
        obtain ⟨-, hnamed, hpaint⟩ := hevent m p hturn hblue
        have hsteps : Steps E D b s₁.buf :=
          evalMacroR_steps (s := ⟨st, b, p⟩) (rescanAt_keeps E n) (rescanAt_sound E D n) hst
            hnamed hn
        have hkeep := evalMacroR_painted (rescanAt_keeps E n) hn
        exact expandFrom_halts_of_inert ((hb.steps hsteps).inert (hpaint.paint hkeep)) 0
    · rintro m p s' hturn ⟨n, hn⟩
      obtain ⟨hlt, hle, hplt, hnamed, -, hword⟩ := turnOf_found hturn
      dsimp only at hlt hle hplt hnamed hword
      have hdefs := defs_keep _ _ (evalMacro_painted (rescanAt_keeps E n) hn) hst
      rcases evalMacro_eq_pure hn with ⟨-, rfl⟩ | ⟨hblue, s₁, st₂, b₂, hr, hscan, hbuf, hpos⟩
      · exact ih b st _ hb hst (by dsimp only; omega)
      · obtain ⟨-, hnamed', hpaint⟩ := hevent m p hturn hblue
        have hsteps : Steps E D b s₁.buf :=
          evalMacroR_steps (s := ⟨st, b, p⟩) (rescanAt_keeps E n) (rescanAt_sound E D n) hst
            hnamed' hr
        have hkeep := evalMacroR_painted (rescanAt_keeps E n) hr
        have hinert := (hb.steps hsteps).inert (hpaint.paint hkeep)
        have hsame := expandFrom_inert n hinert hscan
        have hbuf' : s'.buf = s₁.buf := by rw [hbuf, (Prod.mk.inj hsame).2]
        have hne : m.nam ≠ [] := by
          rw [← hword]
          exact hnamed.1
        have hroom := evalMacroR_room hne (turnOf_found_end hturn) hr
        dsimp only at hroom
        refine ih s'.buf s'.st (s'.pos + 1) ?_ hdefs ?_
        · rw [hbuf']
          exact hb.steps hsteps
        · rw [hbuf', hpos]
          omega

/-! ## Expansion of a line -/

theorem expandFrom_halts {E : Env} {D : List Def} {b : Buf} (hb : Settles E D b)
    {st : EvalState} (hst : st.macros.defs = D) (pos : Nat) :
    Halts fun n => expandFrom E n ⟨st, b, pos⟩ := by
  rcases hb with hb | ⟨nam, hb⟩
  · exact expandFrom_halts_of_nonRecursive hb st pos hst
  · exact expandFrom_halts_of_lone _ b st pos hb hst le_rfl

/-- A translation unit without a name, date or feature. -/
def plainEnv : Env := ⟨[], 1, [], [], [], [], fun _ _ => false⟩

/-- `#define f f + 1`. -/
def selfTable : Table := [⟨"f".toList, some "f + 1".toList, .object, [], 0, 0⟩]

/-- `#define A B` and `#define B ++A`, with their counters. -/
def loopTable (blueA blueB useA useB : Int) : Table :=
  [⟨['A'], some ['B'], .object, [], blueA, useA⟩,
    ⟨['B'], some ['+', '+', 'A'], .object, [], blueB, useB⟩]

/-- `j` plus signs and the name `c`. -/
def plusLine (j : Nat) (c : Char) : Buf := List.replicate j '+' ++ [c, nul]

theorem plusLine_length (j : Nat) (c : Char) : (plusLine j c).length = j + 2 := by
  simp [plusLine]

theorem plusLine_drop {j k : Nat} (hk : k ≤ j) (c : Char) :
    (plusLine j c).drop k = plusLine (j - k) c := by
  unfold plusLine
  rw [List.drop_append_of_le_length (by simpa using hk), List.drop_replicate]

theorem plusLine_cstr_take (j : Nat) (c : Char) :
    cstr ((plusLine j c).take j) = List.replicate j '+' := by
  unfold plusLine cstr
  rw [List.take_left' List.length_replicate, List.takeWhile_replicate]
  simp [nul]

theorem plusLine_drop_end (j : Nat) (c : Char) : (plusLine j c).drop (j + 1) = [nul] := by
  unfold plusLine
  rw [← List.drop_drop, List.drop_left' List.length_replicate]
  rfl

theorem wordFindAny_plusLine {c : Char} (hc : c = 'A' ∨ c = 'B') (j n : Nat) (hn : j < n) :
    wordFindAny n (plusLine j c) = some [c, nul] := by
  induction j generalizing n with
  | zero =>
    obtain ⟨n, rfl⟩ := Nat.exists_eq_succ_of_ne_zero (by omega : n ≠ 0)
    rcases hc with rfl | rfl <;> rfl
  | succ j ih =>
    obtain ⟨n, rfl⟩ := Nat.exists_eq_succ_of_ne_zero (by omega : n ≠ 0)
    exact ih n (by omega)

theorem turnOf_plusLine {t : Table} {c : Char} {m : Macro} (hc : c = 'A' ∨ c = 'B')
    (hm : macroFind t [c] = some m) {j pos : Nat} (hpos : pos ≤ j) :
    turnOf t (plusLine j c) pos = .found m j := by
  have hword : wordOf [c, nul] = [c] := by rcases hc with rfl | rfl <;> rfl
  have hnotL : ¬(([c] : Text) = ['L']) := by rcases hc with rfl | rfl <;> decide
  unfold turnOf
  rw [if_neg (by rw [plusLine_length]; omega), plusLine_drop hpos,
    wordFindAny_plusLine hc _ _ (by rw [plusLine_length]; omega)]
  simp only [hword, hnotL, false_and, if_false, hm, plusLine_length]
  rfl

theorem strReplace_plusLine (j : Nat) (c : Char) {val : Text} (hval : 1 ≤ val.length) :
    strReplace (plusLine j c) j (j + 1) val = List.replicate j '+' ++ val ++ [nul] := by
  unfold strReplace
  dsimp only
  rw [if_neg (by omega), plusLine_drop_end, plusLine_cstr_take]
  simp [alloc, cstr]

theorem nextPos_plusLine_end (j : Nat) (c : Char) (q : Bool) :
    nextPos (plusLine j c) (j + 1) q = .ok none := by
  unfold nextPos
  rw [plusLine_drop_end]
  simp [isQuote, nul]

theorem nextPos_plusLine_plus {j pos : Nat} (hpos : pos < j) (c : Char) (q : Bool) :
    nextPos (plusLine j c) pos q = .ok (some (pos + 1)) := by
  obtain ⟨k, hk⟩ : ∃ k, j - pos = k + 1 := ⟨j - pos - 1, by omega⟩
  unfold nextPos
  rw [plusLine_drop hpos.le, hk]
  simp [plusLine, List.replicate_succ, isQuote, nul]

/-- Both macros painted: nothing happens. -/
theorem expandFrom_loop_inner (n j : Nat) (a b : Int) (c : Nat) :
    expandFrom plainEnv (n + 1) ⟨⟨loopTable 1 1 a b, c⟩, plusLine j 'A', 0⟩ =
      pure (⟨loopTable 1 1 a b, c⟩, plusLine j 'A') := by
  have hturn : turnOf (loopTable 1 1 a b) (plusLine j 'A') 0 =
      .found ⟨['A'], some ['B'], .object, [], 1, a⟩ j :=
    turnOf_plusLine (.inl rfl) rfl (Nat.zero_le j)
  rw [expandFrom_found hturn]
  show resume plainEnv n ⟨_, plusLine j 'A', j + 1⟩ true = _
  unfold resume
  rw [nextPos_plusLine_end]
  rfl

/-- `A` painted: `B` becomes `++A`. -/
theorem expandFrom_loop_middle (n j : Nat) (a b : Int) (c : Nat) :
    expandFrom plainEnv (n + 2) ⟨⟨loopTable 1 0 a b, c⟩, plusLine j 'B', 0⟩ =
      pure (⟨loopTable 1 0 a (b + 1), c⟩, plusLine (j + 2) 'A') := by
  have hturn : turnOf (loopTable 1 0 a b) (plusLine j 'B') 0 =
      .found ⟨['B'], some ['+', '+', 'A'], .object, [], 0, b⟩ j :=
    turnOf_plusLine (.inr rfl) rfl (Nat.zero_le j)
  have hbuf : strReplace (plusLine j 'B') j (j + 1) ['+', '+', 'A'] = plusLine (j + 2) 'A' := by
    rw [strReplace_plusLine j 'B' (by decide)]
    simp [plusLine, List.replicate_succ']
  have hscan := expandFrom_loop_inner n (j + 2) a (b + 1) c
  rw [← hbuf] at hscan
  rw [expandFrom_found hturn, evalMacro_object_pure rfl rfl _ rfl hscan (by rfl), hbuf]
  show resume plainEnv (n + 1) ⟨_, plusLine (j + 2) 'A', j + 2 + 1⟩ true = _
  unfold resume
  rw [nextPos_plusLine_end]
  rfl

/-- Nothing painted: the next turn starts from a longer line of the same form. -/
theorem expandFrom_loop_outer (n j : Nat) (a b : Int) (c : Nat) :
    expandFrom plainEnv (n + 3) ⟨⟨loopTable 0 0 a b, c⟩, plusLine j 'A', j⟩ =
      expandFrom plainEnv (n + 2)
        ⟨⟨loopTable 0 0 (a + 1) (b + 1), c⟩, plusLine (j + 2) 'A', j + 2⟩ := by
  have hturn : turnOf (loopTable 0 0 a b) (plusLine j 'A') j =
      .found ⟨['A'], some ['B'], .object, [], 0, a⟩ j :=
    turnOf_plusLine (.inl rfl) rfl le_rfl
  have hbuf : strReplace (plusLine j 'A') j (j + 1) ['B'] = plusLine j 'B' := by
    rw [strReplace_plusLine j 'A' (by decide)]
    simp [plusLine]
  have hscan := expandFrom_loop_middle n j (a + 1) b c
  rw [← hbuf] at hscan
  rw [expandFrom_found hturn, evalMacro_object_pure rfl rfl _ rfl hscan (by rfl)]
  show resume plainEnv (n + 2) ⟨_, plusLine (j + 2) 'A', j + 1⟩ true = _
  have hnext := nextPos_plusLine_plus (by omega : j + 1 < j + 2) 'A' true
  unfold resume
  rw [hnext]
  rfl

/-- Two levels are not enough to come to the end of a turn. -/
theorem expandFrom_loop_two (j : Nat) (a b : Int) (c : Nat) :
    expandFrom plainEnv 2 ⟨⟨loopTable 0 0 a b, c⟩, plusLine j 'A', j⟩ = .deep := by
  have houter : turnOf (loopTable 0 0 a b) (plusLine j 'A') j =
      .found ⟨['A'], some ['B'], .object, [], 0, a⟩ j :=
    turnOf_plusLine (.inl rfl) rfl le_rfl
  have hmiddle : turnOf (loopTable 1 0 (a + 1) b) (plusLine j 'B') 0 =
      .found ⟨['B'], some ['+', '+', 'A'], .object, [], 0, b⟩ j :=
    turnOf_plusLine (.inr rfl) rfl (Nat.zero_le j)
  have hbuf : strReplace (plusLine j 'A') j (j + 1) ['B'] = plusLine j 'B' := by
    rw [strReplace_plusLine j 'A' (by decide)]
    simp [plusLine]
  have hscan : expandFrom plainEnv 1 ⟨⟨loopTable 1 0 (a + 1) b, c⟩, plusLine j 'B', 0⟩ =
      .deep := by
    rw [expandFrom_found hmiddle, evalMacro_object rfl rfl _ rfl]
    rfl
  rw [← hbuf] at hscan
  rw [expandFrom_found houter, evalMacro_object rfl rfl _ rfl]
  exact congrArg (fun x : EvalM (EvalState × Buf) => (x >>= _) >>= _) hscan

theorem expandFrom_loop (n : Nat) : ∀ (j : Nat) (a b : Int) (c : Nat),
    expandFrom plainEnv (n + 2) ⟨⟨loopTable 0 0 a b, c⟩, plusLine j 'A', j⟩ = .deep := by
  induction n with
  | zero => exact expandFrom_loop_two
  | succ n ih =>
    intro j a b c
    rw [expandFrom_loop_outer]
    exact ih _ _ _ _

end Ucc.Cpp
