/-
  Cc1/ScopeLeave.lean --- the cleanups that a jump out of its scopes runs.

  Source: gen_scope_destructors, mark_symtabs, fold_check_scope_entry and
  gen_scope_leave in src/cc1/ops/stmt_code.c, symtab_root in src/cc1/sym.c,
  gen_stmt_goto in src/cc1/ops/stmt_goto.c, gen_stmt_break in
  src/cc1/ops/stmt_break.c, gen_stmt_continue in src/cc1/ops/stmt_continue.c,
  gen_stmt_return in src/cc1/ops/stmt_return.c.

  `gen_scope_leave` marks the scopes around its target, walks up from the scope
  that is left until it meets a mark, and clears the marks again.  The walk stops
  at the lowest common ancestor, wherever the target is.  A computed goto leaves
  its scopes without it.
-/
import Mathlib.Logic.Function.Basic
import Ucc.Lib.Rooted

set_option autoImplicit false

namespace Ucc.Cc1.Scope

/-! ## Declarations and their destructors -/

/-- `enum decl_storage`, under `STORE_MASK_STORE`. -/
inductive DeclStorage where
  | storeDefault
  | storeAuto
  | storeStatic
  | storeExtern
  | storeRegister
  | storeTypedef
deriving DecidableEq, Repr

/-- A declaration of a scope: whether it has a `sym`, the function of its cleanup
attribute, and what `type_is_vla` and `type_is_variably_modified` say of its
type. -/
structure ScopeDecl where
  spel : String
  sym : Bool
  cleanup : Option String
  store : DeclStorage
  isVla : Bool
  isVariablyModified : Bool
deriving DecidableEq, Repr

/-- What is generated: a call of a cleanup function with the address of its
variable, or the stack pointer back as it was before a VLA. -/
inductive ScopeCode where
  | cleanupCall (fn var : String)
  | allocaRestore (vla : String)
deriving DecidableEq, Repr

/-- The body of the loop of `gen_scope_destructors`. -/
def declDestructor (d : ScopeDecl) : List ScopeCode :=
  if d.sym then
    (match d.cleanup with
      | some fn => [.cleanupCall fn d.spel]
      | none => []) ++
    if d.store ≠ .storeTypedef ∧ d.isVla = true then [.allocaRestore d.spel] else []
  else []

/-- The loop, with `di` at this index: it counts down to the first declaration. -/
def destructorsFrom (decls : List ScopeDecl) : Nat → List ScopeCode
  | 0 => []
  | di + 1 =>
      (match decls[di]? with
        | some d => declDestructor d
        | none => []) ++ destructorsFrom decls di

/-- `gen_scope_destructors`: `di` starts past the last declaration. -/
def genScopeDestructors (decls : List ScopeDecl) : List ScopeCode :=
  destructorsFrom decls decls.length

theorem destructorsFrom_eq (decls : List ScopeDecl) (di : Nat) (hdi : di ≤ decls.length) :
    destructorsFrom decls di = (decls.take di).reverse.flatMap declDestructor := by
  induction di with
  | zero => rfl
  | succ di ih =>
    have hlt : di < decls.length := by omega
    rw [destructorsFrom, ih (by omega), List.getElem?_eq_getElem hlt,
      List.take_succ_eq_append_getElem hlt, List.reverse_append, List.reverse_singleton,
      List.singleton_append, List.flatMap_cons]

/-- The destructors run in reverse order of declaration. -/
theorem genScopeDestructors_eq (decls : List ScopeDecl) :
    genScopeDestructors decls = decls.reverse.flatMap declDestructor := by
  unfold genScopeDestructors
  rw [destructorsFrom_eq decls _ le_rfl, List.take_length]

/-! ## Scopes and marks -/

/-- The symtables of a file: a tree, with the declarations of each scope and
whether it is the scope of a statement expression. -/
structure Symtabs (σ : Type) extends Lib.Rooted σ where
  decls : σ → List ScopeDecl
  stmtExpr : σ → Bool

/-- The `mark` of each symtable. -/
abbrev Marks (σ : Type) := σ → Bool

variable {σ : Type} [DecidableEq σ] (t : Symtabs σ)

/-- `mark_symtabs`. -/
def markSymtabs (s : σ) (m : Bool) (marks : Marks σ) : Marks σ :=
  (t.path s).foldl (fun marks it => Function.update marks it m) marks

/-- `SYMTAB_PARENT_WALK` over these scopes, up to the first with a mark. -/
def walkToMark {β : Type} (marks : Marks σ) (visit : σ → List β) : List σ → List β
  | [] => []
  | it :: rest => if marks it = true then [] else visit it ++ walkToMark marks visit rest

/-- `gen_scope_leave`: what it generates, and the marks it leaves. -/
def genScopeLeave (sFrom : σ) (sTo : Option σ) (marks : Marks σ) : List ScopeCode × Marks σ :=
  match sTo with
  | none => (genScopeDestructors (t.decls sFrom), marks)
  | some sTo =>
      let marked := markSymtabs t sTo true marks
      (walkToMark marked (fun s => genScopeDestructors (t.decls s)) (t.path sFrom),
        markSymtabs t sTo false marked)

/-- `gen_scope_leave_parent`. -/
def genScopeLeaveParent (sFrom : σ) (marks : Marks σ) : List ScopeCode × Marks σ :=
  genScopeLeave t sFrom (t.parent sFrom) marks

/-- An error of `fold_check_scope_entry`. -/
inductive EntryError (σ : Type) where
  | stmtExpr (scope : σ)
  | variablyModified (d : ScopeDecl)
deriving DecidableEq, Repr

/-- What entering one scope is reported for. -/
def entryErrors (s : σ) : List (EntryError σ) :=
  (if t.stmtExpr s then [.stmtExpr s] else []) ++
    ((t.decls s).filter (·.isVariablyModified)).map .variablyModified

/-- `fold_check_scope_entry`, which uses the same marks: here the scopes around
the goto are marked, and the walk is from the label. -/
def foldCheckScopeEntry (sFrom sTo : σ) (marks : Marks σ) : List (EntryError σ) × Marks σ :=
  let marked := markSymtabs t sFrom true marks
  (walkToMark marked (entryErrors t) (t.path sTo), markSymtabs t sFrom false marked)

theorem foldl_update_apply (m : Bool) (scopes : List σ) (marks : Marks σ) (s : σ) :
    scopes.foldl (fun marks it => Function.update marks it m) marks s =
      if s ∈ scopes then m else marks s := by
  induction scopes generalizing marks with
  | nil => simp
  | cons it rest ih =>
    rw [List.foldl_cons, ih]
    by_cases hrest : s ∈ rest
    · simp [hrest]
    · by_cases hs : s = it
      · simp [hs]
      · simp [hrest, hs]

theorem markSymtabs_apply (s it : σ) (m : Bool) (marks : Marks σ) :
    markSymtabs t s m marks it = if it ∈ t.path s then m else marks it :=
  foldl_update_apply m (t.path s) marks it

/-- Marks that were clear are clear again. -/
theorem markSymtabs_clear {marks : Marks σ} (hclear : ∀ s, marks s = false) (s : σ) :
    markSymtabs t s false (markSymtabs t s true marks) = marks := by
  funext it
  rw [markSymtabs_apply, markSymtabs_apply, hclear]
  split <;> rfl

omit [DecidableEq σ] in
/-- The walk visits what is below the first marked scope. -/
theorem walkToMark_append {β : Type} {marks : Marks σ} (visit : σ → List β) {below rest : List σ}
    (hbelow : ∀ s ∈ below, marks s = false) (hrest : ∀ c ∈ rest.head?, marks c = true) :
    walkToMark marks visit (below ++ rest) = below.flatMap visit := by
  induction below with
  | nil =>
    cases rest with
    | nil => rfl
    | cons c rest =>
      have hc : marks c = true := hrest c rfl
      rw [List.nil_append, walkToMark, if_pos hc, List.flatMap_nil]
  | cons s below ih =>
    have hs : marks s = false := hbelow s List.mem_cons_self
    rw [List.cons_append, walkToMark, hs, if_neg Bool.false_ne_true,
      ih fun s hs => hbelow s (List.mem_cons_of_mem _ hs), List.flatMap_cons]

/-- With the scopes around `b` marked, the walk from `a` visits the scopes that
are around `a` and not around `b`. -/
theorem walkToMark_marked {β : Type} {marks : Marks σ} (hclear : ∀ s, marks s = false)
    (visit : σ → List β) {a b c : σ} {below : List σ} (hlca : t.IsLca c a b)
    (hpath : t.path a = below ++ t.path c) (hbelow : ∀ s ∈ below, s ∉ t.path b) :
    walkToMark (markSymtabs t b true marks) visit (t.path a) = below.flatMap visit := by
  rw [hpath]
  apply walkToMark_append
  · intro s hs
    rw [markSymtabs_apply, if_neg (hbelow s hs), hclear]
  · intro s hs
    have hmem : s ∈ t.path b := (t.path_suffix hlca.right).subset (List.mem_of_mem_head? hs)
    rw [markSymtabs_apply, if_pos hmem]

/-- The scopes below the lowest common ancestor are those that are not around the
target. -/
theorem filter_notMem_path {a b c : σ} {below : List σ} (hlca : t.IsLca c a b)
    (hpath : t.path a = below ++ t.path c) (hbelow : ∀ s ∈ below, s ∉ t.path b) :
    (t.path a).filter (· ∉ t.path b) = below := by
  have hkeep : below.filter (· ∉ t.path b) = below := by
    rw [List.filter_eq_self]
    intro s hs
    simpa using hbelow s hs
  have hdrop : (t.path c).filter (· ∉ t.path b) = [] := by
    rw [List.filter_eq_nil_iff]
    intro s hs
    simpa using (t.path_suffix hlca.right).subset hs
  rw [hpath, List.filter_append, hkeep, hdrop, List.append_nil]

/-- The destructors of these scopes, in this order. -/
def destructorsOf (scopes : List σ) : List ScopeCode :=
  scopes.flatMap fun s => (t.decls s).reverse.flatMap declDestructor

theorem genScopeLeave_of_lca {marks : Marks σ} (hclear : ∀ s, marks s = false)
    {sFrom sTo c : σ} {below : List σ} (hlca : t.IsLca c sFrom sTo)
    (hpath : t.path sFrom = below ++ t.path c) (hbelow : ∀ s ∈ below, s ∉ t.path sTo) :
    genScopeLeave t sFrom (some sTo) marks = (destructorsOf t below, marks) := by
  unfold genScopeLeave destructorsOf
  simp only [walkToMark_marked t hclear _ hlca hpath hbelow, markSymtabs_clear t hclear,
    genScopeDestructors_eq]

/-- What `gen_scope_leave` does, by the scopes that are not around its target. -/
theorem genScopeLeave_eq {marks : Marks σ} (hclear : ∀ s, marks s = false) (sFrom sTo : σ) :
    genScopeLeave t sFrom (some sTo) marks =
      (destructorsOf t ((t.path sFrom).filter (· ∉ t.path sTo)), marks) := by
  obtain ⟨c, below, hlca, hpath, hbelow⟩ := t.exists_lca sFrom sTo
  rw [filter_notMem_path t hlca hpath hbelow]
  exact genScopeLeave_of_lca t hclear hlca hpath hbelow

/-- `fold_check_scope_entry` reports the scopes that a goto enters. -/
theorem foldCheckScopeEntry_eq {marks : Marks σ} (hclear : ∀ s, marks s = false)
    (sFrom sTo : σ) :
    foldCheckScopeEntry t sFrom sTo marks =
      (((t.path sTo).filter (· ∉ t.path sFrom)).flatMap (entryErrors t), marks) := by
  obtain ⟨c, below, hlca, hpath, hbelow⟩ := t.exists_lca sTo sFrom
  rw [filter_notMem_path t hlca hpath hbelow]
  unfold foldCheckScopeEntry
  simp only [walkToMark_marked t hclear _ hlca hpath hbelow, markSymtabs_clear t hclear]

/-! ## Runs of the two walks -/

/-- A walk that uses the marks. -/
inductive MarkWalk (σ : Type) where
  | leave (sFrom : σ) (sTo : Option σ)
  | checkEntry (sFrom sTo : σ)

/-- The marks after one walk. -/
def stepMarks (marks : Marks σ) : MarkWalk σ → Marks σ
  | .leave sFrom sTo => (genScopeLeave t sFrom sTo marks).2
  | .checkEntry sFrom sTo => (foldCheckScopeEntry t sFrom sTo marks).2

theorem stepMarks_clear {marks : Marks σ} (hclear : ∀ s, marks s = false) (w : MarkWalk σ) :
    stepMarks t marks w = marks := by
  cases w with
  | leave sFrom sTo =>
    cases sTo with
    | none => rfl
    | some sTo => rw [stepMarks, genScopeLeave_eq t hclear]
  | checkEntry sFrom sTo => rw [stepMarks, foldCheckScopeEntry_eq t hclear]

/-- No sequence of walks leaves a mark behind. -/
theorem walks_leave_marks_clear {marks : Marks σ} (hclear : ∀ s, marks s = false)
    (ws : List (MarkWalk σ)) : ws.foldl (stepMarks t) marks = marks := by
  induction ws with
  | nil => rfl
  | cons w ws ih => rw [List.foldl_cons, stepMarks_clear t hclear, ih]

/-- What a walk generates, and what it reports. -/
def walkOutput (marks : Marks σ) : MarkWalk σ → List ScopeCode × List (EntryError σ)
  | .leave sFrom sTo => ((genScopeLeave t sFrom sTo marks).1, [])
  | .checkEntry sFrom sTo => ([], (foldCheckScopeEntry t sFrom sTo marks).1)

/-- The same by the scopes that are left or entered, without marks. -/
def scopesOutput : MarkWalk σ → List ScopeCode × List (EntryError σ)
  | .leave sFrom none => (destructorsOf t [sFrom], [])
  | .leave sFrom (some sTo) => (destructorsOf t ((t.path sFrom).filter (· ∉ t.path sTo)), [])
  | .checkEntry sFrom sTo => ([], ((t.path sTo).filter (· ∉ t.path sFrom)).flatMap (entryErrors t))

/-- A jump statement, with what says where it goes: the scope of the label, the
scope of the loop or switch that is left or continued, the scope of the
arguments of the function that returns.  The label of a computed goto is known
at run time only, and the code reads neither it nor the scope of the
arguments. -/
inductive Jump (σ : Type) where
  | goto (label : σ)
  | gotoExpr (label : σ)
  | breakTo (parent : σ)
  | continueTo (parent : σ)
  | ret (args : σ)
deriving DecidableEq, Repr

/-- `symtab_root`. -/
def symtabRoot (s : σ) : σ :=
  (t.path s).getLast?.getD s

/-- `gen_stmt_goto`, `gen_stmt_break`, `gen_stmt_continue` and `gen_stmt_return`,
as far as they leave scopes. -/
def genJump (sFrom : σ) (j : Jump σ) (marks : Marks σ) : List ScopeCode × Marks σ :=
  match j with
  | .goto label => genScopeLeave t sFrom (some label) marks
  | .gotoExpr _ => ([], marks)
  | .breakTo parent => genScopeLeave t sFrom (some parent) marks
  | .continueTo parent => genScopeLeave t sFrom (some parent) marks
  | .ret _ => genScopeLeave t sFrom (some (symtabRoot t sFrom)) marks

/-- The scopes that control is in after the jump.  After a return that is what
surrounds the arguments of the function. -/
def Jump.scopesAfter (j : Jump σ) : List σ :=
  match j with
  | .goto label => t.path label
  | .gotoExpr label => t.path label
  | .breakTo parent => t.path parent
  | .continueTo parent => t.path parent
  | .ret args => (t.path args).tail

/-- The scopes that the jump leaves, innermost first. -/
def Jump.scopesLeft (j : Jump σ) (sFrom : σ) : List σ :=
  (t.path sFrom).filter (· ∉ j.scopesAfter t)

/-- Whether the jump is to a label or a statement, or returns from a function
with its arguments directly below the file scope. -/
def Jump.Direct (j : Jump σ) : Prop :=
  match j with
  | .gotoExpr _ => False
  | .ret args => t.parent args = some t.root
  | _ => True

omit [DecidableEq σ] in
theorem symtabRoot_eq (s : σ) : symtabRoot t s = t.root := by
  rw [symtabRoot, t.getLast?_path, Option.getD_some]

theorem genJump_eq {marks : Marks σ} (hclear : ∀ s, marks s = false) (sFrom : σ) (j : Jump σ)
    (hj : j.Direct t) :
    genJump t sFrom j marks = (destructorsOf t (j.scopesLeft t sFrom), marks) := by
  cases j with
  | goto label => exact genScopeLeave_eq t hclear sFrom label
  | gotoExpr label => exact hj.elim
  | breakTo parent => exact genScopeLeave_eq t hclear sFrom parent
  | continueTo parent => exact genScopeLeave_eq t hclear sFrom parent
  | ret args =>
    have hafter : (Jump.ret args).scopesAfter t = t.path t.root := by
      rw [Jump.scopesAfter, t.path_of_some hj, List.tail_cons]
    rw [genJump, symtabRoot_eq, genScopeLeave_eq t hclear, Jump.scopesLeft, hafter]

/-- A variable with a cleanup. -/
def guarded : ScopeDecl where
  spel := "x"
  sym := true
  cleanup := some "g"
  store := .storeDefault
  isVla := false
  isVariablyModified := false

/-- The scopes of `f(){ { x; … } l: … }`: the file, the arguments, the body and
the block with `x`. -/
def nested : Symtabs (Fin 4) where
  root := 0
  parent := fun s => if s = 0 then none else some (s - 1)
  depth := fun s => s.val
  depth_parent := by decide
  eq_root := by decide
  parent_root := by decide
  decls := fun s => if s = 3 then [guarded] else []
  stmtExpr := fun _ => false

end Ucc.Cc1.Scope
