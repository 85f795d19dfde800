/-
  Cc1/Generic.lean --- the selection of `_Generic`.

  Source: fold_expr__Generic in src/cc1/ops/expr__Generic.c; type_is_complete,
  type_is_variably_modified and type_is_func_or_block in src/cc1/type_is.c.

  Each association is compared with those behind it, and then the controlling type
  with each association.  An expression is known by a number.  What folding the
  expressions and the types themselves reports is in `hadError`.
-/
import Ucc.Cc1.TypeAgree

set_option autoImplicit false

namespace Ucc.Cc1

/-! ## The associations -/

/-- `struct generic_lbl`: without a type it is the default. -/
structure GenericLbl where
  t : Option Ty
  e : Nat

namespace Ty

/-- `type_is_complete`: `complete` is `sue_is_complete`. -/
def isComplete (complete : SueRef → Bool) : Ty → Bool
  | .tdef _ _ t => t.isComplete complete
  | .cast _ t => t.isComplete complete
  | .attr _ t => t.isComplete complete
  | .whereAt t => t.isComplete complete
  | .btype (.prim .void _) => false
  | .btype (.prim _ _) => true
  | .btype (.sue s) => complete s
  | .array size vlaKind t => (vlaKind ≠ .no || size.isSome) && t.isComplete complete
  | _ => true

/-- `type_is_variably_modified` -/
def isVariablyModified : Ty → Bool
  | .array _ vlaKind t => vlaKind ≠ .no || t.isVariablyModified
  | .btype _ => false
  | .tdef _ _ t => t.isVariablyModified
  | .cast _ t => t.isVariablyModified
  | .attr _ t => t.isVariablyModified
  | .whereAt t => t.isVariablyModified
  | .ptr t => t.isVariablyModified
  | .block t => t.isVariablyModified
  | .func _ _ _ _ t => t.isVariablyModified

/-- `type_is_func_or_block` -/
def isFuncOrBlock (t : Ty) : Bool :=
  match t.skipAll with
  | .func .. => true
  | .block _ => true
  | _ => false

end Ty

/-- `sprob` -/
inductive Sprob where
  | incomplete | variablyModified | function
deriving DecidableEq

def Sprob.text : Sprob → String
  | .incomplete => "incomplete"
  | .variablyModified => "variably-modified"
  | .function => "function"

/-- What is wrong with the type of an association. -/
def sprob (complete : SueRef → Bool) (t : Ty) : Option Sprob :=
  if !t.isComplete complete then some .incomplete
  else if t.isVariablyModified then some .variablyModified
  else if t.isFuncOrBlock then some .function
  else none

/-- The results of `type_cmp` for which an association is chosen. -/
def TypeCmp.selects : TypeCmp → Bool
  -- expr=int matching const int is fine
  | .qualAdd | .equal | .equalTypedef => true
  | _ => false

/-- An error of `fold_expr__Generic`. -/
inductive GenericError where
  | duplicate (l m : GenericLbl)
  | badType (p : Sprob) (l : GenericLbl)
  | secondDefault (l : GenericLbl)
  | noType

def GenericError.text : GenericError → String
  | .duplicate _ _ => "duplicate type in _Generic"
  | .badType p _ => p.text ++ " type in _Generic"
  | .secondDefault _ => "second default for _Generic"
  | .noType => "no type satisfying"

/-- The compiler stops: in `type_cmp`, or at the assertion of a second match. -/
inductive GenericAbort where
  | ice | assertion
deriving DecidableEq

/-! ## The fold -/

section Fold

variable (E : TypeEnv) (complete : SueRef → Bool)

/-- `type_cmp` with what may be a null pointer. -/
def typeCmpNull (b : Ty) : Option Ty → Option TypeCmp
  | none => some .notEqual
  | some a => typeCmp E false b a

/-- The comparison of two associations. -/
def dupError (l m : GenericLbl) : Except GenericAbort (List GenericError) :=
  match m.t with
  | none => .ok []
  | some b =>
    match typeCmpNull E b l.t with
    | none => .error .ice
    | some cmp => .ok (if cmp.equalAny then [.duplicate l m] else [])

/-- The comparison of an association with those behind it. -/
def dupErrors (l : GenericLbl) : List GenericLbl → Except GenericAbort (List GenericError)
  | [] => .ok []
  | m :: ms => do
      let err ← dupError E l m
      let errs ← dupErrors l ms
      return err ++ errs

/-- `e->bits.generic.chosen`, `def`, and the errors. -/
structure GenericSt where
  chosen : Option GenericLbl
  default : Option GenericLbl
  errors : List GenericError

/-- The errors are reported. -/
def GenericSt.report (st : GenericSt) (errs : List GenericError) : GenericSt :=
  { st with errors := st.errors ++ errs }

variable (exprTy : Ty) (hadError : Bool)

/-- What is done with an association that matches. -/
def chooseLbl (l : GenericLbl) (st : GenericSt) : Except GenericAbort GenericSt :=
  if st.chosen.isSome then
    -- assert(fold_had_error)
    if hadError || !st.errors.isEmpty then .ok st else .error .assertion
  else .ok { st with chosen := some l }

/-- What is done with an association that has a type. -/
def foldTypeLbl (l : GenericLbl) (t : Ty) (st : GenericSt) : Except GenericAbort GenericSt :=
  match sprob complete t with
  | some p => .ok (st.report [.badType p l])
  | none =>
    match typeCmp E false exprTy t with
    | none => .error .ice
    | some cmp => if cmp.selects then chooseLbl hadError l st else .ok st

/-- What is done with a default. -/
def foldDefaultLbl (l : GenericLbl) (st : GenericSt) : GenericSt :=
  match st.default with
  | some d => st.report [.secondDefault d]
  | none => { st with default := some l }

/-- What is done with one association. -/
def foldLbl (l : GenericLbl) (st : GenericSt) : Except GenericAbort GenericSt :=
  match l.t with
  | some t => foldTypeLbl E complete exprTy hadError l t st
  | none => .ok (foldDefaultLbl l st)

/-- The loop over the associations. -/
def foldLbls : List GenericLbl → GenericSt → Except GenericAbort GenericSt
  | [], st => .ok st
  | l :: ls, st => do
      let errs ← dupErrors E l ls
      let st ← foldLbl E complete exprTy hadError l (st.report errs)
      foldLbls ls st

/-- `fold_expr__Generic` of an expression of this type. -/
def foldGeneric (ty : Ty) (lbls : List GenericLbl) : Except GenericAbort GenericSt := do
  let st ← foldLbls E complete ty.skipAll hadError lbls ⟨none, none, []⟩
  if st.chosen.isSome then return st
  else if st.default.isSome then return { st with chosen := st.default }
  else return st.report [.noType]

end Fold

/-! ## What the controlling type leaves open -/

/-- A parameter list does not settle those it goes together with: not all of their
parameters are compared with it. -/
def ListOpen (variadic : Bool) (args args' args'' : Nat) (void void' void'' : Bool)
    (count count' count'' : Nat) : Prop :=
  variadic = true ∨ Shares args args' void void' count count' ∨
    Shares args args'' void void'' count count''

instance (variadic : Bool) (args args' args'' : Nat) (void void' void'' : Bool)
    (count count' count'' : Nat) :
    Decidable (ListOpen variadic args args' args'' void void' void'' count count' count'') :=
  inferInstanceAs (Decidable (_ ∨ _ ∨ _))

mutual

/-- Where the first type leaves something open, the other two agree: the size of an
array of variable size, the parameters of a function, attributes and qualifiers. -/
def Decided (E : TypeEnv) : Ty → Ty → Ty → Prop
  | .tdef _ _ c, b, a => Decided E c b a
  | .cast _ c, b, a => Decided E c b a
  | .attr _ c, b, a => Decided E c b a
  | .whereAt c, b, a => Decided E c b a
  | .btype _, b, a => SameFront E b a
  | .ptr r, b, a => SameFront E b a ∧
      match b.skipAll, a.skipAll with
      | .ptr r', .ptr r'' => Decided E r r' r''
      | _, _ => True
  | .block r, b, a => SameFront E b a ∧
      match b.skipAll, a.skipAll with
      | .block r', .block r'' => Decided E r r' r''
      | _, _ => True
  | .array _ kind r, b, a => SameFront E b a ∧
      match b.skipAll, a.skipAll with
      | .array size' kind' r', .array size'' kind'' r'' =>
          (kind ≠ .no → SizesAgree false size' size'' kind' kind'') ∧ Decided E r r' r''
      | _, _ => True
  | .func args void variadic arglist r, b, a => SameFront E b a ∧
      match b.skipAll, a.skipAll with
      | .func args' void' variadic' arglist' r', .func args'' void'' _ arglist'' r'' =>
          (if ListOpen variadic args args' args'' void void' void'' arglist.length
              arglist'.length arglist''.length then
            ListsAgree E args' args'' void' variadic' void'' arglist' arglist''
          else Shares args' args'' void' void'' arglist'.length arglist''.length ∨
            DecidedParams E arglist arglist' arglist'') ∧ Decided E r r' r''
      | _, _ => True
termination_by structural c => c

/-- As `Decided`, of a parameter: qualifiers that no pointer is in front of are not
looked at.  A parameter is no array and no function. -/
def DecidedParam (E : TypeEnv) : Ty → Ty → Ty → Prop
  | .tdef _ _ c, b, a => DecidedParam E c b a
  | .cast _ c, b, a => DecidedParam E c b a
  | .attr _ c, b, a => DecidedParam E c b a
  | .whereAt c, b, a => DecidedParam E c b a
  | .btype _, b, a => AttrsKept E b a
  | .ptr r, b, a => AttrsKept E b a ∧
      match b.skipAll, a.skipAll with
      | .ptr r', .ptr r'' => Decided E r r' r''
      | _, _ => True
  | .block r, b, a => AttrsKept E b a ∧
      match b.skipAll, a.skipAll with
      | .block r', .block r'' => Decided E r r' r''
      | _, _ => True
  | .array _ _ _, b, a => LikeTypes E false b a
  | .func _ _ _ _ _, b, a => LikeTypes E false b a
termination_by structural c => c

def DecidedParams (E : TypeEnv) : List Ty → List Ty → List Ty → Prop
  | c :: cs, b :: bs, a :: as => DecidedParam E c b a ∧ DecidedParams E cs bs as
  | _, _, _ => True
termination_by structural cs => cs

end

theorem decided_skipAll (E : TypeEnv) : ∀ c b a : Ty, Decided E c b a ↔ Decided E c.skipAll b a
  | .tdef _ _ c, b, a => by
      rw [Decided, Ty.skipAll]
      exact decided_skipAll E c b a
  | .cast _ c, b, a => by
      rw [Decided, Ty.skipAll]
      exact decided_skipAll E c b a
  | .attr _ c, b, a => by
      rw [Decided, Ty.skipAll]
      exact decided_skipAll E c b a
  | .whereAt c, b, a => by
      rw [Decided, Ty.skipAll]
      exact decided_skipAll E c b a
  | .btype _, _, _ => Iff.rfl
  | .ptr _, _, _ => Iff.rfl
  | .block _, _, _ => Iff.rfl
  | .array _ _ _, _, _ => Iff.rfl
  | .func _ _ _ _ _, _, _ => Iff.rfl

theorem decidedParam_skipAll (E : TypeEnv) : ∀ c b a : Ty,
    DecidedParam E c b a ↔ DecidedParam E c.skipAll b a
  | .tdef _ _ c, b, a => by
      rw [DecidedParam, Ty.skipAll]
      exact decidedParam_skipAll E c b a
  | .cast _ c, b, a => by
      rw [DecidedParam, Ty.skipAll]
      exact decidedParam_skipAll E c b a
  | .attr _ c, b, a => by
      rw [DecidedParam, Ty.skipAll]
      exact decidedParam_skipAll E c b a
  | .whereAt c, b, a => by
      rw [DecidedParam, Ty.skipAll]
      exact decidedParam_skipAll E c b a
  | .btype _, _, _ => Iff.rfl
  | .ptr _, _, _ => Iff.rfl
  | .block _, _, _ => Iff.rfl
  | .array _ _ _, _, _ => Iff.rfl
  | .func _ _ _ _ _, _, _ => Iff.rfl

section Decided

variable {E : TypeEnv}

/-- What `decided_iff` says of three types. -/
def Decides (E : TypeEnv) (c b a : Ty) : Prop :=
  (EqualTypes E false b a ↔ Decided E c b a) ∧ (LikeTypes E false b a ↔ DecidedParam E c b a)

theorem likeArgs_iff_decidedParams {cs : List Ty}
    (hone : ∀ c ∈ cs, ∀ b a, LikeTypes E false c b → LikeTypes E false c a → Decides E c b a) :
    ∀ {bs as : List Ty}, cs.length = bs.length → cs.length = as.length →
      LikeArgs E cs bs → LikeArgs E cs as → (LikeArgs E bs as ↔ DecidedParams E cs bs as) := by
  induction cs with
  | nil =>
    intro bs as hbs has _ _
    obtain rfl := List.eq_nil_of_length_eq_zero hbs.symm
    obtain rfl := List.eq_nil_of_length_eq_zero has.symm
    exact iff_of_true trivial trivial
  | cons c cs ih =>
    intro bs as hbs has hlikeb hlikea
    cases bs with
    | nil => cases hbs
    | cons b bs =>
      cases as with
      | nil => cases has
      | cons a as =>
        rw [LikeArgs] at hlikeb hlikea
        rw [LikeArgs, DecidedParams, (hone c List.mem_cons_self b a hlikeb.1 hlikea.1).2,
          ih (fun x hx => hone x (List.mem_cons_of_mem _ hx)) (Nat.succ.inj hbs)
            (Nat.succ.inj has) hlikeb.2 hlikea.2]

/-- A list that is compared to its end settles how two others go together. -/
theorem listsAgree_of_two {args args' args'' : Nat} {void void' void'' variadic variadic' : Bool}
    {cs bs as : List Ty}
    (hone : ∀ c ∈ cs, ∀ b a, LikeTypes E false c b → LikeTypes E false c a → Decides E c b a)
    (hb : ListsAgree E args args' void variadic void' cs bs)
    (ha : ListsAgree E args args'' void variadic void'' cs as)
    (hopen : ¬ ListOpen variadic args args' args'' void void' void'' cs.length bs.length
      as.length) :
    ListsAgree E args' args'' void' variadic' void'' bs as ↔
      Shares args' args'' void' void'' bs.length as.length ∨ DecidedParams E cs bs as := by
  rw [ListOpen, not_or, not_or] at hopen
  obtain ⟨hvariadic, hshares', hshares''⟩ := hopen
  rw [listsAgree_iff, or_iff_right hshares', if_neg hvariadic] at hb
  rw [listsAgree_iff, or_iff_right hshares'', if_neg hvariadic] at ha
  have hlen : bs.length = as.length := hb.1.symm.trans ha.1
  have hcount : if variadic' then bs.length ≤ as.length else bs.length = as.length := by
    split
    · exact hlen.le
    · exact hlen
  rw [listsAgree_iff, and_iff_right hcount,
    likeArgs_iff_decidedParams hone hb.1 ha.1 hb.2 ha.2]

/-- Types that a third one is like are equal exactly if they agree on what it leaves
open. -/
theorem decided_iff (E : TypeEnv) (n : Nat) (c b a : Ty) (hn : sizeOf c < n)
    (hb : LikeTypes E false c b) (ha : LikeTypes E false c a) : Decides E c b a := by
  induction n generalizing c b a with
  | zero => exact absurd hn (Nat.not_lt_zero _)
  | succ n ih =>
    have hsize := sizeOf_skipAll_le c
    rw [Decides, decided_skipAll, decidedParam_skipAll]
    rcases skipAll_concrete c with ⟨x, hc⟩ | ⟨r, hc⟩ | ⟨r, hc⟩ | ⟨size, kind, r, hc⟩ |
        ⟨args, void, variadic, arglist, r, hc⟩
    · obtain ⟨y, hy, hxy⟩ := hb.btype hc
      obtain ⟨z, hz, hxz⟩ := ha.btype hc
      have hyz := hxz.of_two hxy
      rw [hc, Decided, DecidedParam, equalTypes_btype hy hz, likeTypes_btype hy hz,
        and_iff_right hyz, and_iff_right hyz]
      exact ⟨Iff.rfl, Iff.rfl⟩
    · obtain ⟨r', hr', heq'⟩ := hb.ptr hc
      obtain ⟨r'', hr'', heq''⟩ := ha.ptr hc
      rw [hc, Ty.ptr.sizeOf_spec] at hsize
      have hnext := (ih r r' r'' (by omega) heq'.like heq''.like).1
      have hcmp : typeCmpR E false b a = _ := typeCmpR_ptr hr' hr''
      rw [hc, Decided, DecidedParam, hr', hr'', equalTypes_map hcmp, likeTypes_pointer rfl hcmp,
        hnext]
      exact ⟨and_comm, and_comm⟩
    · obtain ⟨r', hr', heq'⟩ := hb.block hc
      obtain ⟨r'', hr'', heq''⟩ := ha.block hc
      rw [hc, Ty.block.sizeOf_spec] at hsize
      have hnext := (ih r r' r'' (by omega) heq'.like heq''.like).1
      have hcmp : typeCmpR E false b a = _ := typeCmpR_block hr' hr''
      rw [hc, Decided, DecidedParam, hr', hr'', equalTypes_map hcmp, likeTypes_pointer rfl hcmp,
        hnext]
      exact ⟨and_comm, and_comm⟩
    · obtain ⟨size', kind', r', hr', hsizes', hlike'⟩ := hb.array hc
      obtain ⟨size'', kind'', r'', hr'', hsizes'', hlike''⟩ := ha.array hc
      rw [hc, Ty.array.sizeOf_spec] at hsize
      have hnext := (ih r r' r'' (by omega) hlike' hlike'').1
      have hsizes : SizesAgree false size' size'' kind' kind'' ↔
          (kind ≠ .no → SizesAgree false size' size'' kind' kind'') := by
        refine ⟨fun h _ => h, fun h => ?_⟩
        by_cases hkind : kind = .no
        · exact hsizes''.of_two ⟨hkind, fun h => by cases h⟩ hsizes'
        · exact h hkind
      rw [hc, Decided, DecidedParam, hr', hr'', equalTypes_array hr' hr'', hnext, hsizes]
      exact ⟨and_rotate.symm, Iff.rfl⟩
    · obtain ⟨args', void', variadic', arglist', r', hr', hlists', hlike'⟩ := hb.func hc
      obtain ⟨args'', void'', variadic'', arglist'', r'', hr'', hlists'', hlike''⟩ := ha.func hc
      rw [hc, Ty.func.sizeOf_spec] at hsize
      have hnext := (ih r r' r'' (by omega) hlike' hlike'').1
      have hone : ∀ x ∈ arglist, ∀ y z, LikeTypes E false x y → LikeTypes E false x z →
          Decides E x y z := by
        intro x hx y z hy hz
        have hlt := List.sizeOf_lt_of_mem hx
        exact ih x y z (by omega) hy hz
      rw [hc, Decided, DecidedParam, hr', hr'', equalTypes_func hr' hr'', hnext]
      dsimp only
      by_cases hopen : ListOpen variadic args args' args'' void void' void'' arglist.length
          arglist'.length arglist''.length
      · rw [if_pos hopen]
        exact ⟨and_rotate.symm, Iff.rfl⟩
      · rw [if_neg hopen, listsAgree_of_two hone hlists' hlists'' hopen]
        exact ⟨and_rotate.symm, Iff.rfl⟩

theorem equalTypes_iff_decided {c b a : Ty} (hb : LikeTypes E false c b)
    (ha : LikeTypes E false c a) : EqualTypes E false b a ↔ Decided E c b a :=
  (decided_iff E (sizeOf c + 1) c b a (Nat.lt_succ_self _) hb ha).1

end Decided

/-! ## Runs of the loop -/

section Runs

variable {E : TypeEnv} {complete : SueRef → Bool} {exprTy : Ty} {hadError : Bool}
variable {l : GenericLbl} {st st' : GenericSt}

/-- The type is one that is matched with what is chosen by it. -/
def matchesTy (E : TypeEnv) (complete : SueRef → Bool) (exprTy t : Ty) : Bool :=
  (sprob complete t).isNone && (typeCmp E false exprTy t).any TypeCmp.selects

/-- The association is chosen for the type, unless another one is. -/
def GenericLbl.satisfies (E : TypeEnv) (complete : SueRef → Bool) (exprTy : Ty)
    (l : GenericLbl) : Bool :=
  l.t.any (matchesTy E complete exprTy)

def GenericLbl.isDefault (l : GenericLbl) : Bool := l.t.isNone

/-- A type that does not match changes no more than the errors. -/
theorem foldTypeLbl_ok {t : Ty} (h : foldTypeLbl E complete exprTy hadError l t st = .ok st') :
    st'.chosen = st.chosen.or (if matchesTy E complete exprTy t then some l else none) ∧
      st'.default = st.default := by
  unfold foldTypeLbl at h
  unfold matchesTy
  cases hp : sprob complete t with
  | some p =>
    rw [hp] at h
    cases h
    simp [GenericSt.report]
  | none =>
    rw [hp] at h
    cases hcmp : typeCmp E false exprTy t with
    | none =>
      rw [hcmp] at h
      cases h
    | some cmp =>
      rw [hcmp] at h
      cases hsel : cmp.selects with
      | false =>
        simp only [hsel, Bool.false_eq_true, if_false] at h
        cases h
        simp [hsel]
      | true =>
        simp only [hsel, if_true, chooseLbl] at h
        cases hchosen : st.chosen with
        | none =>
          rw [hchosen] at h
          cases h
          simp [hsel]
        | some d =>
          simp only [hchosen, Option.isSome_some, if_true] at h
          split at h
          · cases h
            simp [hchosen]
          · cases h

theorem foldLbl_ok (h : foldLbl E complete exprTy hadError l st = .ok st') :
    st'.chosen = st.chosen.or (if l.satisfies E complete exprTy then some l else none) ∧
      st'.default = st.default.or (if l.isDefault then some l else none) := by
  unfold foldLbl at h
  unfold GenericLbl.satisfies GenericLbl.isDefault
  cases ht : l.t with
  | none =>
    rw [ht] at h
    obtain rfl := Except.ok.inj h
    cases hd : st.default <;> simp [foldDefaultLbl, GenericSt.report, hd]
  | some t =>
    rw [ht] at h
    obtain ⟨hchosen, hdefault⟩ := foldTypeLbl_ok h
    simp [hchosen, hdefault]

/-- The assertion is about a second association. -/
theorem foldLbl_assertion (h : foldLbl E complete exprTy hadError l st = .error .assertion) :
    l.satisfies E complete exprTy = true ∧ st.chosen.isSome = true := by
  unfold foldLbl at h
  unfold GenericLbl.satisfies
  cases ht : l.t with
  | none =>
    rw [ht] at h
    cases h
  | some t =>
    rw [ht] at h
    unfold foldTypeLbl at h
    cases hp : sprob complete t with
    | some p =>
      simp only [hp] at h
      cases h
    | none =>
      cases hcmp : typeCmp E false exprTy t with
      | none =>
        simp only [hp, hcmp] at h
        cases h
      | some cmp =>
        simp only [hp, hcmp] at h
        split at h
        · rename_i hsel
          unfold chooseLbl at h
          split at h
          · rename_i hsome
            exact ⟨by simp [matchesTy, hp, hcmp, hsel], hsome⟩
          · cases h
        · cases h

theorem bind_eq_ok {α β : Type} {x : Except GenericAbort α} {f : α → Except GenericAbort β}
    {b : β} : x >>= f = .ok b ↔ ∃ a, x = .ok a ∧ f a = .ok b := by
  cases x with
  | error e => exact iff_of_false (fun h => by cases h) (by simp)
  | ok a => exact ⟨fun h => ⟨a, rfl, h⟩, by simp [bind, Except.bind]⟩

theorem bind_eq_error {α β : Type} {x : Except GenericAbort α} {f : α → Except GenericAbort β}
    {e : GenericAbort} : x >>= f = .error e ↔ x = .error e ∨ ∃ a, x = .ok a ∧ f a = .error e := by
  cases x with
  | error e => simp [bind, Except.bind]
  | ok a => simp [bind, Except.bind]

theorem dupError_ne_assertion (l m : GenericLbl) : dupError E l m ≠ .error .assertion := by
  unfold dupError
  cases m.t with
  | none => exact fun h => by cases h
  | some b =>
    dsimp only
    cases typeCmpNull E b l.t <;> exact fun h => by cases h

theorem dupErrors_ne_assertion (l : GenericLbl) (ms : List GenericLbl) :
    dupErrors E l ms ≠ .error .assertion := by
  induction ms with
  | nil => exact fun h => by cases h
  | cons m ms ih =>
    intro h
    rw [dupErrors, bind_eq_error] at h
    rcases h with h | ⟨err, -, h⟩
    · exact dupError_ne_assertion l m h
    · rw [bind_eq_error] at h
      rcases h with h | ⟨errs, -, h⟩
      · exact ih h
      · cases h

theorem foldLbls_cons_ok {ls : List GenericLbl} :
    foldLbls E complete exprTy hadError (l :: ls) st = .ok st' ↔
      ∃ errs st₁, dupErrors E l ls = .ok errs ∧
        foldLbl E complete exprTy hadError l (st.report errs) = .ok st₁ ∧
          foldLbls E complete exprTy hadError ls st₁ = .ok st' := by
  rw [foldLbls, bind_eq_ok]
  constructor
  · rintro ⟨errs, hdup, h⟩
    obtain ⟨st₁, hone, h⟩ := bind_eq_ok.mp h
    exact ⟨errs, st₁, hdup, hone, h⟩
  · rintro ⟨errs, st₁, hdup, hone, h⟩
    exact ⟨errs, hdup, bind_eq_ok.mpr ⟨st₁, hone, h⟩⟩

/-- What the loop chooses is the first association that satisfies the type. -/
theorem foldLbls_ok {ls : List GenericLbl}
    (h : foldLbls E complete exprTy hadError ls st = .ok st') :
    st'.chosen = st.chosen.or (ls.find? (·.satisfies E complete exprTy)) ∧
      st'.default = st.default.or (ls.find? (·.isDefault)) := by
  induction ls generalizing st with
  | nil =>
    cases h
    simp
  | cons l ls ih =>
    obtain ⟨errs, st₁, -, hone, hrest⟩ := foldLbls_cons_ok.mp h
    obtain ⟨hchosen, hdefault⟩ := ih hrest
    obtain ⟨hchosen₁, hdefault₁⟩ := foldLbl_ok hone
    rw [hchosen, hdefault, hchosen₁, hdefault₁, Option.or_assoc, Option.or_assoc,
      List.find?_cons, List.find?_cons]
    refine ⟨congrArg _ ?_, congrArg _ ?_⟩
    · cases l.satisfies E complete exprTy <;> simp
    · cases l.isDefault <;> simp

/-- No two associations satisfy the type. -/
def OneSatisfies (E : TypeEnv) (complete : SueRef → Bool) (exprTy : Ty)
    (ls : List GenericLbl) : Prop :=
  ls.Pairwise fun l m => ¬ (l.satisfies E complete exprTy = true ∧
    m.satisfies E complete exprTy = true)

/-- The assertion holds where no two associations satisfy the type. -/
theorem foldLbls_ne_assertion {ls : List GenericLbl} (hone : OneSatisfies E complete exprTy ls)
    (hst : st.chosen.isSome = true → ∀ l ∈ ls, l.satisfies E complete exprTy = false) :
    foldLbls E complete exprTy hadError ls st ≠ .error .assertion := by
  induction ls generalizing st with
  | nil => exact fun h => by cases h
  | cons l ls ih =>
    obtain ⟨hfirst, hone⟩ := List.pairwise_cons.mp hone
    intro h
    rw [foldLbls, bind_eq_error] at h
    rcases h with h | ⟨errs, -, h⟩
    · exact dupErrors_ne_assertion l ls h
    · rw [bind_eq_error] at h
      rcases h with h | ⟨st₁, hl, h⟩
      · obtain ⟨hsat, hsome⟩ := foldLbl_assertion h
        rw [hst hsome l List.mem_cons_self] at hsat
        cases hsat
      · refine ih hone (fun hsome m hm => ?_) h
        rw [(foldLbl_ok hl).1] at hsome
        by_contra hsat
        rw [Bool.not_eq_false] at hsat
        have hno : l.satisfies E complete exprTy = false :=
          Bool.eq_false_iff.mpr fun hl => hfirst m hm ⟨hl, hsat⟩
        rw [hno] at hsome
        have hchosen : st.chosen.isSome = true := by simpa [GenericSt.report] using hsome
        rw [hst hchosen m (List.mem_cons_of_mem _ hm)] at hsat
        cases hsat

end Runs

/-! ## The selection -/

section Selection

variable {E : TypeEnv} {complete : SueRef → Bool} {ty : Ty} {lbls : List GenericLbl}

/-- The check for duplicates raises no error, whichever association it starts from. -/
def NoDuplicates (E : TypeEnv) : List GenericLbl → Prop
  | [] => True
  | l :: ls => dupErrors E l ls = .ok [] ∧ NoDuplicates E ls

/-- At most one association satisfies the controlling type; the assertion holds; and
another order of the list has the same association chosen, but for a second default. -/
structure Unambiguous (E : TypeEnv) (complete : SueRef → Bool) (ty : Ty)
    (lbls : List GenericLbl) : Prop where
  one : OneSatisfies E complete ty.skipAll lbls
  asserts : ∀ hadError, foldGeneric E complete hadError ty lbls ≠ .error .assertion
  order : ∀ lbls', lbls'.Perm lbls → (lbls.filter (·.isDefault)).length ≤ 1 →
    ∀ hadError hadError' st st', foldGeneric E complete hadError ty lbls = .ok st →
      foldGeneric E complete hadError' ty lbls' = .ok st' → st'.chosen = st.chosen

theorem dupErrors_nil {l : GenericLbl} {ms : List GenericLbl} (h : dupErrors E l ms = .ok []) :
    ∀ m ∈ ms, dupError E l m = .ok [] := by
  induction ms with
  | nil => exact fun m hm => by cases hm
  | cons m ms ih =>
    rw [dupErrors, bind_eq_ok] at h
    obtain ⟨err, herr, h⟩ := h
    obtain ⟨errs, herrs, h⟩ := bind_eq_ok.mp h
    obtain ⟨rfl, rfl⟩ := List.append_eq_nil_iff.mp (Except.ok.inj h)
    intro m' hm'
    rcases List.mem_cons.mp hm' with rfl | hm'
    · exact herr
    · exact ih herrs m' hm'

/-- The conversion of `void *` is to a result that is no match. -/
theorem typeCmp_equalTypes {a b : Ty} :
    EqualTypes E false a b ↔ ∃ cmp, typeCmp E false a b = some cmp ∧ cmp.equalAny = true := by
  unfold EqualTypes typeCmp
  have hequal : ∀ c, (voidPtrConversion a b c).equalAny = c.equalAny := fun c => by
    rw [← coarse_equalAny, coarse_voidPtrConversion, coarse_equalAny]
  cases typeCmpR E false a b with
  | none => simp
  | some c => simp [hequal]

theorem sameParam_of_selects {cmp : TypeCmp} (h : cmp.selects = true) : cmp.sameParam = true := by
  cases cmp <;> first | rfl | cases h

theorem likeTypes_of_selects {a b : Ty} {cmp : TypeCmp} (h : typeCmp E false a b = some cmp)
    (hsel : cmp.selects = true) : LikeTypes E false a b := by
  obtain ⟨c, hc, hconv⟩ := Option.map_eq_some_iff.mp h
  refine ⟨c, hc, ?_⟩
  rw [← coarse_sameParam, ← coarse_voidPtrConversion a b, hconv, coarse_sameParam]
  exact sameParam_of_selects hsel

theorem likeTypes_of_matches {t : Ty} (h : matchesTy E complete ty t = true) :
    LikeTypes E false ty t := by
  obtain ⟨cmp, hcmp, hsel⟩ := (Option.any_eq_true _ _).mp (Bool.and_eq_true_iff.mp h).2
  exact likeTypes_of_selects hcmp hsel

/-- Associations that raise no error have types that are not equal. -/
theorem NoDuplicates.pairwise (h : NoDuplicates E lbls) : lbls.Pairwise fun l m =>
    ∀ a b, l.t = some a → m.t = some b → ¬ EqualTypes E false b a := by
  induction lbls with
  | nil => exact .nil
  | cons l ls ih =>
    refine .cons (fun m hm a b ha hb heq => ?_) (ih h.2)
    have hdup := dupErrors_nil h.1 m hm
    obtain ⟨cmp, hcmp, hequal⟩ := typeCmp_equalTypes.mp heq
    rw [dupError, hb, ha] at hdup
    simp [typeCmpNull, hcmp, hequal] at hdup

theorem foldGeneric_ok {hadError : Bool} {st : GenericSt}
    (h : foldGeneric E complete hadError ty lbls = .ok st) :
    st.chosen = (lbls.find? (·.satisfies E complete ty.skipAll)).or
      (lbls.find? (·.isDefault)) := by
  obtain ⟨st₁, hloop, hend⟩ := bind_eq_ok.mp h
  obtain ⟨hchosen, hdefault⟩ := foldLbls_ok hloop
  rw [Option.none_or] at hchosen hdefault
  rw [← hchosen, ← hdefault]
  cases hc : st₁.chosen with
  | some l =>
    rw [if_pos (by rw [hc]; rfl)] at hend
    cases hend
    exact hc
  | none =>
    rw [if_neg (by simp [hc])] at hend
    cases hd : st₁.default with
    | some d =>
      rw [if_pos (by rw [hd]; rfl)] at hend
      cases hend
      exact hd
    | none =>
      rw [if_neg (by simp [hd])] at hend
      cases hend
      exact hc

/-- A search that at most one element ends does not depend on the order. -/
theorem find?_perm {α : Type} {p : α → Bool} {l l' : List α} (hperm : l'.Perm l)
    (hone : (l.filter p).length ≤ 1) : l'.find? p = l.find? p := by
  have hfilter := hperm.filter p
  rw [← List.head?_filter, ← List.head?_filter]
  rcases hl : l.filter p with _ | ⟨x, rest⟩
  · rw [hl] at hfilter
    rw [hfilter.eq_nil]
  · rw [hl] at hone hfilter
    obtain rfl := List.eq_nil_of_length_eq_zero (Nat.le_zero.mp (Nat.le_of_succ_le_succ hone))
    rw [List.perm_singleton.mp hfilter]

theorem OneSatisfies.length_filter {exprTy : Ty} (h : OneSatisfies E complete exprTy lbls) :
    (lbls.filter (·.satisfies E complete exprTy)).length ≤ 1 := by
  by_contra hmany
  rcases hf : lbls.filter (·.satisfies E complete exprTy) with _ | ⟨x, _ | ⟨y, rest⟩⟩
  · simp [hf] at hmany
  · simp [hf] at hmany
  · have hpair := h.filter (·.satisfies E complete exprTy)
    have hmem : ∀ l ∈ x :: y :: rest, l.satisfies E complete exprTy = true := by
      intro l hl
      rw [← hf] at hl
      exact (List.mem_filter.mp hl).2
    rw [hf] at hpair
    exact (List.pairwise_cons.mp hpair).1 y List.mem_cons_self
      ⟨hmem x List.mem_cons_self, hmem y (List.mem_cons_of_mem _ List.mem_cons_self)⟩

theorem unambiguous_of_oneSatisfies (h : OneSatisfies E complete ty.skipAll lbls) :
    Unambiguous E complete ty lbls := by
  refine ⟨h, fun hadError hassert => ?_, fun lbls' hperm hdefault hadError hadError' st st' hst
    hst' => ?_⟩
  · rcases bind_eq_error.mp hassert with hloop | ⟨st, -, hend⟩
    · exact foldLbls_ne_assertion h (fun hsome => by cases hsome) hloop
    · split at hend
      · cases hend
      · split at hend <;> cases hend
  · rw [foldGeneric_ok hst, foldGeneric_ok hst', find?_perm hperm h.length_filter,
      find?_perm hperm hdefault]

/-! ### A controlling type that leaves nothing open -/

/-- Base types, pointers, and arrays of constant size whose elements have no qualifiers. -/
def Plain : Ty → Prop
  | .btype _ => True
  | .ptr t => Plain t
  | .array _ kind t => kind = .no ∧ t.qual = .none ∧ Plain t
  | .tdef _ _ t => Plain t
  | .cast _ t => Plain t
  | .attr _ t => Plain t
  | .whereAt t => Plain t
  | .block _ => False
  | .func _ _ _ _ _ => False

theorem plain_skipAll : ∀ t : Ty, Plain t ↔ Plain t.skipAll
  | .tdef _ _ t => plain_skipAll t
  | .cast _ t => plain_skipAll t
  | .attr _ t => plain_skipAll t
  | .whereAt t => plain_skipAll t
  | .btype _ => Iff.rfl
  | .ptr _ => Iff.rfl
  | .block _ => Iff.rfl
  | .array _ _ _ => Iff.rfl
  | .func _ _ _ _ _ => Iff.rfl

theorem typeAttributeMissing_trans {a b c : Ty} (hc : NoMismatch E c)
    (ha : typeAttributeMissing E c a = false) : typeAttributeMissing E b a = false := by
  rw [typeAttributeMissing, List.any_eq_false] at ha ⊢
  intro x hx hmissing
  have hpresent := ha x hx
  rw [typeAttrPresent_false hx hc] at hpresent
  rw [Bool.and_eq_true] at hmissing
  simp [hmissing.1] at hpresent

theorem SameFront.of_two {a b c : Ty} (hc : NoMismatch E c) (hb : SameFront E c b)
    (ha : SameFront E c a) : SameFront E b a :=
  ⟨ha.1.of_two hb.1, typeAttributeMissing_trans hc ha.2⟩

theorem decided_of_plain (n : Nat) (c b a : Ty) (hn : sizeOf c < n) (hplain : Plain c)
    (hno : NoMismatch E c) (hb : EqualTypes E false c b) (ha : EqualTypes E false c a) :
    Decided E c b a := by
  induction n generalizing c b a with
  | zero => exact absurd hn (Nat.not_lt_zero _)
  | succ n ih =>
    have hsize := sizeOf_skipAll_le c
    have hskip := hno.skipAll
    rw [plain_skipAll] at hplain
    rw [decided_skipAll]
    rcases skipAll_concrete c with ⟨x, hc⟩ | ⟨r, hc⟩ | ⟨r, hc⟩ | ⟨size, kind, r, hc⟩ |
        ⟨args, void, variadic, arglist, r, hc⟩ <;> rw [hc] at hplain hskip hsize ⊢
    · obtain ⟨y, hy, -⟩ := hb.like.btype hc
      obtain ⟨z, hz, -⟩ := ha.like.btype hc
      exact .of_two hno ((equalTypes_btype hc hy).mp hb).2 ((equalTypes_btype hc hz).mp ha).2
    · obtain ⟨r', hr', -⟩ := hb.like.ptr hc
      obtain ⟨r'', hr'', -⟩ := ha.like.ptr hc
      obtain ⟨heq', hfront'⟩ := (equalTypes_map (typeCmpR_ptr hc hr')).mp hb
      obtain ⟨heq'', hfront''⟩ := (equalTypes_map (typeCmpR_ptr hc hr'')).mp ha
      rw [Ty.ptr.sizeOf_spec] at hsize
      rw [NoMismatch] at hskip
      rw [Decided, hr', hr'']
      exact ⟨.of_two hno hfront' hfront'', ih r r' r'' (by omega) hplain hskip heq' heq''⟩
    · exact absurd hplain id
    · obtain ⟨size', kind', r', hr', -⟩ := hb.like.array hc
      obtain ⟨size'', kind'', r'', hr'', -⟩ := ha.like.array hc
      obtain ⟨-, heq', hfront'⟩ := (equalTypes_array hc hr').mp hb
      obtain ⟨-, heq'', hfront''⟩ := (equalTypes_array hc hr'').mp ha
      rw [Ty.array.sizeOf_spec] at hsize
      rw [NoMismatch] at hskip
      obtain ⟨hkind, -, hplain⟩ := hplain
      rw [Decided, hr', hr'']
      exact ⟨.of_two hno hfront' hfront'', fun h => absurd hkind h,
        ih r r' r'' (by omega) hplain hskip heq' heq''⟩
    · exact absurd hplain id

theorem coarse_selects (c : TypeCmp) : c.coarse.selects = c.selects := by
  cases c <;> rfl

theorem selects_cmpTdefs (a b : Ty) (c : TypeCmp) : (cmpTdefs a b c).selects = c.selects := by
  unfold cmpTdefs
  split
  · rename_i h
    rw [Bool.and_eq_true, decide_eq_true_eq] at h
    rw [h.1]
    rfl
  · rfl

/-- Qualifiers that only the first type has come from within it, if it has none in front. -/
theorem equalAny_or_within {origA origB a b : Ty} {ret : TypeCmp} (hqual : origA.qual = .none)
    (h : (cmpFixups E origA origB a b ret).selects = true) :
    (cmpFixups E origA origB a b ret).equalAny = true ∨
      (a.pointerLike = false ∧ ret = .qualAdd) := by
  have hcoarse : (decayImplicit a (fixNotEqual E a b ret)).coarse = ret.coarse := by
    rw [coarse_decayImplicit, coarse_fixNotEqual]
  rw [cmpFixups, selects_cmpTdefs, throughPointer_eq, hqual] at h
  rw [cmpFixups, equalAny_cmpTdefs, throughPointer_eq, hqual]
  generalize decayImplicit a (fixNotEqual E a b ret) = c at *
  cases hp : a.pointerLike <;> rw [hp] at h <;> revert h hcoarse <;>
    by_cases hq : origB.qual = .none <;>
    cases hm : typeAttributeMissing E origA origB <;> cases c <;> cases ret <;>
    simp [cmpAttributes, cmpQuals, hq, hm, TypeCmp.equalAny, TypeCmp.selects, TypeCmp.pointed,
      TypeCmp.coarse]

theorem qual_skipAll : ∀ t : Ty, t.skipAll.qual = .none
  | .tdef _ _ t => qual_skipAll t
  | .cast _ t => qual_skipAll t
  | .attr _ t => qual_skipAll t
  | .whereAt t => qual_skipAll t
  | .btype _ => rfl
  | .ptr _ => rfl
  | .block _ => rfl
  | .array _ _ _ => rfl
  | .func _ _ _ _ _ => rfl

theorem equalTypes_of_selects (n : Nat) (c t : Ty) (hn : sizeOf c < n) (hplain : Plain c)
    (hqual : c.qual = .none) {cmp : TypeCmp} (hcmp : typeCmpR E false c t = some cmp)
    (hsel : cmp.selects = true) : EqualTypes E false c t := by
  induction n generalizing c t cmp with
  | zero => exact absurd hn (Nat.not_lt_zero _)
  | succ n ih =>
    have hlike : LikeTypes E false c t := ⟨cmp, hcmp, sameParam_of_selects hsel⟩
    have hsize := sizeOf_skipAll_le c
    rw [plain_skipAll] at hplain
    rcases skipAll_concrete c with ⟨x, hc⟩ | ⟨r, hc⟩ | ⟨r, hc⟩ | ⟨size, kind, r, hc⟩ |
        ⟨args, void, variadic, arglist, r, hc⟩ <;> rw [hc] at hplain hsize
    · obtain ⟨y, hy, -⟩ := hlike.btype hc
      have hfix := Option.some.inj ((typeCmpR_btype hc hy).symm.trans hcmp)
      subst hfix
      rcases equalAny_or_within hqual hsel with hequal | ⟨-, hadd⟩
      · exact ⟨_, hcmp, hequal⟩
      · have hsame := sameParam_btypeCmp x y
        rw [hadd] at hsame
        cases hsame
    · obtain ⟨r', hr', -⟩ := hlike.ptr hc
      rw [typeCmpR_ptr hc hr'] at hcmp
      obtain ⟨ret, hret, rfl⟩ := Option.map_eq_some_iff.mp hcmp
      rcases equalAny_or_within hqual hsel with hequal | ⟨hpointer, -⟩
      · exact ⟨_, (typeCmpR_ptr hc hr').trans hcmp, hequal⟩
      · cases hpointer
    · exact absurd hplain id
    · obtain ⟨size', kind', r', hr', hsizes, -⟩ := hlike.array hc
      have harray := typeCmpR_array_agree (E := E) hc hr' hsizes
      rw [harray] at hcmp
      obtain ⟨ret, hret, rfl⟩ := Option.map_eq_some_iff.mp hcmp
      obtain ⟨-, hnone, hplain⟩ := hplain
      rw [Ty.array.sizeOf_spec] at hsize
      rcases equalAny_or_within hqual hsel with hequal | ⟨-, rfl⟩
      · exact ⟨_, harray.trans hcmp, hequal⟩
      · obtain ⟨ret, hret', hequal⟩ := ih r r' (by omega) hplain hnone hret rfl
        obtain rfl := Option.some.inj (hret.symm.trans hret')
        cases hequal
    · exact absurd hplain id

/-- A controlling type that leaves nothing open makes every selection unambiguous. -/
theorem unambiguous_of_plain (hplain : Plain ty) (hattr : NoMismatch E ty.skipAll)
    (h : NoDuplicates E lbls) : Unambiguous E complete ty lbls := by
  have hequal : ∀ t, matchesTy E complete ty.skipAll t = true → EqualTypes E false ty.skipAll t := by
    intro t ht
    obtain ⟨cmp, hcmp, hsel⟩ := (Option.any_eq_true _ _).mp (Bool.and_eq_true_iff.mp ht).2
    obtain ⟨c, hc, hconv⟩ := Option.map_eq_some_iff.mp hcmp
    have hc' : c.selects = true := by
      rw [← coarse_selects, ← coarse_voidPtrConversion ty.skipAll t, hconv, coarse_selects, hsel]
    exact equalTypes_of_selects _ _ t (Nat.lt_succ_self _) ((plain_skipAll ty).mp hplain)
      (qual_skipAll ty) hc hc'
  refine unambiguous_of_oneSatisfies (h.pairwise.imp fun {l m} hne hsat => ?_)
  obtain ⟨a, ha, hma⟩ := (Option.any_eq_true _ _).mp hsat.1
  obtain ⟨b, hb, hmb⟩ := (Option.any_eq_true _ _).mp hsat.2
  exact hne a b ha hb ((equalTypes_iff_decided (hequal b hmb).like (hequal a hma).like).mpr
    (decided_of_plain _ _ b a (Nat.lt_succ_self _) ((plain_skipAll ty).mp hplain) hattr
      (hequal b hmb) (hequal a hma)))

/-! ### The condition -/

/-- Two associations that satisfy the controlling type agree on what it leaves open. -/
def OpenAgrees (E : TypeEnv) (complete : SueRef → Bool) (ty : Ty) (l m : GenericLbl) : Prop :=
  ∀ a b, l.t = some a → m.t = some b → matchesTy E complete ty.skipAll a = true →
    matchesTy E complete ty.skipAll b = true → Decided E ty.skipAll b a

end Selection

/-- `int: .., double: ..` -/
def intOrDouble : List GenericLbl := [⟨some intTy, 0⟩, ⟨some (.btype (.prim .double none)), 1⟩]

/-- `int (*)()` -/
def unspecifiedFn : Ty := .ptr (.func 0 false false [] intTy)

/-- `int (*)(int)` -/
def intFn : Ty := .ptr (.func 1 false false [intTy] intTy)

/-- `int (*)(double)` -/
def doubleFn : Ty := .ptr (.func 2 false false [.btype (.prim .double none)] intTy)

/-- `_Generic(f, int (*)(int): .., int (*)(double): ..)` -/
def twoFns : List GenericLbl := [⟨some intFn, 0⟩, ⟨some doubleFn, 1⟩]

end Ucc.Cc1
