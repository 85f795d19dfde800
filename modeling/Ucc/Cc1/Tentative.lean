/-
  Cc1/Tentative.lean --- tentative definitions.

  Source: fold_merge_tenatives in src/cc1/fold.c, decl_default_init and
  maybe_complete_array_from_prev in src/cc1/decl_init.c.

  The declarations of a variable are looked at from the last one back.  A complete
  array that comes before any initialiser is given one at once, and an explicit
  initialiser on an earlier declaration is then a second definition.
-/
import Ucc.Cc1.DeclChain

set_option autoImplicit false

namespace Ucc.Cc1.Chain

open Ucc.Lib
open Scope (DeclStorage)

variable {n : Nat}

/-! ## `fold_merge_tenatives` -/

/-- What is printed. -/
inductive Report (n : Nat) where
  /-- "multiple definitions of ...", and "other definition here" -/
  | multipleDefinitions (init other : Fin n)
  /-- "tenative array definition assumed to have one element" -/
  | tentativeArray1Elem (d : Fin n)
  /-- "default-initialising tenative definition of ..." -/
  | tentativeInit (d : Fin n)
  deriving DecidableEq, Repr

/-- The declarations, `init`, and what has been printed. -/
structure MergeState (n : Nat) where
  decls : Decls n
  init : Option (Fin n)
  reports : List (Report n)

/-- `type_is(d->ref, type_array)` -/
def DeclBits.isArray : DeclBits → Bool
  | .func _ => false
  | .var ty _ _ => ty.isArray

/-- `type_is(d->ref, type_array) && type_is_complete(d->ref)` -/
def DeclBits.completeArray : DeclBits → Bool
  | .func _ => false
  | .var ty _ _ => ty.isArray && ty.complete

/-- `decl_default_init`; an array without a size gets one from its initialiser. -/
def DeclBits.defaultInit : DeclBits → DeclBits
  | .func code => .func code
  | .var ty align _ => .var { ty with complete := ty.complete || ty.isArray } align (some .generated)

def setBits (ds : Decls n) (d : Fin n) (bits : DeclBits) : Decls n :=
  Function.update ds d { ds d with bits }

def setProtoFlag (ds : Decls n) (d : Fin n) : Decls n :=
  Function.update ds d { ds d with protoFlag := true }

/-- The body of the loop over the declarations of one variable. -/
def mergeStep (st : MergeState n) (d : Fin n) : MergeState n :=
  let ds := setProtoFlag st.decls d
  if !(ds d).isFunc && (ds d).dinit.isSome then
    { decls := ds
      init := some d
      reports := match st.init with
        | some init => st.reports ++ [.multipleDefinitions init d]
        | none => st.reports }
  else if st.init.isNone && (ds d).bits.completeArray then
    -- "no explicit init - complete array?"
    { st with decls := setBits ds d (ds d).bits.defaultInit, init := some d }
  else { st with decls := ds }

/-- The declarations that are passed over. -/
def Decl.notMerged (d : Decl n) : Bool :=
  d.protoFlag || d.spel.isNone || d.isFunc ||
    match d.store with
    | .storeTypedef | .storeExtern => true
    | _ => false

/-- "no initialiser, give the last declared one a default init" -/
def giveDefault (st : MergeState n) (d : Fin n) : MergeState n :=
  { st with
    decls := setBits st.decls d (st.decls d).bits.defaultInit
    reports := st.reports ++
      (if (st.decls d).bits.isArray then [.tentativeArray1Elem d, .tentativeInit d]
        else [.tentativeInit d]) }

/-- The body of the loop over the globals. -/
def mergeFrom (st : MergeState n) (i : Fin n) : MergeState n :=
  if (st.decls i).notMerged then st
  else
    let st := (protos st.decls i).foldl mergeStep { st with init := none }
    match st.init with
    | some _ => st
    | none => giveDefault st i

/-- `fold_merge_tenatives`: "go in reverse". -/
def foldMergeTenatives (ds : Decls n) : MergeState n :=
  (List.finRange n).reverse.foldl mergeFrom ⟨ds, none, []⟩

/-! ## What the merging is for -/

/-- The file-scope declarations of a variable among the globals, the last one first;
the last one is not `extern`. -/
structure FileVariable (ds : Decls n) (last : Fin n) (rest : List (Fin n)) : Prop where
  linked : Linked (fun i => (ds i).proto) (last :: rest)
  -- the globals are in the order of their declaration
  sorted : (last :: rest).Pairwise (· > ·)
  /-- No other declaration leads to these. -/
  apart : ∀ i j, (ds i).proto = some j → j ∈ last :: rest → i ∈ last :: rest
  named : (ds last).spel.isSome
  notExtern : (ds last).store ≠ .storeExtern
  notTypedef : ∀ i ∈ last :: rest, (ds i).store ≠ .storeTypedef
  notFunc : ∀ i ∈ last :: rest, (ds i).isFunc = false
  fresh : ∀ i ∈ last :: rest, (ds i).protoFlag = false ∧ (ds i).dinit ≠ some .generated

/-- An error that names one of the declarations was printed. -/
def Reported (l : List (Fin n)) (reports : List (Report n)) : Prop :=
  ∃ init other, .multipleDefinitions init other ∈ reports ∧ other ∈ l

/-- The number of explicit initialisers. -/
def explicitInits (ds : Decls n) (l : List (Fin n)) : Nat :=
  l.countP fun i => (ds i).dinit.isSome

/-- One declaration has an initialiser: the explicit one, if there is one. -/
def OneInit (ds ds' : Decls n) (l : List (Fin n)) : Prop :=
  ∃ d ∈ l, (∀ i ∈ l, (ds' i).dinit.isSome = true ↔ i = d) ∧
    (ds' d).dinit = some (if explicitInits ds l = 0 then .generated else .explicit)

/-- What the merging should do with the declarations `l` of a variable. -/
structure MergedInOne (ds : Decls n) (l : List (Fin n)) (st : MergeState n) : Prop where
  reported : Reported l st.reports ↔ 1 < explicitInits ds l
  oneInit : explicitInits ds l ≤ 1 → OneInit ds st.decls l

/-- A complete array without an initialiser is declared after a declaration with an
initialiser. -/
def CompleteArrayAfterInit (ds : Decls n) (l : List (Fin n)) : Prop :=
  ∃ c ∈ l, ∃ e ∈ l, e < c ∧ (ds c).dinit = none ∧ (ds c).bits.completeArray = true ∧
    (ds e).dinit.isSome = true

/-! ## One declaration -/

@[simp] theorem setProtoFlag_bits (ds : Decls n) (d j : Fin n) :
    (setProtoFlag ds d j).bits = (ds j).bits := by
  unfold setProtoFlag
  rcases eq_or_ne j d with rfl | hne
  · rw [Function.update_self]
  · rw [Function.update_of_ne hne]

@[simp] theorem setProtoFlag_proto (ds : Decls n) (d j : Fin n) :
    (setProtoFlag ds d j).proto = (ds j).proto := by
  unfold setProtoFlag
  rcases eq_or_ne j d with rfl | hne
  · rw [Function.update_self]
  · rw [Function.update_of_ne hne]

@[simp] theorem setBits_proto (ds : Decls n) (d : Fin n) (bits : DeclBits) (j : Fin n) :
    (setBits ds d bits j).proto = (ds j).proto := by
  unfold setBits
  rcases eq_or_ne j d with rfl | hne
  · rw [Function.update_self]
  · rw [Function.update_of_ne hne]

theorem setProtoFlag_of_ne (ds : Decls n) {d j : Fin n} (h : j ≠ d) :
    setProtoFlag ds d j = ds j := Function.update_of_ne h _ _

theorem setBits_of_ne (ds : Decls n) {d j : Fin n} (bits : DeclBits) (h : j ≠ d) :
    setBits ds d bits j = ds j := Function.update_of_ne h _ _

theorem setBits_self (ds : Decls n) (d : Fin n) (bits : DeclBits) :
    (setBits ds d bits d).bits = bits := by
  unfold setBits
  rw [Function.update_self]

theorem isFunc_congr {d e : Decl n} (h : d.bits = e.bits) : d.isFunc = e.isFunc := by
  unfold Decl.isFunc
  rw [h]

theorem dinit_congr {d e : Decl n} (h : d.bits = e.bits) : d.dinit = e.dinit := by
  unfold Decl.dinit
  rw [h]

theorem dinit_defaultInit {d e : Decl n} (hd : d.isFunc = false)
    (h : e.bits = d.bits.defaultInit) : e.dinit = some .generated := by
  unfold Decl.isFunc at hd
  unfold Decl.dinit
  rw [h]
  cases hbits : d.bits with
  | func code =>
    rw [hbits] at hd
    cases hd
  | var ty align dinit => rfl

/-- What a declaration does to the walk: it has an initialiser, it is given one, or it
is passed. -/
inductive StepCase (st : MergeState n) (d : Fin n) : MergeState n → Prop where
  | initialised (ds : Decls n) (hbits : ∀ j, (ds j).bits = (st.decls j).bits)
      (hinit : (st.decls d).dinit.isSome = true) :
      StepCase st d ⟨ds, some d, st.reports ++
        (st.init.map fun init => .multipleDefinitions init d).toList⟩
  | completed (ds : Decls n) (hbits : ∀ j, j ≠ d → (ds j).bits = (st.decls j).bits)
      (hnew : (ds d).bits = (st.decls d).bits.defaultInit) (hno : st.init = none)
      (hinit : (st.decls d).dinit = none) (harr : (st.decls d).bits.completeArray = true) :
      StepCase st d ⟨ds, some d, st.reports⟩
  | passed (ds : Decls n) (hbits : ∀ j, (ds j).bits = (st.decls j).bits)
      (hinit : (st.decls d).dinit = none)
      (harr : st.init = none → (st.decls d).bits.completeArray = false) :
      StepCase st d ⟨ds, st.init, st.reports⟩

theorem mergeStep_cases (st : MergeState n) {d : Fin n} (hvar : (st.decls d).isFunc = false) :
    StepCase st d (mergeStep st d) := by
  have hfunc : (setProtoFlag st.decls d d).isFunc = false :=
    (isFunc_congr (setProtoFlag_bits _ _ _)).trans hvar
  have hdinit : (setProtoFlag st.decls d d).dinit = (st.decls d).dinit :=
    dinit_congr (setProtoFlag_bits _ _ _)
  unfold mergeStep
  simp only [hfunc, hdinit, Bool.not_false, Bool.true_and, setProtoFlag_bits]
  split
  · rename_i hinit
    have hcase : StepCase st d _ :=
      .initialised (setProtoFlag st.decls d) (setProtoFlag_bits _ _) hinit
    cases hst : st.init with
    | none =>
      rw [hst, Option.map_none, Option.toList_none, List.append_nil] at hcase
      exact hcase
    | some i =>
      rw [hst] at hcase
      exact hcase
  · rename_i hinit
    have hnone : (st.decls d).dinit = none := by simpa using hinit
    split
    · rename_i harr
      rw [Bool.and_eq_true, Option.isNone_iff_eq_none] at harr
      refine .completed _ (fun j hj => ?_) (setBits_self _ _ _) harr.1 hnone harr.2
      rw [setBits_of_ne _ _ hj, setProtoFlag_bits]
    · rename_i harr
      refine .passed _ (setProtoFlag_bits _ _) hnone fun hno => ?_
      simpa [hno] using harr

/-! ## The declarations of a variable -/

theorem reported_append (L : List (Fin n)) (rs rs' : List (Report n)) :
    Reported L (rs ++ rs') ↔ Reported L rs ∨ Reported L rs' := by
  simp only [Reported, List.mem_append, or_and_right, exists_or]

/-- Before there is an initialiser, what has none and is no complete array is passed. -/
theorem foldl_mergeStep_none {l : List (Fin n)} {st : MergeState n} (hno : st.init = none)
    (hvar : ∀ j ∈ l, (st.decls j).isFunc = false)
    (hdull : ∀ j ∈ l, (st.decls j).dinit = none ∧ (st.decls j).bits.completeArray = false) :
    (∀ j, ((l.foldl mergeStep st).decls j).bits = (st.decls j).bits) ∧
      (l.foldl mergeStep st).init = none ∧ (l.foldl mergeStep st).reports = st.reports := by
  induction l generalizing st with
  | nil => exact ⟨fun j => rfl, hno, rfl⟩
  | cons d l ih =>
    have hd := hdull d List.mem_cons_self
    rw [List.foldl_cons]
    generalize hstep : mergeStep st d = st'
    have hcase := mergeStep_cases st (hvar d List.mem_cons_self)
    rw [hstep] at hcase
    cases hcase with
    | initialised ds hbits hinit =>
      rw [hd.1] at hinit
      cases hinit
    | completed ds hbits hnew hno hinit harr =>
      rw [hd.2] at harr
      cases harr
    | passed ds hbits hinit harr =>
      obtain ⟨hb, hi, hr⟩ := @ih ⟨ds, st.init, st.reports⟩ hno
        (fun j hj => (isFunc_congr (hbits j)).trans (hvar j (List.mem_cons_of_mem d hj)))
        fun j hj => by
          rw [dinit_congr (hbits j), hbits j]
          exact hdull j (List.mem_cons_of_mem d hj)
      exact ⟨fun j => (hb j).trans (hbits j), hi, hr⟩

/-- After there is one, every explicit initialiser is an error. -/
theorem foldl_mergeStep_some {l : List (Fin n)} {st : MergeState n} {i : Fin n}
    (hinit : st.init = some i) (hvar : ∀ j ∈ l, (st.decls j).isFunc = false)
    {L : List (Fin n)} (hL : ∀ j ∈ l, j ∈ L) :
    (∀ j, ((l.foldl mergeStep st).decls j).bits = (st.decls j).bits) ∧
      (l.foldl mergeStep st).init.isSome = true ∧
      (Reported L (l.foldl mergeStep st).reports ↔
        Reported L st.reports ∨ ∃ d ∈ l, (st.decls d).dinit.isSome = true) := by
  induction l generalizing st i with
  | nil => simp [hinit]
  | cons d l ih =>
    have hLd := hL d List.mem_cons_self
    rw [List.foldl_cons]
    generalize hstep : mergeStep st d = st'
    have hcase := mergeStep_cases st (hvar d List.mem_cons_self)
    rw [hstep] at hcase
    have hvar' : ∀ ds : Decls n, (∀ j, (ds j).bits = (st.decls j).bits) →
        ∀ j ∈ l, (ds j).isFunc = false := fun ds hbits j hj =>
      (isFunc_congr (hbits j)).trans (hvar j (List.mem_cons_of_mem d hj))
    have hL' : ∀ j ∈ l, j ∈ L := fun j hj => hL j (List.mem_cons_of_mem d hj)
    cases hcase with
    | initialised ds hbits hdinit =>
      obtain ⟨hb, hi, hr⟩ := @ih ⟨ds, some d, _⟩ d rfl (hvar' ds hbits) hL'
      refine ⟨fun j => (hb j).trans (hbits j), hi, hr.trans ?_⟩
      rw [hinit, reported_append]
      have hnew : Reported L [Report.multipleDefinitions i d] := ⟨i, d, List.mem_cons_self, hLd⟩
      exact iff_of_true (Or.inl (Or.inr hnew)) (Or.inr ⟨d, List.mem_cons_self, hdinit⟩)
    | completed ds hbits hnew hno hdinit harr =>
      rw [hinit] at hno
      cases hno
    | passed ds hbits hdinit harr =>
      obtain ⟨hb, hi, hr⟩ := @ih ⟨ds, st.init, st.reports⟩ i hinit (hvar' ds hbits) hL'
      refine ⟨fun j => (hb j).trans (hbits j), hi, hr.trans (or_congr_right ?_)⟩
      simp [hdinit, fun j => dinit_congr (hbits j)]

/-! ## The other variables -/

/-- From `st` to `st'` only the declarations of `l` change, and only they are named. -/
structure Within (l : List (Fin n)) (st st' : MergeState n) : Prop where
  others : ∀ j, j ∉ l → st'.decls j = st.decls j
  proto : ∀ j, (st'.decls j).proto = (st.decls j).proto
  flag : ∀ j, (st.decls j).protoFlag = true → (st'.decls j).protoFlag = true
  reports : ∀ r ∈ st.reports, r ∈ st'.reports
  named : ∀ a b, .multipleDefinitions a b ∈ st'.reports →
    .multipleDefinitions a b ∈ st.reports ∨ b ∈ l

theorem Within.refl (l : List (Fin n)) (st : MergeState n) : Within l st st :=
  ⟨fun _ _ => rfl, fun _ => rfl, fun _ h => h, fun _ h => h, fun _ _ h => Or.inl h⟩

theorem Within.trans {l : List (Fin n)} {st st' st'' : MergeState n} (h : Within l st st')
    (h' : Within l st' st'') : Within l st st'' where
  others j hj := (h'.others j hj).trans (h.others j hj)
  proto j := (h'.proto j).trans (h.proto j)
  flag j hj := h'.flag j (h.flag j hj)
  reports r hr := h'.reports r (h.reports r hr)
  named a b hr := by
    rcases h'.named a b hr with hr | hb
    · exact h.named a b hr
    · exact Or.inr hb

theorem setProtoFlag_flag (ds : Decls n) (d j : Fin n) (h : (ds j).protoFlag = true) :
    (setProtoFlag ds d j).protoFlag = true := by
  rcases eq_or_ne j d with rfl | hne
  · simp [setProtoFlag]
  · rwa [setProtoFlag_of_ne _ hne]

theorem setBits_flag (ds : Decls n) (d : Fin n) (bits : DeclBits) (j : Fin n) :
    (setBits ds d bits j).protoFlag = (ds j).protoFlag := by
  unfold setBits
  rcases eq_or_ne j d with rfl | hne
  · rw [Function.update_self]
  · rw [Function.update_of_ne hne]

theorem within_mergeStep {l : List (Fin n)} (st : MergeState n) {d : Fin n} (hd : d ∈ l) :
    Within l st (mergeStep st d) := by
  have hne : ∀ j, j ∉ l → j ≠ d := fun j hj hjd => hj (hjd ▸ hd)
  unfold mergeStep
  dsimp only
  split
  · refine ⟨fun j hj => setProtoFlag_of_ne _ (hne j hj), fun j => setProtoFlag_proto _ _ _,
      fun j hj => setProtoFlag_flag _ _ _ hj, fun r hr => ?_, fun a b hr => ?_⟩
    · split
      · exact List.mem_append_left _ hr
      · exact hr
    · split at hr
      · rw [List.mem_append, List.mem_singleton, Report.multipleDefinitions.injEq] at hr
        rcases hr with hr | ⟨-, rfl⟩
        · exact Or.inl hr
        · exact Or.inr hd
      · exact Or.inl hr
  · split
    · refine ⟨fun j hj => ?_, fun j => ?_, fun j hj => ?_, fun r hr => hr, fun a b hr => Or.inl hr⟩
      · exact (setBits_of_ne _ _ (hne j hj)).trans (setProtoFlag_of_ne _ (hne j hj))
      · exact (setBits_proto _ _ _ j).trans (setProtoFlag_proto _ _ j)
      · exact (setBits_flag _ _ _ j).trans (setProtoFlag_flag _ _ _ hj)
    · exact ⟨fun j hj => setProtoFlag_of_ne _ (hne j hj), fun j => setProtoFlag_proto _ _ _,
        fun j hj => setProtoFlag_flag _ _ _ hj, fun r hr => hr, fun a b hr => Or.inl hr⟩

theorem flag_mergeStep (st : MergeState n) (d : Fin n) :
    ((mergeStep st d).decls d).protoFlag = true := by
  have hself : (setProtoFlag st.decls d d).protoFlag = true := by simp [setProtoFlag]
  unfold mergeStep
  dsimp only
  split
  · exact hself
  · split
    · rw [setBits_flag]
      exact hself
    · exact hself

theorem within_foldl {L : List (Fin n)} {f : MergeState n → Fin n → MergeState n}
    {l : List (Fin n)} (hstep : ∀ st, ∀ d ∈ l, Within L st (f st d)) (st : MergeState n) :
    Within L st (l.foldl f st) := by
  induction l generalizing st with
  | nil => exact .refl L st
  | cons d l ih =>
    exact (hstep st d List.mem_cons_self).trans
      (ih (fun st e he => hstep st e (List.mem_cons_of_mem d he)) _)

theorem flag_foldl {l : List (Fin n)} (st : MergeState n) {j : Fin n} (hj : j ∈ l) :
    ((l.foldl mergeStep st).decls j).protoFlag = true := by
  induction l generalizing st with
  | nil => cases hj
  | cons d l ih =>
    rcases List.mem_cons.mp hj with rfl | hj
    · exact (within_foldl (L := l) (fun st e he => within_mergeStep st he) _).flag j
        (flag_mergeStep st j)
    · exact ih _ hj

theorem mem_protos_self (ds : Decls n) (i : Fin n) : i ∈ protos ds i := by
  cases n with
  | zero => exact i.elim0
  | succ n => exact List.mem_cons_self

theorem mergeFrom_of_notMerged {st : MergeState n} {i : Fin n}
    (h : (st.decls i).notMerged = true) : mergeFrom st i = st := if_pos h

/-- The declaration has an initialiser, and no error is printed. -/
theorem giveDefault_multiple (st : MergeState n) (d a b : Fin n) :
    .multipleDefinitions a b ∈ (giveDefault st d).reports ↔
      .multipleDefinitions a b ∈ st.reports := by
  unfold giveDefault
  rw [List.mem_append, or_iff_left]
  split
  · simp
  · simp

theorem giveDefault_self (st : MergeState n) {d : Fin n} (hd : (st.decls d).isFunc = false) :
    ((giveDefault st d).decls d).dinit = some .generated :=
  dinit_defaultInit hd (setBits_self _ _ _)

theorem giveDefault_of_ne (st : MergeState n) {d j : Fin n} (h : j ≠ d) :
    (giveDefault st d).decls j = st.decls j := setBits_of_ne _ _ h

theorem within_giveDefault {l : List (Fin n)} (st : MergeState n) {d : Fin n} (hd : d ∈ l) :
    Within l st (giveDefault st d) where
  others _ hj := giveDefault_of_ne st fun hjd => hj (hjd ▸ hd)
  proto _ := setBits_proto _ _ _ _
  flag _ hj := (setBits_flag _ _ _ _).trans hj
  reports _ hr := List.mem_append_left _ hr
  named a b hr := Or.inl ((giveDefault_multiple st d a b).mp hr)

/-- The walk from a global keeps to its declarations. -/
theorem within_mergeFrom (st : MergeState n) (i : Fin n) :
    Within (protos st.decls i) st (mergeFrom st i) := by
  unfold mergeFrom
  split
  · exact .refl _ st
  · have hwalk : Within (protos st.decls i) st
        ((protos st.decls i).foldl mergeStep { st with init := none }) := by
      have h := within_foldl (L := protos st.decls i)
        (fun st d hd => within_mergeStep st hd) { st with init := none }
      exact ⟨h.others, h.proto, h.flag, h.reports, h.named⟩
    dsimp only
    split
    · exact hwalk
    · exact hwalk.trans (within_giveDefault _ (mem_protos_self st.decls i))

/-- The declarations of `L`, and the errors about them, stay as they are. -/
structure Keeps (L : List (Fin n)) (st st' : MergeState n) : Prop where
  decls : ∀ j ∈ L, st'.decls j = st.decls j
  proto : ∀ j, (st'.decls j).proto = (st.decls j).proto
  reported : Reported L st'.reports ↔ Reported L st.reports

theorem Within.keeps {l L : List (Fin n)} {st st' : MergeState n} (h : Within l st st')
    (hdisj : ∀ j ∈ L, j ∉ l) : Keeps L st st' where
  decls j hj := h.others j (hdisj j hj)
  proto := h.proto
  reported := by
    constructor
    · rintro ⟨a, b, hr, hb⟩
      rcases h.named a b hr with hr | hbl
      · exact ⟨a, b, hr, hb⟩
      · exact absurd hbl (hdisj b hb)
    · rintro ⟨a, b, hr, hb⟩
      exact ⟨a, b, h.reports _ hr, hb⟩

variable {ds : Decls n} {last : Fin n} {rest : List (Fin n)}

theorem protos_congr {ds ds' : Decls n} (h : ∀ j, (ds' j).proto = (ds j).proto) (i : Fin n) :
    protos ds' i = protos ds i := by
  unfold protos
  rw [funext h]

/-- A walk that starts elsewhere does not come to the declarations of the variable. -/
theorem FileVariable.not_mem_follow (h : FileVariable ds last rest) {i : Fin n}
    (hi : i ∉ last :: rest) (k : Nat) :
    ∀ j ∈ follow (fun i => (ds i).proto) k (some i), j ∉ last :: rest := by
  induction k generalizing i with
  | zero =>
    intro j hj
    cases hj
  | succ k ih =>
    intro j hj
    rcases List.mem_cons.mp hj with rfl | hj
    · exact hi
    · cases hp : (ds i).proto with
      | none =>
        simp only [hp] at hj
        cases k with
        | zero => cases hj
        | succ k => cases hj
      | some i' =>
        simp only [hp] at hj
        exact ih (fun hmem => hi (h.apart i i' hp hmem)) j hj

theorem FileVariable.keeps_mergeFrom (h : FileVariable ds last rest) {st : MergeState n}
    (hproto : ∀ j, (st.decls j).proto = (ds j).proto) {i : Fin n} (hi : i ∉ last :: rest) :
    Keeps (last :: rest) st (mergeFrom st i) := by
  refine (within_mergeFrom st i).keeps fun j hj hmem => ?_
  rw [protos_congr hproto] at hmem
  exact h.not_mem_follow hi n j hmem hj

/-- The turns for other variables, and for declarations that have been looked at. -/
theorem FileVariable.keeps_foldl (h : FileVariable ds last rest) (is : List (Fin n))
    {st : MergeState n} (hproto : ∀ j, (st.decls j).proto = (ds j).proto)
    (his : ∀ i ∈ is, i ∈ last :: rest → (st.decls i).protoFlag = true) :
    Keeps (last :: rest) st (is.foldl mergeFrom st) := by
  induction is generalizing st with
  | nil => exact ⟨fun _ _ => rfl, fun _ => rfl, Iff.rfl⟩
  | cons i is ih =>
    have hstep : Keeps (last :: rest) st (mergeFrom st i) := by
      by_cases hi : i ∈ last :: rest
      · rw [mergeFrom_of_notMerged]
        · exact ⟨fun _ _ => rfl, fun _ => rfl, Iff.rfl⟩
        · simp [Decl.notMerged, his i List.mem_cons_self hi]
      · exact h.keeps_mergeFrom hproto hi
    have htail : Keeps (last :: rest) (mergeFrom st i) (is.foldl mergeFrom (mergeFrom st i)) :=
      ih (fun j => (hstep.proto j).trans (hproto j)) fun j hj hmem => by
        rw [hstep.decls j hmem]
        exact his j (List.mem_cons_of_mem i hj) hmem
    exact ⟨fun j hj => (htail.decls j hj).trans (hstep.decls j hj),
      fun j => (htail.proto j).trans (hstep.proto j), htail.reported.trans hstep.reported⟩

/-! ## The turn of the last declaration -/

/-- Nothing happens at the declaration before there is an initialiser. -/
def Decl.Dull (d : Decl n) : Prop := d.dinit = none ∧ d.bits.completeArray = false

instance (d : Decl n) : Decidable d.Dull :=
  inferInstanceAs (Decidable (d.dinit = none ∧ d.bits.completeArray = false))

/-- The first declaration at which something happens. -/
theorem exists_first_not_dull (ds : Decls n) (l : List (Fin n)) :
    (∀ j ∈ l, (ds j).Dull) ∨
      ∃ pre d post, l = pre ++ d :: post ∧ (∀ j ∈ pre, (ds j).Dull) ∧ ¬ (ds d).Dull := by
  cases hfind : l.find? fun j => !decide (ds j).Dull with
  | none =>
    refine Or.inl fun j hj => ?_
    simpa using List.find?_eq_none.mp hfind j hj
  | some d =>
    obtain ⟨hd, pre, post, hl, hpre⟩ := List.find?_eq_some_iff_append.mp hfind
    refine Or.inr ⟨pre, d, post, hl, fun j hj => ?_, by simpa using hd⟩
    simpa using hpre j hj

theorem explicitInits_eq_zero_iff (ds : Decls n) (l : List (Fin n)) :
    explicitInits ds l = 0 ↔ ∀ j ∈ l, (ds j).dinit = none := by
  simp [explicitInits, List.countP_eq_zero]

theorem explicitInits_split (ds : Decls n) {pre : List (Fin n)} (d : Fin n) (post : List (Fin n))
    (hpre : ∀ j ∈ pre, (ds j).Dull) :
    explicitInits ds (pre ++ d :: post) =
      explicitInits ds post + if (ds d).dinit.isSome then 1 else 0 := by
  have hzero : explicitInits ds pre = 0 :=
    (explicitInits_eq_zero_iff ds pre).mpr fun j hj => (hpre j hj).1
  unfold explicitInits at hzero ⊢
  rw [List.countP_append, hzero, List.countP_cons, Nat.zero_add]

theorem explicitInits_pos_iff (ds : Decls n) (l : List (Fin n)) :
    0 < explicitInits ds l ↔ ∃ e ∈ l, (ds e).dinit.isSome = true := List.countP_pos_iff

/-- What is known of the state when the last declaration has its turn. -/
structure Untouched (ds : Decls n) (l : List (Fin n)) (st : MergeState n) : Prop where
  decls : ∀ j ∈ l, st.decls j = ds j
  proto : ∀ j, (st.decls j).proto = (ds j).proto
  unreported : ¬ Reported l st.reports

/-- The walk over the declarations of the variable. -/
def walkFrom (st : MergeState n) (l : List (Fin n)) : MergeState n :=
  l.foldl mergeStep { st with init := none }

/-- The walk over declarations at which nothing happens. -/
theorem FileVariable.walkFrom_dull (h : FileVariable ds last rest) {st : MergeState n}
    (hst : Untouched ds (last :: rest) st) {l : List (Fin n)}
    (hl : ∀ j ∈ l, j ∈ last :: rest ∧ (ds j).Dull) :
    (∀ j, ((walkFrom st l).decls j).bits = (st.decls j).bits) ∧
      (walkFrom st l).init = none ∧ (walkFrom st l).reports = st.reports :=
  @foldl_mergeStep_none n l { st with init := none } rfl
    (fun j hj => (congrArg Decl.isFunc (hst.decls j (hl j hj).1)).trans
      (h.notFunc j (hl j hj).1))
    fun j hj => by
      show (st.decls j).Dull
      rw [hst.decls j (hl j hj).1]
      exact (hl j hj).2

theorem FileVariable.mergeFrom_last (h : FileVariable ds last rest) {st : MergeState n}
    (hst : Untouched ds (last :: rest) st) :
    mergeFrom st last =
      match (walkFrom st (last :: rest)).init with
      | some _ => walkFrom st (last :: rest)
      | none => giveDefault (walkFrom st (last :: rest)) last := by
  have hmem : last ∈ last :: rest := List.mem_cons_self
  have hlast : (st.decls last).notMerged = false := by
    rw [hst.decls last hmem]
    unfold Decl.notMerged
    rw [(h.fresh last hmem).1, h.notFunc last hmem, Option.isNone_eq_false_iff.mpr h.named]
    have hext := h.notExtern
    have htdef := h.notTypedef last hmem
    cases hs : (ds last).store <;> simp_all
  have hprotos : protos st.decls last = last :: rest := by
    rw [protos_congr hst.proto]
    exact protos_of_linked h.linked (h.sorted.imp fun hlt => hlt.ne')
  unfold mergeFrom walkFrom
  rw [hlast, hprotos, if_neg Bool.false_ne_true]

/-- All is dull: the last declaration is given an initialiser. -/
theorem FileVariable.merged_of_dull (h : FileVariable ds last rest) {st : MergeState n}
    (hst : Untouched ds (last :: rest) st) (hdull : ∀ j ∈ last :: rest, (ds j).Dull) :
    MergedInOne ds (last :: rest) (mergeFrom st last) := by
  have hmem : last ∈ last :: rest := List.mem_cons_self
  have hcount : explicitInits ds (last :: rest) = 0 :=
    (explicitInits_eq_zero_iff ds _).mpr fun j hj => (hdull j hj).1
  obtain ⟨hbits, hinit, hreports⟩ := h.walkFrom_dull hst fun j hj => ⟨hj, hdull j hj⟩
  have hfunc : ((walkFrom st (last :: rest)).decls last).isFunc = false := by
    rw [isFunc_congr (hbits last), hst.decls last hmem, h.notFunc last hmem]
  have hself := giveDefault_self _ hfunc
  rw [h.mergeFrom_last hst, hinit]
  refine ⟨iff_of_false ?_ (by omega), fun _ => ⟨last, hmem, fun i hi => ?_, ?_⟩⟩
  · rintro ⟨a, b, hr, hb⟩
    rw [giveDefault_multiple, hreports] at hr
    exact hst.unreported ⟨a, b, hr, hb⟩
  · rcases eq_or_ne i last with rfl | hne
    · exact iff_of_true (by rw [hself]; rfl) rfl
    · refine iff_of_false ?_ hne
      rw [giveDefault_of_ne _ hne, dinit_congr (hbits i), hst.decls i hi, (hdull i hi).1]
      exact Bool.false_ne_true
  · rw [hcount, if_pos rfl]
    exact hself

/-- What a walk does: `d` has its initialiser, or the one it is given, the others keep
theirs, and errors are printed for those of `post`. -/
structure Walked (ds : Decls n) (l post : List (Fin n)) (d : Fin n) (st : MergeState n) :
    Prop where
  init : st.init.isSome = true
  self : (st.decls d).dinit = some ((ds d).dinit.getD .generated)
  others : ∀ j ∈ l, j ≠ d → (st.decls j).dinit = (ds j).dinit
  reported : Reported l st.reports ↔ 0 < explicitInits ds post

/-- The rest of the walk, once `d` has an initialiser. -/
theorem FileVariable.walked_rest (h : FileVariable ds last rest) {post : List (Fin n)} {d : Fin n}
    (hpost : ∀ j ∈ post, j ∈ last :: rest ∧ j ≠ d) {ds' : Decls n}
    (hds' : ∀ j ∈ last :: rest, j ≠ d → (ds' j).bits = (ds j).bits)
    (hself : (ds' d).dinit = some ((ds d).dinit.getD .generated)) {reports : List (Report n)}
    (hreports : ¬ Reported (last :: rest) reports) :
    Walked ds (last :: rest) post d (post.foldl mergeStep ⟨ds', some d, reports⟩) := by
  have hsame : ∀ j ∈ post, (ds' j).bits = (ds j).bits := fun j hj =>
    hds' j (hpost j hj).1 (hpost j hj).2
  obtain ⟨hb, hi, hr⟩ := @foldl_mergeStep_some n post ⟨ds', some d, reports⟩ d rfl
    (fun j hj => (isFunc_congr (hsame j hj)).trans (h.notFunc j (hpost j hj).1)) (last :: rest)
    fun j hj => (hpost j hj).1
  refine ⟨hi, (dinit_congr (hb d)).trans hself,
    fun j hj hjd => (dinit_congr (hb j)).trans (dinit_congr (hds' j hj hjd)), ?_⟩
  rw [hr, or_iff_right hreports, explicitInits_pos_iff]
  exact exists_congr fun e => and_congr_right fun he => by rw [dinit_congr (hsame e he)]

/-- The walk from the first declaration at which something happens: the ones before
have no part in it, and every explicit initialiser after it is reported. -/
theorem FileVariable.walked_split (h : FileVariable ds last rest) {st : MergeState n}
    (hst : Untouched ds (last :: rest) st) {pre post : List (Fin n)} {d : Fin n}
    (hl : last :: rest = pre ++ d :: post) (hpre : ∀ j ∈ pre, (ds j).Dull)
    (hd : ¬ (ds d).Dull) : Walked ds (last :: rest) post d (walkFrom st (last :: rest)) := by
  have hmem : ∀ j, j ∈ pre ∨ j = d ∨ j ∈ post → j ∈ last :: rest := fun j hj => by
    rw [hl, List.mem_append, List.mem_cons]
    exact hj
  have hdmem := hmem d (Or.inr (Or.inl rfl))
  have hsorted := h.sorted
  rw [hl] at hsorted
  have hpost : ∀ j ∈ post, j ∈ last :: rest ∧ j ≠ d := fun j hj =>
    ⟨hmem j (Or.inr (Or.inr hj)),
      ((List.pairwise_cons.mp (List.pairwise_append.mp hsorted).2.1).1 j hj).ne⟩
  obtain ⟨hbits, hinit, hreports⟩ := h.walkFrom_dull hst fun j hj =>
    ⟨hmem j (Or.inl hj), hpre j hj⟩
  have hdecls : ∀ j ∈ last :: rest, ((walkFrom st pre).decls j).bits = (ds j).bits :=
    fun j hj => by rw [hbits j, hst.decls j hj]
  have hwalk : walkFrom st (last :: rest) =
      post.foldl mergeStep (mergeStep (walkFrom st pre) d) := by
    rw [hl, walkFrom, List.foldl_append, List.foldl_cons]
    rfl
  have hfunc := (isFunc_congr (hdecls d hdmem)).trans (h.notFunc d hdmem)
  have hcase := mergeStep_cases (walkFrom st pre) hfunc
  rw [hwalk]
  generalize mergeStep (walkFrom st pre) d = st' at hcase
  cases hcase with
  | initialised ds' hbits' hdinit =>
    rw [hinit, Option.map_none, Option.toList_none, List.append_nil, hreports]
    refine h.walked_rest hpost (fun j hj _ => (hbits' j).trans (hdecls j hj)) ?_ hst.unreported
    rw [dinit_congr (hdecls d hdmem)] at hdinit
    obtain ⟨x, hx⟩ := Option.isSome_iff_exists.mp hdinit
    rw [dinit_congr ((hbits' d).trans (hdecls d hdmem)), hx, Option.getD_some]
  | completed ds' hbits' hnew hno hdinit harr =>
    rw [hreports]
    refine h.walked_rest hpost (fun j hj hjd => (hbits' j hjd).trans (hdecls j hj)) ?_
      hst.unreported
    rw [dinit_congr (hdecls d hdmem)] at hdinit
    rw [hdinit, Option.getD_none]
    exact dinit_defaultInit hfunc hnew
  | passed ds' hbits' hdinit harr =>
    have harr' := harr hinit
    rw [dinit_congr (hdecls d hdmem)] at hdinit
    rw [hdecls d hdmem] at harr'
    exact absurd ⟨hdinit, harr'⟩ hd

/-- One declaration has an initialiser, if no other had one. -/
theorem Walked.oneInit {l pre post : List (Fin n)} {d : Fin n} {st : MergeState n}
    (hw : Walked ds l post d st) (hl : l = pre ++ d :: post) (hpre : ∀ j ∈ pre, (ds j).Dull)
    (hgen : (ds d).dinit ≠ some .generated) (hpost : explicitInits ds post = 0) :
    OneInit ds st.decls l := by
  have hcount := explicitInits_split ds d post hpre
  rw [hpost, Nat.zero_add, ← hl] at hcount
  refine ⟨d, by simp [hl], fun i hi => ?_, ?_⟩
  · rcases eq_or_ne i d with rfl | hne
    · exact iff_of_true (by rw [hw.self]; rfl) rfl
    · have hnone : (ds i).dinit = none := by
        rw [hl, List.mem_append, List.mem_cons] at hi
        rcases hi with hi | hi | hi
        · exact (hpre i hi).1
        · exact absurd hi hne
        · exact (explicitInits_eq_zero_iff ds post).mp hpost i hi
      refine iff_of_false ?_ hne
      rw [hw.others i hi hne, hnone]
      exact Bool.false_ne_true
  · rw [hw.self, hcount]
    cases hdinit : (ds d).dinit with
    | none => rfl
    | some x =>
      cases x with
      | explicit => rfl
      | generated => exact absurd hdinit hgen

/-- An explicit initialiser comes first: it is the one, unless there is another. -/
theorem FileVariable.merged_of_initialised (h : FileVariable ds last rest) {st : MergeState n}
    {pre post : List (Fin n)} {d : Fin n} (hl : last :: rest = pre ++ d :: post)
    (hpre : ∀ j ∈ pre, (ds j).Dull) (hw : Walked ds (last :: rest) post d st)
    (hsome : (ds d).dinit.isSome = true) : MergedInOne ds (last :: rest) st := by
  have hcount := explicitInits_split ds d post hpre
  rw [← hl, if_pos hsome] at hcount
  have hmem : d ∈ last :: rest := by simp [hl]
  exact ⟨hw.reported.trans (by omega), fun hle =>
    hw.oneInit hl hpre (h.fresh d hmem).2 (by omega)⟩

theorem FileVariable.not_completeArrayAfter (h : FileVariable ds last rest)
    {pre post : List (Fin n)} {d : Fin n} (hl : last :: rest = pre ++ d :: post)
    (hpre : ∀ j ∈ pre, (ds j).Dull) (hsome : (ds d).dinit.isSome = true) :
    ¬ (explicitInits ds (last :: rest) = 1 ∧ CompleteArrayAfterInit ds (last :: rest)) := by
  have hcount := explicitInits_split ds d post hpre
  rw [← hl, if_pos hsome] at hcount
  have hsorted := h.sorted
  rw [hl] at hsorted
  rintro ⟨hone, c, hc, e, he, hlt, hcinit, hcarr, hesome⟩
  have hpost := (explicitInits_eq_zero_iff ds post).mp (by omega)
  -- the declaration with the initialiser is `d`, so that the array is before it in the walk
  have hed : e = d := by
    rw [hl, List.mem_append, List.mem_cons] at he
    rcases he with he | he | he
    · rw [(hpre e he).1] at hesome
      cases hesome
    · exact he
    · rw [hpost e he] at hesome
      cases hesome
  subst hed
  rw [hl, List.mem_append, List.mem_cons] at hc
  rcases hc with hc | rfl | hc
  · rw [(hpre c hc).2] at hcarr
    cases hcarr
  · exact lt_irrefl _ hlt
  · exact lt_asymm hlt ((List.pairwise_cons.mp (List.pairwise_append.mp hsorted).2.1).1 c hc)

theorem FileVariable.completeArrayAfter_of_post (h : FileVariable ds last rest)
    {pre post : List (Fin n)} {d : Fin n} (hl : last :: rest = pre ++ d :: post)
    (hnone : (ds d).dinit = none) (harr : (ds d).bits.completeArray = true)
    (hpost : 0 < explicitInits ds post) : CompleteArrayAfterInit ds (last :: rest) := by
  obtain ⟨e, he, hsome⟩ := (explicitInits_pos_iff ds post).mp hpost
  have hsorted := h.sorted
  rw [hl] at hsorted ⊢
  exact ⟨d, by simp, e, by simp [he],
    (List.pairwise_cons.mp (List.pairwise_append.mp hsorted).2.1).1 e he, hnone, harr, hsome⟩

theorem FileVariable.merged_last_iff (h : FileVariable ds last rest) {st : MergeState n}
    (hst : Untouched ds (last :: rest) st) :
    MergedInOne ds (last :: rest) (mergeFrom st last) ↔
      ¬ (explicitInits ds (last :: rest) = 1 ∧ CompleteArrayAfterInit ds (last :: rest)) := by
  rcases exists_first_not_dull ds (last :: rest) with hdull | ⟨pre, d, post, hl, hpre, hd⟩
  · have hzero := (explicitInits_eq_zero_iff ds _).mpr fun j hj => (hdull j hj).1
    refine iff_of_true (h.merged_of_dull hst hdull) fun hone => ?_
    omega
  · have hw := h.walked_split hst hl hpre hd
    have hmerge : mergeFrom st last = walkFrom st (last :: rest) := by
      obtain ⟨i, hi⟩ := Option.isSome_iff_exists.mp hw.init
      rw [h.mergeFrom_last hst, hi]
    have hcount := explicitInits_split ds d post hpre
    rw [hmerge]
    cases hdinit : (ds d).dinit with
    | some x =>
      have hsome : (ds d).dinit.isSome = true := by rw [hdinit]; rfl
      exact iff_of_true (h.merged_of_initialised hl hpre hw hsome)
        (h.not_completeArrayAfter hl hpre hsome)
    | none =>
      have harr : (ds d).bits.completeArray = true := by
        by_contra harr
        exact hd ⟨hdinit, by simpa using harr⟩
      rw [← hl, hdinit, Option.isSome_none, if_neg Bool.false_ne_true, Nat.add_zero] at hcount
      constructor
      · rintro hm ⟨hone, -⟩
        have := hm.reported.mp (hw.reported.mpr (by omega))
        omega
      · intro hno
        have hne : explicitInits ds (last :: rest) ≠ 1 := fun hone =>
          hno ⟨hone, h.completeArrayAfter_of_post hl hdinit harr (by omega)⟩
        refine ⟨hw.reported.trans (by omega), fun hle => hw.oneInit hl hpre ?_ (by omega)⟩
        rw [hdinit]
        intro hgen
        cases hgen

/-! ## The whole file -/

theorem MergedInOne.keeps {l : List (Fin n)} {st st' : MergeState n} (h : Keeps l st st') :
    MergedInOne ds l st' ↔ MergedInOne ds l st := by
  have hone : OneInit ds st'.decls l ↔ OneInit ds st.decls l := by
    refine exists_congr fun d => and_congr_right fun hd => ?_
    rw [h.decls d hd]
    refine and_congr_left fun _ => forall₂_congr fun i hi => ?_
    rw [h.decls i hi]
  constructor
  · rintro ⟨hr, ho⟩
    exact ⟨h.reported.symm.trans hr, fun hle => hone.mp (ho hle)⟩
  · rintro ⟨hr, ho⟩
    exact ⟨h.reported.trans hr, fun hle => hone.mpr (ho hle)⟩

/-- The declarations of a variable are merged into one definition exactly where no
complete array comes after the only initialiser. -/
theorem tentatives_merged_iff (h : FileVariable ds last rest) :
    MergedInOne ds (last :: rest) (foldMergeTenatives ds) ↔
      ¬ (explicitInits ds (last :: rest) = 1 ∧ CompleteArrayAfterInit ds (last :: rest)) := by
  obtain ⟨above, below, hsplit⟩ :=
    List.append_of_mem (List.mem_reverse.mpr (List.mem_finRange last))
  have hpairs : (List.finRange n).reverse.Pairwise (· > ·) :=
    List.pairwise_reverse.mpr (List.pairwise_lt_finRange n)
  rw [hsplit] at hpairs
  have habove : Keeps (last :: rest) ⟨ds, none, []⟩ (above.foldl mergeFrom ⟨ds, none, []⟩) :=
      h.keeps_foldl above (fun _ => rfl) fun i hi hmem => by
    have hgt : i > last := (List.pairwise_append.mp hpairs).2.2 i hi last List.mem_cons_self
    rcases List.mem_cons.mp hmem with rfl | hmem
    · exact absurd hgt (lt_irrefl i)
    · exact absurd hgt (lt_asymm ((List.pairwise_cons.mp h.sorted).1 i hmem))
  have hst : Untouched ds (last :: rest) (above.foldl mergeFrom ⟨ds, none, []⟩) :=
    ⟨habove.decls, habove.proto, fun hr => by
      obtain ⟨a, b, hr, -⟩ := habove.reported.mp hr
      cases hr⟩
  have hproto := fun j => ((within_mergeFrom _ last).proto j).trans (hst.proto j)
  have hflag : ∀ i ∈ last :: rest,
      ((mergeFrom (above.foldl mergeFrom ⟨ds, none, []⟩) last).decls i).protoFlag = true := by
    intro i hi
    have hwalk := flag_foldl (l := last :: rest)
      { above.foldl mergeFrom ⟨ds, none, []⟩ with init := none } hi
    rw [h.mergeFrom_last hst]
    split
    · exact hwalk
    · exact (within_giveDefault (l := [last]) _ List.mem_cons_self).flag i hwalk
  have hbelow := h.keeps_foldl below hproto fun i _ hmem => hflag i hmem
  unfold foldMergeTenatives
  rw [hsplit, List.foldl_append, List.foldl_cons, MergedInOne.keeps hbelow,
    h.merged_last_iff hst]

/-- Two declarations of an array of file scope, the first with `dinit`, the second
without an initialiser. -/
def twoArrays (first second : VarTy) (dinit : Option DInit) : Decls 2 :=
  twoDecls
    ⟨some "a", .storeDefault, false, false, [], [], 4, .var first 0 dinit, some .global, none,
      some secondDecl, false⟩
    ⟨some "a", .storeDefault, false, false, [], [], 4, .var second 0 none, some .global,
      some firstDecl, none, false⟩

theorem twoArrays_variable (first second : VarTy) (dinit : Option DInit)
    (h : dinit ≠ some .generated) : FileVariable (twoArrays first second dinit) 1 [0] where
  linked := ⟨rfl, rfl, trivial⟩
  sorted := by decide
  apart := by
    intro i j _ _
    fin_cases i
    · exact List.mem_cons_of_mem _ List.mem_cons_self
    · exact List.mem_cons_self
  named := rfl
  notExtern := nofun
  notTypedef := by
    intro i _
    fin_cases i
    · nofun
    · nofun
  notFunc := by
    intro i _
    fin_cases i
    · rfl
    · rfl
  fresh := by
    intro i _
    fin_cases i
    · exact ⟨rfl, h⟩
    · exact ⟨rfl, nofun⟩

/-- `int a[]; int a[2];` -/
theorem tentatives_merged_array :
    MergedInOne (twoArrays ⟨true, false⟩ ⟨true, true⟩ none) [1, 0]
      (foldMergeTenatives (twoArrays ⟨true, false⟩ ⟨true, true⟩ none)) :=
  (tentatives_merged_iff (twoArrays_variable ⟨true, false⟩ ⟨true, true⟩ none nofun)).mpr
    fun h => absurd h.1 (by decide)

/-- `int a[2] = { 1, 2 }; int a[2];` is two definitions. -/
theorem array_again_is_error :
    explicitInits (twoArrays ⟨true, true⟩ ⟨true, true⟩ (some .explicit)) [1, 0] = 1 ∧
      (foldMergeTenatives (twoArrays ⟨true, true⟩ ⟨true, true⟩ (some .explicit))).reports =
        [.multipleDefinitions 1 0] ∧
      ¬ MergedInOne (twoArrays ⟨true, true⟩ ⟨true, true⟩ (some .explicit)) [1, 0]
        (foldMergeTenatives (twoArrays ⟨true, true⟩ ⟨true, true⟩ (some .explicit))) := by
  have hreports : (foldMergeTenatives
      (twoArrays ⟨true, true⟩ ⟨true, true⟩ (some .explicit))).reports =
        [.multipleDefinitions 1 0] := by decide
  refine ⟨by decide, hreports, fun hm => ?_⟩
  have hone := hm.reported.mp ⟨1, 0, by rw [hreports]; exact List.mem_cons_self, by decide⟩
  revert hone
  decide

end Ucc.Cc1.Chain
