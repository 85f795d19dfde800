/-
  Cc1/Redecl.lean --- clashes between the declarations of a scope.

  Source: strcmp_or_null, ident_loc_cmp and the check for clashes of
  symtab_fold_decls in src/cc1/fold_sym.c.

  The identifiers of a scope are sorted, those of one name next to each other, and
  each is compared with the one behind it only.  A name is its bytes.  Warnings are
  left out: they do not make the compilation fail.
-/
import Ucc.Cc1.ScopeLeave
import Ucc.Cc1.TypeAgree
import Ucc.Lib.Qsort

set_option autoImplicit false

namespace Ucc.Cc1.Redecl

open Ucc.Lib
open Ucc.Cc1.Scope (DeclStorage)

/-! ## Identifiers -/

/-- The values of `enum decl_storage`. -/
def storeCode : DeclStorage → Nat
  | .storeDefault => 0
  | .storeAuto => 1
  | .storeStatic => 2
  | .storeExtern => 3
  | .storeRegister => 4
  | .storeTypedef => 5

/-- `decl`: `hasCode` is `bits.func.code`, `implicit` the flag of that name. -/
structure Decl where
  spel : Option (List UInt8)
  ref : Ty
  store : DeclStorage
  hasCode : Bool
  implicit : Bool

/-- `struct ident_loc`: a declaration, or an enumerator. -/
inductive IdentLoc where
  | decl (d : Decl)
  | member (spel : List UInt8)

/-- `IDENT_LOC_SPEL` -/
def IdentLoc.spel : IdentLoc → Option (List UInt8)
  | .decl d => d.spel
  | .member spel => some spel

/-- `IDENT_LOC_IS_IMPLICIT` -/
def IdentLoc.isImplicit : IdentLoc → Bool
  | .decl d => d.implicit
  | .member _ => false

/-- `type_is` a function. -/
def isFunc (t : Ty) : Bool :=
  match t.skipAll with
  | .func .. => true
  | _ => false

/-- `FUNCARGS_EMPTY_NOVOID` of the arguments of a function. -/
def emptyNovoid (t : Ty) : Bool :=
  match t.skipAll with
  | .func _ void _ arglist _ => arglist.isEmpty && !void
  | _ => false

/-- `DECL_HAS_FUNC_CODE` -/
def Decl.hasFuncCode (d : Decl) : Bool := isFunc d.ref && d.hasCode

/-! ## The order -/

/-- `strcmp_or_null`: a missing name is above all. -/
def strcmpOrNull : Option (List UInt8) → Option (List UInt8) → Ordering
  | some a, some b => compare a b
  | _, _ => .gt

/-- The order of two declarations of one name: according to the code, then to the
prototype. -/
def declOrder (a b : Decl) : Ordering :=
  (compare a.hasFuncCode.toNat b.hasFuncCode.toNat).then
    (if isFunc a.ref && isFunc b.ref then
      compare (emptyNovoid a.ref).toNat (emptyNovoid b.ref).toNat
    else .eq)

/-- `ident_loc_cmp` -/
def identLocCmp (a b : IdentLoc) : Ordering :=
  (strcmpOrNull a.spel b.spel).then
    (match a, b with
    | .decl a, .decl b => declOrder a b
    | _, _ => .eq)

/-! ## The rules for two identifiers -/

/-- `clash` -/
inductive Clash where
  | duplicate | mismatching | externNonExtern
deriving DecidableEq

def Clash.text : Clash → String
  | .duplicate => "duplicate"
  | .mismatching => "mismatching"
  | .externNonExtern => "extern/non-extern"

/-- Equal types in a local scope. -/
def localClash (a b : Decl) : Option Clash :=
  if decide (a.store = .storeExtern) != decide (b.store = .storeExtern) then some .externNonExtern
  else if a.store = .storeExtern then none
  -- redefinition at local scope: allow typedef
  else if storeCode a.store &&& storeCode .storeTypedef ≠ 0 ∧
      storeCode b.store &&& storeCode .storeTypedef ≠ 0 then none
  -- functions can repeat
  else if isFunc a.ref then none
  else some .duplicate

/-- Equal types in the global scope. -/
def globalClash (a b : Decl) : Option Clash :=
  if a.hasFuncCode && b.hasFuncCode then some .duplicate else none

/-- The rules for two declarations; the comparison of their types may stop. -/
def declClash (E : TypeEnv) (isLocal : Bool) (a b : Decl) : Option (Option Clash) :=
  if decide (a.store = .storeTypedef) != decide (b.store = .storeTypedef) then some (some .mismatching)
  else if isFunc b.ref != isFunc a.ref then some (some .mismatching)
  else (typeCmp E true a.ref b.ref).map fun cmp =>
    if cmp.equalAny then if isLocal then localClash a b else globalClash a b
    else some .mismatching

/-- The rules for two identifiers of one name. -/
def identClash (E : TypeEnv) (isLocal : Bool) : IdentLoc → IdentLoc → Option (Option Clash)
  | .decl a, .decl b => declClash E isLocal a b
  | .member _, .member _ => some (some .duplicate)
  | _, _ => some (some .mismatching)

/-! ## The check -/

/-- An error: where it is reported, and the note of the other definition. -/
structure ClashError where
  clash : Clash
  reported : IdentLoc
  previous : IdentLoc

def ClashError.text (e : ClashError) : String := e.clash.text ++ " definitions of"

def ClashError.note (e : ClashError) : String :=
  "previous " ++ (if e.previous.isImplicit then "implicit " else "") ++ "definition"

/-- The error of a clash: an implicit declaration is the other definition. -/
def reportClash (a b : IdentLoc) (clash : Clash) : ClashError :=
  if b.isImplicit && !a.isImplicit then ⟨clash, a, b⟩ else ⟨clash, b, a⟩

/-- The check of an identifier and the one behind it. -/
def checkPair (E : TypeEnv) (isLocal : Bool) (a b : IdentLoc) : Option (List ClashError) :=
  if strcmpOrNull a.spel b.spel = .eq then
    (identClash E isLocal a b).map fun clash => (clash.map (reportClash a b)).toList
  else some []

/-- The loop over the sorted identifiers. -/
def checkClashes (E : TypeEnv) (isLocal : Bool) : List IdentLoc → Option (List ClashError)
  | a :: b :: l => do
      let errs ← checkPair E isLocal a b
      let rest ← checkClashes E isLocal (b :: l)
      return errs ++ rest
  | _ => some []

/-- The check of `symtab_fold_decls`: `sorted` is what `qsort` leaves of the
identifiers. -/
def foldDecls (E : TypeEnv) (isLocal : Bool) (idents sorted : List IdentLoc) :
    Option (List ClashError) :=
  if 1 < idents.length then checkClashes E isLocal sorted else some []

/-! ## What the check is for -/

section Exact

variable (E : TypeEnv) (isLocal : Bool)

/-- The rules, for two identifiers in the order in which they are sorted. -/
def Clashes (a b : IdentLoc) : Prop :=
  (identLocCmp a b).isLE = true ∧ strcmpOrNull a.spel b.spel = .eq ∧
    ∃ clash, identClash E isLocal a b = some (some clash)

/-- Two of the identifiers clash, whatever the order of declaration. -/
def HasClash (idents : List IdentLoc) : Prop :=
  ∃ a b, [a, b].Subperm idents ∧ Clashes E isLocal a b

/-- An error is reported exactly if two of the identifiers clash, whatever order `qsort`
leaves those in that compare equal. -/
def Exact (idents : List IdentLoc) : Prop :=
  ∀ sorted, Sorts identLocCmp idents sorted → ∃ errs,
    foldDecls E isLocal idents sorted = some errs ∧ (errs ≠ [] ↔ HasClash E isLocal idents)

/-- The identifiers are ordered by the comparison, their types are compared to the end,
and the rules go with the order: they are the same both ways where the comparison is
equal, and identifiers that do not clash with one sorted between them do not clash. -/
structure Orderly (S : Set IdentLoc) : Prop where
  consistent : ∀ a ∈ S, ∀ b ∈ S, ∀ c ∈ S, Consistent identLocCmp [a, b, c]
  ends : ∀ a ∈ S, ∀ b ∈ S, (identLocCmp a b).isLE = true →
    strcmpOrNull a.spel b.spel = .eq → identClash E isLocal a b ≠ none
  either : ∀ a ∈ S, ∀ b ∈ S, identLocCmp a b = .eq → Clashes E isLocal a b →
    Clashes E isLocal b a
  through : ∀ a ∈ S, ∀ b ∈ S, ∀ c ∈ S, (identLocCmp a b).isLE = true →
    (identLocCmp b c).isLE = true → strcmpOrNull a.spel b.spel = .eq →
      strcmpOrNull b.spel c.spel = .eq → ¬ Clashes E isLocal a b → ¬ Clashes E isLocal b c →
        ¬ Clashes E isLocal a c

end Exact

/-! ## Names -/

theorem strcmpOrNull_isLE {a b : Option (List UInt8)} (h : (strcmpOrNull a b).isLE = true) :
    ∃ x y, a = some x ∧ b = some y ∧ (compare x y).isLE = true := by
  cases a with
  | none => cases h
  | some x =>
    cases b with
    | none => cases h
    | some y => exact ⟨x, y, rfl, rfl, h⟩

theorem strcmpOrNull_eq {a b : Option (List UInt8)} :
    strcmpOrNull a b = .eq ↔ ∃ x, a = some x ∧ b = some x := by
  constructor
  · intro h
    obtain ⟨x, y, rfl, rfl, -⟩ := strcmpOrNull_isLE (a := a) (b := b) (by rw [h]; rfl)
    have hcmp : compare x y = .eq := h
    obtain rfl := Std.LawfulEqCmp.compare_eq_iff_eq.mp hcmp
    exact ⟨x, rfl, rfl⟩
  · rintro ⟨x, rfl, rfl⟩
    have hcmp : compare x x = .eq := Std.LawfulEqCmp.compare_eq_iff_eq.mpr rfl
    exact hcmp

theorem isLE_fst_of_then {o o' : Ordering} (h : (o.then o').isLE = true) : o.isLE = true := by
  cases o with
  | lt => rfl
  | eq => rfl
  | gt => cases h

theorem isLE_strcmp {a b : IdentLoc} (h : (identLocCmp a b).isLE = true) :
    (strcmpOrNull a.spel b.spel).isLE = true := isLE_fst_of_then h

theorem eq_of_compare {x y : List UInt8} (hxy : (compare x y).isLE = true)
    (hyx : (compare y x).isLE = true) : x = y := by
  have hswap : compare x y = (compare y x).swap := Std.OrientedCmp.eq_swap
  refine Std.LawfulEqCmp.compare_eq_iff_eq.mp (?_ : compare x y = .eq)
  cases hcmp : compare y x with
  | lt =>
    rw [hswap, hcmp] at hxy
    cases hxy
  | eq => rw [hswap, hcmp]; rfl
  | gt =>
    rw [hcmp] at hyx
    cases hyx

/-- What is sorted between two identifiers of one name has that name. -/
theorem sameSpel_between {a b c : IdentLoc} (hab : (identLocCmp a b).isLE = true)
    (hbc : (identLocCmp b c).isLE = true) (hac : strcmpOrNull a.spel c.spel = .eq) :
    strcmpOrNull a.spel b.spel = .eq ∧ strcmpOrNull b.spel c.spel = .eq := by
  obtain ⟨x, hx, hx'⟩ := strcmpOrNull_eq.mp hac
  obtain ⟨x₁, y, hx₁, hy, hxy⟩ := strcmpOrNull_isLE (isLE_strcmp hab)
  obtain ⟨y₁, z, hy₁, hz, hyz⟩ := strcmpOrNull_isLE (isLE_strcmp hbc)
  obtain rfl := Option.some.inj (hx₁.symm.trans hx)
  obtain rfl := Option.some.inj (hz.symm.trans hx')
  obtain rfl := Option.some.inj (hy₁.symm.trans hy)
  obtain rfl := eq_of_compare hxy hyz
  exact ⟨strcmpOrNull_eq.mpr ⟨_, hx, hy⟩, strcmpOrNull_eq.mpr ⟨_, hy, hx'⟩⟩

/-! ## The loop -/

section Loop

variable {E : TypeEnv} {isLocal : Bool}

/-- The check of one pair ends, and reports an error exactly if the two clash. -/
theorem checkPair_spec {a b : IdentLoc} (hab : (identLocCmp a b).isLE = true)
    (hends : strcmpOrNull a.spel b.spel = .eq → identClash E isLocal a b ≠ none) :
    ∃ errs, checkPair E isLocal a b = some errs ∧ (errs ≠ [] ↔ Clashes E isLocal a b) := by
  unfold checkPair Clashes
  by_cases hname : strcmpOrNull a.spel b.spel = .eq
  · obtain ⟨clash, hclash⟩ := Option.ne_none_iff_exists'.mp (hends hname)
    rw [if_pos hname, hclash]
    refine ⟨_, rfl, ?_⟩
    cases clash with
    | none => simp
    | some clash => simp [hab, hname]
  · rw [if_neg hname]
    exact ⟨[], rfl, iff_of_false (fun h => h rfl) fun h => hname h.2.1⟩

/-- The loop reports an error exactly if two neighbours clash. -/
theorem checkClashes_spec {l : List IdentLoc}
    (hsorted : l.Pairwise fun a b => (identLocCmp a b).isLE = true)
    (hends : ∀ a ∈ l, ∀ b ∈ l, (identLocCmp a b).isLE = true →
      strcmpOrNull a.spel b.spel = .eq → identClash E isLocal a b ≠ none) :
    ∃ errs, checkClashes E isLocal l = some errs ∧
      (errs ≠ [] ↔ ∃ p ∈ neighbours l, Clashes E isLocal p.1 p.2) := by
  induction l with
  | nil => exact ⟨[], rfl, by simp [neighbours]⟩
  | cons a l ih =>
    cases l with
    | nil => exact ⟨[], rfl, by simp [neighbours]⟩
    | cons b l =>
      obtain ⟨hfirst, hrest⟩ := List.pairwise_cons.mp hsorted
      have hab := hfirst b List.mem_cons_self
      have hb : b ∈ a :: b :: l := List.mem_cons_of_mem _ List.mem_cons_self
      obtain ⟨errs, herrs, hclash⟩ :=
        checkPair_spec hab (hends a List.mem_cons_self b hb hab)
      obtain ⟨rest, hcheck, hlater⟩ := ih hrest fun x hx y hy =>
        hends x (List.mem_cons_of_mem _ hx) y (List.mem_cons_of_mem _ hy)
      refine ⟨errs ++ rest, ?_, ?_⟩
      · rw [checkClashes, herrs, hcheck]
        rfl
      · rw [neighbours_cons, ne_eq, List.append_eq_nil_iff, not_and_or]
        simp only [List.mem_cons, exists_eq_or_imp]
        exact or_congr hclash hlater

/-- Two elements are in one order or the other. -/
theorem sublist_of_subperm {α : Type} {a b : α} {l : List α} (h : [a, b].Subperm l) :
    [a, b].Sublist l ∨ [b, a].Sublist l := by
  obtain ⟨l', hperm, hsub⟩ := h
  rcases List.perm_pair.mp hperm with rfl | rfl
  · exact .inl hsub
  · exact .inr hsub

section Sufficient

variable {S : Set IdentLoc} {xs : List IdentLoc}

theorem Orderly.consistent_of_subset (h : Orderly E isLocal S) (hxs : ∀ a ∈ xs, a ∈ S) :
    Consistent identLocCmp xs where
  swap a ha b hb :=
    (h.consistent a (hxs a ha) b (hxs b hb) b (hxs b hb)).swap a (by simp) b (by simp)
  trans a ha b hb c hc :=
    (h.consistent a (hxs a ha) b (hxs b hb) c (hxs c hc)).trans a (by simp) b (by simp) c
      (by simp)

/-- Neighbours clash if any two of the sorted identifiers do. -/
theorem Orderly.neighbours_clash_iff (h : Orderly E isLocal S) (hxs : ∀ a ∈ xs, a ∈ S)
    (hsorted : xs.Pairwise fun a b => (identLocCmp a b).isLE = true) :
    (∃ p ∈ neighbours xs, Clashes E isLocal p.1 p.2) ↔ HasClash E isLocal xs := by
  constructor
  · rintro ⟨p, hp, hclash⟩
    exact ⟨p.1, p.2, (sublist_of_neighbours hp).subperm, hclash⟩
  · rintro ⟨a, b, htwo, hclash⟩
    rw [exists_neighbours_iff (R := Clashes E isLocal)]
    intro hchain
    have hnone := pairwise_of_isChain hsorted hchain fun x hx y hy z hz hxy hyz hno hno' => by
      intro hxz
      obtain ⟨hname, hname'⟩ := sameSpel_between hxy hyz hxz.2.1
      exact h.through x (hxs x hx) y (hxs y hy) z (hxs z hz) hxy hyz hname hname' hno hno' hxz
    rcases sublist_of_subperm htwo with hsub | hsub
    · have hpair := hnone.sublist hsub
      exact (List.pairwise_cons.mp hpair).1 b (List.mem_singleton_self b) hclash
    · have hba := (List.pairwise_cons.mp (hsorted.sublist hsub)).1 a (List.mem_singleton_self a)
      have hpair := hnone.sublist hsub
      have ha := hxs a (hsub.subset (by simp))
      have hb := hxs b (hsub.subset (by simp))
      have heq : identLocCmp a b = .eq := by
        have hswap := (h.consistent a ha b hb b hb).swap a (by simp) b (by simp)
        rw [← hswap] at hba
        have hab := hclash.1
        cases hcmp : identLocCmp a b with
        | lt =>
          rw [hcmp] at hba
          cases hba
        | eq => rfl
        | gt =>
          rw [hcmp] at hab
          cases hab
      exact (List.pairwise_cons.mp hpair).1 a (List.mem_singleton_self a)
        (h.either a ha b hb heq hclash)

theorem Orderly.exact (h : Orderly E isLocal S) (hxs : ∀ a ∈ xs, a ∈ S) :
    Exact E isLocal xs := by
  intro sorted hsort
  obtain ⟨hperm, hsorted⟩ := hsort (h.consistent_of_subset hxs)
  have hmem : ∀ a ∈ sorted, a ∈ S := fun a ha => hxs a (hperm.subset ha)
  unfold foldDecls
  by_cases hlen : 1 < xs.length
  · rw [if_pos hlen]
    obtain ⟨errs, herrs, hclash⟩ := checkClashes_spec hsorted fun a ha b hb =>
      h.ends a (hmem a ha) b (hmem b hb)
    refine ⟨errs, herrs, hclash.trans ((h.neighbours_clash_iff hmem hsorted).trans ?_)⟩
    refine exists_congr fun a => exists_congr fun b => and_congr_left' ?_
    exact ⟨fun hsub => hsub.trans hperm.subperm, fun hsub => hsub.trans hperm.symm.subperm⟩
  · rw [if_neg hlen]
    refine ⟨[], rfl, iff_of_false (fun h => h rfl) ?_⟩
    rintro ⟨a, b, htwo, -⟩
    exact hlen htwo.length_le

/-- Identifiers that compare equal and never clash. -/
theorem orderly_of_equal (hcmp : ∀ a ∈ S, ∀ b ∈ S, identLocCmp a b = .eq)
    (hclash : ∀ a ∈ S, ∀ b ∈ S, identClash E isLocal a b = some none) :
    Orderly E isLocal S := by
  have hno : ∀ a ∈ S, ∀ b ∈ S, ¬ Clashes E isLocal a b := by
    intro a ha b hb h
    obtain ⟨clash, h⟩ := h.2.2
    rw [hclash a ha b hb] at h
    cases h
  refine ⟨fun a ha b hb c hc => ?_, fun a ha b hb _ _ h => ?_,
    fun a ha b hb _ h => absurd h (hno a ha b hb),
    fun a ha _ _ c hc _ _ _ _ _ _ => hno a ha c hc⟩
  · have hin : ∀ x ∈ [a, b, c], x ∈ S := by simp [ha, hb, hc]
    refine ⟨fun x hx y hy => ?_, fun x hx _ _ z hz _ _ => ?_⟩
    · rw [hcmp x (hin x hx) y (hin y hy), hcmp y (hin y hy) x (hin x hx)]
      rfl
    · rw [hcmp x (hin x hx) z (hin z hz)]
      rfl
  · rw [hclash a ha b hb] at h
    cases h

end Sufficient

section Necessary

variable {S : Set IdentLoc} {xs : List IdentLoc}

/-- Two enumerators of one name. -/
def twoMembers : List IdentLoc := [.member [], .member []]

/-- Where the comparison is no order, the sorted identifiers may be any. -/
theorem Exact.consistent (h : Exact E isLocal xs) (hlen : 1 < xs.length) :
    Consistent identLocCmp xs := by
  by_contra hcon
  obtain ⟨errs, herrs, hclash⟩ := h [] fun hc => absurd hc hcon
  rw [foldDecls, if_pos hlen] at herrs
  obtain rfl := Option.some.inj herrs
  obtain ⟨errs', herrs', hclash'⟩ := h twoMembers fun hc => absurd hc hcon
  rw [foldDecls, if_pos hlen] at herrs'
  obtain rfl := Option.some.inj herrs'
  exact hclash.mpr (hclash'.mp (List.cons_ne_nil _ _)) rfl

/-- In a list sorted in any way, neighbours clash if any two identifiers do. -/
theorem Exact.exists_neighbours (h : Exact E isLocal xs) (hlen : 1 < xs.length)
    {sorted : List IdentLoc} (hperm : sorted.Perm xs)
    (hsorted : sorted.Pairwise fun a b => (identLocCmp a b).isLE = true)
    (hends : ∀ a ∈ sorted, ∀ b ∈ sorted, (identLocCmp a b).isLE = true →
      strcmpOrNull a.spel b.spel = .eq → identClash E isLocal a b ≠ none)
    (hclash : HasClash E isLocal xs) : ∃ p ∈ neighbours sorted, Clashes E isLocal p.1 p.2 := by
  obtain ⟨errs, herrs, hiff⟩ := h sorted fun _ => ⟨hperm, hsorted⟩
  obtain ⟨errs', herrs', hneighbours⟩ := checkClashes_spec hsorted hends
  rw [foldDecls, if_pos hlen, herrs'] at herrs
  obtain rfl := Option.some.inj herrs
  exact hneighbours.mp (hiff.mpr hclash)

theorem orderly_of_exact (h : ∀ xs, (∀ a ∈ xs, a ∈ S) → Exact E isLocal xs) :
    Orderly E isLocal S := by
  have hmem : ∀ a ∈ S, ∀ b ∈ S, ∀ c ∈ S, ∀ x ∈ [a, b, c], x ∈ S := by
    intro a ha b hb c hc x hx
    simp only [List.mem_cons, List.not_mem_nil, or_false] at hx
    rcases hx with rfl | rfl | rfl
    · exact ha
    · exact hb
    · exact hc
  have hthree : ∀ a ∈ S, ∀ b ∈ S, ∀ c ∈ S, Exact E isLocal [a, b, c] :=
    fun a ha b hb c hc => h _ (hmem a ha b hb c hc)
  have htwo : ∀ a ∈ S, ∀ b ∈ S, Exact E isLocal [a, b] := by
    intro a ha b hb
    refine h _ fun x hx => ?_
    rcases List.mem_pair.mp hx with rfl | rfl
    · exact ha
    · exact hb
  have hconsistent : ∀ a ∈ S, ∀ b ∈ S, ∀ c ∈ S, Consistent identLocCmp [a, b, c] :=
    fun a ha b hb c hc => (hthree a ha b hb c hc).consistent (by simp)
  have hends : ∀ a ∈ S, ∀ b ∈ S, (identLocCmp a b).isLE = true →
      strcmpOrNull a.spel b.spel = .eq → identClash E isLocal a b ≠ none := by
    intro a ha b hb hab hname hnone
    obtain ⟨errs, herrs, -⟩ := htwo a ha b hb [a, b] fun _ =>
      ⟨.refl _, List.pairwise_pair.mpr hab⟩
    rw [foldDecls, if_pos (by simp), checkClashes, checkPair, if_pos hname, hnone] at herrs
    cases herrs
  refine ⟨hconsistent, hends, fun a ha b hb heq hclash => ?_,
    fun a ha b hb c hc hab hbc _ _ hno hno' hclash => ?_⟩
  · have hba : (identLocCmp b a).isLE = true := by
      rw [← (hconsistent a ha b hb b hb).swap a (by simp) b (by simp), heq]
      rfl
    have hin : ∀ z ∈ [b, a], z ∈ S := by
      intro z hz
      rcases List.mem_pair.mp hz with rfl | rfl
      · exact hb
      · exact ha
    obtain ⟨p, hp, hfound⟩ := (htwo a ha b hb).exists_neighbours (by simp) (.swap a b [])
      (List.pairwise_pair.mpr hba) (fun x hx y hy => hends x (hin x hx) y (hin y hy))
      ⟨a, b, .refl _, hclash⟩
    obtain rfl := List.mem_singleton.mp hp
    exact hfound
  · have hac := (hconsistent a ha b hb c hc).trans a (by simp) b (by simp) c (by simp) hab hbc
    have hsub : [a, c].Sublist [a, b, c] := ((List.Sublist.refl [c]).cons b).cons_cons a
    have hin := hmem a ha b hb c hc
    obtain ⟨p, hp, hfound⟩ := (hthree a ha b hb c hc).exists_neighbours (by simp) (.refl _)
      (by simp [hab, hac, hbc]) (fun x hx y hy => hends x (hin x hx) y (hin y hy))
      ⟨a, c, hsub.subperm, hclash⟩
    rcases List.mem_pair.mp (hp : p ∈ [(a, b), (b, c)]) with rfl | rfl
    · exact hno hfound
    · exact hno' hfound

end Necessary

/-- In a scope with identifiers from `S`, whichever are declared and however often, the
check is exact if and only if `S` is orderly. -/
theorem redeclaration_exact_iff (E : TypeEnv) (isLocal : Bool) (S : Set IdentLoc) :
    (∀ xs, (∀ a ∈ xs, a ∈ S) → Exact E isLocal xs) ↔ Orderly E isLocal S :=
  ⟨orderly_of_exact, fun h _ hxs => h.exact hxs⟩

end Loop

/-- `extern int a[n];`, or `extern int a[];` -/
def externArray (size : Option SizeExpr) : IdentLoc :=
  .decl ⟨some [97], .array size .no intTy, .storeExtern, false, false⟩

/-- An array may be declared with its size and without. -/
theorem orderly_one_array (n : BitVec 64) : Orderly noStructs false
    {x | ∃ s, (s = none ∨ s = some (.const n)) ∧ x = externArray s} := by
  have hself : ∀ s, s ≠ some .nonConst →
      identClash noStructs false (externArray s) (externArray s) = some none := by
    intro s hs
    have hcmp := (typeCmp_self_iff noStructs true (.array s .no intTy)).mpr ⟨fun _ => hs, trivial⟩
    show (typeCmp noStructs true _ _).map _ = _
    rw [hcmp]
    rfl
  refine orderly_of_equal ?_ ?_
  · rintro a ⟨s, -, rfl⟩ b ⟨s', -, rfl⟩
    rfl
  · rintro a ⟨s, rfl | rfl, rfl⟩ b ⟨s', rfl | rfl, rfl⟩
    · exact hself none fun h => by cases h
    · rfl
    · rfl
    · exact hself _ fun h => by cases h

/-- `extern int a[3]; extern int a[]; extern int a[4];` -/
def threeArrays : List IdentLoc :=
  [externArray (some (.const 3)), externArray none, externArray (some (.const 4))]

/-- The declarations of `a[3]` and `a[4]` clash, but no error is reported. -/
theorem redeclaration_array_unseen :
    foldDecls noStructs false threeArrays threeArrays = some [] ∧
      HasClash noStructs false threeArrays ∧ ¬ Exact noStructs false threeArrays := by
  have hnone : foldDecls noStructs false threeArrays threeArrays = some [] := rfl
  have hclash : HasClash noStructs false threeArrays := by
    refine ⟨externArray (some (.const 3)), externArray (some (.const 4)), ?_, rfl, rfl,
      .mismatching, rfl⟩
    exact (((List.Sublist.refl _).cons _).cons_cons _).subperm
  refine ⟨hnone, hclash, fun hexact => ?_⟩
  obtain ⟨errs, herrs, hiff⟩ := hexact threeArrays fun _ => ⟨.refl _, by
    simp [threeArrays, show ∀ s s', identLocCmp (externArray s) (externArray s') = .eq from
      fun _ _ => rfl]⟩
  obtain rfl := Option.some.inj (hnone.symm.trans herrs)
  exact hiff.mpr hclash rfl

end Ucc.Cc1.Redecl
