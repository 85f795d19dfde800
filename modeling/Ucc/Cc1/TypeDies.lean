/-
  Cc1/TypeDies.lean --- the map from types to their debugging entries.

  Source: dwarf_add_tydie, dwarf_tydie_new and the lookup of dwarf_type_die in
  src/cc1/out/dbg.c; dynmap_first_pair, dynmap_nochk_pair, dynmap_nochk_get and
  dynmap_nochk_set in src/util/dynmap.c for a map of which nothing is removed.

  A DIE is a number, in the order of creation.  The comparison of two types may
  stop; then there is no result.
-/
import Ucc.Cc1.TypeHash
import Ucc.Util.Dynmap

set_option autoImplicit false

namespace Ucc.Cc1

open Ucc.Util (squash squash_lt_size)

/-! ## The map -/

/-- `types_to_dies`: the chain of each bucket. -/
abbrev TyDies := Fin 256 → List (HashTy × Nat)

section Map

variable (E : TypeEnv) (spel : SueRef → List UInt8)

/-- `dynmap_first_pair` -/
def bucket (key : HashTy) : Fin 256 := ⟨squash (key.hash spel).toNat, squash_lt_size _⟩

/-- The loop of `dynmap_nochk_pair`, and the value of the pair. -/
def findDie (key : HashTy) : List (HashTy × Nat) → Option (Option Nat)
  | [] => some none
  | p :: ps =>
      match typeEqNontdef E p.1 key with
      | none => none
      | some true => some (some p.2)
      | some false => findDie key ps

/-- `dynmap_get`, as `dwarf_type_die` calls it. -/
def getTydie (m : TyDies) (ty : HashTy) : Option (Option Nat) :=
  findDie E ty.skip (m (bucket spel ty.skip))

/-- `dwarf_add_tydie` -/
def dwarfAddTydie (m : TyDies) (ty : HashTy) (die : Nat) : Option TyDies :=
  match findDie E ty.skip (m (bucket spel ty.skip)) with
  | none => none
  | some none =>
      some (Function.update m (bucket spel ty.skip)
        (m (bucket spel ty.skip) ++ [(ty.skip, die)]))
  -- UCC_ASSERT(!replaced_another)
  | some (some prev) => if prev = die then some m else none

/-- The map, and the number of the next DIE. -/
structure DieState where
  dies : TyDies
  next : Nat

/-- `dwarf_tydie_new`, of a type that has a DIE. -/
def dwarfTydieNew (s : DieState) (ty : HashTy) : Option DieState :=
  (dwarfAddTydie E spel s.dies ty s.next).map fun m => ⟨m, s.next + 1⟩

/-- DIEs for these types, one after the other. -/
def tydiesNew : List HashTy → DieState → Option DieState
  | [], s => some s
  | ty :: tys, s => (dwarfTydieNew E spel s ty).bind (tydiesNew tys)

end Map

/-- The map of a new compile unit. -/
def DieState.init : DieState := ⟨fun _ => [], 0⟩

/-! ## Runs -/

section Runs

variable {E : TypeEnv} {spel : SueRef → List UInt8}

/-- No two entries have equal types. -/
structure NoTwoEqual (E : TypeEnv) (m : TyDies) : Prop where
  chain : ∀ i, (m i).Pairwise fun p q => typeEqNontdef E p.1 q.1 ≠ some true
  apart : ∀ i j, i ≠ j → ∀ p ∈ m i, ∀ q ∈ m j, typeEqNontdef E p.1 q.1 ≠ some true

/-- Of those types that are equal the hash reads the same. -/
def AllAlike (E : TypeEnv) (tys : List HashTy) (t : HashTy) : Prop :=
  ∀ x ∈ tys, typeEqNontdef E x.skip t.skip = some true → x.ReadAlike t

/-- What holds of the map after DIEs for some types. -/
structure Entered (E : TypeEnv) (spel : SueRef → List UInt8) (tys : List HashTy)
    (s : DieState) : Prop where
  placed : ∀ i, ∀ p ∈ s.dies i, bucket spel p.1 = i ∧ ∃ x ∈ tys, p.1 = x.skip
  older : ∀ i, ∀ p ∈ s.dies i, p.2 < s.next
  chain : ∀ i, (s.dies i).Pairwise fun p q => typeEqNontdef E p.1 q.1 ≠ some true
  all : ∀ x ∈ tys, ∃ die, (x.skip, die) ∈ s.dies (bucket spel x.skip)

theorem findDie_some {key : HashTy} {ps : List (HashTy × Nat)} {die : Nat}
    (h : findDie E key ps = some (some die)) : ∃ p ∈ ps, p.2 = die := by
  induction ps with
  | nil => cases h
  | cons p ps ih =>
    rw [findDie] at h
    cases heq : typeEqNontdef E p.1 key with
    | none =>
      rw [heq] at h
      cases h
    | some same =>
      rw [heq] at h
      cases same with
      | true => exact ⟨p, List.mem_cons_self, Option.some.inj (Option.some.inj h)⟩
      | false =>
        obtain ⟨q, hq, hdie⟩ := ih h
        exact ⟨q, List.mem_cons_of_mem _ hq, hdie⟩

theorem findDie_none {key : HashTy} {ps : List (HashTy × Nat)}
    (h : findDie E key ps = some none) : ∀ p ∈ ps, typeEqNontdef E p.1 key ≠ some true := by
  induction ps with
  | nil => exact fun p hp => by cases hp
  | cons p ps ih =>
    rw [findDie] at h
    intro q hq heq
    rcases List.mem_cons.mp hq with rfl | hq
    · rw [heq] at h
      cases h
    · cases hsame : typeEqNontdef E p.1 key with
      | none =>
        rw [hsame] at h
        cases h
      | some same =>
        rw [hsame] at h
        cases same with
        | true => cases h
        | false => exact ih h q hq heq

/-- What one new DIE does to the map: the type is added at the end of its chain. -/
theorem dwarfTydieNew_some {s s' : DieState} {ty : HashTy}
    (holder : ∀ i, ∀ p ∈ s.dies i, p.2 < s.next) (h : dwarfTydieNew E spel s ty = some s') :
    (∀ p ∈ s.dies (bucket spel ty.skip), typeEqNontdef E p.1 ty.skip ≠ some true) ∧
      s' = ⟨Function.update s.dies (bucket spel ty.skip)
        (s.dies (bucket spel ty.skip) ++ [(ty.skip, s.next)]), s.next + 1⟩ := by
  obtain ⟨m, hm, rfl⟩ := Option.map_eq_some_iff.mp h
  unfold dwarfAddTydie at hm
  cases hfind : findDie E ty.skip (s.dies (bucket spel ty.skip)) with
  | none =>
    rw [hfind] at hm
    cases hm
  | some found =>
    rw [hfind] at hm
    cases found with
    | none =>
      obtain rfl := Option.some.inj hm
      exact ⟨findDie_none hfind, rfl⟩
    | some prev =>
      obtain ⟨p, hp, rfl⟩ := findDie_some hfind
      have hne : p.2 ≠ s.next := Nat.ne_of_lt (holder _ p hp)
      simp [hne] at hm

theorem Entered.new {tys : List HashTy} {s s' : DieState} {ty : HashTy}
    (hs : Entered E spel tys s) (h : dwarfTydieNew E spel s ty = some s') :
    Entered E spel (tys ++ [ty]) s' := by
  obtain ⟨hfresh, rfl⟩ := dwarfTydieNew_some hs.older h
  have hmem : ∀ i p, p ∈ Function.update s.dies (bucket spel ty.skip)
      (s.dies (bucket spel ty.skip) ++ [(ty.skip, s.next)]) i ↔
        p ∈ s.dies i ∨ (i = bucket spel ty.skip ∧ p = (ty.skip, s.next)) := by
    intro i p
    by_cases hi : i = bucket spel ty.skip
    · subst hi
      simp
    · simp [hi]
  constructor
  · intro i p hp
    rcases (hmem i p).mp hp with hp | ⟨rfl, rfl⟩
    · obtain ⟨hplace, x, hx, heq⟩ := hs.placed i p hp
      exact ⟨hplace, x, List.mem_append_left _ hx, heq⟩
    · exact ⟨rfl, ty, by simp, rfl⟩
  · intro i p hp
    rcases (hmem i p).mp hp with hp | ⟨-, rfl⟩
    · exact Nat.lt_succ_of_lt (hs.older i p hp)
    · exact Nat.lt_succ_self _
  · intro i
    by_cases hi : i = bucket spel ty.skip
    · subst hi
      dsimp only
      rw [Function.update_self, List.pairwise_append]
      refine ⟨hs.chain _, List.pairwise_singleton _ _, fun p hp q hq => ?_⟩
      obtain rfl := List.mem_singleton.mp hq
      exact hfresh p hp
    · dsimp only
      rw [Function.update_of_ne hi]
      exact hs.chain i
  · intro x hx
    rcases List.mem_append.mp hx with hx | hx
    · obtain ⟨die, hdie⟩ := hs.all x hx
      exact ⟨die, (hmem _ _).mpr (.inl hdie)⟩
    · obtain rfl := List.mem_singleton.mp hx
      exact ⟨s.next, (hmem _ _).mpr (.inr ⟨rfl, rfl⟩)⟩

theorem Entered.run {before tys : List HashTy} {s s' : DieState} (hs : Entered E spel before s)
    (h : tydiesNew E spel tys s = some s') : Entered E spel (before ++ tys) s' := by
  induction tys generalizing before s with
  | nil =>
    obtain rfl := Option.some.inj h
    rwa [List.append_nil]
  | cons ty tys ih =>
    obtain ⟨s₁, hone, hrest⟩ := Option.bind_eq_some_iff.mp h
    have hrun := ih (hs.new hone) hrest
    rwa [List.append_assoc, List.singleton_append] at hrun

theorem entered_init : Entered E spel [] .init where
  placed := fun _ _ hp => by cases hp
  older := fun _ _ hp => by cases hp
  chain := fun _ => .nil
  all := fun _ hx => by cases hx

theorem skip_skip : ∀ t : HashTy, t.skip.skip = t.skip
  | .attr _ ref => skip_skip ref
  | .whereAt ref => skip_skip ref
  | .btype _ => rfl
  | .tdef _ _ _ => rfl
  | .ptr _ _ => rfl
  | .block _ => rfl
  | .func _ _ _ _ _ => rfl
  | .array _ _ _ _ => rfl
  | .cast _ _ => rfl

theorem readAlike_skip (a b : HashTy) : a.skip.ReadAlike b.skip ↔ a.ReadAlike b := by
  rw [HashTy.ReadAlike, HashTy.ReadAlike, skip_skip, skip_skip]

/-- Equal types of which the hash reads the same are in one bucket. -/
theorem bucket_eq {a b : HashTy} (h : typeEqNontdef E a.skip b.skip = some true)
    (halike : a.ReadAlike b) : bucket spel a.skip = bucket spel b.skip := by
  unfold bucket
  simp only [hash_eq_of_eqNontdef spel h ((readAlike_skip a b).mpr halike)]

theorem Entered.noTwoEqual {tys : List HashTy} {s : DieState} (hs : Entered E spel tys s)
    (halike : ∀ y ∈ tys, AllAlike E tys y) : NoTwoEqual E s.dies := by
  refine ⟨hs.chain, fun i j hij p hp q hq heq => hij ?_⟩
  obtain ⟨rfl, x, hx, hpx⟩ := hs.placed i p hp
  obtain ⟨rfl, y, hy, hqy⟩ := hs.placed j q hq
  rw [hpx, hqy] at heq ⊢
  exact bucket_eq heq (halike y hy x hx heq)

theorem Entered.found {tys : List HashTy} {s : DieState} (hs : Entered E spel tys s) {t : HashTy}
    (halike : AllAlike E tys t) {x : HashTy} (hx : x ∈ tys)
    (heq : typeEqNontdef E x.skip t.skip = some true) : getTydie E spel s.dies t ≠ some none := by
  intro hnone
  obtain ⟨die, hdie⟩ := hs.all x hx
  rw [bucket_eq heq (halike x hx heq)] at hdie
  exact findDie_none hnone _ hdie heq

end Runs

/-- `int` -/
def hashInt : HashTy := .btype (.prim .int none)

/-- `int *`, and the same with a location. -/
def hashPtr : HashTy := .ptr none hashInt
def hashPtrAt : HashTy := .whereAt hashPtr

/-- `int (const int)` -/
def constParamFn : HashTy := .func 0 false false [.cast ⟨true, false, false⟩ hashInt] hashInt

/-- `int (int)` -/
def paramFn : HashTy := .func 1 false false [hashInt] hashInt

end Ucc.Cc1
