/-
  Cc1/Members.lean --- finding a member of a struct or union.

  Source: sue_anonext_type, sue_get_decls, decl_spel_cmp, sue_member_init_dup_check
  and sue_member_find in src/cc1/sue.c, fold_sue_check_unnamed in
  src/cc1/fold_sue.c, struct_offset and fold_expr_struct in
  src/cc1/ops/expr_struct.c.

  Members without a name are looked into where they are untagged.  The offsets on
  the way are added up in an `unsigned`.  The check for duplicates is made when the
  definition has been parsed, the members that declare nothing are dropped when it is
  folded, and members are looked up after that.
-/
import Ucc.Lib.Qsort

set_option autoImplicit false

namespace Ucc.Cc1.Members

open Ucc.Lib

/-! ## Members -/

/-- `cc1_fopt` -/
structure Fopt where
  msExtensions : Bool
  plan9Extensions : Bool
  deriving DecidableEq, Repr

/-- `FOPT_TAG_ANON_STRUCT_EXT` -/
def Fopt.tagAnonStructExt (o : Fopt) : Bool := o.msExtensions || o.plan9Extensions

/-- A member: `spel`, `struct_offset`, and, where `type_is_s_or_u` finds one, the
struct or union of its type, with `anon`, its members, and the typedef that names it.
Other types are of no matter here. -/
inductive Member (τ : Type) where
  | plain (spel : Option String) (ref : τ) (structOffset : BitVec 32)
  | sue (spel tdef : Option String) (anon : Bool) (members : List (Member τ))
      (structOffset : BitVec 32)

variable {τ : Type}

/-- `d->spel` -/
def Member.spel : Member τ → Option String
  | .plain spel _ _ => spel
  | .sue spel _ _ _ _ => spel

/-- `d->bits.var.struct_offset` -/
def Member.structOffset : Member τ → BitVec 32
  | .plain _ _ structOffset => structOffset
  | .sue _ _ _ _ structOffset => structOffset

/-- `enum sue_anonextkind` -/
inductive AnonExt where
  | allow | deny | allowC11
  deriving DecidableEq, Repr

/-- `sue_anonext_type` -/
def sueAnonextType (o : Fopt) (tdef : Option String) (anon : Bool) : AnonExt :=
  if o.tagAnonStructExt then .allow
  else if !anon || tdef.isSome then .deny
  else .allowC11

/-! ## The check for duplicates -/

mutual

/-- What `sue_get_decls` adds for a member. -/
def Member.getDecls (o : Fopt) : Member τ → List (Member τ)
  | .plain (some spel) ref off => [.plain (some spel) ref off]
  | .plain none _ _ => []
  | .sue (some spel) tdef anon ms off => [.sue (some spel) tdef anon ms off]
  | .sue none tdef anon ms _ =>
      match sueAnonextType o tdef anon with
      | .allow | .allowC11 => sueGetDecls o ms
      | .deny => []

/-- `sue_get_decls` -/
def sueGetDecls (o : Fopt) : List (Member τ) → List (Member τ)
  | [] => []
  | m :: ms => m.getDecls o ++ sueGetDecls o ms

end

/-- `decl_spel_cmp`, of named members. -/
def declSpelCmp (a b : Member τ) : Ordering := compare (a.spel.getD "") (b.spel.getD "")

/-- The errors of `sue_member_init_dup_check` about duplicate members, `decls` being
what `qsort` has made of the members. -/
def dupErrors (decls : List (Member τ)) : List (Member τ × Member τ) :=
  (neighbours decls).filter fun p => declSpelCmp p.1 p.2 = .eq

/-! ## Folding -/

mutual

/-- `fold_sue_check_unnamed` drops a member; what `fold_sue` leaves of it. -/
def Member.foldUnnamed (o : Fopt) : Member τ → List (Member τ)
  | .plain spel ref off => [.plain spel ref off]
  | .sue (some spel) tdef anon ms off => [.sue (some spel) tdef anon (foldSueMembers o ms) off]
  | .sue none tdef anon ms off =>
      match sueAnonextType o tdef anon with
      | .allow | .allowC11 => [.sue none tdef anon (foldSueMembers o ms) off]
      | .deny => []

/-- The members that a struct or union has after `fold_sue`. -/
def foldSueMembers (o : Fopt) : List (Member τ) → List (Member τ)
  | [] => []
  | m :: ms => m.foldUnnamed o ++ foldSueMembers o ms

end

/-! ## Looking up -/

/-- What is returned: a member, or with Plan 9 extensions a typedef. -/
inductive FoundDecl (τ : Type) where
  | member (m : Member τ)
  | tdef (spel : String)

/-- The result, `*extra_off`, and the members of `*pin`. -/
structure Found (τ : Type) where
  decl : Option (FoundDecl τ)
  extraOff : BitVec 32
  pin : Option (List (Member τ))

mutual

/-- The body of the loop of `sue_member_find`. -/
def Member.find (o : Fopt) (spel : String) : Member τ → BitVec 32 → Found τ
  | .plain (some sp) ref off, extraOff =>
      if sp = spel then ⟨some (.member (.plain (some sp) ref off)), extraOff, none⟩
      else ⟨none, extraOff, none⟩
  | .plain none _ _, extraOff => ⟨none, extraOff, none⟩
  | .sue (some sp) tdef anon ms off, extraOff =>
      if sp = spel then ⟨some (.member (.sue (some sp) tdef anon ms off)), extraOff, none⟩
      else ⟨none, extraOff, none⟩
  | .sue none tdef anon ms off, extraOff =>
      -- "don't check spel - <anon struct ...> etc"
      if !(o.tagAnonStructExt || anon) then ⟨none, extraOff, none⟩
      else if o.plan9Extensions ∧ tdef = some spel then
        ⟨some (.tdef spel), extraOff + off, some ms⟩
      else
        let sub := sueMemberFind o spel ms extraOff
        if sub.decl.isSome then ⟨sub.decl, sub.extraOff + off, some ms⟩ else sub

/-- `sue_member_find` -/
def sueMemberFind (o : Fopt) (spel : String) : List (Member τ) → BitVec 32 → Found τ
  | [], extraOff => ⟨none, extraOff, none⟩
  | m :: ms, extraOff =>
      let found := m.find o spel extraOff
      if found.decl.isSome then found else sueMemberFind o spel ms found.extraOff

end

/-- `struct_offset` of a member access, from an `extra_off` of 0. -/
def structOffset (m : Member τ) (extraOff : BitVec 32) : BitVec 32 := m.structOffset + extraOff

/-! ## What members there are -/

mutual

/-- The named members that can be reached through a member, with their offsets. -/
def Member.reach : Member τ → List (Member τ × Nat)
  | .plain (some spel) ref off => [(.plain (some spel) ref off, off.toNat)]
  | .plain none _ _ => []
  | .sue (some spel) tdef anon ms off => [(.sue (some spel) tdef anon ms off, off.toNat)]
  -- an anonymous struct or union of C11: untagged, and not named by a typedef
  | .sue none tdef anon ms off =>
      if anon = true ∧ tdef = none then (reach ms).map fun p => (p.1, off.toNat + p.2) else []

/-- The named members that can be reached through anonymous structs and unions, with
their offsets from the start of the object. -/
def reach : List (Member τ) → List (Member τ × Nat)
  | [] => []
  | m :: ms => m.reach ++ reach ms

end

/-- Neither `-fms-extensions` nor `-fplan9-extensions`. -/
def off : Fopt := ⟨false, false⟩

/-- The members once `fold_sue` is done. -/
abbrev folded (ms : List (Member τ)) : List (Member τ) := foldSueMembers off ms

/-- The member of that name that is reached first, and its offset. -/
def reachNamed (ms : List (Member τ)) (spel : String) : Option (Member τ × Nat) :=
  (reach (folded ms)).find? fun p => p.1.spel = some spel

/-- What looking up a name in a definition should do. -/
structure LookupRight (ms : List (Member τ)) (spel : String) : Prop where
  found : (sueMemberFind off spel (folded ms) 0).decl.isSome = true ↔
    ∃ p ∈ reach (folded ms), p.1.spel = some spel
  /-- What is found has the name, and its offsets add up to where it is. -/
  offset : ∀ d, (sueMemberFind off spel (folded ms) 0).decl = some d →
    ∃ p, reachNamed ms spel = some p ∧ d = .member p.1 ∧ p.1.spel = some spel ∧
      (structOffset p.1 (sueMemberFind off spel (folded ms) 0).extraOff).toNat = p.2
  unchanged : ∀ e, (sueMemberFind off spel (folded ms) e).decl = none →
    (sueMemberFind off spel (folded ms) e).extraOff = e
  /-- The definition is rejected if two members that can be reached share a name. -/
  rejected : ∀ decls, Sorts declSpelCmp (sueGetDecls off ms) decls →
    (dupErrors decls ≠ [] ↔ ¬ ((reach (folded ms)).map fun p => p.1.spel).Nodup)

/-! ## The walk -/

theorem folded_cons (m : Member τ) (ms : List (Member τ)) :
    folded (m :: ms) = m.foldUnnamed off ++ folded ms := by
  rw [folded, foldSueMembers]

theorem sueMemberFind_append (o : Fopt) (spel : String) (xs ys : List (Member τ)) (e : BitVec 32) :
    sueMemberFind o spel (xs ++ ys) e =
      if (sueMemberFind o spel xs e).decl.isSome then sueMemberFind o spel xs e
      else sueMemberFind o spel ys (sueMemberFind o spel xs e).extraOff := by
  induction xs generalizing e with
  | nil => simp [sueMemberFind]
  | cons m xs ih =>
    rw [List.cons_append, sueMemberFind, sueMemberFind]
    cases hm : (m.find o spel e).decl with
    | some d => simp [hm]
    | none => simp only [Option.isSome_none, Bool.false_eq_true, if_false, ih]

theorem reach_append (xs ys : List (Member τ)) : reach (xs ++ ys) = reach xs ++ reach ys := by
  induction xs with
  | nil => simp [reach]
  | cons m xs ih => rw [List.cons_append, reach, reach, ih, List.append_assoc]

/-- What a search finds of the members that can be reached, from an `extra_off` of
`e`. -/
def Finds (spel : String) (r : List (Member τ × Nat)) (e : BitVec 32) (f : Found τ) : Prop :=
  match r.find? fun p => p.1.spel = some spel with
  | some p => f.decl = some (.member p.1) ∧
      structOffset p.1 f.extraOff = e + BitVec.ofNat 32 p.2
  | none => f.decl = none ∧ f.extraOff = e

section Walk

variable {spel : String} {r r' : List (Member τ × Nat)} {e : BitVec 32} {f : Found τ}

theorem finds_nil (spel : String) (e : BitVec 32) :
    Finds spel ([] : List (Member τ × Nat)) e (sueMemberFind off spel [] e) := by
  rw [sueMemberFind]
  exact ⟨rfl, rfl⟩

theorem Finds.append {xs ys : List (Member τ)} (h : Finds spel r e (sueMemberFind off spel xs e))
    (h' : Finds spel r' e (sueMemberFind off spel ys e)) :
    Finds spel (r ++ r') e (sueMemberFind off spel (xs ++ ys) e) := by
  unfold Finds at h h' ⊢
  rw [List.find?_append, sueMemberFind_append]
  cases hr : r.find? fun p => p.1.spel = some spel with
  | some p =>
    rw [hr] at h
    rw [h.1, Option.isSome_some, if_pos rfl, Option.some_or]
    exact h
  | none =>
    rw [hr] at h
    rw [h.1, h.2, Option.isSome_none, if_neg Bool.false_ne_true, Option.none_or]
    exact h'

theorem Finds.single {m : Member τ} (h : Finds spel r e (m.find off spel e)) :
    Finds spel r e (sueMemberFind off spel [m] e) := by
  unfold Finds at h ⊢
  rw [sueMemberFind, sueMemberFind]
  cases hr : r.find? fun p => p.1.spel = some spel with
  | some p =>
    rw [hr] at h
    simp only [h.1, h.2, Option.isSome_some, if_true, and_self]
  | none =>
    rw [hr] at h
    simp only [h.1, h.2, Option.isSome_none, Bool.false_eq_true, if_false, and_self]

variable (spel e) in
/-- A named member is the only one that is reached through itself. -/
theorem finds_named {sp : String} {m : Member τ} (hm : m.spel = some sp) :
    Finds spel [(m, m.structOffset.toNat)] e
      (if sp = spel then ⟨some (.member m), e, none⟩ else ⟨none, e, none⟩) := by
  rcases eq_or_ne sp spel with rfl | hne
  · unfold Finds
    rw [List.find?_cons_of_pos (by simp [hm]), if_pos rfl]
    refine ⟨rfl, ?_⟩
    show m.structOffset + e = e + BitVec.ofNat 32 m.structOffset.toNat
    rw [BitVec.ofNat_toNat, BitVec.setWidth_eq, BitVec.add_comm]
  · unfold Finds
    rw [List.find?_cons_of_neg (by simp [hm, hne]), List.find?_nil, if_neg hne]
    exact ⟨rfl, rfl⟩

/-- Through an anonymous member, everything is where it is inside it, further on by the
offset of the member. -/
theorem Finds.inside (h : Finds spel r e f) (ms : List (Member τ)) (place : BitVec 32) :
    Finds spel (r.map fun p => (p.1, place.toNat + p.2)) e
      (if f.decl.isSome then ⟨f.decl, f.extraOff + place, some ms⟩ else f) := by
  unfold Finds at h ⊢
  have hfind : (r.map fun p => (p.1, place.toNat + p.2)).find? (fun p => p.1.spel = some spel) =
      (r.find? fun p => p.1.spel = some spel).map fun p => (p.1, place.toNat + p.2) := by
    rw [List.find?_map]
    rfl
  rw [hfind]
  cases hr : r.find? fun p => p.1.spel = some spel with
  | some p =>
    rw [hr] at h
    obtain ⟨hdecl, hoff⟩ := h
    rw [hdecl, Option.isSome_some, if_pos rfl]
    refine ⟨rfl, ?_⟩
    calc structOffset p.1 (f.extraOff + place)
        = structOffset p.1 f.extraOff + place := (BitVec.add_assoc _ _ _).symm
      _ = e + BitVec.ofNat 32 p.2 + place := by rw [hoff]
      _ = e + BitVec.ofNat 32 (place.toNat + p.2) := by
          rw [BitVec.ofNat_add, BitVec.ofNat_toNat, BitVec.setWidth_eq, BitVec.add_assoc,
            BitVec.add_comm place]
  | none =>
    rw [hr] at h
    obtain ⟨hdecl, hoff⟩ := h
    rw [hdecl, Option.isSome_none, if_neg Bool.false_ne_true]
    exact ⟨hdecl, hoff⟩

end Walk

theorem sueAnonextType_off (tdef : Option String) (anon : Bool) :
    sueAnonextType off tdef anon =
      if anon = true ∧ tdef = none then .allowC11 else .deny := by
  cases anon with
  | false => rfl
  | true =>
    cases tdef with
    | none => rfl
    | some t => rfl

/-- What is left of a member without a name. -/
theorem foldUnnamed_off (tdef : Option String) (anon : Bool) (ms : List (Member τ))
    (place : BitVec 32) :
    (Member.sue none tdef anon ms place).foldUnnamed off =
      if anon = true ∧ tdef = none then [.sue none tdef anon (folded ms) place] else [] := by
  rw [Member.foldUnnamed, sueAnonextType_off]
  rcases em (anon = true ∧ tdef = none) with h | h
  · rw [if_pos h, if_pos h]
  · rw [if_neg h, if_neg h]

mutual

theorem Member.finds_folded (spel : String) (e : BitVec 32) : ∀ m : Member τ,
    Finds spel (reach (m.foldUnnamed off)) e (sueMemberFind off spel (m.foldUnnamed off) e)
  | .plain (some sp) ref place => by
    have h := finds_named spel e (m := .plain (some sp) ref place) rfl
    simp only [Member.foldUnnamed, reach, Member.reach, List.append_nil]
    exact Finds.single h
  | .plain none ref place => by
    simp only [Member.foldUnnamed, reach, Member.reach, List.append_nil]
    exact Finds.single ⟨rfl, rfl⟩
  | .sue (some sp) tdef anon ms place => by
    have h := finds_named spel e
      (m := .sue (some sp) tdef anon (folded ms) place) rfl
    simp only [Member.foldUnnamed, reach, Member.reach, List.append_nil]
    exact Finds.single h
  | .sue none tdef anon ms place => by
    have ih := (foldSueMembers_finds spel e ms).inside (folded ms) place
    rw [foldUnnamed_off]
    split
    · rename_i hanon
      obtain ⟨rfl, rfl⟩ := hanon
      simp only [reach, Member.reach, List.append_nil, and_self, if_true]
      exact Finds.single ih
    · simp only [reach]
      exact finds_nil spel e

theorem foldSueMembers_finds (spel : String) (e : BitVec 32) : ∀ ms : List (Member τ),
    Finds spel (reach (folded ms)) e (sueMemberFind off spel (folded ms) e)
  | [] => by
    simp only [folded, foldSueMembers, reach]
    exact finds_nil spel e
  | m :: ms => by
    have hm := Member.finds_folded spel e m
    have hms := foldSueMembers_finds spel e ms
    rw [folded_cons, reach_append]
    exact hm.append hms

end

/-! ## The names -/

mutual

theorem Member.getDecls_names : ∀ m : Member τ,
    (m.getDecls off).map Member.spel = (reach (m.foldUnnamed off)).map fun p => p.1.spel
  | .plain (some sp) ref place => by simp [Member.getDecls, Member.foldUnnamed, reach, Member.reach]
  | .plain none ref place => by simp [Member.getDecls, Member.foldUnnamed, reach, Member.reach]
  | .sue (some sp) tdef anon ms place => by
    simp [Member.getDecls, Member.foldUnnamed, reach, Member.reach, Member.spel]
  | .sue none tdef anon ms place => by
    have ih := sueGetDecls_names ms
    rw [foldUnnamed_off, Member.getDecls, sueAnonextType_off]
    rcases em (anon = true ∧ tdef = none) with h | h
    · simp only [if_pos h, reach, Member.reach, List.append_nil, List.map_map]
      exact ih
    · simp only [if_neg h, reach, List.map_nil]

/-- The check for duplicates sees the names that can be reached. -/
theorem sueGetDecls_names : ∀ ms : List (Member τ),
    (sueGetDecls off ms).map Member.spel = (reach (folded ms)).map fun p => p.1.spel
  | [] => by simp [sueGetDecls, folded, foldSueMembers, reach]
  | m :: ms => by
    rw [sueGetDecls, folded_cons, reach_append, List.map_append, List.map_append,
      Member.getDecls_names m, sueGetDecls_names ms]

end

mutual

theorem Member.reach_named : ∀ m : Member τ, ∀ p ∈ m.reach, p.1.spel.isSome = true
  | .plain (some sp) ref place => by simp [Member.reach, Member.spel]
  | .plain none ref place => by simp [Member.reach]
  | .sue (some sp) tdef anon ms place => by simp [Member.reach, Member.spel]
  | .sue none tdef anon ms place => by
    rw [Member.reach]
    split
    · intro p hp
      obtain ⟨q, hq, rfl⟩ := List.mem_map.mp hp
      exact reach_named ms q hq
    · intro p hp
      cases hp

theorem reach_named : ∀ ms : List (Member τ), ∀ p ∈ reach ms, p.1.spel.isSome = true
  | [] => by simp [reach]
  | m :: ms => by
    intro p hp
    rw [reach, List.mem_append] at hp
    rcases hp with hp | hp
    · exact Member.reach_named m p hp
    · exact reach_named ms p hp

end

theorem sueGetDecls_named (ms : List (Member τ)) :
    ∀ m ∈ sueGetDecls off ms, m.spel.isSome = true := by
  intro m hm
  have hname : m.spel ∈ (sueGetDecls off ms).map Member.spel := List.mem_map_of_mem hm
  rw [sueGetDecls_names] at hname
  obtain ⟨p, hp, hpm⟩ := List.mem_map.mp hname
  rw [← hpm]
  exact reach_named _ p hp

theorem declSpelCmp_consistent (xs : List (Member τ)) : Consistent declSpelCmp xs where
  swap a _ b _ := by
    unfold declSpelCmp
    rw [← Std.OrientedCmp.eq_swap]
  trans a _ b _ c _ hab hbc := by
    unfold declSpelCmp at hab hbc ⊢
    exact Std.TransCmp.isLE_trans hab hbc

theorem declSpelCmp_eq_iff {a b : Member τ} (ha : a.spel.isSome = true) (hb : b.spel.isSome = true) :
    declSpelCmp a b = .eq ↔ a.spel = b.spel := by
  obtain ⟨x, hx⟩ := Option.isSome_iff_exists.mp ha
  obtain ⟨y, hy⟩ := Option.isSome_iff_exists.mp hb
  unfold declSpelCmp
  rw [hx, hy, Std.LawfulEqCmp.compare_eq_iff_eq]
  simp

/-- Sorting brings equal names together. -/
theorem dupErrors_iff (ms decls : List (Member τ))
    (hsort : Sorts declSpelCmp (sueGetDecls off ms) decls) :
    dupErrors decls ≠ [] ↔ ¬ ((reach (folded ms)).map fun p => p.1.spel).Nodup := by
  obtain ⟨hperm, hsorted⟩ := hsort (declSpelCmp_consistent _)
  have hnamed : ∀ m ∈ decls, m.spel.isSome = true := fun m hm =>
    sueGetDecls_named ms m (hperm.mem_iff.mp hm)
  have hfound : dupErrors decls ≠ [] ↔ ∃ p ∈ neighbours decls, declSpelCmp p.1 p.2 = .eq := by
    unfold dupErrors
    rw [ne_eq, List.filter_eq_nil_iff]
    push Not
    simp only [decide_eq_true_eq]
  rw [hfound, equal_neighbours_iff (declSpelCmp_consistent _) hsorted, not_iff_not,
    ← sueGetDecls_names, ← (hperm.map Member.spel).nodup_iff, List.Nodup, List.pairwise_map]
  refine ⟨fun h => ?_, fun h => ?_⟩
  · refine h.imp_of_mem fun ha hb hne heq => ?_
    exact hne ((declSpelCmp_eq_iff (hnamed _ ha) (hnamed _ hb)).mpr heq)
  · refine h.imp_of_mem fun ha hb hne heq => ?_
    exact hne ((declSpelCmp_eq_iff (hnamed _ ha) (hnamed _ hb)).mp heq)

/-! ## Looking up -/

theorem find_some_of_reachNamed {ms : List (Member τ)} {spel : String} {p : Member τ × Nat}
    (h : reachNamed ms spel = some p) (e : BitVec 32) :
    (sueMemberFind off spel (folded ms) e).decl = some (.member p.1) ∧
      structOffset p.1 (sueMemberFind off spel (folded ms) e).extraOff =
        e + BitVec.ofNat 32 p.2 := by
  have hfinds := foldSueMembers_finds spel e ms
  unfold Finds at hfinds
  unfold reachNamed at h
  rwa [h] at hfinds

theorem find_none_of_reachNamed {ms : List (Member τ)} {spel : String}
    (h : reachNamed ms spel = none) (e : BitVec 32) :
    (sueMemberFind off spel (folded ms) e).decl = none ∧
      (sueMemberFind off spel (folded ms) e).extraOff = e := by
  have hfinds := foldSueMembers_finds spel e ms
  unfold Finds at hfinds
  unfold reachNamed at h
  rwa [h] at hfinds

theorem structOffset_toNat {ms : List (Member τ)} {spel : String} {p : Member τ × Nat}
    (h : reachNamed ms spel = some p) :
    (structOffset p.1 (sueMemberFind off spel (folded ms) 0).extraOff).toNat = p.2 % 2 ^ 32 := by
  have hzero : (0 : BitVec 32) = 0#32 := rfl
  rw [(find_some_of_reachNamed h 0).2, hzero, BitVec.zero_add, BitVec.toNat_ofNat]

/-- A look-up is right exactly where the offset of what it finds is an `unsigned`. -/
theorem member_lookup_iff (ms : List (Member τ)) (spel : String) :
    LookupRight ms spel ↔ ∀ p, reachNamed ms spel = some p → p.2 < 2 ^ 32 := by
  constructor
  · intro h p hp
    obtain ⟨q, hq, -, -, hoff⟩ := h.offset _ (find_some_of_reachNamed hp 0).1
    rw [hp] at hq
    obtain rfl := Option.some.inj hq
    rw [structOffset_toNat hp] at hoff
    exact hoff ▸ Nat.mod_lt _ (by decide)
  · intro hfits
    refine ⟨?_, fun d hd => ?_, fun e he => ?_, dupErrors_iff ms⟩
    · cases hr : reachNamed ms spel with
      | none =>
        rw [(find_none_of_reachNamed hr 0).1]
        refine iff_of_false Bool.false_ne_true ?_
        simpa using List.find?_eq_none.mp hr
      | some p =>
        rw [(find_some_of_reachNamed hr 0).1]
        exact iff_of_true rfl ⟨p, List.mem_of_find?_eq_some hr, by
          simpa using List.find?_some hr⟩
    · cases hr : reachNamed ms spel with
      | none =>
        rw [(find_none_of_reachNamed hr 0).1] at hd
        cases hd
      | some p =>
        rw [(find_some_of_reachNamed hr 0).1] at hd
        refine ⟨p, rfl, (Option.some.inj hd).symm, by simpa using List.find?_some hr, ?_⟩
        rw [structOffset_toNat hr]
        exact Nat.mod_eq_of_lt (hfits p hr)
    · cases hr : reachNamed ms spel with
      | none => exact (find_none_of_reachNamed hr e).2
      | some p =>
        rw [(find_some_of_reachNamed hr e).1] at he
        cases he

/-- `struct { char a[3 << 30]; struct { char b[2 << 30]; int c; }; }`, with the sizes of
the arrays in `unsigned`. -/
def hugeStruct : List (Member Unit) :=
  [.plain (some "a") () 0,
    .sue none none true [.plain (some "b") () 0, .plain (some "c") () 0x80000000#32] 0xc0000000#32]

/-- The offset of `c` is 5 GiB, and 1 GiB is found. -/
theorem huge_offset_wraps :
    (reachNamed hugeStruct "c").map Prod.snd = some 0x140000000 ∧
      (structOffset (.plain (some "c") () 0x80000000#32)
        (sueMemberFind off "c" (folded hugeStruct) 0).extraOff).toNat = 0x40000000 ∧
      ¬ LookupRight hugeStruct "c" := by
  have hreach : reachNamed hugeStruct "c" =
      some (.plain (some "c") () 0x80000000#32, 0x140000000) := rfl
  refine ⟨by rw [hreach]; rfl, ?_, fun h => ?_⟩
  · exact structOffset_toNat hreach
  · obtain ⟨p, hp, -, -, hoff⟩ := h.offset _ (find_some_of_reachNamed hreach 0).1
    rw [structOffset_toNat hp] at hoff
    rw [hreach] at hp
    obtain rfl := Option.some.inj hp
    revert hoff
    decide

end Ucc.Cc1.Members
