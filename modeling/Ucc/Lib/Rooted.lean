/-
  Lib/Rooted.lean --- rooted trees that are given by the parents of their nodes.

  A node knows its parent only, as in a table of nested scopes.  `path` lists a
  node and its ancestors, from the node to the root; the lowest common ancestor
  of two nodes is where the one path first meets the other.
-/
import Mathlib.Data.List.Nodup
import Mathlib.Data.List.Infix

set_option autoImplicit false

namespace Ucc.Lib

/-- Nodes with one parent each, the root apart.  A parent is less deep than its
children, so that no node is its own ancestor. -/
structure Rooted (σ : Type) where
  root : σ
  parent : σ → Option σ
  depth : σ → Nat
  depth_parent : ∀ s p, parent s = some p → depth p < depth s
  eq_root : ∀ s, parent s = none → s = root
  parent_root : parent root = none

namespace Rooted

variable {σ : Type} (t : Rooted σ)

/-- The walk from a node to its parents, for as many steps as there is fuel. -/
def walkUp : Nat → σ → List σ
  | 0, s => [s]
  | fuel + 1, s =>
      s :: match t.parent s with
        | none => []
        | some p => walkUp fuel p

/-- A node and its ancestors, the root last. -/
def path (s : σ) : List σ :=
  t.walkUp (t.depth s) s

/-- What holds of a node if it holds of its parent holds of every node. -/
theorem parentInduction {P : σ → Prop}
    (step : ∀ s, (∀ p, t.parent s = some p → P p) → P s) (s : σ) : P s := by
  induction hd : t.depth s using Nat.strong_induction_on generalizing s with
  | _ d ih =>
    apply step
    intro p hp
    exact ih (t.depth p) (hd ▸ t.depth_parent s p hp) p rfl

/-- Fuel beyond the depth changes nothing. -/
theorem walkUp_eq_path (s : σ) : ∀ fuel, t.depth s ≤ fuel → t.walkUp fuel s = t.path s := by
  induction s using t.parentInduction with
  | step s ih =>
    intro fuel hfuel
    unfold path
    cases hp : t.parent s with
    | none => cases fuel <;> cases t.depth s <;> simp [walkUp, hp]
    | some p =>
      have hlt := t.depth_parent s p hp
      obtain ⟨fuel, rfl⟩ : ∃ n, fuel = n + 1 := ⟨fuel - 1, by omega⟩
      obtain ⟨d, hd⟩ : ∃ d, t.depth s = d + 1 := ⟨t.depth s - 1, by omega⟩
      rw [hd]
      simp only [walkUp, hp]
      rw [ih p hp fuel (by omega), ih p hp d (by omega)]

theorem path_of_none {s : σ} (hp : t.parent s = none) : t.path s = [s] := by
  unfold path
  cases t.depth s <;> simp [walkUp, hp]

theorem path_of_some {s p : σ} (hp : t.parent s = some p) : t.path s = s :: t.path p := by
  have hlt := t.depth_parent s p hp
  obtain ⟨d, hd⟩ : ∃ d, t.depth s = d + 1 := ⟨t.depth s - 1, by omega⟩
  have hfuel := t.walkUp_eq_path p d (by omega)
  unfold path at hfuel ⊢
  rw [hd]
  simp only [walkUp, hp, hfuel]

theorem self_mem_path (s : σ) : s ∈ t.path s := by
  cases hp : t.parent s with
  | none => simp [t.path_of_none hp]
  | some p => simp [t.path_of_some hp]

/-- The path of an ancestor is the end of the path. -/
theorem path_suffix {a s : σ} (ha : a ∈ t.path s) : t.path a <:+ t.path s := by
  induction s using t.parentInduction with
  | step s ih =>
    cases hp : t.parent s with
    | none =>
      rw [t.path_of_none hp, List.mem_singleton] at ha
      rw [ha]
    | some p =>
      rw [t.path_of_some hp, List.mem_cons] at ha
      obtain rfl | ha := ha
      · exact List.suffix_rfl
      · rw [t.path_of_some hp]
        exact (ih p hp ha).trans (List.suffix_cons s _)

/-- An ancestor is no deeper. -/
theorem depth_le_of_mem_path {a s : σ} (ha : a ∈ t.path s) : t.depth a ≤ t.depth s := by
  induction s using t.parentInduction with
  | step s ih =>
    cases hp : t.parent s with
    | none =>
      rw [t.path_of_none hp, List.mem_singleton] at ha
      rw [ha]
    | some p =>
      rw [t.path_of_some hp, List.mem_cons] at ha
      obtain rfl | ha := ha
      · exact le_rfl
      · exact (ih p hp ha).trans (t.depth_parent s p hp).le

theorem path_nodup (s : σ) : (t.path s).Nodup := by
  induction s using t.parentInduction with
  | step s ih =>
    cases hp : t.parent s with
    | none => simp [t.path_of_none hp]
    | some p =>
      rw [t.path_of_some hp, List.nodup_cons]
      refine ⟨fun hs => ?_, ih p hp⟩
      have hle := t.depth_le_of_mem_path hs
      have hlt := t.depth_parent s p hp
      omega

theorem root_mem_path (s : σ) : t.root ∈ t.path s := by
  induction s using t.parentInduction with
  | step s ih =>
    cases hp : t.parent s with
    | none => rw [t.path_of_none hp, t.eq_root s hp, List.mem_singleton]
    | some p => simp [t.path_of_some hp, ih p hp]

/-- The last node of a path is the root. -/
theorem getLast?_path (s : σ) : (t.path s).getLast? = some t.root := by
  induction s using t.parentInduction with
  | step s ih =>
    cases hp : t.parent s with
    | none => rw [t.path_of_none hp, t.eq_root s hp, List.getLast?_singleton]
    | some p => rw [t.path_of_some hp, List.getLast?_cons, ih p hp, Option.getD_some]

/-- A common ancestor of `a` and `b` of which every other one is an ancestor. -/
structure IsLca (c a b : σ) : Prop where
  left : c ∈ t.path a
  right : c ∈ t.path b
  lowest : ∀ d, d ∈ t.path a → d ∈ t.path b → d ∈ t.path c

/-- The path from `a` enters the path from `b` at the lowest common ancestor, and
stays on it. -/
theorem exists_lca (a b : σ) :
    ∃ c below, t.IsLca c a b ∧ t.path a = below ++ t.path c ∧ ∀ s ∈ below, s ∉ t.path b := by
  induction a using t.parentInduction with
  | step a ih =>
    by_cases ha : a ∈ t.path b
    · exact ⟨a, [], ⟨t.self_mem_path a, ha, fun d hd _ => hd⟩, rfl, by simp⟩
    · cases hp : t.parent a with
      | none => exact absurd (t.eq_root a hp ▸ t.root_mem_path b) ha
      | some p =>
        obtain ⟨c, below, hlca, hpath, hbelow⟩ := ih p hp
        refine ⟨c, a :: below, ⟨?_, hlca.right, ?_⟩, ?_, ?_⟩
        · rw [t.path_of_some hp]
          exact List.mem_cons_of_mem a hlca.left
        · intro d hda hdb
          rw [t.path_of_some hp, List.mem_cons] at hda
          obtain rfl | hda := hda
          · exact absurd hdb ha
          · exact hlca.lowest d hda hdb
        · rw [t.path_of_some hp, hpath, List.cons_append]
        · intro s hs
          obtain rfl | hs := List.mem_cons.1 hs
          · exact ha
          · exact hbelow s hs

end Rooted

end Ucc.Lib
