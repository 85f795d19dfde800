/-
  Cc1/SwitchDupsStored.lean --- duplicate cases whose constants are stored as they are.

  Source: fold_switch_dups in src/cc1/ops/stmt_switch.c, numeric_cmp in
  src/cc1/num.c.

  Where the constants of a switch are stored as the numbers that they are, what the check
  for duplicates misses, and what it reports without need, comes from two things: starts
  of both halves of the type that are spelt with a `u`, and, in an unsigned type of 64
  bits, ranges from one half to the other.
-/
import Ucc.Cc1.SwitchDups

set_option autoImplicit false

namespace Ucc.Cc1.SwitchDups

open Ucc.Lib Ucc.Cc1.Out

/-! ## The condition -/

/-- A start with a `u` that is not negative as a signed number, and one that is:
`numeric_cmp` puts them the other way round than the comparison of neighbours. -/
def Opposed (vals : List SwitchVal) : Prop :=
  ∃ a ∈ vals, ∃ b ∈ vals, Spelt a ∧ Spelt b ∧ 0 ≤ first a ∧ first b < 0

/-- A range from below `2 ^ 63` to there or above: as signed numbers it ends before it
starts. -/
def Straddles (v : SwitchVal) : Prop := 0 ≤ first v ∧ last v < 0

/-- A case that starts in another, where the comparison finds it: both start in one half
of the type, in which the first one ends; of two that start together, both end there. -/
structure Seen (opposed : Prop) (p q : SwitchVal) : Prop where
  le : first p ≤ first q
  reach : first q ≤ last p
  half : first p < 0 ↔ first q < 0
  stays : first p < 0 ↔ last p < 0
  together : first p = first q → (first q < 0 ↔ last q < 0)
  /-- Starts of both halves with a `u` come between those with and without one. -/
  spelt : opposed → (Spelt p ↔ Spelt q)

/-- The last start with a `u` below `2 ^ 63` is that of a range which reaches a start with
a `u` from there on, or may be that of one which ends below. -/
def LastReaches (vals : List SwitchVal) : Prop :=
  ∀ x ∈ vals, Spelt x → Straddles x →
    (∀ y ∈ vals, Spelt y → 0 ≤ first y → first y ≤ first x ∧ (first y = first x → Straddles y)) →
    ∃ z ∈ vals, Spelt z ∧ first z < 0 ∧ first z ≤ last x

/-- The condition in an unsigned type of 64 bits. -/
def SeenRight (vals : List SwitchVal) (disjoint : Prop) : Prop :=
  (disjoint → Opposed vals → ∃ x ∈ vals, Spelt x ∧ Straddles x) ∧
  (¬ disjoint → (¬ vals.Pairwise fun p q => ¬ Seen (Opposed vals) p q ∧ ¬ Seen (Opposed vals) q p) ∨
    (Opposed vals ∧ LastReaches vals))

/-- The constants of a case are stored as the numbers that they are, and it has a
value. -/
def Case.Stored {w : Width} {s : Bool} (c : Case w s) : Prop :=
  c.val.start.val = stored c.lo ∧ c.val.stop.val = stored c.hi ∧ c.lo ≤ c.hi

/-- When the check is exact on such cases. -/
def StoredRight {w : Width} {s : Bool} (cases : List (Case w s)) : Prop :=
  Consistent cmpStart (cases.map Case.val) ∧
    if s = false ∧ w = .w64 then SeenRight (cases.map Case.val) (Disjoint cases)
    else Disjoint cases → ¬ Opposed (cases.map Case.val)

/-! ## The order of neighbours -/

section Sorted

variable {L vals : List SwitchVal}

/-- A start that is put before a smaller one. -/
theorem Le.of_lt {a b : SwitchVal} (h : Le a b) (hlt : first b < first a) :
    Spelt a ∧ Spelt b ∧ 0 ≤ first a ∧ first b < 0 :=
  h.cases.resolve_left (not_le.mpr hlt)

/-- Between starts of both halves with a `u` there are neighbours of that kind. -/
theorem Opposed.exists_neighbours (hopp : Opposed vals) (hsorted : vals.Pairwise Le) :
    ∃ x y, (x, y) ∈ neighbours vals ∧ Spelt x ∧ Spelt y ∧ 0 ≤ first x ∧ first y < 0 := by
  obtain ⟨a, ha, b, hb, hsa, hsb, hlo, hhi⟩ := hopp
  have hne : a ≠ b := fun h => by
    rw [h] at hlo
    omega
  have hsub : [a, b].Sublist vals := by
    refine (sublist_or_sublist ha hb hne).resolve_right fun hba => ?_
    have := (le_of_spelt hsb hsa).mp (le_of_sublist hsorted hba)
    omega
  obtain ⟨x, y, hxy, hx, hy⟩ := exists_change (P := fun v => 0 ≤ first v) hsub hlo (not_le.mpr hhi)
  have hle := le_of_sublist hsorted (sublist_of_neighbours hxy)
  have hy := not_le.mp hy
  obtain ⟨hsx, hsy, -⟩ := hle.of_lt (hy.trans_le hx)
  exact ⟨x, y, hxy, hsx, hsy, hx, hy⟩

theorem Opposed.perm (hopp : Opposed L) (hperm : vals.Perm L) : Opposed vals := by
  obtain ⟨a, ha, b, hb, h⟩ := hopp
  exact ⟨a, hperm.mem_iff.mpr ha, b, hperm.mem_iff.mpr hb, h⟩

end Sorted

/-! ## Signed numbers -/

section Signed

variable {L vals : List SwitchVal}

/-- Two ranges of signed numbers have nothing in common. -/
def Apart (a b : SwitchVal) : Prop := ¬ (first a ≤ last b ∧ first b ≤ last a)

theorem Apart.symm {a b : SwitchVal} (h : Apart a b) : Apart b a := fun hba => h hba.symm

/-- Starts of both halves with a `u` are reported. -/
theorem Quiet.not_opposed (hquiet : Quiet vals) (hsorted : vals.Pairwise Le)
    (hle : ∀ v ∈ vals, first v ≤ last v) : ¬ Opposed vals := by
  intro hopp
  obtain ⟨x, y, hxy, -, -, hx, hy⟩ := hopp.exists_neighbours hsorted
  have hmem : x ∈ vals := (sublist_of_neighbours hxy).subset List.mem_cons_self
  have hgap : last x < first y := hquiet (x, y) hxy
  have := hle x hmem
  omega

/-- In signed numbers, what is reported is what intersects, and that. -/
theorem quiet_iff (hsorted : vals.Pairwise Le) (hle : ∀ v ∈ vals, first v ≤ last v) :
    Quiet vals ↔ vals.Pairwise Apart ∧ ¬ Opposed vals := by
  rw [List.pairwise_iff_forall_sublist] at hsorted ⊢
  have hrise : ∀ a b, ¬ Opposed vals → [a, b].Sublist vals → first a ≤ first b := by
    intro a b hopp hab
    refine (hsorted hab).cases.resolve_right fun hhalves => hopp ?_
    exact ⟨a, hab.subset (by simp), b, hab.subset (by simp), hhalves⟩
  constructor
  · intro hquiet
    have hopp := hquiet.not_opposed (List.pairwise_iff_forall_sublist.mpr hsorted) hle
    refine ⟨fun {a b} hab hmeet => ?_, hopp⟩
    obtain ⟨c, hac, hcb⟩ := exists_next hab
    have hgap : last a < first c := hquiet (a, c) hac
    have hcb : first c ≤ first b := by
      rcases hcb with rfl | hcb
      · exact le_refl _
      · exact hrise c b hopp hcb
    omega
  · rintro ⟨hapart, hopp⟩ ⟨a, b⟩ hab
    have hab := sublist_of_neighbours hab
    have := hrise a b hopp hab
    have hb := hle b (hab.subset (by simp))
    refine not_le.mp fun hmeet => hapart hab ⟨this.trans hb, hmeet⟩

/-- Sorted as they are, the cases are checked right exactly if none of both halves with a
`u` are there where nothing intersects. -/
theorem listExact_signed_iff (hle : ∀ v ∈ L, first v ≤ last v) :
    ListExact L (L.Pairwise Apart) ↔
      Consistent cmpStart L ∧ (L.Pairwise Apart → ¬ Opposed L) := by
  have hvals : ∀ vals, vals.Perm L → vals.Pairwise Le →
      (Quiet vals ↔ L.Pairwise Apart ∧ ¬ Opposed L) := by
    intro vals hperm hsorted
    have hopp : Opposed vals ↔ Opposed L := ⟨fun h => h.perm hperm.symm, fun h => h.perm hperm⟩
    rw [quiet_iff hsorted fun v hv => hle v (hperm.mem_iff.mp hv), hopp,
      hperm.pairwise_iff fun {a b} h => h.symm]
  constructor
  · intro hexact
    have hcon := hexact.consistent
    refine ⟨hcon, fun hdisj => ?_⟩
    obtain ⟨vals, hperm, hsorted⟩ := exists_sorted hcon
    have := (listExact_iff hcon).mp hexact vals hperm hsorted
    exact ((hvals vals hperm hsorted).mp (this.mpr hdisj)).2
  · rintro ⟨hcon, hopp⟩
    refine (listExact_iff hcon).mpr fun vals hperm hsorted => ?_
    rw [hvals vals hperm hsorted]
    exact and_iff_left_of_imp hopp

end Signed

/-! ## Unsigned numbers of 64 bits -/

section Unsigned

variable {L vals : List SwitchVal}

/-- The number of which this is the signed reading. -/
def unsign (x : Int) : Int := if x < 0 then x + 2 ^ 64 else x

/-- Two ranges of unsigned numbers have nothing in common. -/
def ApartU (a b : SwitchVal) : Prop :=
  ¬ (unsign (first a) ≤ unsign (last b) ∧ unsign (first b) ≤ unsign (last a))

theorem ApartU.symm {a b : SwitchVal} (h : ApartU a b) : ApartU b a := fun hba => h hba.symm

/-- A range that is not empty: it straddles, or goes up in one half. -/
def Rising (v : SwitchVal) : Prop := Straddles v ∨ ((first v < 0 ↔ last v < 0) ∧ first v ≤ last v)

theorem unsign_le_iff {x y : Int} (hx : -2 ^ 63 ≤ x ∧ x < 2 ^ 63) (hy : -2 ^ 63 ≤ y ∧ y < 2 ^ 63) :
    unsign x ≤ unsign y ↔ (0 ≤ x ∧ y < 0) ∨ ((x < 0 ↔ y < 0) ∧ x ≤ y) := by
  unfold unsign
  split <;> split <;> omega

/-- What is apart and in order, the comparison finds apart. -/
theorem ApartU.last_lt {a b : SwitchVal} (h : ApartU a b) (ha : Rising a) (hb : Rising b)
    (hab : first a ≤ first b) : last a < first b := by
  rw [ApartU, unsign_le_iff (first_bounds a) (last_bounds b),
    unsign_le_iff (first_bounds b) (last_bounds a)] at h
  unfold Rising Straddles at ha hb
  omega

/-- Also from the end of a range that straddles to a start in the upper half. -/
theorem ApartU.last_lt_of_straddles {a b : SwitchVal} (h : ApartU a b) (ha : Straddles a)
    (hb : Rising b) (hhi : first b < 0) : last a < first b := by
  rw [ApartU, unsign_le_iff (first_bounds a) (last_bounds b),
    unsign_le_iff (first_bounds b) (last_bounds a)] at h
  unfold Rising Straddles at *
  omega

/-- A range that straddles has all the starts above its own in its lower half. -/
theorem ApartU.lt_of_straddles {x a : SwitchVal} (h : ApartU x a) (hx : Straddles x)
    (ha : Rising a) (hlo : 0 ≤ first a) : first a < first x := by
  rw [ApartU, unsign_le_iff (first_bounds x) (last_bounds a),
    unsign_le_iff (first_bounds a) (last_bounds x)] at h
  unfold Rising Straddles at *
  omega

/-- Where nothing is reported between the halves, a range straddles. -/
theorem Quiet.exists_straddles (hquiet : Quiet vals) (hsorted : vals.Pairwise Le)
    (hopp : Opposed vals) :
    ∃ x y, (x, y) ∈ neighbours vals ∧ Spelt x ∧ Spelt y ∧ Straddles x ∧ first y < 0 ∧
      last x < first y := by
  obtain ⟨x, y, hxy, hsx, hsy, hlo, hhi⟩ := hopp.exists_neighbours hsorted
  have hgap : last x < first y := hquiet (x, y) hxy
  exact ⟨x, y, hxy, hsx, hsy, ⟨hlo, hgap.trans hhi⟩, hhi, hgap⟩

/-- Nothing is reported of cases that are apart, if a range with a `u` straddles where
starts of both halves have one. -/
theorem quiet_of_apart (hsorted : vals.Pairwise Le) (hrising : ∀ v ∈ vals, Rising v)
    (hapart : vals.Pairwise ApartU) (hopp : Opposed vals → ∃ x ∈ vals, Spelt x ∧ Straddles x) :
    Quiet vals := by
  rintro ⟨a, b⟩ hab
  have hsub := sublist_of_neighbours hab
  have ha : a ∈ vals := hsub.subset (by simp)
  have hb : b ∈ vals := hsub.subset (by simp)
  have hle := le_of_sublist hsorted hsub
  have hapab := List.pairwise_iff_forall_sublist.mp hapart hsub
  rcases hle.cases with hle | ⟨hsa, hsb, hlo, hhi⟩
  · exact hapab.last_lt (hrising a ha) (hrising b hb) hle
  · obtain ⟨x, hx, hsx, hstr⟩ := hopp ⟨a, ha, b, hb, hsa, hsb, hlo, hhi⟩
    -- no start of the lower half comes after that of the range that straddles
    rcases outside_neighbours hab hx with (hxa | rfl) | rfl | hbx
    · have hlexa := (le_of_spelt hsx hsa).mp (le_of_sublist hsorted hxa)
      have hlt := (List.pairwise_iff_forall_sublist.mp hapart hxa).lt_of_straddles hstr
        (hrising a ha) hlo
      unfold Straddles at hstr
      omega
    · exact hapab.last_lt_of_straddles hstr (hrising b hb) hhi
    · exact absurd hstr.1 (not_le.mpr hhi)
    · have hlebx := (le_of_spelt hsb hsx).mp (le_of_sublist hsorted hbx)
      unfold Straddles at hstr
      omega

/-! What is reported -/

/-- Of a case that starts in an earlier one of its half. -/
theorem Quiet.last_lt (hquiet : Quiet vals) (hsorted : vals.Pairwise Le) {p q : SwitchVal}
    (hpq : [p, q].Sublist vals) (hle : first p ≤ first q) (hhalf : first p < 0 ↔ first q < 0)
    (hspelt : Opposed vals → (Spelt p ↔ Spelt q)) : last p < first q := by
  rw [List.pairwise_iff_forall_sublist] at hsorted
  obtain ⟨c, hpc, hcq⟩ := exists_next hpq
  have hgap : last p < first c := hquiet (p, c) hpc
  rcases hcq with rfl | hcq
  · exact hgap
  · rcases (hsorted hcq).cases with hle' | ⟨hsc, hsq, hlo, hhi⟩
    · exact hgap.trans_le hle'
    · -- then `p` is in the upper half with a `u`, and before `c` in the lower
      have hopp : Opposed vals :=
        ⟨c, hcq.subset (by simp), q, hcq.subset (by simp), hsc, hsq, hlo, hhi⟩
      have hsp := (hspelt hopp).mpr hsq
      have := (le_of_spelt hsp hsc).mp (hsorted (sublist_of_neighbours hpc))
      omega

/-- A case that is seen is reported. -/
theorem Quiet.not_seen (hquiet : Quiet vals) (hsorted : vals.Pairwise Le)
    (hrising : ∀ v ∈ vals, Rising v) {p q : SwitchVal}
    (hsub : [p, q].Sublist vals ∨ [q, p].Sublist vals) : ¬ Seen (Opposed vals) p q := by
  intro hseen
  rcases hsub with hpq | hqp
  · have := hquiet.last_lt hsorted hpq hseen.le hseen.half hseen.spelt
    have := hseen.reach
    omega
  · have hle := (le_of_sublist hsorted hqp).cases
    have heq : first p = first q := by
      have := hseen.le
      have := hseen.half
      omega
    have hgap := hquiet.last_lt hsorted hqp heq.ge hseen.half.symm fun h => (hseen.spelt h).symm
    have hq := hrising q (hqp.subset (by simp))
    have := hseen.together heq
    unfold Rising Straddles at hq
    omega

/-- A last start of the lower half that reaches the upper is reported. -/
theorem Quiet.not_lastReaches (hquiet : Quiet vals) (hsorted : vals.Pairwise Le)
    (hrising : ∀ v ∈ vals, Rising v) (hopp : Opposed vals) : ¬ LastReaches vals := by
  intro hlast
  obtain ⟨x, y, hxy, hsx, hsy, hstr, hhi, hgap⟩ := hquiet.exists_straddles hsorted hopp
  have hlesub : ∀ {a b}, [a, b].Sublist vals → Le a b := fun h =>
    le_of_sublist hsorted h
  have hmem := (sublist_of_neighbours hxy).subset
  obtain ⟨z, hz, hsz, hzhi, hreach⟩ := hlast x (hmem (by simp)) hsx hstr (by
    intro v hv hsv hvlo
    rcases outside_neighbours hxy hv with (hvx | rfl) | rfl | hyv
    · have hle := (le_of_spelt hsv hsx).mp (hlesub hvx)
      have hxlo := hstr.1
      refine ⟨by omega, fun heq => ?_⟩
      -- else the range of `v` ends before it starts
      have := hquiet.last_lt hsorted hvx heq.le (by rw [heq]) fun _ => iff_of_true hsv hsx
      have hrise := hrising v hv
      unfold Rising at hrise
      exact hrise.resolve_right (by omega)
    · exact ⟨le_refl _, fun _ => hstr⟩
    · omega
    · have := (le_of_spelt hsy hsv).mp (hlesub hyv)
      omega)
  -- `y` is the first start of the upper half
  rcases outside_neighbours hxy hz with (hzx | rfl) | rfl | hyz
  · have := (le_of_spelt hsz hsx).mp (hlesub hzx)
    have := hstr.1
    omega
  · have := hstr.1
    omega
  · omega
  · have := (le_of_spelt hsy hsz).mp (hlesub hyz)
    omega

/-! What need not be reported -/

/-- Of the cases that start together, those that straddle first, by where they end. -/
def straddleKey (v : SwitchVal) : Int := if last v < 0 then -last v else 2 ^ 64

/-- Starts of one half between which no other comes are both with a `u` or both without,
if there are starts of both halves with one. -/
theorem spelt_iff_of_neighbours (hcon : Consistent cmpStart vals) (hsorted : vals.Pairwise Le)
    {a b : SwitchVal} (hab : (a, b) ∈ neighbours vals) (hhalf : first a < 0 ↔ first b < 0)
    (hopp : Opposed vals) : Spelt a ↔ Spelt b := by
  obtain ⟨u, hu, v, hv, hsu, hsv, hlo, hhi⟩ := hopp
  have hsub := sublist_of_neighbours hab
  have ha : a ∈ vals := hsub.subset (by simp)
  have hb : b ∈ vals := hsub.subset (by simp)
  rw [List.pairwise_iff_forall_sublist] at hsorted
  have hle : Le a b := hsorted hsub
  have hout : ∀ x ∈ vals, Le x a ∨ x = a ∨ x = b ∨ Le b x := fun x hx => by
    rcases outside_neighbours hab hx with (hxa | hxa) | hxb | hbx
    · exact Or.inl (hsorted hxa)
    · exact Or.inr (Or.inl hxa)
    · exact Or.inr (Or.inr (Or.inl hxb))
    · exact Or.inr (Or.inr (Or.inr (hsorted hbx)))
  constructor
  · intro hsa
    by_contra hsb
    by_cases hneg : first a < 0
    · -- `u` is before `a`, and so before `b`
      have hua : Le u a := (le_of_spelt hsu hsa).mpr (Or.inl ⟨hlo, hneg⟩)
      have hub : Le u b := hcon.trans u hu a ha b hb hua hle
      have := (le_of_not_spelt (fun h => hsb h.2)).mp hub
      omega
    · -- `v` is between the two
      rcases hout v hv with hva | rfl | rfl | hbv
      · have := (le_of_spelt hsv hsa).mp hva
        omega
      · omega
      · exact hsb hsv
      · have := (le_of_not_spelt (fun h => hsb h.1)).mp hbv
        omega
  · intro hsb
    by_contra hsa
    by_cases hneg : first a < 0
    · -- `u` is between the two
      rcases hout u hu with hua | rfl | rfl | hbu
      · have := (le_of_not_spelt (fun h => hsa h.2)).mp hua
        omega
      · exact hsa hsu
      · omega
      · have := (le_of_spelt hsb hsu).mp hbu
        omega
    · -- `v` is before `a`, and so before `b`
      have hva : Le v a := (le_of_not_spelt (fun h => hsa h.2)).mpr (by omega)
      have hvb : Le v b := hcon.trans v hv a ha b hb hva hle
      have := (le_of_spelt hsv hsb).mp hvb
      omega

/-- In that order nothing is reported, if no case is seen and the last start of the lower
half does not reach the upper. -/
theorem quiet_of_unseen (hcon : Consistent cmpStart vals) (hle : vals.Pairwise Le)
    (hkeys : ∀ {a b}, [a, b].Sublist vals → first a = first b → straddleKey a ≤ straddleKey b)
    (hrising : ∀ v ∈ vals, Rising v)
    (hunseen : vals.Pairwise fun p q =>
      ¬ Seen (Opposed vals) p q ∧ ¬ Seen (Opposed vals) q p)
    (hlast : Opposed vals → ¬ LastReaches vals) : Quiet vals := by
  rintro ⟨a, b⟩ hab
  have hsub := sublist_of_neighbours hab
  have ha : a ∈ vals := hsub.subset (by simp)
  have hb : b ∈ vals := hsub.subset (by simp)
  have hra := hrising a ha
  have hrb := hrising b hb
  unfold Rising Straddles at hra hrb
  refine not_le.mp fun hmeet => ?_
  have hmeet : first b ≤ last a := hmeet
  rcases (le_of_sublist hle hsub).cases with hup | ⟨hsa, hsb, hlo, hhi⟩
  · -- `b` starts in `a`
    refine (List.pairwise_iff_forall_sublist.mp hunseen hsub).1 ?_
    have hhalf : first a < 0 ↔ first b < 0 := by omega
    refine ⟨hup, hmeet, hhalf, by omega, fun heq => ?_,
      spelt_iff_of_neighbours hcon hle hab hhalf⟩
    have hkey := hkeys hsub heq
    have hbb := last_bounds b
    unfold straddleKey at hkey
    split at hkey <;> split at hkey <;> omega
  · -- `a` is the last start of the lower half, and `b` the first of the upper
    refine hlast ⟨a, ha, b, hb, hsa, hsb, hlo, hhi⟩ fun x hx hsx hstr hmax => ?_
    refine ⟨b, hb, hsb, hhi, hmeet.trans ?_⟩
    have hstrx := hstr
    unfold Straddles at hstrx
    rcases outside_neighbours hab hx with (hxa | rfl) | rfl | hbx
    · have hxale := (le_of_spelt hsx hsa).mp (le_of_sublist hle hxa)
      obtain ⟨hax, hastr⟩ := hmax a ha hsa hlo
      have heq : first x = first a := by omega
      have hkey := hkeys hxa heq
      have hastr := (hastr heq.symm).2
      unfold straddleKey at hkey
      rw [if_pos hstr.2, if_pos hastr] at hkey
      omega
    · exact le_refl _
    · omega
    · have := (le_of_spelt hsb hsx).mp (le_of_sublist hle hbx)
      omega

/-- The case that is seen may be in any place. -/
theorem seen_perm (hperm : vals.Perm L) (opposed : Prop) :
    vals.Pairwise (fun p q => ¬ Seen opposed p q ∧ ¬ Seen opposed q p) ↔
      L.Pairwise fun p q => ¬ Seen opposed p q ∧ ¬ Seen opposed q p :=
  hperm.pairwise_iff fun h => h.symm

theorem LastReaches.perm (h : LastReaches L) (hperm : vals.Perm L) : LastReaches vals := by
  intro x hx hsx hstr hmax
  obtain ⟨z, hz, hreach⟩ := h x (hperm.mem_iff.mp hx) hsx hstr fun y hy =>
    hmax y (hperm.mem_iff.mpr hy)
  exact ⟨z, hperm.mem_iff.mpr hz, hreach⟩

theorem opposed_perm (hperm : vals.Perm L) : Opposed vals ↔ Opposed L :=
  ⟨fun h => h.perm hperm.symm, fun h => h.perm hperm⟩

/-- What the comparison of neighbours sees is what there is, exactly if the check is
right. -/
theorem listExact_unsigned_iff (hrising : ∀ v ∈ L, Rising v) :
    ListExact L (L.Pairwise ApartU) ↔
      Consistent cmpStart L ∧ SeenRight L (L.Pairwise ApartU) := by
  have hrise : ∀ {vals : List SwitchVal}, vals.Perm L → ∀ v ∈ vals, Rising v :=
    fun hperm v hv => hrising v (hperm.mem_iff.mp hv)
  constructor
  · intro hexact
    have hcon := hexact.consistent
    have hall := (listExact_iff hcon).mp hexact
    refine ⟨hcon, fun hdisj hopp => ?_, fun hmeet => ?_⟩
    · obtain ⟨vals, hperm, hsorted⟩ := exists_sorted hcon
      obtain ⟨x, y, hxy, hsx, -, hstr, -⟩ :=
        ((hall vals hperm hsorted).mpr hdisj).exists_straddles hsorted (hopp.perm hperm)
      have hx := (sublist_of_neighbours hxy).subset List.mem_cons_self
      exact ⟨x, hperm.mem_iff.mp hx, hsx, hstr⟩
    · by_contra hneither
      rw [not_or, not_not] at hneither
      obtain ⟨hunseen, hlast⟩ := hneither
      obtain ⟨vals, hperm, hle, hkeys⟩ := exists_sorted_last hcon straddleKey
      refine hmeet ((hall vals hperm hle).mp ?_)
      refine quiet_of_unseen (hcon.of_subset fun v hv => hperm.mem_iff.mp hv) hle hkeys
        (hrise hperm) ?_ fun hopp hreach => ?_
      · rw [opposed_perm hperm]
        exact (seen_perm hperm _).mpr hunseen
      · exact hlast ⟨(opposed_perm hperm).mp hopp, hreach.perm hperm.symm⟩
  · rintro ⟨hcon, hstr, hseen⟩
    refine (listExact_iff hcon).mpr fun vals hperm hsorted => ⟨fun hquiet => ?_, fun hdisj => ?_⟩
    · by_contra hmeet
      rcases hseen hmeet with hpair | ⟨hopp, hreach⟩
      · rw [← opposed_perm hperm, ← seen_perm hperm, List.pairwise_iff_forall_sublist] at hpair
        exact hpair fun hsub =>
          ⟨hquiet.not_seen hsorted (hrise hperm) (Or.inl hsub),
            hquiet.not_seen hsorted (hrise hperm) (Or.inr hsub)⟩
      · exact hquiet.not_lastReaches hsorted (hrise hperm) (hopp.perm hperm)
          (hreach.perm hperm)
    · refine quiet_of_apart hsorted (hrise hperm)
        ((hperm.pairwise_iff fun h => h.symm).mpr hdisj) fun hopp => ?_
      obtain ⟨x, hx, h⟩ := hstr hdisj ((opposed_perm hperm).mp hopp)
      exact ⟨x, hperm.mem_iff.mpr hx, h⟩

end Unsigned

/-! ## The check of such cases -/

section Cases

variable {w : Width} {s : Bool}

theorem intersect_iff {a b : Case w s} (ha : a.lo ≤ a.hi) (hb : b.lo ≤ b.hi) :
    Intersect a b ↔ a.lo ≤ b.hi ∧ b.lo ≤ a.hi := by
  constructor
  · rintro ⟨z, ⟨ha1, ha2⟩, hb1, hb2⟩
    omega
  · intro h
    exact ⟨max a.lo b.lo, ⟨by omega, by omega⟩, by omega, by omega⟩

theorem inRange_lo (c : Case w s) : InRange s w.bits c.lo :=
  inRange_readAs w.bits_pos s _

theorem inRange_hi (c : Case w s) : InRange s w.bits c.hi := by
  unfold Case.hi
  cases c.expr2 with
  | none => exact inRange_lo c
  | some k => exact inRange_wrap w.bits_pos s _

/-- `stored` holds a number of a type up to 64 bits as it is, or as its signed reading. -/
theorem toInt_stored (z : Int) (h : -2 ^ 63 ≤ z ∧ z < 2 ^ 64) :
    (stored z).toInt = if z < 2 ^ 63 then z else z - 2 ^ 64 := by
  unfold stored
  rw [BitVec.toInt_ofInt, Int.bmod_def]
  split <;> split <;> omega

theorem toInt_stored_of_inRange {z : Int} (h : InRange s w.bits z) :
    (stored z).toInt = if z < 2 ^ 63 then z else z - 2 ^ 64 := by
  refine toInt_stored z ?_
  cases w <;> cases s <;> simp [InRange, Width.bits] at h <;> omega

/-- Only unsigned numbers of 64 bits are not what their signed reading says. -/
theorem lt_of_inRange {z : Int} (hty : ¬ (s = false ∧ w = .w64)) (h : InRange s w.bits z) :
    z < 2 ^ 63 := by
  cases w <;> cases s <;> simp [InRange, Width.bits] at h hty ⊢ <;> omega

theorem unsign_toInt_stored {z : Int} (h : 0 ≤ z ∧ z < 2 ^ 64) :
    unsign (stored z).toInt = z := by
  rw [toInt_stored z (by omega), unsign]
  split <;> split <;> omega

theorem disjoint_iff {R : SwitchVal → SwitchVal → Prop} {cases : List (Case w s)}
    (h : ∀ a ∈ cases, ∀ b ∈ cases, ¬ Intersect a b ↔ R a.val b.val) :
    Disjoint cases ↔ (cases.map Case.val).Pairwise R := by
  unfold Disjoint
  rw [List.pairwise_map]
  exact ⟨fun hp => hp.imp_of_mem fun ha hb hr => (h _ ha _ hb).mp hr,
    fun hp => hp.imp_of_mem fun ha hb hr => (h _ ha _ hb).mpr hr⟩

/-- On constants that are stored as they are, the check is exact if the starts with a `u`
are in one half of the type where no two cases intersect; in an unsigned type of 64 bits
the ranges across the halves count too. -/
theorem dupsExact_stored_iff (cases : List (Case w s)) (hstored : ∀ c ∈ cases, c.Stored) :
    DupsExact cases ↔ StoredRight cases := by
  unfold StoredRight
  split
  · rename_i hty
    obtain ⟨rfl, rfl⟩ := hty
    have hread : ∀ c ∈ cases, unsign (first c.val) = c.lo ∧ unsign (last c.val) = c.hi := by
      intro c hc
      obtain ⟨hlo, hhi, -⟩ := hstored c hc
      unfold first last
      rw [hlo, hhi]
      exact ⟨unsign_toInt_stored (inRange_lo c), unsign_toInt_stored (inRange_hi c)⟩
    have hapart : ∀ a ∈ cases, ∀ b ∈ cases, ¬ Intersect a b ↔ ApartU a.val b.val := by
      intro a ha b hb
      unfold ApartU
      rw [intersect_iff (hstored a ha).2.2 (hstored b hb).2.2, (hread a ha).1, (hread a ha).2,
        (hread b hb).1, (hread b hb).2]
    rw [disjoint_iff hapart, ← listExact_unsigned_iff, ← disjoint_iff hapart]
    · exact Iff.rfl
    · intro v hv
      obtain ⟨c, hc, rfl⟩ := List.mem_map.mp hv
      have hle := (hstored c hc).2.2
      rw [← (hread c hc).1, ← (hread c hc).2, unsign_le_iff (first_bounds _) (last_bounds _)] at hle
      exact hle
  · rename_i hty
    have hread : ∀ c ∈ cases, first c.val = c.lo ∧ last c.val = c.hi := by
      intro c hc
      obtain ⟨hlo, hhi, -⟩ := hstored c hc
      unfold first last
      rw [hlo, hhi, toInt_stored_of_inRange (inRange_lo c), toInt_stored_of_inRange (inRange_hi c),
        if_pos (lt_of_inRange hty (inRange_lo c)), if_pos (lt_of_inRange hty (inRange_hi c))]
      exact ⟨rfl, rfl⟩
    have hapart : ∀ a ∈ cases, ∀ b ∈ cases, ¬ Intersect a b ↔ Apart a.val b.val := by
      intro a ha b hb
      unfold Apart
      rw [intersect_iff (hstored a ha).2.2 (hstored b hb).2.2, (hread a ha).1, (hread a ha).2,
        (hread b hb).1, (hread b hb).2]
    rw [disjoint_iff hapart, ← listExact_signed_iff, ← disjoint_iff hapart]
    · exact Iff.rfl
    · intro v hv
      obtain ⟨c, hc, rfl⟩ := List.mem_map.mp hv
      rw [(hread c hc).1, (hread c hc).2]
      exact (hstored c hc).2.2

end Cases

end Ucc.Cc1.SwitchDups
