/-
  Util/Dynarray.lean --- arrays that end in NULL.

  Source: src/util/dynarray.c, with umalloc and urealloc1 of src/util/alloc.c.

  An array is NULL or a block of cells.  What `realloc` adds to a block is not
  known until it is written, and reading it, like an access outside of the block
  and a failed assertion, has no result.  The elements are pointers, none of them
  NULL; `DYNARRAY_NULL` is one of them, with which `dynarray_padinsert` pads.
-/
import Ucc.Lib.Block

set_option autoImplicit false

namespace Ucc.Util.Dynarray

open Ucc.Lib

/-! ## The operations -/

/-- A cell of an array. -/
inductive Cell (α : Type) where
  | null
  | ptr (p : α)
  /-- never written -/
  | unset
  deriving DecidableEq

/-- A `void **`. -/
abbrev Arr (α : Type) := Option (List (Cell α))

/-- `umalloc` -/
def umalloc (α : Type) (n : Nat) : List (Cell α) := List.replicate n .null

section
variable {α : Type}

/-- `urealloc1` -/
def urealloc1 (ar : List (Cell α)) (n : Nat) : List (Cell α) :=
  ar.take n ++ List.replicate (n - ar.length) .unset

/-- The loop of `dynarray_nochk_count`. -/
def countLoop : List (Cell α) → Option Nat
  | .null :: _ => some 0
  | .ptr _ :: ar => (countLoop ar).map (· + 1)
  | _ => none

/-- `dynarray_nochk_count` -/
def dynarrayCount : Arr α → Option Nat
  | none => some 0
  | some ar => countLoop ar

/-- `dynarray_nochk_add` -/
def dynarrayAdd (par : Arr α) (new : α) : Option (Arr α) := do
  let idx ← dynarrayCount par
  let ar := match par with
    | none => umalloc α 2
    | some ar => urealloc1 ar (idx + 2)
  let ar ← store ar idx (.ptr new)
  let ar ← store ar (idx + 1) .null
  return some ar

/-- The loop of `dynarray_nochk_padinsert` that pads. -/
def padLoop (pad : α) : Nat → Arr α → Option (Arr α)
  | 0, par => some par
  | j + 1, par => do
      let par ← dynarrayAdd par pad
      padLoop pad j par

/-- `dynarray_nochk_padinsert`: the array, `*pn` and what is returned. -/
def dynarrayPadinsert [DecidableEq α] (pad : α) (par : Arr α) (i n : Nat) (ins : α) :
    Option (Arr α × Nat × Option α) :=
  if i < n then do
    let ar ← par
    let p ← ar[i]?
    let out ← match p with
      | .null => some none
      | .ptr out => some (if out = pad then none else some out)
      | .unset => none
    let ar ← store ar i (.ptr ins)
    return (some ar, n, out)
  else do
    let par ← padLoop pad (i - n) par
    let par ← dynarrayAdd par ins
    return (par, n + (i - n) + 1, none)

/-- `dynarray_nochk_insert` -/
def dynarrayInsert (par : Arr α) (i : Nat) (toInsert : α) : Option (Arr α) := do
  let n ← dynarrayCount par
  if n < i then none
  else if i = n then dynarrayAdd par toInsert
  else do
    let par ← dynarrayAdd par toInsert
    let n := n + 1
    let ar ← par
    let ar ← memmove ar (i + 1) i (n - i - 1)
    let ar ← store ar i (.ptr toInsert)
    return some ar

/-- `dynarray_nochk_pop` -/
def dynarrayPop (par : Arr α) : Option (Arr α × α) := do
  let n ← dynarrayCount par
  if n = 0 then none
  else do
    let ar ← par
    let r ← match ar[n - 1]? with
      | some (.ptr r) => some r
      | _ => none
    let ar ← store ar (n - 1) .null
    return (if n = 1 then none else some ar, r)

/-- `dynarray_nochk_prepend` -/
def dynarrayPrepend (par : Arr α) (new : α) : Option (Arr α) := do
  let par ← dynarrayAdd par new
  let count ← dynarrayCount par
  let ar ← par
  let i := count - 1
  let ar ← if 0 < i then memmove ar 1 0 i else some ar
  let ar ← store ar 0 (.ptr new)
  return some ar

/-- The loop of `dynarray_nochk_rm`, up to the index of `x`. -/
def rmLoop [DecidableEq α] (x : α) : List (Cell α) → Option (Option Nat)
  | .null :: _ => some none
  | .ptr p :: ar => if p = x then some (some 0) else (rmLoop x ar).map (Option.map (· + 1))
  | _ => none

/-- `dynarray_nochk_rm` -/
def dynarrayRm [DecidableEq α] (par : Arr α) (x : α) : Option (Arr α) :=
  match par with
  | none => some none
  | some ar => do
      let n ← dynarrayCount (some ar)
      match ← rmLoop x ar with
      | none => return some ar
      | some i =>
          if n = 1 then return none
          else do
            let ar ← memmove ar i (i + 1) (n - i)
            return some ar

/-- `dynarray_nochk_add_array` -/
def dynarrayAddArray (par ar2 : Arr α) : Option (Arr α) :=
  match ar2 with
  | none => some par
  | some b2 =>
      match par with
      | none => do
          let n ← dynarrayCount ar2
          let ar ← memcpy (umalloc α (n + 1)) 0 b2 n
          let ar ← store ar n .null
          return some ar
      | some ar => do
          let n ← dynarrayCount par
          let n2 ← dynarrayCount ar2
          let ar ← memcpy (urealloc1 ar (n + n2 + 1)) n b2 (n2 + 1)
          return some ar

end

/-! ## What an array holds -/

section
variable {α : Type}

/-- The elements up to the terminator. -/
def elements : List (Cell α) → Option (List α)
  | .null :: _ => some []
  | .ptr p :: ar => (elements ar).map (p :: ·)
  | _ => none

/-- What is read of an array. -/
def contents : Arr α → Option (List α)
  | none => some []
  | some ar => elements ar

/-- The array can be read, and it is NULL where it has no elements. -/
def Holds (par : Arr α) (xs : List α) : Prop := contents par = some xs ∧ (par = none ↔ xs = [])

theorem elements_eq {ar : List (Cell α)} {xs : List α} :
    elements ar = some xs ↔ ∃ rest, ar = xs.map .ptr ++ .null :: rest := by
  induction xs generalizing ar with
  | nil =>
    rcases ar with _ | ⟨_ | _ | _, ar⟩ <;> simp [elements]
  | cons x xs ih =>
    rcases ar with _ | ⟨_ | _ | _, ar⟩ <;> simp [elements, ih, and_comm]

theorem holds_none : Holds (none : Arr α) [] := ⟨rfl, by simp⟩

theorem holds_some {xs : List α} (hne : xs ≠ []) (rest : List (Cell α)) :
    Holds (some (xs.map .ptr ++ .null :: rest)) xs :=
  ⟨elements_eq.mpr ⟨rest, rfl⟩, by simpa using hne⟩

/-- An array is NULL, or a block with its elements and a terminator. -/
theorem Holds.cases {par : Arr α} {xs : List α} (h : Holds par xs) :
    (par = none ∧ xs = []) ∨
      (xs ≠ [] ∧ ∃ rest, par = some (xs.map .ptr ++ .null :: rest)) := by
  obtain ⟨hread, hnull⟩ := h
  cases par with
  | none => exact .inl ⟨rfl, hnull.mp rfl⟩
  | some ar =>
    obtain ⟨rest, rfl⟩ := elements_eq.mp hread
    exact .inr ⟨fun hnil => by simpa using hnull.mpr hnil, rest, rfl⟩

/-! ## The operations on lists -/

/-- An element is put in place of the one at `i`, or behind the list and as many
`DYNARRAY_NULL` as get it there. -/
def listPadinsert [DecidableEq α] (pad : α) (xs : List α) (i : Nat) (ins : α) :
    List α × Option α :=
  match xs[i]? with
  | some out => (xs.set i ins, if out = pad then none else some out)
  | none => (xs ++ List.replicate (i - xs.length) pad ++ [ins], none)

/-! ## The operations on what is held -/

theorem countLoop_eq (xs : List α) (rest : List (Cell α)) :
    countLoop (xs.map .ptr ++ .null :: rest) = some xs.length := by
  induction xs with
  | nil => rfl
  | cons x xs ih => simp [countLoop, ih]

theorem dynarrayCount_holds {par : Arr α} {xs : List α} (h : Holds par xs) :
    dynarrayCount par = some xs.length := by
  rcases h.cases with ⟨rfl, rfl⟩ | ⟨-, rest, rfl⟩
  · rfl
  · exact countLoop_eq xs rest

/-- The cells that `realloc` keeps are those of the elements. -/
theorem urealloc1_eq (xs : List α) (rest : List (Cell α)) (k : Nat) :
    ∃ tail, tail.length = k ∧
      urealloc1 (xs.map .ptr ++ .null :: rest) (xs.length + k) = xs.map .ptr ++ tail := by
  refine ⟨(Cell.null :: rest).take k ++ List.replicate (k - (rest.length + 1)) .unset, ?_, ?_⟩
  · simp
    omega
  · have hkeep : (xs.map Cell.ptr ++ .null :: rest).take (xs.length + k) =
        xs.map .ptr ++ (Cell.null :: rest).take k := by
      rw [List.take_append]
      simp
    have hadded : xs.length + k - (xs.map Cell.ptr ++ .null :: rest).length =
        k - (rest.length + 1) := by
      simp
      omega
    rw [urealloc1, hkeep, hadded, List.append_assoc]

theorem dynarrayAdd_holds {par : Arr α} {xs : List α} (h : Holds par xs) (new : α) :
    ∃ par', dynarrayAdd par new = some par' ∧ Holds par' (xs ++ [new]) := by
  have hdone : ∀ (ar : List (Cell α)) (tail : List (Cell α)), tail.length = 2 →
      ar = xs.map .ptr ++ tail → ∃ ar', (do
        let ar ← store ar xs.length (.ptr new)
        let ar ← store ar (xs.length + 1) .null
        return some ar : Option (Arr α)) = some ar' ∧ Holds ar' (xs ++ [new]) := by
    rintro ar tail htail rfl
    obtain ⟨c, d, rfl⟩ := List.length_eq_two.mp htail
    refine ⟨some ((xs ++ [new]).map .ptr ++ .null :: []), ?_, holds_some (by simp) []⟩
    have hnew : store (xs.map Cell.ptr ++ [c, d]) xs.length (.ptr new) =
        some (xs.map .ptr ++ [.ptr new, d]) := store_eq rfl (by simp)
    have hend : store (xs.map Cell.ptr ++ [.ptr new, d]) (xs.length + 1) .null =
        some ((xs ++ [new]).map .ptr ++ [.null]) := store_eq (w := d) (by simp) (by simp)
    rw [hnew, Option.bind_eq_bind, Option.bind_some, hend]
    rfl
  rcases h.cases with ⟨rfl, rfl⟩ | ⟨-, rest, rfl⟩
  · exact hdone (umalloc α 2) _ (by simp) rfl
  · obtain ⟨tail, htail, hrealloc⟩ := urealloc1_eq xs rest 2
    obtain ⟨par', hrun, hholds⟩ := hdone _ tail htail hrealloc
    refine ⟨par', ?_, hholds⟩
    rw [dynarrayAdd, dynarrayCount_holds h]
    exact hrun

theorem padLoop_holds (pad : α) (j : Nat) {par : Arr α} {xs : List α} (h : Holds par xs) :
    ∃ par', padLoop pad j par = some par' ∧ Holds par' (xs ++ List.replicate j pad) := by
  induction j generalizing par xs with
  | zero => exact ⟨par, rfl, by simpa using h⟩
  | succ j ih =>
    obtain ⟨par₁, hadd, hholds⟩ := dynarrayAdd_holds h pad
    obtain ⟨par₂, hloop, hdone⟩ := ih hholds
    refine ⟨par₂, ?_, by simpa [List.replicate_succ] using hdone⟩
    rw [padLoop, hadd]
    exact hloop

theorem dynarrayPadinsert_holds [DecidableEq α] (pad : α) {par : Arr α} {xs : List α}
    (h : Holds par xs) (i : Nat) (ins : α) :
    ∃ par', dynarrayPadinsert pad par i xs.length ins =
        some (par', (listPadinsert pad xs i ins).1.length, (listPadinsert pad xs i ins).2) ∧
      Holds par' (listPadinsert pad xs i ins).1 := by
  unfold dynarrayPadinsert listPadinsert
  cases hout : xs[i]? with
  | none =>
    have hi : xs.length ≤ i := List.getElem?_eq_none_iff.mp hout
    obtain ⟨par₁, hpad, hholds⟩ := padLoop_holds pad (i - xs.length) h
    obtain ⟨par₂, hadd, hdone⟩ := dynarrayAdd_holds hholds ins
    refine ⟨par₂, ?_, hdone⟩
    rw [if_neg (by omega), hpad, Option.bind_eq_bind, Option.bind_some, hadd]
    simp [Nat.add_assoc]
  | some out =>
    obtain ⟨front, back, rfl, rfl⟩ := exists_split hout
    rcases h.cases with ⟨-, hnil⟩ | ⟨-, rest, rfl⟩
    · simp at hnil
    · refine ⟨some ((front ++ ins :: back).map .ptr ++ .null :: rest), ?_, ?_⟩
      · have hread : ((front ++ out :: back).map Cell.ptr ++ .null :: rest)[front.length]? =
            some (.ptr out) := by simp
        have hstore : store ((front ++ out :: back).map Cell.ptr ++ .null :: rest) front.length
            (.ptr ins) = some ((front ++ ins :: back).map .ptr ++ .null :: rest) := by
          have hat : (front ++ out :: back).map Cell.ptr ++ .null :: rest =
              front.map .ptr ++ .ptr out :: (back.map .ptr ++ .null :: rest) := by simp
          rw [store_eq hat (by simp)]
          simp
        rw [if_pos (by simp)]
        simp only [Option.bind_eq_bind, Option.bind_some, hread, hstore]
        simp
      · have hlist : (front ++ out :: back).set front.length ins = front ++ ins :: back := by simp
        dsimp only
        rw [hlist]
        exact holds_some (by simp) rest

/-- Elements move up, and another one is put in front of them. -/
theorem moveUp_holds (front back : List α) (x y : α) (rest : List (Cell α)) :
    ∃ ar, (memmove ((front ++ back ++ [y]).map .ptr ++ .null :: rest) (front.length + 1)
        front.length back.length).bind (store · front.length (.ptr x)) = some ar ∧
      Holds (some ar) (front ++ x :: back) := by
  have hblock : (front ++ back ++ [y]).map Cell.ptr ++ .null :: rest =
      front.map .ptr ++ (back.map .ptr ++ .ptr y :: .null :: rest) := by simp
  have hmove := memmove_up hblock (by simp : front.length = _) rfl (by simp : back.length = _)
  obtain ⟨c, hc⟩ : ∃ c, (back.map Cell.ptr ++ [Cell.ptr y]).take 1 = [c] := by
    cases back <;> simp
  have hat : front.map Cell.ptr ++ ([c] ++ (back.map .ptr ++ .null :: rest)) =
      front.map .ptr ++ c :: (back.map .ptr ++ .null :: rest) := by simp
  have hdone : Holds (some ((front ++ x :: back).map .ptr ++ .null :: rest)) (front ++ x :: back) :=
    holds_some (by simp) rest
  rw [hmove, hc, Option.bind_some, store_eq hat (by simp)]
  exact ⟨_, rfl, by simpa using hdone⟩

theorem dynarrayInsert_holds {par : Arr α} {xs : List α} (h : Holds par xs) {i : Nat}
    (hi : i ≤ xs.length) (toInsert : α) :
    ∃ par', dynarrayInsert par i toInsert = some par' ∧
      Holds par' (xs.take i ++ toInsert :: xs.drop i) := by
  obtain ⟨par₁, hadd, hholds⟩ := dynarrayAdd_holds h toInsert
  unfold dynarrayInsert
  simp only [dynarrayCount_holds h, Option.bind_eq_bind, Option.bind_some, if_neg (not_lt.mpr hi)]
  by_cases hend : i = xs.length
  · subst hend
    rw [if_pos rfl]
    exact ⟨par₁, hadd, by simpa using hholds⟩
  · rw [if_neg hend, hadd, Option.bind_some]
    rcases hholds.cases with ⟨-, hnil⟩ | ⟨-, rest, rfl⟩
    · simp at hnil
    · obtain ⟨ar, hmove, hdone⟩ := moveUp_holds (xs.take i) (xs.drop i) toInsert toInsert rest
      rw [List.take_append_drop, List.length_take_of_le hi, List.length_drop,
        show xs.length - i = xs.length + 1 - i - 1 by omega] at hmove
      obtain ⟨ar₁, hmoved, hstored⟩ := Option.bind_eq_some_iff.mp hmove
      refine ⟨some ar, ?_, hdone⟩
      rw [Option.bind_some, hmoved, Option.bind_some, hstored]
      rfl

theorem dynarrayPrepend_holds {par : Arr α} {xs : List α} (h : Holds par xs) (new : α) :
    ∃ par', dynarrayPrepend par new = some par' ∧ Holds par' (new :: xs) := by
  obtain ⟨par₁, hadd, hholds⟩ := dynarrayAdd_holds h new
  unfold dynarrayPrepend
  rw [hadd, Option.bind_eq_bind, Option.bind_some, dynarrayCount_holds hholds]
  rcases hholds.cases with ⟨-, hnil⟩ | ⟨-, rest, rfl⟩
  · simp at hnil
  · obtain ⟨ar, hmove, hdone⟩ := moveUp_holds [] xs new new rest
    obtain ⟨ar₁, hmoved, hstored⟩ := Option.bind_eq_some_iff.mp hmove
    rw [List.nil_append, List.length_nil] at hmoved
    refine ⟨some ar, ?_, hdone⟩
    simp only [Option.bind_eq_bind, Option.bind_some, List.length_append, List.length_singleton,
      Nat.add_sub_cancel]
    split
    · exact Option.bind_eq_some_iff.mpr
        ⟨ar₁, hmoved, Option.bind_eq_some_iff.mpr ⟨ar, hstored, rfl⟩⟩
    · rename_i hempty
      obtain rfl : xs = [] := List.length_eq_zero_iff.mp (by omega)
      have hsame : ar₁ = ([] ++ [new]).map .ptr ++ .null :: rest := by
        simpa [memmove, memcpy] using hmoved.symm
      rw [← hsame]
      exact Option.bind_eq_some_iff.mpr ⟨ar, hstored, rfl⟩

theorem dynarrayPop_holds {par : Arr α} {xs : List α} {x : α} (h : Holds par (xs ++ [x])) :
    ∃ par', dynarrayPop par = some (par', x) ∧ Holds par' xs := by
  unfold dynarrayPop
  rw [dynarrayCount_holds h, Option.bind_eq_bind, Option.bind_some, if_neg (by simp)]
  rcases h.cases with ⟨-, hnil⟩ | ⟨-, rest, rfl⟩
  · simp at hnil
  · have hread : ((xs ++ [x]).map Cell.ptr ++ .null :: rest)[xs.length]? = some (.ptr x) := by
      simp
    have hstore : store ((xs ++ [x]).map Cell.ptr ++ .null :: rest) xs.length .null =
        some (xs.map .ptr ++ .null :: .null :: rest) :=
      store_eq (w := .ptr x) (by simp) (by simp)
    simp only [Option.bind_eq_bind, Option.bind_some, List.length_append, List.length_singleton,
      Nat.add_sub_cancel, hread, hstore]
    refine ⟨_, rfl, ?_⟩
    by_cases hempty : xs = []
    · subst hempty
      exact holds_none
    · rw [if_neg (by simpa using hempty)]
      exact holds_some hempty _

/-- The search ends at the first `x`. -/
theorem rmLoop_found [DecidableEq α] {x : α} {front : List α} (h : x ∉ front) (ar : List (Cell α)) :
    rmLoop x (front.map .ptr ++ .ptr x :: ar) = some (some front.length) := by
  induction front with
  | nil => simp [rmLoop]
  | cons p front ih =>
    rw [List.mem_cons, not_or] at h
    rw [List.map_cons, List.cons_append, rmLoop, if_neg (Ne.symm h.1), ih h.2]
    rfl

theorem rmLoop_absent [DecidableEq α] {x : α} {xs : List α} (h : x ∉ xs) (rest : List (Cell α)) :
    rmLoop x (xs.map .ptr ++ .null :: rest) = some none := by
  induction xs with
  | nil => rfl
  | cons p xs ih =>
    rw [List.mem_cons, not_or] at h
    rw [List.map_cons, List.cons_append, rmLoop, if_neg (Ne.symm h.1), ih h.2]
    rfl

theorem dynarrayRm_holds [DecidableEq α] {par : Arr α} {xs : List α} (h : Holds par xs) (x : α) :
    ∃ par', dynarrayRm par x = some par' ∧ Holds par' (xs.erase x) := by
  rcases h.cases with ⟨rfl, rfl⟩ | ⟨hne, rest, rfl⟩
  · exact ⟨none, rfl, holds_none⟩
  · unfold dynarrayRm
    dsimp only
    rw [dynarrayCount_holds h, Option.bind_eq_bind, Option.bind_some]
    by_cases hx : x ∈ xs
    · obtain ⟨front, back, hfront, rfl, herase⟩ := List.exists_erase_eq hx
      have hblock : (front ++ x :: back).map Cell.ptr ++ .null :: rest =
          front.map .ptr ++ .ptr x :: ((back.map .ptr ++ [.null]) ++ rest) := by simp
      have hmove := memmove_down hblock (by simp : front.length = _) rfl
        (by simp : (front ++ x :: back).length - front.length = _)
      rw [herase, hblock, rmLoop_found hfront, ← hblock]
      simp only [Option.bind_eq_bind, Option.bind_some, hmove]
      split
      · rename_i hlast
        simp only [List.length_append, List.length_cons] at hlast
        obtain rfl : front = [] := List.length_eq_zero_iff.mp (by omega)
        obtain rfl : back = [] := List.length_eq_zero_iff.mp (by omega)
        exact ⟨none, rfl, holds_none⟩
      · rename_i hmany
        refine ⟨_, rfl, ?_⟩
        have hrest : front ++ back ≠ [] := by
          intro hnil
          simp only [List.append_eq_nil_iff] at hnil
          rw [hnil.1, hnil.2] at hmany
          exact hmany rfl
        simpa using holds_some hrest _
    · rw [rmLoop_absent hx, List.erase_of_not_mem hx]
      exact ⟨_, rfl, h⟩

theorem dynarrayAddArray_holds {par ar2 : Arr α} {xs ys : List α} (h : Holds par xs)
    (h2 : Holds ar2 ys) :
    ∃ par', dynarrayAddArray par ar2 = some par' ∧ Holds par' (xs ++ ys) := by
  rcases h2.cases with ⟨rfl, rfl⟩ | ⟨hys, rest2, rfl⟩
  · exact ⟨par, rfl, by simpa using h⟩
  · unfold dynarrayAddArray
    dsimp only
    rcases h.cases with ⟨rfl, rfl⟩ | ⟨hxs, rest, rfl⟩
    · have hzero : umalloc α (ys.length + 1) = [] ++ umalloc α ys.length ++ [.null] :=
        List.replicate_succ'
      have hroom : ys.length ≤ (ys.map Cell.ptr ++ .null :: rest2).length := by simp
      have hcopy := memcpy_eq hzero rfl (by simp [umalloc] : ys.length = _) hroom
      have hend : store (ys.map Cell.ptr ++ [.null]) ys.length .null =
          some (ys.map .ptr ++ [.null]) := store_eq (w := .null) rfl (by simp)
      have htake : (ys.map Cell.ptr ++ .null :: rest2).take ys.length = ys.map .ptr := by simp
      rw [htake, List.nil_append, List.length_nil] at hcopy
      refine ⟨some (ys.map .ptr ++ [.null]), ?_, holds_some hys []⟩
      dsimp only
      simp only [dynarrayCount_holds h2, Option.bind_eq_bind, Option.bind_some, hcopy, hend]
      rfl
    · obtain ⟨tail, htail, hrealloc⟩ := urealloc1_eq xs rest (ys.length + 1)
      have hroom : ys.length + 1 ≤ (ys.map Cell.ptr ++ .null :: rest2).length := by simp
      have hcopy := memcpy_eq
        (by rw [List.append_nil] : xs.map Cell.ptr ++ tail = xs.map .ptr ++ tail ++ [])
        (by simp : xs.length = _) htail.symm hroom
      have htake : (ys.map Cell.ptr ++ .null :: rest2).take (ys.length + 1) =
          ys.map .ptr ++ [.null] := by
        simp [List.take_append]
      rw [htake, List.append_nil, ← List.append_assoc, ← List.map_append] at hcopy
      refine ⟨some ((xs ++ ys).map .ptr ++ [.null]), ?_, holds_some (by simp [hxs]) []⟩
      dsimp only
      rw [dynarrayCount_holds h, dynarrayCount_holds h2, Option.bind_eq_bind, Option.bind_some,
        Option.bind_some, Nat.add_assoc, hrealloc, hcopy]
      rfl

end

/-! ## Runs -/

/-- An array that can be read to a terminator. -/
structure WfArr (α : Type) where
  arr : Arr α
  xs : List α
  holds : Holds arr xs

/-- A call on an array; `dynarray_padinsert` is given the number of the elements in
`*pn`, and `dynarray_add_array` another array. -/
inductive Op (α : Type) where
  | add (new : α)
  | prepend (new : α)
  | pop
  | rm (x : α)
  | insert (i : Nat) (toInsert : α)
  | addArray (ar2 : WfArr α)
  | padinsert (i : Nat) (ins : α)
  | count

/-- What a call gives back: a pointer, a count, or `*pn` and a pointer. -/
inductive Ret (α : Type) where
  | void
  | ptr (p : α)
  | count (n : Nat)
  | padded (pn : Nat) (p : Option α)
  deriving DecidableEq

section
variable {α : Type} [DecidableEq α] (pad : α)

/-- The call. -/
def step (par : Arr α) : Op α → Option (Arr α × Ret α)
  | .add new => (dynarrayAdd par new).map (·, .void)
  | .prepend new => (dynarrayPrepend par new).map (·, .void)
  | .pop => (dynarrayPop par).map fun r => (r.1, .ptr r.2)
  | .rm x => (dynarrayRm par x).map (·, .void)
  | .insert i toInsert => (dynarrayInsert par i toInsert).map (·, .void)
  | .addArray ar2 => (dynarrayAddArray par ar2.arr).map (·, .void)
  | .padinsert i ins => do
      let n ← dynarrayCount par
      let r ← dynarrayPadinsert pad par i n ins
      return (r.1, .padded r.2.1 r.2.2)
  | .count => (dynarrayCount par).map fun n => (par, .count n)

/-- The operation on a list: nothing is popped off an empty one, and nothing is put
behind the end. -/
def listStep (xs : List α) : Op α → Option (List α × Ret α)
  | .add new => some (xs ++ [new], .void)
  | .prepend new => some (new :: xs, .void)
  | .pop => xs.getLast?.map fun x => (xs.dropLast, .ptr x)
  | .rm x => some (xs.erase x, .void)
  | .insert i toInsert =>
      if i ≤ xs.length then some (xs.take i ++ toInsert :: xs.drop i, .void) else none
  | .addArray ar2 => some (xs ++ ar2.xs, .void)
  | .padinsert i ins =>
      some ((listPadinsert pad xs i ins).1,
        .padded (listPadinsert pad xs i ins).1.length (listPadinsert pad xs i ins).2)
  | .count => some (xs, .count xs.length)

/-- The calls in turn, and what they give back. -/
def run (par : Arr α) : List (Op α) → Option (Arr α × List (Ret α))
  | [] => some (par, [])
  | op :: ops => do
      let (par, ret) ← step pad par op
      let (par, rets) ← run par ops
      return (par, ret :: rets)

/-- The operations on a list in turn. -/
def listRun (xs : List α) : List (Op α) → Option (List α × List (Ret α))
  | [] => some (xs, [])
  | op :: ops => do
      let (xs, ret) ← listStep pad xs op
      let (xs, rets) ← listRun xs ops
      return (xs, ret :: rets)

/-- The same elements, and the same given back. -/
def Agree {β : Type} (c : Arr α × β) (l : List α × β) : Prop := Holds c.1 l.1 ∧ c.2 = l.2

theorem step_agrees {par : Arr α} {xs : List α} (h : Holds par xs) (op : Op α) :
    Option.Rel Agree (step pad par op) (listStep pad xs op) := by
  have hmap : ∀ {f : Option (Arr α)} {xs' : List α}, (∃ par', f = some par' ∧ Holds par' xs') →
      Option.Rel Agree (f.map (·, (.void : Ret α))) (some (xs', .void)) := by
    rintro f xs' ⟨par', rfl, hholds⟩
    exact .some ⟨hholds, rfl⟩
  cases op with
  | add new => exact hmap (dynarrayAdd_holds h new)
  | prepend new => exact hmap (dynarrayPrepend_holds h new)
  | pop =>
    rcases List.eq_nil_or_concat' xs with rfl | ⟨front, x, rfl⟩
    · have hfail : dynarrayPop par = none := by
        rw [dynarrayPop, dynarrayCount_holds h]
        rfl
      rw [step, hfail]
      exact .none
    · obtain ⟨par', hpop, hholds⟩ := dynarrayPop_holds h
      rw [step, listStep, hpop, List.getLast?_concat, List.dropLast_concat]
      exact .some ⟨hholds, rfl⟩
  | rm x => exact hmap (dynarrayRm_holds h x)
  | insert i toInsert =>
    unfold step listStep
    dsimp only
    split
    · rename_i hi
      exact hmap (dynarrayInsert_holds h hi toInsert)
    · rename_i hi
      have hfail : dynarrayInsert par i toInsert = none := by
        rw [dynarrayInsert, dynarrayCount_holds h]
        exact if_pos (not_le.mp hi)
      rw [hfail]
      exact .none
  | addArray ar2 => exact hmap (dynarrayAddArray_holds h ar2.holds)
  | padinsert i ins =>
    obtain ⟨par', hpad, hholds⟩ := dynarrayPadinsert_holds pad h i ins
    rw [step, dynarrayCount_holds h, Option.bind_eq_bind, Option.bind_some, hpad]
    exact .some ⟨hholds, rfl⟩
  | count =>
    rw [step, dynarrayCount_holds h]
    exact .some ⟨h, rfl⟩

/-- A run of calls on an array is the run of the operations on the list of its
elements: what is read to the terminator is the list, NULL is the empty one, and the
same is given back.  A run in which an assertion fails is one in which a list
operation has no result. -/
theorem dynarray_run_iff_list_run (ops : List (Op α)) {par : Arr α} {xs : List α}
    (h : Holds par xs) : Option.Rel Agree (run pad par ops) (listRun pad xs ops) := by
  induction ops generalizing par xs with
  | nil => exact .some ⟨h, rfl⟩
  | cons op ops ih =>
    rw [run, listRun]
    have hstep := step_agrees pad h op
    generalize step pad par op = c at *
    generalize listStep pad xs op = l at *
    cases hstep with
    | none => exact .none
    | @some c l hstep =>
      have hrest := ih hstep.1
      simp only [Option.bind_eq_bind, Option.bind_some]
      generalize run pad c.1 ops = c' at *
      generalize listRun pad l.1 ops = l' at *
      cases hrest with
      | none => exact .none
      | some hrest => exact .some ⟨hrest.1, congrArg₂ List.cons hstep.2 hrest.2⟩

end

/-- Elements put in, taken out and padded, down to NULL and up again. -/
theorem dynarray_run_iff_list_run_seven :
    listRun 1 [] [.add 3, .prepend 9, .rm 3, .pop, .padinsert 2 7, .insert 1 5, .count] =
        some ([1, 5, 1, 7], [.void, .void, .void, .ptr 9, .padded 3 none, .void, .count 4]) ∧
      Option.Rel Agree
        (run 1 none [.add 3, .prepend 9, .rm 3, .pop, .padinsert 2 7, .insert 1 5, .count])
        (listRun 1 [] [.add 3, .prepend 9, .rm 3, .pop, .padinsert 2 7, .insert 1 5, .count]) :=
  ⟨by decide, dynarray_run_iff_list_run 1 _ holds_none⟩

end Ucc.Util.Dynarray
