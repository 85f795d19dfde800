/-
  Cc1/BraceRun.lean --- the reading of a list goes part after part.

  An initialiser for a part of an aggregate, and those after it that are for the same part,
  are a reading of that part.  The rest is read from the next part on.
-/
import Ucc.Cc1.CurrentObject

set_option autoImplicit false

namespace Ucc.Cc1.Braces

variable {E : Type} {isConst : InitExpr E → Bool}

/-! ## Objects -/

theorem Obj.part_setPart (τ σ : Obj E) (i : Nat) : (τ.setPart i σ).part i = σ := by
  funext p
  simp [Obj.part, Obj.setPart]

theorem Obj.setPart_setPart (τ σ σ' : Obj E) (i : Nat) :
    (τ.setPart i σ).setPart i σ' = τ.setPart i σ' := by
  funext p
  cases p with
  | nil => rfl
  | cons j p =>
    by_cases h : j = i
    · simp [Obj.setPart, h]
    · simp [Obj.setPart, h]

/-! ## Lists -/

theorem AllPlain.tail {it : Item E} {rest : List (Item E)} (h : AllPlain (it :: rest)) :
    AllPlain rest :=
  fun it' hit => h it' (List.mem_cons_of_mem it hit)

theorem nextDesig_nil : NextDesig ([] : List (Item E)) := by
  intro it hit
  simp at hit

theorem AllPlain.takeWhile (items : List (Item E)) : AllPlain (items.takeWhile Item.plain) :=
  List.all_eq_true.mp List.all_takeWhile

theorem NextDesig.dropWhile (items : List (Item E)) : NextDesig (items.dropWhile Item.plain) := by
  intro it hit
  have hne : items.dropWhile Item.plain ≠ [] := by
    intro h
    rw [h] at hit
    simp at hit
  have hhead := List.head_dropWhile_not Item.plain hne
  rw [List.head?_eq_some_head hne, Option.mem_some_iff] at hit
  rwa [hit] at hhead

theorem NextDesig.takeWhile {items : List (Item E)} (h : NextDesig items) :
    items.takeWhile Item.plain = [] := by
  cases items with
  | nil => rfl
  | cons it items => simp [h it rfl]

theorem NextDesig.dropWhile_self {items : List (Item E)} (h : NextDesig items) :
    items.dropWhile Item.plain = items := by
  cases items with
  | nil => rfl
  | cons it items => simp [h it rfl]

/-! ## Readings -/

/-- A designator sets the cursor anew. -/
theorem Run.cursor {t : InitType} {τ σ : Obj E} {c : Option (List Nat)}
    {items left : List (Item E)} (hd : NextDesig items) (h : Run isConst t τ c items σ left)
    (c' : Option (List Nat)) : Run isConst t τ c' items σ left := by
  cases h with
  | nil => exact .nil
  | excess hplain =>
    rw [hd _ rfl] at hplain
    cases hplain
  | next hplain _ _ _ =>
    rw [hd _ rfl] at hplain
    cases hplain
  | desig hdesig hres hunion hbrace hstep hrun => exact .desig hdesig hres hunion hbrace hstep hrun

theorem Run.of_nil {t : InitType} {τ σ : Obj E} {c : Option (List Nat)} {left : List (Item E)}
    (h : Run isConst t τ c [] σ left) : σ = τ ∧ left = [] := by
  cases h with
  | nil => exact ⟨rfl, rfl⟩

/-- Behind everything there is excess only. -/
theorem Run.of_excess {t : InitType} {τ σ : Obj E} {it : Item E} {rest left : List (Item E)}
    (hit : it.plain = true) (h : Run isConst t τ none (it :: rest) σ left) :
    σ = τ ∧ left = it :: rest := by
  cases h with
  | excess _ => exact ⟨rfl, rfl⟩
  | desig hdesig _ _ _ _ _ =>
    rw [hit] at hdesig
    cases hdesig

theorem Run.of_none {t : InitType} {τ σ : Obj E} {items left : List (Item E)}
    (hplain : AllPlain items) (h : Run isConst t τ none items σ left) : σ = τ ∧ left = items := by
  cases items with
  | nil => exact h.of_nil
  | cons it rest => exact h.of_excess (hplain it List.mem_cons_self)

/-- The initialisers of a part, and then those from the next part on. -/
theorem Run.split {t s : InitType} {i : Nat} {σ : Obj E} {left tail : List (Item E)}
    (hchild : t.child i = some s) (htail : NextDesig tail) (seg : List (Item E)) :
    ∀ (τ σ₁ : Obj E) (c : Option (List Nat)), AllPlain seg →
      Run isConst t (τ.setPart i σ₁) (t.after i c) (seg ++ tail) σ left →
      ∃ σ₂ rem, Run isConst s σ₁ c seg σ₂ rem ∧ rem <:+ seg ∧
        Run isConst t (τ.setPart i σ₂) (cursorAt (t.next i)) (rem ++ tail) σ left := by
  induction seg with
  | nil =>
    intro τ σ₁ c _ h
    exact ⟨σ₁, [], .nil, List.suffix_rfl, h.cursor htail _⟩
  | cons it seg ih =>
    intro τ σ₁ c hplain h
    have hit := hplain it List.mem_cons_self
    cases c with
    | none => exact ⟨σ₁, it :: seg, .excess hit, List.suffix_rfl, h⟩
    | some p =>
      cases h with
      | desig hdesig _ _ _ _ _ =>
        rw [hit] at hdesig
        cases hdesig
      | next _ hunion hstep hrun =>
        cases hstep with
        | part hchild' henter harray hanon hstep =>
          obtain rfl : s = _ := Option.some.inj (hchild.symm.trans hchild')
          rw [Obj.part_setPart] at hstep
          rw [Obj.setPart_setPart] at hrun
          obtain ⟨σ₂, rem, hrun₁, hsuffix, hrun₂⟩ := ih τ _ _ hplain.tail hrun
          exact ⟨σ₂, rem, .next hit (fun _ => hplain.tail) hstep hrun₁,
            hsuffix.trans (List.suffix_cons it seg), hrun₂⟩

/-! ## The turn of a loop over the parts -/

/-- A designator leads into a part. -/
theorem InitMembers.resolve_cons (ms : InitMembers) (spel : String) (ds : List Desig) :
    ∀ p : List Nat, ms.resolve spel ds = some p → ∃ i p', p = i :: p' := by
  induction ms using InitMembers.induct with
  | nil => exact fun p h => by cases h
  | pad rest ih =>
    intro p h
    obtain ⟨q, hq, rfl⟩ := Option.map_eq_some_iff.mp h
    obtain ⟨i, q, rfl⟩ := ih q hq
    exact ⟨i + 1, q, rfl⟩
  | member name ref rest ih =>
    intro p h
    have hrest : (rest.resolve spel ds).map shift = some p → ∃ i p', p = i :: p' := by
      intro h
      obtain ⟨q, hq, rfl⟩ := Option.map_eq_some_iff.mp h
      obtain ⟨i, q, rfl⟩ := ih q hq
      exact ⟨i + 1, q, rfl⟩
    cases name with
    | some name =>
      rw [InitMembers.resolve] at h
      split at h
      · obtain ⟨q, -, rfl⟩ := Option.map_eq_some_iff.mp h
        exact ⟨0, q, rfl⟩
      · exact hrest h
    | none =>
      rw [InitMembers.resolve] at h
      split at h
      · obtain ⟨q, -, rfl⟩ := Option.map_eq_some_iff.mp h
        exact ⟨0, q, rfl⟩
      · exact hrest h

theorem InitType.resolve_cons {t : InitType} {d : Desig} {ds : List Desig} {p : List Nat}
    (h : t.resolve (d :: ds) = some p) : ∃ i p', p = i :: p' := by
  cases t with
  | scalar k => cases h
  | array elem len =>
    cases d with
    | member spel => cases h
    | index k =>
      cases k with
      | floating => cases h
      | nonConst => cases h
      | num v =>
        rw [InitType.resolve] at h
        split at h
        · obtain ⟨q, -, rfl⟩ := Option.map_eq_some_iff.mp h
          exact ⟨_, q, rfl⟩
        · cases h
  | sue prim ms =>
    cases d with
    | index k => cases h
    | member spel => exact ms.resolve_cons spel ds p h

theorem InitType.resolve_nil (t : InitType) : t.resolve [] = some [] := by
  cases t with
  | scalar k => rfl
  | array elem len => rfl
  | sue prim ms => rfl

/-- An initialiser is for part `i`, which has the type `s`: the initialisers up to the next
one with a designator are a reading of it, and the rest one from the next part on. -/
structure Turn (isConst : InitExpr E → Bool) (t s : InitType) (τ σ : Obj E) (i : Nat)
    (desig : Bool) (p : List Nat) (it : Item E) (rest left : List (Item E)) : Prop where
  child : t.child i = some s
  enter : t.Enter isConst τ i
  array : desig = true → t.charInit it.bare = none
  anon : desig = true → it.isBrace = true → t.anonAt i = true → ∀ p, τ (i :: p) = none
  union : t.isUnion = true → AllPlain rest
  brace : desig = true → it.isBrace = true → p ≠ [] → NextDesig rest
  reads : ∃ σ₁ c σ₂ rem, Step isConst s (τ.part i) desig p it.bare σ₁ c ∧
    Run isConst s σ₁ c (rest.takeWhile Item.plain) σ₂ rem ∧
    rem <:+ rest.takeWhile Item.plain ∧
    Run isConst t (τ.setPart i σ₂) (cursorAt (t.next i)) (rem ++ rest.dropWhile Item.plain) σ
      left

theorem Item.bare_isBrace (it : Item E) : it.bare.isBrace = it.isBrace := by
  cases it with
  | expr ds e => rfl
  | brace ds inits => rfl

/-- The turn for an initialiser without a designator. -/
theorem Run.turn {t : InitType} {τ σ : Obj E} {i : Nat} {it : Item E}
    {rest left : List (Item E)} (hit : it.plain = true)
    (h : Run isConst t τ (some [i]) (it :: rest) σ left) :
    ∃ s, Turn isConst t s τ σ i false [] it rest left := by
  cases h with
  | desig hdesig _ _ _ _ _ =>
    rw [hit] at hdesig
    cases hdesig
  | next _ hunion hstep hrun =>
    cases hstep with
    | part hchild henter harray hanon hstep =>
      rw [← List.takeWhile_append_dropWhile (p := Item.plain) (l := rest)] at hrun
      obtain ⟨σ₂, rem, hrun₁, hsuffix, hrun₂⟩ := Run.split hchild (NextDesig.dropWhile rest)
        (rest.takeWhile Item.plain) τ _ _ (AllPlain.takeWhile rest) hrun
      rw [Item.bare_isBrace] at hanon
      exact ⟨_, ⟨hchild, henter (.inr rfl), harray, hanon, hunion,
        fun h => absurd h Bool.false_ne_true, ⟨_, _, σ₂, rem, hstep, hrun₁, hsuffix, hrun₂⟩⟩⟩

/-- The turn for one that has a designator. -/
theorem Run.turn_desig {t : InitType} {τ σ : Obj E} {c : Option (List Nat)} {it : Item E}
    {d : Desig} {ds : List Desig} {rest left : List (Item E)} (hit : it.desig = d :: ds)
    (h : Run isConst t τ c (it :: rest) σ left) :
    ∃ i p s, t.resolve (d :: ds) = some (i :: p) ∧
      Turn isConst t s τ σ i true p it rest left := by
  have hplain : it.plain = false := by
    rw [Item.plain, hit]
    rfl
  cases h with
  | excess hplain' =>
    rw [hplain] at hplain'
    cases hplain'
  | next hplain' _ _ _ =>
    rw [hplain] at hplain'
    cases hplain'
  | desig _ hres hunion hbrace hstep hrun =>
    rw [hit] at hres
    obtain ⟨i, p, rfl⟩ := InitType.resolve_cons hres
    cases hstep with
    | part hchild henter harray hanon hstep =>
      rw [← List.takeWhile_append_dropWhile (p := Item.plain) (l := rest)] at hrun
      obtain ⟨σ₂, rem, hrun₁, hsuffix, hrun₂⟩ := Run.split hchild (NextDesig.dropWhile rest)
        (rest.takeWhile Item.plain) τ _ _ (AllPlain.takeWhile rest) hrun
      rw [Item.bare_isBrace] at hanon
      refine ⟨i, p, _, hres, ⟨hchild, henter (.inl rfl), harray, hanon, hunion,
        fun _ hb hne => hbrace hb ?_, ⟨_, _, σ₂, rem, hstep, hrun₁, hsuffix, hrun₂⟩⟩⟩
      have hlen := List.length_pos_iff.mpr hne
      rw [List.length_cons]
      omega

end Ucc.Cc1.Braces
