/-
  Cc1/BraceUpSound.lean --- an initialiser is braced up as the current object says.

  Source: decl_init_brace_up_r, decl_init_brace_up_aggregate, decl_init_brace_up_array2,
  decl_init_brace_up_sue2 and decl_init_brace_up_scalar in src/cc1/decl_init.c.
-/
import Ucc.Cc1.BraceRun

set_option autoImplicit false

namespace Ucc.Cc1.Braces

variable {E : Type}

/-! ## What a braced-up initialiser says -/

/-- The expression at a path. -/
def Braced.at : Braced E → Obj E
  | .scalar e, [] => some e
  | .scalar _, _ :: _ => none
  | .brace _, [] => none
  | .brace inits, i :: p =>
      match entry inits i with
      | some b => b.at p
      | none => none

/-- The same for what may be missing. -/
def currentAt : Option (Braced E) → Obj E
  | none => Obj.empty
  | some b => b.at

/-- The same for the entries of an aggregate. -/
def initsAt (inits : List (Option (Braced E))) : Obj E := (Braced.brace inits).at

@[simp] theorem currentAt_none : currentAt (none : Option (Braced E)) = Obj.empty := rfl

@[simp] theorem currentAt_some (b : Braced E) : currentAt (some b) = b.at := rfl

theorem initsAt_part (inits : List (Option (Braced E))) (i : Nat) :
    (initsAt inits).part i = currentAt (entry inits i) := by
  funext p
  show (match entry inits i with | some b => b.at p | none => none) = _
  cases entry inits i with
  | none => rfl
  | some b => rfl

theorem initsAt_nil : initsAt ([] : List (Option (Braced E))) = Obj.empty := by
  funext p
  cases p with
  | nil => rfl
  | cons i p => rfl

theorem at_scalar (e : InitExpr E) : (Braced.scalar e).at = Obj.leaf e := by
  funext p
  cases p with
  | nil => rfl
  | cons i p => rfl

/-- The last entry is there. -/
def LastSome (inits : List (Option (Braced E))) : Prop := ∃ b, inits.getLast? = some (some b)

/-- The entries are where the type has parts, and have their types. -/
inductive Fits : InitType → Braced E → Prop
  | scalar {k : Option StrKind} {e : InitExpr E} : Fits (.scalar k) (.scalar e)
  | aggregate {t : InitType} {inits : List (Option (Braced E))} (ht : t.isScalar = false)
      (parts : ∀ i b, entry inits i = some b → t.child i ≠ none)
      (fits : ∀ i b s, entry inits i = some b → t.child i = some s → Fits s b)
      (last : LastSome inits) : Fits t (.brace inits)

/-- The same for the entries of an aggregate; there may be none yet. -/
structure FitsInits (t : InitType) (inits : List (Option (Braced E))) : Prop where
  parts : ∀ i b, entry inits i = some b → t.child i ≠ none
  fits : ∀ i b s, entry inits i = some b → t.child i = some s → Fits s b
  last : inits = [] ∨ LastSome inits

theorem entry_nil (i : Nat) : entry ([] : List (Option (Braced E))) i = none := rfl

theorem fitsInits_nil (t : InitType) : FitsInits t ([] : List (Option (Braced E))) where
  parts i b h := absurd h (by rw [entry_nil]; exact Option.some_ne_none b |>.symm)
  fits i b s h := absurd h (by rw [entry_nil]; exact Option.some_ne_none b |>.symm)
  last := .inl rfl

theorem LastSome.entry {inits : List (Option (Braced E))} (h : LastSome inits) :
    ∃ b, entry inits (inits.length - 1) = some b := by
  obtain ⟨b, hb⟩ := h
  refine ⟨b, ?_⟩
  rw [List.getLast?_eq_getElem?] at hb
  simp [Braces.entry, List.getD, hb]

/-- Something is initialised. -/
theorem Fits.leaf {t : InitType} {b : Braced E} (h : Fits t b) : ∃ p e, b.at p = some e := by
  induction h with
  | scalar => exact ⟨[], _, rfl⟩
  | @aggregate t inits ht parts fits last ih =>
    obtain ⟨b, hb⟩ := last.entry
    obtain ⟨s, hs⟩ := Option.ne_none_iff_exists'.mp (parts _ b hb)
    obtain ⟨p, e, hp⟩ := ih _ b s hb hs
    refine ⟨(inits.length - 1) :: p, e, ?_⟩
    simp only [Braced.at, hb]
    exact hp

/-! ## The entries -/

theorem entry_padinsert (inits : List (Option (Braced E))) (i : Nat) (b : Braced E) :
    entry (padinsert inits i b) i = some b := by
  unfold entry padinsert
  split
  · next h => simp [List.getD, h]
  · next h =>
    have hlen : (inits ++ List.replicate (i - inits.length) none).length = i := by
      rw [List.length_append, List.length_replicate]
      omega
    rw [List.getD, List.getElem?_append_right (by omega), hlen, Nat.sub_self]
    rfl

theorem entry_padinsert_ne {i j : Nat} (inits : List (Option (Braced E))) (b : Braced E)
    (h : j ≠ i) : entry (padinsert inits i b) j = entry inits j := by
  unfold entry padinsert
  split
  · simp [List.getD, h.symm]
  · next hi =>
    have hlen : (inits ++ List.replicate (i - inits.length) none).length = i := by
      rw [List.length_append, List.length_replicate]
      omega
    rcases Nat.lt_or_gt_of_ne h with hlt | hgt
    · rw [List.getD, List.getElem?_append_left (by omega)]
      by_cases hj : j < inits.length
      · rw [List.getElem?_append_left hj]
        rfl
      · rw [List.getElem?_append_right (by omega), List.getElem?_replicate, List.getD,
          List.getElem?_eq_none (Nat.not_lt.mp hj)]
        split <;> rfl
    · rw [List.getD, List.getElem?_eq_none, List.getD, List.getElem?_eq_none (by omega)]
      rw [List.length_append, hlen]
      simp only [List.length_singleton]
      omega

theorem lastSome_padinsert {inits : List (Option (Braced E))} (i : Nat) (b : Braced E)
    (h : inits = [] ∨ LastSome inits) : LastSome (padinsert inits i b) := by
  unfold padinsert
  split
  · next hi =>
    rcases h with rfl | ⟨b', hb'⟩
    · exact absurd hi (Nat.not_lt_zero i)
    · rw [List.getLast?_eq_getElem?] at hb'
      unfold LastSome
      rw [List.getLast?_eq_getElem?, List.length_set, List.getElem?_set]
      split
      · next heq =>
        subst heq
        exact ⟨b, by simp⟩
      · exact ⟨b', hb'⟩
  · exact ⟨b, by simp⟩

theorem initsAt_padinsert (inits : List (Option (Braced E))) (i : Nat) (b : Braced E) :
    initsAt (padinsert inits i b) = (initsAt inits).setPart i b.at := by
  funext p
  cases p with
  | nil => rfl
  | cons j p =>
    show (initsAt (padinsert inits i b)).part j p = _
    rw [initsAt_part]
    by_cases h : j = i
    · subst h
      rw [entry_padinsert]
      simp [Obj.setPart]
    · rw [entry_padinsert_ne inits b h, ← initsAt_part]
      simp [Obj.setPart, Obj.part, h]

theorem FitsInits.padinsert {t s : InitType} {inits : List (Option (Braced E))} {i : Nat}
    {b : Braced E} (h : FitsInits t inits) (hchild : t.child i = some s) (hb : Fits s b) :
    FitsInits t (padinsert inits i b) := by
  refine ⟨fun j b' hj => ?_, fun j b' s' hj hs' => ?_, .inr (lastSome_padinsert i b h.last)⟩
  · by_cases hji : j = i
    · rw [hji, hchild]
      exact Option.some_ne_none s
    · rw [entry_padinsert_ne inits b hji] at hj
      exact h.parts j b' hj
  · by_cases hji : j = i
    · subst hji
      rw [entry_padinsert, Option.some.injEq] at hj
      rw [hchild, Option.some.injEq] at hs'
      rwa [← hj, ← hs']
    · rw [entry_padinsert_ne inits b hji] at hj
      exact h.fits j b' s' hj hs'

/-! ## The parts are read -/

variable {isConst : InitExpr E → Bool}

/-- A function takes what is for an object of this type from a list, and leaves the rest:
`rest` up to the next designator may be for the same object. -/
def Reads (isConst : InitExpr E → Bool) (t : InitType) (h : Handler E) : Prop :=
  ∀ (cur : Option (Braced E)) (desig : Bool) (p : List Nat) (it : Item E)
    (rest : List (Item E)) (σ₁ σ₂ : Obj E) (c : Option (List Nat)) (rem : List (Item E)),
    (∀ b, cur = some b → Fits t b) → t.resolve it.desig = some p →
    (it.plain = false → desig = true) → (it.isBrace = true → p ≠ [] → NextDesig rest) →
    Step isConst t (currentAt cur) desig p it.bare σ₁ c →
    Run isConst t σ₁ c (rest.takeWhile Item.plain) σ₂ rem →
    ∃ b, h cur (it :: rest) = .ok (b, rem ++ rest.dropWhile Item.plain) ∧ Fits t b ∧ b.at = σ₂

theorem Item.desig_of_plain {it : Item E} (h : it.plain = true) : it.desig = [] :=
  List.isEmpty_iff.mp h

theorem Item.withDesig_desig (it : Item E) (ds : List Desig) : (it.withDesig ds).desig = ds := by
  cases it with
  | expr ds' e => rfl
  | brace ds' inits => rfl

theorem Item.withDesig_bare (it : Item E) (ds : List Desig) : (it.withDesig ds).bare = it.bare := by
  cases it with
  | expr ds' e => rfl
  | brace ds' inits => rfl

theorem Item.withDesig_isBrace (it : Item E) (ds : List Desig) :
    (it.withDesig ds).isBrace = it.isBrace := by
  cases it with
  | expr ds' e => rfl
  | brace ds' inits => rfl

/-! ## Scalars -/

section Scalar

variable [Zero E]

theorem scalarInits_ok {inits : List (Item E)} {e : InitExpr E} (h : ScalarInit inits e) :
    scalarInits inits = .ok e := by
  induction h with
  | expr => rfl
  | brace h ih => simpa [scalarInits, Item.scalarInit] using ih

/-- A scalar is one initialiser; in braces it is one that has not been initialised. -/
theorem declInitBraceUpScalar_reads (k : Option StrKind) :
    Reads isConst (.scalar k) (declInitBraceUpScalar (E := E)) := by
  intro cur desig p it rest σ₁ σ₂ c rem hfits hres _ _ hstep hrun
  obtain ⟨hdesig, rfl⟩ : it.desig = [] ∧ p = [] := by
    rw [InitType.resolve] at hres
    split at hres
    · next h =>
      cases hres
      exact ⟨List.isEmpty_iff.mp h, rfl⟩
    · cases hres
  have hdone : ∀ e, it.scalarInit cur.isSome = .ok e → c = none → σ₁ = Obj.leaf e →
      ∃ b, declInitBraceUpScalar cur (it :: rest) = .ok (b, rem ++ rest.dropWhile Item.plain) ∧
        Fits (.scalar k) b ∧ b.at = σ₂ := by
    intro e he hc hσ
    subst hc hσ
    obtain ⟨rfl, rfl⟩ := hrun.of_none (AllPlain.takeWhile rest)
    refine ⟨.scalar e, ?_, .scalar, at_scalar e⟩
    rw [List.takeWhile_append_dropWhile, declInitBraceUpScalar, he]
    rfl
  cases it with
  | expr ds e =>
    obtain rfl : ds = [] := hdesig
    cases hstep with
    | scalar => exact hdone e rfl rfl rfl
    | string h _ => cases h
    | descend _ first _ _ _ => cases first
  | brace ds inits =>
    obtain rfl : ds = [] := hdesig
    cases hstep with
    | string h _ => cases h
    | brace _ _ first _ => cases first
    | scalarBrace fresh h =>
      have hcur : cur = none := by
        cases cur with
        | none => rfl
        | some b =>
          cases hfits b rfl with
          | scalar => cases fresh
          | aggregate ht _ _ _ => cases ht
      refine hdone _ ?_ rfl rfl
      subst hcur
      simpa [Item.scalarInit] using scalarInits_ok h

end Scalar

/-! ## Aggregates -/

/-- A loop over the parts of an object reads a list from the first part on. -/
def LoopReads (isConst : InitExpr E → Bool) (t : InitType) (f : AggregateBrace E) : Prop :=
  ∀ (inits : List (Option (Braced E))) (items : List (Item E)) (σ : Obj E)
    (left : List (Item E)), FitsInits t inits →
    Run isConst t (initsAt inits) (cursorAt (t.avail 0)) items σ left →
    ∃ inits', f inits items = .ok (inits', left) ∧ FitsInits t inits' ∧ initsAt inits' = σ ∧
      (inits' = inits ∧ left = items ∨ LastSome inits')

/-- A reading that begins with a part leaves less than it was given. -/
theorem Run.left_suffix {t : InitType} {σ : Obj E} {left : List (Item E)} (items : List (Item E)) :
    ∀ (τ : Obj E) (c : Option (List Nat)), Run isConst t τ c items σ left → left <:+ items := by
  induction items with
  | nil =>
    intro τ c h
    cases h with
    | nil => exact List.suffix_rfl
  | cons it rest ih =>
    intro τ c h
    cases h with
    | excess _ => exact List.suffix_rfl
    | next _ _ _ hrun => exact (ih _ _ hrun).trans (List.suffix_cons it rest)
    | desig _ _ _ _ _ hrun => exact (ih _ _ hrun).trans (List.suffix_cons it rest)

theorem Run.left_ne {t : InitType} {τ σ : Obj E} {c : Option (List Nat)} {it : Item E}
    {rest left : List (Item E)} (hc : c = none → it.plain = false)
    (h : Run isConst t τ c (it :: rest) σ left) : left ≠ it :: rest := by
  have hrest : left <:+ rest → left ≠ it :: rest := by
    intro hsuffix heq
    have hlen := hsuffix.length_le
    rw [heq, List.length_cons] at hlen
    omega
  cases h with
  | excess hplain =>
    rw [hc rfl] at hplain
    cases hplain
  | next _ _ _ hrun => exact hrest (hrun.left_suffix rest _ _)
  | desig _ _ _ _ _ hrun => exact hrest (hrun.left_suffix rest _ _)

theorem Fits.brace {t : InitType} {inits : List (Option (Braced E))} (ht : t.isScalar = false)
    (h : FitsInits t inits) (hlast : LastSome inits) : Fits t (.brace inits) :=
  .aggregate ht h.parts h.fits hlast

theorem currentInits_ok {t : InitType} {cur : Option (Braced E)} (ht : t.isScalar = false)
    (h : ∀ b, cur = some b → Fits t b) :
    ∃ inits, currentInits cur = .ok inits ∧ FitsInits t inits ∧ initsAt inits = currentAt cur := by
  cases cur with
  | none => exact ⟨[], rfl, fitsInits_nil t, initsAt_nil⟩
  | some b =>
    cases h b rfl with
    | scalar => cases ht
    | aggregate _ parts fits last => exact ⟨_, rfl, ⟨parts, fits, .inr last⟩, rfl⟩

/-- A list that is not empty and read from a part on has its last entry. -/
theorem LoopReads.last {t : InitType} {f : AggregateBrace E} (hf : LoopReads isConst t f)
    {inits : List (Option (Braced E))} {it : Item E} {rest left : List (Item E)} {σ : Obj E}
    (hfits : FitsInits t inits) (hc : t.avail 0 = none → it.plain = false)
    (hrun : Run isConst t (initsAt inits) (cursorAt (t.avail 0)) (it :: rest) σ left) :
    ∃ inits', f inits (it :: rest) = .ok (inits', left) ∧ FitsInits t inits' ∧
      initsAt inits' = σ ∧ LastSome inits' := by
  obtain ⟨inits', hok, hfits', hat, hlast⟩ := hf inits (it :: rest) σ left hfits hrun
  rcases hlast with ⟨-, hleft⟩ | hlast
  · refine absurd hleft (hrun.left_ne fun hnone => hc ?_)
    cases ha : t.avail 0 with
    | none => rfl
    | some i =>
      rw [ha] at hnone
      cases hnone
  · exact ⟨inits', hok, hfits', hat, hlast⟩

/-- There is no reading of `{}`. -/
theorem Step.inits_ne {inits : List (Item E)} {ds : List Desig} (p : List Nat) :
    ∀ (t : InitType) (τ σ : Obj E) (desig : Bool) (c : Option (List Nat)),
      Step isConst t τ desig p (.brace ds inits) σ c → inits ≠ [] := by
  induction p with
  | nil =>
    rintro t τ σ desig c h rfl
    cases h with
    | scalarBrace _ h => cases h
    | brace _ ne _ _ => exact ne rfl
    | string h _ =>
      cases t with
      | scalar k => cases h
      | array elem len => cases h
      | sue prim ms => cases h
  | cons i p ih =>
    intro t τ σ desig c h
    cases h with
    | part _ _ _ _ step => exact ih _ _ _ _ _ step

/-- A constant for an aggregate is read by the loop over its parts. -/
theorem Step.run_expr {t : InitType} {τ σ₁ σ₂ : Obj E} {desig : Bool} {p : List Nat}
    {ds : List Desig} {e : InitExpr E} {c : Option (List Nat)} {rest rem : List (Item E)}
    (ht : t.isScalar = false) (hchar : t.charInit (.expr [] e) = none)
    (hres : t.resolve ds = some p) (hdesig : ds ≠ [] → desig = true) (hrest : AllPlain rest)
    (hstep : Step isConst t τ desig p (.expr [] e) σ₁ c) (hrun : Run isConst t σ₁ c rest σ₂ rem) :
    Run isConst t τ (cursorAt (t.avail 0)) (.expr ds e :: rest) σ₂ rem ∧
      (t.avail 0 = none → (Item.expr ds e).plain = false) := by
  cases ds with
  | nil =>
    rw [InitType.resolve_nil, Option.some.injEq] at hres
    subst hres
    cases hstep with
    | scalar => cases ht
    | string h _ =>
      rw [hchar] at h
      cases h
    | descend _ first child enter step =>
      rw [first]
      exact ⟨.next rfl (fun _ => hrest) (.part child (fun _ => enter)
        (fun h => absurd h Bool.false_ne_true) (fun h => absurd h Bool.false_ne_true) step) hrun,
        fun h => by cases h⟩
  | cons d ds =>
    obtain rfl := hdesig (List.cons_ne_nil d ds)
    exact ⟨.desig rfl hres (fun _ => hrest) (fun h => by cases h) hstep hrun, fun _ => rfl⟩

/-- What is for an aggregate is taken from a list, where the loop reads its parts. -/
theorem LoopReads.aggregate {t : InitType} {f : AggregateBrace E} (ht : t.isScalar = false)
    (hf : LoopReads isConst t f) {cur : Option (Braced E)} {desig : Bool} {p : List Nat}
    {it : Item E} {rest rem : List (Item E)} {σ₁ σ₂ : Obj E} {c : Option (List Nat)}
    (hchar : t.charInit it.bare = none) (hfits : ∀ b, cur = some b → Fits t b)
    (hres : t.resolve it.desig = some p) (hdesig : it.plain = false → desig = true)
    (hbrace : it.isBrace = true → p ≠ [] → NextDesig rest)
    (hstep : Step isConst t (currentAt cur) desig p it.bare σ₁ c)
    (hrun : Run isConst t σ₁ c (rest.takeWhile Item.plain) σ₂ rem) :
    ∃ b, declInitBraceUpAggregate f cur (it :: rest) =
      .ok (b, rem ++ rest.dropWhile Item.plain) ∧ Fits t b ∧ b.at = σ₂ := by
  obtain ⟨former, hformer, hfitsf, hatf⟩ := currentInits_ok ht hfits
  cases it with
  | expr ds e =>
    rw [← hatf] at hstep
    obtain ⟨hloop, hfirst⟩ := Step.run_expr ht hchar hres
      (fun hne => hdesig (List.isEmpty_eq_false_iff.mpr hne)) (AllPlain.takeWhile rest) hstep hrun
    obtain ⟨inits, hok, hfits', hat, hlast⟩ := hf.last hfitsf hfirst hloop
    refine ⟨.brace inits, ?_, Fits.brace ht hfits' hlast, hat⟩
    rw [declInitBraceUpAggregate, hformer]
    show (do
      let r ← f former (.expr ds e :: rest.takeWhile Item.plain)
      Except.ok (Braced.brace r.1, r.2 ++ rest.dropWhile Item.plain)) = _
    rw [show f former (.expr ds e :: rest.takeWhile Item.plain) = _ from hok]
    rfl
  | brace ds inits =>
    have hne : inits ≠ [] := hstep.inits_ne p
    cases ds with
    | nil =>
      obtain rfl : p = [] := by
        rw [Item.desig, InitType.resolve_nil] at hres
        exact (Option.some.inj hres).symm
      obtain ⟨it, items, rfl⟩ := List.exists_cons_of_ne_nil hne
      cases hstep with
      | scalarBrace _ _ => cases ht
      | string h _ =>
        rw [hchar] at h
        cases h
      | brace _ _ first run =>
        obtain ⟨rfl, rfl⟩ := hrun.of_none (AllPlain.takeWhile rest)
        have hsome : t.avail 0 = none → it.plain = false := fun h => by
          rw [first] at h
          cases h
        rw [← initsAt_nil, show some [_] = cursorAt (some _) from rfl, ← first] at run
        obtain ⟨inits', hok, hfits', hat, hlast⟩ := hf.last (fitsInits_nil t) hsome run
        refine ⟨.brace inits', ?_, Fits.brace ht hfits' hlast, hat⟩
        show (do
          let r ← f [] (it :: items)
          Except.ok (Braced.brace r.1, rest)) = _
        rw [hok, List.takeWhile_append_dropWhile]
        rfl
    | cons d ds =>
      obtain rfl := hdesig rfl
      have hp : p ≠ [] := by
        obtain ⟨i, p', rfl⟩ := InitType.resolve_cons hres
        exact List.cons_ne_nil i p'
      have hnext := hbrace rfl hp
      rw [hnext.takeWhile] at hrun
      rw [hnext.dropWhile_self]
      rw [← hatf] at hstep
      cases hrun with
      | nil =>
        have hloop : Run isConst t (initsAt former) (cursorAt (t.avail 0))
            [.brace (d :: ds) inits] σ₁ [] :=
          .desig rfl hres (fun _ it hit => by cases hit) (fun _ _ => nextDesig_nil) hstep .nil
        obtain ⟨inits', hok, hfits', hat, hlast⟩ := hf.last hfitsf (fun _ => rfl) hloop
        refine ⟨.brace inits', ?_, Fits.brace ht hfits' hlast, hat⟩
        rw [declInitBraceUpAggregate, hformer, List.isEmpty_eq_false_iff.mpr hne]
        show (do
          let r ← f former [.brace (d :: ds) inits]
          Except.ok (Braced.brace r.1, rest)) = _
        rw [hok]
        rfl

end Ucc.Cc1.Braces
