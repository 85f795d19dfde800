/-
  Cc1/BraceUpLoops.lean --- the loops over the elements of an array and over the members
  of a struct or a union read a list as the current object says.

  Source: decl_init_brace_up_array2 and decl_init_brace_up_sue2 in src/cc1/decl_init.c,
  sue_member_find in src/cc1/sue.c.
-/
import Ucc.Cc1.BraceUpSound

set_option autoImplicit false

namespace Ucc.Cc1.Braces

variable {E : Type} {isConst : InitExpr E → Bool}

/-! ## A turn -/

/-- `sub` is what the initialiser `it` is for a part of the type `s`, where its designators
lead to `p`. -/
structure Item.IsFor (sub it : Item E) (desig : Bool) (p : List Nat) (s : InitType) : Prop where
  resolve : s.resolve sub.desig = some p
  plain : sub.plain = false → desig = true
  path : p ≠ [] → desig = true
  isBrace : sub.isBrace = it.isBrace
  bare : sub.bare = it.bare

theorem Item.isFor_plain {it : Item E} (h : it.plain = true) (s : InitType) :
    it.IsFor it false [] s where
  resolve := by rw [Item.desig_of_plain h, InitType.resolve_nil]
  plain hp := by rw [h] at hp; cases hp
  path hne := absurd rfl hne
  isBrace := rfl
  bare := rfl

theorem Item.isFor_withDesig (it : Item E) {ds : List Desig} {p : List Nat} {s : InitType}
    (h : s.resolve ds = some p) : (it.withDesig ds).IsFor it true p s where
  resolve := by rw [Item.withDesig_desig, h]
  plain _ := rfl
  path _ := rfl
  isBrace := it.withDesig_isBrace ds
  bare := it.withDesig_bare ds

/-- After the turn for part `i`: the part is put into the entries, and `rest'` is read from
the next part on. -/
structure TurnDone (isConst : InitExpr E → Bool) (t : InitType)
    (inits : List (Option (Braced E))) (σ : Obj E) (i : Nat) (b : Braced E)
    (rest rest' left : List (Item E)) : Prop where
  fits : FitsInits t (padinsert inits i b)
  last : LastSome (padinsert inits i b)
  suffix : rest' <:+ rest
  run : Run isConst t (initsAt (padinsert inits i b)) (cursorAt (t.next i)) rest' σ left

/-- The part that a turn is for takes what is for it. -/
theorem Turn.part {t s : InitType} {up : Handler E} (hup : Reads isConst s up)
    {inits : List (Option (Braced E))} (hfits : FitsInits t inits) {σ : Obj E} {i : Nat}
    {desig : Bool} {p : List Nat} {it sub : Item E} {rest left : List (Item E)}
    (ht : Turn isConst t s (initsAt inits) σ i desig p it rest left)
    {cur : Option (Braced E)} (hcur : ∀ b, cur = some b → entry inits i = some b)
    (hfresh : ∀ σ₁ c, Step isConst s (currentAt (entry inits i)) desig p it.bare σ₁ c →
      Step isConst s (currentAt cur) desig p it.bare σ₁ c) (hsub : sub.IsFor it desig p s) :
    ∃ b rest', up cur (sub :: rest) = .ok (b, rest') ∧
      TurnDone isConst t inits σ i b rest rest' left := by
  obtain ⟨hchild, -, -, -, -, hnext, σ₁, c, σ₂, rem, hstep, hrun, hsuffix, hlater⟩ := ht
  rw [initsAt_part] at hstep
  have hstep' := hfresh σ₁ c hstep
  rw [← hsub.bare] at hstep'
  obtain ⟨b, hok, hfitsb, hat⟩ := hup cur desig p sub rest σ₁ σ₂ c rem
    (fun b hb => hfits.fits i b s (hcur b hb) hchild) hsub.resolve hsub.plain
    (fun hb hne => hnext (hsub.path hne) (hsub.isBrace ▸ hb) hne) hstep' hrun
  refine ⟨b, _, hok, hfits.padinsert hchild hfitsb, lastSome_padinsert i b hfits.last, ?_, ?_⟩
  · obtain ⟨front, hfront⟩ := hsuffix
    refine ⟨front, ?_⟩
    rw [← List.append_assoc, hfront, List.takeWhile_append_dropWhile]
  · rw [initsAt_padinsert, hat]
    exact hlater

/-! ## Constants -/

mutual

/-- An initialiser whose expressions are constants is one. -/
theorem Braced.isConst_of_at (b : Braced E) (h : ∀ p e, b.at p = some e → isConst e = true) :
    b.isConst isConst = true := by
  cases b with
  | scalar e => exact h [] e rfl
  | brace inits =>
    rw [Braced.isConst]
    refine initsConst_of_at inits fun i b hb p e hp => h (i :: p) e ?_
    simp only [Braced.at, hb]
    exact hp

theorem initsConst_of_at (inits : List (Option (Braced E)))
    (h : ∀ i b, entry inits i = some b → ∀ p e, b.at p = some e → isConst e = true) :
    initsConst isConst inits = true := by
  cases inits with
  | nil => rfl
  | cons first rest =>
    have hrest := initsConst_of_at rest fun i b hb => h (i + 1) b hb
    cases first with
    | none => exact hrest
    | some b =>
      rw [initsConst, Braced.isConst_of_at b (h 0 b rfl), hrest]
      rfl

end

/-! ## Arrays -/

/-- The former initialiser of an element; a scalar has none. -/
theorem replacing_ok {elem : InitType} {cur : Option (Braced E)}
    (h : elem.isScalar = true ∨ ∀ p e, currentAt cur p = some e → isConst e = true) :
    replacing isConst elem.isScalar cur = .ok (if elem.isScalar then none else cur) := by
  cases cur with
  | none => cases elem.isScalar <;> rfl
  | some former =>
    cases hs : elem.isScalar with
    | true => rfl
    | false =>
      rw [hs] at h
      have hconst := h.resolve_left Bool.false_ne_true
      rw [replacing, if_neg Bool.false_ne_true, Braced.isConst_of_at former hconst]
      rfl

/-- What a scalar has been initialised with before makes no difference. -/
theorem Step.fresh {t : InitType} {cur : Option (Braced E)} {σ : Obj E} {desig : Bool}
    {p : List Nat} {it : Item E} {c : Option (List Nat)}
    (h : Step isConst t (currentAt cur) desig p it σ c) :
    Step isConst t (currentAt (if t.isScalar then none else cur)) desig p it σ c := by
  cases t with
  | array elem len => exact h
  | sue prim ms => exact h
  | scalar k =>
    cases h with
    | scalar => exact .scalar
    | scalarBrace _ h => exact .scalarBrace rfl h
    | string h ne => exact .string h ne
    | brace _ _ first _ => cases first
    | descend _ first _ _ _ => cases first
    | part child _ _ _ _ => cases child

/-- The element that a turn is for takes what is for it. -/
theorem Turn.element {elem : InitType} {len : Option Nat} {up : Handler E}
    (hup : Reads isConst elem up) {inits : List (Option (Braced E))}
    (hfits : FitsInits (.array elem len) inits) {σ : Obj E} {i : Nat} {desig : Bool}
    {p : List Nat} {it sub : Item E} {s : InitType} {rest left : List (Item E)}
    (ht : Turn isConst (.array elem len) s (initsAt inits) σ i desig p it rest left)
    (hsub : sub.IsFor it desig p elem) :
    ∃ former b rest', replacing isConst elem.isScalar (entry inits i) = .ok former ∧
      up former (sub :: rest) = .ok (b, rest') ∧
      TurnDone isConst (.array elem len) inits σ i b rest rest' left := by
  obtain rfl : elem = s := by
    have hchild := ht.child
    rw [InitType.child] at hchild
    split at hchild
    · exact Option.some.inj hchild
    · cases hchild
  have hformer : replacing isConst elem.isScalar (entry inits i) =
      .ok (if elem.isScalar then none else entry inits i) := by
    refine replacing_ok ?_
    rw [← initsAt_part]
    exact ht.enter
  have hcur : ∀ b, (if elem.isScalar then none else entry inits i) = some b →
      entry inits i = some b := by
    intro b hb
    split at hb
    · cases hb
    · exact hb
  obtain ⟨b, rest', hok, hdone⟩ := ht.part hup hfits hcur (fun _ _ h => h.fresh) hsub
  exact ⟨_, b, rest', hformer, hok, hdone⟩

/-- A designator of an array gives an index that is inside. -/
theorem InitType.resolve_array {elem : InitType} {len : Option Nat} {d : Desig}
    {ds : List Desig} {i : Nat} {p : List Nat}
    (h : (InitType.array elem len).resolve (d :: ds) = some (i :: p)) :
    d.arrayIndex len = .ok i ∧ elem.resolve ds = some p := by
  cases d with
  | member spel => cases h
  | index k =>
    cases k with
    | floating => cases h
    | nonConst => cases h
    | num v =>
      rw [InitType.resolve] at h
      split at h
      · next hin =>
        obtain ⟨q, hq, heq⟩ := Option.map_eq_some_iff.mp h
        obtain ⟨rfl, rfl⟩ := List.cons_eq_cons.mp heq
        refine ⟨?_, hq⟩
        have hlim : len.any (· ≤ v.toNat) = false := by
          cases len with
          | none => rfl
          | some n => simpa using hin.2
        rw [Desig.arrayIndex, if_neg (by omega), hlim]
        rfl
      · cases h

/-- `decl_init_brace_up_array2` reads a list from element `i` on. -/
theorem declInitBraceUpArray2_reads {elem : InitType} {len : Option Nat} {up : Handler E}
    (hup : Reads isConst elem up) (fuel : Nat) :
    ∀ (i : Nat) (inits : List (Option (Braced E))) (items : List (Item E)) (σ : Obj E)
      (left : List (Item E)), items.length ≤ fuel → FitsInits (.array elem len) inits →
      Run isConst (.array elem len) (initsAt inits)
        (cursorAt ((InitType.array elem len).avail i)) items σ left →
      ∃ inits', declInitBraceUpArray2 isConst up elem.isScalar len fuel i inits items =
          .ok (inits', left) ∧ FitsInits (.array elem len) inits' ∧ initsAt inits' = σ ∧
        (inits' = inits ∧ left = items ∨ LastSome inits') := by
  induction fuel with
  | zero =>
    intro i inits items σ left hfuel hfits hrun
    obtain rfl := List.eq_nil_of_length_eq_zero (Nat.le_zero.mp hfuel)
    obtain ⟨rfl, rfl⟩ := hrun.of_nil
    exact ⟨inits, rfl, hfits, rfl, .inl ⟨rfl, rfl⟩⟩
  | succ fuel ih =>
    intro i inits items σ left hfuel hfits hrun
    cases items with
    | nil =>
      obtain ⟨rfl, rfl⟩ := hrun.of_nil
      exact ⟨inits, rfl, hfits, rfl, .inl ⟨rfl, rfl⟩⟩
    | cons it rest =>
      -- what follows a turn for element `j`
      have hturn : ∀ (j : Nat) (b : Braced E) (rest' : List (Item E)),
          TurnDone isConst (.array elem len) inits σ j b rest rest' left →
          ∃ inits', declInitBraceUpArray2 isConst up elem.isScalar len fuel (j + 1)
              (padinsert inits j b) rest' = .ok (inits', left) ∧
            FitsInits (.array elem len) inits' ∧ initsAt inits' = σ ∧
            (inits' = inits ∧ left = it :: rest ∨ LastSome inits') := by
        intro j b rest' hdone
        have hlen := hdone.suffix.length_le
        rw [List.length_cons] at hfuel
        obtain ⟨inits', hok, hfits', hat, hend⟩ :=
          ih (j + 1) (padinsert inits j b) rest' σ left (by omega) hdone.fits hdone.run
        refine ⟨inits', hok, hfits', hat, .inr ?_⟩
        rcases hend with ⟨rfl, -⟩ | hend
        · exact hdone.last
        · exact hend
      cases hdes : it.desig with
      | nil =>
        have hit : it.plain = true := List.isEmpty_iff.mpr hdes
        by_cases hin : len.all (i < ·) = true
        · have hlim : len.any (· ≤ i) = false := by
            cases len with
            | none => rfl
            | some n => simpa using hin
          rw [InitType.avail, if_pos hin] at hrun
          obtain ⟨s, ht⟩ := hrun.turn hit
          obtain ⟨former, b, rest', hformer, hok, hdone⟩ := ht.element hup hfits
            (Item.isFor_plain hit elem)
          obtain ⟨inits', hloop, hrest⟩ := hturn i b rest' hdone
          refine ⟨inits', ?_, hrest⟩
          simp only [declInitBraceUpArray2, hdes, hlim, Bool.false_eq_true, if_false, hformer]
          show (do
            let r ← up former (it :: rest)
            declInitBraceUpArray2 isConst up elem.isScalar len fuel (i + 1)
              (padinsert inits i r.1) r.2) = _
          rw [hok]
          exact hloop
        · have hlim : len.any (· ≤ i) = true := by
            cases len with
            | none => exact absurd rfl hin
            | some n => simpa using hin
          rw [InitType.avail, if_neg hin] at hrun
          obtain ⟨rfl, rfl⟩ := hrun.of_excess hit
          refine ⟨inits, ?_, hfits, rfl, .inl ⟨rfl, rfl⟩⟩
          simp only [declInitBraceUpArray2, hdes, hlim, if_true]
      | cons d ds =>
        obtain ⟨j, p, s, hres, ht⟩ := hrun.turn_desig hdes
        obtain ⟨hindex, hres⟩ := InitType.resolve_array hres
        obtain ⟨former, b, rest', hformer, hok, hdone⟩ := ht.element hup hfits
          (Item.isFor_withDesig it hres)
        obtain ⟨inits', hloop, hrest⟩ := hturn j b rest' hdone
        refine ⟨inits', ?_, hrest⟩
        simp only [declInitBraceUpArray2, hdes, hindex]
        show (do
          let former ← replacing isConst elem.isScalar (entry inits j)
          let r ← up former (it.withDesig ds :: rest)
          declInitBraceUpArray2 isConst up elem.isScalar len fuel (j + 1)
            (padinsert inits j r.1) r.2) = _
        rw [hformer]
        show (do
          let r ← up former (it.withDesig ds :: rest)
          declInitBraceUpArray2 isConst up elem.isScalar len fuel (j + 1)
            (padinsert inits j r.1) r.2) = _
        rw [hok]
        exact hloop

/-! ## Structs and unions -/

section Sue

variable [Zero E] (isConst : InitExpr E → Bool)

/-- What is known of member `i` from its slot. -/
def InitMembers.SlotAt (ms : InitMembers) (i : Nat) : Option (Slot E) → Prop
  | none => ms.avail i = none
  | some .pad => ms.avail i = ms.avail (i + 1)
  | some (.member _ _ up) =>
      ms.avail i = some i ∧ ∃ s, ms.child i = some s ∧ up = s.braceUp isConst

theorem InitMembers.slotAt (ms : InitMembers) :
    ∀ i, ms.SlotAt isConst i (ms.slots isConst : List (Slot E))[i]? := by
  induction ms using InitMembers.induct with
  | nil => exact fun i => rfl
  | pad rest ih =>
    intro i
    cases i with
    | zero => exact rfl
    | succ i =>
      have hrest := ih i
      show (InitMembers.pad rest).SlotAt isConst (i + 1) (rest.slots isConst)[i]?
      cases hslot : (rest.slots isConst : List (Slot E))[i]? with
      | none =>
        rw [hslot] at hrest
        simp only [InitMembers.SlotAt, InitMembers.avail, Nat.add_sub_cancel] at hrest ⊢
        rw [hrest]
        rfl
      | some slot =>
        rw [hslot] at hrest
        cases slot with
        | pad =>
          simp only [InitMembers.SlotAt, InitMembers.avail, Nat.add_sub_cancel] at hrest ⊢
          rw [hrest]
        | member spel holds up =>
          obtain ⟨havail, s, hchild, hup⟩ := hrest
          refine ⟨?_, s, hchild, hup⟩
          simp only [InitMembers.avail, Nat.add_sub_cancel, havail]
          rfl
  | member name ref rest ih =>
    intro i
    cases i with
    | zero => exact ⟨rfl, ref, rfl, rfl⟩
    | succ i =>
      have hrest := ih i
      show (InitMembers.member name ref rest).SlotAt isConst (i + 1) (rest.slots isConst)[i]?
      cases hslot : (rest.slots isConst : List (Slot E))[i]? with
      | none =>
        rw [hslot] at hrest
        simp only [InitMembers.SlotAt, InitMembers.avail] at hrest ⊢
        rw [hrest]
        rfl
      | some slot =>
        rw [hslot] at hrest
        cases slot with
        | pad =>
          simp only [InitMembers.SlotAt, InitMembers.avail] at hrest ⊢
          rw [hrest]
        | member spel holds up =>
          obtain ⟨havail, s, hchild, hup⟩ := hrest
          refine ⟨?_, s, hchild, hup⟩
          simp only [InitMembers.avail, havail]
          rfl

theorem InitMembers.slots_child (ms : InitMembers) (s : InitType) :
    ∀ i, ms.child i = some s →
      ∃ spel holds, (ms.slots isConst : List (Slot E))[i]? =
        some (.member spel holds (s.braceUp isConst)) := by
  induction ms using InitMembers.induct with
  | nil => exact fun i h => by cases h
  | pad rest ih =>
    intro i h
    cases i with
    | zero => cases h
    | succ i => exact ih i h
  | member name ref rest ih =>
    intro i h
    cases i with
    | zero =>
      cases h
      exact ⟨name, fun spel => s.hasMember spel, rfl⟩
    | succ i => exact ih i h

/-- A designator of a struct or a union finds its member. -/
theorem InitMembers.resolve_slot (ms : InitMembers) (spel : String) (ds : List Desig) :
    ∀ (i : Nat) (p : List Nat), ms.resolve spel ds = some (i :: p) →
      ∃ s direct, findSlot spel (ms.slots isConst : List (Slot E)) = some (i, direct) ∧
        ms.child i = some s ∧ (direct = true → s.resolve ds = some p) ∧
        (direct = false → s.resolve (.member spel :: ds) = some p ∧ ms.anonAt i = true) := by
  have hshift : ∀ (rest : InitMembers) (i : Nat) (p : List Nat),
      (rest.resolve spel ds).map shift = some (i :: p) →
        ∃ j, i = j + 1 ∧ rest.resolve spel ds = some (j :: p) := by
    intro rest i p h
    obtain ⟨q, hq, heq⟩ := Option.map_eq_some_iff.mp h
    obtain ⟨j, q, rfl⟩ := rest.resolve_cons spel ds q hq
    obtain ⟨rfl, rfl⟩ := List.cons_eq_cons.mp heq
    exact ⟨j, rfl, hq⟩
  induction ms using InitMembers.induct with
  | nil => exact fun i p h => by cases h
  | pad rest ih =>
    intro i p h
    obtain ⟨j, rfl, hj⟩ := hshift rest i p h
    obtain ⟨s, direct, hfind, hrest⟩ := ih j p hj
    refine ⟨s, direct, ?_, hrest⟩
    rw [InitMembers.slots, findSlot, hfind]
    rfl
  | member name ref rest ih =>
    intro i p h
    cases name with
    | some name =>
      rw [InitMembers.resolve] at h
      split at h
      · next heq =>
        obtain ⟨q, hq, hpath⟩ := Option.map_eq_some_iff.mp h
        obtain ⟨rfl, rfl⟩ := List.cons_eq_cons.mp hpath
        refine ⟨ref, true, ?_, rfl, fun _ => hq, fun hf => absurd hf.symm Bool.false_ne_true⟩
        rw [InitMembers.slots, findSlot, if_pos heq]
      · next hne =>
        obtain ⟨j, rfl, hj⟩ := hshift rest i p h
        obtain ⟨s, direct, hfind, hrest⟩ := ih j p hj
        refine ⟨s, direct, ?_, hrest⟩
        rw [InitMembers.slots, findSlot, if_neg hne, hfind]
        rfl
    | none =>
      rw [InitMembers.resolve] at h
      split at h
      · next heq =>
        obtain ⟨q, hq, hpath⟩ := Option.map_eq_some_iff.mp h
        obtain ⟨rfl, rfl⟩ := List.cons_eq_cons.mp hpath
        refine ⟨ref, false, ?_, rfl, fun hf => absurd hf Bool.false_ne_true, fun _ => ⟨hq, rfl⟩⟩
        rw [InitMembers.slots, findSlot, if_pos heq]
      · next hne =>
        obtain ⟨j, rfl, hj⟩ := hshift rest i p h
        obtain ⟨s, direct, hfind, hrest⟩ := ih j p hj
        refine ⟨s, direct, ?_, hrest⟩
        rw [InitMembers.slots, findSlot, if_neg hne, hfind]
        rfl

end Sue

/-- An object that has been initialised is no empty brace. -/
theorem objDiscard_ok {s : InitType} {former : Option (Braced E)} (next : List Desig)
    (h : ∀ b, former = some b → Fits s b) : objDiscard next former = .ok () := by
  unfold objDiscard
  split
  · next =>
    cases h _ rfl with
    | aggregate _ _ _ last =>
      obtain ⟨b, hb⟩ := last
      cases hb
  · rfl

/-- The entries of an object that has not been initialised have not moved. -/
theorem movedDiscard_ok {s : InitType} {former : Option (Braced E)} (braced : Braced E)
    (h : ∀ b, former = some b → Fits s b) (hnone : ∀ p, currentAt former p = none) :
    movedDiscard former braced = .ok () := by
  cases former with
  | none => rfl
  | some b =>
    obtain ⟨p, e, hp⟩ := (h b rfl).leaf
    have habs := hnone p
    rw [currentAt_some, hp] at habs
    cases habs

/-- After the turn for a member: a union is done, in a struct the next member follows. -/
def sueRest (prim : SuePrimitive) (slots : List (Slot E)) (isAnon : Bool) (fuel j : Nat)
    (inits : List (Option (Braced E))) (rest : List (Item E)) :
    Except InitError (List (Option (Braced E)) × List (Item E)) :=
  match prim with
  | .union_ => .ok (inits, rest)
  | .struct_ => declInitBraceUpSue2 prim slots isAnon fuel (j + 1) inits rest

theorem declInitBraceUpSue2_plain {prim : SuePrimitive} {slots : List (Slot E)} {isAnon : Bool}
    {fuel i : Nat} {inits : List (Option (Braced E))} {it : Item E} {rest rest' : List (Item E)}
    {spel : Option String} {holds : String → Bool} {up : Bool → Handler E} {b : Braced E}
    (hdes : it.desig = []) (hslot : slots[i]? = some (.member spel holds up))
    (hok : up false (entry inits i) (it :: rest) = .ok (b, rest')) :
    declInitBraceUpSue2 prim slots isAnon (fuel + 1) i inits (it :: rest) =
      sueRest prim slots isAnon fuel i (padinsert inits i b) rest' := by
  simp only [declInitBraceUpSue2, hdes, hslot, hok]
  cases prim with
  | struct_ => rfl
  | union_ => rfl

theorem declInitBraceUpSue2_desig {prim : SuePrimitive} {slots : List (Slot E)} {isAnon : Bool}
    {fuel i j : Nat} {inits : List (Option (Braced E))} {it : Item E}
    {rest rest' : List (Item E)} {name : String} {next : List Desig} {spel : Option String}
    {holds : String → Bool} {up : Bool → Handler E} {b : Braced E} {direct : Bool}
    (hdes : it.desig = .member name :: next) (hfind : findSlot name slots = some (j, direct))
    (hslot : slots[j]? = some (.member spel holds up))
    (hdiscard : objDiscard next (entry inits j) = .ok ())
    (hmoved : direct = false → it.isBrace = true → movedDiscard (entry inits j) b = .ok ())
    (hok : up (!direct) (entry inits j) ((if direct then it.withDesig next else it) :: rest) =
      .ok (b, rest')) :
    declInitBraceUpSue2 prim slots isAnon (fuel + 1) i inits (it :: rest) =
      sueRest prim slots isAnon fuel j (padinsert inits j b) rest' := by
  simp only [declInitBraceUpSue2, hdes, hfind, hslot]
  cases direct with
  | true =>
    simp only [if_true] at hok ⊢
    rw [hdiscard]
    show (do
      let r ← up false (entry inits j) (it.withDesig next :: rest)
      sueRest prim slots isAnon fuel j (padinsert inits j r.1) r.2) = _
    rw [show up false (entry inits j) (it.withDesig next :: rest) = _ from hok]
    rfl
  | false =>
    simp only [Bool.false_eq_true, if_false, Bool.not_false, Bool.true_and] at hok ⊢
    rw [hok]
    cases hb : it.isBrace with
    | true =>
      show (do
        movedDiscard (entry inits j) b
        sueRest prim slots isAnon fuel j (padinsert inits j b) rest') = _
      rw [hmoved rfl hb]
      rfl
    | false =>
      cases prim with
      | struct_ => rfl
      | union_ => rfl

/-- `decl_init_brace_up_sue2` reads a list from member `i` on. -/
theorem declInitBraceUpSue2_reads [Zero E] {prim : SuePrimitive} {ms : InitMembers}
    (hms : ∀ i s, ms.child i = some s →
      ∀ isAnon, Reads isConst s (s.braceUp isConst isAnon : Handler E)) (isAnon : Bool)
    (fuel : Nat) :
    ∀ (i : Nat) (inits : List (Option (Braced E))) (items : List (Item E)) (σ : Obj E)
      (left : List (Item E)),
      items.length * ((ms.slots isConst : List (Slot E)).length + 1) +
        ((ms.slots isConst : List (Slot E)).length - i) ≤ fuel →
      FitsInits (.sue prim ms) inits →
      Run isConst (.sue prim ms) (initsAt inits) (cursorAt (ms.avail i)) items σ left →
      ∃ inits', declInitBraceUpSue2 prim (ms.slots isConst) isAnon fuel i inits items =
          .ok (inits', left) ∧ FitsInits (.sue prim ms) inits' ∧ initsAt inits' = σ ∧
        (inits' = inits ∧ left = items ∨ LastSome inits') := by
  induction fuel with
  | zero =>
    intro i inits items σ left hfuel hfits hrun
    cases items with
    | nil =>
      obtain ⟨rfl, rfl⟩ := hrun.of_nil
      exact ⟨inits, rfl, hfits, rfl, .inl ⟨rfl, rfl⟩⟩
    | cons it rest =>
      rw [List.length_cons, Nat.succ_mul] at hfuel
      omega
  | succ fuel ih =>
    intro i inits items σ left hfuel hfits hrun
    cases items with
    | nil =>
      obtain ⟨rfl, rfl⟩ := hrun.of_nil
      exact ⟨inits, rfl, hfits, rfl, .inl ⟨rfl, rfl⟩⟩
    | cons it rest =>
      rw [List.length_cons, Nat.succ_mul] at hfuel
      -- what follows a turn for member `j`
      have hturn : ∀ (j : Nat) (b : Braced E) (rest' : List (Item E)),
          ((InitType.sue prim ms).isUnion = true → AllPlain rest) →
          TurnDone isConst (.sue prim ms) inits σ j b rest rest' left →
          ∃ inits', sueRest prim (ms.slots isConst) isAnon fuel j (padinsert inits j b) rest' =
              .ok (inits', left) ∧ FitsInits (.sue prim ms) inits' ∧ initsAt inits' = σ ∧
            (inits' = inits ∧ left = it :: rest ∨ LastSome inits') := by
        intro j b rest' hunion hdone
        cases prim with
        | union_ =>
          have hplain : AllPlain rest' := fun it hit => hunion rfl it (hdone.suffix.subset hit)
          obtain ⟨hσ, hleft⟩ := Run.of_none hplain hdone.run
          exact ⟨padinsert inits j b, by rw [hleft]; rfl, hdone.fits, hσ.symm, .inr hdone.last⟩
        | struct_ =>
          have hlen := Nat.mul_le_mul_right ((ms.slots isConst : List (Slot E)).length + 1)
            hdone.suffix.length_le
          obtain ⟨inits', hok, hfits', hat, hend⟩ :=
            ih (j + 1) (padinsert inits j b) rest' σ left (by omega) hdone.fits hdone.run
          refine ⟨inits', hok, hfits', hat, .inr ?_⟩
          rcases hend with ⟨rfl, -⟩ | hend
          · exact hdone.last
          · exact hend
      cases hdes : it.desig with
      | nil =>
        have hit : it.plain = true := List.isEmpty_iff.mpr hdes
        have hslotAt := ms.slotAt isConst i
        cases hslot : (ms.slots isConst : List (Slot E))[i]? with
        | none =>
          rw [hslot] at hslotAt
          rw [show ms.avail i = none from hslotAt] at hrun
          obtain ⟨rfl, rfl⟩ := hrun.of_excess hit
          refine ⟨inits, ?_, hfits, rfl, .inl ⟨rfl, rfl⟩⟩
          simp only [declInitBraceUpSue2, hdes, hslot]
        | some slot =>
          have hlt := (List.getElem?_eq_some_iff.mp hslot).1
          rw [hslot] at hslotAt
          cases slot with
          | pad =>
            rw [show ms.avail i = ms.avail (i + 1) from hslotAt] at hrun
            obtain ⟨inits', hok, hrest⟩ := ih (i + 1) inits (it :: rest) σ left
              (by rw [List.length_cons, Nat.succ_mul]; omega) hfits hrun
            refine ⟨inits', ?_, hrest⟩
            simp only [declInitBraceUpSue2, hdes, hslot]
            exact hok
          | member spel holds up =>
            obtain ⟨havail, s, hchild, rfl⟩ := hslotAt
            rw [havail] at hrun
            obtain ⟨s', ht⟩ := hrun.turn hit
            obtain rfl : s = s' := Option.some.inj (hchild.symm.trans ht.child)
            obtain ⟨b, rest', hok, hdone⟩ := ht.part (hms i s hchild false) hfits
              (fun _ h => h) (fun _ _ h => h) (Item.isFor_plain hit s)
            obtain ⟨inits', hloop, hrest⟩ := hturn i b rest' ht.union hdone
            refine ⟨inits', ?_, hrest⟩
            rw [declInitBraceUpSue2_plain hdes hslot hok]
            exact hloop
      | cons d ds =>
        obtain ⟨j, p, s, hres, ht⟩ := hrun.turn_desig hdes
        cases d with
        | index k => cases hres
        | member name =>
          obtain ⟨s', direct, hfind, hchild, hdirect, hanon⟩ :=
            ms.resolve_slot isConst name ds j p hres
          obtain rfl : s' = s := Option.some.inj (hchild.symm.trans ht.child)
          obtain ⟨spel, holds, hslot⟩ := ms.slots_child isConst s' j hchild
          have hfitsj : ∀ b, entry inits j = some b → Fits s' b :=
            fun b hb => hfits.fits j b s' hb hchild
          have hfor : (if direct then it.withDesig ds else it).IsFor it true p s' := by
            cases direct with
            | true => exact Item.isFor_withDesig it (hdirect rfl)
            | false =>
              refine ⟨?_, fun _ => rfl, fun _ => rfl, rfl, rfl⟩
              rw [if_neg Bool.false_ne_true, hdes]
              exact (hanon rfl).1
          obtain ⟨b, rest', hok, hdone⟩ := ht.part (hms j s' hchild (!direct)) hfits
            (fun _ h => h) (fun _ _ h => h) hfor
          obtain ⟨inits', hloop, hrest⟩ := hturn j b rest' ht.union hdone
          refine ⟨inits', ?_, hrest⟩
          have hmoved : direct = false → it.isBrace = true →
              movedDiscard (entry inits j) b = .ok () := by
            intro hd hb
            refine movedDiscard_ok b hfitsj fun q => ?_
            rw [← initsAt_part]
            exact ht.anon rfl hb (hanon hd).2 q
          rw [declInitBraceUpSue2_desig hdes hfind hslot (objDiscard_ok ds hfitsj) hmoved hok]
          exact hloop

end Ucc.Cc1.Braces
