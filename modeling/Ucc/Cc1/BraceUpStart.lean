/-
  Cc1/BraceUpStart.lean --- the initialiser of an object, braced up, is its reading.

  Source: decl_init_brace_up_start, decl_init_brace_up_r and
  decl_init_brace_up_array_chk_char in src/cc1/decl_init.c.
-/
import Ucc.Cc1.BraceUpLoops

set_option autoImplicit false

namespace Ucc.Cc1.Braces

variable {E : Type} {isConst : InitExpr E → Bool}

/-! ## Types of objects -/

mutual

/-- The arrays have lengths, and the lengths are no negative numbers for an `int`. -/
def InitType.Bounded : InitType → Prop
  | .scalar _ => True
  | .array elem len => elem.Bounded ∧ ∃ n, len = some n ∧ n < 2 ^ 31
  | .sue _ ms => ms.Bounded

def InitMembers.Bounded : InitMembers → Prop
  | .nil => True
  | .member _ ref rest => ref.Bounded ∧ rest.Bounded
  | .pad rest => rest.Bounded

end

/-- The type of an object that is initialised: it may be an incomplete array. -/
def InitType.ObjectType : InitType → Prop
  | .scalar _ => True
  | .array elem len => elem.Bounded ∧ ∀ n, len = some n → n < 2 ^ 31
  | .sue _ ms => ms.Bounded

theorem InitType.Bounded.object {t : InitType} (h : t.Bounded) : t.ObjectType := by
  cases t with
  | scalar k => trivial
  | array elem len =>
    obtain ⟨helem, n, rfl, hn⟩ := h
    refine ⟨helem, fun m hm => ?_⟩
    cases hm
    exact hn
  | sue prim ms => exact h

theorem arrayLimit_eq {len : Option Nat} (h : ∀ n, len = some n → n < 2 ^ 31) :
    arrayLimit len = len := by
  cases len with
  | none => rfl
  | some n =>
    have hn := h n rfl
    rw [arrayLimit, Nat.mod_eq_of_lt (by omega), if_pos hn]

/-! ## Strings -/

/-- Designators make no difference to a string. -/
theorem isCharInit_bare (elem : InitType) (it : Item E) (rest : List (Item E)) :
    isCharInit elem (it :: rest) = isCharInit elem [it.bare] := by
  cases it with
  | expr ds e => cases e <;> rfl
  | brace ds inits =>
    cases inits with
    | nil => rfl
    | cons it inits =>
      cases inits with
      | nil =>
        cases it with
        | expr ds e => cases e <;> rfl
        | brace ds inits => rfl
      | cons it' inits =>
        cases it with
        | expr ds e => cases e <;> rfl
        | brace ds inits => rfl

/-- A string is for an array of characters. -/
theorem isCharInit_scalar {elem : InitType} {items : List (Item E)} {chars : List E}
    (h : isCharInit elem items = some chars) : ∃ k, elem = .scalar k := by
  unfold isCharInit at h
  split at h
  · split at h
    · exact ⟨_, rfl⟩
    · cases h
  · split at h
    · exact ⟨_, rfl⟩
    · cases h
  · cases h

theorem entry_chars (chars : List E) (i : Nat) :
    entry (chars.map fun c => some (Braced.scalar (.val c))) i =
      chars[i]?.map fun c => Braced.scalar (.val c) := by
  unfold entry
  rw [List.getD, List.getElem?_map]
  cases chars[i]? <;> rfl

theorem at_chars (chars : List E) :
    (Braced.brace (chars.map fun c => some (Braced.scalar (.val c)))).at = Obj.chars chars := by
  funext p
  cases p with
  | nil => rfl
  | cons i p =>
    simp only [Braced.at, entry_chars]
    cases p with
    | nil => cases h : chars[i]? <;> simp [Obj.chars, h, Braced.at]
    | cons j p => cases h : chars[i]? <;> simp [Obj.chars, Braced.at]

theorem fits_chars {k : Option StrKind} {len : Option Nat} {chars : List E} (hne : chars ≠ [])
    (hlen : ∀ n, len = some n → chars.length ≤ n) :
    Fits (.array (.scalar k) len)
      (.brace (chars.map fun c => some (Braced.scalar (.val c)))) := by
  refine .aggregate rfl (fun i b hb => ?_) (fun i b s hb hs => ?_) ?_
  · rw [entry_chars] at hb
    obtain ⟨c, hc, -⟩ := Option.map_eq_some_iff.mp hb
    have hi := (List.getElem?_eq_some_iff.mp hc).1
    have hin : len.all (i < ·) = true := by
      cases len with
      | none => rfl
      | some n =>
        have hn := hlen n rfl
        simp only [Option.all_some, decide_eq_true_eq]
        omega
    rw [InitType.child, if_pos hin]
    exact Option.some_ne_none _
  · rw [entry_chars] at hb
    obtain ⟨c, -, rfl⟩ := Option.map_eq_some_iff.mp hb
    rw [InitType.child] at hs
    split at hs
    · obtain rfl := Option.some.inj hs
      exact .scalar
    · cases hs
  · obtain ⟨front, c, rfl⟩ := List.eq_nil_or_concat chars |>.resolve_left hne
    exact ⟨.scalar (.val c), by simp⟩

theorem length_limitChars (len : Option Nat) (chars : List E) :
    ∀ n, len = some n → (limitChars len chars).length ≤ n := by
  rintro n rfl
  rw [limitChars, List.length_take]
  exact Nat.min_le_left n _

/-! ## Every type -/

/-- There are turns for every initialiser and every part. -/
theorem le_turns (n : Nat) (items : List (Item E)) : items.length * (n + 1) + n ≤ turns n items := by
  have hsum : items.length ≤ (items.map fun it => it.desig.length + 1).sum := by
    induction items with
    | nil => exact Nat.le_refl 0
    | cons it items ih =>
      rw [List.length_cons, List.map_cons, List.sum_cons]
      omega
  have hmul := Nat.mul_le_mul_right (n + 1) hsum
  rw [turns, Nat.succ_mul]
  omega

theorem length_le_turns (n : Nat) (items : List (Item E)) : items.length ≤ turns n items := by
  have hle := le_turns n items
  have hmul : items.length ≤ items.length * (n + 1) :=
    Nat.le_mul_of_pos_right items.length (Nat.succ_pos n)
  omega

section Reads

variable [Zero E]

theorem Reads.array {elem : InitType} {len : Option Nat} (hlen : ∀ n, len = some n → n < 2 ^ 31)
    (helem : Reads isConst elem (elem.braceUp isConst false : Handler E)) (isAnon : Bool) :
    Reads isConst (.array elem len) ((InitType.array elem len).braceUp isConst isAnon) := by
  intro cur desig p it rest σ₁ σ₂ c rem hfits hres hdesig hbrace hstep hrun
  have hbare := isCharInit_bare elem it rest
  cases hchar : isCharInit elem (it :: rest) with
  | some chars =>
    have hcharInit : (InitType.array elem len).charInit it.bare = some (limitChars len chars) := by
      rw [InitType.charInit, ← hbare, hchar]
      rfl
    have hp : p = [] := by
      by_contra hne
      obtain ⟨i, p, rfl⟩ := List.exists_cons_of_ne_nil hne
      have hplain : it.plain = false := by
        rw [Item.plain, List.isEmpty_eq_false_iff]
        intro hnil
        rw [hnil, InitType.resolve_nil] at hres
        cases hres
      cases hstep with
      | part _ _ harray _ _ =>
        rw [hcharInit] at harray
        cases harray (hdesig hplain)
    subst hp
    generalize it.bare = sub at hstep hcharInit
    obtain ⟨rfl, hne, rfl⟩ : σ₁ = Obj.chars (limitChars len chars) ∧ limitChars len chars ≠ [] ∧
        c = none := by
      cases hstep with
      | string h ne =>
        rw [hcharInit, Option.some.injEq] at h
        subst h
        exact ⟨rfl, ne, rfl⟩
      | brace h _ _ _ =>
        rw [hcharInit] at h
        cases h
      | descend h _ _ _ _ =>
        rw [hcharInit] at h
        cases h
    obtain ⟨rfl, rfl⟩ := hrun.of_none (AllPlain.takeWhile rest)
    obtain ⟨k, rfl⟩ := isCharInit_scalar hchar
    refine ⟨.brace ((limitChars len chars).map fun c => some (.scalar (.val c))), ?_,
      fits_chars hne (length_limitChars len chars), at_chars _⟩
    rw [List.takeWhile_append_dropWhile]
    simp only [InitType.braceUp, hchar, arrayLimit_eq hlen]
    rfl
  | none =>
    have hcharInit : (InitType.array elem len).charInit it.bare = none := by
      rw [InitType.charInit, ← hbare, hchar]
      rfl
    have hloop : LoopReads isConst (.array elem len) fun inits (items : List (Item E)) =>
        declInitBraceUpArray2 isConst (elem.braceUp isConst false) elem.isScalar (arrayLimit len)
          (turns ((arrayLimit len).getD 0) items) 0 inits items := by
      intro inits items σ left hfits hrun
      rw [arrayLimit_eq hlen]
      exact declInitBraceUpArray2_reads helem _ 0 inits items σ left (length_le_turns _ items)
        hfits hrun
    simp only [InitType.braceUp, hchar]
    exact hloop.aggregate rfl hcharInit hfits hres hdesig hbrace hstep hrun

theorem Reads.sue {prim : SuePrimitive} {ms : InitMembers}
    (hms : ∀ i s, ms.child i = some s →
      ∀ isAnon, Reads isConst s (s.braceUp isConst isAnon : Handler E)) (isAnon : Bool) :
    Reads isConst (.sue prim ms) ((InitType.sue prim ms).braceUp isConst isAnon : Handler E) := by
  intro cur desig p it rest σ₁ σ₂ c rem hfits hres hdesig hbrace hstep hrun
  have hloop : LoopReads isConst (.sue prim ms) fun inits (items : List (Item E)) =>
      declInitBraceUpSue2 prim (ms.slots isConst) isAnon
        (turns (ms.slots isConst : List (Slot E)).length items) 0 inits items := by
    intro inits items σ left hfits hrun
    exact declInitBraceUpSue2_reads hms isAnon _ 0 inits items σ left (le_turns _ items) hfits hrun
  rw [InitType.braceUp]
  exact hloop.aggregate rfl rfl hfits hres hdesig hbrace hstep hrun

/-- Every member takes what is for it from a list. -/
def InitMembers.PartsRead (isConst : InitExpr E → Bool) (ms : InitMembers) : Prop :=
  ms.Bounded → ∀ i s, ms.child i = some s →
    ∀ isAnon, Reads isConst s (s.braceUp isConst isAnon : Handler E)

/-- `decl_init_brace_up_r` takes what is for an object from a list. -/
theorem InitType.braceUp_reads (t : InitType) :
    t.ObjectType → ∀ isAnon, Reads isConst t (t.braceUp isConst isAnon : Handler E) := by
  induction t using InitType.induct (Q := InitMembers.PartsRead isConst) with
  | scalar k =>
    intro _ isAnon
    rw [InitType.braceUp]
    exact declInitBraceUpScalar_reads k
  | array elem len ih =>
    rintro ⟨helem, hlen⟩ isAnon
    exact Reads.array hlen (ih helem.object false) isAnon
  | sue prim ms ih => exact fun h isAnon => Reads.sue (ih h) isAnon
  | nil =>
    intro _ i s h
    cases h
  | member name ref rest ihref ihrest =>
    rintro ⟨href, hrest⟩ i s h
    cases i with
    | zero =>
      cases h
      exact ihref href.object
    | succ i => exact ihrest hrest i s h
  | pad rest ih =>
    intro hb i s h
    cases i with
    | zero => cases h
    | succ i => exact ih hb i s h

end Reads

/-! ## The initialiser of an object -/

/-- What is read from the initialiser of an object. -/
def Initialises (isConst : InitExpr E → Bool) (t : InitType) (init : Item E) (τ : Obj E) : Prop :=
  t.startsWith init = true ∧ init.desig = [] ∧
    ∃ c, Step isConst t Obj.empty false [] init τ c

theorem entry_lt {inits : List (Option (Braced E))} {i : Nat} {b : Braced E}
    (h : entry inits i = some b) : i < inits.length := by
  by_contra hge
  rw [entry, List.getD, List.getElem?_eq_none (Nat.not_lt.mp hge)] at h
  cases h

/-- An array is completed to one more than the largest index that is initialised. -/
theorem complete_length {elem : InitType} {b : Braced E} (h : Fits (.array elem none) b) :
    ∃ n, (InitType.array elem none).complete b = .array elem (some (n + 1)) ∧
      Fits (.array elem (some (n + 1))) b ∧ (∀ i p, n < i → b.at (i :: p) = none) ∧
      ∃ p e, b.at (n :: p) = some e := by
  cases h with
  | @aggregate _ inits _ parts fits last =>
    obtain ⟨b, hb⟩ := last.entry
    have hpos := entry_lt hb
    refine ⟨inits.length - 1, ?_, .aggregate rfl (fun i b hi => ?_) (fun i b s hi hs => ?_) last,
      fun i p hi => ?_, ?_⟩
    · rw [Nat.sub_add_cancel (by omega)]
      rfl
    · have hlt := entry_lt hi
      have hin : (some (inits.length - 1 + 1)).all (i < ·) = true := by
        simp only [Option.all_some, decide_eq_true_eq]
        omega
      rw [InitType.child, if_pos hin]
      exact Option.some_ne_none elem
    · rw [InitType.child] at hs
      split at hs
      · exact fits i b s hi hs
      · cases hs
    · have hnone : entry inits i = none := by
        rw [entry, List.getD, List.getElem?_eq_none (by omega)]
        rfl
      simp only [Braced.at, hnone]
    · obtain ⟨p, e, hp⟩ := (fits _ b elem hb rfl).leaf
      refine ⟨p, e, ?_⟩
      simp only [Braced.at, hb]
      exact hp

/-- `struct { int a[2]; int :3; struct { int b, c; }; }` -/
def pairType : InitType :=
  .sue .struct_ (.member (some "a") (.array (.scalar none) (some 2))
    (.pad (.member none (.sue .struct_ (.member (some "b") (.scalar none)
      (.member (some "c") (.scalar none) .nil))) .nil)))

/-- `[i]` -/
def atIndex (i : Nat) : Desig := .index (.num (BitVec.ofNat 64 i))

def num (n : Nat) : Item Nat := .expr [] (.val n)

/-- `{ [1].a[1] = 5, 6, 7, { 1 }, [0] = { .c = 3, .a = { 8, 9 } }, [1].b = 4 }` -/
def pairsInit : Item Nat :=
  .brace [] [.expr [atIndex 1, .member "a", atIndex 1] (.val 5), num 6, num 7,
    .brace [] [num 1],
    .brace [atIndex 0] [.expr [.member "c"] (.val 3), .brace [.member "a"] [num 8, num 9]],
    .expr [atIndex 1, .member "b"] (.val 4)]

/-- Everything is a constant. -/
def allConst (_ : InitExpr Nat) : Bool := true

theorem pairs_initialised : ∃ τ : Obj Nat,
    Initialises allConst (.array pairType none) pairsInit τ ∧
      τ [1, 2, 0] = some (.val 4) ∧ τ [1, 2, 1] = some (.val 7) ∧ τ [1, 0, 0] = none ∧
      τ [0, 0, 1] = some (.val 9) ∧ τ [2, 0, 0] = some (.val 1) := by
  have hno : ∀ {P : Prop}, false = true → P := fun h => absurd h Bool.false_ne_true
  refine ⟨_, ⟨rfl, rfl, none, .brace rfl (List.cons_ne_nil _ _) rfl
    -- `[1].a[1] = 5`
    (.desig rfl rfl hno hno
      (.part rfl (fun _ => .inr fun _ _ _ => rfl) (fun _ => rfl) (fun _ => hno)
        (.part rfl (fun _ => trivial) (fun _ => rfl) (fun _ => hno)
          (.part rfl (fun _ => .inl rfl) (fun _ => rfl) (fun _ => hno) .scalar)))
    -- `6` and `7` go on behind it
    (.next rfl hno
      (.part rfl (fun _ => .inr fun _ _ _ => rfl) (fun _ => rfl) hno
        (.part rfl (fun _ => trivial) (fun _ => rfl) hno (.descend rfl rfl rfl trivial .scalar)))
    (.next rfl hno
      (.part rfl (fun _ => .inr fun _ _ _ => rfl) (fun _ => rfl) hno
        (.part rfl (fun _ => trivial) (fun _ => rfl) hno
          (.part rfl (fun _ => trivial) (fun _ => rfl) hno .scalar)))
    -- `{ 1 }`
    (.next rfl hno
      (.part rfl (fun _ => .inr fun _ _ _ => rfl) (fun _ => rfl) hno
        (.brace rfl (List.cons_ne_nil _ _) rfl
          (.next rfl hno
            (.part rfl (fun _ => trivial) (fun _ => rfl) hno
              (.descend rfl rfl rfl (.inl rfl) .scalar)) .nil)))
    -- `[0] = { .c = 3, .a = { 8, 9 } }`
    (.desig rfl rfl hno (fun _ h => absurd h (by simp))
      (.part rfl (fun _ => .inr fun _ _ _ => rfl) (fun _ => rfl) (fun _ _ => hno)
        (.brace rfl (List.cons_ne_nil _ _) rfl
          (.desig rfl rfl hno hno
            (.part rfl (fun _ => trivial) (fun _ => rfl) (fun _ => hno)
              (.part rfl (fun _ => trivial) (fun _ => rfl) (fun _ => hno) .scalar))
          (.desig rfl rfl hno (fun _ h => absurd h (by simp))
            (.part rfl (fun _ => trivial) (fun _ => rfl) (fun _ _ => hno)
              (.brace rfl (List.cons_ne_nil _ _) rfl
                (.next rfl hno (.part rfl (fun _ => .inl rfl) (fun _ => rfl) hno .scalar)
                (.next rfl hno (.part rfl (fun _ => .inl rfl) (fun _ => rfl) hno .scalar)
                  .nil)))) .nil))))
    -- `[1].b = 4`
    (.desig rfl rfl hno hno
      (.part rfl (fun _ => .inr fun _ _ _ => rfl) (fun _ => rfl) (fun _ => hno)
        (.part rfl (fun _ => trivial) (fun _ => rfl) (fun _ => hno)
          (.part rfl (fun _ => trivial) (fun _ => rfl) (fun _ => hno) .scalar))) .nil))))))⟩,
    rfl, rfl, rfl, rfl, rfl⟩

theorem pairType_object : (InitType.array pairType none).ObjectType := by
  have htwo : (2 : Nat) < 2 ^ 31 := by decide
  have hpair : pairType.Bounded :=
    ⟨⟨trivial, 2, rfl, htwo⟩, ⟨trivial, trivial, trivial⟩, trivial⟩
  refine ⟨hpair, fun n h => ?_⟩
  cases h

/-- After a list in braces for a part of `s`, what follows is not for the rest of `s`:
`struct { struct { int a[2], b; } s; int d; }` with `{ .s.a = { 1, 2 }, 3 }`. -/
example :
    (declInitBraceUpStart allConst
      (.sue .struct_ (.member (some "s")
        (.sue .struct_ (.member (some "a") (.array (.scalar none) (some 2))
          (.member (some "b") (.scalar none) .nil)))
        (.member (some "d") (.scalar none) .nil)))
      (.brace [] [.brace [.member "s", .member "a"] [num 1, num 2], num 3])).map Prod.fst =
    .ok (.brace [some (.brace [some (.brace [some (.scalar (.val 1)), some (.scalar (.val 2))])]),
      some (.scalar (.val 3))]) := rfl

end Ucc.Cc1.Braces
