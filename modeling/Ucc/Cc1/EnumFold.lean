/-
  Cc1/EnumFold.lean --- the enumerators of an enum and its size.

  Source: fold_enum in src/cc1/fold_sue.c, type_nav_MAX_FOR in src/cc1/type_nav.c,
  type_primitive_not_less_than_size in src/cc1/type.c; log2ll and round2 are those of
  src/util/math.c.

  An expression is what the loop reads of it: whether `fold_check_expr` takes it, its
  64 bits and `VAL_UNSIGNED`.  The warnings are not modelled.  An enumerator that is
  not given a value is the `int` that expr_new_val gets, and is used as an `int`
  wherever it is named.  Three things go wrong: `defval` is an `int`, whatever the
  value before it; the number of bits is that of the greatest magnitude, whatever the
  sign; and a negative enumerator that is not given counts as a great unsigned one.
-/
import Ucc.Cc1.Promotion
import Ucc.Util.Math

set_option autoImplicit false

namespace Ucc.Cc1

open Ucc.Lib
open Ucc.Util (log2ll round2)

/-! ## `fold_enum` -/

/-- What an enumerator is given. -/
inductive EnumInit where
  /-- `(expr *)-1`, no value -/
  | none
  /-- a `numeric`: its bits, and `VAL_UNSIGNED` -/
  | const (val : Integral) (isUnsigned : Bool)
  /-- an expression that `fold_check_expr` reports -/
  | notConst
  deriving DecidableEq, Repr

/-- `m->val` of an enumerator. -/
structure Enumerator where
  val : Integral
  isUnsigned : Bool
  deriving DecidableEq, Repr

/-- The number it stands for. -/
def Enumerator.value (m : Enumerator) : Int := if m.isUnsigned then m.val.toNat else m.val.toInt

/-- The locals of `fold_enum`, with `fold_had_error`. -/
structure EnumState where
  defval : BitVec 32
  max : Integral
  min : Integral
  isSigned : Bool
  hadError : Bool
  deriving DecidableEq, Repr

/-- The state before the first enumerator. -/
def EnumState.init (hasBitmask : Bool) : EnumState :=
  ⟨if hasBitmask then 1 else 0, 0, 0, false, false⟩

/-- "overflow here is a violation" -/
def EnumState.checkOverflow (st : EnumState) (v : Integral) (next : Option EnumInit) : EnumState :=
  if v = 2147483647 ∧ next = some .none then { st with hadError := true } else st

/-- The range, with one more value. -/
def EnumState.widen (st : EnumState) (v : Integral) (negative : Bool) : EnumState :=
  if negative then
    if v.toInt < st.min.toInt then { st with min := v } else st
  else
    if v > st.max then { st with max := v } else st

/-- The rest of an iteration, once the value is known. -/
def EnumState.enter (hasBitmask : Bool) (next : Option EnumInit) (v : Integral) (negative : Bool)
    (st : EnumState) : EnumState :=
  let st := (st.checkOverflow v next).widen v negative
  { st with
    isSigned := st.isSigned || negative
    defval := (if hasBitmask then v <<< 1 else v + 1).setWidth 32 }

/-- The loop of `fold_enum`: the values of the enumerators, and the state after it. -/
def foldEnumLoop (hasBitmask : Bool) : List EnumInit → EnumState → List Enumerator × EnumState
  | [], st => ([], st)
  | .none :: is, st =>
    let v := st.defval.signExtend 64
    let (ms, st') := foldEnumLoop hasBitmask is (st.enter hasBitmask is.head? v false)
    (⟨v, false⟩ :: ms, st')
  | .const v isUnsigned :: is, st =>
    let negative := if isUnsigned then false else decide (v.toInt < 0)
    let (ms, st') := foldEnumLoop hasBitmask is (st.enter hasBitmask is.head? v negative)
    (⟨v, isUnsigned⟩ :: ms, st')
  -- `continue`, with an error reported
  | .notConst :: is, st => foldEnumLoop hasBitmask is { st with hadError := true }

/-- `TYPE_PRIMITIVE_TO_SIGNED`, with `char` made `signed char`. -/
def IntPrim.toSigned : IntPrim → IntPrim
  | .nchar | .uchar => .schar
  | .uint => .int
  | .ushort => .short
  | .ulong => .long
  | .ullong => .llong
  | p => p

/-- `type_nav_MAX_FOR`, with `type_primitive_not_less_than_size`; `none` where the assertion
fails. -/
def typeNavMaxFor (tg : Target) (sz : Nat) (isSigned : Bool) : Option IntPrim :=
  ([.ulong, .uint, .ushort, .uchar].find? fun p => decide (sz ≥ IntPrim.size tg p)).map
    fun p => if isSigned then p.toSigned else p

/-- `bits`, an `unsigned`, made "a power of 2 since those are the only word sizes
supported". -/
def wordBits (bits : BitVec 32) : Nat :=
  let bits := ((round2 (bits.setWidth 64)).setWidth 32).toNat
  if bits < 8 then 8 else bits

/-- The bits of a range. -/
def enumBits (min max : Integral) : Nat :=
  wordBits (BitVec.ofInt 32 (Max.max (log2ll (round2 (-min + 1))) (log2ll (round2 (max + 1)))))

/-- What `fold_enum` leaves. -/
structure EnumFold where
  members : List Enumerator
  containedTy : IntPrim
  size : Nat
  align : Nat
  hadError : Bool
  deriving DecidableEq, Repr

/-- `fold_enum` -/
def foldEnum (tg : Target) (hasBitmask shortEnums : Bool) (members : List EnumInit) :
    Option EnumFold :=
  let (ms, st) := foldEnumLoop hasBitmask members (.init hasBitmask)
  let containedTy :=
    if shortEnums then typeNavMaxFor tg (enumBits st.min st.max / 8) st.isSigned
    else some .int
  containedTy.map fun ty =>
    ⟨ms, ty, packToAlign (ty.size tg) (ty.size tg), ty.size tg, st.hadError⟩

/-! ## What the values should be -/

/-- The value of an enumerator that is given none, after one of this value. -/
def nextValue (hasBitmask : Bool) : Option Int → Int
  | none => if hasBitmask then 1 else 0
  | some v => if hasBitmask then 2 * v else v + 1

/-- Each enumerator that is given no value follows from the one before it. -/
def FollowOn (hasBitmask : Bool) : Option Int → List EnumInit → List Enumerator → Prop
  | _, [], ms => ms = []
  | _, _ :: _, [] => False
  | prev, i :: is, m :: ms =>
    (i = .none → m.value = nextValue hasBitmask prev) ∧ FollowOn hasBitmask (some m.value) is ms

/-- The type that was settled on can represent a value. -/
def EnumFold.Represents (tg : Target) (r : EnumFold) (z : Int) : Prop :=
  InRange (r.containedTy.isSigned tg) (8 * r.size) z

/-- The enumerators have their values, and a short enum has room for them. -/
def EnumFold.Right (tg : Target) (hasBitmask shortEnums : Bool) (members : List EnumInit)
    (r : EnumFold) : Prop :=
  FollowOn hasBitmask none members r.members ∧
    (shortEnums = true → ∀ m ∈ r.members, r.Represents tg m.value)

/-- A value of the source, and whether it is written there. -/
structure Meant where
  given : Bool
  value : Int
  deriving DecidableEq, Repr

/-- The values that the source means. -/
def meant (hasBitmask : Bool) : Option Int → List EnumInit → List Meant
  | _, [] => []
  | prev, .none :: is =>
    ⟨false, nextValue hasBitmask prev⟩ :: meant hasBitmask (some (nextValue hasBitmask prev)) is
  | _, .const v isUnsigned :: is =>
    let z := (Enumerator.mk v isUnsigned).value
    ⟨true, z⟩ :: meant hasBitmask (some z) is
  | prev, .notConst :: is => meant hasBitmask prev is

/-- A value that is not given is an `int`. -/
def Meant.IsInt (m : Meant) : Prop := m.given = false → InRange true 32 m.value

instance (m : Meant) : Decidable m.IsInt :=
  inferInstanceAs (Decidable (m.given = false → InRange true 32 m.value))

/-! ## Values -/

theorem Enumerator.ofInt_value (m : Enumerator) : BitVec.ofInt 64 m.value = m.val := by
  unfold Enumerator.value
  split
  · rw [BitVec.ofInt_natCast, BitVec.ofNat_toNat, BitVec.setWidth_eq]
  · exact BitVec.ofInt_toInt

theorem setWidth_ofInt (z : Int) : (BitVec.ofInt 64 z).setWidth 32 = BitVec.ofInt 32 z := by
  apply BitVec.eq_of_toNat_eq
  rw [BitVec.toNat_setWidth, BitVec.toNat_ofInt, BitVec.toNat_ofInt]
  omega

theorem value_signExtend (d : BitVec 32) :
    (Enumerator.mk (d.signExtend 64) false).value = d.toInt :=
  BitVec.toInt_signExtend_of_le (by decide)

/-- `defval` is what follows, cut to an `int`. -/
theorem EnumState.enter_defval {hasBitmask : Bool} {next : Option EnumInit} {v : Integral}
    {negative : Bool} {st : EnumState} {z : Int} (hv : BitVec.ofInt 64 z = v) :
    (st.enter hasBitmask next v negative).defval.toInt =
      (nextValue hasBitmask (some z)).bmod (2 ^ 32) := by
  subst hv
  have hnext : (if hasBitmask then BitVec.ofInt 64 z <<< 1 else BitVec.ofInt 64 z + 1) =
      BitVec.ofInt 64 (nextValue hasBitmask (some z)) := by
    cases hasBitmask with
    | false => exact (BitVec.ofInt_add z 1).symm
    | true =>
      rw [if_pos rfl, nextValue, if_pos rfl, BitVec.ofInt_mul, BitVec.shiftLeft_eq_mul_twoPow,
        BitVec.mul_comm]
      rfl
  show BitVec.toInt (BitVec.setWidth 32 (ite _ _ _)) = _
  rw [hnext, setWidth_ofInt, BitVec.toInt_ofInt]

theorem EnumState.init_defval (hasBitmask : Bool) :
    (EnumState.init hasBitmask).defval.toInt = (nextValue hasBitmask none).bmod (2 ^ 32) := by
  cases hasBitmask with
  | false => rfl
  | true => rfl

theorem bmod_eq_self_iff (z : Int) : z.bmod (2 ^ 32) = z ↔ InRange true 32 z := by
  have hwrap : wrap true 32 z = z.bmod (2 ^ 32) := rfl
  constructor
  · intro h
    rw [← h, ← hwrap]
    exact inRange_wrap (by decide) true z
  · intro h
    rw [← hwrap, wrap_of_inRange (by decide) h]

/-! ## Errors -/

theorem EnumState.enter_hadError {hasBitmask : Bool} {next : Option EnumInit} {v : Integral}
    {negative : Bool} {st : EnumState}
    (h : (st.enter hasBitmask next v negative).hadError = false) : st.hadError = false := by
  unfold EnumState.enter EnumState.widen EnumState.checkOverflow at h
  grind

theorem hadError_of_loop {hasBitmask : Bool} {is : List EnumInit} {st : EnumState}
    (h : (foldEnumLoop hasBitmask is st).2.hadError = false) : st.hadError = false := by
  induction is generalizing st with
  | nil => exact h
  | cons i is ih =>
    cases i with
    | none => exact EnumState.enter_hadError (ih h)
    | const v isUnsigned => exact EnumState.enter_hadError (ih h)
    | notConst => exact nomatch ih h

/-! ## The values that are left -/

/-- A `defval` that is an `int` is the value that follows. -/
theorem value_defval {hasBitmask : Bool} {prev : Option Int} {st : EnumState}
    (hdef : st.defval.toInt = (nextValue hasBitmask prev).bmod (2 ^ 32))
    (h : InRange true 32 (nextValue hasBitmask prev)) :
    (Enumerator.mk (st.defval.signExtend 64) false).value = nextValue hasBitmask prev := by
  rw [value_signExtend, hdef, (bmod_eq_self_iff _).mpr h]

theorem ofInt_next {hasBitmask : Bool} {prev : Option Int} {st : EnumState}
    (hdef : st.defval.toInt = (nextValue hasBitmask prev).bmod (2 ^ 32))
    (h : InRange true 32 (nextValue hasBitmask prev)) :
    BitVec.ofInt 64 (nextValue hasBitmask prev) = st.defval.signExtend 64 := by
  rw [← value_defval hdef h, Enumerator.ofInt_value]

/-- As long as the values that are not given are `int`s, they are what is meant; the first
one that is not does not follow. -/
theorem followOn_loop_iff {hasBitmask : Bool} {is : List EnumInit} {prev : Option Int}
    {st : EnumState} (hdef : st.defval.toInt = (nextValue hasBitmask prev).bmod (2 ^ 32))
    (herr : (foldEnumLoop hasBitmask is st).2.hadError = false) :
    FollowOn hasBitmask prev is (foldEnumLoop hasBitmask is st).1 ↔
      ∀ m ∈ meant hasBitmask prev is, m.IsInt := by
  induction is generalizing prev st with
  | nil => exact iff_of_true rfl fun m hm => nomatch hm
  | cons i is ih =>
    cases i with
    | none =>
      simp only [foldEnumLoop, FollowOn, meant, List.forall_mem_cons, true_implies]
      have hint : (Enumerator.mk (st.defval.signExtend 64) false).value =
          nextValue hasBitmask prev ↔ Meant.IsInt ⟨false, nextValue hasBitmask prev⟩ := by
        rw [value_signExtend, hdef, bmod_eq_self_iff]
        exact ⟨fun h _ => h, fun h => h rfl⟩
      rw [hint]
      refine and_congr_right fun h => ?_
      rw [value_defval hdef (h rfl)]
      exact ih (EnumState.enter_defval (ofInt_next hdef (h rfl))) herr
    | const v isUnsigned =>
      simp only [foldEnumLoop, FollowOn, meant, List.forall_mem_cons]
      have hv := (Enumerator.mk v isUnsigned).ofInt_value
      exact and_congr (iff_of_true (fun h => nomatch h) fun h => nomatch h)
        (ih (EnumState.enter_defval hv) herr)
    | notConst =>
      have hst : ({ st with hadError := true } : EnumState).hadError = false :=
        hadError_of_loop herr
      cases hst

theorem map_value_loop {hasBitmask : Bool} {is : List EnumInit} {prev : Option Int}
    {st : EnumState} (hdef : st.defval.toInt = (nextValue hasBitmask prev).bmod (2 ^ 32))
    (hint : ∀ m ∈ meant hasBitmask prev is, m.IsInt) :
    (foldEnumLoop hasBitmask is st).1.map Enumerator.value =
      (meant hasBitmask prev is).map Meant.value := by
  induction is generalizing prev st with
  | nil => rfl
  | cons i is ih =>
    cases i with
    | none =>
      obtain ⟨hhead, htail⟩ := List.forall_mem_cons.mp hint
      have hv := ofInt_next hdef (hhead rfl)
      exact congrArg₂ List.cons (value_defval hdef (hhead rfl))
        (ih (EnumState.enter_defval hv) htail)
    | const v isUnsigned =>
      obtain ⟨-, htail⟩ := List.forall_mem_cons.mp hint
      have hv := (Enumerator.mk v isUnsigned).ofInt_value
      exact congrArg (List.cons _) (ih (EnumState.enter_defval hv) htail)
    | notConst => exact ih hdef hint

/-! ## The range -/

/-- What counts as negative is given. -/
def Meant.Negative (m : Meant) : Prop := m.given = true ∧ m.value < 0

/-- The word of a value. -/
def Meant.word (m : Meant) : Integral := BitVec.ofInt 64 m.value

/-- The range of the values so far: the least of those that count as negative, and the
greatest word of the others. -/
structure Tracks (l : List Meant) (st : EnumState) : Prop where
  isSigned : st.isSigned = true ↔ ∃ m ∈ l, m.Negative
  min_le : ∀ m ∈ l, m.Negative → st.min.toInt ≤ m.value
  min_mem : st.min = 0 ∨ ∃ m ∈ l, m.Negative ∧ m.value = st.min.toInt
  le_max : ∀ m ∈ l, ¬ m.Negative → m.word.toNat ≤ st.max.toNat
  max_mem : st.max = 0 ∨ ∃ m ∈ l, ¬ m.Negative ∧ m.word = st.max

theorem tracks_init (hasBitmask : Bool) : Tracks [] (.init hasBitmask) where
  isSigned := iff_of_false Bool.noConfusion fun ⟨_, hm, _⟩ => nomatch hm
  min_le _ hm := nomatch hm
  min_mem := .inl rfl
  le_max _ hm := nomatch hm
  max_mem := .inl rfl

theorem EnumState.enter_isSigned (hasBitmask : Bool) (next : Option EnumInit) (v : Integral)
    (negative : Bool) (st : EnumState) :
    (st.enter hasBitmask next v negative).isSigned = (st.isSigned || negative) := by
  unfold EnumState.enter EnumState.widen EnumState.checkOverflow
  grind

/-- A negative value leaves the maximum and is compared with the minimum. -/
theorem EnumState.enter_negative (hasBitmask : Bool) (next : Option EnumInit) (v : Integral)
    (st : EnumState) :
    (st.enter hasBitmask next v true).max = st.max ∧
      ((st.enter hasBitmask next v true).min = v ∧ v.toInt ≤ st.min.toInt ∨
        (st.enter hasBitmask next v true).min = st.min ∧ st.min.toInt ≤ v.toInt) := by
  unfold EnumState.enter EnumState.widen EnumState.checkOverflow
  grind

/-- Any other value leaves the minimum and is compared with the maximum. -/
theorem EnumState.enter_other (hasBitmask : Bool) (next : Option EnumInit) (v : Integral)
    (st : EnumState) :
    (st.enter hasBitmask next v false).min = st.min ∧
      ((st.enter hasBitmask next v false).max = v ∧ st.max.toNat ≤ v.toNat ∨
        (st.enter hasBitmask next v false).max = st.max ∧ v.toNat ≤ st.max.toNat) := by
  have hlt : v > st.max ↔ st.max.toNat < v.toNat := Iff.rfl
  unfold EnumState.enter EnumState.widen EnumState.checkOverflow
  grind

/-- One iteration takes one more value into the range. -/
theorem Tracks.enter_negative {v : Integral} {l : List Meant} {m : Meant} {st : EnumState}
    (h : Tracks l st) (hasBitmask : Bool) (next : Option EnumInit) (hm : m.Negative)
    (hv : v.toInt = m.value) : Tracks (l ++ [m]) (st.enter hasBitmask next v true) := by
  obtain ⟨hmax, hmin⟩ := EnumState.enter_negative hasBitmask next v st
  have hsigned := EnumState.enter_isSigned hasBitmask next v true st
  have hmem : m ∈ l ++ [m] := List.mem_append_right l List.mem_cons_self
  have hsub : ∀ {x}, x ∈ l → x ∈ l ++ [m] := List.mem_append_left [m]
  constructor
  · rw [hsigned, Bool.or_true]
    exact iff_of_true rfl ⟨m, hmem, hm⟩
  · intro x hx hneg
    rcases List.mem_append.mp hx with hx | hx
    · have hle := h.min_le x hx hneg
      rcases hmin with ⟨he, hlt⟩ | ⟨he, _⟩
      · rw [he]
        exact hlt.trans hle
      · rw [he]
        exact hle
    · obtain rfl := List.mem_singleton.mp hx
      rcases hmin with ⟨he, _⟩ | ⟨he, hle⟩
      · rw [he, hv]
      · rw [he, ← hv]
        exact hle
  · rcases hmin with ⟨he, _⟩ | ⟨he, _⟩
    · exact .inr ⟨m, hmem, hm, by rw [he, hv]⟩
    · rw [he]
      exact h.min_mem.imp id fun ⟨x, hx, hneg, hval⟩ => ⟨x, hsub hx, hneg, hval⟩
  · intro x hx hneg
    rw [hmax]
    rcases List.mem_append.mp hx with hx | hx
    · exact h.le_max x hx hneg
    · rw [List.mem_singleton.mp hx] at hneg
      exact absurd hm hneg
  · rw [hmax]
    exact h.max_mem.imp id fun ⟨x, hx, hneg, hval⟩ => ⟨x, hsub hx, hneg, hval⟩

theorem Tracks.enter_other {l : List Meant} {m : Meant} {st : EnumState} (h : Tracks l st)
    (hasBitmask : Bool) (next : Option EnumInit) (hm : ¬ m.Negative) :
    Tracks (l ++ [m]) (st.enter hasBitmask next m.word false) := by
  obtain ⟨hmin, hmax⟩ := EnumState.enter_other hasBitmask next m.word st
  have hsigned := EnumState.enter_isSigned hasBitmask next m.word false st
  have hmem : m ∈ l ++ [m] := List.mem_append_right l List.mem_cons_self
  have hsub : ∀ {x}, x ∈ l → x ∈ l ++ [m] := List.mem_append_left [m]
  have hnegative : ∀ {x}, x ∈ l ++ [m] → x.Negative → x ∈ l := by
    intro x hx hneg
    rcases List.mem_append.mp hx with hx | hx
    · exact hx
    · rw [List.mem_singleton.mp hx] at hneg
      exact absurd hneg hm
  constructor
  · rw [hsigned, Bool.or_false, h.isSigned]
    constructor
    · rintro ⟨x, hx, hneg⟩
      exact ⟨x, hsub hx, hneg⟩
    · rintro ⟨x, hx, hneg⟩
      exact ⟨x, hnegative hx hneg, hneg⟩
  · intro x hx hneg
    rw [hmin]
    exact h.min_le x (hnegative hx hneg) hneg
  · rw [hmin]
    exact h.min_mem.imp id fun ⟨x, hx, hneg, hval⟩ => ⟨x, hsub hx, hneg, hval⟩
  · intro x hx hneg
    rcases List.mem_append.mp hx with hx | hx
    · have hle := h.le_max x hx hneg
      rcases hmax with ⟨he, hlt⟩ | ⟨he, _⟩
      · rw [he]
        exact hle.trans hlt
      · rw [he]
        exact hle
    · obtain rfl := List.mem_singleton.mp hx
      rcases hmax with ⟨he, _⟩ | ⟨he, hle⟩
      · rw [he]
      · rw [he]
        exact hle
  · rcases hmax with ⟨he, _⟩ | ⟨he, _⟩
    · exact .inr ⟨m, hmem, hm, he.symm⟩
    · rw [he]
      exact h.max_mem.imp id fun ⟨x, hx, hneg, hval⟩ => ⟨x, hsub hx, hneg, hval⟩

/-- A value that is given counts as negative if it is one. -/
theorem Tracks.enter_const {l : List Meant} {st : EnumState} (h : Tracks l st) (hasBitmask : Bool)
    (next : Option EnumInit) (v : Integral) (isUnsigned : Bool) :
    Tracks (l ++ [⟨true, (Enumerator.mk v isUnsigned).value⟩])
      (st.enter hasBitmask next v (if isUnsigned then false else decide (v.toInt < 0))) := by
  have hword : Meant.word ⟨true, (Enumerator.mk v isUnsigned).value⟩ = v :=
    Enumerator.ofInt_value _
  have hother := h.enter_other hasBitmask next
    (m := ⟨true, (Enumerator.mk v isUnsigned).value⟩)
  rw [hword] at hother
  cases isUnsigned with
  | true => exact hother fun hneg => absurd hneg.2 (not_lt.mpr (Int.natCast_nonneg _))
  | false =>
    rcases lt_or_ge v.toInt 0 with hlt | hge
    · rw [if_neg Bool.false_ne_true, decide_eq_true hlt]
      exact h.enter_negative hasBitmask next ⟨rfl, hlt⟩ rfl
    · rw [if_neg Bool.false_ne_true, decide_eq_false (not_lt.mpr hge)]
      exact hother fun hneg => absurd hneg.2 (not_lt.mpr hge)

/-- The range after the loop is that of all values. -/
theorem tracks_loop {hasBitmask : Bool} {is : List EnumInit} {prev : Option Int} {l : List Meant}
    {st : EnumState} (hdef : st.defval.toInt = (nextValue hasBitmask prev).bmod (2 ^ 32))
    (hint : ∀ m ∈ meant hasBitmask prev is, m.IsInt) (h : Tracks l st) :
    Tracks (l ++ meant hasBitmask prev is) (foldEnumLoop hasBitmask is st).2 := by
  induction is generalizing prev l st with
  | nil =>
    rw [meant, List.append_nil]
    exact h
  | cons i is ih =>
    cases i with
    | none =>
      obtain ⟨hhead, htail⟩ := List.forall_mem_cons.mp hint
      have hv := ofInt_next hdef (hhead rfl)
      have hstep := h.enter_other hasBitmask is.head?
        (m := ⟨false, nextValue hasBitmask prev⟩) fun hneg => nomatch hneg.1
      rw [meant, List.append_cons]
      refine ih (EnumState.enter_defval hv) htail ?_
      rwa [Meant.word, hv] at hstep
    | const v isUnsigned =>
      obtain ⟨-, htail⟩ := List.forall_mem_cons.mp hint
      have hv := (Enumerator.mk v isUnsigned).ofInt_value
      rw [meant, List.append_cons]
      exact ih (EnumState.enter_defval hv) htail (h.enter_const hasBitmask is.head? v isUnsigned)
    | notConst => exact ih hdef hint ⟨h.isSigned, h.min_le, h.min_mem, h.le_max, h.max_mem⟩

/-! ## The number of bits -/

/-- The bits for the numbers below a word, up to a count of them. -/
theorem log2ll_round2_le_iff (v : Integral) (k : Nat) (hk : k < 64) :
    log2ll (round2 v) ≤ k ↔ 2 ^ 63 < v.toNat ∨ v.toNat ≤ 2 ^ k := by
  rcases Nat.lt_or_ge (2 ^ 63) v.toNat with h | h
  · rw [Ucc.Util.log2ll_round2_of_lt h]
    exact iff_of_true (by omega) (.inl h)
  · rw [Ucc.Util.log2ll_round2 h, Nat.cast_le, Nat.clog_le_iff_le_pow one_lt_two,
      or_iff_right (not_lt.mpr h)]

/-- The words that a number of bits has room for, as the maximum and, negated, the minimum
are taken: those from `2 ^ 63` on are not seen. -/
def Within (w : Integral) (k : Nat) : Prop := 2 ^ 63 ≤ w.toNat ∨ w.toNat < 2 ^ k

theorem log2ll_succ_le_iff (w : Integral) (k : Nat) (hk : k < 64) :
    log2ll (round2 (w + 1)) ≤ k ↔ Within w k := by
  rw [log2ll_round2_le_iff _ k hk, Within]
  have hadd : (w + 1).toNat = (w.toNat + 1) % 2 ^ 64 := BitVec.toNat_add w 1
  have hlt := w.isLt
  rcases eq_or_ne w.toNat (2 ^ 64 - 1) with he | hne
  · rw [hadd, he]
    simp
  · rw [hadd, Nat.mod_eq_of_lt (by omega)]
    omega

theorem log2ll_round2_range (v : Integral) :
    -1 ≤ log2ll (round2 v) ∧ log2ll (round2 v) ≤ 63 := by
  constructor
  · rcases Nat.lt_or_ge (2 ^ 63) v.toNat with h | h
    · rw [Ucc.Util.log2ll_round2_of_lt h]
    · rw [Ucc.Util.log2ll_round2 h]
      omega
  · exact (log2ll_round2_le_iff v 63 (by decide)).mpr (Nat.lt_or_ge _ _)

/-- The word of a number of bits. -/
def widthFor (n : Int) : Nat :=
  if n ≤ 8 then 8 else if n ≤ 16 then 16 else if n ≤ 32 then 32 else 64

theorem wordBits_eq {n : Int} (h : -1 ≤ n ∧ n ≤ 63) :
    wordBits (BitVec.ofInt 32 n) = widthFor n := by
  have hall : ∀ k : Fin 65, wordBits (BitVec.ofInt 32 (k - 1)) = widthFor (k - 1) := by
    decide +kernel
  have hk := hall ⟨(n + 1).toNat, by omega⟩
  have hn : ((n + 1).toNat : Int) - 1 = n := by omega
  rwa [hn] at hk

/-- A number of bits has room for the maximum and the negated minimum. -/
def WithinBoth (min max : Integral) (k : Nat) : Prop := Within (-min) k ∧ Within max k

theorem WithinBoth.mono {min max : Integral} {j k : Nat} (h : WithinBoth min max j)
    (hjk : j ≤ k) : WithinBoth min max k := by
  have hpow : 2 ^ j ≤ 2 ^ k := Nat.pow_le_pow_right Nat.two_pos hjk
  exact ⟨h.1.imp id fun hlt => hlt.trans_le hpow, h.2.imp id fun hlt => hlt.trans_le hpow⟩

theorem enumBits_cases (min max : Integral) :
    (enumBits min max = 8 ∧ WithinBoth min max 8) ∨
    (enumBits min max = 16 ∧ WithinBoth min max 16 ∧ ¬ WithinBoth min max 8) ∨
    (enumBits min max = 32 ∧ WithinBoth min max 32 ∧ ¬ WithinBoth min max 16) ∨
    (enumBits min max = 64 ∧ ¬ WithinBoth min max 32) := by
  have hlo := log2ll_round2_range (-min + 1)
  have hhi := log2ll_round2_range (max + 1)
  have hbits : enumBits min max =
      widthFor (Max.max (log2ll (round2 (-min + 1))) (log2ll (round2 (max + 1)))) :=
    wordBits_eq ⟨hlo.1.trans (le_max_left _ _), max_le hlo.2 hhi.2⟩
  have hboth : ∀ k : Nat, k < 64 → (WithinBoth min max k ↔
      Max.max (log2ll (round2 (-min + 1))) (log2ll (round2 (max + 1))) ≤ k) := fun k hk => by
    rw [max_le_iff, log2ll_succ_le_iff _ _ hk, log2ll_succ_le_iff _ _ hk, WithinBoth]
  rw [hbits, hboth 8 (by decide), hboth 16 (by decide), hboth 32 (by decide)]
  unfold widthFor
  push_cast
  grind

/-- `bits` has room for the range, and half as many bits have none, if words are that small. -/
theorem enumBits_spec (min max : Integral) :
    enumBits min max ∈ [8, 16, 32, 64] ∧ WithinBoth min max (enumBits min max) ∧
      (enumBits min max = 8 ∨ ¬ WithinBoth min max (enumBits min max / 2)) := by
  rcases enumBits_cases min max with ⟨h, hin⟩ | ⟨h, hin, hno⟩ | ⟨h, hin, hno⟩ | ⟨h, hno⟩
  · rw [h]
    exact ⟨by decide, hin, .inl rfl⟩
  · rw [h]
    exact ⟨by decide, hin, .inr hno⟩
  · rw [h]
    exact ⟨by decide, hin, .inr hno⟩
  · rw [h]
    exact ⟨by decide, ⟨.inr (-min).isLt, .inr max.isLt⟩, .inr hno⟩

/-! ## Room for the values -/

/-- The values as the source has them: what is given has 64 bits. -/
structure Meant.Plain (m : Meant) : Prop where
  isInt : m.IsInt
  of_given : m.given = true → -2 ^ 63 ≤ m.value ∧ m.value < 2 ^ 64

theorem plain_meant {hasBitmask : Bool} {prev : Option Int} {is : List EnumInit}
    (hint : ∀ m ∈ meant hasBitmask prev is, m.IsInt) :
    ∀ m ∈ meant hasBitmask prev is, m.Plain := by
  induction is generalizing prev with
  | nil => exact fun m hm => nomatch hm
  | cons i is ih =>
    cases i with
    | none =>
      obtain ⟨hhead, htail⟩ := List.forall_mem_cons.mp hint
      exact List.forall_mem_cons.mpr ⟨⟨hhead, fun h => nomatch h⟩, ih htail⟩
    | const v isUnsigned =>
      obtain ⟨hhead, htail⟩ := List.forall_mem_cons.mp hint
      refine List.forall_mem_cons.mpr ⟨⟨hhead, fun _ => ?_⟩, ih htail⟩
      have hnat := v.isLt
      have hlo := v.le_toInt
      have hhi := v.toInt_lt
      cases isUnsigned with
      | true =>
        show -2 ^ 63 ≤ (v.toNat : Int) ∧ (v.toNat : Int) < 2 ^ 64
        omega
      | false =>
        show -2 ^ 63 ≤ v.toInt ∧ v.toInt < 2 ^ 64
        omega
    | notConst => exact ih hint

/-- The first negative value is given: what follows a number that is not negative is not. -/
theorem exists_negative {hasBitmask : Bool} {prev : Option Int} {is : List EnumInit}
    (hprev : ∀ z, prev = some z → 0 ≤ z) (h : ∃ m ∈ meant hasBitmask prev is, m.value < 0) :
    ∃ m ∈ meant hasBitmask prev is, m.Negative := by
  induction is generalizing prev with
  | nil =>
    obtain ⟨m, hm, -⟩ := h
    exact nomatch hm
  | cons i is ih =>
    cases i with
    | none =>
      have hnext : 0 ≤ nextValue hasBitmask prev := by
        cases prev with
        | none => cases hasBitmask <;> decide
        | some z =>
          have hz := hprev z rfl
          show 0 ≤ if hasBitmask then 2 * z else z + 1
          split <;> omega
      obtain ⟨m, hm, hlt⟩ := h
      rcases List.mem_cons.mp hm with rfl | hm
      · exact absurd hlt (not_lt.mpr hnext)
      · obtain ⟨x, hx, hneg⟩ := ih (fun z hz => Option.some.inj hz ▸ hnext) ⟨m, hm, hlt⟩
        exact ⟨x, List.mem_cons_of_mem _ hx, hneg⟩
    | const v isUnsigned =>
      rcases lt_or_ge (Enumerator.mk v isUnsigned).value 0 with hneg | hpos
      · exact ⟨_, List.mem_cons_self, rfl, hneg⟩
      · obtain ⟨m, hm, hlt⟩ := h
        rcases List.mem_cons.mp hm with rfl | hm
        · exact absurd hlt (not_lt.mpr hpos)
        · obtain ⟨x, hx, hneg⟩ := ih (fun z hz => Option.some.inj hz ▸ hpos) ⟨m, hm, hlt⟩
          exact ⟨x, List.mem_cons_of_mem _ hx, hneg⟩
    | notConst => exact ih hprev h

theorem Meant.Plain.lt {m : Meant} (h : m.Plain) : m.value < 2 ^ 64 := by
  cases hg : m.given with
  | true => exact (h.of_given hg).2
  | false => exact (h.isInt hg).2.trans (by decide)

theorem Meant.Plain.word_of_nonneg {m : Meant} (h : m.Plain) (hm : 0 ≤ m.value) :
    (m.word.toNat : Int) = m.value := by
  have hlt := h.lt
  rw [Meant.word, BitVec.toNat_ofInt]
  omega

/-- A negative value that is not given is a great word. -/
theorem Meant.Plain.word_of_neg {m : Meant} (h : m.Plain) (hm : m.value < 0)
    (hneg : ¬ m.Negative) : 2 ^ 63 ≤ m.word.toNat := by
  have hg : m.given = false := by
    cases hg : m.given with
    | false => rfl
    | true => exact absurd ⟨hg, hm⟩ hneg
  have hlo : -2 ^ 31 ≤ m.value := (h.isInt hg).1
  rw [Meant.word, BitVec.toNat_ofInt]
  omega

/-- The magnitude of a value counts for the number of bits. -/
def Counts (l : List Meant) (m : Meant) : Prop :=
  if m.value < 0 then m.given = true ∧ ∀ x ∈ l, x.value ≠ -2 ^ 63
  else ∀ x ∈ l, x.value < 0 → x.given = true

instance (l : List Meant) (m : Meant) : Decidable (Counts l m) :=
  inferInstanceAs (Decidable (if m.value < 0 then m.given = true ∧ ∀ x ∈ l, x.value ≠ -2 ^ 63
    else ∀ x ∈ l, x.value < 0 → x.given = true))

theorem Tracks.min_nonpos {l : List Meant} {st : EnumState} (h : Tracks l st) :
    st.min.toInt ≤ 0 := by
  rcases h.min_mem with hz | ⟨m, -, hneg, hm⟩
  · rw [hz]
    decide
  · rw [← hm]
    exact hneg.2.le

/-- The negated minimum. -/
theorem Tracks.toNat_neg_min {l : List Meant} {st : EnumState} (h : Tracks l st) :
    ((-st.min).toNat : Int) = -st.min.toInt := by
  have hle := h.min_nonpos
  have hlo := st.min.le_toInt
  have hword : -st.min = BitVec.ofInt 64 (-st.min.toInt) := by
    rw [BitVec.ofInt_neg, BitVec.ofInt_toInt]
  rw [hword, BitVec.toNat_ofInt]
  omega

section Room

variable {l : List Meant} {st : EnumState} (h : Tracks l st) (hplain : ∀ m ∈ l, m.Plain)
include h hplain

/-- Without room for the range, some value that counts is as great as that. -/
theorem Tracks.exists_counts {k : Nat} (hk : ¬ WithinBoth st.min st.max k) :
    ∃ m ∈ l, Counts l m ∧ 2 ^ k ≤ m.value.natAbs := by
  have hmin := h.toNat_neg_min
  have hlo := st.min.le_toInt
  have hpow := Nat.two_pow_pos k
  rcases not_and_or.mp hk with hk | hk
  · obtain ⟨hlt, hle⟩ : (-st.min).toNat < 2 ^ 63 ∧ 2 ^ k ≤ (-st.min).toNat := by
      simpa [Within] using hk
    obtain ⟨m, hm, hneg, hval⟩ := h.min_mem.resolve_left fun hz => by
      rw [hz] at hle
      exact absurd hle (not_le.mpr hpow)
    refine ⟨m, hm, ?_, by omega⟩
    rw [Counts, if_pos hneg.2]
    refine ⟨hneg.1, fun x hx hxval => ?_⟩
    have hxneg : ¬ x.Negative := fun hxneg => by
      have := h.min_le x hx hxneg
      omega
    have hxgiven : x.given = false := by
      cases hg : x.given with
      | false => rfl
      | true => exact absurd ⟨hg, by omega⟩ hxneg
    have hxlo : -2 ^ 31 ≤ x.value := ((hplain x hx).isInt hxgiven).1
    omega
  · obtain ⟨hlt, hle⟩ : st.max.toNat < 2 ^ 63 ∧ 2 ^ k ≤ st.max.toNat := by
      simpa [Within] using hk
    obtain ⟨m, hm, hneg, hword⟩ := h.max_mem.resolve_left fun hz => by
      rw [hz] at hle
      exact absurd hle (not_le.mpr hpow)
    -- nothing that counts as a great word is there
    have hall : ∀ x ∈ l, ¬ x.Negative → 0 ≤ x.value := fun x hx hxneg => by
      have hxmax := h.le_max x hx hxneg
      by_contra hxlt
      have hxword := (hplain x hx).word_of_neg (not_le.mp hxlt) hxneg
      omega
    have hpos := hall m hm hneg
    have hval := (hplain m hm).word_of_nonneg hpos
    rw [hword] at hval
    refine ⟨m, hm, ?_, by omega⟩
    rw [Counts, if_neg (not_lt.mpr hpos)]
    intro x hx hxlt
    by_contra hxgiven
    exact absurd (hall x hx fun hxneg => hxgiven hxneg.1) (not_le.mpr hxlt)

/-- Values that have room as signed numbers have room for their magnitudes. -/
theorem Tracks.within_of_inRange {w : Nat} (hw : 0 < w)
    (hall : ∀ m ∈ l, InRange true w m.value) : WithinBoth st.min st.max w := by
  have hpow : 2 ^ (w - 1) < 2 ^ w := Nat.pow_lt_pow_right one_lt_two (by omega)
  have hmin := h.toNat_neg_min
  constructor
  · refine .inr ?_
    rcases h.min_mem with hz | ⟨m, hm, -, hval⟩
    · rw [hz]
      exact Nat.two_pow_pos w
    · have hlo : -2 ^ (w - 1) ≤ m.value := (hall m hm).1
      zify at hpow ⊢
      omega
  · rcases h.max_mem with hz | ⟨m, hm, hneg, hword⟩
    · rw [hz]
      exact .inr (Nat.two_pow_pos w)
    · rw [← hword]
      rcases lt_or_ge m.value 0 with hlt | hge
      · exact .inl ((hplain m hm).word_of_neg hlt hneg)
      · have hval := (hplain m hm).word_of_nonneg hge
        have hhi : m.value < 2 ^ (w - 1) := (hall m hm).2
        refine .inr ?_
        zify at hpow ⊢
        omega

/-- A value that counts is seen in the range. -/
theorem Tracks.not_within {w k : Nat} (hw : w ≤ 64) (hall : ∀ m ∈ l, InRange true w m.value)
    {m : Meant} (hm : m ∈ l) (hc : Counts l m) (hk : 2 ^ k ≤ m.value.natAbs) :
    ¬ WithinBoth st.min st.max k := by
  have hmin := h.toNat_neg_min
  have hpow : 2 ^ (w - 1) ≤ 2 ^ 63 := Nat.pow_le_pow_right Nat.two_pos (by omega)
  rw [Counts] at hc
  split at hc
  · rename_i hlt
    have hle := h.min_le m hm ⟨hc.1, hlt⟩
    obtain ⟨x, hx, -, hxval⟩ := h.min_mem.resolve_left fun hz => by
      rw [hz] at hle
      exact absurd hle (not_le.mpr hlt)
    have hne := hc.2 x hx
    have hlo := st.min.le_toInt
    rintro ⟨hge | hlt', -⟩
    · omega
    · omega
  · rename_i hge
    have hall' : ∀ x ∈ l, ¬ x.Negative → 0 ≤ x.value := fun x hx hxneg => by
      by_contra hxlt
      exact hxneg ⟨hc x hx (not_le.mp hxlt), not_le.mp hxlt⟩
    have hmneg : ¬ m.Negative := fun hneg => hge hneg.2
    have hle := h.le_max m hm hmneg
    have hword := (hplain m hm).word_of_nonneg (hall' m hm hmneg)
    rintro ⟨-, hbig | hlt⟩
    · rcases h.max_mem with hz | ⟨x, hx, hxneg, hxword⟩
      · rw [hz] at hbig
        exact absurd hbig (by decide)
      · have hxval := (hplain x hx).word_of_nonneg (hall' x hx hxneg)
        have hxhi : x.value < 2 ^ (w - 1) := (hall x hx).2
        rw [hxword] at hxval
        zify at hpow
        omega
    · omega

end Room

/-! ## Short enums -/

/-- The widths of the signed types that a short enum can have. -/
def Arch.widths : Arch → List Nat
  | .bits32 => [8, 16, 32]
  | .bits64 => [8, 16, 32, 64]

/-- The bits of the values for which an unsigned short enum has room. -/
def Arch.unsignedBits : Arch → Nat
  | .bits32 => 32
  | .bits64 => 63

/-- Either no value is negative, and none is too great; or all have room in a signed
width that is not twice as wide as the magnitudes that count. -/
def ShortRoom (arch : Arch) (l : List Meant) : Prop :=
  (∀ m ∈ l, 0 ≤ m.value ∧ m.value < 2 ^ arch.unsignedBits) ∨
    ((∃ m ∈ l, m.value < 0) ∧ ∃ w ∈ arch.widths, (∀ m ∈ l, InRange true w m.value) ∧
      (w = 8 ∨ ∃ m ∈ l, Counts l m ∧ 2 ^ (w / 2) ≤ m.value.natAbs))

instance (arch : Arch) (l : List Meant) : Decidable (ShortRoom arch l) :=
  inferInstanceAs (Decidable (_ ∨ (_ ∧ ∃ w ∈ arch.widths, (∀ m ∈ l, InRange true w m.value) ∧
    (w = 8 ∨ ∃ m ∈ l, Counts l m ∧ 2 ^ (w / 2) ≤ m.value.natAbs))))

/-- The width and the signedness of `type_nav_MAX_FOR`. -/
theorem typeNavMaxFor_eq (tg : Target) (isSigned : Bool) {bits : Nat}
    (h : bits ∈ [8, 16, 32, 64]) :
    (typeNavMaxFor tg (bits / 8) isSigned).map (fun ty =>
        (ty.isSigned tg, 8 * packToAlign (ty.size tg) (ty.size tg))) =
      some (isSigned, min bits (8 * tg.arch.ulongSize)) := by
  have hall : ∀ bits ∈ [8, 16, 32, 64], ∀ isSigned : Bool, ∀ tg : Target,
      (typeNavMaxFor tg (bits / 8) isSigned).map (fun ty =>
          (ty.isSigned tg, 8 * packToAlign (ty.size tg) (ty.size tg))) =
        some (isSigned, min bits (8 * tg.arch.ulongSize)) := by
    decide +kernel
  exact hall bits h isSigned tg

/-- The width of the enum, on a given architecture. -/
def enumWidth (arch : Arch) (min max : Integral) : Nat :=
  Min.min (enumBits min max) (8 * arch.ulongSize)

theorem enumWidth_spec (arch : Arch) (min max : Integral) :
    enumWidth arch min max ∈ arch.widths ∧
      (enumWidth arch min max = 8 ∨ ¬ WithinBoth min max (enumWidth arch min max / 2)) := by
  obtain ⟨hmem, -, hhalf⟩ := enumBits_spec min max
  unfold enumWidth
  generalize enumBits min max = bits at hmem hhalf ⊢
  cases arch with
  | bits64 =>
    have hmin : Min.min bits (8 * Arch.bits64.ulongSize) = bits := by
      simp only [List.mem_cons, List.not_mem_nil, or_false] at hmem
      rcases hmem with rfl | rfl | rfl | rfl <;> rfl
    rw [hmin]
    exact ⟨hmem, hhalf⟩
  | bits32 =>
    simp only [List.mem_cons, List.not_mem_nil, or_false] at hmem
    rcases hmem with rfl | rfl | rfl | rfl
    · exact ⟨by decide, .inl rfl⟩
    · exact ⟨by decide, hhalf⟩
    · exact ⟨by decide, hhalf⟩
    · exact ⟨by decide, hhalf.imp (fun h => nomatch h) fun hno hin => hno (hin.mono (by decide))⟩

theorem Arch.mem_widths (arch : Arch) :
    ∀ w ∈ arch.widths, w ∈ [8, 16, 32, 64] ∧ 0 < w ∧ w ≤ 64 ∧ w ≤ 8 * arch.ulongSize := by
  cases arch <;> decide

/-- A width that has room for the range, and whose half has none, is the one. -/
theorem enumWidth_eq {arch : Arch} {min max : Integral} {w : Nat} (hw : w ∈ arch.widths)
    (hin : WithinBoth min max w) (hhalf : w = 8 ∨ ¬ WithinBoth min max (w / 2)) :
    enumWidth arch min max = w := by
  obtain ⟨hmem, hbits, hbhalf⟩ := enumBits_spec min max
  obtain ⟨hw4, -, -, hle⟩ := arch.mem_widths w hw
  have heq : enumBits min max = w := by
    rcases lt_trichotomy (enumBits min max) w with hlt | he | hlt
    · have hle : enumBits min max ≤ w / 2 ∧ w ≠ 8 := by
        simp only [List.mem_cons, List.not_mem_nil, or_false] at hmem hw4
        omega
      exact absurd (hbits.mono hle.1) (hhalf.resolve_left hle.2)
    · exact he
    · have hle : w ≤ enumBits min max / 2 ∧ enumBits min max ≠ 8 := by
        simp only [List.mem_cons, List.not_mem_nil, or_false] at hmem hw4
        omega
      exact absurd (hin.mono hle.1) (hbhalf.resolve_left hle.2)
  rw [enumWidth, heq]
  exact min_eq_left hle

/-- A signed width has room for the values if it is not that of the magnitudes alone. -/
theorem Tracks.signed_iff {l : List Meant} {st : EnumState} (h : Tracks l st)
    (hplain : ∀ m ∈ l, m.Plain) (arch : Arch) :
    (∀ m ∈ l, InRange true (enumWidth arch st.min st.max) m.value) ↔
      ∃ w ∈ arch.widths, (∀ m ∈ l, InRange true w m.value) ∧
        (w = 8 ∨ ∃ m ∈ l, Counts l m ∧ 2 ^ (w / 2) ≤ m.value.natAbs) := by
  constructor
  · intro hall
    obtain ⟨hmem, hhalf⟩ := enumWidth_spec arch st.min st.max
    exact ⟨_, hmem, hall, hhalf.imp id (h.exists_counts hplain)⟩
  · rintro ⟨w, hw, hall, hhalf⟩
    obtain ⟨-, hpos, hle, -⟩ := arch.mem_widths w hw
    have hin := h.within_of_inRange hplain hpos hall
    rw [enumWidth_eq hw hin (hhalf.imp id fun ⟨m, hm, hc, hk⟩ =>
      h.not_within hplain hle hall hm hc hk)]
    exact hall

/-- Values that are not negative are their own words. -/
theorem Tracks.value_le_max {l : List Meant} {st : EnumState} (h : Tracks l st)
    (hplain : ∀ m ∈ l, m.Plain) (hpos : ∀ m ∈ l, 0 ≤ m.value) :
    (∀ m ∈ l, m.value ≤ st.max.toNat) ∧
      (st.max = 0 ∨ ∃ m ∈ l, m.value = st.max.toNat) := by
  have hnot : ∀ m ∈ l, ¬ m.Negative := fun m hm hneg => absurd hneg.2 (not_lt.mpr (hpos m hm))
  constructor
  · intro m hm
    rw [← (hplain m hm).word_of_nonneg (hpos m hm)]
    exact_mod_cast h.le_max m hm (hnot m hm)
  · refine h.max_mem.imp id fun ⟨m, hm, _, hword⟩ => ⟨m, hm, ?_⟩
    rw [← hword, (hplain m hm).word_of_nonneg (hpos m hm)]

theorem Tracks.withinBoth_iff {l : List Meant} {st : EnumState} (h : Tracks l st)
    (hpos : ∀ m ∈ l, 0 ≤ m.value) (k : Nat) :
    WithinBoth st.min st.max k ↔ Within st.max k := by
  refine and_iff_right (.inr ?_)
  have hzero : st.min = 0 := h.min_mem.resolve_right fun ⟨m, hm, hneg, _⟩ =>
    absurd hneg.2 (not_lt.mpr (hpos m hm))
  rw [hzero]
  exact Nat.two_pow_pos k

/-- An unsigned width has room for the values if the maximum is seen. -/
theorem Tracks.unsigned_iff {l : List Meant} {st : EnumState} (h : Tracks l st)
    (hplain : ∀ m ∈ l, m.Plain) (arch : Arch) (hpos : ∀ m ∈ l, 0 ≤ m.value) :
    (∀ m ∈ l, InRange false (enumWidth arch st.min st.max) m.value) ↔
      ∀ m ∈ l, 0 ≤ m.value ∧ m.value < 2 ^ arch.unsignedBits := by
  obtain ⟨hmax, hmem⟩ := h.value_le_max hplain hpos
  obtain ⟨hbits, hwithin, hhalf⟩ := enumBits_spec st.min st.max
  rw [h.withinBoth_iff hpos] at hwithin hhalf
  have hlimit : arch.unsignedBits ≤ 63 ∧ arch.unsignedBits ≤ 8 * arch.ulongSize := by
    cases arch <;> decide
  constructor
  · intro hall m hm
    refine ⟨hpos m hm, ?_⟩
    have hlt : m.value < 2 ^ enumWidth arch st.min st.max := (hall m hm).2
    cases arch with
    | bits32 =>
      have hpow : (2 : Int) ^ enumWidth .bits32 st.min st.max ≤ 2 ^ 32 :=
        pow_le_pow_right₀ (by decide) (min_le_right _ _)
      exact hlt.trans_le hpow
    | bits64 =>
      by_contra hge
      have hbig : 2 ^ 63 ≤ st.max.toNat := by
        have hle := hmax m hm
        rw [Arch.unsignedBits] at hge
        omega
      have h8 : enumBits st.min st.max = 8 := hhalf.resolve_right fun hno => hno (.inl hbig)
      rw [enumWidth, h8] at hlt
      exact hge (hlt.trans (by decide))
  · intro hall m hm
    refine ⟨hpos m hm, ?_⟩
    have hlt : st.max.toNat < 2 ^ arch.unsignedBits := by
      rcases hmem with hz | ⟨x, hx, hval⟩
      · rw [hz]
        exact Nat.two_pow_pos _
      · have hxlt := (hall x hx).2
        rw [hval] at hxlt
        exact_mod_cast hxlt
    have hmle : m.value ≤ st.max.toNat := hmax m hm
    have hlt63 : st.max.toNat < 2 ^ 63 :=
      hlt.trans_le (Nat.pow_le_pow_right Nat.two_pos hlimit.1)
    have hltW : st.max.toNat < 2 ^ enumWidth arch st.min st.max := by
      rcases min_choice (enumBits st.min st.max) (8 * arch.ulongSize) with he | he
      · rw [enumWidth, he]
        exact hwithin.resolve_left (not_le.mpr hlt63)
      · rw [enumWidth, he]
        exact hlt.trans_le (Nat.pow_le_pow_right Nat.two_pos hlimit.2)
    exact hmle.trans_lt (by exact_mod_cast hltW)

/-- The width has room for the values if there is room for them as the source has them. -/
theorem Tracks.room_iff {l : List Meant} {st : EnumState} (h : Tracks l st)
    (hplain : ∀ m ∈ l, m.Plain) (hneg : (∃ m ∈ l, m.value < 0) → ∃ m ∈ l, m.Negative)
    (arch : Arch) :
    (∀ m ∈ l, InRange st.isSigned (enumWidth arch st.min st.max) m.value) ↔
      ShortRoom arch l := by
  by_cases hex : ∃ m ∈ l, m.value < 0
  · have hsigned : st.isSigned = true := h.isSigned.mpr (hneg hex)
    have hno : ¬ ∀ m ∈ l, 0 ≤ m.value ∧ m.value < 2 ^ arch.unsignedBits := fun hall => by
      obtain ⟨m, hm, hlt⟩ := hex
      exact absurd (hall m hm).1 (not_le.mpr hlt)
    rw [hsigned, h.signed_iff hplain, ShortRoom, or_iff_right hno, and_iff_right hex]
  · have hpos : ∀ m ∈ l, 0 ≤ m.value := fun m hm => not_lt.mp fun hlt => hex ⟨m, hm, hlt⟩
    have hsigned : st.isSigned = false := Bool.eq_false_iff.mpr fun hs => by
      obtain ⟨m, hm, hneg⟩ := h.isSigned.mp hs
      exact absurd hneg.2 (not_lt.mpr (hpos m hm))
    rw [hsigned, h.unsigned_iff hplain arch hpos, ShortRoom,
      or_iff_left fun hand => hex hand.1]

/-! ## Accepted enums -/

/-- What is left, and the type that is settled on. -/
theorem foldEnum_eq {tg : Target} {hasBitmask shortEnums : Bool} {members : List EnumInit}
    {r : EnumFold} {ms : List Enumerator} {st : EnumState}
    (hloop : foldEnumLoop hasBitmask members (.init hasBitmask) = (ms, st))
    (h : foldEnum tg hasBitmask shortEnums members = some r) :
    r.members = ms ∧ r.hadError = st.hadError ∧
      (shortEnums = true → r.containedTy.isSigned tg = st.isSigned ∧
        8 * r.size = enumWidth tg.arch st.min st.max) := by
  rw [foldEnum, hloop] at h
  obtain ⟨ty, hty, rfl⟩ := Option.map_eq_some_iff.mp h
  refine ⟨rfl, rfl, fun hshort => ?_⟩
  rw [if_pos hshort] at hty
  have hmax := typeNavMaxFor_eq tg st.isSigned (enumBits_spec st.min st.max).1
  rw [hty] at hmax
  exact Prod.ext_iff.mp (Option.some.inj hmax)

/-- The assertion of type_nav_MAX_FOR does not fail. -/
theorem exists_foldEnum (tg : Target) (hasBitmask shortEnums : Bool) (members : List EnumInit) :
    ∃ r, foldEnum tg hasBitmask shortEnums members = some r := by
  rcases hloop : foldEnumLoop hasBitmask members (.init hasBitmask) with ⟨ms, st⟩
  rw [foldEnum, hloop]
  cases shortEnums with
  | false => exact ⟨_, rfl⟩
  | true =>
    obtain ⟨ty, hty, -⟩ := Option.map_eq_some_iff.mp
      (typeNavMaxFor_eq tg st.isSigned (enumBits_spec st.min st.max).1)
    exact ⟨_, Option.map_eq_some_iff.mpr ⟨ty, hty, rfl⟩⟩

/-- The enumerators of an enum that is accepted are right exactly if those that are given
no value are `int`s and, for a short enum, the values have room. -/
theorem foldEnum_right_iff {tg : Target} {hasBitmask shortEnums : Bool}
    {members : List EnumInit} {r : EnumFold}
    (h : foldEnum tg hasBitmask shortEnums members = some r) (herr : r.hadError = false) :
    r.Right tg hasBitmask shortEnums members ↔
      (∀ m ∈ meant hasBitmask none members, m.IsInt) ∧
        (shortEnums = true → ShortRoom tg.arch (meant hasBitmask none members)) := by
  rcases hloop : foldEnumLoop hasBitmask members (.init hasBitmask) with ⟨ms, st⟩
  obtain ⟨hms, hst, hwidth⟩ := foldEnum_eq hloop h
  have hdef := EnumState.init_defval hasBitmask
  have hfollow : FollowOn hasBitmask none members _ ↔ _ :=
    followOn_loop_iff hdef (by rw [hloop, ← hst, herr])
  rw [hloop] at hfollow
  rw [EnumFold.Right, hms, hfollow]
  refine and_congr_right fun hint => forall_congr' fun hshort => ?_
  have hvalues := map_value_loop hdef hint
  have htracks := tracks_loop hdef hint (tracks_init hasBitmask)
  rw [hloop] at hvalues htracks
  obtain ⟨hsigned, hsize⟩ := hwidth hshort
  have hroom := htracks.room_iff (plain_meant hint) (exists_negative fun z hz => nomatch hz) tg.arch
  rw [List.nil_append] at hroom
  rw [← hroom]
  calc (∀ m ∈ ms, r.Represents tg m.value)
      ↔ ∀ z ∈ ms.map Enumerator.value, r.Represents tg z := List.forall_mem_map.symm
    _ ↔ ∀ z ∈ (meant hasBitmask none members).map Meant.value, r.Represents tg z := by
        rw [hvalues]
    _ ↔ ∀ m ∈ meant hasBitmask none members, r.Represents tg m.value := List.forall_mem_map
    _ ↔ _ := by
        unfold EnumFold.Represents
        rw [hsigned, hsize]

/-- `enum { A = -1, B, C = 300 }` with -fshort-enums is a `short`. -/
theorem foldEnum_right_iff_short :
    EnumFold.Right ⟨.bits64, true⟩ false true [.const (-1) false, .none, .const 300 false]
      ⟨[⟨-1, false⟩, ⟨0, false⟩, ⟨300, false⟩], .short, 2, 2, false⟩ :=
  (foldEnum_right_iff (by decide +kernel) rfl).mpr ⟨by decide, fun _ => by decide⟩

/-- `enum { A = -1, B = 200 }` with -fshort-enums is a `signed char`. -/
theorem foldEnum_minus_one :
    ∃ r, foldEnum ⟨.bits64, true⟩ false true [.const (-1) false, .const 200 false] = some r ∧
      r.hadError = false ∧
      ¬ r.Right ⟨.bits64, true⟩ false true [.const (-1) false, .const 200 false] := by
  refine ⟨⟨[⟨-1, false⟩, ⟨200, false⟩], .schar, 1, 1, false⟩, by decide +kernel, rfl, ?_⟩
  rintro ⟨-, hroom⟩
  have h200 := hroom rfl ⟨200, false⟩ (by decide)
  exact absurd h200.2 (by decide)

end Ucc.Cc1
