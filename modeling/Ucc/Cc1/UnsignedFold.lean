/-
  Cc1/UnsignedFold.lean --- constants of the unsigned types.

  Source: const_op_exec in src/cc1/const.c, type_max in src/cc1/type.c,
  const_op_num_int and fold_const_expr_op in src/cc1/ops/expr_op.c.

  `const_op_exec` computes in 64 bits and then applies "proper wrap-around",
  which is one step of `2 ^ w`.  That is enough for every operator but two: a
  product or a left shift can be out of range by more than one step.  The
  comparisons are executed in the type of the expression, which is `int`, and so
  with the operands as signed numbers.
-/
import Mathlib.Data.BitVec
import Ucc.Cc1.NumberFold

set_option autoImplicit false

namespace Ucc.Cc1

/-! ## Every size -/

/-- The unsigned types; `unsigned long long` is as wide as `unsigned long`. -/
inductive UTy where
  | uchar | ushort | uint | ulong
  deriving DecidableEq, Repr

/-- `type_size` -/
def UTy.size : UTy → Nat
  | .uchar => 1
  | .ushort => 2
  | .uint => 4
  | .ulong => 8

/-- The width `w`. -/
def UTy.bits (t : UTy) : Nat := 8 * t.size

/-- `type_max`, of the size and the signedness of a type. -/
def typeMaxOf (size : Nat) (isSigned : Bool) : Integral :=
  let max : Integral := BitVec.allOnes 64 >>> (64 - 8 * size)
  if isSigned then max / 2 - 1 else max

/-- The wrap-around of `const_op_exec`, of the size and the signedness of a
type. -/
def wrapAroundOf (op : OpType) (size : Nat) (isSigned : Bool) (result : Integral) : Integral :=
  if isSigned then result
  else
    let max := typeMaxOf size isSigned
    if max = BitVec.allOnes 64 then result
    else if max < result then
      if opIncreases op then result - (max + 1) else result - BitVec.allOnes 64 + max
    else result

/-- `const_op_exec`, of the size and the signedness of a type. -/
def constOpExecOf (l : Integral) (r : Option Integral) (op : OpType) (size : Nat)
    (isSigned : Bool) : Except ExecErr Integral :=
  match r with
  | some r => (binaryExec isSigned l r op).map (wrapAroundOf op size isSigned)
  | none => (unaryExec l op).map (wrapAroundOf op size isSigned)

/-- The result of a binary operator as a mathematical number, for the
arithmetic, the bitwise and the shift operators; `none` where C defines none. -/
def mathBinary (t : UTy) (l r : Nat) : OpType → Option Int
  | .multiply => some (l * r : Nat)
  | .divide => if r = 0 then none else some (l / r : Nat)
  | .modulus => if r = 0 then none else some (l % r : Nat)
  | .plus => some (l + r : Nat)
  | .minus => some (l - r)
  | .xor => some (l ^^^ r : Nat)
  | .or => some (l ||| r : Nat)
  | .and => some (l &&& r : Nat)
  | .shiftl => if r < t.bits then some (l * 2 ^ r : Nat) else none
  | .shiftr => if r < t.bits then some (l / 2 ^ r : Nat) else none
  | _ => none

/-- The result of a unary operator as a mathematical number. -/
def mathUnary (l : Nat) : OpType → Option Int
  | .plus => some l
  | .minus => some (-l)
  | .bnot => some (-l - 1)
  | _ => none

/-- The result of an operator of `const_op_exec` as a mathematical number. -/
def mathResult (t : UTy) (op : OpType) (l : Integral) (r : Option Integral) : Option Int :=
  match r with
  | some r => mathBinary t l.toNat r.toNat op
  | none => mathUnary l.toNat op

/-- Where there is a result, it is what `const_op_exec` gives, modulo
`2 ^ w`. -/
def WrapsExactly (t : UTy) (op : OpType) (l : Integral) (r : Option Integral) : Prop :=
  ∀ z, mathResult t op l r = some z →
    ∃ v, constOpExecOf l r op t.size false = .ok v ∧ (v.toNat : Int) = z % 2 ^ t.bits

/-- A product or a left shift is out of range by less than `2 ^ w`, or the type
has all 64 bits. -/
def OutByOne (t : UTy) (op : OpType) (l : Integral) (r : Option Integral) : Prop :=
  ∀ v, r = some v →
    (op = .multiply → t = .ulong ∨ l.toNat * v.toNat < 2 ^ (t.bits + 1)) ∧
    (op = .shiftl →
      t = .ulong ∨ t.bits ≤ v.toNat ∨ l.toNat * 2 ^ v.toNat < 2 ^ (t.bits + 1))

/-! ## One step of the width -/

theorem wrapAroundOf_ulong (op : OpType) (x : Integral) :
    wrapAroundOf op UTy.ulong.size false x = x := by
  simp [wrapAroundOf, typeMaxOf, UTy.size]

/-- The largest value of a type narrower than 64 bits. -/
theorem typeMaxOf_toNat {t : UTy} (ht : t ≠ .ulong) :
    (typeMaxOf t.size false).toNat = 2 ^ t.bits - 1 := by
  cases t with
  | ulong => exact absurd rfl ht
  | uchar => decide
  | ushort => decide
  | uint => decide

theorem UTy.bits_le {t : UTy} (ht : t ≠ .ulong) : t.bits ≤ 32 := by
  cases t <;> simp_all [UTy.bits, UTy.size]

theorem UTy.two_pow_bits_le {t : UTy} (ht : t ≠ .ulong) : 2 ^ t.bits ≤ 2 ^ 32 :=
  Nat.pow_le_pow_right (by decide) (UTy.bits_le ht)

/-- One step of `2 ^ w`, down for the operators that increase and up for the
others. -/
theorem wrapAroundOf_toNat {t : UTy} (ht : t ≠ .ulong) (op : OpType) (x : Integral) :
    (wrapAroundOf op t.size false x).toNat =
      if 2 ^ t.bits ≤ x.toNat then
        if opIncreases op then x.toNat - 2 ^ t.bits else (x.toNat + 2 ^ t.bits) % 2 ^ 64
      else x.toNat := by
  have hmax := typeMaxOf_toNat ht
  have hpow := UTy.two_pow_bits_le ht
  have hpos : 0 < 2 ^ t.bits := by positivity
  have hall : (BitVec.allOnes 64).toNat = 2 ^ 64 - 1 := by decide
  have hne : typeMaxOf t.size false ≠ BitVec.allOnes 64 := by
    intro h
    rw [h, hall] at hmax
    omega
  have hx := x.isLt
  unfold wrapAroundOf
  simp only [hne, Bool.false_eq_true, if_false]
  by_cases hlt : typeMaxOf t.size false < x
  · have hle : 2 ^ t.bits ≤ x.toNat := by
      rw [BitVec.lt_def, hmax] at hlt
      omega
    simp only [hlt, hle, if_true]
    cases opIncreases op
    · simp only [Bool.false_eq_true, if_false, BitVec.toNat_add, BitVec.toNat_sub, hmax, hall]
      omega
    · have hone : (1 : Integral).toNat = 1 := rfl
      simp only [if_true, BitVec.toNat_sub, BitVec.toNat_add, hmax, hone]
      omega
  · have hle : ¬ 2 ^ t.bits ≤ x.toNat := by
      rw [BitVec.lt_def, hmax] at hlt
      omega
    simp only [hlt, hle, if_false]

/-- A type with 64 bits needs no step. -/
theorem toNat_ofInt_ulong {x : Integral} {z : Int} (hx : x = BitVec.ofInt 64 z) (op : OpType) :
    ((wrapAroundOf op UTy.ulong.size false x).toNat : Int) = z % 2 ^ UTy.ulong.bits := by
  rw [wrapAroundOf_ulong, hx, BitVec.toNat_ofInt]
  have hnn : 0 ≤ z % 2 ^ 64 := Int.emod_nonneg z (by decide)
  exact Int.toNat_of_nonneg hnn

/-- A result in range is left alone. -/
theorem wrapAroundOf_of_lt {t : UTy} {x : Integral} (hx : x.toNat < 2 ^ t.bits) (op : OpType) :
    ((wrapAroundOf op t.size false x).toNat : Int) = (x.toNat : Int) % 2 ^ t.bits := by
  have hmod : (x.toNat : Int) % 2 ^ t.bits = x.toNat := by
    exact_mod_cast Nat.mod_eq_of_lt hx
  rw [hmod]
  by_cases ht : t = .ulong
  · rw [ht, wrapAroundOf_ulong]
  · rw [wrapAroundOf_toNat ht, if_neg (by omega)]

/-- One step down is right for what is out of range by less than `2 ^ w`, and
for nothing else. -/
theorem wrapAroundOf_increases_iff {t : UTy} (ht : t ≠ .ulong) {op : OpType}
    (hop : opIncreases op = true) (x : Integral) :
    ((wrapAroundOf op t.size false x).toNat : Int) = (x.toNat : Int) % 2 ^ t.bits ↔
      x.toNat < 2 ^ (t.bits + 1) := by
  have hpos : 0 < 2 ^ t.bits := by positivity
  have hmod := Nat.mod_lt x.toNat hpos
  rw [wrapAroundOf_toNat ht, hop, if_pos rfl, Nat.pow_succ]
  have hcast : ((x.toNat : Int) % 2 ^ t.bits) = ((x.toNat % 2 ^ t.bits : Nat) : Int) := by
    push_cast
    rfl
  rw [hcast, Int.natCast_inj]
  split
  · rename_i hle
    constructor
    · intro h
      omega
    · intro h
      rw [Nat.mod_eq_sub_mod hle, Nat.mod_eq_of_lt (by omega)]
  · rename_i hlt
    rw [Nat.mod_eq_of_lt (by omega)]
    constructor
    · intro _
      omega
    · intro _
      rfl

/-- One step up is right for a difference. -/
theorem wrapAroundOf_decreases {t : UTy} {op : OpType} (hop : opIncreases op = false)
    {x : Integral} {z : Int} (hx : x = BitVec.ofInt 64 z) (hlo : -2 ^ t.bits ≤ z)
    (hhi : z < 2 ^ t.bits) :
    ((wrapAroundOf op t.size false x).toNat : Int) = z % 2 ^ t.bits := by
  by_cases ht : t = .ulong
  · subst ht
    exact toNat_ofInt_ulong hx op
  have hpow : (2 : Int) ^ t.bits ≤ 2 ^ 32 := by exact_mod_cast UTy.two_pow_bits_le ht
  have hcast : (2 : Int) ^ t.bits = ((2 ^ t.bits : Nat) : Int) := by push_cast; rfl
  have hpos : 0 < 2 ^ t.bits := by positivity
  have hnat : x.toNat = (z % 2 ^ 64).toNat := by rw [hx, BitVec.toNat_ofInt]; rfl
  rw [wrapAroundOf_toNat ht, hop, hnat]
  rcases lt_or_ge z 0 with hneg | hnn
  · have h64 : z % 2 ^ 64 = z + 2 ^ 64 := by omega
    have hw : z % 2 ^ t.bits = z + 2 ^ t.bits := by
      rw [← Int.add_emod_right, Int.emod_eq_of_lt (by omega) (by omega)]
    rw [h64, hw, if_pos (by omega)]
    simp only [Bool.false_eq_true, if_false]
    omega
  · have h64 : z % 2 ^ 64 = z := Int.emod_eq_of_lt hnn (by omega)
    rw [h64, Int.emod_eq_of_lt hnn hhi, if_neg (by omega)]
    exact Int.toNat_of_nonneg hnn

/-! ## The operators -/

section
variable {t : UTy} {op : OpType} {l r : Integral}

theorem wrapsExactly_iff_of_ok {rhs : Option Integral} {x : Integral} {z : Int}
    (hz : mathResult t op l rhs = some z)
    (hx : constOpExecOf l rhs op t.size false = .ok (wrapAroundOf op t.size false x)) :
    WrapsExactly t op l rhs ↔
      ((wrapAroundOf op t.size false x).toNat : Int) = z % 2 ^ t.bits := by
  unfold WrapsExactly
  rw [hz, hx]
  constructor
  · intro h
    obtain ⟨v, ⟨⟩, hv⟩ := h z rfl
    exact hv
  · rintro h _ ⟨⟩
    exact ⟨_, rfl, h⟩

/-- What stays in range is exact. -/
theorem wrapsExactly_of_lt {rhs : Option Integral} {x : Integral}
    (hz : mathResult t op l rhs = some (x.toNat : Int))
    (hx : constOpExecOf l rhs op t.size false = .ok (wrapAroundOf op t.size false x))
    (hlt : x.toNat < 2 ^ t.bits) : WrapsExactly t op l rhs :=
  (wrapsExactly_iff_of_ok hz hx).2 (wrapAroundOf_of_lt hlt op)

theorem wrapsExactly_of_none {rhs : Option Integral} (h : mathResult t op l rhs = none) :
    WrapsExactly t op l rhs := by
  intro z hz
  rw [h] at hz
  cases hz

/-- For the operators that increase: the exact result is below `2 ^ 64`, as it
is for every narrow type. -/
theorem wrapsExactly_increases_iff {rhs : Option Integral} {x : Integral} {n : Nat}
    (hop : opIncreases op = true) (hz : mathResult t op l rhs = some (n : Int))
    (hx : constOpExecOf l rhs op t.size false = .ok (wrapAroundOf op t.size false x))
    (hn : x = BitVec.ofNat 64 n) (hfits : t ≠ .ulong → n < 2 ^ 64) :
    WrapsExactly t op l rhs ↔ t = .ulong ∨ n < 2 ^ (t.bits + 1) := by
  rw [wrapsExactly_iff_of_ok hz hx]
  by_cases ht : t = .ulong
  · subst ht
    have hx' : x = BitVec.ofInt 64 (n : Int) := by rw [hn, BitVec.ofInt_natCast]
    exact iff_of_true (toNat_ofInt_ulong hx' op) (Or.inl rfl)
  · have hnat : x.toNat = n := by
      rw [hn, BitVec.toNat_ofNat, Nat.mod_eq_of_lt (hfits ht)]
    rw [← hnat, wrapAroundOf_increases_iff ht hop x]
    simp [ht]

theorem outByOne_of_ne {rhs : Option Integral} (hm : op ≠ .multiply) (hs : op ≠ .shiftl) :
    OutByOne t op l rhs := by
  intro v _
  exact ⟨fun h => absurd h hm, fun h => absurd h hs⟩

theorem multiply_wraps_iff (hl : l.toNat < 2 ^ t.bits) (hr : r.toNat < 2 ^ t.bits) :
    WrapsExactly t .multiply l (some r) ↔ OutByOne t .multiply l (some r) := by
  have hiff := @wrapsExactly_increases_iff t .multiply l (some r) (l * r) (l.toNat * r.toNat) rfl
    rfl rfl ?_ ?_
  · rw [hiff]
    constructor
    · rintro h _ ⟨⟩
      exact ⟨fun _ => h, fun hop => nomatch hop⟩
    · intro h
      exact (h r rfl).1 rfl
  · apply BitVec.eq_of_toNat_eq
    rw [BitVec.toNat_mul, BitVec.toNat_ofNat]
  · intro ht
    have hpow := UTy.two_pow_bits_le ht
    calc l.toNat * r.toNat < 2 ^ 32 * 2 ^ 32 := Nat.mul_lt_mul'' (by omega) (by omega)
      _ = 2 ^ 64 := by norm_num

theorem shiftl_wraps_iff (hl : l.toNat < 2 ^ t.bits) :
    WrapsExactly t .shiftl l (some r) ↔ OutByOne t .shiftl l (some r) := by
  by_cases hr : r.toNat < t.bits
  · have hiff := @wrapsExactly_increases_iff t .shiftl l (some r) (l <<< r)
      (l.toNat * 2 ^ r.toNat) rfl (if_pos hr) rfl ?_ ?_
    · rw [hiff]
      constructor
      · rintro h _ ⟨⟩
        exact ⟨fun hop => (nomatch hop), fun _ => h.imp_right Or.inr⟩
      · intro h
        exact ((h r rfl).2 rfl).imp_right fun h' => h'.resolve_left (Nat.not_le.2 hr)
    · apply BitVec.eq_of_toNat_eq
      rw [BitVec.shiftLeft_eq', BitVec.toNat_shiftLeft, BitVec.toNat_ofNat, Nat.shiftLeft_eq]
    · intro ht
      have hpow := UTy.two_pow_bits_le ht
      have hbits := UTy.bits_le ht
      have hshift : 2 ^ r.toNat ≤ 2 ^ 32 := Nat.pow_le_pow_right (by decide) (by omega)
      calc l.toNat * 2 ^ r.toNat < 2 ^ 32 * 2 ^ 32 :=
            Nat.mul_lt_mul_of_lt_of_le (by omega) hshift (by decide)
        _ = 2 ^ 64 := by norm_num
  · refine iff_of_true (wrapsExactly_of_none (if_neg hr)) ?_
    rintro _ ⟨⟩
    exact ⟨fun hop => (nomatch hop), fun _ => Or.inr (Or.inl (Nat.not_lt.1 hr))⟩

theorem plus_wraps (hl : l.toNat < 2 ^ t.bits) (hr : r.toNat < 2 ^ t.bits) :
    WrapsExactly t .plus l (some r) := by
  refine (@wrapsExactly_increases_iff t .plus l (some r) (l + r) (l.toNat + r.toNat) rfl
    rfl rfl ?_ ?_).2 (Or.inr ?_)
  · apply BitVec.eq_of_toNat_eq
    rw [BitVec.toNat_add, BitVec.toNat_ofNat]
  · intro ht
    have hpow := UTy.two_pow_bits_le ht
    omega
  · rw [Nat.pow_succ]
    omega

theorem minus_wraps (hl : l.toNat < 2 ^ t.bits) (hr : r.toNat < 2 ^ t.bits) :
    WrapsExactly t .minus l (some r) := by
  have hl' : (l.toNat : Int) < 2 ^ t.bits := by exact_mod_cast hl
  have hr' : (r.toNat : Int) < 2 ^ t.bits := by exact_mod_cast hr
  refine (@wrapsExactly_iff_of_ok t .minus l (some r) (l - r) _ rfl rfl).2 ?_
  refine wrapAroundOf_decreases rfl ?_ (by omega) (by omega)
  rw [Int.sub_eq_add_neg, BitVec.ofInt_add, BitVec.ofInt_neg, BitVec.sub_eq_add_neg]
  simp

theorem neg_wraps (hl : l.toNat < 2 ^ t.bits) : WrapsExactly t .minus l none := by
  have hl' : (l.toNat : Int) < 2 ^ t.bits := by exact_mod_cast hl
  refine (@wrapsExactly_iff_of_ok t .minus l none (-l) _ rfl rfl).2 ?_
  refine wrapAroundOf_decreases rfl ?_ (by omega) (by omega)
  rw [BitVec.ofInt_neg]
  simp

theorem bnot_wraps (hl : l.toNat < 2 ^ t.bits) : WrapsExactly t .bnot l none := by
  have hl' : (l.toNat : Int) < 2 ^ t.bits := by exact_mod_cast hl
  refine (@wrapsExactly_iff_of_ok t .bnot l none (~~~ l) _ rfl rfl).2 ?_
  refine wrapAroundOf_decreases rfl ?_ (by omega) (by omega)
  rw [Int.sub_eq_add_neg, BitVec.ofInt_add, BitVec.ofInt_neg, BitVec.not_eq_neg_add,
    BitVec.sub_eq_add_neg]
  simp

theorem toNat_eq_zero_of_eq (hr : r = 0) : r.toNat = 0 := by
  rw [hr]
  rfl

theorem divide_wraps (hl : l.toNat < 2 ^ t.bits) : WrapsExactly t .divide l (some r) := by
  by_cases hr : r = 0
  · exact wrapsExactly_of_none (if_pos (toNat_eq_zero_of_eq hr))
  · have hnat : r.toNat ≠ 0 := fun h => hr (BitVec.eq_of_toNat_eq h)
    have hle : l.toNat / r.toNat ≤ l.toNat := Nat.div_le_self _ _
    refine @wrapsExactly_of_lt t .divide l (some r) (l.udiv r) (if_neg hnat) ?_ ?_
    · simp only [constOpExecOf, binaryExec, hr, if_false, Bool.false_eq_true]
      rfl
    · exact lt_of_le_of_lt hle hl

theorem modulus_wraps (hl : l.toNat < 2 ^ t.bits) : WrapsExactly t .modulus l (some r) := by
  by_cases hr : r = 0
  · exact wrapsExactly_of_none (if_pos (toNat_eq_zero_of_eq hr))
  · have hnat : r.toNat ≠ 0 := fun h => hr (BitVec.eq_of_toNat_eq h)
    have hle : l.toNat % r.toNat ≤ l.toNat := Nat.mod_le _ _
    refine @wrapsExactly_of_lt t .modulus l (some r) (l.umod r) (if_neg hnat) ?_ ?_
    · simp only [constOpExecOf, binaryExec, hr, if_false, Bool.false_eq_true]
      rfl
    · exact lt_of_le_of_lt hle hl

theorem shiftr_wraps (hl : l.toNat < 2 ^ t.bits) : WrapsExactly t .shiftr l (some r) := by
  by_cases hr : r.toNat < t.bits
  · have hnat : (l >>> r).toNat = l.toNat / 2 ^ r.toNat := by
      rw [BitVec.ushiftRight_eq', BitVec.toNat_ushiftRight, Nat.shiftRight_eq_div_pow]
    have hle : l.toNat / 2 ^ r.toNat ≤ l.toNat := Nat.div_le_self _ _
    refine @wrapsExactly_of_lt t .shiftr l (some r) (l >>> r) ?_ rfl (by omega)
    rw [hnat]
    exact if_pos hr
  · exact wrapsExactly_of_none (if_neg hr)

end

/-- The value of an arithmetic, bitwise or shift operator on two constants of an
unsigned type is the mathematical result modulo `2 ^ w`, but for the products
and the left shifts that are out of range by `2 ^ w` or more. -/
theorem unsigned_wraps_exactly_iff (t : UTy) (op : OpType) (l : Integral) (r : Option Integral)
    (hl : l.toNat < 2 ^ t.bits) (hr : ∀ v, r = some v → v.toNat < 2 ^ t.bits) :
    WrapsExactly t op l r ↔ OutByOne t op l r := by
  cases r with
  | none =>
    refine iff_of_true ?_ nofun
    cases op with
    | plus =>
      refine @wrapsExactly_of_lt t .plus l none l rfl ?_ hl
      simp [constOpExecOf, unaryExec, Except.map]
    | minus => exact neg_wraps hl
    | bnot => exact bnot_wraps hl
    | _ => exact wrapsExactly_of_none rfl
  | some r =>
    have hr := hr r rfl
    cases op with
    | multiply => exact multiply_wraps_iff hl hr
    | shiftl => exact shiftl_wraps_iff hl
    | plus => exact iff_of_true (plus_wraps hl hr) (outByOne_of_ne nofun nofun)
    | minus => exact iff_of_true (minus_wraps hl hr) (outByOne_of_ne nofun nofun)
    | divide => exact iff_of_true (divide_wraps hl) (outByOne_of_ne nofun nofun)
    | modulus => exact iff_of_true (modulus_wraps hl) (outByOne_of_ne nofun nofun)
    | shiftr => exact iff_of_true (shiftr_wraps hl) (outByOne_of_ne nofun nofun)
    | xor =>
      have hlt : (l ^^^ r).toNat < 2 ^ t.bits := Nat.xor_lt_two_pow hl hr
      exact iff_of_true (wrapsExactly_of_lt rfl rfl hlt) (outByOne_of_ne nofun nofun)
    | or =>
      have hlt : (l ||| r).toNat < 2 ^ t.bits := Nat.or_lt_two_pow hl hr
      exact iff_of_true (wrapsExactly_of_lt rfl rfl hlt) (outByOne_of_ne nofun nofun)
    | and =>
      have hlt : (l &&& r).toNat < 2 ^ t.bits := Nat.and_lt_two_pow _ hr
      exact iff_of_true (wrapsExactly_of_lt rfl rfl hlt) (outByOne_of_ne nofun nofun)
    | _ => exact iff_of_true (wrapsExactly_of_none rfl) (outByOne_of_ne nofun nofun)

/-- `65535u * 65536u` is in range of one step. -/
theorem unsigned_wraps_exactly_near :
    ((65535 : Integral).toNat < 2 ^ UTy.uint.bits) ∧
      WrapsExactly .uint .multiply 65535 (some 65536) := by
  refine ⟨by decide, ?_⟩
  refine (unsigned_wraps_exactly_iff .uint .multiply 65535 (some 65536) (by decide) ?_).2 ?_
  · rintro v ⟨⟩
    decide
  · rintro v ⟨⟩
    exact ⟨fun _ => Or.inr (by decide), nofun⟩

/-- `0xffffffffu * 0xffffffffu` is `1`; the folder gives a number of 64
bits. -/
theorem product_of_uint_max_not_wrapped :
    (4294967295 : Integral).toNat < 2 ^ UTy.uint.bits ∧
      ¬ WrapsExactly .uint .multiply 4294967295 (some 4294967295) := by
  refine ⟨by decide, ?_⟩
  intro h
  obtain ⟨v, hv, hz⟩ := h _ rfl
  cases hv
  revert hz
  decide

/-! ## Comparisons -/

/-- The number of an integer constant. -/
def Consty.number (k : Consty) : Option Integral :=
  match k.bits with
  | .num val _ => some (val + k.offset)
  | .addr (.memaddr a) => some (a + k.offset)
  | _ => none

/-- A comparison of two integer constants, which have been converted to one
type. -/
structure Comparison where
  op : OpType
  ty : CTy
  lhs : Consty
  rhs : Consty
  l : Integral
  r : Integral
  comparison : opIsComparison op = true
  integer : ty.isPtr = none
  lhs_number : lhs.number = some l
  rhs_number : rhs.number = some r
  l_fits : ty.Fits (ty.read l)
  r_fits : ty.Fits (ty.read r)

/-- The comparisons of C, on numbers. -/
def compares (op : OpType) (a b : Int) : Bool :=
  match op with
  | .eq => a = b
  | .ne => a ≠ b
  | .lt => a < b
  | .le => a ≤ b
  | .gt => b < a
  | .ge => b ≤ a
  | _ => false

namespace Comparison

/-- The expression that is folded; its type is `int`. -/
def expr (c : Comparison) : OpExpr := ⟨c.op, ⟨c.ty, c.lhs⟩, some ⟨c.ty, c.rhs⟩, .int⟩

/-- The folder gives the comparison of the two values of the type. -/
def FoldsInType (c : Comparison) : Prop :=
  ∃ k, foldConstExprOp c.expr = some k ∧
    k.number = some (ofTruth (compares c.op (c.ty.read c.l) (c.ty.read c.r)))

end Comparison

theorem Consty.collapse_of_number {k : Consty} {v : Integral} (h : k.number = some v) :
    collapseConst k = some ⟨none, v, false⟩ := by
  unfold Consty.number at h
  unfold collapseConst
  split at h
  · rename_i val suffix hk
    simp only [hk]
    rw [Option.some.inj h]
  · rename_i a hk
    simp only [hk]
    rw [Option.some.inj h]
  · cases h

theorem Consty.atCompileTime_of_number {k : Consty} {v : Integral} (h : k.number = some v) :
    k.atCompileTime = true := by
  unfold Consty.number at h
  unfold Consty.atCompileTime
  split at h
  · rename_i val suffix hk
    simp only [hk]
  · rename_i a hk
    simp only [hk]
  · cases h

/-- A word compared as a signed number. -/
def signedCompares (op : OpType) (l r : Integral) : Bool :=
  match op with
  | .eq => l == r
  | .ne => l != r
  | .lt => l.slt r
  | .le => l.sle r
  | .gt => r.slt l
  | .ge => r.sle l
  | _ => false

/-- A comparison is executed in `int`: as signed numbers, and with no
wrap-around. -/
theorem constOpExec_comparison {op : OpType} (h : opIsComparison op = true) (l r : Integral) :
    constOpExec l (some r) op .int = .ok (ofTruth (signedCompares op l r)) := by
  cases op with
  | eq | ne | lt | le | gt | ge => rfl
  | _ => cases h

namespace Comparison

theorem fold_eq (c : Comparison) :
    ∃ k, foldConstExprOp c.expr = some k ∧
      k.number = some (ofTruth (signedCompares c.op c.l c.r)) := by
  have hsc : opIsShortcircuit c.op = false := by
    have h := c.comparison
    cases hop : c.op <;> simp_all [opIsComparison, opIsShortcircuit]
  have hpm : ¬ (c.op = .plus ∨ c.op = .minus) := by
    have h := c.comparison
    rintro (hop | hop) <;> simp [hop, opIsComparison] at h
  have hint : constOpNumInt c.expr =
      some { bits := .num (ofTruth (signedCompares c.op c.l c.r)) (numSuffix c.expr) } := by
    simp only [constOpNumInt, expr, Consty.collapse_of_number c.lhs_number,
      Consty.collapse_of_number c.rhs_number, Option.bind_eq_bind, Option.bind_some, applyStep, hpm,
      and_false, if_false, hsc, Bool.false_eq_true]
    simp only [labels, foldNumbers, Option.map_some, constOpExec_comparison c.comparison]
    rfl
  refine ⟨{ bits := .num (ofTruth (signedCompares c.op c.l c.r)) (numSuffix c.expr)
            nonstandardConst := c.lhs.nonstandardConst || c.rhs.nonstandardConst }, ?_, ?_⟩
  · unfold foldConstExprOp
    rw [hint]
    simp only [OpExpr.rhsConst, expr, Consty.atCompileTime_of_number c.lhs_number,
      Consty.atCompileTime_of_number c.rhs_number]
    simp
  · simp [Consty.number]

end Comparison

/-- The comparison of signed words is the comparison in the type, unless the type
has all 64 bits and no sign and just one of the words has its top bit set. -/
theorem signedCompares_eq_iff {op : OpType} {t : CTy} {l r : Integral}
    (hop : opIsComparison op = true) (hptr : t.isPtr = none)
    (hl : t.Fits (t.read l)) (hr : t.Fits (t.read r)) :
    signedCompares op l r = compares op (t.read l) (t.read r) ↔
      (op = .eq ∨ op = .ne ∨ (t = .ulong ∨ t = .ullong → l.msb = r.msb)) := by
  have hread : l = r ↔ t.read l = t.read r := by
    constructor
    · rintro rfl
      rfl
    · intro h
      rw [← CTy.ofInt_read t l, h, CTy.ofInt_read]
  have heq : (l == r) = decide (t.read l = t.read r) := by
    rw [beq_eq_decide]
    exact decide_eq_decide.mpr hread
  have hlr := order_agrees_iff hl hr hptr
  have hrl := order_agrees_iff hr hl hptr
  have hcomm : r.msb = l.msb ↔ l.msb = r.msb := eq_comm
  cases op with
  | eq => simp [signedCompares, compares, heq]
  | ne => simp [signedCompares, compares, bne, heq]
  | lt => simpa [signedCompares, compares] using hlr
  | gt => simpa [signedCompares, compares, hcomm] using hrl
  | le => simpa [signedCompares, compares, sle_eq_iff, hcomm] using hrl
  | ge => simpa [signedCompares, compares, sle_eq_iff] using hlr
  | _ => cases hop

/-- `0xffffffffffffffffUL > 0UL` -/
def topAboveZero : Comparison where
  op := .gt
  ty := .ulong
  lhs := constNum (BitVec.allOnes 64)
  rhs := constNum 0
  l := BitVec.allOnes 64
  r := 0
  comparison := rfl
  integer := rfl
  lhs_number := rfl
  rhs_number := rfl
  l_fits := by decide
  r_fits := by decide

end Ucc.Cc1
