/-
  Cc1/NumberFold.lean --- operators on two numbers.

  Source: const_op_exec in src/cc1/const.c.

  `const_op_exec` against the C reading of the operators.  `NumbersAgree` is the
  exact condition; it fails where the result of an unsigned `int` operator is
  two or more times out of range, where unsigned `long`s are ordered by their
  signs, and on the difference of two numeric pointers.
-/
import Mathlib.Data.BitVec
import Ucc.Cc1.RunTime

set_option autoImplicit false

namespace Ucc.Cc1

/-! ## Words and numbers -/

theorem CTy.ofInt_read (t : CTy) (v : Integral) : BitVec.ofInt 64 (t.read v) = v := by
  unfold CTy.read
  split
  · exact BitVec.ofInt_toInt
  · simp

theorem wrapAround_of_signed {op : OpType} {t : CTy} {x : Integral} (h : t.isSigned = true) :
    wrapAround op t x = x := by
  simp [wrapAround, h]

theorem wrapAround_of_ne_uint {op : OpType} {t : CTy} {x : Integral} (h : t ≠ .uint) :
    wrapAround op t x = x := by
  cases t with
  | uint => exact absurd rfl h
  | ulong => simp [wrapAround, typeMax, CTy.size, CTy.isSigned]
  | ullong => simp [wrapAround, typeMax, CTy.size, CTy.isSigned]
  | int => exact wrapAround_of_signed rfl
  | long => exact wrapAround_of_signed rfl
  | llong => exact wrapAround_of_signed rfl
  | ptr next => exact wrapAround_of_signed rfl

/-- What is out of range for an `unsigned int` is brought back by one step of
`2 ^ 32`, down for the operators that increase and up for the others. -/
theorem wrapAround_uint (op : OpType) (x : Integral) :
    wrapAround op .uint x =
      if 2 ^ 32 ≤ x.toNat then
        if opIncreases op then x - 4294967296#64 else x + 4294967296#64
      else x := by
  have hmax : typeMax .uint = 4294967295#64 := by decide
  have hall : BitVec.allOnes 64 = 18446744073709551615#64 := by decide
  unfold wrapAround
  simp only [CTy.isSigned, hmax, hall]
  by_cases hx : 2 ^ 32 ≤ x.toNat
  · have hlt : 4294967295#64 < x := by
      rw [BitVec.lt_def]
      simp
      omega
    simp only [hx, hlt, if_true]
    cases opIncreases op
    · simp
      bv_omega
    · simp
  · have hlt : ¬ 4294967295#64 < x := by
      rw [BitVec.lt_def]
      simp
      omega
    simp only [hx, hlt]
    simp

theorem CTy.wrap_of_ne_uint {t : CTy} {z : Int} {v : Integral} (ht : t ≠ .uint)
    (h : t.wrap z = some v) : BitVec.ofInt 64 z = v := by
  unfold CTy.wrap at h
  split at h
  · split at h
    · exact Option.some.inj h
    · cases h
  · have hbits : t.bits = 64 := by
      cases t <;> simp_all [CTy.bits, CTy.size, CTy.isSigned]
    rw [hbits] at h
    rw [← Option.some.inj h]
    apply BitVec.eq_of_toInt_eq
    rw [BitVec.toInt_ofInt, BitVec.toInt_ofInt]
    exact (Int.emod_bmod (x := z) (n := 2 ^ 64)).symm

theorem CTy.wrap_uint (z : Int) :
    CTy.uint.wrap z = some (BitVec.ofInt 64 (z % 4294967296)) := by
  simp [CTy.wrap, CTy.isSigned, CTy.bits, CTy.size]

/-! ## Agreement -/

/-- A folded number is the value, where there is one. -/
def Agrees (folded : Except ExecErr Integral) (value : Option Integral) : Prop :=
  ∀ x v, folded = .ok x → value = some v → x = v

theorem agrees_ok {x : Integral} {value : Option Integral} :
    Agrees (.ok x) value ↔ ∀ v, value = some v → x = v := by
  constructor
  · intro h v hv
    exact h x v rfl hv
  · rintro h y v ⟨⟩ hv
    exact h v hv

theorem agrees_ok_some {x v : Integral} : Agrees (.ok x) (some v) ↔ x = v := by
  constructor
  · intro h
    exact h x v rfl rfl
  · rintro rfl y w ⟨⟩ ⟨⟩
    rfl

theorem agrees_none (folded : Except ExecErr Integral) : Agrees folded none := by
  rintro x v - ⟨⟩

theorem agrees_error (e : ExecErr) (value : Option Integral) : Agrees (.error e) value := by
  rintro x v ⟨⟩

/-- Outside `unsigned int`, a result that is right in 64 bits is right. -/
theorem agrees_wrap {op : OpType} {t : CTy} {x : Integral} {z : Int} (ht : t ≠ .uint)
    (h : BitVec.ofInt 64 z = x) : Agrees (.ok (wrapAround op t x)) (t.wrap z) := by
  rintro y v ⟨⟩ hv
  rw [wrapAround_of_ne_uint ht, ← h]
  exact CTy.wrap_of_ne_uint ht hv

theorem wrapAround_uint_toNat (op : OpType) (x : Integral) :
    (wrapAround op .uint x).toNat =
      if 2 ^ 32 ≤ x.toNat then
        if opIncreases op then x.toNat - 2 ^ 32 else (x.toNat + 2 ^ 32) % 2 ^ 64
      else x.toNat := by
  rw [wrapAround_uint]
  split
  · split
    · rw [BitVec.toNat_sub_of_le]
      · rfl
      · rw [BitVec.le_def]
        simpa using ‹_›
    · rw [BitVec.toNat_add]
      rfl
  · rfl

/-- A result in `unsigned int`, against the number it should be. -/
theorem agrees_uint {op : OpType} {x : Integral} {z : Int} :
    Agrees (.ok (wrapAround op .uint x)) (CTy.uint.wrap z) ↔
      ((wrapAround op .uint x).toNat : Int) = z % 2 ^ 32 := by
  have hlo : 0 ≤ z % 2 ^ 32 := Int.emod_nonneg z (by decide)
  have hhi : z % 2 ^ 32 < 2 ^ 32 := Int.emod_lt_of_pos z (by decide)
  rw [CTy.wrap_uint, agrees_ok_some, ← BitVec.toNat_inj, BitVec.toNat_ofInt]
  omega

/-! ## Arithmetic -/

section Arithmetic

variable {t rt : CTy} {l r : Integral}

theorem uint_lt (h : CTy.uint.Fits (CTy.uint.read l)) : l.toNat < 2 ^ 32 := by
  have hlt : (l.toNat : Int) < 2 ^ 32 := h.2
  exact_mod_cast hlt

theorem plus_agrees (hl : t.Fits (t.read l)) (hr : t.Fits (t.read r)) :
    Agrees (.ok (wrapAround .plus t (l + r))) (t.wrap (t.read l + t.read r)) := by
  rcases eq_or_ne t .uint with rfl | ht
  · have hl := uint_lt hl
    have hr := uint_lt hr
    rw [agrees_uint, wrapAround_uint_toNat, BitVec.toNat_add, Nat.mod_eq_of_lt (by omega)]
    change _ = ((l.toNat : Int) + r.toNat) % 2 ^ 32
    simp only [opIncreases, if_true]
    split <;> omega
  · refine agrees_wrap ht ?_
    rw [BitVec.ofInt_add, t.ofInt_read, t.ofInt_read]

theorem minus_agrees (hl : t.Fits (t.read l)) (hr : t.Fits (t.read r)) :
    Agrees (.ok (wrapAround .minus t (l - r))) (t.wrap (t.read l - t.read r)) := by
  rcases eq_or_ne t .uint with rfl | ht
  · have hl := uint_lt hl
    have hr := uint_lt hr
    rw [agrees_uint, wrapAround_uint_toNat, BitVec.toNat_sub]
    change _ = ((l.toNat : Int) - r.toNat) % 2 ^ 32
    simp only [opIncreases, Bool.false_eq_true, if_false]
    split <;> omega
  · refine agrees_wrap ht ?_
    rw [Int.sub_eq_add_neg, BitVec.ofInt_add, BitVec.ofInt_neg, t.ofInt_read, t.ofInt_read,
      BitVec.sub_eq_add_neg]

theorem multiply_agrees_iff (hl : t.Fits (t.read l)) (hr : t.Fits (t.read r)) :
    Agrees (.ok (wrapAround .multiply t (l * r))) (t.wrap (t.read l * t.read r)) ↔
      (t = .uint → l.toNat * r.toNat < 2 ^ 33) := by
  rcases eq_or_ne t .uint with rfl | ht
  · have hl := uint_lt hl
    have hr := uint_lt hr
    have hlt : l.toNat * r.toNat < 2 ^ 64 :=
      (Nat.mul_lt_mul'' hl hr).trans_le (by decide)
    rw [agrees_uint, wrapAround_uint_toNat, BitVec.toNat_mul, Nat.mod_eq_of_lt hlt]
    change _ = ((l.toNat : Int) * r.toNat) % 2 ^ 32 ↔ _
    rw [← Int.natCast_mul]
    generalize l.toNat * r.toNat = n at hlt
    simp only [opIncreases, if_true, true_imp_iff]
    split <;> omega
  · refine iff_of_true (agrees_wrap ht ?_) (fun h => absurd h ht)
    rw [BitVec.ofInt_mul, t.ofInt_read, t.ofInt_read]

/-- The number of a signed type is that of the word. -/
theorem CTy.read_signed (h : t.isSigned = true) : t.read l = l.toInt := if_pos h

theorem CTy.read_unsigned (h : t.isSigned = false) : t.read l = l.toNat :=
  if_neg (by simp [h])

theorem CTy.read_eq_zero : t.read r = 0 ↔ r = 0 := by
  constructor
  · intro h
    rw [← t.ofInt_read r, h]
    rfl
  · rintro rfl
    unfold CTy.read
    split <;> rfl

/-- A result below `2 ^ 32` is kept as it is. -/
theorem wrapAround_of_lt {op : OpType} {x : Integral} (h : t = .uint → x.toNat < 2 ^ 32) :
    wrapAround op t x = x := by
  rcases eq_or_ne t .uint with rfl | ht
  · rw [wrapAround_uint, if_neg (by have := h rfl; omega)]
  · exact wrapAround_of_ne_uint ht

/-- A result that is in range is right when it is right in 64 bits. -/
theorem agrees_wrap_of_lt {op : OpType} {x : Integral} {z : Int} (hz : BitVec.ofInt 64 z = x)
    (h : t = .uint → 0 ≤ z ∧ z < 2 ^ 32) : Agrees (.ok (wrapAround op t x)) (t.wrap z) := by
  rcases eq_or_ne t .uint with rfl | ht
  · obtain ⟨hlo, hhi⟩ := h rfl
    have hx : (x.toNat : Int) = z := by
      rw [← hz, BitVec.toNat_ofInt]
      omega
    rw [agrees_uint, wrapAround_of_lt (fun _ => by omega)]
    omega
  · exact agrees_wrap ht hz

theorem ofInt_tdiv_signed : BitVec.ofInt 64 (l.toInt.tdiv r.toInt) = l.sdiv r := by
  apply BitVec.eq_of_toInt_eq
  rw [BitVec.toInt_ofInt, BitVec.toInt_sdiv]

theorem ofInt_tdiv_unsigned :
    BitVec.ofInt 64 ((l.toNat : Int).tdiv r.toNat) = l.udiv r := by
  rw [← Int.ofNat_tdiv, BitVec.ofInt_natCast]
  apply BitVec.eq_of_toNat_eq
  rw [BitVec.toNat_ofNat]
  change _ = (l / r).toNat
  rw [BitVec.toNat_udiv]
  exact Nat.mod_eq_of_lt ((Nat.div_le_self _ _).trans_lt l.isLt)

theorem divide_agrees (hl : t.Fits (t.read l)) :
    Agrees (.ok (wrapAround .divide t (if t.isSigned then l.sdiv r else l.udiv r)))
      (t.wrap ((t.read l).tdiv (t.read r))) := by
  refine agrees_wrap_of_lt ?_ ?_
  · cases ht : t.isSigned with
    | true =>
      rw [CTy.read_signed ht, CTy.read_signed ht]
      exact ofInt_tdiv_signed
    | false =>
      rw [CTy.read_unsigned ht, CTy.read_unsigned ht]
      exact ofInt_tdiv_unsigned
  · rintro rfl
    have hl := uint_lt hl
    change 0 ≤ (l.toNat : Int).tdiv r.toNat ∧ (l.toNat : Int).tdiv r.toNat < 2 ^ 32
    rw [← Int.ofNat_tdiv]
    have hle := Nat.div_le_self l.toNat r.toNat
    generalize l.toNat / r.toNat = q at hle
    omega

theorem modulus_agrees (hl : t.Fits (t.read l)) :
    Agrees (.ok (wrapAround .modulus t (if t.isSigned then l.srem r else l.umod r)))
      (t.wrap ((t.read l).tmod (t.read r))) := by
  refine agrees_wrap_of_lt ?_ ?_
  · cases ht : t.isSigned with
    | true =>
      rw [CTy.read_signed ht, CTy.read_signed ht, ← BitVec.toInt_srem, BitVec.ofInt_toInt]
      rfl
    | false =>
      rw [CTy.read_unsigned ht, CTy.read_unsigned ht, ← Int.ofNat_tmod, BitVec.ofInt_natCast]
      apply BitVec.eq_of_toNat_eq
      rw [BitVec.toNat_ofNat]
      change _ = (l % r).toNat
      rw [BitVec.toNat_umod]
      exact Nat.mod_eq_of_lt ((Nat.mod_le _ _).trans_lt l.isLt)
  · rintro rfl
    have hl := uint_lt hl
    change 0 ≤ (l.toNat : Int).tmod r.toNat ∧ (l.toNat : Int).tmod r.toNat < 2 ^ 32
    rw [← Int.ofNat_tmod]
    have hle := Nat.mod_le l.toNat r.toNat
    generalize l.toNat % r.toNat = q at hle
    omega

/-! ## Shifts -/

/-- The count of a shift that C gives a value. -/
theorem CTy.read_count (h : 0 ≤ rt.read r) : rt.read r = r.toNat := by
  cases ht : rt.isSigned with
  | true =>
    rw [CTy.read_signed ht] at h ⊢
    rw [BitVec.toInt_eq_toNat_cond] at h ⊢
    have hlt := r.isLt
    split at h
    · rename_i hlow
      rw [if_pos hlow]
    · omega
  | false => exact CTy.read_unsigned ht

theorem CTy.read_of_small (h : r.toNat < 2 ^ 63) : rt.read r = r.toNat := by
  apply CTy.read_count
  unfold CTy.read
  split
  · rw [BitVec.toInt_eq_toNat_cond, if_pos (by omega)]
    omega
  · omega

theorem ofInt_mul_two_pow (n : Nat) :
    BitVec.ofInt 64 (t.read l * 2 ^ n) = l <<< n := by
  have hpow : ((2 : Int) ^ n) = ((2 ^ n : Nat) : Int) := by norm_cast
  rw [BitVec.ofInt_mul, t.ofInt_read, hpow, BitVec.ofInt_natCast, BitVec.shiftLeft_eq_mul_twoPow]
  congr 1
  apply BitVec.eq_of_toNat_eq
  rw [BitVec.toNat_ofNat, BitVec.toNat_twoPow]

theorem shiftl_agrees_iff (hl : t.Fits (t.read l)) {n : Nat} (hn : n < t.bits) :
    Agrees (.ok (wrapAround .shiftl t (l <<< n))) (t.wrap (t.read l * 2 ^ n)) ↔
      (t = .uint → l.toNat * 2 ^ n < 2 ^ 33) := by
  rcases eq_or_ne t .uint with rfl | ht
  · have hl := uint_lt hl
    have hn : n < 32 := hn
    have hpow : 2 ^ n ≤ 2 ^ 31 := Nat.pow_le_pow_right (by omega) (by omega)
    have hlt : l.toNat * 2 ^ n < 2 ^ 64 :=
      (Nat.mul_lt_mul_of_lt_of_le hl hpow (by omega)).trans_le (by decide)
    rw [agrees_uint, wrapAround_uint_toNat, BitVec.toNat_shiftLeft, Nat.shiftLeft_eq,
      Nat.mod_eq_of_lt hlt]
    change _ = ((l.toNat : Int) * 2 ^ n) % 2 ^ 32 ↔ _
    have hcast : ((l.toNat : Int) * 2 ^ n) = ((l.toNat * 2 ^ n : Nat) : Int) := by norm_cast
    rw [hcast]
    generalize l.toNat * 2 ^ n = m at hlt
    simp only [opIncreases, if_true, true_imp_iff]
    split <;> omega
  · exact iff_of_true (agrees_wrap ht (ofInt_mul_two_pow n)) (fun h => absurd h ht)

theorem shiftr_agrees (hl : t.Fits (t.read l)) (n : Nat) :
    Agrees (.ok (wrapAround .shiftr t (if t.isSigned then l.sshiftRight n else l >>> n)))
      (t.wrap (t.read l / 2 ^ n)) := by
  refine agrees_wrap_of_lt ?_ ?_
  · cases ht : t.isSigned with
    | true =>
      have hshift : l.toInt / 2 ^ n = (l.sshiftRight n).toInt := by
        rw [BitVec.toInt_sshiftRight, Int.shiftRight_eq_div_pow]
        norm_cast
      rw [CTy.read_signed ht, if_pos rfl, hshift]
      exact BitVec.ofInt_toInt
    | false =>
      rw [CTy.read_unsigned ht, if_neg (by simp)]
      have hcast : ((l.toNat : Int) / 2 ^ n) = ((l.toNat / 2 ^ n : Nat) : Int) := by norm_cast
      rw [hcast, BitVec.ofInt_natCast]
      apply BitVec.eq_of_toNat_eq
      rw [BitVec.toNat_ofNat, BitVec.toNat_ushiftRight, Nat.shiftRight_eq_div_pow]
      exact Nat.mod_eq_of_lt ((Nat.div_le_self _ _).trans_lt l.isLt)
  · rintro rfl
    have hl := uint_lt hl
    change 0 ≤ (l.toNat : Int) / 2 ^ n ∧ (l.toNat : Int) / 2 ^ n < 2 ^ 32
    have hcast : ((l.toNat : Int) / 2 ^ n) = ((l.toNat / 2 ^ n : Nat) : Int) := by norm_cast
    rw [hcast]
    have hle := Nat.div_le_self l.toNat (2 ^ n)
    generalize l.toNat / 2 ^ n = q at hle
    omega

/-! ## Bits and comparisons -/

theorem bits_agree {op : OpType} {f : Integral → Integral → Integral}
    (hf : ∀ x y : Integral, x.toNat < 2 ^ 32 → y.toNat < 2 ^ 32 → (f x y).toNat < 2 ^ 32)
    (hl : t.Fits (t.read l)) (hr : t.Fits (t.read r)) :
    Agrees (.ok (wrapAround op t (f l r))) (some (f l r)) := by
  rw [agrees_ok_some]
  refine wrapAround_of_lt ?_
  rintro rfl
  exact hf l r (uint_lt hl) (uint_lt hr)

theorem ofTruth_inj {a b : Bool} : ofTruth a = ofTruth b ↔ a = b := by
  cases a <;> cases b <;> decide

/-- The comparisons are made on signed words. -/
theorem order_agrees_iff (hl : t.Fits (t.read l)) (hr : t.Fits (t.read r))
    (hptr : t.isPtr = none) :
    l.slt r = decide (t.read l < t.read r) ↔ (t = .ulong ∨ t = .ullong → l.msb = r.msb) := by
  have hbig : l.slt r = decide ((l.toNat : Int) < r.toNat) ↔ l.msb = r.msb := by
    have hult : decide ((l.toNat : Int) < r.toNat) = l.ult r := by
      simp [BitVec.ult]
    rw [hult, BitVec.slt_eq_ult]
    cases l.msb <;> cases r.msb <;> cases l.ult r <;> decide
  cases t with
  | int | long | llong => exact iff_of_true rfl (by rintro (h | h) <;> cases h)
  | uint =>
    refine iff_of_true ?_ (by rintro (h | h) <;> cases h)
    have hl := uint_lt hl
    have hr := uint_lt hr
    change decide (l.toInt < r.toInt) = decide ((l.toNat : Int) < r.toNat)
    rw [BitVec.toInt_eq_toNat_cond, BitVec.toInt_eq_toNat_cond, if_pos (by omega),
      if_pos (by omega)]
  | ulong | ullong => simpa [CTy.read, CTy.isSigned] using hbig
  | ptr next => cases hptr

theorem sle_eq_iff {a b : Int} : r.sle l = decide (a ≤ b) ↔ l.slt r = decide (b < a) := by
  have hle : decide (a ≤ b) = !decide (b < a) := by
    rw [← decide_not]
    exact decide_eq_decide.mpr not_lt.symm
  rw [BitVec.sle_eq_not_slt, hle]
  exact Bool.not_inj_iff

end Arithmetic

/-! ## The integer operators -/

/-- When an operator on two integers is folded to its value. -/
def IntFoldsWell (op : OpType) (t : CTy) (l r : Integral) : Prop :=
  match op with
  | .multiply => t = .uint → l.toNat * r.toNat < 2 ^ 33
  | .shiftl => t = .uint → r.toNat < 32 → l.toNat * 2 ^ r.toNat < 2 ^ 33
  | .lt | .le | .gt | .ge => t = .ulong ∨ t = .ullong → l.msb = r.msb
  | _ => True

theorem binaryType_arith {op : OpType} {lt rt t : CTy} (h : binaryType op lt rt = some t)
    (hl : lt.isPtr = none) (hr : rt.isPtr = none)
    (hop : op = .multiply ∨ op = .divide ∨ op = .modulus ∨ op = .plus ∨ op = .minus ∨
      op = .xor ∨ op = .or ∨ op = .and) : lt = rt ∧ t = lt := by
  rcases hop with rfl | rfl | rfl | rfl | rfl | rfl | rfl | rfl <;>
    simp_all [binaryType]

theorem binaryType_order {op : OpType} {lt rt t : CTy} (h : binaryType op lt rt = some t)
    (hl : lt.isPtr = none) (hr : rt.isPtr = none)
    (hop : op = .lt ∨ op = .le ∨ op = .gt ∨ op = .ge) : lt = rt ∧ t = .int := by
  rcases hop with rfl | rfl | rfl | rfl <;> simp_all [binaryType]

theorem binaryType_shift {op : OpType} {lt rt t : CTy} (h : binaryType op lt rt = some t)
    (hop : op = .shiftl ∨ op = .shiftr) : t = lt := by
  rcases hop with rfl | rfl <;> simp_all [binaryType]

/-- A division by 0 is an error, and one that overflows has no value. -/
theorem divide_int_agrees {t : CTy} {l r : Integral} (hl : t.Fits (t.read l)) :
    Agrees (constOpExec l (some r) .divide t) (evalInt .divide t t l r) := by
  rcases eq_or_ne r 0 with rfl | hr0
  · exact agrees_error _ _
  · have hexec : constOpExec l (some r) .divide t =
        .ok (wrapAround .divide t (if t.isSigned then l.sdiv r else l.udiv r)) := by
      rw [constOpExec, binaryExec, if_neg hr0]
      rfl
    rw [hexec]
    unfold evalInt
    dsimp only
    rw [if_neg (mt CTy.read_eq_zero.mp hr0)]
    exact divide_agrees hl

theorem modulus_int_agrees {t : CTy} {l r : Integral} (hl : t.Fits (t.read l)) :
    Agrees (constOpExec l (some r) .modulus t) (evalInt .modulus t t l r) := by
  rcases eq_or_ne r 0 with rfl | hr0
  · exact agrees_error _ _
  · have hexec : constOpExec l (some r) .modulus t =
        .ok (wrapAround .modulus t (if t.isSigned then l.srem r else l.umod r)) := by
      rw [constOpExec, binaryExec, if_neg hr0]
      rfl
    rw [hexec]
    unfold evalInt
    dsimp only
    have hmod := modulus_agrees (r := r) hl
    rcases em (t.read r = 0 ∨ ¬ t.Fits ((t.read l).tdiv (t.read r))) with hbad | hgood
    · rw [if_pos hbad]
      exact agrees_none _
    · rw [if_neg hgood]
      exact hmod

/-- A shift to the left has a value for the counts below the width. -/
theorem shiftl_int_agrees_iff {t rt : CTy} {l r : Integral} (hl : t.Fits (t.read l)) :
    Agrees (constOpExec l (some r) .shiftl t) (evalInt .shiftl t rt l r) ↔
      (t = .uint → r.toNat < 32 → l.toNat * 2 ^ r.toNat < 2 ^ 33) := by
  unfold evalInt
  dsimp only
  split
  · rename_i hbad
    refine iff_of_true (agrees_none _) ?_
    rintro rfl hcount
    have hread : rt.read r = r.toNat := CTy.read_of_small (by omega)
    rw [hread] at hbad
    change (r.toNat : Int) < 0 ∨ 32 ≤ (r.toNat : Int) ∨ (l.toNat : Int) < 0 at hbad
    omega
  · rename_i hgood
    push Not at hgood
    have hcount := CTy.read_count hgood.1
    have hn : (rt.read r).toNat = r.toNat := by
      rw [hcount]
      rfl
    have hlt : r.toNat < t.bits := by omega
    rw [hn]
    refine (shiftl_agrees_iff hl hlt).trans ?_
    constructor
    · exact fun h huint _ => h huint
    · rintro h rfl
      exact h rfl hlt

theorem shiftr_int_agrees {t rt : CTy} {l r : Integral} (hl : t.Fits (t.read l)) :
    Agrees (constOpExec l (some r) .shiftr t) (evalInt .shiftr t rt l r) := by
  unfold evalInt
  dsimp only
  split
  · exact agrees_none _
  · rename_i hgood
    push Not at hgood
    have hn : (rt.read r).toNat = r.toNat := by
      rw [CTy.read_count hgood.1]
      rfl
    rw [hn]
    exact shiftr_agrees hl r.toNat

theorem int_agrees_iff {op : OpType} {lt rt t : CTy} {l r : Integral}
    (typed : binaryType op lt rt = some t) (hlp : lt.isPtr = none) (hrp : rt.isPtr = none)
    (hl : lt.Fits (lt.read l)) (hr : rt.Fits (rt.read r)) :
    Agrees (constOpExec l (some r) op t) (evalInt op lt rt l r) ↔ IntFoldsWell op lt l r := by
  cases op with
  | multiply =>
    obtain ⟨rfl, rfl⟩ := binaryType_arith typed hlp hrp (by simp)
    exact multiply_agrees_iff hl hr
  | plus =>
    obtain ⟨rfl, rfl⟩ := binaryType_arith typed hlp hrp (by simp)
    exact iff_of_true (plus_agrees hl hr) trivial
  | minus =>
    obtain ⟨rfl, rfl⟩ := binaryType_arith typed hlp hrp (by simp)
    exact iff_of_true (minus_agrees hl hr) trivial
  | divide =>
    obtain ⟨rfl, rfl⟩ := binaryType_arith typed hlp hrp (by simp)
    exact iff_of_true (divide_int_agrees hl) trivial
  | modulus =>
    obtain ⟨rfl, rfl⟩ := binaryType_arith typed hlp hrp (by simp)
    exact iff_of_true (modulus_int_agrees hl) trivial
  | xor =>
    obtain ⟨rfl, rfl⟩ := binaryType_arith typed hlp hrp (by simp)
    exact iff_of_true (bits_agree (f := (· ^^^ ·)) (fun _ _ => Nat.xor_lt_two_pow) hl hr) trivial
  | or =>
    obtain ⟨rfl, rfl⟩ := binaryType_arith typed hlp hrp (by simp)
    exact iff_of_true (bits_agree (f := (· ||| ·)) (fun _ _ => Nat.or_lt_two_pow) hl hr) trivial
  | and =>
    obtain ⟨rfl, rfl⟩ := binaryType_arith typed hlp hrp (by simp)
    exact iff_of_true
      (bits_agree (f := (· &&& ·)) (fun x _ _ hy => Nat.and_lt_two_pow x.toNat hy) hl hr) trivial
  | shiftl =>
    obtain rfl := binaryType_shift typed (by simp)
    exact shiftl_int_agrees_iff hl
  | shiftr =>
    obtain rfl := binaryType_shift typed (by simp)
    exact iff_of_true (shiftr_int_agrees hl) trivial
  | lt =>
    obtain ⟨rfl, rfl⟩ := binaryType_order typed hlp hrp (by simp)
    refine Iff.trans ?_ (order_agrees_iff hl hr hlp)
    rw [← ofTruth_inj, ← agrees_ok_some]
    rfl
  | gt =>
    obtain ⟨rfl, rfl⟩ := binaryType_order typed hlp hrp (by simp)
    refine Iff.trans ?_ ((order_agrees_iff hr hl hlp).trans (by simp [IntFoldsWell, eq_comm]))
    rw [← ofTruth_inj, ← agrees_ok_some]
    rfl
  | le =>
    obtain ⟨rfl, rfl⟩ := binaryType_order typed hlp hrp (by simp)
    refine Iff.trans ?_ ((order_agrees_iff hr hl hlp).trans (by simp [IntFoldsWell, eq_comm]))
    rw [← sle_eq_iff, ← ofTruth_inj, ← agrees_ok_some]
    rfl
  | ge =>
    obtain ⟨rfl, rfl⟩ := binaryType_order typed hlp hrp (by simp)
    refine Iff.trans ?_ (order_agrees_iff hl hr hlp)
    rw [← sle_eq_iff, ← ofTruth_inj, ← agrees_ok_some]
    rfl
  | eq | ne | orsc | andsc | not | bnot | signbit | noSignbit | unknown =>
    exact iff_of_true (agrees_none _) trivial

/-! ## Pointers that are numbers -/

/-- When the difference of two pointers is folded to its value: what is folded
is `l - r * s` instead of `(l - r) / s`. -/
def DiffFoldsWell (s : Nat) (l r : Integral) : Prop :=
  (s : Int) ∣ (l - r).toInt →
    (BitVec.ofNat 64 s - 1) * (BitVec.ofInt 64 ((l - r).toInt / s) - r) = 0

theorem diff_agrees_iff {s : Nat} {l r : Integral} :
    (∀ v, (if (s : Int) ∣ (l - r).toInt then some (BitVec.ofInt 64 ((l - r).toInt / s))
        else none) = some v → l - r * BitVec.ofNat 64 s = v) ↔ DiffFoldsWell s l r := by
  unfold DiffFoldsWell
  split
  · rename_i hdvd
    have hl : l - r = BitVec.ofNat 64 s * BitVec.ofInt 64 ((l - r).toInt / s) := by
      rw [← BitVec.ofInt_natCast, ← BitVec.ofInt_mul, Int.mul_ediv_cancel' hdvd,
        BitVec.ofInt_toInt]
    generalize BitVec.ofInt 64 ((l - r).toInt / s) = q at hl
    constructor
    · intro h _
      have heq := h q rfl
      linear_combination heq - hl
    · rintro h v ⟨⟩
      have hzero := h hdvd
      linear_combination hzero + hl
  · rename_i hdvd
    exact iff_of_true (by rintro v ⟨⟩) (fun h => absurd h hdvd)

/-- What `const_op_num_int` makes of two numbers before it folds them. -/
def stepped (op : OpType) (lt rt : CTy) (l r : Integral) : Integral × Integral :=
  if op = .plus ∨ op = .minus then
    match lt.isPtr, rt.isPtr with
    | some step, _ => (l, r * BitVec.ofNat 64 step)
    | none, some step => (l * BitVec.ofNat 64 step, r)
    | none, none => (l, r)
  else (l, r)

/-- When an operator on two numbers is folded to its value. -/
def NumFoldsWell (op : OpType) (lt rt : CTy) (l r : Integral) : Prop :=
  match lt.isPtr, rt.isPtr with
  | none, none => IntFoldsWell op lt l r
  | some s, some _ => op = .minus → DiffFoldsWell s l r
  | _, _ => True

theorem stepped_of_not_ptr {op : OpType} {lt rt : CTy} {l r : Integral} (hl : lt.isPtr = none)
    (hr : rt.isPtr = none) : stepped op lt rt l r = (l, r) := by
  simp [stepped, hl, hr]

theorem binaryType_ptr_ne_uint {op : OpType} {lt rt t : CTy}
    (h : binaryType op lt rt = some t) (hptr : ¬ (lt.isPtr = none ∧ rt.isPtr = none)) :
    t ≠ .uint := by
  rintro rfl
  cases lt <;> cases rt <;> cases op <;> simp_all [binaryType, CTy.isPtr]

/-- A result that is folded as it is. -/
theorem agrees_exec {op : OpType} {t : CTy} {l r x : Integral} (ht : t ≠ .uint)
    (h : binaryExec t.isSigned l r op = .ok x) :
    Agrees (constOpExec l (some r) op t) (some x) := by
  rw [constOpExec, h]
  exact agrees_ok_some.mpr (wrapAround_of_ne_uint ht)

theorem binaryType_equality {op : OpType} {lt rt t : CTy} (h : binaryType op lt rt = some t)
    (hop : op = .eq ∨ op = .ne) : t = .int := by
  rcases hop with rfl | rfl
  · have := (Option.ite_none_right_eq_some.mp h).2
    exact (Option.some.inj this).symm
  · have := (Option.ite_none_right_eq_some.mp h).2
    exact (Option.some.inj this).symm

/-- The operators that are read by the types of their operands. -/
def ByType (op : OpType) : Prop := op ≠ .eq ∧ op ≠ .ne ∧ opIsShortcircuit op = false

theorem evalBinary_int {op : OpType} {lt rt : CTy} {same : Bool} {l r : Integral}
    (hop : ByType op) (h : lt.isPtr = none ∧ rt.isPtr = none) :
    evalBinary op lt rt same l r = evalInt op lt rt l r := by
  obtain ⟨heq, hne, hsc⟩ := hop
  cases op <;> simp_all [evalBinary, opIsShortcircuit]

theorem evalBinary_ptr {op : OpType} {lt rt : CTy} {same : Bool} {l r : Integral}
    (hop : ByType op) (h : ¬ (lt.isPtr = none ∧ rt.isPtr = none)) :
    evalBinary op lt rt same l r = evalPtr op lt.isPtr rt.isPtr same l r := by
  obtain ⟨heq, hne, hsc⟩ := hop
  cases op <;> simp_all [evalBinary, opIsShortcircuit]

/-- The comparisons for equality do not look at the types. -/
theorem equality_agrees {op : OpType} {lt rt t : CTy} {same : Bool} {l r : Integral}
    (typed : binaryType op lt rt = some t) (hop : op = .eq ∨ op = .ne) :
    Agrees (constOpExec (stepped op lt rt l r).1 (some (stepped op lt rt l r).2) op t)
      (evalBinary op lt rt same l r) := by
  obtain rfl := binaryType_equality typed hop
  rcases hop with rfl | rfl
  · exact agrees_exec (by decide) rfl
  · exact agrees_exec (by decide) rfl

/-- Pointers that are numbers, other than in a difference. -/
theorem ptr_agrees {op : OpType} {lt rt t : CTy} {l r : Integral}
    (typed : binaryType op lt rt = some t) (hop : ByType op)
    (hptr : ¬ (lt.isPtr = none ∧ rt.isPtr = none)) (hdiff : op = .minus → rt.isPtr = none) :
    Agrees (constOpExec (stepped op lt rt l r).1 (some (stepped op lt rt l r).2) op t)
      (evalPtr op lt.isPtr rt.isPtr false l r) := by
  have ht := binaryType_ptr_ne_uint typed hptr
  cases op with
  | plus =>
    cases hl : lt.isPtr with
    | none =>
      cases hr : rt.isPtr with
      | none => exact absurd ⟨hl, hr⟩ hptr
      | some s =>
        simp only [stepped, hl, hr, true_or, if_true]
        exact agrees_exec ht rfl
    | some s =>
      cases hr : rt.isPtr with
      | none =>
        simp only [stepped, hl, true_or, if_true]
        exact agrees_exec ht rfl
      | some s' => exact agrees_none _
  | minus =>
    cases hl : lt.isPtr with
    | none => exact absurd ⟨hl, hdiff rfl⟩ hptr
    | some s =>
      simp only [stepped, hl, hdiff rfl, or_true, if_true]
      exact agrees_exec ht rfl
  | _ => exact agrees_none _

theorem numbers_agree_iff {op : OpType} {lt rt t : CTy} {l r : Integral}
    (typed : binaryType op lt rt = some t) (hsc : opIsShortcircuit op = false)
    (hl : lt.Fits (lt.read l)) (hr : rt.Fits (rt.read r)) :
    Agrees (constOpExec (stepped op lt rt l r).1 (some (stepped op lt rt l r).2) op t)
      (evalBinary op lt rt false l r) ↔ NumFoldsWell op lt rt l r := by
  rcases em (op = .eq ∨ op = .ne) with hop | hop
  · refine iff_of_true (equality_agrees typed hop) ?_
    rcases hop with rfl | rfl <;> cases lt <;> cases rt <;>
      simp [NumFoldsWell, IntFoldsWell, CTy.isPtr]
  have hby : ByType op := ⟨fun h => hop (Or.inl h), fun h => hop (Or.inr h), hsc⟩
  rcases em (lt.isPtr = none ∧ rt.isPtr = none) with hint | hptr
  · have hwell : NumFoldsWell op lt rt l r ↔ IntFoldsWell op lt l r := by
      simp [NumFoldsWell, hint]
    rw [stepped_of_not_ptr hint.1 hint.2, hwell, evalBinary_int hby hint]
    exact int_agrees_iff typed hint.1 hint.2 hl hr
  · rw [evalBinary_ptr hby hptr]
    rcases em (op = .minus ∧ rt.isPtr ≠ none) with ⟨rfl, hrp⟩ | hdiff
    · obtain ⟨s', hs'⟩ := Option.ne_none_iff_exists'.mp hrp
      cases hs : lt.isPtr with
      | none => simp [binaryType, hs, hs'] at typed
      | some s =>
        have hwell : NumFoldsWell .minus lt rt l r ↔ DiffFoldsWell s l r := by
          simp [NumFoldsWell, hs, hs']
        have hexec : constOpExec l (some (r * BitVec.ofNat 64 s)) .minus t =
            .ok (l - r * BitVec.ofNat 64 s) :=
          congrArg Except.ok (wrapAround_of_ne_uint (binaryType_ptr_ne_uint typed hptr))
        simp only [stepped, hs, or_true, if_true]
        rw [hexec, hwell, agrees_ok, hs']
        exact diff_agrees_iff
    · have hwell : NumFoldsWell op lt rt l r := by
        cases hs : lt.isPtr with
        | none =>
          cases hs' : rt.isPtr with
          | none => exact absurd ⟨hs, hs'⟩ hptr
          | some s' => simp [NumFoldsWell, hs, hs']
        | some s =>
          cases hs' : rt.isPtr with
          | none => simp [NumFoldsWell, hs, hs']
          | some s' =>
            simp only [NumFoldsWell, hs, hs']
            exact fun h => absurd ⟨h, by simp [hs']⟩ hdiff
      refine iff_of_true (ptr_agrees typed hby hptr fun h => ?_) hwell
      exact not_not.mp fun hne => hdiff ⟨h, hne⟩

end Ucc.Cc1
