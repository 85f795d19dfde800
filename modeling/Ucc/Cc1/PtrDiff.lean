/-
  Cc1/PtrDiff.lean --- the difference of two constant pointers.

  Source: const_op_num_int in src/cc1/ops/expr_op.c.

  Two addresses in one object are subtracted and divided by the size of what they
  point to, as unsigned numbers.  Two pointers that are numbers go through the code
  for a pointer and an integer: the second one is scaled, and the difference is not
  divided.
-/
import Ucc.Cc1.AddrFoldSound

set_option autoImplicit false

namespace Ucc.Cc1

/-! ## Pairs of pointers -/

/-- A constant pointer. -/
inductive PtrConst where
  /-- a label that is not weak, and an offset -/
  | label (lbl : String) (offset : Integral)
  /-- a string literal, and an offset -/
  | str (lbl : String) (offset : Integral)
  /-- a number that was cast to a pointer, and an offset -/
  | number (addr offset : Integral)
  deriving DecidableEq, Repr

namespace PtrConst

/-- What the pointer folds to. -/
def consty : PtrConst → Consty
  | .label lbl offset => { bits := .addr (.lblTrue lbl), offset := offset }
  | .str lbl offset => { bits := .strk lbl, offset := offset }
  | .number addr offset => { bits := .addr (.memaddr addr), offset := offset }

/-- The label that the pointer is relative to. -/
def base : PtrConst → Option String
  | .label lbl _ | .str lbl _ => some lbl
  | .number _ _ => none

/-- The number of bytes from the base. -/
def place : PtrConst → Integral
  | .label _ offset | .str _ offset => offset
  | .number addr offset => addr + offset

end PtrConst

/-- `l - r`, for pointers to objects of `s` bytes. -/
def ptrDiff (s : Nat) (l r : PtrConst) : OpExpr :=
  ⟨.minus, ⟨.ptr s, l.consty⟩, some ⟨.ptr s, r.consty⟩, .long⟩

/-- The number that an expression folds to. -/
def foldedNumber (k : Option Consty) : Option Integral :=
  match k with
  | some ⟨.num v _, offset, _⟩ => if offset = 0 then some v else none
  | _ => none

/-- When the difference of two pointers with one base folds to the number of objects
between them. -/
def DiffCounts (s : Nat) (l r : PtrConst) : Prop :=
  match l.base with
  -- divided as an unsigned number
  | some _ => s = 1 ∨ 0 ≤ (l.place - r.place).toInt
  -- `r` is scaled, and nothing is divided
  | none => (2 ^ 64 : Int) ∣ (s - 1) * ((l.place - r.place).toInt / s - r.place.toInt)

/-! ## What is folded -/

theorem collapse_ptrConst (p : PtrConst) :
    collapseConst p.consty = some ⟨p.base, p.place, false⟩ := by
  cases p with
  | label lbl offset => rfl
  | str lbl offset => rfl
  | number addr offset => rfl

theorem atCompileTime_ptrConst (p : PtrConst) : p.consty.atCompileTime = true := by
  cases p with
  | label lbl offset => rfl
  | str lbl offset => rfl
  | number addr offset => rfl

theorem foldedNumber_ptrDiff (s : Nat) (l r : PtrConst) (v : Integral) (suffix : Suffix) (n : Bool)
    (h : constOpNumInt (ptrDiff s l r) =
      some { bits := .num v suffix, nonstandardConst := n }) :
    foldedNumber (foldConstExprOp (ptrDiff s l r)) = some v := by
  have hct : ((ptrDiff s l r).lhs.k.atCompileTime && (ptrDiff s l r).rhsConst.atCompileTime) =
      true := by
    show (l.consty.atCompileTime && r.consty.atCompileTime) = true
    rw [atCompileTime_ptrConst, atCompileTime_ptrConst]
    rfl
  rw [foldConstExprOp, if_pos hct, h]
  rfl

/-- Two places in one object. -/
theorem foldedNumber_label {s : Nat} {l r : PtrConst} {n : String} (hl : l.base = some n)
    (hr : r.base = some n) :
    foldedNumber (foldConstExprOp (ptrDiff s l r)) =
      some ((l.place - r.place).udiv (BitVec.ofNat 64 s)) := by
  refine foldedNumber_ptrDiff s l r _ {} true ?_
  simp [constOpNumInt, ptrDiff, collapse_ptrConst, hl, hr, applyStep, labels, opIsShortcircuit,
    foldTwoLabels, CTy.isPtr]

/-- Two numbers. -/
theorem foldedNumber_number {s : Nat} {l r : PtrConst} (hl : l.base = none) (hr : r.base = none) :
    foldedNumber (foldConstExprOp (ptrDiff s l r)) =
      some (l.place - r.place * BitVec.ofNat 64 s) := by
  refine foldedNumber_ptrDiff s l r _ (numSuffix (ptrDiff s l r)) false ?_
  simp [constOpNumInt, ptrDiff, collapse_ptrConst, hl, hr, applyStep, labels, opIsShortcircuit,
    foldNumbers, CTy.isPtr, constOpExec, binaryExec, wrapAround, CTy.isSigned, Except.map]

/-! ## When it is the number of objects -/

/-- A quotient of a word is a word. -/
theorem toInt_eq_ediv_iff {v d : Integral} {s : Nat} (hs : 0 < s) (hdvd : (s : Int) ∣ d.toInt) :
    v.toInt = d.toInt / s ↔ v = BitVec.ofInt 64 (d.toInt / s) := by
  obtain ⟨q, hq⟩ := hdvd
  have hpos : (s : Int) ≠ 0 := by omega
  rw [hq, Int.mul_ediv_cancel_left _ hpos]
  have hhi : d.toInt < 2 ^ 63 := BitVec.toInt_lt
  have hlo : -2 ^ 63 ≤ d.toInt := BitVec.le_toInt d
  rw [hq] at hlo hhi
  have hone : (1 : Int) ≤ s := by exact_mod_cast hs
  have hrange : -2 ^ 63 ≤ q ∧ q < 2 ^ 63 := by
    constructor
    · nlinarith
    · nlinarith
  have hself : (BitVec.ofInt 64 q).toInt = q :=
    BitVec.toInt_ofInt_eq_self (by decide) hrange.1 hrange.2
  rw [← BitVec.toInt_inj, hself]

theorem ofInt_eq_zero_iff (z : Int) : BitVec.ofInt 64 z = 0 ↔ (2 ^ 64 : Int) ∣ z := by
  rw [← BitVec.toNat_inj, BitVec.toNat_ofInt]
  show (z % 2 ^ 64).toNat = 0 ↔ _
  omega

/-- The scaled difference of two numbers. -/
theorem scaled_eq_iff {s : Nat} {x y : Integral} (hdvd : (s : Int) ∣ (x - y).toInt) :
    x - y * BitVec.ofNat 64 s = BitVec.ofInt 64 ((x - y).toInt / s) ↔
      (2 ^ 64 : Int) ∣ (s - 1) * ((x - y).toInt / s - y.toInt) := by
  have hdiff : x - y = BitVec.ofNat 64 s * BitVec.ofInt 64 ((x - y).toInt / s) := by
    rw [← BitVec.ofInt_natCast, ← BitVec.ofInt_mul, Int.mul_ediv_cancel' hdvd,
      BitVec.ofInt_toInt]
  generalize (x - y).toInt / (s : Int) = q at hdiff
  have hword : BitVec.ofInt 64 ((s - 1) * (q - y.toInt)) =
      (BitVec.ofNat 64 s - 1) * (BitVec.ofInt 64 q - y) := by
    have hsub : ∀ a b : Int, BitVec.ofInt 64 (a - b) = BitVec.ofInt 64 a - BitVec.ofInt 64 b := by
      intro a b
      rw [sub_eq_add_neg, BitVec.ofInt_add, BitVec.ofInt_neg, sub_eq_add_neg]
    rw [BitVec.ofInt_mul, hsub, hsub, BitVec.ofInt_natCast, BitVec.ofInt_toInt]
    rfl
  rw [← ofInt_eq_zero_iff, hword]
  constructor
  · intro h
    linear_combination h - hdiff
  · intro h
    linear_combination h + hdiff

/-- The difference of two constant pointers with one base folds to a number, and to
the number of objects between them exactly when `DiffCounts` holds. -/
theorem ptrDiff_folds_iff {s : Nat} (hs : 0 < s) (hlt : s < 2 ^ 32) {l r : PtrConst}
    (hbase : l.base = r.base) (hdvd : (s : Int) ∣ (l.place - r.place).toInt) :
    ∃ v, foldedNumber (foldConstExprOp (ptrDiff s l r)) = some v ∧
      (v.toInt = (l.place - r.place).toInt / s ↔ DiffCounts s l r) := by
  cases hl : l.base with
  | some n =>
    refine ⟨_, foldedNumber_label hl (hbase ▸ hl), ?_⟩
    rw [toInt_eq_ediv_iff hs hdvd, BinOp.udiv_eq_iff hs hlt hdvd, DiffCounts, hl]
  | none =>
    refine ⟨_, foldedNumber_number hl (hbase ▸ hl), ?_⟩
    rw [toInt_eq_ediv_iff hs hdvd, scaled_eq_iff hdvd, DiffCounts, hl]

theorem ptrDiff_folds_iff_third :
    (0 < 4) ∧ (4 < 2 ^ 32) ∧ ((4 : Nat) : Int) ∣ ((12 : Integral) - 4).toInt ∧
      ∃ v, foldedNumber (foldConstExprOp (ptrDiff 4 (.label "a" 12) (.label "a" 4))) = some v ∧
        (v.toInt = ((12 : Integral) - 4).toInt / 4 ↔
          DiffCounts 4 (.label "a" 12) (.label "a" 4)) :=
  ⟨by decide, by decide, by decide,
    ptrDiff_folds_iff (by decide) (by decide) (l := .label "a" 12) (r := .label "a" 4) rfl
      (by decide)⟩

/-- `&a[0] - &a[1]` with `int a[2]` is not folded to -1. -/
theorem ptrDiff_backwards :
    ¬ ∀ (s : Nat) (l r : PtrConst) (v : Integral), 0 < s → s < 2 ^ 32 → l.base = r.base →
      (s : Int) ∣ (l.place - r.place).toInt →
      foldedNumber (foldConstExprOp (ptrDiff s l r)) = some v →
        v.toInt = (l.place - r.place).toInt / s := by
  intro hall
  have hfold := hall 4 (.label "a" 0) (.label "a" 4) 4611686018427387903 (by decide) (by decide)
    rfl (by decide) (by decide)
  exact absurd hfold (by decide)

end Ucc.Cc1
