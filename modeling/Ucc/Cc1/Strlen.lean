/-
  Cc1/Strlen.lean --- folding strlen() of a string literal.

  Source: const_strlen in src/cc1/ops/__builtin.c; const_expr_string in
  src/cc1/ops/expr_string.c, const_op_num_int in src/cc1/ops/expr_op.c and
  fold_const_expr_cast in src/cc1/ops/expr_cast.c for the argument.

  The argument is a literal with constants added to it and taken from it, under
  casts.  Its constant names the literal and holds the offset, which
  `const_strlen` does not look at: it looks for the NUL from the literal's first
  byte on.
-/
import Ucc.Cc1.ConstOp

set_option autoImplicit false

namespace Ucc.Cc1.Strlen

/-! ## Literals -/

/-- The bytes of a `cstring`; `count` is a `size_t`. -/
structure Bytes where
  ascii : List (BitVec 8)
  count_lt : ascii.length < 2 ^ 64

/-- `struct cstring`, by `enum cstring_type` -/
inductive CString where
  | raw (bytes : Bytes)
  | ascii (bytes : Bytes)
  | wide (wides : List (BitVec 32))

/-- `memchr`: how far in the byte is. -/
def memchr (s : List (BitVec 8)) (c : BitVec 8) : Option Nat := s.findIdx? (· == c)

/-! ## The argument -/

/-- The expressions that fold to a string constant. -/
inductive StrExpr where
  /-- `expr_str`, decayed to `char *` -/
  | str (lbl : String)
  | cast (castTo : CTy) (e : StrExpr)
  /-- The number is already cast to `intptr_t`. -/
  | plus (e : StrExpr) (n : Integral)
  | minus (e : StrExpr) (n : Integral)
  /-- The number stands on the left. -/
  | plusTo (n : Integral) (e : StrExpr)

namespace StrExpr

/-- `tree_type` -/
def ty : StrExpr → CTy
  | .str _ => .ptr 1
  | .cast castTo _ => castTo
  | .plus e _ | .minus e _ | .plusTo _ e => e.ty

/-- The literal's label. -/
def lbl : StrExpr → String
  | .str lbl => lbl
  | .cast _ e | .plus e _ | .minus e _ | .plusTo _ e => e.lbl

/-- `fold_const_expr_cast`, on a string constant: through `cast_addr`, it is no
constant as a smaller type.  No constant stays none. -/
def castStrk (child castTo : CTy) (k : Consty) : Consty :=
  if castTo.size < child.size then constFoldNo else k

/-- A number, as an operand. -/
def number (n : Integral) : Operand := ⟨.long, constNum n⟩

/-- `const_fold` -/
def fold : StrExpr → Option Consty
  | .str lbl => some { bits := .strk lbl }
  | .cast castTo e => e.fold.map (castStrk e.ty castTo)
  | .plus e n => do foldConstExprOp ⟨.plus, ⟨e.ty, ← e.fold⟩, some (number n), e.ty⟩
  | .minus e n => do foldConstExprOp ⟨.minus, ⟨e.ty, ← e.fold⟩, some (number n), e.ty⟩
  | .plusTo n e => do foldConstExprOp ⟨.plus, number n, some ⟨e.ty, ← e.fold⟩, e.ty⟩

/-- What one is worth, in pointer arithmetic. -/
def step (e : StrExpr) : Nat := e.ty.isPtr.getD 1

/-- What C says: the byte of the literal that the expression points at.  An
integer that a pointer does not fit in points nowhere. -/
def position : StrExpr → Option Int
  | .str _ => some 0
  | .cast castTo e => if castTo.size = 8 then e.position else none
  | .plus e n | .plusTo n e => e.position.map (· + n.toInt * e.step)
  | .minus e n => e.position.map (· - n.toInt * e.step)

end StrExpr

/-! ## strlen -/

/-- `const_strlen` -/
def constStrlen (lits : String → CString) (funcargs : List StrExpr) : Option Consty :=
  match funcargs with
  | [s] => do
      let subk ← s.fold
      match subk.bits with
      | .strk lbl =>
          match lits lbl with
          | .raw bytes | .ascii bytes =>
              match memchr bytes.ascii 0 with
              | some p => some { bits := .num (BitVec.ofNat 64 p) { unsigned := true } }
              | none => some constFoldNo
          | .wide _ => some constFoldNo
      | _ => some constFoldNo
  | _ => some constFoldNo

/-- The first NUL at or after byte `k` is `n` bytes on. -/
def IsStrlen (s : List (BitVec 8)) (k n : Nat) : Prop :=
  s[k + n]? = some 0 ∧ ∀ i < n, s[k + i]? ≠ some 0

instance (s : List (BitVec 8)) (k n : Nat) : Decidable (IsStrlen s k n) :=
  inferInstanceAs (Decidable (_ ∧ _))

/-- If the call folds, then to the length of the string that starts `k` bytes into
the literal. -/
def FoldsExactly (lits : String → CString) (s : StrExpr) (k : Nat) : Prop :=
  ∀ n suffix ns, constStrlen lits [s] = some { bits := .num n suffix, nonstandardConst := ns } →
    match lits s.lbl with
    | .raw bytes | .ascii bytes => IsStrlen bytes.ascii k n.toNat
    | .wide _ => False

/-- The string that starts `k` bytes in is as long as the one at the start, if
there is a NUL at all. -/
def SameLength (s : List (BitVec 8)) (k : Nat) : Prop :=
  0 ∈ s → ∃ n, IsStrlen s 0 n ∧ IsStrlen s k n

/-- `SameLength`, of a literal; a wide one does not fold. -/
def CString.SameLength : CString → Nat → Prop
  | .raw bytes, k | .ascii bytes, k => Strlen.SameLength bytes.ascii k
  | .wide _, _ => True

/-! ## The argument's constant -/

variable {e : StrExpr} {z : Int}

theorem StrExpr.size_ty (h : e.position = some z) : e.ty.size = 8 := by
  induction e generalizing z with
  | str lbl => rfl
  | cast castTo e ih =>
      simp only [position, Option.ite_none_right_eq_some] at h
      exact h.1
  | plus e n ih | minus e n ih | plusTo n e ih =>
      simp only [position, Option.map_eq_some_iff] at h
      obtain ⟨y, hy, -⟩ := h
      exact ih hy

/-- A string constant with a number added to it. -/
theorem fold_strk_op (ty : CTy) (lbl : String) (o n : Integral) (op : OpType)
    (hop : op = .plus ∨ op = .minus) :
    foldConstExprOp ⟨op, ⟨ty, { bits := .strk lbl, offset := o }⟩, some (StrExpr.number n), ty⟩ =
      some { bits := .strk lbl
             offset := if op = .plus then o + n * BitVec.ofNat 64 (ty.isPtr.getD 1)
                       else o - n * BitVec.ofNat 64 (ty.isPtr.getD 1) } := by
  rcases hop with rfl | rfl <;> cases ty <;>
    simp [foldConstExprOp, Consty.atCompileTime, OpExpr.rhsConst, StrExpr.number, constNum,
      constOpNumInt, collapseConst, applyStep, labels, foldOneLabel, CTy.isPtr, opIsShortcircuit]

/-- The same, with the number on the left. -/
theorem fold_op_strk (ty : CTy) (lbl : String) (o n : Integral) :
    foldConstExprOp ⟨.plus, StrExpr.number n, some ⟨ty, { bits := .strk lbl, offset := o }⟩, ty⟩ =
      some { bits := .strk lbl, offset := o + n * BitVec.ofNat 64 (ty.isPtr.getD 1) } := by
  cases ty <;>
    simp [foldConstExprOp, Consty.atCompileTime, OpExpr.rhsConst, StrExpr.number, constNum,
      constOpNumInt, collapseConst, applyStep, labels, foldOneLabel, CTy.isPtr, opIsShortcircuit]

theorem ofInt_step (n : Integral) (s : Nat) :
    BitVec.ofInt 64 (n.toInt * s) = n * BitVec.ofNat 64 s := by
  rw [BitVec.ofInt_mul, BitVec.ofInt_toInt, BitVec.ofInt_natCast]

/-- The folder keeps the position, modulo `2 ^ 64`. -/
theorem fold_position (h : e.position = some z) :
    e.fold = some { bits := .strk e.lbl, offset := BitVec.ofInt 64 z } := by
  induction e generalizing z with
  | str lbl =>
      obtain rfl : 0 = z := by simpa [StrExpr.position] using h
      rfl
  | cast castTo e ih =>
      have hz : castTo.size = 8 ∧ e.position = some z := by
        simpa [StrExpr.position, Option.ite_none_right_eq_some] using h
      have hsize := StrExpr.size_ty hz.2
      simp [StrExpr.fold, ih hz.2, StrExpr.castStrk, hz.1, hsize, StrExpr.lbl]
  | plus e n ih =>
      obtain ⟨y, hy, rfl⟩ := Option.map_eq_some_iff.1 h
      rw [StrExpr.fold, ih hy]
      simp [fold_strk_op, StrExpr.lbl, BitVec.ofInt_add, ofInt_step, StrExpr.step]
  | minus e n ih =>
      obtain ⟨y, hy, rfl⟩ := Option.map_eq_some_iff.1 h
      rw [StrExpr.fold, ih hy]
      simp [fold_strk_op, StrExpr.lbl, Int.sub_eq_add_neg, BitVec.ofInt_add, BitVec.ofInt_neg,
        ofInt_step, StrExpr.step, BitVec.sub_eq_add_neg]
  | plusTo n e ih =>
      obtain ⟨y, hy, rfl⟩ := Option.map_eq_some_iff.1 h
      rw [StrExpr.fold, ih hy]
      simp [fold_op_strk, StrExpr.lbl, BitVec.ofInt_add, ofInt_step, StrExpr.step]

/-! ## The length -/

theorem memchr_eq_some {s : List (BitVec 8)} {p : Nat} : memchr s 0 = some p ↔ IsStrlen s 0 p := by
  simp only [memchr, List.findIdx?_eq_some_iff_getElem, beq_iff_eq, IsStrlen, Nat.zero_add,
    List.getElem?_eq_some_iff, ne_eq, not_exists]
  constructor
  · rintro ⟨hp, h0, hlt⟩
    exact ⟨⟨hp, h0⟩, fun i hi _ => hlt i hi⟩
  · rintro ⟨⟨hp, h0⟩, hlt⟩
    exact ⟨hp, h0, fun i hi => hlt i hi (by omega)⟩

theorem memchr_eq_none {s : List (BitVec 8)} : memchr s 0 = none ↔ 0 ∉ s := by
  simp only [memchr, List.findIdx?_eq_none_iff, beq_eq_false_iff_ne]
  exact ⟨fun h hm => h 0 hm rfl, fun h x hx hx0 => h (hx0 ▸ hx)⟩

theorem IsStrlen.unique {s : List (BitVec 8)} {k m n : Nat} (hm : IsStrlen s k m)
    (hn : IsStrlen s k n) : m = n := by
  rcases Nat.lt_trichotomy m n with h | h | h
  · exact absurd hm.1 (hn.2 m h)
  · exact h
  · exact absurd hn.1 (hm.2 n h)

theorem IsStrlen.lt {s : List (BitVec 8)} {k n : Nat} (h : IsStrlen s k n) : k + n < s.length :=
  (List.getElem?_eq_some_iff.1 h.1).1

/-- What is folded is the length from the literal's start; it is right at `k` if
and only if the lengths agree. -/
theorem exact_iff_sameLength (bytes : Bytes) (k : Nat) :
    (∀ p, memchr bytes.ascii 0 = some p → IsStrlen bytes.ascii k (BitVec.ofNat 64 p).toNat) ↔
      SameLength bytes.ascii k := by
  cases hp : memchr bytes.ascii 0 with
  | none =>
      have h0 := memchr_eq_none.1 hp
      exact ⟨fun _ hmem => absurd hmem h0, fun _ p hp => by cases hp⟩
  | some p =>
      have hstart := memchr_eq_some.1 hp
      have hsmall : (BitVec.ofNat 64 p).toNat = p := by
        have := hstart.lt
        have := bytes.count_lt
        simp only [BitVec.toNat_ofNat]
        omega
      have hmem : 0 ∈ bytes.ascii := List.mem_of_getElem? hstart.1
      constructor
      · intro h _
        exact ⟨p, hstart, hsmall ▸ h p rfl⟩
      · intro h q hq
        cases hq
        obtain ⟨n, hn, hk⟩ := h hmem
        rw [hsmall, hstart.unique hn]
        exact hk

/-- `const_strlen` is right if and only if the string at the argument is as long
as the one at the literal's start. -/
theorem strlen_exact_iff (lits : String → CString) (s : StrExpr) (k : Nat)
    (hk : s.position = some (k : Int)) :
    FoldsExactly lits s k ↔ (lits s.lbl).SameLength k := by
  unfold FoldsExactly constStrlen
  simp only [fold_position hk, Option.bind_eq_bind, Option.bind_some]
  cases lits s.lbl with
  | raw bytes | ascii bytes =>
      simp only [CString.SameLength, ← exact_iff_sameLength]
      cases memchr bytes.ascii 0 <;> simp [constFoldNo]
  | wide wides => simp [CString.SameLength, constFoldNo]

/-- "abc" -/
def abc : CString := .ascii ⟨[97, 98, 99, 0], by decide⟩

theorem strlen_exact_start :
    FoldsExactly (fun _ => abc) (.minus (.plus (.str "str.0") 2) 2) 0 :=
  (strlen_exact_iff (fun _ => abc) (.minus (.plus (.str "str.0") 2) 2) 0 (by decide)).2
    (fun _ => ⟨3, by decide, by decide⟩)

/-- `strlen("abc" + 1)` folds to 3. -/
theorem strlen_one_in :
    (StrExpr.plus (.str "str.0") 1).position = some 1 ∧
      ¬ FoldsExactly (fun _ => abc) (.plus (.str "str.0") 1) 1 := by
  refine ⟨by decide, fun h => ?_⟩
  have h3 : IsStrlen [97, 98, 99, 0] 1 3 := h 3 { unsigned := true } false (by decide)
  exact absurd h3.1 (by decide)

end Ucc.Cc1.Strlen
