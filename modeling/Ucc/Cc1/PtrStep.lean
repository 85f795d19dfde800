/-
  Cc1/PtrStep.lean --- pointers that are moved and subtracted.

  Source: try_mem_offset, const_is_noop, apply_ptr_step and out_op in
  src/cc1/out/op.c.

  The other operand of a pointer is an `intptr_t`: expr_op.c casts it.  The
  number is scaled in one of three places, and at one of them the constant is
  taken for the number also when it is the pointer.  The size of the element is
  kept in an `int`.
-/
import Ucc.Cc1.OutOpSound

set_option autoImplicit false

namespace Ucc.Cc1.Out

open Ucc.Lib

/-! ## What the result should be -/

/-- The size of an element, in bytes. -/
def Elem.bytes (next : Elem) : Int := if next.isVla then next.vlaSize.toInt else next.size

/-- What `apply_ptr_step` scales by: -1 stands for the size of a VLA. -/
def Elem.step (next : Elem) : Integral :=
  if calcPtrStep (.ptr next) = -1 then next.vlaSize else BitVec.ofInt 64 (calcPtrStep (.ptr next))

/-- A pointer and an integer. -/
inductive PtrForm where
  | ptrPlusInt
  | intPlusPtr
  | ptrMinusInt
  deriving DecidableEq, Repr

/-- The operator. -/
def PtrForm.op : PtrForm → OpType
  | .ptrMinusInt => .minus
  | _ => .plus

/-- The operands. -/
def PtrForm.operands (form : PtrForm) (p i : OutVal) : OutVal × OutVal :=
  match form with
  | .intPlusPtr => (i, p)
  | _ => (p, i)

/-- `out_op` on the two. -/
def PtrForm.out (form : PtrForm) (o : OutOpts) (p i : OutVal) : Option OutVal :=
  outOp o form.op (form.operands p i).1 (form.operands p i).2

/-- The address that is so many bytes away. -/
def PtrForm.moved (form : PtrForm) (p n : Integral) : Integral :=
  match form with
  | .ptrMinusInt => p - n
  | _ => p + n

/-- The pointer is a constant, and it is taken for the number that is added, or for a 0
that changes nothing. -/
def PtrTaken (o : OutOpts) (form : PtrForm) (p i : OutVal) : Prop :=
  form ≠ .ptrMinusInt ∧ i.constI? = none ∧
    ((p.constI?.isSome = true ∧ i.isRegOrLbl = true ∧ (i.isLbl = false ∨ o.symbolArith = true)) ∨
      (o.constFold = true ∧ p.constI? = some 0))

instance decidablePtrTaken (o : OutOpts) (form : PtrForm) (p i : OutVal) :
    Decidable (PtrTaken o form p i) :=
  inferInstanceAs (Decidable (_ ∧ _ ∧ (_ ∨ _)))

/-- What the integer is scaled by. -/
def PtrForm.scale (form : PtrForm) (o : OutOpts) (next : Elem) (p i : OutVal) : Integral :=
  if PtrTaken o form p i then 1 else next.step

/-- The scaled integer is the integer times the size, in 64 bits. -/
def MoveRight (o : OutOpts) (form : PtrForm) (next : Elem) (p i : OutVal) : Prop :=
  i.store.val * form.scale o next p i = i.store.val * BitVec.ofInt 64 next.bytes

/-- If there is an instruction, its operands are printed as the values. -/
def StepPrinted (o : OutOpts) (op : OpType) (l r : OutVal) : Prop :=
  tryMemOffset o op l r = none → constFolding o op l r = .go →
    ∃ e, applyPtrStep (outOpWith (fun _ _ _ => none) o) l r = some e ∧
      operandsPrinted o op e.1 e.2.1 = true

/-- A constant pointer is subtracted as if it was an integer, from a register or a label. -/
def SubtractedAsInt (o : OutOpts) (next : Elem) (l r : OutVal) : Prop :=
  r.constI?.isSome = true ∧ l.isRegOrLbl = true ∧ (l.isLbl = false ∨ o.symbolArith = true) ∧
    calcPtrStep (.ptr next) ≠ -1

instance decidableSubtractedAsInt (o : OutOpts) (next : Elem) (l r : OutVal) :
    Decidable (SubtractedAsInt o next l r) :=
  inferInstanceAs (Decidable (_ ∧ _ ∧ _ ∧ _))

/-- A constant null pointer is subtracted, which changes nothing, not even the unit. -/
def NullSubtracted (o : OutOpts) (l r : OutVal) : Prop :=
  o.constFold = true ∧ l.constI? = none ∧ r.constI? = some 0

instance decidableNullSubtracted (o : OutOpts) (l r : OutVal) :
    Decidable (NullSubtracted o l r) :=
  inferInstanceAs (Decidable (_ ∧ _ ∧ _))

/-- A distance of so many elements, divided by the step. -/
def StepDivides (next : Elem) (d : Int) : Prop :=
  next.isVla = true ∨ next.size < 2 ^ 31 ∨ (next.size ≠ 2 ^ 32 - 1 ∧ d = 0) ∨
    (next.size = 2 ^ 32 - 1 ∧
      idivWords true .divide (BitVec.ofInt 64 (next.bytes * d)) next.vlaSize =
        some (BitVec.ofInt 64 d))

/-- The difference of two pointers is right. -/
def DiffRight (o : OutOpts) (next : Elem) (l r : OutVal) (d : Int) : Prop :=
  if SubtractedAsInt o next l r then
    l.store.val - r.store.val * next.step = BitVec.ofInt 64 d
  else if NullSubtracted o l r then next.bytes = 1 ∨ d = 0
  else StepDivides next d

/-! ## Instructions on words -/

section Words

variable {o : OutOpts} {op : OpType} {l r : OutVal} {x : Integral}

theorem promoteOperands_of_bits (h : l.ty.bits = r.ty.bits) : promoteOperands l r = (l, r) := by
  unfold promoteOperands
  rw [h, if_neg (lt_irrefl _), if_neg (lt_irrefl _)]

/-- An addition or a subtraction of two values of 64 bits. -/
theorem implOp_word (hop : op = .plus ∨ op = .minus ∨ op = .multiply) (hl : l.ty.bits = 64)
    (hr : r.ty.bits = 64) (hp : operandsPrinted o op l r = true) :
    ∃ ty, implOp o op l r = some (inReg ty (aluWords op l.store.val r.store.val)) ∧
      (ty = l.ty ∨ (needSwap op l.checkIvfp r.checkIvfp = some true ∧
        opIsCommutative op = true ∧ ty = r.ty)) := by
  have hsl := same_checkIvfp l
  have hsr := same_checkIvfp r
  have himpl : implOp o op l r = implAlu o op l.checkIvfp r.checkIvfp := by
    rcases hop with rfl | rfl | rfl <;> rfl
  have hp' : ((aluOperands o op l.checkIvfp r.checkIvfp).1.isReg &&
      (aluOperands o op l.checkIvfp r.checkIvfp).2.readable) = true := by
    rcases hop with rfl | rfl | rfl <;> exact hp
  rw [himpl]
  clear hp himpl hop
  have hsame := aluOperands_same o op l.checkIvfp r.checkIvfp
  unfold implAlu
  generalize aluOperands o op l.checkIvfp r.checkIvfp = ops at hp' hsame
  obtain ⟨x, y⟩ := ops
  simp only at hp' hsame
  rcases hsame with ⟨hx, hy⟩ | ⟨hswap, hcomm, hx, hy⟩
  · replace hx := hsl.trans hx
    replace hy := hsr.trans hy
    refine ⟨l.ty, ?_, Or.inl rfl⟩
    simp only [hp', if_true, promoteOperands_of_bits (l := x) (r := y) (by rw [hx.1, hy.1, hl, hr]),
      hx.1, hx.2, hy.2]
  · replace hx := hsr.trans hx
    replace hy := hsl.trans hy
    refine ⟨r.ty, ?_, Or.inr ⟨hswap, hcomm, rfl⟩⟩
    simp only [hp', if_true, promoteOperands_of_bits (l := x) (r := y) (by rw [hx.1, hy.1, hl, hr]),
      hx.1, hx.2, hy.2, aluWords_comm hcomm]

/-! ## The integer is scaled -/

/-- A product of two numbers, not both of them constants. -/
theorem multiply_word (call : OutOpCall) (hl : l.ty = intptrTy) (hr : r.ty = intptrTy)
    (hsl : l.isSimple = true) (hsr : r.isSimple = true)
    (hone : l.constI? = none ∨ r.constI? = none) :
    ∃ v, outOpWith call o .multiply l r = some v ∧ v.ty = intptrTy ∧
      v.store.val = l.store.val * r.store.val := by
  have hnoop : ∀ {k b}, constIsNoop .multiply k b = true → k = 1 := fun h => by
    simpa [constIsNoop] using h
  have hrewrite : rewriteOp o .multiply l r = (.multiply, l, r) := by
    simp [rewriteOp, tryShiftConv, hl, intptrTy, OutTy.isSigned]
  unfold outOpWith
  rw [tryMemOffset_of_ne o l r (by decide) (by decide)]
  simp only
  rcases constFolding_cases o .multiply l r with hgo | ⟨k, m, hk, hm, -⟩ | ⟨k, -, hk, -, h, hret⟩ |
      ⟨k, -, -, hk, h, hret⟩
  · simp only [hgo, hrewrite]
    obtain ⟨ty, himpl, hty⟩ := implOp_word (o := o) (Or.inr (Or.inr rfl)) (by rw [hl]; rfl)
      (by rw [hr]; rfl) (operandsPrinted_simple rfl hsl hsr)
    refine ⟨_, himpl, ?_, inReg_val _ _⟩
    rcases hty with hty | ⟨-, -, hty⟩
    · exact hty.trans hl
    · exact hty.trans hr
  · rw [hk, hm] at hone
    simp at hone
  · obtain rfl := hnoop h
    rw [hret]
    refine ⟨r, rfl, hr, ?_⟩
    rw [val_of_constI? hk, one_mul]
  · obtain rfl := hnoop h
    rw [hret]
    refine ⟨l, rfl, hl, ?_⟩
    rw [val_of_constI? hk, mul_one]

/-- An integer that is computed is multiplied in a register. -/
theorem scaleIncdec_of_none (call : OutOpCall) (next : Elem) {i : OutVal} (h : i.constI? = none) :
    ∃ u : OutVal, u.isReg = true ∧ u.constI? = none ∧ i.Same u ∧
      scaleIncdec call next i = call .multiply u
        (if calcPtrStep (.ptr next) = -1 then vlaSizeOf next
          else outNewL intptrTy (BitVec.ofInt 64 (calcPtrStep (.ptr next)))) := by
  obtain ⟨ty, store⟩ := i
  cases store with
  | constI val => cases h
  -- a register with an offset stays as it is
  | reg held offset => exact ⟨_, rfl, rfl, .refl _, rfl⟩
  | _ => exact ⟨_, rfl, rfl, same_toReg _, rfl⟩

theorem scaleIncdec_word (call : OutOpCall) (next : Elem) {i : OutVal} (hi : i.ty = intptrTy) :
    ∃ v, scaleIncdec (outOpWith call o) next i = some v ∧ v.ty = intptrTy ∧
      v.store.val = i.store.val * next.step := by
  unfold Elem.step
  cases hk : i.constI? with
  | some k =>
    unfold scaleIncdec
    simp only [hk]
    split
    · obtain ⟨v, hv, hty, hval⟩ := multiply_word (o := o) (r := vlaSizeOf next) call hi rfl
        (by simp [OutVal.isSimple, hk]) rfl (Or.inr rfl)
      refine ⟨v, hv, hty, hval.trans ?_⟩
      rw [vlaSizeOf, inReg_val]
    · refine ⟨_, rfl, hi, ?_⟩
      rw [val_of_constI? hk]
      rfl
  | none =>
    obtain ⟨u, hu, hnone, hsame, heq⟩ := scaleIncdec_of_none (outOpWith call o) next hk
    rw [heq]
    split
    · obtain ⟨v, hv, hty, hval⟩ := multiply_word (o := o) (r := vlaSizeOf next) call
        (hsame.1.trans hi) rfl (by simp [OutVal.isSimple, hu]) rfl (Or.inr rfl)
      refine ⟨v, hv, hty, hval.trans ?_⟩
      rw [vlaSizeOf, inReg_val, hsame.2]
    · obtain ⟨v, hv, hty, hval⟩ := multiply_word (o := o)
        (r := outNewL intptrTy (BitVec.ofInt 64 (calcPtrStep (.ptr next)))) call
        (hsame.1.trans hi) rfl (by simp [OutVal.isSimple, hu]) rfl (Or.inl hnone)
      refine ⟨v, hv, hty, hval.trans ?_⟩
      rw [hsame.2]
      rfl

/-! ## The difference is divided -/

/-- What the difference is divided by. -/
def stepVal (next : Elem) : OutVal :=
  if calcPtrStep (.ptr next) = -1 then vlaSizeOf next
  else outNewL voidPtrTy (BitVec.ofInt 64 (calcPtrStep (.ptr next)))

theorem stepVal_word (next : Elem) :
    (stepVal next).store.val = next.step ∧ (stepVal next).ty.bits = 64 ∧
      (stepVal next).ty.isSigned = true ∧ (stepVal next).isSimple = true := by
  unfold stepVal Elem.step
  split
  · exact ⟨inReg_val _ _, rfl, rfl, rfl⟩
  · exact ⟨rfl, rfl, rfl, rfl⟩

/-- A signed division of 64 bits. -/
theorem x86Idiv_word {v : OutVal} (hbits : v.ty.bits = 64) (hs : v.ty.isSigned = true)
    (hv : v.isSimple = true) (l : OutVal) :
    x86Idiv .divide l v =
      (idivWords true .divide l.store.val v.store.val).map (inReg l.ty) := by
  have hreg := isReg_toRegMem_of_simple hv
  obtain ⟨hty, hval⟩ := same_toRegMem v
  rw [← hty] at hbits hs
  unfold x86Idiv
  rw [← hval]
  generalize v.toRegMem = u at *
  obtain ⟨uty, store⟩ := u
  cases uty with
  | int w s =>
    obtain rfl : w = .w64 := by cases w <;> first | rfl | cases hbits
    obtain rfl : s = true := hs
    simp [hreg, OutTy.divides, OutTy.isSigned, OutTy.bits, Width.bits, OutVal.bits]
  | ptr next => simp [hreg, OutTy.divides, OutTy.isSigned, OutTy.bits, OutVal.bits]

theorem idivWords_one (x : Integral) : idivWords true .divide x 1 = some x := by
  have hne : ¬((1 : Integral) = 0 ∨
      (true = true ∧ x = BitVec.intMin 64 ∧ (1 : Integral) = -1)) := by
    rintro (h | ⟨-, -, h⟩)
    · exact absurd h (by decide)
    · exact absurd h (by decide)
  unfold idivWords
  rw [if_neg hne]
  exact congrArg some BitVec.sdiv_one

/-- The difference is divided by the step. -/
theorem divide_word (call : OutOpCall) (next : Elem) {l : OutVal} (hl : l.ty = .ptr next)
    (hreg : l.isReg = true) :
    (∃ v, outOpWith call o .divide l (stepVal next) = some v ∧ v.store.val = x) ↔
      idivWords true .divide l.store.val next.step = some x := by
  obtain ⟨hval, hbits, hs, hsimple⟩ := stepVal_word next
  have hnone : l.constI? = none := by
    obtain ⟨ty, store⟩ := l
    cases store <;> first | rfl | cases hreg
  have hrewrite : rewriteOp o .divide l (stepVal next) = (.divide, l, stepVal next) := by
    simp [rewriteOp, tryShiftConv, hl, OutTy.isSigned]
  unfold outOpWith
  rw [tryMemOffset_of_ne o l _ (by decide) (by decide)]
  simp only
  rcases constFolding_cases o .divide l (stepVal next) with hgo | ⟨k, m, hk, -⟩ | ⟨k, -, hk, -⟩ |
      ⟨k, -, -, hk, h, hret⟩
  · obtain ⟨hty, hvl⟩ := same_checkIvfp l
    obtain ⟨htys, hvs⟩ := same_checkIvfp (stepVal next)
    rw [← htys] at hbits hs
    have himpl : implOp o .divide l (stepVal next) =
        (idivWords true .divide l.store.val next.step).map (inReg l.ty) := by
      refine (x86Idiv_word hbits hs (isSimple_checkIvfp hsimple) l.checkIvfp).trans ?_
      rw [hvl, hvs, hval, hty]
    simp only [hgo, hrewrite, himpl]
    constructor
    · rintro ⟨v, hv, rfl⟩
      obtain ⟨y, hy, rfl⟩ := Option.map_eq_some_iff.1 hv
      rw [hy, inReg_val]
    · intro hx
      exact ⟨inReg l.ty x, by rw [hx]; rfl, inReg_val _ _⟩
  · rw [hnone] at hk
    cases hk
  · rw [hnone] at hk
    cases hk
  · obtain rfl : k = 1 := by simpa [constIsNoop] using h
    have hstep : next.step = 1 := hval.symm.trans (val_of_constI? hk)
    rw [hret, hstep, idivWords_one]
    simp

/-- Two constants of 64 bits are folded. -/
theorem tryConstFold_word (hop : op = .plus ∨ op = .minus) {ty : OutTy} (hbits : ty.bits = 64)
    (hs : ty.isSigned = true) (k m : Integral) :
    tryConstFold op ty k m = .ret (outNewL ty (aluWords op k m)) := by
  have hwrap := setWidth_wrapAroundOf op .w64 true (aluWords op k m)
  simp only [Width.bits, BitVec.setWidth_eq] at hwrap
  have hexec : constOpExecOf k (some m) op (ty.bits / 8) ty.isSigned =
      .ok (aluWords op k m) := by
    rw [hbits, hs, ← hwrap]
    rcases hop with rfl | rfl <;> rfl
  unfold tryConstFold
  rw [hexec]

/-! ## Constants that are offsets -/

theorem tryMemOffset_rhs {k : Integral} (hk : r.constI? = some k) (hreg : l.isRegOrLbl = true)
    (hop : op = .plus ∨ op = .minus) (hlbl : l.isLbl = false ∨ o.symbolArith = true)
    (hstep : calcPtrStep l.ty ≠ -1) : tryMemOffset o op l r ≠ none := by
  unfold tryMemOffset fillConst fillRegOrLbl
  simp only [hk, not_regOrLbl hk, hreg, Bool.false_eq_true, if_false, if_true]
  rw [if_pos ⟨hop.imp_right fun h => ⟨h, trivial⟩, hlbl, hstep⟩]
  exact Option.some_ne_none _

theorem tryMemOffset_lhs {k : Integral} (hk : l.constI? = some k) (hr : r.constI? = none)
    (hreg : r.isRegOrLbl = true) (hlbl : r.isLbl = false ∨ o.symbolArith = true)
    (hstep : calcPtrStep r.ty ≠ -1) : tryMemOffset o .plus l r ≠ none := by
  unfold tryMemOffset fillConst fillRegOrLbl
  simp only [hk, hr, hreg, if_true]
  rw [if_pos ⟨Or.inl trivial, hlbl, hstep⟩]
  exact Option.some_ne_none _

end Words

/-! ## A pointer and an integer -/

section PtrInt

variable {o : OutOpts} {form : PtrForm} {next : Elem} {p i v : OutVal}

theorem constI?_of_regOrLbl (h : v.isRegOrLbl = true) : v.constI? = none := by
  obtain ⟨ty, store⟩ := v
  cases store <;> first | rfl | cases h

theorem Elem.step_eq (h : calcPtrStep (.ptr next) ≠ -1) :
    next.step = BitVec.ofInt 64 (calcPtrStep (.ptr next)) := if_neg h

/-- A constant integer is scaled. -/
theorem scale_of_const {k : Integral} (h : i.constI? = some k) :
    form.scale o next p i = next.step := by
  refine if_neg fun htaken => ?_
  rw [htaken.2.1] at h
  cases h

/-- An integer that is added to a constant pointer by its offset is not scaled. -/
theorem scale_of_offset {k : Integral} (hform : form ≠ .ptrMinusInt) (hk : p.constI? = some k)
    (hreg : i.isRegOrLbl = true) (hlbl : i.isLbl = false ∨ o.symbolArith = true) :
    form.scale o next p i = 1 :=
  if_pos ⟨hform, constI?_of_regOrLbl hreg, Or.inl ⟨by rw [hk]; rfl, hreg, hlbl⟩⟩

/-- A constant integer is an offset of the pointer. -/
theorem ptr_addOffset (form : PtrForm) (hp : p.ty = .ptr next) {k : Integral} (hk : i.constI? = some k)
    (hreg : p.isRegOrLbl = true) (hstep : calcPtrStep p.ty ≠ -1) (c : Integral) :
    (p.addOffset (c * k * BitVec.ofInt 64 (calcPtrStep p.ty))).store.val =
      p.store.val + c * (i.store.val * form.scale o next p i) := by
  rw [hp] at hstep
  rw [(addOffset_val hreg _).2, scale_of_const hk, Elem.step_eq hstep, val_of_constI? hk, hp,
    mul_assoc]

/-- A constant pointer is an offset of the integer. -/
theorem int_addOffset (hi : i.ty = intptrTy) {k : Integral} (hform : form ≠ .ptrMinusInt)
    (hk : p.constI? = some k) (hreg : i.isRegOrLbl = true)
    (hlbl : i.isLbl = false ∨ o.symbolArith = true) :
    (i.addOffset (1 * k * BitVec.ofInt 64 (calcPtrStep i.ty))).store.val =
      p.store.val + i.store.val * form.scale o next p i := by
  have hone : BitVec.ofInt 64 (calcPtrStep i.ty) = 1 := by rw [hi]; rfl
  rw [(addOffset_val hreg _).2, scale_of_offset hform hk hreg hlbl, hone, val_of_constI? hk,
    mul_one, mul_one, one_mul, add_comm]

/-- The constant is an offset. -/
theorem memOffset_moved (hp : p.ty = .ptr next) (hi : i.ty = intptrTy)
    (h : tryMemOffset o form.op (form.operands p i).1 (form.operands p i).2 = some v) :
    v.store.val = form.moved p.store.val (i.store.val * form.scale o next p i) := by
  rcases tryMemOffset_cases h with ⟨k, hk, hreg, -, hlbl, hstep, rfl⟩ |
      ⟨k, hk, hreg, hop, hlbl, hstep, rfl⟩
  · cases form with
    | ptrPlusInt =>
      refine (ptr_addOffset (o := o) .ptrPlusInt hp hk hreg hstep 1).trans ?_
      rw [one_mul]
      rfl
    | intPlusPtr => exact int_addOffset hi (by decide) hk hreg hlbl
    | ptrMinusInt =>
      refine (ptr_addOffset (o := o) .ptrMinusInt hp hk hreg hstep (-1)).trans ?_
      rw [neg_one_mul, ← sub_eq_add_neg]
      rfl
  · cases form with
    | ptrPlusInt => exact int_addOffset hi (by decide) hk hreg hlbl
    | intPlusPtr =>
      refine (ptr_addOffset (o := o) .intPlusPtr hp hk hreg hstep 1).trans ?_
      rw [one_mul]
      rfl
    | ptrMinusInt => cases hop

theorem moved_eq_aluWords (form : PtrForm) (p n : OutVal) :
    form.moved p.store.val n.store.val =
      aluWords form.op (form.operands p n).1.store.val (form.operands p n).2.store.val := by
  cases form with
  | intPlusPtr => exact add_comm _ _
  | _ => rfl

theorem PtrForm.op_cases (form : PtrForm) : form.op = .plus ∨ form.op = .minus := by
  cases form <;> simp [PtrForm.op]

/-- Both operands have 64 bits, and a sign. -/
theorem operands_bits (hp : p.ty = .ptr next) (hi : i.ty = intptrTy) (form : PtrForm) :
    (form.operands p i).1.ty.bits = 64 ∧ (form.operands p i).1.ty.isSigned = true ∧
      (form.operands p i).2.ty.bits = 64 := by
  cases form <;>
    simp [PtrForm.operands, hp, hi, OutTy.bits, OutTy.isSigned, intptrTy, Width.bits]

/-- Two constants are folded if the elements are bytes. -/
theorem fold_consts_moved (hp : p.ty = .ptr next) (hi : i.ty = intptrTy) {k m : Integral}
    (hk : (form.operands p i).1.constI? = some k) (hm : (form.operands p i).2.constI? = some m)
    (hstep : calcPtrStep p.ty = 1) :
    ∃ v, tryConstFold form.op (form.operands p i).1.ty k m = .ret v ∧
      v.store.val = form.moved p.store.val (i.store.val * form.scale o next p i) := by
  obtain ⟨hbits, hs, -⟩ := operands_bits hp hi form
  have hint : ∃ n, i.constI? = some n := by
    cases form with
    | intPlusPtr => exact ⟨k, hk⟩
    | _ => exact ⟨m, hm⟩
  obtain ⟨n, hn⟩ := hint
  have hone : next.step = 1 := by
    rw [hp] at hstep
    have hne : calcPtrStep (.ptr next) ≠ -1 := by omega
    rw [Elem.step_eq hne, hstep]
    rfl
  refine ⟨_, tryConstFold_word form.op_cases hbits hs k m, ?_⟩
  rw [scale_of_const hn, hone, mul_one, moved_eq_aluWords, val_of_constI? hk, val_of_constI? hm]
  rfl

/-- A null pointer that is a constant is taken for a 0. -/
theorem null_moved (hform : form ≠ .ptrMinusInt) (hk : p.constI? = some 0)
    (hnone : i.constI? = none) (hfold : o.constFold = true) :
    i.store.val = form.moved p.store.val (i.store.val * form.scale o next p i) := by
  have hscale : form.scale o next p i = 1 := if_pos ⟨hform, hnone, Or.inr ⟨hfold, hk⟩⟩
  rw [hscale, mul_one, val_of_constI? hk]
  cases form with
  | ptrMinusInt => contradiction
  | _ => exact (zero_add _).symm

/-- The integer 0. -/
theorem zero_moved (hk : i.constI? = some 0) :
    p.store.val = form.moved p.store.val (i.store.val * form.scale o next p i) := by
  rw [val_of_constI? hk]
  cases form <;> simp [PtrForm.moved]

/-- The folding gives a result. -/
theorem folding_moved (form : PtrForm) (hp : p.ty = .ptr next) (hi : i.ty = intptrTy) :
    constFolding o form.op (form.operands p i).1 (form.operands p i).2 = .go ∨
      ∃ v, constFolding o form.op (form.operands p i).1 (form.operands p i).2 = .ret v ∧
        v.store.val = form.moved p.store.val (i.store.val * form.scale o next p i) := by
  have hzero : ∀ {k b}, constIsNoop form.op k b = true → k = 0 := by
    intro k b h
    cases form <;> simp [constIsNoop, PtrForm.op] at h
    all_goals first | exact h | exact h.2
  rcases constFolding_cases o form.op (form.operands p i).1 (form.operands p i).2 with hgo |
      ⟨k, m, hk, hm, hkstep, hmstep, heq⟩ | ⟨k, hfold, hk, hnone, h, hret⟩ |
      ⟨k, hfold, hnone, hk, h, hret⟩
  · exact Or.inl hgo
  · right
    rw [heq]
    refine fold_consts_moved hp hi hk hm ?_
    cases form with
    | intPlusPtr => exact hmstep
    | _ => exact hkstep
  · right
    obtain rfl := hzero h
    refine ⟨_, hret, ?_⟩
    cases form with
    | ptrPlusInt => exact null_moved (by decide) hk hnone hfold
    | intPlusPtr => exact zero_moved hk
    | ptrMinusInt => cases h
  · right
    obtain rfl := hzero h
    refine ⟨_, hret, ?_⟩
    cases form with
    | intPlusPtr => exact null_moved (by decide) hk hnone hfold
    | _ => exact zero_moved hk

/-- If there is an instruction, the pointer was not taken for the number. -/
theorem not_ptrTaken_of_go (hi : i.ty = intptrTy)
    (hmem : tryMemOffset o form.op (form.operands p i).1 (form.operands p i).2 = none)
    (hgo : constFolding o form.op (form.operands p i).1 (form.operands p i).2 = .go) :
    ¬ PtrTaken o form p i := by
  have hstep : calcPtrStep i.ty ≠ -1 := by
    rw [hi]
    decide
  rintro ⟨hform, hnone, ⟨hsome, hreg, hlbl⟩ | ⟨hfold, hzero⟩⟩
  · obtain ⟨k, hk⟩ := Option.isSome_iff_exists.1 hsome
    cases form with
    | ptrPlusInt => exact tryMemOffset_lhs hk hnone hreg hlbl hstep hmem
    | intPlusPtr => exact tryMemOffset_rhs hk hreg (Or.inl rfl) hlbl hstep hmem
    | ptrMinusInt => exact hform rfl
  · cases form with
    | ptrPlusInt | intPlusPtr =>
      simp [constFolding, PtrForm.operands, PtrForm.op, hfold, hzero, hnone, constIsNoop] at hgo
    | ptrMinusInt => exact hform rfl

/-- The operands of the instruction. -/
theorem applyPtrStep_int (form : PtrForm) (call : OutOpCall) (hp : p.ty = .ptr next) (hi : i.ty = intptrTy) :
    ∃ n, n.ty = intptrTy ∧ n.store.val = i.store.val * next.step ∧
      applyPtrStep (outOpWith call o) (form.operands p i).1 (form.operands p i).2 =
        some ((form.operands p n).1, (form.operands p n).2, none) := by
  obtain ⟨n, hn, hty, hval⟩ := scaleIncdec_word (o := o) call next hi
  have hptr : isValPtr p = some next := by simp [isValPtr, hp]
  have hint : isValPtr i = none := by simp [isValPtr, hi, intptrTy]
  refine ⟨n, hty, hval, ?_⟩
  cases form <;> simp [applyPtrStep, PtrForm.operands, hptr, hint, hn]

/-- What `out_op` makes of a pointer and an integer. -/
theorem ptrForm_out_iff (form : PtrForm) (hp : p.ty = .ptr next) (hi : i.ty = intptrTy) (x : Integral) :
    (∃ v, form.out o p i = some v ∧ v.store.val = x) ↔
      form.moved p.store.val (i.store.val * form.scale o next p i) = x ∧
        StepPrinted o form.op (form.operands p i).1 (form.operands p i).2 := by
  unfold PtrForm.out outOp StepPrinted
  cases hmem : tryMemOffset o form.op (form.operands p i).1 (form.operands p i).2 with
  | some u =>
    rw [outOpWith_of_mem hmem, ← memOffset_moved hp hi hmem]
    simp
  | none =>
    rcases folding_moved (o := o) form hp hi with hgo | ⟨u, hret, hval⟩
    · have hscale : form.scale o next p i = next.step := if_neg (not_ptrTaken_of_go hi hmem hgo)
      obtain ⟨n, hn, hnval, happly⟩ := applyPtrStep_int (o := o) form
        (fun _ _ _ => none) hp hi
      rw [outOpWith_go form.op_cases hmem hgo, happly, hscale, ← hnval, moved_eq_aluWords]
      simp only [hgo, Option.bind_some, forall_const, Option.some.injEq, exists_eq_left']
      obtain ⟨hbits, -, hbits'⟩ := operands_bits hp hn form
      cases hprinted : operandsPrinted o form.op (form.operands p n).1 (form.operands p n).2 with
      | true =>
        obtain ⟨ty, himpl, -⟩ := implOp_word (o := o) (form.op_cases.imp_right Or.inl) hbits hbits'
          hprinted
        simp [himpl, inReg_val]
      | false => simp [implOp_none hprinted]
    · rw [outOpWith_of_ret hmem hret, ← hval]
      simp [hret]

end PtrInt

/-! ## Two pointers -/

section PtrPtr

variable {o : OutOpts} {next : Elem} {l r v : OutVal} {x : Integral} {d : Int}

/-- A constant pointer is an offset. -/
theorem outOp_minus_of_asInt (hl : l.ty = .ptr next) (h : SubtractedAsInt o next l r) :
    ∃ v, outOp o .minus l r = some v ∧ tryMemOffset o .minus l r = some v ∧
      v.store.val = l.store.val - r.store.val * next.step := by
  obtain ⟨hsome, hreg, hlbl, hstep⟩ := h
  obtain ⟨k, hk⟩ := Option.isSome_iff_exists.1 hsome
  rw [← hl] at hstep
  obtain ⟨v, hv⟩ := Option.ne_none_iff_exists'.1
    (tryMemOffset_rhs (o := o) hk hreg (Or.inr rfl) hlbl hstep)
  refine ⟨v, outOpWith_of_mem hv, hv, ?_⟩
  rcases tryMemOffset_cases hv with ⟨m, hm, -, -, -, -, rfl⟩ | ⟨m, -, -, hop, -⟩
  · rw [(addOffset_val hreg _).2, ← val_of_constI? hm, hl, Elem.step_eq (by rwa [← hl])]
    simp only [if_true, neg_mul, one_mul, ← sub_eq_add_neg]
  · cases hop

theorem asInt_of_mem (hl : l.ty = .ptr next) (h : tryMemOffset o .minus l r = some v) :
    SubtractedAsInt o next l r := by
  rcases tryMemOffset_cases h with ⟨k, hk, hreg, -, hlbl, hstep, -⟩ | ⟨k, -, -, hop, -⟩
  · rw [hl] at hstep
    exact ⟨by rw [hk]; rfl, hreg, hlbl, hstep⟩
  · cases hop

/-- The folding of a difference. -/
theorem folding_minus (hl : l.ty = .ptr next) :
    (constFolding o .minus l r = .go ∧ ¬ NullSubtracted o l r) ∨
    (constFolding o .minus l r = .ret l ∧ NullSubtracted o l r) ∨
    (¬ NullSubtracted o l r ∧ next.step = 1 ∧ ∃ v, constFolding o .minus l r = .ret v ∧
      v.store.val = l.store.val - r.store.val) := by
  have hnull : NullSubtracted o l r → constFolding o .minus l r = .ret l := by
    rintro ⟨hfold, hl, hr⟩
    simp [constFolding, hfold, hl, hr, constIsNoop]
  rcases constFolding_cases o .minus l r with hgo | ⟨k, m, hk, hm, hstep, -, heq⟩ |
      ⟨k, -, -, -, h, -⟩ | ⟨k, hfold, hnone, hk, h, hret⟩
  · left
    refine ⟨hgo, fun h => ?_⟩
    rw [hnull h] at hgo
    cases hgo
  · right
    right
    rw [hl] at hstep
    have hone : next.step = 1 := by
      rw [Elem.step_eq (by omega), hstep]
      rfl
    refine ⟨fun h => ?_, hone, ?_⟩
    · rw [h.2.1] at hk
      cases hk
    · rw [heq, tryConstFold_word (Or.inr rfl) (by rw [hl]; rfl) (by rw [hl]; rfl)]
      refine ⟨_, rfl, ?_⟩
      rw [val_of_constI? hk, val_of_constI? hm]
      rfl
  · cases h
  · right
    left
    obtain rfl : k = 0 := by simpa [constIsNoop] using h
    exact ⟨hret, hfold, hnone, hk⟩

theorem applyPtrStep_ptr (call : OutOpCall) (hl : l.ty = .ptr next) (hr : r.ty = .ptr next) :
    applyPtrStep call l r = some (l, r, some (stepVal next)) := by
  simp only [applyPtrStep, isValPtr, hl, hr]
  rfl

/-- The instructions of a difference. -/
theorem outOp_minus_go (hl : l.ty = .ptr next) (hr : r.ty = .ptr next)
    (hmem : tryMemOffset o .minus l r = none) (hgo : constFolding o .minus l r = .go) :
    (∃ v, outOp o .minus l r = some v ∧ v.store.val = x) ↔
      operandsPrinted o .minus l r = true ∧
        idivWords true .divide (l.store.val - r.store.val) next.step = some x := by
  unfold outOp
  rw [outOpWith_go (Or.inr rfl) hmem hgo, applyPtrStep_ptr _ hl hr]
  simp only [Option.bind_some]
  cases hprinted : operandsPrinted o .minus l r with
  | false => simp [implOp_none hprinted]
  | true =>
    obtain ⟨ty, himpl, hty⟩ := implOp_word (o := o) (Or.inr (Or.inl rfl)) (by rw [hl]; rfl)
      (by rw [hr]; rfl) hprinted
    obtain rfl : ty = .ptr next := by
      rcases hty with rfl | ⟨-, hcomm, -⟩
      · exact hl
      · cases hcomm
    rw [himpl]
    simp only [Option.bind_some, true_and]
    rw [divide_word _ next rfl rfl, inReg_val]
    rfl

/-! ## The quotient -/

theorem toInt_eq_iff {y : Integral} (hd : -2 ^ 63 ≤ d ∧ d < 2 ^ 63) :
    y.toInt = d ↔ y = BitVec.ofInt 64 d := by
  have hof : (BitVec.ofInt 64 d).toInt = d := BitVec.toInt_ofInt_eq_self (by omega) hd.1 hd.2
  constructor
  · rintro rfl
    exact BitVec.eq_of_toInt_eq hof.symm
  · rintro rfl
    exact hof

/-- A quotient of a multiple is in range. -/
theorem quotient_range {y : Integral} {n : Int} (hn : 1 ≤ n) (hy : y.toInt = n * d) :
    -2 ^ 63 ≤ d ∧ d < 2 ^ 63 := by
  have hlo := BitVec.le_toInt y
  have hhi := BitVec.toInt_lt (x := y)
  rw [hy] at hlo hhi
  norm_num at hlo hhi ⊢
  constructor <;> nlinarith

/-- A multiple is divided. -/
theorem idivWords_of_multiple {y b : Integral} (hb : 1 ≤ b.toInt) (hy : y.toInt = b.toInt * d) :
    idivWords true .divide y b = some (BitVec.ofInt 64 d) := by
  have hzero : b ≠ 0 := by
    rintro rfl
    exact absurd hb (by decide)
  have hneg : b ≠ -1 := by
    rintro rfl
    exact absurd hb (by decide)
  unfold idivWords
  rw [if_neg (by rintro (h | ⟨-, -, h⟩) <;> contradiction)]
  simp only [reduceCtorEq, if_false, Option.some.injEq]
  rw [← toInt_eq_iff (quotient_range hb hy)]
  have hdiv : (y.sdiv b).toInt = y.toInt.tdiv b.toInt :=
    BitVec.toInt_sdiv_of_ne_or_ne y b (Or.inr hneg)
  refine hdiv.trans ?_
  rw [hy, Int.mul_tdiv_cancel_left _ (by omega)]

/-- A step that is negative. -/
theorem idivWords_of_negative {y b : Integral} {n : Int} (hb : b.toInt < -1) (hbn : -b.toInt ≤ n)
    (hy : y.toInt = n * d) :
    idivWords true .divide y b = some (BitVec.ofInt 64 d) ↔ d = 0 := by
  have hn : 1 ≤ n := by omega
  have hzero : b ≠ 0 := by
    rintro rfl
    exact absurd hb (by decide)
  have hneg : b ≠ -1 := by
    rintro rfl
    exact absurd hb (by decide)
  have hdiv : (y.sdiv b).toInt = y.toInt.tdiv b.toInt :=
    BitVec.toInt_sdiv_of_ne_or_ne y b (Or.inr hneg)
  unfold idivWords
  rw [if_neg (by rintro (h | ⟨-, -, h⟩) <;> contradiction)]
  simp only [reduceCtorEq, if_false, Option.some.injEq]
  rw [← toInt_eq_iff (quotient_range hn hy)]
  change (y.sdiv b).toInt = d ↔ d = 0
  rw [hdiv, hy]
  constructor
  · intro hd
    -- the rest is a multiple of `n - b`, and smaller
    have hrest := Int.mul_tdiv_add_tmod (n * d) b.toInt
    have hlt : ((n * d).tmod b.toInt).natAbs < b.toInt.natAbs := by
      rw [Int.natAbs_tmod]
      exact Nat.mod_lt _ (by omega)
    rw [hd] at hrest
    have hmul : (n - b.toInt) * d = (n * d).tmod b.toInt := by
      rw [sub_mul]
      linarith
    rw [← hmul] at hlt
    have habs : (n - b.toInt) * d < -b.toInt ∧ b.toInt < (n - b.toInt) * d := by omega
    by_contra hne
    rcases lt_or_gt_of_ne hne with hneg' | hpos
    · nlinarith [habs.2]
    · nlinarith [habs.1]
  · rintro rfl
    simp

/-- The size as an `int`. -/
theorem calcPtrStep_eq (hvla : next.isVla = false) :
    calcPtrStep (.ptr next) =
      if next.size < 2 ^ 31 then (next.size : Int) else next.size - 2 ^ 32 := by
  have hlt := next.lt
  simp only [calcPtrStep, hvla, Bool.false_eq_true, if_false, BitVec.toInt_eq_toNat_cond,
    BitVec.toNat_ofNat, Nat.mod_eq_of_lt hlt]
  split
  · rw [if_pos (by omega)]
  · rw [if_neg (by omega)]
    norm_num

/-- The distance is divided by the step. -/
theorem stepDivides_iff {y : Integral} (hbytes : 1 ≤ next.bytes) (hy : y.toInt = next.bytes * d) :
    idivWords true .divide y next.step = some (BitVec.ofInt 64 d) ↔ StepDivides next d := by
  unfold StepDivides
  cases hvla : next.isVla with
  | true =>
    have hstep : next.step = next.vlaSize := if_pos (by simp [calcPtrStep, hvla])
    have hsize : next.bytes = next.vlaSize.toInt := by simp [Elem.bytes, hvla]
    rw [hsize] at hbytes hy
    simp only [hstep, idivWords_of_multiple hbytes hy, true_or]
  | false =>
    have hlt := next.lt
    have hsize : next.bytes = next.size := by simp [Elem.bytes, hvla]
    have hcalc := calcPtrStep_eq hvla
    rcases lt_or_ge next.size (2 ^ 31) with hsmall | hlarge
    · rw [if_pos hsmall] at hcalc
      have hstep : next.step.toInt = next.size := by
        rw [Elem.step_eq (by omega), hcalc]
        exact BitVec.toInt_ofInt_eq_self (by omega) (by omega) (by omega)
      rw [hsize, ← hstep] at hbytes hy
      simp only [idivWords_of_multiple hbytes hy, hsmall, true_or, or_true]
    · rw [if_neg (by omega)] at hcalc
      have hnot : ¬ next.size < 2 ^ 31 := by omega
      rcases eq_or_ne next.size (2 ^ 32 - 1) with hmax | hmax
      · have hstep : next.step = next.vlaSize := if_pos (by omega)
        have hy' : y = BitVec.ofInt 64 (next.bytes * d) := by
          rw [← hy, BitVec.ofInt_toInt]
        simp only [hstep, ← hy', hmax, ne_eq, not_true, false_and, false_or, true_and,
          Bool.false_eq_true]
        simp
      · have hstep : next.step.toInt = next.size - 2 ^ 32 := by
          rw [Elem.step_eq (by omega), hcalc]
          exact BitVec.toInt_ofInt_eq_self (by omega) (by omega) (by omega)
        rw [hsize] at hy
        rw [idivWords_of_negative (by omega) (by omega) hy]
        simp only [hnot, hmax, ne_eq, not_false_eq_true, true_and, false_and, or_false, false_or,
          Bool.false_eq_true]

/-- What `out_op` makes of two pointers. -/
theorem ptr_minus_ptr_iff (hl : l.ty = .ptr next) (hr : r.ty = .ptr next)
    (hbytes : 1 ≤ next.bytes) (hdist : (l.store.val - r.store.val).toInt = next.bytes * d) :
    (∃ v, outOp o .minus l r = some v ∧ v.store.val.toInt = d) ↔
      DiffRight o next l r d ∧ StepPrinted o .minus l r := by
  have hrange := quotient_range hbytes hdist
  simp only [toInt_eq_iff hrange]
  unfold DiffRight StepPrinted
  by_cases hint : SubtractedAsInt o next l r
  · obtain ⟨v, hout, hmem, hval⟩ := outOp_minus_of_asInt hl hint
    simp [hint, hout, hmem, hval]
  · have hmem : tryMemOffset o .minus l r = none := by
      cases h : tryMemOffset o .minus l r with
      | none => rfl
      | some v => exact absurd (asInt_of_mem hl h) hint
    rcases folding_minus (o := o) (r := r) hl with ⟨hgo, hnull⟩ | ⟨hret, hnull⟩ |
        ⟨hnull, hone, v, hret, hval⟩
    · rw [outOp_minus_go hl hr hmem hgo, stepDivides_iff hbytes hdist]
      simp [hint, hnull, hmem, hgo, applyPtrStep_ptr _ hl hr, and_comm]
    · have hout : outOp o .minus l r = some l := outOpWith_of_ret hmem hret
      have hzero : r.store.val = 0 := val_of_constI? hnull.2.2
      rw [hzero, sub_zero] at hdist
      simp only [hint, hnull, hout, hmem, hret, if_true, if_false, Option.some.injEq,
        exists_eq_left', reduceCtorEq, false_implies, implies_true, and_true]
      rw [← toInt_eq_iff hrange, hdist]
      constructor
      · intro h
        have hmul : (next.bytes - 1) * d = 0 := by linarith
        rcases mul_eq_zero.1 hmul with h | h
        · exact Or.inl (by omega)
        · exact Or.inr h
      · rintro (h | rfl)
        · rw [h, one_mul]
        · rw [mul_zero]
    · have hout : outOp o .minus l r = some v := outOpWith_of_ret hmem hret
      rw [← stepDivides_iff hbytes hdist, hone, idivWords_one, ← hval]
      simp [hint, hnull, hout, hmem, hret]

end PtrPtr

/-! ## Pointer arithmetic -/

theorem moved_inj (form : PtrForm) (p : Integral) {m n : Integral} :
    form.moved p m = form.moved p n ↔ m = n := by
  cases form with
  | ptrMinusInt => exact sub_right_inj
  | _ => exact add_right_inj p

/-- The address is moved by so many elements. -/
theorem ptr_int_iff {o : OutOpts} {form : PtrForm} {next : Elem} {p i : OutVal}
    (hp : p.ty = .ptr next) (hi : i.ty = intptrTy) :
    (∃ v, form.out o p i = some v ∧
        v.store.val = form.moved p.store.val (i.store.val * BitVec.ofInt 64 next.bytes)) ↔
      MoveRight o form next p i ∧
        StepPrinted o form.op (form.operands p i).1 (form.operands p i).2 := by
  rw [ptrForm_out_iff _ hp hi, moved_inj]
  rfl

/-- The distance to a pointer that was moved. -/
theorem moved_distance {form : PtrForm} (hform : form ≠ .ptrMinusInt) {p i : Integral} {n : Int}
    (hrange : -2 ^ 63 ≤ n * i.toInt ∧ n * i.toInt < 2 ^ 63) :
    (form.moved p (i * BitVec.ofInt 64 n) - p).toInt = n * i.toInt := by
  have hsub : form.moved p (i * BitVec.ofInt 64 n) - p = BitVec.ofInt 64 (n * i.toInt) := by
    rw [BitVec.ofInt_mul, BitVec.ofInt_toInt, mul_comm]
    cases form with
    | ptrMinusInt => contradiction
    | _ => exact add_sub_cancel_left p _
  rw [hsub]
  exact BitVec.toInt_ofInt_eq_self (by omega) hrange.1 hrange.2

/-- A pointer and an integer, two pointers, and the difference of a pointer that was moved
and the pointer. -/
theorem pointer_arithmetic_iff (o : OutOpts) (next : Elem) (hbytes : 1 ≤ next.bytes) :
    (∀ (form : PtrForm) (p i : OutVal), p.ty = .ptr next → i.ty = intptrTy →
      ((∃ v, form.out o p i = some v ∧
          v.store.val = form.moved p.store.val (i.store.val * BitVec.ofInt 64 next.bytes)) ↔
        MoveRight o form next p i ∧
          StepPrinted o form.op (form.operands p i).1 (form.operands p i).2)) ∧
    (∀ (l r : OutVal) (d : Int), l.ty = .ptr next → r.ty = .ptr next →
      (l.store.val - r.store.val).toInt = next.bytes * d →
      ((∃ v, outOp o .minus l r = some v ∧ v.store.val.toInt = d) ↔
        DiffRight o next l r d ∧ StepPrinted o .minus l r)) ∧
    (∀ (form : PtrForm) (p i v : OutVal), form ≠ .ptrMinusInt → p.ty = .ptr next →
      i.ty = intptrTy → form.out o p i = some v → MoveRight o form next p i →
      -2 ^ 63 ≤ next.bytes * i.store.val.toInt ∧ next.bytes * i.store.val.toInt < 2 ^ 63 →
      ((∃ u, outOp o .minus ⟨p.ty, v.store⟩ p = some u ∧
          u.store.val.toInt = i.store.val.toInt) ↔
        DiffRight o next ⟨p.ty, v.store⟩ p i.store.val.toInt ∧
          StepPrinted o .minus ⟨p.ty, v.store⟩ p)) := by
  refine ⟨fun form p i hp hi => ptr_int_iff hp hi,
    fun l r d hl hr hdist => ptr_minus_ptr_iff hl hr hbytes hdist, ?_⟩
  intro form p i v hform hp hi hout hmove hrange
  refine ptr_minus_ptr_iff hp hp hbytes ?_
  have hval : v.store.val = form.moved p.store.val (i.store.val * BitVec.ofInt 64 next.bytes) := by
    rw [← (ptrForm_out_iff (o := o) form hp hi v.store.val).1 ⟨v, hout, rfl⟩ |>.1, hmove]
  rw [hval]
  exact moved_distance hform hrange

/-- The fourth `int` from an address. -/
theorem pointer_arithmetic_int :
    ∃ v, PtrForm.ptrPlusInt.out ⟨true, true, true, false⟩
        (inReg (.ptr ⟨4, false, 4, by decide⟩) 1000) (inReg intptrTy 3) = some v ∧
      v.store.val = 1012 := by
  refine ((pointer_arithmetic_iff ⟨true, true, true, false⟩ ⟨4, false, 4, by decide⟩ (by decide)).1
    .ptrPlusInt (inReg (.ptr ⟨4, false, 4, by decide⟩) 1000) (inReg intptrTy 3) rfl rfl).2 ⟨?_, ?_⟩
  · unfold MoveRight
    decide
  · intro _ _
    exact ⟨_, rfl, by decide⟩

/-- `(short *)0 + i` is `i` bytes from 0. -/
theorem null_plus_int_not_scaled :
    (PtrForm.ptrPlusInt.out ⟨true, true, true, false⟩
        (outNewL (.ptr ⟨2, false, 2, by decide⟩) 0) (inReg intptrTy 3)).map (·.store.val) = some 3 ∧
      PtrForm.ptrPlusInt.moved 0
        (3 * BitVec.ofInt 64 (Elem.bytes ⟨2, false, 2, by decide⟩)) = 6 := by
  decide

end Ucc.Cc1.Out
