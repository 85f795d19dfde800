/-
  Cc1/CheckedArith.lean --- __builtin_add_overflow and its siblings.

  Source: arith_overflow_largest_type and gen_arith_overflow in
  src/cc1/ops/__builtin.c; impl_test_overflow, impl_op, x86_shift and
  impl_cast_load in src/cc1/out/x86_64.c; v_reg_apply_offset in
  src/cc1/out/virt.c; out_cast in src/cc1/out/out.c.

  The operation is made once, in the largest of the three types, and then the
  overflow flag is read, which is that of signed numbers.  Where `out_op` writes no
  instruction, the flag is as it was.  The code of the third argument is left out: a
  flag that is waiting is saved before an operator changes it.
-/
import Ucc.Cc1.OutOpSound
import Ucc.Lib.Wrap

set_option autoImplicit false

namespace Ucc.Cc1.Out

open Ucc.Lib

/-! ## The overflow flag -/

/-- What is open about the flag: how it stands before, and how the processor leaves
it after a shift by more than one. -/
structure Cpu where
  before : Bool
  afterShift : Bool

/-- The flag after an instruction of the arithmetic unit. -/
def aluOverflow {w : Nat} (op : OpType) (a b : BitVec w) : Bool :=
  match op with
  | .plus => a.saddOverflow b
  | .minus => a.ssubOverflow b
  | .multiply => a.smulOverflow b
  | _ => false

/-- The flag after `v_reg_apply_offset`: the offset is added, or what it is below 0 is
subtracted. -/
def offsetOverflow (before : Bool) (v : OutVal) : Bool :=
  match v.store with
  | .reg held offset =>
      if offset = 0 then before
      else if 0 < offset.toInt then
        aluOverflow .plus (held.setWidth v.ty.bits) (offset.setWidth v.ty.bits)
      else aluOverflow .minus (held.setWidth v.ty.bits) ((-offset).setWidth v.ty.bits)
  | _ => before

/-- The flag after `impl_op`, of a shift or of an instruction of the arithmetic
unit. -/
def implOverflow (cpu : Cpu) (o : OutOpts) (op : OpType) (l r : OutVal) : Bool :=
  let l := l.checkIvfp
  let r := r.checkIvfp
  match op with
  | .shiftl =>
      let count := r.store.val.toNat % 256 % (if l.ty.bits = 64 then 64 else 32)
      -- the processor leaves the flags after a shift by 0
      if count = 0 then offsetOverflow cpu.before l
      else if count = 1 then l.bits.msb != (l.bits <<< 1).msb
      else cpu.afterShift
  | _ =>
      let (l, r) := aluOperands o op l r
      let (l, r) := promoteOperands l r
      aluOverflow op l.bits (r.store.val.setWidth _)

/-- The flag after `out_op`. -/
def outOpOverflow (cpu : Cpu) (o : OutOpts) (op : OpType) (l r : OutVal) : Bool :=
  match tryMemOffset o op l r with
  | some _ => cpu.before
  | none =>
      match constFolding o op l r with
      | .go =>
          let (op, l, r) := rewriteOp o op l r
          implOverflow cpu o op l r
      | _ => cpu.before

/-- `impl_op` would multiply bytes: there is no `imul` of two bytes. -/
def byteImul (o : OutOpts) (op : OpType) (l r : OutVal) : Bool :=
  match tryMemOffset o op l r, constFolding o op l r with
  | none, .go => (rewriteOp o op l r).1 = .multiply && l.ty.bits = 8
  | _, _ => false

/-! ## The builtins -/

/-- The three builtins. -/
inductive Builtin where
  | add | sub | mul
  deriving DecidableEq, Repr

/-- `e->bits.op.op` -/
def Builtin.op : Builtin → OpType
  | .add => .plus
  | .sub => .minus
  | .mul => .multiply

/-- The body of the loop of `arith_overflow_largest_type`. -/
def largerType (t t2 : OutTy) : OutTy := if t.bits < t2.bits then t2 else t

/-- `arith_overflow_largest_type` -/
def arithOverflowLargestType (pointee lhs rhs : OutTy) : OutTy :=
  largerType (largerType pointee lhs) rhs

/-- `out_cast` -/
def OutVal.cast (v : OutVal) (target : OutTy) : OutVal :=
  let v := match v.store with
    -- "must apply the offset in the current type"
    | .reg _ offset => if offset ≠ 0 ∧ v.ty.bits ≠ target.bits then v.toReg else v
    | .spilt _ | .regoff _ _ => v.toReg
    | _ => v
  if v.ty.bits < target.bits then inReg target v.extended else ⟨target, v.store⟩

/-- `gen_arith_overflow`: what is stored, and what is returned. -/
def genArithOverflow (o : OutOpts) (cpu : Cpu) (f : Builtin) (storety : OutTy)
    (lhs rhs : OutVal) : Option (OutVal × OutVal) :=
  let largest := arithOverflowLargestType storety lhs.ty rhs.ty
  let lhs := lhs.cast largest
  let rhs := rhs.cast largest
  if byteImul o f.op lhs rhs then none
  else do
    let result ← outOp o f.op lhs rhs
    -- `impl_test_overflow`
    let ovf := offsetOverflow (outOpOverflow cpu o f.op lhs rhs) result
    let result := result.toReg
    let resultTrunc := result.cast storety
    if storety.bits < 32 then
      let shortened := (result.cast (.int .w32 true)).cast storety
      let hasdiff ← outOp o .ne shortened result
      -- the flag is saved to a register before the comparison
      let ret ← outOp o .or (inReg (.int .w8 false) (ofTruth ovf)) hasdiff
      some (resultTrunc, ret)
    else some (resultTrunc, ⟨.int .w8 false, .flag ovf⟩)

/-! ## What they should do -/

/-- The result, of numbers without bounds. -/
def Builtin.exact (f : Builtin) (a b : Int) : Int :=
  match f with
  | .add => a + b
  | .sub => a - b
  | .mul => a * b

/-- The result is stored as a number of the pointee, and 1 is returned if that is
another number. -/
def ChecksRight (o : OutOpts) (cpu : Cpu) (f : Builtin) (w : Width) (s : Bool)
    (lhs rhs : OutVal) : Prop :=
  ∃ stored ret, genArithOverflow o cpu f (.int w s) lhs rhs = some (stored, ret) ∧
    stored.num = wrap s w.bits (f.exact lhs.num rhs.num) ∧
    ret.num = if InRange s w.bits (f.exact lhs.num rhs.num) then 0 else 1

/-- What the flag tells when it is read: how it was left, or that a signed number is
out of range. -/
inductive Told where
  | left (set : Bool)
  | signed (x : Int)

/-- The flag is set, in a type of `n` bits. -/
def Told.Overflows (n : Nat) : Told → Prop
  | .left set => set = true
  | .signed x => ¬ InRange true n x

/-- What is told by adding the offset of a register. -/
def toldByOffset (before : Bool) (v : OutVal) : Told :=
  match v.store with
  | .reg held offset =>
      let signed (x : Integral) : Int := (x.setWidth v.ty.bits).toInt
      if offset = 0 then .left before
      else if 0 < offset.toInt then .signed (signed held + signed offset)
      else .signed (signed held - signed (-offset))
  | _ => .left before

/-- What is told by the operation.  A constant is added to the offset of a register, two
constants are folded, a product with 1 is the other operand, and one with another power
of two is a shift in an unsigned type; else the operands are read as signed numbers. -/
def told (o : OutOpts) (cpu : Cpu) (f : Builtin) (l r : OutVal) : Told :=
  match tryMemOffset o f.op l r, constFolding o f.op l r with
  | some v, _ => toldByOffset cpu.before v
  | none, .ret v => toldByOffset cpu.before v
  | none, _ =>
      let (op, a, k) := rewriteOp o f.op l r
      if op = .shiftl ∧ k.store.val = 0 then toldByOffset cpu.before a
      else if op = .shiftl ∧ k.store.val ≠ 1 then .left cpu.afterShift
      else .signed (f.exact l.bits.toInt r.bits.toInt)

/-- The flag, or the comparison for types that are smaller than `int`, tells of a result
`z` that is no number of the pointee, and only of such. -/
def ToldRight (n : Nat) (w : Width) (s : Bool) (t : Told) (z : Int) : Prop :=
  if InRange s w.bits z then ¬ t.Overflows n
  else t.Overflows n ∨ (w.bits < 32 ∧ w.bits < n ∧ ¬ InRange s w.bits (wrap true n z))

/-- The operation is written, with the values and not as a product of bytes, and what the
flag tells agrees with the pointee. -/
def OperationRight (o : OutOpts) (cpu : Cpu) (f : Builtin) (w : Width) (s : Bool)
    (lhs rhs : OutVal) : Prop :=
  let largest := arithOverflowLargestType (.int w s) lhs.ty rhs.ty
  let l := lhs.cast largest
  let r := rhs.cast largest
  byteImul o f.op l r = false ∧ Printed o f.op l r ∧
    ToldRight largest.bits w s (told o cpu f l r) (f.exact lhs.num rhs.num)

/-! ## Casts -/

section Casts

variable {v : OutVal} {w u : Width} {s t : Bool}

theorem cast_eq (v : OutVal) (target : OutTy) : (v.cast target).ty = target ∧
    (v.cast target).store.val =
      if v.ty.bits < target.bits then v.extended else v.store.val := by
  unfold OutVal.cast
  generalize hu : (match v.store with
    | .reg _ offset => if offset ≠ 0 ∧ v.ty.bits ≠ target.bits then v.toReg else v
    | .spilt _ | .regoff _ _ => v.toReg
    | _ => v) = u
  have hsame : v.Same u := by
    subst hu
    split
    · split
      · exact same_toReg v
      · exact .refl v
    · exact same_toReg v
    · exact same_toReg v
    · exact .refl v
  have hext : u.extended = v.extended := by
    obtain ⟨ty, store⟩ := v
    obtain ⟨ty', store'⟩ := u
    obtain ⟨hty, hval⟩ := hsame
    cases hty
    simp only [OutVal.extended, OutVal.bits, hval]
  dsimp only
  rw [hsame.1]
  split
  · exact ⟨rfl, (inReg_val _ _).trans hext⟩
  · exact ⟨rfl, hsame.2⟩

/-- Casts to no narrower type keep the number, modulo that type. -/
theorem word_cast (hv : v.ty = .int u t) (h : u.bits ≤ w.bits) :
    (v.cast (.int w s)).word w = BitVec.ofInt w.bits v.num := by
  have hval := (cast_eq v (.int w s)).2
  rw [OutVal.word, OutVal.num_eq hv]
  rcases h.lt_or_eq with hlt | heq
  · rw [if_pos (by rw [hv]; exact hlt)] at hval
    rw [hval, extended_eq hv, ← ofInt_readAs w.bits_le t, readAs_extend u.bits_le]
  · have hwu : u = w := by cases u <;> cases w <;> first | rfl | cases heq
    subst hwu
    rw [if_neg (by rw [hv]; exact lt_irrefl _)] at hval
    rw [hval, ofInt_readAs le_rfl, BitVec.setWidth_eq]
    rfl

/-- Casts to no wider type keep the low bits. -/
theorem word_cast_of_le (hv : v.ty = .int u t) (h : w.bits ≤ u.bits) :
    (v.cast (.int w s)).word w = v.word w := by
  have hval := (cast_eq v (.int w s)).2
  rw [if_neg (by rw [hv]; exact not_lt.mpr h)] at hval
  rw [OutVal.word, hval]
  rfl

end Casts

/-! ## The operation -/

section Operation

variable {o : OutOpts} {cpu : Cpu} {f : Builtin} {op : OpType} {w : Width} {s : Bool}
variable {l r v : OutVal}

theorem word_eq_of_num (hv : v.ty = .int w s) {x : BitVec w.bits} (h : v.num = readAs s x) :
    v.word w = x := by
  rw [OutVal.num_eq hv] at h
  have hof := congrArg (BitVec.ofInt w.bits) h
  rwa [ofInt_readAs le_rfl, ofInt_readAs le_rfl, BitVec.setWidth_eq, BitVec.setWidth_eq] at hof

theorem Builtin.isAlu (f : Builtin) : opIsAlu f.op = true := by cases f <;> rfl

/-- An instruction leaves a register with no offset. -/
theorem implOp_inReg (hop : opIsAlu op = true ∨ op = .shiftl) (hl : l.ty = .int w s)
    (hr : r.ty = .int w s) (h : implOp o op l r = some v) : ∃ x, v = inReg (.int w s) x := by
  have hlc := (same_checkIvfp l).1.trans hl
  have hrc := (same_checkIvfp r).1.trans hr
  have halu : ∀ op, implAlu o op l.checkIvfp r.checkIvfp = some v →
      ∃ x, v = inReg (.int w s) x := by
    intro op h
    cases hp : (aluOperands o op l.checkIvfp r.checkIvfp).1.isReg &&
        (aluOperands o op l.checkIvfp r.checkIvfp).2.readable with
    | true =>
      obtain ⟨x, hx, -⟩ := implAlu_word hlc hrc hp
      rw [hx] at h
      exact ⟨x, (Option.some.inj h).symm⟩
    | false =>
      simp only [implAlu, hp, Bool.false_eq_true, if_false] at h
      cases h
  unfold implOp at h
  rcases hop with hop | rfl
  · cases op <;> first | exact halu _ h | cases hop
  · simp only [x86Shift] at h
    split at h
    · have hty := (same_toRegMem l.checkIvfp).1.trans hlc
      exact ⟨_, (Option.some.inj h).symm.trans (congrArg (fun t => inReg t _) hty)⟩
    · cases h

/-- The operator that `out_op` makes of it. -/
theorem rewriteOp_builtin (hl : l.ty = .int w s) (hr : r.ty = .int w s)
    (hcl : l.PowersFit w) (hcr : r.PowersFit w) :
    Computes w s (readAs s (aluWords f.op (l.word w) (r.word w))) (rewriteOp o f.op l r) := by
  have hkeep : Computes w s (readAs s (aluWords f.op (l.word w) (r.word w))) (f.op, l, r) :=
    ⟨hl, hr, cResult_alu f.isAlu s _ _⟩
  cases f with
  | add | sub => exact hkeep
  | mul =>
    change Computes w s _ (if _ then tryShiftConv .multiply l r else _)
    split
    · exact tryShiftConv_computes (Or.inl rfl) hl hr (fun _ => hcl) (fun _ => hcr)
        (cResult_alu rfl s _ _)
    · exact hkeep

/-- It is the same, or a product with a power of two is a shift. -/
theorem rewriteOp_cases (o : OutOpts) (f : Builtin) (l r : OutVal) :
    rewriteOp o f.op l r = (f.op, l, r) ∨ ∃ a b c, f = .mul ∧
      ((a = l ∧ b = r) ∨ (a = r ∧ b = l)) ∧ b.constI? = some c ∧ ispow2 c = true ∧
      rewriteOp o f.op l r = (.shiftl, a, outNewL b.ty (log2ll c)) := by
  cases f with
  | add | sub => exact Or.inl rfl
  | mul =>
    simp only [Builtin.op, rewriteOp, true_and]
    split
    · unfold tryShiftConv
      split
      · exact Or.inl rfl
      · simp only [reduceCtorEq, if_false, if_true]
        cases hl : l.constI? with
        | some c =>
          dsimp only
          split
          · rename_i hpow
            exact Or.inr ⟨r, l, c, Or.inr ⟨rfl, rfl⟩, hl, hpow, rfl⟩
          · exact Or.inl rfl
        | none =>
          cases hr : r.constI? with
          | none => exact Or.inl rfl
          | some c =>
            dsimp only
            split
            · rename_i hpow
              exact Or.inr ⟨l, r, c, Or.inl ⟨rfl, rfl⟩, hr, hpow, rfl⟩
            · exact Or.inl rfl
    · exact Or.inl rfl

/-- The folding of a builtin's operator, in bits. -/
theorem constFolding_word (hl : l.ty = .int w s) (hr : r.ty = .int w s) :
    constFolding o f.op l r = .go ∨ ∃ v, constFolding o f.op l r = .ret v ∧
      v.ty = .int w s ∧ v.word w = aluWords f.op (l.word w) (r.word w) := by
  have hz := cResult_alu (n := w.bits) f.isAlu s (l.word w) (r.word w)
  have hne : ¬(f.op = .shiftl ∨ f.op = .shiftr) := by cases f <;> simp [Builtin.op]
  rcases constFolding_cases o f.op l r with hgo | ⟨k, m, hk, hm, -, -, heq⟩ |
      ⟨k, -, hk, -, hnoop, heq⟩ | ⟨k, -, -, hm, hnoop, heq⟩
  · exact Or.inl hgo
  · right
    have hexec : tryConstFold f.op l.ty k m =
        .ret (outNewL l.ty (wrapAroundOf f.op (w.bits / 8) s (aluWords f.op k m))) := by
      rw [hl]
      cases f <;> rfl
    refine ⟨_, heq.trans hexec, hl, ?_⟩
    rw [OutVal.word]
    change (wrapAroundOf f.op (w.bits / 8) s (aluWords f.op k m)).setWidth w.bits = _
    rw [setWidth_wrapAroundOf, setWidth_aluWords w.bits_le, OutVal.word, OutVal.word,
      val_of_constI? hk, val_of_constI? hm]
  · right
    refine ⟨r, heq, hr, word_eq_of_num hr ?_⟩
    have hword : l.word w = k.setWidth w.bits := by rw [OutVal.word, val_of_constI? hk]
    rcases noop_lhs hword hnoop hz with hnum | ⟨hop, -⟩
    · exact (OutVal.num_eq hr).trans hnum
    · exact absurd hop hne
  · right
    refine ⟨l, heq, hl, word_eq_of_num hl ?_⟩
    have hword : r.word w = k.setWidth w.bits := by rw [OutVal.word, val_of_constI? hm]
    exact (OutVal.num_eq hl).trans (noop_rhs hword hnoop hz)

theorem tryMemOffset_ty (hl : l.ty = .int w s) (hr : r.ty = .int w s)
    (h : tryMemOffset o op l r = some v) : v.ty = .int w s := by
  rcases tryMemOffset_cases h with ⟨k, -, hreg, -, -, -, rfl⟩ | ⟨k, -, hreg, -, -, -, rfl⟩
  · exact (addOffset_val hreg _).1.trans hl
  · exact (addOffset_val hreg _).1.trans hr

/-- The result has the right bits, if the instruction is written with the values. -/
theorem outOp_word (hl : l.ty = .int w s) (hr : r.ty = .int w s) (hcl : l.PowersFit w)
    (hcr : r.PowersFit w) (hprinted : Printed o f.op l r) :
    ∃ v, outOp o f.op l r = some v ∧ v.ty = .int w s ∧
      v.word w = aluWords f.op (l.word w) (r.word w) := by
  have hz := cResult_alu (n := w.bits) f.isAlu s (l.word w) (r.word w)
  cases hmem : tryMemOffset o f.op l r with
  | some v =>
    have hty := tryMemOffset_ty hl hr hmem
    exact ⟨v, outOpWith_of_mem hmem, hty, word_eq_of_num hty (tryMemOffset_num hl hr hmem hz)⟩
  | none =>
    rcases constFolding_word (o := o) (f := f) hl hr with hgo | ⟨v, hret, hty, hword⟩
    · obtain ⟨hl', hr', hz'⟩ := rewriteOp_builtin (o := o) (f := f) hl hr hcl hcr
      obtain ⟨v, hv, hnum⟩ := implOp_num hl' hr' (hprinted hmem hgo) hz'
      have hop : opIsAlu (rewriteOp o f.op l r).1 = true ∨ (rewriteOp o f.op l r).1 = .shiftl := by
        rcases rewriteOp_cases o f l r with h | ⟨a, b, c, -, -, -, -, h⟩
        · rw [h]
          exact Or.inl f.isAlu
        · rw [h]
          exact Or.inr rfl
      obtain ⟨x, rfl⟩ := implOp_inReg hop hl' hr' hv
      rw [outOp_go hl hr hmem hgo]
      exact ⟨_, hv, rfl, word_eq_of_num rfl hnum⟩
    · exact ⟨v, outOpWith_of_ret hmem hret, hty, hword⟩

/-- Otherwise there is none. -/
theorem outOp_none (hl : l.ty = .int w s) (hr : r.ty = .int w s)
    (hprinted : ¬ Printed o f.op l r) : outOp o f.op l r = none := by
  unfold Printed at hprinted
  push Not at hprinted
  obtain ⟨hmem, hgo, hp⟩ := hprinted
  rw [outOp_go hl hr hmem hgo]
  exact implOp_none (by simpa using hp)

/-! ## The flag -/

theorem aluOverflow_iff {n : Nat} (f : Builtin) (a b : BitVec n) :
    aluOverflow f.op a b = true ↔ ¬ InRange true n (f.exact a.toInt b.toInt) := by
  have hrange : ∀ z : Int, (decide (z ≥ 2 ^ (n - 1)) || decide (z < -2 ^ (n - 1))) = true ↔
      ¬ InRange true n z := by
    intro z
    simp only [InRange, if_true, Bool.or_eq_true, decide_eq_true_eq]
    omega
  cases f with
  | add => exact hrange _
  | sub => exact hrange _
  | mul => exact hrange _

theorem toInt_bits (h : v.ty = .int w s) : v.bits.toInt = (v.word w).toInt := by
  obtain ⟨ty, store⟩ := v
  cases h
  rfl

/-- The flag after the offset is added, if it is added. -/
theorem offsetOverflow_iff (before : Bool) (hv : v.ty = .int w s) :
    offsetOverflow before v = true ↔ (toldByOffset before v).Overflows w.bits := by
  obtain ⟨ty, store⟩ := v
  obtain rfl : ty = .int w s := hv
  unfold offsetOverflow toldByOffset
  cases store with
  | reg held offset =>
    dsimp only
    split
    · exact Iff.rfl
    · split
      · exact aluOverflow_iff .add _ _
      · exact aluOverflow_iff .sub _ _
  | _ => exact Iff.rfl

/-- The flag after an instruction of the arithmetic unit, on values that are the
operands. -/
theorem implOverflow_alu (hl : l.ty = .int w s) (hr : r.ty = .int w s) :
    implOverflow cpu o f.op l r = true ↔
      ¬ InRange true w.bits (f.exact (l.word w).toInt (r.word w).toInt) := by
  have hlc := same_checkIvfp l
  have hrc := same_checkIvfp r
  have hunfold : implOverflow cpu o f.op l r =
      let e := aluOperands o f.op l.checkIvfp r.checkIvfp
      let e := promoteOperands e.1 e.2
      aluOverflow f.op e.1.bits (e.2.store.val.setWidth _) := by
    cases f <;> rfl
  have hflag : ∀ x y : OutVal, x.ty = .int w s → y.ty = .int w s →
      (aluOverflow f.op (promoteOperands x y).1.bits
          ((promoteOperands x y).2.store.val.setWidth _) = true ↔
        ¬ InRange true w.bits (f.exact (x.word w).toInt (y.word w).toInt)) := by
    intro x y hx hy
    rw [promoteOperands_eq hx hy]
    obtain ⟨ty, store⟩ := x
    obtain rfl : ty = .int w s := hx
    exact aluOverflow_iff f _ _
  rw [hunfold]
  rcases aluOperands_same o f.op l.checkIvfp r.checkIvfp with ⟨hx, hy⟩ | ⟨-, hcomm, hx, hy⟩
  · refine (hflag _ _ (hx.1.trans (hlc.1.trans hl)) (hy.1.trans (hrc.1.trans hr))).trans ?_
    rw [hx.word, hy.word, hlc.word, hrc.word]
  · refine (hflag _ _ (hx.1.trans (hrc.1.trans hr)) (hy.1.trans (hlc.1.trans hl))).trans ?_
    rw [hx.word, hy.word, hlc.word, hrc.word]
    have hswap : ∀ a b : Int, f.exact a b = f.exact b a := by
      intro a b
      cases f with
      | add => exact add_comm a b
      | sub => cases hcomm
      | mul => exact mul_comm a b
    rw [hswap]

theorem offsetOverflow_checkIvfp (before : Bool) (v : OutVal) :
    offsetOverflow before v.checkIvfp = offsetOverflow before v := by
  obtain ⟨ty, store⟩ := v
  cases store with
  | constI val =>
    simp only [OutVal.checkIvfp]
    split <;> rfl
  | _ => rfl

/-- The flag after a shift by 1 is that of a product with 2. -/
theorem msb_ne_iff (x : BitVec w.bits) :
    (x.msb != (x <<< 1).msb) = true ↔ ¬ InRange true w.bits (x.toInt * 2) := by
  have hpos := w.bits_pos
  have hlo := BitVec.le_toInt x
  have hhi := BitVec.toInt_lt (x := x)
  have hpow : (2 : Int) ^ w.bits = 2 * 2 ^ (w.bits - 1) := by
    rw [← pow_succ', Nat.sub_add_cancel hpos]
  have hshift : (x <<< 1).toInt = wrap true w.bits (x.toInt * 2) := by
    rw [BitVec.toInt_shiftLeft, Nat.shiftLeft_eq, pow_one, BitVec.toInt_eq_toNat_bmod]
    push_cast
    exact Int.bmod_mul_bmod.symm
  have hwrap : ∀ y k : Int, x.toInt * 2 = y + 2 ^ w.bits * k → InRange true w.bits y →
      (x <<< 1).toInt = y := by
    intro y k hy hrange
    rw [hshift, ← wrap_of_inRange hpos hrange, hy]
    exact wrap_congr (Int.modEq_iff_dvd.mpr ⟨-k, by ring⟩)
  rw [BitVec.msb_eq_toInt, BitVec.msb_eq_toInt, bne_iff_ne, ne_eq, decide_eq_decide, not_iff_not]
  simp only [InRange, if_true] at hwrap ⊢
  -- doubling keeps the sign, or goes past the range on the side of the sign
  rcases lt_or_ge (x.toInt * 2) (-2 ^ (w.bits - 1)) with hneg | hneg
  · rw [hwrap (x.toInt * 2 + 2 ^ w.bits) (-1) (by ring) (by constructor <;> omega)]
    omega
  · rcases lt_or_ge (x.toInt * 2) (2 ^ (w.bits - 1)) with hsmall | hlarge
    · rw [hwrap (x.toInt * 2) 0 (by ring) ⟨hneg, hsmall⟩]
      omega
    · rw [hwrap (x.toInt * 2 - 2 ^ w.bits) 1 (by ring) (by constructor <;> omega)]
      omega

/-- What a shift by a power of two of a type is. -/
theorem log2ll_lt {b : OutVal} {c : Integral} (hc : b.constI? = some c) (hpow : ispow2 c = true)
    (hfit : b.PowersFit w) :
    (log2ll c).toNat < w.bits ∧ (b.word w).toNat = 2 ^ (log2ll c).toNat := by
  have hnat : (b.word w).toNat = 2 ^ (log2ll c).toNat := by
    rw [← toNat_of_ispow2 hpow, hfit c hc hpow, toNat_extend w.bits_le]
  have hlt := (b.word w).isLt
  rw [hnat] at hlt
  exact ⟨(Nat.pow_lt_pow_iff_right (by omega)).1 hlt, hnat⟩

/-- The flag after a product with a power of two that is made by a shift. -/
theorem implOverflow_shift {a b : OutVal} {c : Integral} (ha : a.ty = .int w s)
    (hc : b.constI? = some c) (hpow : ispow2 c = true) (hfit : b.PowersFit w) :
    implOverflow cpu o .shiftl a (outNewL b.ty (log2ll c)) = true ↔
      (if log2ll c = 0 then toldByOffset cpu.before a
        else if log2ll c ≠ 1 then .left cpu.afterShift
        else .signed ((a.word w).toInt * (b.word w).toInt) : Told).Overflows w.bits := by
  obtain ⟨hlt, hnat⟩ := log2ll_lt hc hpow hfit
  have hty := (same_checkIvfp a).1.trans ha
  have hcount : (outNewL b.ty (log2ll c)).checkIvfp.store.val.toNat % 256 %
      (if a.checkIvfp.ty.bits = 64 then 64 else 32) = (log2ll c).toNat := by
    rw [(same_checkIvfp _).2, hty]
    change (log2ll c).toNat % 256 % (if w.bits = 64 then 64 else 32) = _
    cases w <;> simp [Width.bits] at hlt ⊢ <;> omega
  have h0 : (log2ll c).toNat = 0 ↔ log2ll c = 0 := by
    rw [← BitVec.toNat_inj]
    rfl
  have h1 : (log2ll c).toNat = 1 ↔ log2ll c = 1 := by
    rw [← BitVec.toNat_inj]
    rfl
  unfold implOverflow
  simp only [hcount, h0, h1]
  split
  · rw [offsetOverflow_checkIvfp]
    exact offsetOverflow_iff cpu.before ha
  · split
    · rename_i hlog
      have htwo : (b.word w).toInt = 2 := by
        have hn : (b.word w).toNat = 2 := by rw [hnat, h1.mpr hlog, pow_one]
        rw [BitVec.toInt_eq_toNat_of_lt (by rw [hn]; cases w <;> decide), hn]
        rfl
      rw [if_neg (not_not.mpr hlog), htwo, ← (same_checkIvfp a).word w]
      generalize a.checkIvfp = u at hty ⊢
      obtain ⟨ty, store⟩ := u
      obtain rfl : ty = .int w s := hty
      exact msb_ne_iff _
    · exact Iff.rfl

/-- The flag that `impl_test_overflow` finds. -/
theorem overflow_iff (hl : l.ty = .int w s) (hr : r.ty = .int w s) (hcl : l.PowersFit w)
    (hcr : r.PowersFit w) (hv : outOp o f.op l r = some v) :
    offsetOverflow (outOpOverflow cpu o f.op l r) v = true ↔
      (told o cpu f l r).Overflows w.bits := by
  unfold outOpOverflow told
  cases hmem : tryMemOffset o f.op l r with
  | some u =>
    rw [outOp, outOpWith_of_mem hmem] at hv
    obtain rfl := Option.some.inj hv
    exact offsetOverflow_iff cpu.before (tryMemOffset_ty hl hr hmem)
  | none =>
    rcases constFolding_word (o := o) (f := f) hl hr with hgo | ⟨u, hret, hty, -⟩
    · obtain ⟨hl', hr', -⟩ := rewriteOp_builtin (o := o) (f := f) hl hr hcl hcr
      rw [outOp_go hl hr hmem hgo] at hv
      have hkeep : ∀ set x, offsetOverflow set (inReg (.int w s) x) = set := fun set x => by
        simp [offsetOverflow, inReg]
      simp only [hgo]
      rcases rewriteOp_cases o f l r with h | ⟨a, b, c, rfl, hab, hc, hpow, h⟩
      · rw [h] at hv
        obtain ⟨x, rfl⟩ := implOp_inReg (Or.inl f.isAlu) hl hr hv
        have hne : f.op ≠ .shiftl := by cases f <;> simp [Builtin.op]
        simp only [h, hkeep, hne, false_and, if_false]
        rw [implOverflow_alu hl hr, toInt_bits hl, toInt_bits hr]
        exact Iff.rfl
      · have ha : a.ty = .int w s := by rcases hab with ⟨rfl, rfl⟩ | ⟨rfl, rfl⟩ <;> assumption
        have hfit : b.PowersFit w := by rcases hab with ⟨rfl, rfl⟩ | ⟨rfl, rfl⟩ <;> assumption
        rw [h] at hv hl' hr'
        obtain ⟨x, rfl⟩ := implOp_inReg (Or.inr rfl) hl' hr' hv
        have hmul : (a.word w).toInt * (b.word w).toInt =
            Builtin.mul.exact l.bits.toInt r.bits.toInt := by
          rw [toInt_bits hl, toInt_bits hr]
          rcases hab with ⟨rfl, rfl⟩ | ⟨rfl, rfl⟩
          · rfl
          · exact mul_comm _ _
        simp only [h, hkeep, true_and]
        rw [implOverflow_shift ha hc hpow hfit, hmul]
        exact Iff.rfl
    · rw [outOp, outOpWith_of_ret hmem hret] at hv
      obtain rfl := Option.some.inj hv
      simp only [hret]
      exact offsetOverflow_iff cpu.before hty

end Operation

/-! ## The numbers -/

theorem aluWords_ofInt {n : Nat} (f : Builtin) (a b : Int) :
    aluWords f.op (BitVec.ofInt n a) (BitVec.ofInt n b) = BitVec.ofInt n (f.exact a b) := by
  cases f with
  | add => exact (BitVec.ofInt_add a b).symm
  | sub =>
    change BitVec.ofInt n a - BitVec.ofInt n b = BitVec.ofInt n (a - b)
    rw [Int.sub_eq_add_neg, BitVec.ofInt_add, BitVec.ofInt_neg, BitVec.sub_eq_add_neg]
  | mul => exact (BitVec.ofInt_mul a b).symm

section Operands

variable {v : OutVal} {w u : Width} {s t : Bool}

theorem setWidth_word (h : w.bits ≤ u.bits) : (v.word u).setWidth w.bits = v.word w :=
  BitVec.setWidth_setWidth_of_le _ h

/-- A power of two that is stored with its sign is not a negative number of fewer than
64 bits. -/
theorem zero_extended_of_ispow2 {k : Integral} (hpow : ispow2 k = true)
    (hk : k = extend t 64 (k.setWidth w.bits)) : k = extend false 64 (k.setWidth w.bits) := by
  cases t with
  | false => exact hk
  | true =>
    cases hmsb : (k.setWidth w.bits).msb with
    | false =>
      rw [extend, if_pos rfl, BitVec.signExtend_eq_setWidth_of_msb_false hmsb] at hk
      exact hk
    | true =>
      have hnat := toNat_of_ispow2 hpow
      have hlog : (log2ll k).toNat < 64 := by
        have := k.isLt
        rw [hnat] at this
        exact (Nat.pow_lt_pow_iff_right (by omega)).1 this
      -- only the top bit of the word is set, and it is the sign
      have hneg : k.toInt < 0 := by
        rw [hk, toInt_extend w.bits_le]
        rwa [BitVec.msb_eq_toInt, decide_eq_true_eq] at hmsb
      have htop : 2 ^ 63 ≤ 2 ^ (log2ll k).toNat := by
        rw [← hnat]
        rwa [← decide_eq_true_eq (p := k.toInt < 0), ← BitVec.msb_eq_toInt, BitVec.msb_eq_decide,
          decide_eq_true_eq] at hneg
      have hle := (Nat.pow_le_pow_iff_right (by omega : 1 < 2)).1 htop
      have hmin : k = BitVec.intMin 64 := by
        apply BitVec.eq_of_toNat_eq
        rw [hnat, show (log2ll k).toNat = 63 by omega]
        rfl
      subst hmin
      clear hneg htop hle hlog hnat hk hpow
      revert hmsb
      cases w <;> decide

/-- A constant stays one in a cast to a type as wide, and in no other. -/
theorem constI?_cast {k : Integral} (hv : v.ty = .int u t)
    (h : (v.cast (.int w s)).constI? = some k) : v.constI? = some k ∧ ¬ u.bits < w.bits := by
  obtain ⟨ty, store⟩ := v
  obtain rfl : ty = .int u t := hv
  have hreg : ∀ x : OutVal, x.isReg = true → x.constI? ≠ some k := by
    intro x hx hk
    obtain ⟨ty, store⟩ := x
    cases store with
    | reg held offset => cases hk
    | _ => cases hx
  cases store with
  | constI val =>
    unfold OutVal.cast at h
    dsimp only at h
    split at h
    · exact absurd h (hreg _ rfl)
    · rename_i hlt
      exact ⟨h, hlt⟩
  | reg held offset =>
    refine absurd h (hreg _ ?_)
    unfold OutVal.cast
    dsimp only
    split <;> split <;> rfl
  | regoff held offset | spilt held =>
    refine absurd h (hreg _ ?_)
    unfold OutVal.cast
    dsimp only
    split <;> rfl
  | lbl addr offset | flag set =>
    unfold OutVal.cast at h
    dsimp only at h
    split at h <;> cases h

/-- A constant that is cast is stored as a number of its type, of either signedness. -/
theorem powersFit_cast (hv : v.ty = .int u t) (hc : v.Canonical) (h : u.bits ≤ w.bits) :
    (v.cast (.int w s)).PowersFit w := by
  intro k hk hpow
  obtain ⟨hconst, hlt⟩ := constI?_cast hv hk
  have hword : (v.cast (.int w s)).word w = k.setWidth w.bits := by
    rw [OutVal.word, val_of_constI? hk]
  have hwu : u = w := by
    have hbits : u.bits = w.bits := by omega
    cases u <;> cases w <;> first | rfl | cases hbits
  subst hwu
  rw [hword]
  refine zero_extended_of_ispow2 (t := t) hpow ?_
  have hk' := canonical_word hv hc hconst
  rwa [OutVal.word, val_of_constI? hconst] at hk'

end Operands

theorem largerType_int (w u : Width) (s t : Bool) :
    ∃ W S, largerType (.int w s) (.int u t) = .int W S ∧ w.bits ≤ W.bits ∧ u.bits ≤ W.bits := by
  unfold largerType
  split
  · rename_i h
    exact ⟨u, t, rfl, le_of_lt h, le_rfl⟩
  · rename_i h
    exact ⟨w, s, rfl, le_rfl, not_lt.mp h⟩

/-- The type of the operation. -/
theorem arithOverflowLargestType_int (w lw rw : Width) (s ls rs : Bool) :
    ∃ W S, arithOverflowLargestType (.int w s) (.int lw ls) (.int rw rs) = .int W S ∧
      w.bits ≤ W.bits ∧ lw.bits ≤ W.bits ∧ rw.bits ≤ W.bits := by
  obtain ⟨V, T, hV, hw, hl⟩ := largerType_int w lw s ls
  obtain ⟨W, S, hW, hVW, hr⟩ := largerType_int V rw T rs
  exact ⟨W, S, by rw [arithOverflowLargestType, hV, hW], hw.trans hVW, hl.trans hVW, hr⟩

/-! ## The comparison -/

section Narrow

variable {o : OutOpts} {w u : Width} {s t : Bool}

/-- A register is cast to one. -/
theorem cast_inReg (ty target : OutTy) (x : Integral) :
    ∃ y, (inReg ty x).cast target = inReg target y := by
  unfold OutVal.cast inReg
  simp only [ne_eq, not_true_eq_false, false_and, if_false]
  split
  · exact ⟨_, rfl⟩
  · exact ⟨x, rfl⟩

/-- Two registers are compared. -/
theorem outOp_ne_inReg (ty ty' : OutTy) (x y : Integral) :
    outOp o .ne (inReg ty x) (inReg ty' y) = some (implCompare .ne (inReg ty x) (inReg ty' y)) := by
  obtain ⟨constFold, symbolArith, pic, sanitize⟩ := o
  cases constFold <;> rfl

/-- Two flags are joined, the first one in a register. -/
theorem outOp_or_flag (a b : Bool) :
    ∃ ret, outOp o .or (inReg (.int .w8 false) (ofTruth a)) ⟨.int .w8 false, .flag b⟩ = some ret ∧
      ret.num = if a || b then 1 else 0 := by
  obtain ⟨constFold, symbolArith, pic, sanitize⟩ := o
  cases constFold <;> cases pic <;> cases a <;> cases b <;> exact ⟨_, rfl, rfl⟩

theorem extend_eq_ofInt {m n : Nat} (h : m ≤ n) (s : Bool) (x : BitVec m) :
    extend s n x = BitVec.ofInt n (readAs s x) := by
  rw [← readAs_extend h, ofInt_readAs le_rfl, BitVec.setWidth_eq]

/-- The narrow word is compared with the wide one, as a number of its own type. -/
theorem implCompare_ne {x y : Integral} (h : w.bits ≤ u.bits) :
    implCompare .ne (inReg (.int w s) x) (inReg (.int u t) y) = ⟨.int .w8 false, .flag
      (extend s u.bits (x.setWidth w.bits) != y.setWidth u.bits)⟩ := by
  rcases h.lt_or_eq with hlt | heq
  · have hprom : promoteOperands (inReg (.int w s) x) (inReg (.int u t) y) =
        (inReg (.int u t) (inReg (.int w s) x).extended, inReg (.int u t) y) := if_pos hlt
    have hword : ((inReg (.int w s) x).extended.setWidth u.bits : BitVec u.bits) =
        extend s u.bits (x.setWidth w.bits) := by
      rw [extended_eq rfl, word_inReg, ← ofInt_readAs u.bits_le s, readAs_extend w.bits_le,
        extend_eq_ofInt h]
    unfold implCompare
    rw [hprom]
    change OutVal.mk _ (.flag ((inReg (.int u t) (inReg (.int w s) x).extended).store.val.setWidth
      u.bits != (inReg (.int u t) y).store.val.setWidth u.bits)) = _
    rw [inReg_val, inReg_val, hword]
  · have hwu : w = u := by cases w <;> cases u <;> first | rfl | cases heq
    subst hwu
    have hprom : promoteOperands (inReg (.int w s) x) (inReg (.int w t) y) =
        (inReg (.int w s) x, inReg (.int w t) y) :=
      (if_neg (lt_irrefl w.bits)).trans (if_neg (lt_irrefl w.bits))
    unfold implCompare
    rw [hprom, extend_eq_ofInt le_rfl, ofInt_readAs le_rfl, BitVec.setWidth_eq]
    change OutVal.mk _ (.flag ((inReg (.int w s) x).store.val.setWidth w.bits !=
      (inReg (.int w t) y).store.val.setWidth w.bits)) = _
    rw [inReg_val, inReg_val]

/-- A number is another one as a narrow number, if and only if it is out of range. -/
theorem extend_ne_iff (h : w.bits ≤ u.bits) (z : Int) :
    (extend s u.bits (BitVec.ofInt w.bits z) != BitVec.ofInt u.bits z) = true ↔
      w.bits < u.bits ∧ ¬ InRange s w.bits (wrap true u.bits z) := by
  have hpos := Width.bits_pos
  have hint : extend s u.bits (BitVec.ofInt w.bits z) = BitVec.ofInt u.bits z ↔
      wrap true u.bits (wrap s w.bits z) = wrap true u.bits z := by
    rw [extend_eq_ofInt h, readAs_ofInt, ← BitVec.toInt_inj, BitVec.toInt_ofInt,
      BitVec.toInt_ofInt]
    exact Iff.rfl
  rw [bne_iff_ne, ne_eq, hint]
  rcases h.lt_or_eq with hlt | heq
  · have hnarrow := inRange_wrap (hpos w) s z
    rw [wrap_of_inRange (hpos u) (hnarrow.widen hlt)]
    refine ⟨fun hne => ⟨hlt, fun hin => hne ?_⟩, fun hout heq => hout.2 (heq ▸ hnarrow)⟩
    rw [← wrap_of_inRange (hpos w) hin, wrap_wrap h]
  · rw [heq, wrap_wrap le_rfl]
    simp

end Narrow

/-! ## The builtins -/

section Gen

variable {o : OutOpts} {cpu : Cpu} {f : Builtin} {w lw rw W : Width} {s ls rs S : Bool}
variable {lhs rhs result : OutVal}

/-- What is compared for a small type: the narrow number, and the whole result. -/
theorem hasdiff_eq {z : Int} (hty : result.ty = .int W S) (hw : w.bits ≤ W.bits)
    (hsmall : w.bits < 32) (hresult : result.word W = BitVec.ofInt W.bits z) :
    outOp o .ne ((result.toReg.cast (.int .w32 true)).cast (.int w s)) result.toReg =
      some ⟨.int .w8 false, .flag (extend s W.bits (BitVec.ofInt w.bits z) !=
        BitVec.ofInt W.bits z)⟩ := by
  have hreg : result.toReg.ty = .int W S := (same_toReg result).1.trans hty
  have hword : result.toReg.word W = BitVec.ofInt W.bits z := by
    rw [(same_toReg result).word, hresult]
  -- `int` is as wide as the result, or narrower, or wider
  have hint : (result.toReg.cast (.int .w32 true)).word w = BitVec.ofInt w.bits z := by
    have hw32 : w.bits ≤ Width.w32.bits := le_of_lt hsmall
    rcases le_total W.bits Width.w32.bits with h | h
    · rw [← setWidth_word hw32, word_cast hreg h, OutVal.num_eq hreg, hword,
        setWidth_ofInt hw32, ofInt_readAs hw, setWidth_ofInt hw]
    · rw [← setWidth_word hw32, word_cast_of_le hreg h, ← setWidth_word h, hword,
        setWidth_ofInt h, setWidth_ofInt hw32]
  obtain ⟨x, hx⟩ := cast_inReg result.ty (.int .w32 true) result.store.val
  obtain ⟨y, hy⟩ := cast_inReg (.int .w32 true) (.int w s) x
  have hshort : (result.toReg.cast (.int .w32 true)).cast (.int w s) = inReg (.int w s) y := by
    rw [← hy, ← hx]
    rfl
  have hywo : y.setWidth w.bits = BitVec.ofInt w.bits z := by
    rw [← word_inReg (.int w s) y w, ← hshort,
      word_cast_of_le (u := .w32) (t := true) (cast_eq _ _).1 (le_of_lt hsmall), hint]
  have hxwo : result.store.val.setWidth W.bits = BitVec.ofInt W.bits z := hresult
  rw [hshort, OutVal.toReg, hty, outOp_ne_inReg, implCompare_ne hw, hywo, hxwo]

/-- What the builtin tells of a result, given the flag. -/
def Returns (ovf : Bool) (w : Width) (n : Nat) (s : Bool) (z : Int) : Prop :=
  ovf = true ∨ (w.bits < 32 ∧ w.bits < n ∧ ¬ InRange s w.bits (wrap true n z))

variable (cpu) in
/-- What the builtin does once the operation is made. -/
theorem genArithOverflow_some {z : Int} (hlhs : lhs.ty = .int lw ls) (hrhs : rhs.ty = .int rw rs)
    (hW : arithOverflowLargestType (.int w s) (.int lw ls) (.int rw rs) = .int W S)
    (hw : w.bits ≤ W.bits)
    (hbyte : byteImul o f.op (lhs.cast (.int W S)) (rhs.cast (.int W S)) = false)
    (hout : outOp o f.op (lhs.cast (.int W S)) (rhs.cast (.int W S)) = some result)
    (hty : result.ty = .int W S) (hresult : result.word W = BitVec.ofInt W.bits z) :
    ∃ stored ret, genArithOverflow o cpu f (.int w s) lhs rhs = some (stored, ret) ∧
      stored.num = wrap s w.bits z ∧ (ret.num = 0 ∨ ret.num = 1) ∧
      (ret.num = 1 ↔ Returns (offsetOverflow
        (outOpOverflow cpu o f.op (lhs.cast (.int W S)) (rhs.cast (.int W S))) result)
        w W.bits s z) := by
  have hreg : result.toReg.ty = .int W S := (same_toReg result).1.trans hty
  have hstored : (result.toReg.cast (.int w s)).num = wrap s w.bits z := by
    rw [OutVal.num_eq (cast_eq _ _).1, word_cast_of_le hreg hw, ← setWidth_word hw,
      (same_toReg result).word, hresult, setWidth_ofInt hw, readAs_ofInt]
  have htruth : ∀ b : Bool, ((if b then 1 else 0 : Int) = 0 ∨ (if b then 1 else 0 : Int) = 1) ∧
      ((if b then 1 else 0 : Int) = 1 ↔ b = true) := by decide
  unfold genArithOverflow
  simp only [hlhs, hrhs, hW, hbyte, Bool.false_eq_true, if_false, hout, Option.bind_eq_bind,
    Option.bind_some]
  generalize offsetOverflow _ result = ovf
  by_cases hsmall : w.bits < 32
  · obtain ⟨ret, hret, hnum⟩ := outOp_or_flag (o := o) ovf
      (extend s W.bits (BitVec.ofInt w.bits z) != BitVec.ofInt W.bits z)
    have hif : (OutTy.int w s).bits < 32 := hsmall
    rw [if_pos hif, hasdiff_eq hty hw hsmall hresult]
    simp only [Option.bind_some, hret]
    refine ⟨_, _, rfl, hstored, hnum ▸ (htruth _).1, ?_⟩
    rw [hnum, (htruth _).2, Bool.or_eq_true, extend_ne_iff hw]
    exact or_congr_right (and_iff_right hsmall).symm
  · have hif : ¬ (OutTy.int w s).bits < 32 := hsmall
    rw [if_neg hif]
    refine ⟨_, _, rfl, hstored, ?_, ?_⟩
    · cases ovf <;> decide
    · unfold Returns
      rw [eq_false hsmall, false_and, or_false]
      cases ovf <;> decide

/-- What is returned agrees with the pointee, if what is told does. -/
theorem toldRight_iff {n : Nat} {t : Told} {ovf : Bool} {ret z : Int}
    (hovf : ovf = true ↔ t.Overflows n) (hbool : ret = 0 ∨ ret = 1)
    (hret : ret = 1 ↔ Returns ovf w n s z) :
    (ret = if InRange s w.bits z then 0 else 1) ↔ ToldRight n w s t z := by
  unfold Returns at hret
  unfold ToldRight
  rw [hovf] at hret
  split
  · rename_i hin
    have hsame : w.bits < n → wrap true n z = z := fun hlt =>
      wrap_of_inRange (by omega) (hin.widen hlt)
    constructor
    · intro h0 hset
      have := hret.mpr (Or.inl hset)
      omega
    · intro hclear
      refine hbool.resolve_right fun h1 => ?_
      rcases hret.mp h1 with hset | ⟨-, hlt, hout⟩
      · exact hclear hset
      · exact hout (by rw [hsame hlt]; exact hin)
  · exact hret

end Gen

/-- The options of a plain compilation. -/
def plainOpts : OutOpts := ⟨true, true, true, false⟩

end Ucc.Cc1.Out
