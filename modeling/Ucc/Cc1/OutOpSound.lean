/-
  Cc1/OutOpSound.lean --- the shortcuts of `out_op`.

  Source: try_mem_offset, const_is_noop, try_const_fold, try_shift_conv,
  try_trunc_conv and out_op in src/cc1/out/op.c.

  Two integers of one type, at least one of them a constant.  Every shortcut
  keeps the value but one: `const_is_noop` takes a shift of the constant 0 for a
  shift by 0, and gives the count.
-/
import Ucc.Cc1.CompoundAssign
import Ucc.Cc1.OutOp

set_option autoImplicit false

namespace Ucc.Cc1.Out

open Ucc.Lib

/-! ## What the result should be -/

/-- The value of an operator on two words of a type; `none` where C gives none. -/
def cResult {w : Nat} (s : Bool) (op : OpType) (a b : BitVec w) : Option Int :=
  match op with
  | .multiply | .plus | .minus | .xor | .or | .and => some (readAs s (aluWords op a b))
  | .divide | .modulus => (idivWords s op a b).map (readAs s)
  | .shiftl | .shiftr =>
      if b.toNat < w then some (readAs s (shiftWords s op a b.toNat)) else none
  | .eq | .ne | .le | .lt | .ge | .gt => some (if compareWords s op a b then 1 else 0)
  | _ => none

/-- A constant is stored as the number that it is. -/
def OutVal.Canonical (v : OutVal) : Prop := ∀ k, v.constI? = some k → k = v.extended

/-- The constant 0 is shifted by a number that is computed and is not 0. -/
def ZeroShifted (o : OutOpts) (op : OpType) (l r : OutVal) : Prop :=
  o.constFold = true ∧ (op = .shiftl ∨ op = .shiftr) ∧ l.constI? = some 0 ∧ r.constI? = none ∧
    r.bits ≠ 0

/-- The instruction of `impl_op` is written with the values as its operands. -/
def operandsPrinted (o : OutOpts) (op : OpType) (l r : OutVal) : Bool :=
  let l := l.checkIvfp
  let r := r.checkIvfp
  match op with
  | .multiply | .plus | .minus | .xor | .or | .and =>
      (aluOperands o op l r).1.isReg && (aluOperands o op l r).2.readable
  | .shiftl | .shiftr => l.toRegMem.isReg
  | .divide | .modulus =>
      r.toRegMem.isReg && r.ty.divides
  | _ => true

/-- If there is an instruction, its operands are printed as the values. -/
def Printed (o : OutOpts) (op : OpType) (l r : OutVal) : Prop :=
  tryMemOffset o op l r = none → constFolding o op l r = .go →
    operandsPrinted o (rewriteOp o op l r).1 (rewriteOp o op l r).2.1 (rewriteOp o op l r).2.2

/-! ## Values that are moved -/

/-- The same number of the same type. -/
def OutVal.Same (v u : OutVal) : Prop := u.ty = v.ty ∧ u.store.val = v.store.val

section Same

variable {v u t : OutVal}

theorem OutVal.Same.refl (v : OutVal) : v.Same v := ⟨rfl, rfl⟩

theorem OutVal.Same.trans (h : v.Same u) (h' : u.Same t) : v.Same t :=
  ⟨h'.1.trans h.1, h'.2.trans h.2⟩

theorem inReg_val (ty : OutTy) (x : Integral) : (inReg ty x).store.val = x := BitVec.add_zero x

theorem same_toReg (v : OutVal) : v.Same v.toReg := ⟨rfl, inReg_val _ _⟩

theorem same_toRegConst (v : OutVal) : v.Same v.toRegConst := by
  unfold OutVal.toRegConst
  split
  · exact .refl v
  · exact same_toReg v

theorem same_toRegMem (v : OutVal) : v.Same v.toRegMem := by
  unfold OutVal.toRegMem
  split
  · exact .refl v
  · exact .refl v
  · exact same_toReg v

theorem same_toRegMemConst (v : OutVal) : v.Same v.toRegMemConst := by
  unfold OutVal.toRegMemConst
  split
  · exact .refl v
  · exact same_toRegMem v

theorem same_checkIvfp (v : OutVal) : v.Same v.checkIvfp := by
  obtain ⟨ty, store⟩ := v
  cases store with
  | constI val =>
    simp only [OutVal.checkIvfp]
    split
    · exact ⟨rfl, inReg_val _ _⟩
    · exact .refl _
  | _ => exact .refl _

end Same

/-- The operands of an instruction are the two values, swapped only if the operator
is commutative. -/
theorem aluOperands_same (o : OutOpts) (op : OpType) (l r : OutVal) :
    (l.Same (aluOperands o op l r).1 ∧ r.Same (aluOperands o op l r).2) ∨
      (needSwap op l r = some true ∧ opIsCommutative op = true ∧
        r.Same (aluOperands o op l r).1 ∧ l.Same (aluOperands o op l r).2) := by
  have hpic : ∀ x y : OutVal, x.Same (if o.pic then (x.toReg, y.toRegConst) else (x, y)).1 ∧
      y.Same (if o.pic then (x.toReg, y.toRegConst) else (x, y)).2 := by
    intro x y
    split
    · exact ⟨same_toReg x, same_toRegConst y⟩
    · exact ⟨.refl x, .refl y⟩
  unfold aluOperands
  cases hswap : needSwap op l r with
  | none =>
    refine Or.inl ⟨(same_toRegMem l).trans (hpic _ _).1, ?_⟩
    refine OutVal.Same.trans ?_ (hpic _ _).2
    split
    · exact (same_toRegMemConst r).trans (same_toReg _)
    · exact same_toRegMemConst r
  | some swap =>
    cases swap with
    | false => exact Or.inl (hpic l r)
    | true =>
      refine Or.inr ⟨rfl, ?_, hpic r l⟩
      obtain ⟨⟨a, b⟩, -, hab⟩ := List.exists_of_findSome?_eq_some hswap
      simp only at hab
      split at hab
      · cases hab
      · split at hab
        · rename_i hcomm
          simp only [Bool.and_eq_true] at hcomm
          exact hcomm.1.1
        · cases hab

/-! ## Instructions -/

/-- The bits of a value, in a given width. -/
def OutVal.word (w : Width) (v : OutVal) : BitVec w.bits := v.store.val.setWidth _

theorem OutVal.Same.word {v u : OutVal} (h : v.Same u) (w : Width) : u.word w = v.word w := by
  unfold OutVal.word
  rw [h.2]

theorem aluWords_comm {w : Nat} {op : OpType} (h : opIsCommutative op = true) (a b : BitVec w) :
    aluWords op a b = aluWords op b a := by
  cases op <;>
    first
    | exact BitVec.mul_comm a b
    | exact BitVec.add_comm a b
    | exact BitVec.xor_comm a b
    | exact BitVec.or_comm a b
    | exact BitVec.and_comm a b
    | rfl
    | cases h

theorem setWidth_aluWords {w : Nat} (h : w ≤ 64) (op : OpType) (a b : Integral) :
    (aluWords op a b).setWidth w = aluWords op (a.setWidth w) (b.setWidth w) := by
  cases op <;>
    first
    | exact BitVec.setWidth_mul a b h
    | exact BitVec.setWidth_add a b h
    | exact setWidth_sub_of_le h a b
    | exact BitVec.setWidth_xor
    | exact BitVec.setWidth_or
    | exact BitVec.setWidth_and
    | exact BitVec.setWidth_zero _ _

section Instructions

variable {o : OutOpts} {op : OpType} {w : Width} {s : Bool} {l r v : OutVal}

theorem OutVal.num_eq (h : v.ty = .int w s) : v.num = readAs s (v.word w) := by
  obtain ⟨ty, store⟩ := v
  cases h
  rfl

theorem word_inReg (ty : OutTy) (x : Integral) (w : Width) :
    (inReg ty x).word w = x.setWidth w.bits := by
  rw [OutVal.word, inReg_val]

theorem num_inReg (w : Width) (s : Bool) (x : Integral) :
    (inReg (.int w s) x).num = readAs s (x.setWidth w.bits) := by
  rw [OutVal.num_eq (w := w) (s := s) rfl, word_inReg]

theorem promoteOperands_eq (hl : l.ty = .int w s) (hr : r.ty = .int w s) :
    promoteOperands l r = (l, r) := by
  unfold promoteOperands
  rw [hl, hr, if_neg (lt_irrefl _), if_neg (lt_irrefl _)]

/-- An instruction of the arithmetic unit, on two integers of one type. -/
theorem implAlu_word (hl : l.ty = .int w s) (hr : r.ty = .int w s)
    (hp : ((aluOperands o op l r).1.isReg && (aluOperands o op l r).2.readable) = true) :
    ∃ x, implAlu o op l r = some (inReg (.int w s) x) ∧
      x.setWidth w.bits = aluWords op (l.word w) (r.word w) := by
  have hsame := aluOperands_same o op l r
  generalize hops : aluOperands o op l r = ops at hp hsame
  obtain ⟨x, y⟩ := ops
  simp only at hp hsame
  have hxy : x.ty = .int w s ∧ y.ty = .int w s ∧
      aluWords op (x.word w) (y.word w) = aluWords op (l.word w) (r.word w) := by
    rcases hsame with ⟨hx, hy⟩ | ⟨-, hcomm, hx, hy⟩
    · exact ⟨hx.1.trans hl, hy.1.trans hr, by rw [hx.word, hy.word]⟩
    · exact ⟨hx.1.trans hr, hy.1.trans hl, by rw [hx.word, hy.word, aluWords_comm hcomm]⟩
  obtain ⟨hx, hy, hword⟩ := hxy
  refine ⟨aluWords op x.store.val y.store.val, ?_, ?_⟩
  · unfold implAlu
    rw [hops, ← hx]
    simp only [hp, if_true, promoteOperands_eq hx hy]
  · rw [setWidth_aluWords w.bits_le, ← hword]
    rfl

/-- A count that is in range is not changed by the processor. -/
theorem shift_count {x : Integral} (h : (x.setWidth w.bits).toNat < w.bits) :
    x.toNat % 256 % (if w.bits = 64 then 64 else 32) = (x.setWidth w.bits).toNat := by
  rw [BitVec.toNat_setWidth] at h ⊢
  cases w <;> simp only [Width.bits] at h ⊢ <;> norm_num at h ⊢ <;> omega

theorem num_inReg_setWidth (w : Width) (s : Bool) (x : BitVec w.bits) :
    (inReg (.int w s) (x.setWidth 64)).num = readAs s x := by
  rw [num_inReg, BitVec.setWidth_setWidth_of_le _ w.bits_le, BitVec.setWidth_eq]

/-- A shift. -/
theorem x86Shift_word (op : OpType) (hl : l.ty = .int w s) (hp : l.toRegMem.isReg = true)
    (hcount : (r.word w).toNat < w.bits) :
    ∃ x, x86Shift op l r = some (inReg (.int w s) x) ∧
      x.setWidth w.bits = shiftWords s op (l.word w) (r.word w).toNat := by
  have hsame := same_toRegMem l
  unfold x86Shift
  generalize l.toRegMem = x at hp hsame
  obtain ⟨ty, store⟩ := x
  obtain rfl : ty = .int w s := hsame.1.trans hl
  have hword : store.val.setWidth w.bits = l.word w := hsame.word w
  simp only [hp, if_true]
  refine ⟨_, rfl, ?_⟩
  refine (BitVec.setWidth_setWidth_of_le _ w.bits_le).trans ((BitVec.setWidth_eq _).trans ?_)
  have hmask := shift_count hcount
  change shiftWords s op (store.val.setWidth w.bits)
    (r.store.val.toNat % 256 % (if w.bits = 64 then 64 else 32)) = _
  rw [hword, hmask]
  rfl

/-- A division, or its remainder. -/
theorem x86Idiv_num (hl : l.ty = .int w s) (hr : r.ty = .int w s)
    (hp : (r.toRegMem.isReg && r.ty.divides) = true) {x : BitVec w.bits}
    (hx : idivWords s op (l.word w) (r.word w) = some x) :
    ∃ v, x86Idiv op l r = some v ∧ v.num = readAs s x := by
  have hsame := same_toRegMem r
  unfold x86Idiv
  rw [hr] at hp
  generalize r.toRegMem = y at hp hsame
  obtain ⟨ty, store⟩ := y
  obtain rfl : ty = .int w s := hsame.1.trans hr
  have hword : store.val.setWidth w.bits = r.word w := hsame.word w
  simp only [hp, if_true]
  have hdiv :
      idivWords s op (l.store.val.setWidth w.bits) (store.val.setWidth w.bits) = some x := by
    rw [hword]
    exact hx
  refine ⟨inReg l.ty (x.setWidth 64), congrArg (Option.map _) hdiv, ?_⟩
  rw [hl, num_inReg_setWidth]

/-- A comparison. -/
theorem implCompare_num (hl : l.ty = .int w s) (hr : r.ty = .int w s) :
    (implCompare op l r).num = if compareWords s op (l.word w) (r.word w) then 1 else 0 := by
  unfold implCompare
  rw [promoteOperands_eq hl hr]
  obtain ⟨ty, store⟩ := l
  obtain rfl : ty = .int w s := hl
  change readAs false ((ofTruth (compareWords s op ((⟨.int w s, store⟩ : OutVal).word w)
    (r.word w))).setWidth 8) = _
  cases compareWords s op ((⟨.int w s, store⟩ : OutVal).word w) (r.word w) <;> rfl

/-- `impl_op` computes the operator, if its operands are printed as the values. -/
theorem implOp_num (hl : l.ty = .int w s) (hr : r.ty = .int w s)
    (hp : operandsPrinted o op l r = true) {z : Int}
    (hz : cResult s op (l.word w) (r.word w) = some z) :
    ∃ v, implOp o op l r = some v ∧ v.num = z := by
  have hsl := same_checkIvfp l
  have hsr := same_checkIvfp r
  unfold operandsPrinted at hp
  unfold implOp
  rw [← hsl.word w, ← hsr.word w] at hz
  replace hl := hsl.1.trans hl
  replace hr := hsr.1.trans hr
  generalize l.checkIvfp = l' at *
  generalize r.checkIvfp = r' at *
  cases op with
  | multiply | plus | minus | xor | or | and =>
    obtain ⟨x, hx, hword⟩ := implAlu_word hl hr hp
    refine ⟨_, hx, ?_⟩
    rw [num_inReg, hword]
    exact Option.some.inj hz
  | shiftl | shiftr =>
    simp only [cResult] at hz
    split at hz
    · rename_i hcount
      obtain ⟨x, hx, hword⟩ := x86Shift_word _ hl hp hcount
      refine ⟨_, hx, ?_⟩
      rw [num_inReg, hword]
      exact Option.some.inj hz
    · cases hz
  | divide | modulus =>
    obtain ⟨x, hx, hz⟩ := Option.map_eq_some_iff.1 hz
    obtain ⟨v, hv, hnum⟩ := x86Idiv_num hl hr hp hx
    exact ⟨v, hv, hnum.trans hz⟩
  | eq | ne | le | lt | ge | gt =>
    exact ⟨_, rfl, (implCompare_num hl hr).trans (Option.some.inj hz)⟩
  | orsc | andsc | not | bnot | signbit | noSignbit | unknown => cases hz

/-- Otherwise there is no such instruction. -/
theorem implOp_none (hp : operandsPrinted o op l r = false) : implOp o op l r = none := by
  unfold operandsPrinted at hp
  unfold implOp
  generalize l.checkIvfp = l' at *
  generalize r.checkIvfp = r' at *
  cases op with
  | multiply | plus | minus | xor | or | and =>
    simp only [implAlu]
    simp only at hp
    rw [if_neg (by simp [hp])]
  | shiftl | shiftr =>
    simp only [x86Shift]
    simp only at hp
    rw [if_neg (by simp [hp])]
  | divide | modulus =>
    simp only [x86Idiv]
    simp only [(same_toRegMem r').1.symm] at hp
    rw [if_neg (by simp [hp])]
  | eq | ne | le | lt | ge | gt => cases hp
  | orsc | andsc | not | bnot | signbit | noSignbit | unknown => rfl

/-! ## Registers and constants -/

/-- A register or a constant. -/
def OutVal.isSimple (v : OutVal) : Bool := v.isReg || v.constI?.isSome

theorem isSimple_checkIvfp {v : OutVal} (h : v.isSimple = true) : v.checkIvfp.isSimple = true := by
  obtain ⟨ty, store⟩ := v
  cases store with
  | constI val =>
    simp only [OutVal.checkIvfp]
    split
    · rfl
    · rfl
  | _ => exact h

/-- Registers and constants are printed as they are. -/
theorem aluOperands_simple (op : OpType) (hl : l.isSimple = true) (hr : r.isSimple = true) :
    ((aluOperands o op l r).1.isReg && (aluOperands o op l r).2.readable) = true := by
  have hkind : ∀ (v : OutVal) k, v.isSimple = true → v.matchesKind k = true →
      k ≠ .constI → v.isReg = true := by
    intro v k hv hk hne
    obtain ⟨ty, store⟩ := v
    cases k <;> cases store <;> first | rfl | contradiction
  have hread : ∀ v : OutVal, v.isSimple = true → v.readable = true := by
    intro v hv
    obtain ⟨ty, store⟩ := v
    cases store <;> first | rfl | cases hv
  have hpic : ∀ x y : OutVal, x.isReg = true → y.readable = true →
      ((if o.pic then (x.toReg, y.toRegConst) else (x, y)).1.isReg &&
        (if o.pic then (x.toReg, y.toRegConst) else (x, y)).2.readable) = true := by
    intro x y hx hy
    split
    · obtain ⟨ty, store⟩ := y
      cases store <;> rfl
    · simp [hx, hy]
  unfold aluOperands
  cases hswap : needSwap op l r with
  | none =>
    have hl' : l.toRegMem.isReg = true := by
      obtain ⟨ty, store⟩ := l
      cases store <;> first | rfl | cases hl
    have hr' : r.toRegMemConst.readable = true := by
      obtain ⟨ty, store⟩ := r
      cases store <;> first | rfl | cases hr
    refine hpic _ _ hl' ?_
    split
    · rfl
    · exact hr'
  | some swap =>
    obtain ⟨⟨a, b⟩, hmem, hab⟩ := List.exists_of_findSome?_eq_some hswap
    have ha : a ≠ .constI := by
      rintro rfl
      simp [operandKinds] at hmem
    simp only at hab
    split at hab
    · rename_i hmatch
      simp only [Bool.and_eq_true] at hmatch
      cases hab
      exact hpic l r (hkind l a hl hmatch.1 ha) (hread r hr)
    · split at hab
      · rename_i hmatch
        simp only [Bool.and_eq_true] at hmatch
        cases hab
        exact hpic r l (hkind r a hr hmatch.1.2 ha) (hread l hl)
      · cases hab

theorem operandsPrinted_simple (hop : opIsAlu op = true) (hl : l.isSimple = true)
    (hr : r.isSimple = true) : operandsPrinted o op l r = true := by
  have h := aluOperands_simple (o := o) op (isSimple_checkIvfp hl) (isSimple_checkIvfp hr)
  cases op <;> first | exact h | cases hop

theorem isReg_toRegMem_of_simple {v : OutVal} (h : v.isSimple = true) :
    v.toRegMem.isReg = true := by
  obtain ⟨ty, store⟩ := v
  cases store <;> first | rfl | cases h

end Instructions

/-! ## Offsets -/

section Shortcuts

variable {o : OutOpts} {op : OpType} {w : Width} {s : Bool} {l r v : OutVal}

theorem addOffset_val (h : v.isRegOrLbl = true) (n : Integral) :
    (v.addOffset n).ty = v.ty ∧ (v.addOffset n).store.val = v.store.val + n := by
  obtain ⟨ty, store⟩ := v
  cases store with
  | reg held offset => exact ⟨rfl, (BitVec.add_assoc held offset n).symm⟩
  | lbl addr offset => exact ⟨rfl, (BitVec.add_assoc addr offset n).symm⟩
  | _ => cases h

theorem val_of_constI? {k : Integral} (h : v.constI? = some k) : v.store.val = k := by
  obtain ⟨ty, store⟩ := v
  cases store with
  | constI val => exact Option.some.inj h
  | _ => cases h

theorem not_regOrLbl {k : Integral} (h : v.constI? = some k) : v.isRegOrLbl = false := by
  obtain ⟨ty, store⟩ := v
  cases store with
  | constI val => rfl
  | _ => cases h

/-- What `try_mem_offset` has found. -/
theorem tryMemOffset_cases (h : tryMemOffset o op l r = some v) :
    (∃ k, r.constI? = some k ∧ l.isRegOrLbl = true ∧ (op = .plus ∨ op = .minus) ∧
      (l.isLbl = false ∨ o.symbolArith = true) ∧ calcPtrStep l.ty ≠ -1 ∧
      v = l.addOffset ((if op = .minus then -1 else 1) * k * BitVec.ofInt 64 (calcPtrStep l.ty))) ∨
    (∃ k, l.constI? = some k ∧ r.isRegOrLbl = true ∧ op = .plus ∧
      (r.isLbl = false ∨ o.symbolArith = true) ∧ calcPtrStep r.ty ≠ -1 ∧
      v = r.addOffset (1 * k * BitVec.ofInt 64 (calcPtrStep r.ty))) := by
  unfold tryMemOffset fillConst fillRegOrLbl at h
  cases hr : r.constI? with
  | some k =>
    simp only [hr, not_regOrLbl hr, Bool.false_eq_true, if_false] at h
    cases hl : l.isRegOrLbl with
    | false => simp [hl] at h
    | true =>
      simp only [hl, if_true] at h
      split at h
      · rename_i hcond
        left
        refine ⟨k, rfl, rfl, ?_, hcond.2.1, hcond.2.2, (Option.some.inj h).symm⟩
        exact hcond.1.imp_right And.left
      · cases h
  | none =>
    cases hl : l.constI? with
    | none => simp [hr, hl] at h
    | some k =>
      simp only [hr, hl, not_regOrLbl hl, Bool.false_eq_true, if_false] at h
      cases hreg : r.isRegOrLbl with
      | false => simp [hreg] at h
      | true =>
        simp only [hreg, if_true] at h
        split at h
        · rename_i hcond
          obtain rfl : op = .plus := hcond.1.resolve_right (fun hm => by cases hm.2)
          right
          exact ⟨k, rfl, rfl, rfl, hcond.2.1, hcond.2.2, (Option.some.inj h).symm⟩
        · cases h

/-- An offset is added to an integer. -/
theorem tryMemOffset_num (hl : l.ty = .int w s) (hr : r.ty = .int w s)
    (h : tryMemOffset o op l r = some v) {z : Int}
    (hz : cResult s op (l.word w) (r.word w) = some z) : v.num = z := by
  rcases tryMemOffset_cases h with ⟨k, hk, hreg, hop, -, -, rfl⟩ | ⟨k, hk, hreg, rfl, -, -, rfl⟩
  · obtain ⟨hty, hval⟩ := addOffset_val hreg
      ((if op = .minus then -1 else 1) * k * BitVec.ofInt 64 (calcPtrStep l.ty))
    rw [OutVal.num_eq (hty.trans hl), OutVal.word, hval, hl, ← val_of_constI? hk]
    rcases hop with rfl | rfl
    · refine Eq.trans ?_ (Option.some.inj hz)
      simp [calcPtrStep, aluWords, OutVal.word, BitVec.setWidth_add _ _ w.bits_le]
    · refine Eq.trans ?_ (Option.some.inj hz)
      have hstep : BitVec.ofInt 64 (calcPtrStep (.int w s)) = 1 := rfl
      simp only [if_true, hstep, mul_one, neg_one_mul, ← sub_eq_add_neg, aluWords, OutVal.word]
      rw [setWidth_sub_of_le w.bits_le]
  · obtain ⟨hty, hval⟩ := addOffset_val hreg (1 * k * BitVec.ofInt 64 (calcPtrStep r.ty))
    rw [OutVal.num_eq (hty.trans hr), OutVal.word, hval, hr, ← val_of_constI? hk]
    refine Eq.trans ?_ (Option.some.inj hz)
    simp [calcPtrStep, aluWords, OutVal.word, BitVec.setWidth_add _ _ w.bits_le, BitVec.add_comm]

/-! ## Folding of two constants -/

/-- The wrap-around is by multiples of `2 ^ w`. -/
theorem setWidth_wrapAroundOf (op : OpType) (w : Width) (s : Bool) (x : Integral) :
    (wrapAroundOf op (w.bits / 8) s x).setWidth w.bits = x.setWidth w.bits := by
  have hmax : (typeMaxOf (w.bits / 8) false + 1).setWidth w.bits = 0 := by cases w <;> decide
  unfold wrapAroundOf
  split
  · rfl
  · rename_i hs
    simp only [Bool.not_eq_true] at hs
    simp only [hs]
    split
    · rfl
    · split
      · split
        · rw [setWidth_sub_of_le w.bits_le, hmax, sub_zero]
        · have hones : x - BitVec.allOnes 64 + typeMaxOf (w.bits / 8) false =
              x + (typeMaxOf (w.bits / 8) false + 1) := by
            have hneg : BitVec.allOnes 64 = (-1 : Integral) := by decide
            rw [hneg]
            ring
          rw [hones, BitVec.setWidth_add _ _ w.bits_le, hmax, add_zero]
      · rfl

theorem extend_zero (w : Width) (s : Bool) : extend s 64 (0 : BitVec w.bits) = 0 := by
  cases s <;> cases w <;> decide

/-- A count that is in range is the same number in 64 bits. -/
theorem toNat_extend_count (s : Bool) {b : BitVec w.bits} (h : b.toNat < w.bits) :
    (extend s 64 b).toNat = b.toNat := by
  cases s with
  | false => exact toNat_extend w.bits_le b
  | true =>
    have hle : 2 * w.bits ≤ 2 ^ w.bits := by cases w <;> decide
    have hint : b.toInt = b.toNat := BitVec.toInt_eq_toNat_of_lt (by omega)
    have hext := toInt_extend w.bits_le b
    rw [hint] at hext
    have hmsb : 0 ≤ (extend true 64 b).toInt := by omega
    have hnat := BitVec.toInt_eq_toNat_of_lt (x := extend true 64 b) (by
      rw [BitVec.toInt_eq_toNat_cond] at hmsb
      split at hmsb
      · assumption
      · omega)
    omega

theorem compareWords_extend (w : Width) (s : Bool) (op : OpType) (a b : BitVec w.bits) :
    compareWords s op (extend s 64 a) (extend s 64 b) = compareWords s op a b := by
  have heq : (extend s 64 a == extend s 64 b) = (a == b) := by
    rw [Bool.eq_iff_iff, beq_iff_eq, beq_iff_eq, extend_inj w.bits_le]
  cases op <;> simp only [compareWords, bne, heq]
  all_goals
    cases s with
    | true => simp [BitVec.sle_eq_decide, BitVec.slt_eq_decide, toInt_extend w.bits_le]
    | false => simp [BitVec.ule_eq_decide, BitVec.ult_eq_decide, toNat_extend w.bits_le]

theorem readAs_ofTruth (w : Width) (s b : Bool) :
    readAs s ((ofTruth b).setWidth w.bits) = if b then 1 else 0 := by
  cases w <;> cases s <;> cases b <;> decide

theorem binaryExec_alu (h : opIsAlu op = true) (s : Bool) (a b : Integral) :
    binaryExec s a b op = .ok (aluWords op a b) := by
  cases op <;> first | rfl | cases h

theorem binaryExec_comparison (h : opIsComparison op = true) (s : Bool) (a b : Integral) :
    binaryExec s a b op = .ok (ofTruth (compareWords s op a b)) := by
  cases op <;> first | rfl | cases h

theorem binaryExec_division (h : op = .divide ∨ op = .modulus) (s : Bool) {a b : Integral}
    (hb : b ≠ 0) :
    binaryExec s a b op = .ok (if op = .modulus then remWords s a b else divWords s a b) := by
  rcases h with rfl | rfl
  · simp only [binaryExec, hb, if_false]
    rfl
  · simp only [binaryExec, hb, if_false]
    rfl

theorem cResult_alu {n : Nat} (h : opIsAlu op = true) (s : Bool) (a b : BitVec n) :
    cResult s op a b = some (readAs s (aluWords op a b)) := by
  cases op <;> first | rfl | cases h

theorem cResult_comparison {n : Nat} (h : opIsComparison op = true) (s : Bool) (a b : BitVec n) :
    cResult s op a b = some (if compareWords s op a b then 1 else 0) := by
  cases op <;> first | rfl | cases h

theorem cResult_division {n : Nat} (h : op = .divide ∨ op = .modulus) (s : Bool) (a b : BitVec n) :
    cResult s op a b = (idivWords s op a b).map (readAs s) := by
  rcases h with rfl | rfl <;> rfl

theorem cResult_shift {n : Nat} (h : op = .shiftl ∨ op = .shiftr) (s : Bool) (a b : BitVec n) :
    cResult s op a b =
      if b.toNat < n then some (readAs s (shiftWords s op a b.toNat)) else none := by
  rcases h with rfl | rfl <;> rfl

/-- The operators that have a result. -/
theorem op_cases {n : Nat} {a b : BitVec n} {z : Int} (hz : cResult s op a b = some z) :
    opIsAlu op = true ∨ (op = .divide ∨ op = .modulus) ∨ (op = .shiftl ∨ op = .shiftr) ∨
      opIsComparison op = true := by
  cases op <;> first | (simp [opIsAlu, opIsComparison]; done) | cases hz

/-- `const_op_exec` on two constants of a type, wherever C gives a result. -/
theorem binaryExec_extend {a b : BitVec w.bits} {z : Int} (hz : cResult s op a b = some z) :
    ∃ x, binaryExec s (extend s 64 a) (extend s 64 b) op = .ok x ∧
      readAs s (x.setWidth w.bits) = z := by
  have hle := w.bits_le
  rcases op_cases hz with hop | hop | hop | hop
  · rw [cResult_alu hop] at hz
    refine ⟨_, binaryExec_alu hop s _ _, ?_⟩
    rw [setWidth_aluWords hle, setWidth_extend hle, setWidth_extend hle]
    exact Option.some.inj hz
  · rw [cResult_division hop] at hz
    obtain ⟨x, hx, rfl⟩ := Option.map_eq_some_iff.1 hz
    unfold idivWords at hx
    split at hx
    · cases hx
    · rename_i hb
      have hne : extend s 64 b ≠ 0 := by
        rw [← extend_zero w s, Ne, extend_inj hle]
        exact fun h => hb (Or.inl h)
      refine ⟨_, binaryExec_division hop s hne, ?_⟩
      rw [← Option.some.inj hx]
      split
      · rw [setWidth_remWords hle]
      · rw [setWidth_divWords hle]
  · rw [cResult_shift hop] at hz
    split at hz
    · rename_i hcount
      have hexec : binaryExec s (extend s 64 a) (extend s 64 b) op =
          .ok (shiftWords s op (extend s 64 a) b.toNat) := by
        rw [← toNat_extend_count s hcount]
        rcases hop with rfl | rfl <;> rfl
      refine ⟨_, hexec, ?_⟩
      rw [← Option.some.inj hz]
      unfold shiftWords
      split
      · rw [setWidth_shiftLeft_of_le hle, setWidth_extend hle]
      · rw [setWidth_shrWords hle]
    · cases hz
  · rw [cResult_comparison hop] at hz
    refine ⟨_, binaryExec_comparison hop s _ _, ?_⟩
    rw [readAs_ofTruth, compareWords_extend]
    exact Option.some.inj hz

theorem extended_eq (h : v.ty = .int w s) : v.extended = extend s 64 (v.word w) := by
  obtain ⟨ty, store⟩ := v
  cases h
  rfl

theorem num_outNewL (w : Width) (s : Bool) (k : Integral) :
    (outNewL (.int w s) k).num = readAs s (k.setWidth w.bits) := rfl

/-- Two constants. -/
theorem tryConstFold_num {k m : Integral} (hk : k = extend s 64 (l.word w))
    (hm : m = extend s 64 (r.word w)) {z : Int}
    (hz : cResult s op (l.word w) (r.word w) = some z) :
    ∃ v, tryConstFold op (.int w s) k m = .ret v ∧ v.num = z := by
  obtain ⟨x, hx, hnum⟩ := binaryExec_extend hz
  have hexec : constOpExecOf k (some m) op ((OutTy.int w s).bits / 8) (OutTy.int w s).isSigned =
      .ok (wrapAroundOf op (w.bits / 8) s x) := by
    rw [hk, hm]
    exact congrArg (Except.map _) hx
  refine ⟨outNewL (.int w s) (wrapAroundOf op (w.bits / 8) s x), ?_, ?_⟩
  · unfold tryConstFold
    rw [hexec]
  · rw [num_outNewL, setWidth_wrapAroundOf, hnum]

/-! ## One constant that changes nothing -/

theorem divWords_one (s : Bool) (a : BitVec w.bits) : divWords s a 1#w.bits = a := by
  cases s with
  | true => exact BitVec.sdiv_one
  | false => exact BitVec.udiv_one

theorem shiftWords_zero (s : Bool) (op : OpType) (a : BitVec w.bits) : shiftWords s op a 0 = a := by
  unfold shiftWords shrWords
  split
  · exact BitVec.shiftLeft_zero a
  · split
    · exact BitVec.sshiftRight_zero
    · exact BitVec.ushiftRight_zero a

theorem zero_shiftWords (s : Bool) (op : OpType) (k : Nat) :
    shiftWords s op (0#w.bits) k = 0#w.bits := by
  unfold shiftWords shrWords
  split
  · exact BitVec.zero_shiftLeft k
  · split
    · exact BitVec.zero_sshiftRight
    · exact BitVec.zero_ushiftRight

/-- The right operand changes nothing. -/
theorem noop_rhs {a b : BitVec w.bits} {k : Integral} (hb : b = k.setWidth w.bits)
    (hnoop : constIsNoop op k false = true) {z : Int} (hz : cResult s op a b = some z) :
    readAs s a = z := by
  have hone : (1 : Integral).setWidth w.bits = 1#w.bits := by cases w <;> rfl
  have hones : (-1 : Integral).setWidth w.bits = BitVec.allOnes w.bits := by cases w <;> decide
  cases op with
  | plus | or | xor | minus =>
    obtain rfl : k = 0 := by simpa [constIsNoop] using hnoop
    subst hb
    simpa [cResult, aluWords] using hz
  | shiftl | shiftr =>
    obtain rfl : k = 0 := by simpa [constIsNoop] using hnoop
    subst hb
    simp only [cResult] at hz
    split at hz
    · have hzero : ((0 : Integral).setWidth w.bits).toNat = 0 := by simp
      rw [← Option.some.inj hz, hzero, shiftWords_zero]
    · cases hz
  | multiply =>
    obtain rfl : k = 1 := by simpa [constIsNoop] using hnoop
    subst hb
    rw [hone] at hz
    simpa [cResult, aluWords] using hz
  | and =>
    obtain rfl : k = -1 := by simpa [constIsNoop] using hnoop
    subst hb
    rw [hones] at hz
    simpa [cResult, aluWords] using hz
  | divide =>
    obtain rfl : k = 1 := by simpa [constIsNoop] using hnoop
    subst hb
    obtain ⟨x, hx, rfl⟩ := Option.map_eq_some_iff.1 hz
    unfold idivWords at hx
    split at hx
    · cases hx
    · rw [hone] at hx
      obtain rfl := Option.some.inj hx
      exact congrArg (readAs s) (divWords_one s a).symm
  | _ => cases hnoop

/-- 0 is shifted. -/
theorem cResult_zero_shift (hop : op = .shiftl ∨ op = .shiftr) {b : BitVec w.bits} {z : Int}
    (hz : cResult s op (0#w.bits) b = some z) : z = 0 := by
  rw [cResult_shift hop] at hz
  split at hz
  · rw [← Option.some.inj hz, zero_shiftWords]
    exact (readAs_eq_zero_iff s _).2 rfl
  · cases hz

/-- The left operand changes nothing, unless it is shifted. -/
theorem noop_lhs {a b : BitVec w.bits} {k : Integral} (ha : a = k.setWidth w.bits)
    (hnoop : constIsNoop op k true = true) {z : Int} (hz : cResult s op a b = some z) :
    readAs s b = z ∨ ((op = .shiftl ∨ op = .shiftr) ∧ k = 0 ∧ z = 0) := by
  by_cases hshift : op = .shiftl ∨ op = .shiftr
  · right
    have hk : k = 0 := by rcases hshift with rfl | rfl <;> simpa [constIsNoop] using hnoop
    have hzero : a = 0#w.bits := by
      rw [ha, hk]
      exact BitVec.setWidth_zero _ _
    rw [hzero] at hz
    exact ⟨hshift, hk, cResult_zero_shift hshift hz⟩
  · left
    have hcomm : opIsCommutative op = true := by
      cases op <;> first | rfl | cases hnoop | simp at hshift
    have halu : opIsAlu op = true := by
      cases op <;> first | rfl | cases hnoop | simp at hshift
    rw [cResult_alu halu, aluWords_comm hcomm, ← cResult_alu halu] at hz
    refine noop_rhs ha ?_ hz
    cases op <;> first | exact hnoop | exact absurd hcomm (by decide)

/-! ## Operators that are rewritten -/

theorem toNat_sub_one {k : Integral} (h : 0 < k.toNat) : (k - 1).toNat = k.toNat - 1 := by
  have hone : (1 : Integral).toNat = 1 := rfl
  have hlt := k.isLt
  rw [BitVec.toNat_sub, hone]
  omega

/-- A power of two, and its logarithm. -/
theorem toNat_of_ispow2 {k : Integral} (h : ispow2 k = true) : k.toNat = 2 ^ (log2ll k).toNat := by
  simp only [ispow2, Bool.and_eq_true, bne_iff_ne, ne_eq, beq_iff_eq] at h
  have hne : k.toNat ≠ 0 := fun hk => h.1 (BitVec.eq_of_toNat_eq hk)
  have hand : k.toNat &&& (k.toNat - 1) = 0 := by
    have hzero := congrArg BitVec.toNat h.2
    rwa [BitVec.toNat_and, toNat_sub_one (by omega)] at hzero
  obtain ⟨j, hj⟩ := (Nat.and_sub_one_eq_zero_iff_isPowerOfTwo hne).1 hand
  have hlog : k.toNat.log2 = j := by rw [hj, Nat.log2_two_pow]
  have hj64 : j < 64 := by
    have := k.isLt
    rw [hj] at this
    exact (Nat.pow_lt_pow_iff_right (by omega)).1 this
  have hll : (log2ll k).toNat = j := by
    rw [log2ll, hlog, BitVec.toNat_ofNat]
    omega
  rw [hll, hj]

/-- The same of a constant of an unsigned type. -/
theorem log_of_ispow2 {k : Integral} {b : BitVec w.bits} (h : ispow2 k = true)
    (hk : k = extend false 64 b) :
    ∃ j < w.bits, b.toNat = 2 ^ j ∧ ((log2ll k).setWidth w.bits).toNat = j ∧
      ((k - 1).setWidth w.bits).toNat = 2 ^ j - 1 := by
  have hpow := toNat_of_ispow2 h
  have hnat : k.toNat = b.toNat := by rw [hk, toNat_extend w.bits_le]
  have hlt : (log2ll k).toNat < w.bits := by
    have := b.isLt
    rw [← hnat, hpow] at this
    exact (Nat.pow_lt_pow_iff_right (by omega)).1 this
  have hsmall : w.bits < 2 ^ w.bits := Nat.lt_two_pow_self
  have hpos : 0 < 2 ^ (log2ll k).toNat := Nat.two_pow_pos _
  have hle : 2 ^ (log2ll k).toNat < 2 ^ w.bits := Nat.pow_lt_pow_right (by omega) hlt
  have hbits : 2 ^ w.bits ≤ 2 ^ 64 := Nat.pow_le_pow_right (by omega) w.bits_le
  have hsub : (k - 1).toNat = k.toNat - 1 := toNat_sub_one (by omega)
  refine ⟨(log2ll k).toNat, hlt, hnat.symm.trans hpow, ?_, ?_⟩
  · rw [BitVec.toNat_setWidth, Nat.mod_eq_of_lt (by omega)]
  · rw [BitVec.toNat_setWidth, hsub, hpow, Nat.mod_eq_of_lt (by omega)]

/-- A division by a power of two is a shift. -/
theorem divide_eq_shiftr {a b c : BitVec w.bits} {j : Nat} (hj : j < w.bits) (hb : b.toNat = 2 ^ j)
    (hc : c.toNat = j) {z : Int} (hz : cResult false .divide a b = some z) :
    cResult false .shiftr a c = some z := by
  obtain ⟨x, hx, rfl⟩ := Option.map_eq_some_iff.1 hz
  unfold idivWords at hx
  split at hx
  · cases hx
  · obtain rfl := Option.some.inj hx
    rw [cResult, if_pos (by omega), hc]
    have heq : shiftWords false .shiftr a j = divWords false a b := by
      apply BitVec.eq_of_toNat_eq
      change (a >>> j).toNat = (a / b).toNat
      rw [BitVec.toNat_ushiftRight, BitVec.toNat_udiv, hb, Nat.shiftRight_eq_div_pow]
    rw [heq]
    rfl

/-- A product with a power of two is a shift. -/
theorem multiply_eq_shiftl {a b c : BitVec w.bits} {j : Nat} (hj : j < w.bits)
    (hb : b.toNat = 2 ^ j) (hc : c.toNat = j) :
    cResult false .shiftl a c = cResult false .multiply a b := by
  rw [cResult_shift (Or.inl rfl), if_pos (by omega), hc]
  have heq : shiftWords false .shiftl a j = a * b := by
    apply BitVec.eq_of_toNat_eq
    change (a <<< j).toNat = (a * b).toNat
    rw [BitVec.toNat_shiftLeft, BitVec.toNat_mul, hb, Nat.shiftLeft_eq]
  rw [heq]
  rfl

/-- The remainder of a division by a power of two is in the low bits. -/
theorem modulus_eq_and {a b c : BitVec w.bits} {j : Nat} (hb : b.toNat = 2 ^ j)
    (hc : c.toNat = 2 ^ j - 1) {z : Int} (hz : cResult false .modulus a b = some z) :
    cResult false .and a c = some z := by
  obtain ⟨x, hx, rfl⟩ := Option.map_eq_some_iff.1 hz
  unfold idivWords at hx
  split at hx
  · cases hx
  · obtain rfl := Option.some.inj hx
    have heq : a &&& c = remWords false a b := by
      apply BitVec.eq_of_toNat_eq
      change (a &&& c).toNat = (a % b).toNat
      rw [BitVec.toNat_and, BitVec.toNat_umod, hb, hc, Nat.and_two_pow_sub_one_eq_mod]
    change some (readAs false (a &&& c)) = _
    rw [heq]
    rfl

theorem canonical_word (h : v.ty = .int w s) (hc : v.Canonical) {k : Integral}
    (hk : v.constI? = some k) : k = extend s 64 (v.word w) :=
  (hc k hk).trans (extended_eq h)

/-- An operator and its operands stand for a number. -/
def Computes (w : Width) (s : Bool) (z : Int) (e : OpType × OutVal × OutVal) : Prop :=
  e.2.1.ty = .int w s ∧ e.2.2.ty = .int w s ∧
    cResult s e.1 (e.2.1.word w) (e.2.2.word w) = some z

/-- A constant that is a power of two is one of an unsigned type. -/
def OutVal.PowersFit (w : Width) (v : OutVal) : Prop :=
  ∀ k, v.constI? = some k → ispow2 k = true → k = extend false 64 (v.word w)

theorem OutVal.Canonical.powersFit (hc : v.Canonical) (h : v.ty = .int w false) :
    v.PowersFit w := fun _ hk _ => canonical_word h hc hk

theorem tryShiftConv_computes (hop : op = .multiply ∨ op = .divide) (hl : l.ty = .int w s)
    (hr : r.ty = .int w s) (hcl : s = false → l.PowersFit w) (hcr : s = false → r.PowersFit w)
    {z : Int}
    (hz : cResult s op (l.word w) (r.word w) = some z) :
    Computes w s z (tryShiftConv op l r) := by
  have hkeep : Computes w s z (op, l, r) := ⟨hl, hr, hz⟩
  unfold tryShiftConv
  rw [hl]
  cases s with
  | true => exact hkeep
  | false =>
    simp only [OutTy.isSigned, Bool.false_eq_true, if_false]
    rcases hop with rfl | rfl
    · simp only [reduceCtorEq, if_false, if_true]
      cases hk : l.constI? with
      | some k =>
        simp only
        split
        · rename_i hpow
          obtain ⟨j, hj, hb, hlog, -⟩ := log_of_ispow2 hpow (hcl rfl k hk hpow)
          refine ⟨hr, rfl, ?_⟩
          rw [cResult_alu rfl, aluWords_comm rfl, ← cResult_alu rfl] at hz
          exact (multiply_eq_shiftl hj hb hlog).trans hz
        · exact hkeep
      | none =>
        cases hm : r.constI? with
        | none => exact hkeep
        | some k =>
          simp only
          split
          · rename_i hpow
            obtain ⟨j, hj, hb, hlog, -⟩ := log_of_ispow2 hpow (hcr rfl k hm hpow)
            exact ⟨hl, hr, (multiply_eq_shiftl hj hb hlog).trans hz⟩
          · exact hkeep
    · simp only [if_true]
      cases hm : r.constI? with
      | none => exact hkeep
      | some k =>
        simp only
        split
        · rename_i hpow
          obtain ⟨j, hj, hb, hlog, -⟩ := log_of_ispow2 hpow (hcr rfl k hm hpow)
          exact ⟨hl, hr, divide_eq_shiftr hj hb hlog hz⟩
        · exact hkeep

theorem tryTruncConv_computes (hl : l.ty = .int w s) (hr : r.ty = .int w s) (hcr : r.Canonical)
    {z : Int} (hz : cResult s .modulus (l.word w) (r.word w) = some z) :
    Computes w s z (tryTruncConv .modulus l r) := by
  have hkeep : Computes w s z (.modulus, l, r) := ⟨hl, hr, hz⟩
  unfold tryTruncConv
  rw [hl]
  cases s with
  | true => exact hkeep
  | false =>
    simp only [OutTy.isSigned, Bool.false_eq_true, if_false]
    cases hm : r.constI? with
    | none => exact hkeep
    | some k =>
      simp only
      split
      · rename_i hpow
        obtain ⟨j, -, hb, -, hsub⟩ := log_of_ispow2 hpow (canonical_word hr hcr hm)
        exact ⟨hl, hr, modulus_eq_and hb hsub hz⟩
      · exact hkeep

/-- `try_shift_conv` and `try_trunc_conv` keep the value. -/
theorem rewriteOp_computes (hl : l.ty = .int w s) (hr : r.ty = .int w s) (hcl : l.Canonical)
    (hcr : r.Canonical) {z : Int} (hz : cResult s op (l.word w) (r.word w) = some z) :
    Computes w s z (rewriteOp o op l r) := by
  have hkeep : Computes w s z (op, l, r) := ⟨hl, hr, hz⟩
  cases op with
  | multiply =>
    simp only [rewriteOp]
    split
    · exact tryShiftConv_computes (Or.inl rfl) hl hr
        (fun hs => hcl.powersFit (hs ▸ hl)) (fun hs => hcr.powersFit (hs ▸ hr)) hz
    · exact hkeep
  | divide =>
    simp only [rewriteOp]
    split
    · exact tryShiftConv_computes (Or.inr rfl) hl hr
        (fun hs => hcl.powersFit (hs ▸ hl)) (fun hs => hcr.powersFit (hs ▸ hr)) hz
    · exact hkeep
  | modulus =>
    simp only [rewriteOp]
    split
    · exact tryTruncConv_computes hl hr hcr hz
    · exact hkeep
  | _ => exact hkeep

/-! ## The ways through `out_op` -/

/-- What the folding does. -/
theorem constFolding_cases (o : OutOpts) (op : OpType) (l r : OutVal) :
    constFolding o op l r = .go ∨
    (∃ k m, l.constI? = some k ∧ r.constI? = some m ∧ calcPtrStep l.ty = 1 ∧
      calcPtrStep r.ty = 1 ∧ constFolding o op l r = tryConstFold op l.ty k m) ∨
    (∃ k, o.constFold = true ∧ l.constI? = some k ∧ r.constI? = none ∧
      constIsNoop op k true = true ∧ constFolding o op l r = .ret r) ∨
    (∃ k, o.constFold = true ∧ l.constI? = none ∧ r.constI? = some k ∧
      constIsNoop op k false = true ∧ constFolding o op l r = .ret l) := by
  unfold constFolding
  cases hfold : o.constFold with
  | false => exact Or.inl rfl
  | true =>
    simp only [if_true]
    cases hl : l.constI? with
    | some k =>
      cases hr : r.constI? with
      | some m =>
        simp only
        split
        · rename_i hsteps
          exact Or.inr (Or.inl ⟨k, m, rfl, rfl, hsteps.1, hsteps.2, rfl⟩)
        · exact Or.inl rfl
      | none =>
        simp only
        split
        · rename_i hnoop
          exact Or.inr (Or.inr (Or.inl ⟨k, trivial, rfl, trivial, hnoop, rfl⟩))
        · exact Or.inl rfl
    | none =>
      cases hr : r.constI? with
      | some m =>
        simp only
        split
        · rename_i hnoop
          exact Or.inr (Or.inr (Or.inr ⟨m, trivial, trivial, rfl, hnoop, rfl⟩))
        · exact Or.inl rfl
      | none => exact Or.inl rfl

theorem tryMemOffset_of_ne (o : OutOpts) (l r : OutVal) (hplus : op ≠ .plus)
    (hminus : op ≠ .minus) : tryMemOffset o op l r = none := by
  cases h : tryMemOffset o op l r with
  | none => rfl
  | some v =>
    rcases tryMemOffset_cases h with ⟨k, -, -, hop, -⟩ | ⟨k, -, -, hop, -⟩
    · rcases hop with hop | hop
      · exact absurd hop hplus
      · exact absurd hop hminus
    · exact absurd hop hplus

theorem outOpWith_of_mem {call : OutOpCall} (h : tryMemOffset o op l r = some v) :
    outOpWith call o op l r = some v := by
  unfold outOpWith
  rw [h]

theorem outOpWith_of_ret {call : OutOpCall} (hmem : tryMemOffset o op l r = none)
    (hret : constFolding o op l r = .ret v) : outOpWith call o op l r = some v := by
  unfold outOpWith
  rw [hmem, hret]

theorem outOpWith_go {call : OutOpCall} (hop : op = .plus ∨ op = .minus)
    (hmem : tryMemOffset o op l r = none) (hgo : constFolding o op l r = .go) :
    outOpWith call o op l r = (applyPtrStep call l r).bind fun e =>
      (implOp o op e.1 e.2.1).bind fun result =>
        match e.2.2 with
        | some div => call .divide result div
        | none => some result := by
  unfold outOpWith
  rw [hmem, hgo]
  rcases hop with rfl | rfl <;> rfl

/-! ## `out_op` -/

/-- With no shortcut, there is the instruction of the operator as it is rewritten. -/
theorem outOp_go (hl : l.ty = .int w s) (hr : r.ty = .int w s)
    (hmem : tryMemOffset o op l r = none) (hfold : constFolding o op l r = .go) :
    outOp o op l r =
      implOp o (rewriteOp o op l r).1 (rewriteOp o op l r).2.1 (rewriteOp o op l r).2.2 := by
  have hstep : ∀ call, applyPtrStep call l r = some (l, r, none) := by
    intro call
    simp only [applyPtrStep, isValPtr, hl, hr]
  unfold outOp outOpWith
  rw [hmem, hfold]
  cases op with
  | plus | minus =>
    simp only [hstep, Option.bind_eq_bind, Option.bind_some, rewriteOp]
    cases implOp o _ l r <;> rfl
  | _ => rfl

/-- What the folding gives, if it gives anything. -/
theorem constFolding_num (hl : l.ty = .int w s) (hr : r.ty = .int w s) (hcl : l.Canonical)
    (hcr : r.Canonical) {z : Int} (hz : cResult s op (l.word w) (r.word w) = some z) :
    constFolding o op l r = .go ∨
      ∃ v, constFolding o op l r = .ret v ∧
        (v.num = z ∨ (o.constFold = true ∧ (op = .shiftl ∨ op = .shiftr) ∧ l.constI? = some 0 ∧
          r.constI? = none ∧ v = r ∧ z = 0)) := by
  unfold constFolding
  cases hfold : o.constFold with
  | false => exact Or.inl rfl
  | true =>
    simp only [if_true]
    cases hk : l.constI? with
    | some k =>
      cases hm : r.constI? with
      | some m =>
        right
        have hsteps : calcPtrStep l.ty = 1 ∧ calcPtrStep r.ty = 1 := by
          rw [hl, hr]
          exact ⟨rfl, rfl⟩
        simp only [hsteps, hl]
        obtain ⟨v, hv, hnum⟩ := tryConstFold_num (canonical_word hl hcl hk)
          (canonical_word hr hcr hm) hz
        exact ⟨v, hv, Or.inl hnum⟩
      | none =>
        simp only
        split
        · rename_i hnoop
          right
          have hword : l.word w = k.setWidth w.bits := by rw [OutVal.word, val_of_constI? hk]
          refine ⟨r, rfl, ?_⟩
          rcases noop_lhs hword hnoop hz with hnum | ⟨hop, rfl, hzero⟩
          · exact Or.inl ((OutVal.num_eq hr).trans hnum)
          · exact Or.inr ⟨trivial, hop, rfl, trivial, rfl, hzero⟩
        · exact Or.inl rfl
    | none =>
      cases hm : r.constI? with
      | none => exact Or.inl rfl
      | some m =>
        simp only
        split
        · rename_i hnoop
          have hword : r.word w = m.setWidth w.bits := by rw [OutVal.word, val_of_constI? hm]
          exact Or.inr ⟨l, rfl, Or.inl ((OutVal.num_eq hl).trans (noop_rhs hword hnoop hz))⟩
        · exact Or.inl rfl

theorem num_eq_zero_iff (h : v.ty = .int w s) : v.num = 0 ↔ v.bits = 0 := by
  obtain ⟨ty, store⟩ := v
  cases h
  exact readAs_eq_zero_iff s _

/-- A shift of the constant 0 gives its count. -/
theorem outOp_shift_zero (hfold : o.constFold = true) (hop : op = .shiftl ∨ op = .shiftr)
    (hl : l.constI? = some 0) (hr : r.constI? = none) :
    outOp o op l r = some r ∧ constFolding o op l r = .ret r := by
  have hret : constFolding o op l r = .ret r := by
    have hnoop : constIsNoop op 0 true = true := by rcases hop with rfl | rfl <;> rfl
    unfold constFolding
    simp only [hfold, hl, hr, hnoop, if_true]
  have hmem : tryMemOffset o op l r = none := by
    refine tryMemOffset_of_ne o l r ?_ ?_ <;> rcases hop with rfl | rfl <;> decide
  exact ⟨outOpWith_of_ret hmem hret, hret⟩

/-- What comes out if the constant 0 is not shifted. -/
theorem outOp_num_iff (hl : l.ty = .int w s) (hr : r.ty = .int w s) (hcl : l.Canonical)
    (hcr : r.Canonical) {z : Int} (hz : cResult s op (l.word w) (r.word w) = some z)
    (hshift : ¬(o.constFold = true ∧ (op = .shiftl ∨ op = .shiftr) ∧ l.constI? = some 0 ∧
      r.constI? = none)) :
    (∃ v, outOp o op l r = some v ∧ v.num = z) ↔ Printed o op l r := by
  unfold Printed
  cases hmem : tryMemOffset o op l r with
  | some v =>
    have hout : outOp o op l r = some v := outOpWith_of_mem hmem
    simp only [reduceCtorEq, false_implies, iff_true]
    exact ⟨v, hout, tryMemOffset_num hl hr hmem hz⟩
  | none =>
    rcases constFolding_num (o := o) hl hr hcl hcr hz with hgo | ⟨v, hret, hv⟩
    · rw [outOp_go hl hr hmem hgo]
      obtain ⟨hl', hr', hz'⟩ := rewriteOp_computes (o := o) hl hr hcl hcr hz
      constructor
      · rintro ⟨v, hv, -⟩ - -
        cases hp : operandsPrinted o (rewriteOp o op l r).1 (rewriteOp o op l r).2.1
            (rewriteOp o op l r).2.2 with
        | true => rfl
        | false =>
          rw [implOp_none hp] at hv
          cases hv
      · intro hp
        exact implOp_num hl' hr' (hp rfl hgo) hz'
    · have hout : outOp o op l r = some v := outOpWith_of_ret hmem hret
      have hnum : v.num = z := hv.resolve_right (fun h => hshift ⟨h.1, h.2.1, h.2.2.1, h.2.2.2.1⟩)
      simp only [hret, reduceCtorEq, false_implies, implies_true, iff_true]
      exact ⟨v, hout, hnum⟩

end Shortcuts

end Ucc.Cc1.Out
