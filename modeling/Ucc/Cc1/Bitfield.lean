/-
  Cc1/Bitfield.lean --- reading and writing a bit-field.

  Source: src/cc1/out/bitfield.c, out_cast in src/cc1/out/out.c.

  The masks are made by the compiler itself, from `-1UL << n`, which C leaves
  undefined from 64 on; a field that ends at the top of a 64-bit word gets there.
  What is read and written is otherwise the bits of the field, whatever is in the
  other bits of the word.
-/
import Ucc.Cc1.OutOpSound
import Ucc.Lib.BitRange

set_option autoImplicit false

namespace Ucc.Cc1.Out

open Ucc.Lib

/-! ## `bitfield.c` -/

/-- `struct vbitfield`: "!!width iif bitfield". -/
structure VBitfield where
  w : Width
  isSigned : Bool
  off : Nat
  nbits : Nat
  pos : 0 < nbits
  fits : off + nbits ≤ w.bits
  deriving DecidableEq, Repr

/-- `master_ty` -/
def VBitfield.ty (bf : VBitfield) : OutTy := .int bf.w bf.isSigned

/-- `-1UL << n`, computed by the compiler. -/
def hostOnes (n : Nat) : Option Integral :=
  if n < 64 then some (BitVec.allOnes 64 <<< n) else none

/-- What `out_cast` converts: an offset is applied "in the current type", and a value in
memory is loaded. -/
def castOperand (v : OutVal) (ty : OutTy) : OutVal :=
  match v.store with
  | .reg _ offset => if offset ≠ 0 ∧ v.ty.bits ≠ ty.bits then v.toReg else v
  | .spilt _ | .regoff _ _ => v.toReg
  | _ => v

/-- `out_cast` to an integer, from an integer or a pointer. -/
def outCast (v : OutVal) (ty : OutTy) : OutVal :=
  let v := castOperand v ty
  if v.ty.bits < ty.bits then inReg ty v.extended else { v with ty := ty }

/-- `out_bitfield_to_scalar` -/
def outBitfieldToScalar (o : OutOpts) (bf : VBitfield) (scalar : OutVal) : Option OutVal := do
  let scalar ← outOp o .shiftr scalar (outNewL bf.ty (BitVec.ofNat 64 bf.off))
  let ones ← hostOnes bf.nbits
  let scalar ← outOp o .and scalar (outNewL bf.ty (~~~ones))
  if bf.isSigned then
    -- "if it's signed we need to sign extend"
    let nshift := outNewL bf.ty (BitVec.ofNat 64 (bf.w.bits - bf.nbits))
    let scalar ← outOp o .shiftl scalar nshift
    outOp o .shiftr scalar nshift
  else some scalar

/-- `out_bitfield_scalar_merge`; `scratch` is what is loaded from the store. -/
def outBitfieldScalarMerge (o : OutOpts) (bf : VBitfield) (scalar scratch : OutVal) :
    Option OutVal := do
  let scalar := outCast scalar bf.ty
  let maskLeading1s ← hostOnes (bf.off + bf.nbits)
  let back ← hostOnes bf.off
  let scratch ← outOp o .and scratch (outNewL bf.ty (maskLeading1s ||| ~~~back))
  let ones ← hostOnes bf.nbits
  let scalar ← outOp o .and scalar (outNewL bf.ty (~~~ones))
  let scalar ← outOp o .shiftl scalar (outNewL bf.ty (BitVec.ofNat 64 bf.off))
  outOp o .or scalar scratch

/-! ## What the laws are -/

/-- The shifts of `-1UL`. -/
def VBitfield.hostShifts (bf : VBitfield) : List Nat := [bf.nbits, bf.off + bf.nbits, bf.off]

/-- A number modulo `2 ^ nbits`, with the sign of the field. -/
def VBitfield.valueOf (bf : VBitfield) (z : Int) : Int :=
  if bf.isSigned then z.bmod (2 ^ bf.nbits) else z % 2 ^ bf.nbits

/-- The value that is merged into the old word is read from it, and the bits outside the
field are the old ones. -/
def GetPut (o : OutOpts) (bf : VBitfield) (v : OutVal) (old : Integral) : Prop :=
  (∀ n ∈ bf.hostShifts, n < 64) ∧
  ∃ m, outBitfieldScalarMerge o bf v (inReg bf.ty old) = some m ∧
    (∀ word : Integral, word.setWidth bf.w.bits = m.word bf.w →
      ∃ r, outBitfieldToScalar o bf (inReg bf.ty word) = some r ∧ r.num = bf.valueOf v.num) ∧
    ∀ j < bf.w.bits, j < bf.off ∨ bf.off + bf.nbits ≤ j →
      (m.word bf.w).getLsbD j = old.getLsbD j

/-- The value is masked by an instruction whose operands are the value and the mask; it may
still be a label there. -/
def ScalarPrinted (o : OutOpts) (bf : VBitfield) (v : OutVal) : Prop :=
  operandsPrinted o .and (outCast v bf.ty) (outNewL bf.ty (lowBits 64 bf.nbits)) = true

/-! ## Operators on words -/

section Words

variable {o : OutOpts} {op : OpType} {w : Width} {s : Bool} {l r v : OutVal}

/-- The value stands for a word, in a register or as a constant. -/
def OutVal.Holds (v : OutVal) (w : Width) (s : Bool) (x : BitVec w.bits) : Prop :=
  v.ty = .int w s ∧ v.isSimple = true ∧ v.word w = x

theorem holds_inReg {w : Width} (s : Bool) {x : Integral} {y : BitVec w.bits}
    (h : x.setWidth w.bits = y) : (inReg (.int w s) x).Holds w s y :=
  ⟨rfl, rfl, (word_inReg _ x w).trans h⟩

theorem holds_outNewL {w : Width} (s : Bool) (k : Integral) :
    (outNewL (.int w s) k).Holds w s (k.setWidth w.bits) := ⟨rfl, rfl, rfl⟩

/-- The bits of two constants. -/
theorem tryConstFold_bitwise (hop : op = .and ∨ op = .or) (k m : Integral) :
    ∃ v, tryConstFold op (.int w s) k m = .ret v ∧
      v.Holds w s (aluWords op (k.setWidth w.bits) (m.setWidth w.bits)) := by
  refine ⟨outNewL (.int w s) (wrapAroundOf op (w.bits / 8) s (aluWords op k m)), ?_, rfl, rfl, ?_⟩
  · rcases hop with rfl | rfl <;> rfl
  · rw [← setWidth_aluWords w.bits_le, ← setWidth_wrapAroundOf op w s]
    rfl

theorem tryConstFold_shiftl (k m : Integral) :
    ∃ v, tryConstFold .shiftl (.int w s) k m = .ret v ∧
      v.Holds w s (k.setWidth w.bits <<< m.toNat) := by
  refine ⟨outNewL (.int w s) (wrapAroundOf .shiftl (w.bits / 8) s (k <<< m.toNat)), rfl, rfl, rfl,
    ?_⟩
  rw [← setWidth_shiftLeft_of_le w.bits_le, ← setWidth_wrapAroundOf .shiftl w s]
  rfl

/-- An instruction on the bits. -/
theorem implOp_bitwise (hop : op = .and ∨ op = .or) (hl : l.ty = .int w s) (hr : r.ty = .int w s)
    (hp : operandsPrinted o op l r = true) :
    ∃ v, implOp o op l r = some v ∧ v.Holds w s (aluWords op (l.word w) (r.word w)) ∧
      v.constI? = none := by
  have hsl := same_checkIvfp l
  have hsr := same_checkIvfp r
  have himpl : implOp o op l r = implAlu o op l.checkIvfp r.checkIvfp := by
    rcases hop with rfl | rfl <;> rfl
  have hp' : ((aluOperands o op l.checkIvfp r.checkIvfp).1.isReg &&
      (aluOperands o op l.checkIvfp r.checkIvfp).2.readable) = true := by
    rcases hop with rfl | rfl <;> exact hp
  obtain ⟨x, hx, hword⟩ := implAlu_word (hsl.1.trans hl) (hsr.1.trans hr) hp'
  rw [hsl.word, hsr.word] at hword
  exact ⟨_, himpl.trans hx, holds_inReg s hword, rfl⟩

theorem rewriteOp_bitwise (hop : op = .and ∨ op = .or) (o : OutOpts) (l r : OutVal) :
    rewriteOp o op l r = (op, l, r) := by
  rcases hop with rfl | rfl <;> rfl

/-- `&` and `|`. -/
theorem outOp_bitwise (hop : op = .and ∨ op = .or) (hl : l.ty = .int w s) (hr : r.ty = .int w s)
    (hp : operandsPrinted o op l r = true)
    (hsl : constFolding o op l r = .ret l → l.isSimple = true)
    (hsr : constFolding o op l r = .ret r → r.isSimple = true) :
    ∃ v, outOp o op l r = some v ∧ v.Holds w s (aluWords op (l.word w) (r.word w)) ∧
      (l.constI? = none → v.constI? = none) := by
  have hmem : tryMemOffset o op l r = none := by
    refine tryMemOffset_of_ne o l r ?_ ?_ <;> rcases hop with rfl | rfl <;> decide
  have hcomm : opIsCommutative op = true := by rcases hop with rfl | rfl <;> rfl
  have hneutral : ∀ {k b}, constIsNoop op k b = true → ∀ a : BitVec w.bits,
      aluWords op a (k.setWidth w.bits) = a := by
    intro k b h a
    rcases hop with rfl | rfl
    · obtain rfl : k = -1 := by simpa [constIsNoop] using h
      have hones : (-1 : Integral).setWidth w.bits = BitVec.allOnes w.bits := by
        cases w <;> decide
      rw [hones]
      exact BitVec.and_allOnes
    · obtain rfl : k = 0 := by simpa [constIsNoop] using h
      have hzero : (0 : Integral).setWidth w.bits = 0#w.bits := BitVec.setWidth_zero _ _
      rw [hzero]
      exact BitVec.or_zero
  rcases constFolding_cases o op l r with hgo | ⟨k, m, hk, hm, -, -, heq⟩ |
      ⟨k, -, hk, hnone, h, hret⟩ | ⟨k, -, -, hk, h, hret⟩
  · rw [outOp_go hl hr hmem hgo, rewriteOp_bitwise hop]
    obtain ⟨v, hv, hholds, hnone⟩ := implOp_bitwise hop hl hr hp
    exact ⟨v, hv, hholds, fun _ => hnone⟩
  · rw [hl] at heq
    obtain ⟨v, hv, hholds⟩ := tryConstFold_bitwise (w := w) (s := s) hop k m
    refine ⟨v, outOpWith_of_ret hmem (heq.trans hv), ?_, fun h => ?_⟩
    · rwa [OutVal.word, OutVal.word, val_of_constI? hk, val_of_constI? hm]
    · rw [hk] at h
      cases h
  · refine ⟨r, outOpWith_of_ret hmem hret, ⟨hr, hsr hret, ?_⟩, fun _ => hnone⟩
    rw [aluWords_comm hcomm, OutVal.word, OutVal.word, val_of_constI? hk, hneutral h]
  · refine ⟨l, outOpWith_of_ret hmem hret, ⟨hl, hsl hret, ?_⟩, id⟩
    rw [OutVal.word, OutVal.word, val_of_constI? hk, hneutral h]

/-- The same of registers and constants. -/
theorem outOp_bitwise_holds {x y : BitVec w.bits} (hop : op = .and ∨ op = .or)
    (hl : l.Holds w s x) (hr : r.Holds w s y) :
    ∃ v, outOp o op l r = some v ∧ v.Holds w s (aluWords op x y) ∧
      (l.constI? = none → v.constI? = none) := by
  obtain ⟨hlty, hls, rfl⟩ := hl
  obtain ⟨hrty, hrs, rfl⟩ := hr
  refine outOp_bitwise hop hlty hrty (operandsPrinted_simple ?_ hls hrs) (fun _ => hls) fun _ => hrs
  rcases hop with rfl | rfl <;> rfl

/-- A shift by a constant. -/
theorem outOp_shift_holds (op : OpType) {x : BitVec w.bits} {k : Nat} (hop : op = .shiftl ∨ op = .shiftr)
    (hl : l.Holds w s x) (hk : k < w.bits) (hconst : op = .shiftl ∨ l.constI? = none) :
    ∃ v, outOp o op l (outNewL (.int w s) (BitVec.ofNat 64 k)) = some v ∧
      v.Holds w s (shiftWords s op x k) ∧ (l.constI? = none → v.constI? = none) := by
  obtain ⟨hty, hsimple, rfl⟩ := hl
  have hnat : (BitVec.ofNat 64 k).toNat = k := by
    have := w.bits_le
    rw [BitVec.toNat_ofNat]
    omega
  have hcount : ((outNewL (.int w s) (BitVec.ofNat 64 k)).word w).toNat = k := by
    have hlt : k < 2 ^ w.bits := hk.trans Nat.lt_two_pow_self
    change ((BitVec.ofNat 64 k).setWidth w.bits).toNat = k
    rw [BitVec.toNat_setWidth, hnat, Nat.mod_eq_of_lt hlt]
  have hmem : tryMemOffset o op l (outNewL (.int w s) (BitVec.ofNat 64 k)) = none := by
    refine tryMemOffset_of_ne o l _ ?_ ?_ <;> rcases hop with rfl | rfl <;> decide
  rcases constFolding_cases o op l (outNewL (.int w s) (BitVec.ofNat 64 k)) with hgo |
      ⟨m, n, hm, hn, -, -, heq⟩ | ⟨m, -, -, hn, -⟩ | ⟨n, -, -, hn, h, hret⟩
  · have himpl : outOp o op l (outNewL (.int w s) (BitVec.ofNat 64 k)) =
        x86Shift op l.checkIvfp (outNewL (.int w s) (BitVec.ofNat 64 k)).checkIvfp := by
      rw [outOp_go hty rfl hmem hgo]
      rcases hop with rfl | rfl <;> rfl
    have hsl := same_checkIvfp l
    have hsr := same_checkIvfp (outNewL (.int w s) (BitVec.ofNat 64 k))
    obtain ⟨y, hy, hword⟩ := x86Shift_word op (hsl.1.trans hty)
      (isReg_toRegMem_of_simple (isSimple_checkIvfp hsimple)) (by rw [hsr.word, hcount]; exact hk)
    rw [hsl.word, hsr.word, hcount] at hword
    exact ⟨_, himpl.trans hy, holds_inReg s hword, fun _ => rfl⟩
  · obtain rfl : op = .shiftl := hconst.resolve_right fun h => by rw [hm] at h; cases h
    obtain rfl : BitVec.ofNat 64 k = n := Option.some.inj hn
    rw [hty] at heq
    obtain ⟨v, hv, hholds⟩ := tryConstFold_shiftl (w := w) (s := s) m (BitVec.ofNat 64 k)
    refine ⟨v, outOpWith_of_ret hmem (heq.trans hv), ?_, fun h => ?_⟩
    · rw [hnat] at hholds
      rwa [OutVal.word, val_of_constI? hm]
    · rw [hm] at h
      cases h
  · cases hn
  · obtain rfl : BitVec.ofNat 64 k = n := Option.some.inj hn
    have hzero : BitVec.ofNat 64 k = 0 := by
      rcases hop with rfl | rfl <;> simpa [constIsNoop] using h
    obtain rfl : k = 0 := by
      rw [← hnat, hzero]
      rfl
    refine ⟨l, outOpWith_of_ret hmem hret, ⟨hty, hsimple, ?_⟩, id⟩
    rw [shiftWords_zero]

end Words

/-! ## The two directions -/

section Fields

variable {o : OutOpts} {bf : VBitfield} {v : OutVal}

theorem hostOnes_of_lt {n : Nat} (h : n < 64) : hostOnes n = some (BitVec.allOnes 64 <<< n) :=
  if_pos h

/-- The mask of the low bits. -/
theorem holds_mask (w : Width) (s : Bool) (n : Nat) :
    (outNewL (.int w s) (lowBits 64 n)).Holds w s (lowBits w.bits n) := by
  have h := holds_outNewL (w := w) s (lowBits 64 n)
  rwa [setWidth_lowBits w.bits_le] at h

/-- A field is read. -/
theorem outBitfieldToScalar_holds (bf : VBitfield) (h : bf.nbits < 64) (word : Integral) :
    ∃ r, outBitfieldToScalar o bf (inReg bf.ty word) = some r ∧
      r.Holds bf.w bf.isSigned
        (readBits bf.isSigned bf.off bf.nbits (word.setWidth bf.w.bits)) := by
  have hpos := bf.pos
  have hfits := bf.fits
  obtain ⟨v₁, h₁, hv₁, hc₁⟩ := outOp_shift_holds (o := o) .shiftr (k := bf.off)
    (Or.inr rfl) (holds_inReg (w := bf.w) bf.isSigned (x := word) rfl) (by omega) (Or.inr rfl)
  obtain ⟨v₂, h₂, hv₂, hc₂⟩ := outOp_bitwise_holds (o := o) (Or.inl rfl) hv₁
    (holds_mask bf.w bf.isSigned bf.nbits)
  have hmask : ~~~(BitVec.allOnes 64 <<< bf.nbits) = lowBits 64 bf.nbits := rfl
  unfold outBitfieldToScalar readBits VBitfield.ty
  rw [h₁, hostOnes_of_lt h]
  simp only [Option.bind_eq_bind, Option.bind_some, hmask, h₂]
  cases hs : bf.isSigned with
  | false =>
    rw [hs] at hv₂
    exact ⟨v₂, rfl, hv₂⟩
  | true =>
    rw [hs] at hv₂
    obtain ⟨v₃, h₃, hv₃, hc₃⟩ := outOp_shift_holds (o := o) .shiftl
      (k := bf.w.bits - bf.nbits) (Or.inl rfl) hv₂ (by omega) (Or.inl rfl)
    obtain ⟨v₄, h₄, hv₄, -⟩ := outOp_shift_holds (o := o) .shiftr
      (k := bf.w.bits - bf.nbits) (Or.inr rfl) hv₃ (by omega) (Or.inr (hc₃ (hc₂ (hc₁ rfl))))
    simp only [if_true, h₃, Option.bind_some]
    exact ⟨v₄, h₄, hv₄⟩

/-! ## The value that is stored -/

theorem same_castOperand (v : OutVal) (ty : OutTy) : v.Same (castOperand v ty) := by
  unfold castOperand
  split
  · split
    · exact same_toReg v
    · exact .refl v
  · exact same_toReg v
  · exact same_toReg v
  · exact .refl v

theorem outCast_ty (v : OutVal) (ty : OutTy) : (outCast v ty).ty = ty := by
  unfold outCast
  simp only
  split
  · rfl
  · rfl

theorem num_of_same {u : OutVal} (h : v.Same u) : u.num = v.num := by
  obtain ⟨uty, ustore⟩ := u
  obtain ⟨vty, vstore⟩ := v
  obtain ⟨hty, hval⟩ := h
  cases hty
  unfold OutVal.num OutVal.bits
  rw [hval]

/-- The bits of a value that is cast. -/
theorem outCast_word (v : OutVal) (w : Width) (s : Bool) :
    (outCast v (.int w s)).word w = BitVec.ofInt w.bits v.num := by
  rw [← num_of_same (same_castOperand v (.int w s))]
  unfold outCast
  generalize castOperand v (.int w s) = u
  simp only
  split
  · rw [word_inReg, OutVal.extended, ← ofInt_readAs w.bits_le u.ty.isSigned,
      readAs_extend u.ty.bits_le]
    rfl
  · rename_i hle
    have hbits : w.bits ≤ u.ty.bits := Nat.le_of_not_lt hle
    change u.store.val.setWidth w.bits = _
    rw [OutVal.num, ofInt_readAs hbits, OutVal.bits, BitVec.setWidth_setWidth_of_le _ hbits]

/-- The mask is not all ones. -/
theorem lowBits_ne {n : Nat} (h : n < 64) : lowBits 64 n ≠ -1 := by
  intro heq
  have hbit := congrArg (fun x : Integral => x.getLsbD n) heq
  simp only [getLsbD_lowBits, lt_irrefl, and_false, decide_false] at hbit
  have hones : (-1 : Integral) = BitVec.allOnes 64 := by decide
  rw [hones, BitVec.getLsbD_allOnes, decide_eq_true h] at hbit
  cases hbit

/-- The value is masked. -/
theorem outOp_and_mask {l : OutVal} (hl : l.ty = bf.ty) (h : bf.nbits < 64)
    (hp : operandsPrinted o .and l (outNewL bf.ty (lowBits 64 bf.nbits)) = true) :
    ∃ u, outOp o .and l (outNewL bf.ty (lowBits 64 bf.nbits)) = some u ∧
      u.Holds bf.w bf.isSigned (l.word bf.w &&& lowBits bf.w.bits bf.nbits) := by
  have hkeeps : constFolding o .and l (outNewL bf.ty (lowBits 64 bf.nbits)) = .ret l →
      l.isSimple = true := by
    intro hret
    rcases constFolding_cases o .and l (outNewL bf.ty (lowBits 64 bf.nbits)) with hgo |
        ⟨k, -, hk, -⟩ | ⟨k, -, hk, -⟩ | ⟨k, -, -, hk, hnoop, -⟩
    · rw [hret] at hgo
      cases hgo
    · simp [OutVal.isSimple, hk]
    · simp [OutVal.isSimple, hk]
    · obtain rfl : lowBits 64 bf.nbits = k := Option.some.inj hk
      exact absurd (by simpa [constIsNoop] using hnoop) (lowBits_ne h)
  obtain ⟨u, hu, hholds, -⟩ := outOp_bitwise (Or.inl rfl) hl rfl hp hkeeps fun _ => rfl
  have hmask : (outNewL bf.ty (lowBits 64 bf.nbits)).word bf.w = lowBits bf.w.bits bf.nbits :=
    (holds_mask bf.w bf.isSigned bf.nbits).2.2
  rw [hmask] at hholds
  exact ⟨u, hu, hholds⟩

/-- A field is written. -/
theorem outBitfieldScalarMerge_holds (h : bf.off + bf.nbits < 64) (hp : ScalarPrinted o bf v)
    (old : Integral) :
    ∃ m, outBitfieldScalarMerge o bf v (inReg bf.ty old) = some m ∧
      m.Holds bf.w bf.isSigned (writeBits bf.off bf.nbits (old.setWidth bf.w.bits)
        ((outCast v bf.ty).word bf.w)) := by
  have hpos := bf.pos
  have hfits := bf.fits
  have hscratch : (inReg bf.ty old).Holds bf.w bf.isSigned (old.setWidth bf.w.bits) :=
    holds_inReg bf.isSigned rfl
  have hrm : (outNewL bf.ty (BitVec.allOnes 64 <<< (bf.off + bf.nbits) ||| lowBits 64 bf.off)).Holds
      bf.w bf.isSigned
      (BitVec.allOnes bf.w.bits <<< (bf.off + bf.nbits) ||| lowBits bf.w.bits bf.off) := by
    have hm := holds_outNewL (w := bf.w) bf.isSigned
      (BitVec.allOnes 64 <<< (bf.off + bf.nbits) ||| lowBits 64 bf.off)
    rwa [BitVec.setWidth_or, setWidth_lowBits bf.w.bits_le,
      setWidth_allOnes_shiftLeft bf.w.bits_le] at hm
  obtain ⟨v₁, h₁, hv₁, -⟩ := outOp_bitwise_holds (o := o) (Or.inl rfl) hscratch hrm
  obtain ⟨v₂, h₂, hv₂⟩ := outOp_and_mask (outCast_ty v bf.ty) (by omega) hp
  obtain ⟨v₃, h₃, hv₃, -⟩ := outOp_shift_holds (o := o) .shiftl (k := bf.off)
    (Or.inl rfl) hv₂ (by omega) (Or.inl rfl)
  obtain ⟨v₄, h₄, hv₄, -⟩ := outOp_bitwise_holds (o := o) (Or.inr rfl) hv₃ hv₁
  refine ⟨v₄, ?_, hv₄⟩
  unfold outBitfieldScalarMerge
  rw [hostOnes_of_lt h, hostOnes_of_lt (n := bf.off) (by omega),
    hostOnes_of_lt (n := bf.nbits) (by omega)]
  simp only [Option.bind_eq_bind, Option.bind_some]
  change (outOp o .and (inReg bf.ty old)
    (outNewL bf.ty (BitVec.allOnes 64 <<< (bf.off + bf.nbits) ||| lowBits 64 bf.off))).bind _ = _
  rw [h₁, Option.bind_some]
  change (outOp o .and (outCast v bf.ty) (outNewL bf.ty (lowBits 64 bf.nbits))).bind _ = _
  rw [h₂, Option.bind_some]
  exact (congrArg (Option.bind · _) h₃).trans h₄

/-- No instruction masks the value, and nothing is written. -/
theorem outBitfieldScalarMerge_none (hp : ¬ ScalarPrinted o bf v) (old : Integral) :
    outBitfieldScalarMerge o bf v (inReg bf.ty old) = none := by
  unfold ScalarPrinted at hp
  have hty := outCast_ty v bf.ty
  unfold outBitfieldScalarMerge
  simp only
  generalize outCast v bf.ty = l at *
  have hnone : ∀ ones ∈ hostOnes bf.nbits, outOp o .and l (outNewL bf.ty (~~~ones)) = none := by
    intro ones hones
    unfold hostOnes at hones
    split at hones
    · rename_i hlt
      obtain rfl := Option.some.inj hones
      change outOp o .and l (outNewL bf.ty (lowBits 64 bf.nbits)) = none
      have hmem : tryMemOffset o .and l (outNewL bf.ty (lowBits 64 bf.nbits)) = none :=
        tryMemOffset_of_ne o l _ (by decide) (by decide)
      have hconst : ∀ k, l.constI? ≠ some k := by
        intro k hk
        exact hp (operandsPrinted_simple rfl (by simp [OutVal.isSimple, hk]) rfl)
      rcases constFolding_cases o .and l (outNewL bf.ty (lowBits 64 bf.nbits)) with hgo |
          ⟨k, -, hk, -⟩ | ⟨k, -, hk, -⟩ | ⟨k, -, -, hk, hnoop, -⟩
      · rw [outOp_go hty rfl hmem hgo, rewriteOp_bitwise (Or.inl rfl)]
        exact implOp_none (by simpa using hp)
      · exact absurd hk (hconst k)
      · exact absurd hk (hconst k)
      · obtain rfl : lowBits 64 bf.nbits = k := Option.some.inj hk
        exact absurd (by simpa [constIsNoop] using hnoop) (lowBits_ne hlt)
    · cases hones
  simp only [Option.bind_eq_bind, Option.bind_eq_none_iff]
  intro _ _ _ _ _ _ ones hones masked hmasked
  rw [hnone ones hones] at hmasked
  cases hmasked

/-- The number that the field gives back. -/
theorem readAs_field (bf : VBitfield) (z : Int) :
    readAs bf.isSigned ((BitVec.ofInt bf.w.bits z).setWidth bf.nbits) = bf.valueOf z := by
  have hle : bf.nbits ≤ bf.w.bits := by
    have := bf.fits
    omega
  rw [setWidth_ofInt hle]
  unfold readAs VBitfield.valueOf
  split
  · exact BitVec.toInt_ofInt z
  · rw [BitVec.toNat_ofInt, Int.toNat_of_nonneg (Int.emod_nonneg _ (by positivity))]
    push_cast
    rfl

/-- The laws hold of every field that does not end at the top of a 64-bit word. -/
theorem bitfield_get_put_iff (o : OutOpts) (bf : VBitfield) (v : OutVal) (old : Integral) :
    GetPut o bf v old ↔ bf.off + bf.nbits < 64 ∧ ScalarPrinted o bf v := by
  constructor
  · rintro ⟨hshifts, m, hm, -⟩
    refine ⟨hshifts _ (by simp [VBitfield.hostShifts]), ?_⟩
    by_contra hp
    rw [outBitfieldScalarMerge_none hp] at hm
    cases hm
  · rintro ⟨hlt, hp⟩
    obtain ⟨m, hm, -, -, hword⟩ := outBitfieldScalarMerge_holds hlt hp old
    refine ⟨?_, m, hm, ?_, ?_⟩
    · intro n hn
      simp only [VBitfield.hostShifts, List.mem_cons, List.not_mem_nil, or_false] at hn
      omega
    · intro word heq
      obtain ⟨r, hr, hty, -, hread⟩ := outBitfieldToScalar_holds (o := o) bf (by omega) word
      refine ⟨r, hr, ?_⟩
      rw [OutVal.num_eq hty, hread, heq, hword, readBits_writeBits _ bf.fits,
        readAs_extend (by have := bf.fits; omega), VBitfield.ty, outCast_word, readAs_field]
    · intro j hj hout
      rw [hword, getLsbD_writeBits_outside _ _ hj hout, BitVec.getLsbD_setWidth, decide_eq_true hj,
        Bool.true_and]

end Fields

/-- The upper half of an `unsigned long`: `-1UL` is shifted by 64. -/
theorem upper_half_shifts_too_far :
    ¬ GetPut ⟨true, true, true, false⟩ ⟨.w64, false, 32, 32, by decide, by decide⟩
      (outNewL (.int .w64 false) 1) 0 := by
  rintro ⟨hshifts, -⟩
  exact absurd (hshifts 64 (by decide)) (by decide)

end Ucc.Cc1.Out
