/-
  Cc1/StackRealign.lean --- the code of `stack_realign`.

  Source: stack_realign in src/cc1/out/func.c, with v_new_sp in src/cc1/out/val.c,
  out_op and try_mem_offset in src/cc1/out/op.c, v_reg_apply_offset in
  src/cc1/out/virt.c, and impl_op and x86_check_ivfp in src/cc1/out/x86_64.c.

  The subtraction becomes the offset of the stack pointer's value; the code for it is
  written when the value is an operand of the `and`.  The value is retained once, so
  `v_dup_or_reuse` gives it back, and both instructions write to the stack pointer.
  The mask is `align - 1`: it keeps the bits that an aligned pointer does not have.
  `out_alloca_push`, in src/cc1/out/alloca.c, has `~(align - 1)`.
-/
import Ucc.Cc1.FoldSue
import Ucc.Cc1.SaveRegsFree

set_option autoImplicit false

namespace Ucc.Cc1.Out

/-! ## A register that is masked -/

section Masked

variable (o : OutOpts) (held off mask : Integral) {r : OutVal}
  (hr : r = outNewL intptrTy mask ∨ r = inReg intptrTy mask)
include hr

/-- The operands are not swapped. -/
theorem needSwap_and :
    needSwap .and ⟨voidPtrTy, .reg held off⟩ r = if off = 0 then some false else none := by
  split
  · rename_i hzero
    subst hzero
    obtain rfl | rfl := hr <;> rfl
  · rename_i hoff
    have hnone : ∀ k, (⟨voidPtrTy, .reg held off⟩ : OutVal).matchesKind k = false := fun k => by
      cases k with
      | reg => exact decide_eq_false hoff
      | _ => rfl
    unfold needSwap
    rw [List.findSome?_eq_none_iff]
    intro x _
    simp only [hnone, Bool.and_false, Bool.false_and, Bool.false_eq_true, if_false]

/-- The register may be another one, that has the sum. -/
theorem aluOperands_and :
    ∃ h d v, aluOperands o .and ⟨voidPtrTy, .reg held off⟩ r = (⟨voidPtrTy, .reg h d⟩, v) ∧
      h + d = held + off ∧ v.ty = intptrTy ∧ v.store.val = mask ∧ v.readable = true := by
  have hval : ∀ x : BitVec 64, x + 0 = x := BitVec.add_zero
  unfold aluOperands
  rw [needSwap_and held off mask hr]
  by_cases hoff : off = 0
  · rw [if_pos hoff]
    obtain rfl | rfl := hr <;> cases o.pic
    · exact ⟨_, _, _, rfl, rfl, rfl, rfl, rfl⟩
    · exact ⟨_, _, _, rfl, hval _, rfl, rfl, rfl⟩
    · exact ⟨_, _, _, rfl, rfl, rfl, hval _, rfl⟩
    · exact ⟨_, _, _, rfl, hval _, rfl, (hval _).trans (hval _), rfl⟩
  · rw [if_neg hoff]
    obtain rfl | rfl := hr <;> cases o.pic
    · exact ⟨_, _, _, rfl, hval _, rfl, rfl, rfl⟩
    · exact ⟨_, _, _, rfl, (hval _).trans (hval _), rfl, rfl, rfl⟩
    · exact ⟨_, _, _, rfl, hval _, rfl, (hval _).trans (hval _), rfl⟩
    · exact ⟨_, _, _, rfl, (hval _).trans (hval _), rfl,
        ((hval _).trans (hval _)).trans (hval _), rfl⟩

theorem implAlu_and :
    implAlu o .and ⟨voidPtrTy, .reg held off⟩ r =
      some (inReg voidPtrTy ((held + off) &&& mask)) := by
  obtain ⟨h, d, v, hops, hsum, hty, hval, hread⟩ := aluOperands_and o held off mask hr
  have hsame : promoteOperands ⟨voidPtrTy, .reg h d⟩ v = (⟨voidPtrTy, .reg h d⟩, v) := by
    unfold promoteOperands
    rw [hty]
    rfl
  unfold implAlu
  rw [hops]
  dsimp only
  rw [hread, hsame, ← hsum, ← hval]
  rfl

end Masked

/-- A subtraction becomes an offset, and the constant of an `and` is a mask. -/
theorem outOp_minus_and (o : OutOpts) (held n mask : Integral) (hmask : mask ≠ -1) :
    (outOp o .minus (inReg voidPtrTy held) (outNewL intptrTy n)).bind
      (outOp o .and · (outNewL intptrTy mask)) =
    some (inReg voidPtrTy ((held - n) &&& mask)) := by
  have hminus : outOp o .minus (inReg voidPtrTy held) (outNewL intptrTy n) =
      some ⟨voidPtrTy, .reg held (0 + -1 * n * 1)⟩ := rfl
  have hgo : constFolding o .and ⟨voidPtrTy, .reg held (0 + -1 * n * 1)⟩
      (outNewL intptrTy mask) = .go := by
    unfold constFolding
    split
    · exact if_neg (by simpa [constIsNoop] using hmask)
    · rfl
  have hop : outOp o .and ⟨voidPtrTy, .reg held (0 + -1 * n * 1)⟩ (outNewL intptrTy mask) =
      implAlu o .and ⟨voidPtrTy, .reg held (0 + -1 * n * 1)⟩
        (outNewL intptrTy mask).checkIvfp := by
    unfold outOp outOpWith
    rw [hgo]
    rfl
  have hoff : held + (0 + -1 * n * 1) = held - n := by
    rw [zero_add, mul_one, neg_one_mul, sub_eq_add_neg]
  have hivfp : (outNewL intptrTy mask).checkIvfp = outNewL intptrTy mask ∨
      (outNewL intptrTy mask).checkIvfp = inReg intptrTy mask := by
    change (if _ then inReg intptrTy mask else outNewL intptrTy mask) = _ ∨
      (if _ then inReg intptrTy mask else outNewL intptrTy mask) = _
    split
    · exact Or.inr rfl
    · exact Or.inl rfl
  rw [hminus, Option.bind_some, hop, implAlu_and o _ _ mask hivfp, hoff]

end Ucc.Cc1.Out

namespace Ucc.Cc1.Save

open Ucc.Cc1.Out (Width OutOpts outOp outNewL inReg voidPtrTy intptrTy)
open Ucc.Cc1.Stack (VReg regBp regSp implRegFrameConst)

/-! ## The code -/

/-- The right operand of the `and`: an immediate, or a register. -/
inductive MaskArg where
  | imm (n : BitVec 64)
  | reg (r : VReg)
  deriving DecidableEq, Repr

/-- The code that ends with an `and`. -/
structure MaskCode where
  before : List Insn
  mask : MaskArg
  dst : VReg
  deriving DecidableEq, Repr

/-- What the `and` reads. -/
def MaskArg.read (m : Machine) : MaskArg → BitVec 64
  | .imm n => n
  | .reg r => m.regs r

def MaskCode.run (alu : BitVec 64 → CpuFlags) (m : Machine) (c : MaskCode) : Machine :=
  let m := execAll alu m c.before
  let x := m.regs c.dst &&& c.mask.read m
  { m.setReg .w64 c.dst x with flags := alu x }

/-- `v_new_sp` -/
def Octx.newSp (s : Octx) : Octx := s.register (regVal regSp 0 .w64)

/-- `out_op` with `op_minus` of a `void *` in a register and of a constant, which
`try_mem_offset` does; `calc_ptr_step` is 1. -/
def minusConst (s : Octx) (i : Nat) (n : Nat) : Option Octx :=
  match s.vals[i]? with
  | some v =>
      match v.loc with
      | .reg r off => some (s.setVal i { v with loc := .reg r (off - n) })
      | _ => none
  | none => none

/-- `x86_check_ivfp` -/
def checkIvfp (spill : Spill) (s : Octx) (n : BitVec 64) : Option (MaskArg × Octx) :=
  if n.toNat < 2 ^ 31 then some (.imm n, s)
  else do
    let (r, s) ← vUnusedReg spill s false
    some (.reg r, s.emit [.movImm n r])

/-- `v_reg_apply_offset` of a value that is retained once. -/
def applyOffsetHere (spill : Spill) (s : Octx) (i : Nat) (v : OutVal) (r : VReg) (off : Int) :
    Option (VReg × Octx) :=
  if off = 0 then some (r, s)
  else addOffset spill (s.setVal i { v with loc := .reg r 0 }) i off

/-- The register that `impl_op` writes to: a frame constant is copied first. -/
def writable (spill : Spill) (s : Octx) (r : VReg) : Option (VReg × Octx) :=
  if implRegFrameConst r false then do
    let (dst, s) ← vUnusedReg spill s false
    some (dst, s.emit (regCp .w64 r dst))
  else some (r, s)

/-- `out_op` with `op_and` of a register and of a constant: `impl_op`. -/
def andConst (spill : Spill) (s : Octx) (i : Nat) (n : BitVec 64) :
    Option (MaskArg × VReg × Octx) := do
  let (mask, s) ← checkIvfp spill s n
  let v ← s.vals[i]?
  match v.loc with
  | .reg r off => do
      let (r, s) ← applyOffsetHere spill s i v r off
      let (dst, s) ← writable spill s r
      some (mask, dst, s)
  | _ => none

/-- `to_add`: the difference is truncated to an `unsigned`. -/
def toAdd (curStackSz : Nat) (align : BitVec 32) : BitVec 32 :=
  let newSz := packToAlign curStackSz align.toNat % 2 ^ 32
  let n := BitVec.ofNat 32 newSz - BitVec.ofNat 32 curStackSz
  if n = 0 then align else n

/-- `stack_realign`: the context after it, and the code that it writes. -/
def stackRealign (spill : Spill) (s : Octx) (align : BitVec 32) : Option (Octx × MaskCode) := do
  let sp := s.vals.length
  let s' ← minusConst s.newSp sp (toAdd s.curStackSz align).toNat
  let (mask, dst, s') ← andConst spill s' sp ((align - 1).setWidth 64)
  let s' := s'.release sp
  some ({ s' with curStackSz := packToAlign s.curStackSz align.toNat % 2 ^ 32 },
    ⟨s'.code.drop s.code.length, mask, dst⟩)

/-- The context in the prologue: the values that are retained are in the frame, and there
is none that `v_decay_flags_except` would write code for. -/
structure PrologueCtx where
  octx : Octx
  frame : ∀ v ∈ octx.vals, 0 < v.retains → ∀ r off, v.loc = .reg r off → r = regBp
  noFlags : ∀ v ∈ octx.vals, 0 < v.retains → ∀ f, v.loc ≠ .flag f
  free : ∀ r, octx.reservedRegs r = 0

/-- The stack pointer is moved down to a multiple of the alignment. -/
structure Realigned (before after : BitVec 64) (align : Nat) : Prop where
  aligned : align ∣ after.toNat
  below : after.toNat ≤ before.toNat
  near : before.toNat ≤ after.toNat + 2 * align

/-- What the prologue asks of `stack_realign`. -/
def RealignsSp (spill : Spill) (p : PrologueCtx) (align : BitVec 32) (alu : BitVec 64 → CpuFlags)
    (m : Machine) : Prop :=
  ∃ s' c, stackRealign spill p.octx align = some (s', c) ∧
    Realigned (m.regs regSp) ((c.run alu m).regs regSp) align.toNat

/-! ## The number that is subtracted -/

theorem toAdd_spec (cur : Nat) {k : Nat} (hk : k < 32) {align : BitVec 32}
    (ha : align.toNat = 2 ^ k) :
    0 < (toAdd cur align).toNat ∧ (toAdd cur align).toNat ≤ 2 ^ k ∧
      2 ^ k ∣ cur + (toAdd cur align).toNat := by
  have hpos : 0 < 2 ^ k := Nat.two_pow_pos k
  have hle : 2 ^ k ≤ 2 ^ 31 := Nat.pow_le_pow_right (by omega) (by omega)
  have hdvd : 2 ^ k ∣ 2 ^ 32 := pow_dvd_pow 2 (by omega)
  generalize hy : cur + 2 ^ k - 1 = y
  have hmod : y % 2 ^ 32 % 2 ^ k = y % 2 ^ k := Nat.mod_mod_of_dvd y hdvd
  have hlow := Nat.mod_lt y hpos
  have hsplit := Nat.div_add_mod (y % 2 ^ 32) (2 ^ k)
  have hpack : packToAlign cur (2 ^ k) = y % 2 ^ 32 - y % 2 ^ k := by
    have hmask : (2 ^ 32 - 2 ^ k) % 2 ^ 32 = 2 ^ 32 - 2 ^ k := Nat.mod_eq_of_lt (by omega)
    have h64 : y % 2 ^ 64 % 2 ^ 32 = y % 2 ^ 32 := Nat.mod_mod_of_dvd y (pow_dvd_pow 2 (by omega))
    rw [packToAlign, hy, hmask, Lib.and_mask (by omega), h64, Nat.mul_comm]
    omega
  have hnum : (BitVec.ofNat 32 (packToAlign cur (2 ^ k) % 2 ^ 32) - BitVec.ofNat 32 cur).toNat =
      2 ^ k - 1 - y % 2 ^ k := by
    rw [hpack, BitVec.toNat_sub, BitVec.toNat_ofNat, BitVec.toNat_ofNat]
    omega
  have hup : 2 ^ k ∣ y - y % 2 ^ k := Nat.dvd_sub_mod y
  unfold toAdd
  dsimp only
  rw [ha]
  split
  · rename_i hzero
    rw [hzero] at hnum
    have hfull : y % 2 ^ k = 2 ^ k - 1 := by
      have hzero' : (0 : BitVec 32).toNat = 0 := rfl
      omega
    have hcur : 2 ^ k ∣ cur := by
      have hsame : y - y % 2 ^ k = cur := by omega
      exact hsame ▸ hup
    rw [ha]
    exact ⟨hpos, le_rfl, hcur.add dvd_rfl⟩
  · rename_i hne
    rw [hnum]
    have hpos' : 2 ^ k - 1 - y % 2 ^ k ≠ 0 := fun hzero => by
      rw [hzero] at hnum
      exact hne (BitVec.eq_of_toNat_eq hnum)
    have hsame : cur + (2 ^ k - 1 - y % 2 ^ k) = y - y % 2 ^ k := by
      have hmodle := Nat.mod_le y (2 ^ k)
      omega
    rw [hsame]
    exact ⟨by omega, by omega, hup⟩

/-! ## The code that is written -/

/-- The value of the stack pointer is the last. -/
theorem getElem?_register (s : Octx) (v : OutVal) :
    (s.register v).vals[s.vals.length]? = some v :=
  List.getElem?_concat_length

theorem setVal_register (s : Octx) (v v' : OutVal) :
    (s.register v).setVal s.vals.length v' = s.register v' := by
  unfold Octx.setVal Octx.register
  simp

/-- In the prologue `rax` is free. -/
theorem PrologueCtx.scratchRegs_pos (p : PrologueCtx) (off : Int) :
    0 < (p.octx.register (regVal regSp off .w64)).scratchRegs.length := by
  have hfree : p.octx.used ⟨0, false⟩ = false := by
    rw [← Bool.not_eq_true, used_eq_true_iff, not_or]
    refine ⟨fun h => h (p.free _), ?_⟩
    rintro ⟨j, v, off, hv, hret, hloc⟩
    exact absurd (p.frame v (List.mem_of_getElem? hv) hret _ off hloc) (by decide)
  have hscratch : implRegIsScratch p.octx.currentFnty ⟨0, false⟩ = true := by
    cases p.octx.currentFnty <;> decide
  apply List.length_pos_of_mem (a := (⟨0, false⟩ : VReg))
  refine List.mem_filter.2 ⟨by decide, ?_⟩
  rw [used_register, hfree]
  exact hscratch

/-- A mask that fits in 31 bits is an immediate, and the difference is written before it. -/
theorem stackRealign_eq (spill : Spill) (p : PrologueCtx) {align : BitVec 32}
    (hmask : (align - 1).toNat < 2 ^ 31) (hadd : 0 < (toAdd p.octx.curStackSz align).toNat) :
    ∃ s' imm, stackRealign spill p.octx align =
        some (s', ⟨offsetCode .w64 (0 - (toAdd p.octx.curStackSz align).toNat) regSp imm,
          .imm ((align - 1).setWidth 64), regSp⟩) ∧
      imm ≠ some regSp := by
  generalize hn : (toAdd p.octx.curStackSz align).toNat = n at hadd ⊢
  have hne : (0 - n : Int) ≠ 0 := by omega
  have hroom : offsetRegs (0 - n) ≤
      (p.octx.register (regVal regSp 0 .w64)).scratchRegs.length + 1 := by
    have hpos := p.scratchRegs_pos 0
    unfold offsetRegs
    split <;> omega
  obtain ⟨imm, hcode, himm⟩ := addOffset_eq (getElem?_register p.octx _) hroom
  let s := (p.octx.register (regVal regSp 0 .w64)).emit (offsetCode .w64 (0 - n) regSp imm)
  refine ⟨{ s.release p.octx.vals.length with
    curStackSz := packToAlign p.octx.curStackSz align.toNat % 2 ^ 32 }, imm, ?_,
    fun h => (himm regSp h).2.2 rfl⟩
  have hminus : minusConst p.octx.newSp p.octx.vals.length n =
      some (p.octx.register (regVal regSp (0 - n) .w64)) := by
    unfold minusConst Octx.newSp
    rw [getElem?_register]
    exact congrArg some (setVal_register _ _ _)
  have hivfp : checkIvfp spill (p.octx.register (regVal regSp (0 - n) .w64))
      ((align - 1).setWidth 64) =
      some (.imm ((align - 1).setWidth 64), p.octx.register (regVal regSp (0 - n) .w64)) :=
    if_pos (by rw [BitVec.toNat_setWidth]; omega)
  have happly : applyOffsetHere spill (p.octx.register (regVal regSp (0 - n) .w64))
      p.octx.vals.length (regVal regSp (0 - n) .w64) regSp (0 - n) =
      some (regSp, s) := by
    unfold applyOffsetHere
    rw [if_neg hne, setVal_register]
    exact hcode spill
  have hand : andConst spill (p.octx.register (regVal regSp (0 - n) .w64)) p.octx.vals.length
      ((align - 1).setWidth 64) =
      some (.imm ((align - 1).setWidth 64), regSp, s) := by
    unfold andConst
    rw [hivfp, Option.bind_eq_bind, Option.bind_some]
    change ((p.octx.register _).vals[p.octx.vals.length]? >>= _) = _
    rw [getElem?_register, Option.bind_eq_bind, Option.bind_some]
    change (applyOffsetHere _ _ _ _ _ _ >>= _) = _
    rw [happly]
    rfl
  unfold stackRealign
  dsimp only
  rw [hn, hminus, Option.bind_eq_bind, Option.bind_some, hand]
  change some (_, MaskCode.mk (List.drop _ (p.octx.code ++ _)) _ _) = _
  rw [List.drop_left]

theorem toNat_mask {k : Nat} {align : BitVec 32} (ha : align.toNat = 2 ^ k) :
    (align - 1).toNat = 2 ^ k - 1 := by
  have hone : (1 : BitVec 32).toNat = 1 := rfl
  have hpos : 0 < 2 ^ k := Nat.two_pow_pos k
  rw [BitVec.toNat_sub, ha, hone]
  omega

/-- What the code leaves in the stack pointer. -/
def realignedSp (curStackSz : Nat) (align : BitVec 32) (sp : BitVec 64) : BitVec 64 :=
  (sp - (toAdd curStackSz align).setWidth 64) &&& (align - 1).setWidth 64

theorem stackRealign_run (spill : Spill) (p : PrologueCtx) {k : Nat} (hk : k < 32)
    {align : BitVec 32} (ha : align.toNat = 2 ^ k) :
    ∃ s' c, stackRealign spill p.octx align = some (s', c) ∧
      ∀ (alu : BitVec 64 → CpuFlags) (m : Machine), (c.run alu m).regs regSp =
        realignedSp p.octx.curStackSz align (m.regs regSp) := by
  have hk31 : 2 ^ k ≤ 2 ^ 31 := Nat.pow_le_pow_right (by omega) (by omega)
  have hmask := toNat_mask ha
  obtain ⟨s', imm, heq, himm⟩ := stackRealign_eq spill p (by omega)
    (toAdd_spec p.octx.curStackSz hk ha).1
  refine ⟨s', _, heq, fun alu m => ?_⟩
  unfold realignedSp
  rw [← BitVec.ofNat_toNat 64 (toAdd _ _)]
  generalize (toAdd p.octx.curStackSz align).toNat = n
  have hsub : (execAll alu m (offsetCode .w64 (0 - n) regSp imm)).regs regSp =
      m.regs regSp - BitVec.ofNat 64 n := by
    have h := low_offsetCode alu m .w64 (0 - n) regSp imm himm
    have hlow : ∀ x : BitVec 64, low .w64 x = x := fun x => by simp [low, Width.bits]
    rw [hlow, hlow] at h
    rw [h, zero_sub, BitVec.ofInt_neg, BitVec.ofInt_natCast, BitVec.sub_eq_add_neg]
  change (Machine.setReg _ .w64 regSp _).regs regSp = _
  rw [setReg_regs_self, writeLow_whole, hsub]
  rfl

/-- It is what the two calls of `out_op` stand for. -/
theorem stackRealign_outOp (spill : Spill) (p : PrologueCtx) {k : Nat} (hk : k < 32)
    {align : BitVec 32} (ha : align.toNat = 2 ^ k) :
    ∃ s' c, stackRealign spill p.octx align = some (s', c) ∧
      ∀ (o : OutOpts) (alu : BitVec 64 → CpuFlags) (m : Machine),
        (outOp o .minus (inReg voidPtrTy (m.regs regSp))
            (outNewL intptrTy ((toAdd p.octx.curStackSz align).setWidth 64))).bind
          (outOp o .and · (outNewL intptrTy ((align - 1).setWidth 64))) =
        some (inReg voidPtrTy ((c.run alu m).regs regSp)) := by
  obtain ⟨s', c, heq, hrun⟩ := stackRealign_run spill p hk ha
  refine ⟨s', c, heq, fun o alu m => ?_⟩
  rw [hrun]
  apply Out.outOp_minus_and
  intro hall
  have hlt := (align - 1).isLt
  have hnat := congrArg BitVec.toNat hall
  rw [BitVec.toNat_setWidth, Nat.mod_eq_of_lt (by omega)] at hnat
  have hones : (-1 : BitVec 64).toNat = 2 ^ 64 - 1 := rfl
  omega

/-- The mask keeps what is left over. -/
theorem toNat_realignedSp {cur k : Nat} (hk : k < 32) {align : BitVec 32}
    (ha : align.toNat = 2 ^ k) (sp : BitVec 64) :
    (realignedSp cur align sp).toNat = (sp.toNat + cur) % 2 ^ k := by
  obtain ⟨-, hle, hdvd⟩ := toAdd_spec cur hk ha
  have hk31 : 2 ^ k ≤ 2 ^ 31 := Nat.pow_le_pow_right (by omega) (by omega)
  have hk0 : 0 < 2 ^ k := Nat.two_pow_pos k
  unfold realignedSp
  rw [BitVec.toNat_and, BitVec.toNat_setWidth, toNat_mask ha, Nat.mod_eq_of_lt (by omega),
    Nat.and_two_pow_sub_one_eq_mod, BitVec.toNat_sub, BitVec.toNat_setWidth]
  generalize (toAdd cur align).toNat = n at hle hdvd
  have h64 : 2 ^ k ∣ 2 ^ 64 := pow_dvd_pow 2 (by omega)
  rw [Nat.mod_mod_of_dvd _ h64, Nat.mod_eq_of_lt (a := n) (by omega)]
  have hround : 2 ^ 64 - n + (cur + n) = 2 ^ 64 + cur := by omega
  have hwhole : ∀ {a c : Nat}, 2 ^ k ∣ c → (a + c) % 2 ^ k = a % 2 ^ k := fun h => by
    obtain ⟨q, rfl⟩ := h
    exact Nat.add_mul_mod_self_left _ _ _
  calc (2 ^ 64 - n + sp.toNat) % 2 ^ k
      = (2 ^ 64 - n + sp.toNat + (cur + n)) % 2 ^ k := (hwhole hdvd).symm
    _ = (sp.toNat + cur + 2 ^ 64) % 2 ^ k := by
        congr 1
        omega
    _ = (sp.toNat + cur) % 2 ^ k := hwhole h64

/-! ## Alignment -/

/-- The mask leaves what an aligned pointer has none of: the stack pointer is moved down to
a multiple of the alignment only if it was one, less the frame, and so near to 0 that 0
will do. -/
theorem stack_realign_sound_iff (spill : Spill) (p : PrologueCtx) {k : Nat} (hk : k < 32)
    {align : BitVec 32} (ha : align.toNat = 2 ^ k) (alu : BitVec 64 → CpuFlags) (m : Machine) :
    RealignsSp spill p align alu m ↔
      (m.regs regSp).toNat ≤ 2 * 2 ^ k ∧ 2 ^ k ∣ (m.regs regSp).toNat + p.octx.curStackSz := by
  obtain ⟨s', c, heq, hrun⟩ := stackRealign_run spill p hk ha
  replace hrun := (congrArg BitVec.toNat (hrun alu m)).trans (toNat_realignedSp hk ha _)
  have hlt := Nat.mod_lt ((m.regs regSp).toNat + p.octx.curStackSz) (Nat.two_pow_pos k)
  constructor
  · rintro ⟨t, d, hcode, hsp⟩
    obtain ⟨rfl, rfl⟩ := Prod.mk.inj (Option.some.inj (heq.symm.trans hcode))
    obtain ⟨haligned, -, hnear⟩ := hsp
    rw [hrun, ha] at haligned hnear
    have hzero := Nat.eq_zero_of_dvd_of_lt haligned hlt
    exact ⟨by omega, Nat.dvd_of_mod_eq_zero hzero⟩
  · rintro ⟨hnear, hdvd⟩
    rw [Nat.mod_eq_zero_of_dvd hdvd] at hrun
    refine ⟨s', c, heq, ?_, ?_, ?_⟩
    · rw [hrun]
      exact dvd_zero _
    · omega
    · rw [hrun, ha]
      omega

/-- An empty frame. -/
def emptyPrologue : PrologueCtx where
  octx := ⟨[], none, fun _ => 0, 0, true, .x64Sysv, false, []⟩
  frame := by simp
  noFlags := by simp
  free _ := rfl

/-- A machine whose stack pointer is this. -/
def spMachine (sp : BitVec 64) : Machine where
  regs := fun _ => sp
  flags := ⟨false, false, false, false, false⟩
  mem := fun _ => 0
  labels := fun _ => 0

theorem stack_realign_sound_sixteen :
    RealignsSp (fun _ _ => none) emptyPrologue 16 (fun _ => (spMachine 16).flags)
      (spMachine 16) :=
  (stack_realign_sound_iff _ emptyPrologue (k := 4) (by omega) rfl _ (spMachine 16)).2
    ⟨by decide, by decide⟩

/-- Of a pointer to the stack there are only the low bits left. -/
theorem stack_realign_loses_sp :
    ¬ RealignsSp (fun _ _ => none) emptyPrologue 16 (fun _ => (spMachine 0).flags)
      (spMachine 0x7fff00000000) := by
  rintro ⟨t, d, hcode, -, -, hnear⟩
  obtain ⟨s', c, heq, hrun⟩ := stackRealign_run (fun _ _ => none) emptyPrologue (k := 4)
    (by omega) (show (16 : BitVec 32).toNat = 2 ^ 4 from rfl)
  obtain ⟨rfl, rfl⟩ := Prod.mk.inj (Option.some.inj (heq.symm.trans hcode))
  rw [hrun, toNat_realignedSp (k := 4) (by omega) rfl] at hnear
  revert hnear
  decide

end Ucc.Cc1.Save
