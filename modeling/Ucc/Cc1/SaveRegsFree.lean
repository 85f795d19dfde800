/-
  Cc1/SaveRegsFree.lean --- one value is saved, where a register is free.

  Source: v_save_reg, v_spill_reg, v_unused_reg2 and v_reg_apply_offset in
  src/cc1/out/virt.c; v_dup in src/cc1/out/val.c; impl_load and impl_op in
  src/cc1/out/x86_64.c.

  An offset is added in a register of its own, and so is a flag loaded.  Here the
  registers that are needed are free, and `v_freeup_regp` is not called.
-/
import Ucc.Cc1.SaveRegsSound

set_option autoImplicit false

namespace Ucc.Cc1.Save

open Ucc.Cc1.Out (Width)
open Ucc.Cc1.Stack (VReg regBp regSp)

/-! ## The registers that are free -/

/-- What `v_unused_reg2` has to choose from. -/
def Octx.freeRegs (s : Octx) (fp : Bool) (regtest : VReg → Bool) : List VReg :=
  (regsOf fp).filter fun r => !s.used r && regtest r

theorem unusedReg_eq_head? (s : Octx) (fp : Bool) (regtest : VReg → Bool) :
    s.unusedReg fp regtest = (s.freeRegs fp regtest).head? :=
  List.head?_filter.symm

theorem nodup_regsOf (fp : Bool) : (regsOf fp).Nodup := by
  cases fp <;> decide

theorem freeRegs_congr {s s' : Octx} {fp : Bool} {regtest : VReg → Bool}
    (h : ∀ r ∈ regsOf fp, regtest r = true → s'.used r = s.used r) :
    s'.freeRegs fp regtest = s.freeRegs fp regtest := by
  apply List.filter_congr
  intro r hr
  cases htest : regtest r with
  | false => rw [Bool.and_false, Bool.and_false]
  | true => rw [h r hr htest]

/-- The first of them is taken. -/
theorem freeRegs_take {s s' : Octx} {fp : Bool} {regtest : VReg → Bool} {dst : VReg}
    (hdst : s.unusedReg fp regtest = some dst)
    (h : ∀ r ∈ regsOf fp, regtest r = true → s'.used r = (s.used r || decide (r = dst))) :
    s'.freeRegs fp regtest = (s.freeRegs fp regtest).tail := by
  have hnodup : (s.freeRegs fp regtest).Nodup := (nodup_regsOf fp).filter _
  have herase : s'.freeRegs fp regtest = (s.freeRegs fp regtest).filter fun r => r ≠ dst := by
    unfold Octx.freeRegs
    rw [List.filter_filter]
    apply List.filter_congr
    intro r hr
    cases htest : regtest r with
    | false => simp
    | true =>
      rw [h r hr htest]
      cases s.used r <;> by_cases heq : r = dst <;> simp [heq]
  rw [unusedReg_eq_head?] at hdst
  obtain ⟨rest, hrest⟩ := List.head?_eq_some_iff.1 hdst
  rw [hrest] at hnodup herase ⊢
  rw [herase, List.filter_cons_of_neg (by simp), List.tail_cons, List.filter_eq_self]
  intro r hr
  simp only [ne_eq, decide_not, Bool.not_eq_eq_eq_not, Bool.not_true, decide_eq_false_iff_not]
  rintro rfl
  exact (List.nodup_cons.1 hnodup).1 hr

theorem unusedReg_of_length {s : Octx} {fp : Bool} {regtest : VReg → Bool}
    (h : 0 < (s.freeRegs fp regtest).length) : ∃ r, s.unusedReg fp regtest = some r := by
  rw [unusedReg_eq_head?]
  obtain ⟨r, hr⟩ := List.exists_mem_of_length_pos h
  exact ⟨_, List.head?_eq_some_head (List.ne_nil_of_mem hr)⟩

/-- A value in a register that was free. -/
theorem used_register {s : Octx} (dst r : VReg) (off : Int) (w : Width) :
    (s.register (regVal dst off w)).used r = (s.used r || decide (r = dst)) := by
  have hheld : (regVal dst off w).heldIn r = decide (r = dst) := by
    simp [OutVal.heldIn, regVal, eq_comm]
  unfold Octx.used
  change (decide (s.reservedRegs r ≠ 0) || (s.vals ++ [_]).any _) = _
  rw [List.any_append, List.any_cons, List.any_nil, Bool.or_false, hheld, Bool.or_assoc]

/-! ## Offsets -/

/-- The registers that `v_reg_apply_offset` needs. -/
def offsetRegs (off : Int) : Nat := if off.natAbs < 2 ^ 31 then 1 else 2

/-- The free integer registers that a function may use. -/
def Octx.scratchRegs (s : Octx) : List VReg := s.freeRegs false (implRegIsScratch s.currentFnty)

theorem set_eq_self_of_getElem? {α : Type} {l : List α} {i : Nat} {a : α} (h : l[i]? = some a) :
    l.set i a = l := by
  obtain ⟨hi, rfl⟩ := List.getElem?_eq_some_iff.1 h
  exact List.set_getElem_self hi

theorem modify_concat {α : Type} (l : List α) (a : α) (f : α → α) :
    (l ++ [a]).modify l.length f = l ++ [f a] := by
  induction l with
  | nil => rfl
  | cons b l ih => rw [List.cons_append, List.length_cons, List.modify_succ_cons, ih]; rfl

/-- An offset says nothing of the registers that are used. -/
theorem used_setVal_offset {s : Octx} {i : Nat} {v : OutVal} {r : VReg} {off : Int}
    (hv : s.vals[i]? = some v) (hloc : v.loc = .reg r off) (off' : Int) (q : VReg) :
    (s.setVal i { v with loc := .reg r off' }).used q = s.used q := by
  have hheld : ({ v with loc := .reg r off' } : OutVal).heldIn q = v.heldIn q := by
    simp only [OutVal.heldIn, hloc]
  have hmap : (s.vals.set i { v with loc := .reg r off' }).map (OutVal.heldIn · q) =
      s.vals.map (OutVal.heldIn · q) := by
    rw [List.map_set, hheld]
    apply set_eq_self_of_getElem?
    rw [List.getElem?_map, hv]
    rfl
  have hany := congrArg (List.any · id) hmap
  simp only [List.any_map, Function.id_comp] at hany
  exact congrArg (decide (s.reservedRegs q ≠ 0) || ·) hany

/-- Code that adds an offset to a copy. -/
def offsetCode (w : Width) (off : Int) (dst : VReg) : Option VReg → List Insn
  | none => [.add w (BitVec.ofInt 64 off) dst]
  | some r => [.movImm (BitVec.ofNat 64 off.natAbs) r, .addReg w (decide (off < 0)) r dst]

theorem ofNat_natAbs_of_neg {off : Int} (h : off < 0) :
    BitVec.ofNat 64 off.natAbs = -BitVec.ofInt 64 off := by
  rw [← BitVec.ofInt_neg, ← BitVec.ofInt_natCast, Int.ofNat_natAbs_of_nonpos h.le]

theorem ofNat_natAbs_of_nonneg {off : Int} (h : 0 ≤ off) :
    BitVec.ofNat 64 off.natAbs = BitVec.ofInt 64 off := by
  rw [← BitVec.ofInt_natCast, Int.natAbs_of_nonneg h]

theorem low_offsetCode (alu : BitVec 64 → CpuFlags) (m : Machine) (w : Width) (off : Int)
    (dst : VReg) (imm : Option VReg) (hne : imm ≠ some dst) :
    low w ((execAll alu m (offsetCode w off dst imm)).regs dst) =
      low w (m.regs dst + BitVec.ofInt 64 off) := by
  cases imm with
  | none =>
    change low w ((m.setReg w dst _).regs dst) = _
    rw [setReg_regs_self, low_writeLow]
  | some r =>
    have hdst : dst ≠ r := fun e => hne (congrArg some e.symm)
    simp only [offsetCode, execAll_cons, execAll_nil, Insn.exec]
    rw [setReg_regs_self, low_writeLow, setReg_regs_self, writeLow_whole,
      setReg_regs_of_ne _ _ hdst]
    split
    · rename_i hneg
      rw [ofNat_natAbs_of_neg (of_decide_eq_true hneg), BitVec.sub_neg]
    · rename_i hpos
      rw [ofNat_natAbs_of_nonneg (not_lt.1 fun h => hpos (decide_eq_true h))]

theorem addOffset_eq {s : Octx} {d : Nat} {dst : VReg} {w : Width} {off : Int}
    (hd : s.vals[d]? = some (regVal dst 0 w)) (hroom : offsetRegs off ≤ s.scratchRegs.length + 1) :
    ∃ imm,
      (∀ spill, addOffset spill s d off = some (dst, s.emit (offsetCode w off dst imm))) ∧
      ∀ r, imm = some r → s.used r = false ∧ r ≠ regBp ∧ r ≠ regSp := by
  unfold addOffset
  by_cases hsmall : off.natAbs < 2 ^ 31
  · refine ⟨none, fun spill => ?_, fun r hr => nomatch hr⟩
    simp only [if_pos hsmall, Option.bind_eq_bind, Option.bind_some, hd]
    rfl
  · rw [offsetRegs, if_neg hsmall] at hroom
    have hpos : 0 < s.scratchRegs.length := by omega
    obtain ⟨r, hr⟩ := unusedReg_of_length hpos
    obtain ⟨hfree, -, -, hframe⟩ := unusedReg_some hr
    refine ⟨some r, fun spill => ?_, fun q hq => Option.some.inj hq ▸ ⟨hfree, hframe⟩⟩
    simp only [if_neg hsmall, vUnusedReg_of_free spill hr, Option.bind_eq_bind, Option.bind_some]
    change (s.vals[d]?.bind _) = _
    rw [hd, Option.bind_some]
    simp only [regVal, offsetCode, Octx.emit, List.append_assoc, List.cons_append, List.nil_append]

theorem untouched_offsetCode {s : Octx} {dst : VReg} {imm : Option VReg} (w : Width) (off : Int)
    (hdst : s.used dst = false ∧ dst ≠ regBp ∧ dst ≠ regSp)
    (himm : ∀ r, imm = some r → s.used r = false ∧ r ≠ regBp ∧ r ≠ regSp) :
    Untouched s (offsetCode w off dst imm) := by
  cases imm with
  | none =>
    refine ⟨fun k hk q hq => ?_, fun _ _ _ hk => ?_⟩
    · rw [List.mem_singleton.1 hk] at hq
      exact Option.some.inj hq ▸ hdst
    · cases List.mem_singleton.1 hk
  | some r =>
    refine ⟨fun k hk q hq => ?_, fun _ _ _ hk => ?_⟩
    · obtain rfl | rfl := List.mem_pair.1 hk
      · exact Option.some.inj hq ▸ himm r rfl
      · exact Option.some.inj hq ▸ hdst
    · obtain hk | hk := List.mem_pair.1 hk <;> cases hk

/-- An offset is added in a register that was free. -/
theorem applyOffset_steps {s : Octx} {i : Nat} {v : OutVal} {r : VReg} {off : Int}
    (hv : s.vals[i]? = some v) (hret : 0 < v.retains) (hloc : v.loc = .reg r off)
    (hfp : r.isFloat = false) (hroom : offsetRegs off ≤ s.scratchRegs.length) :
    ∃ dst t c, (∀ spill, applyOffset spill s i v r off = some (dst, t)) ∧ Steps s i v t c v ∧
      t.curStackSz = s.curStackSz ∧
      ∀ alu m, low v.w ((execAll alu m c).regs dst) =
        low v.w (m.regs r + BitVec.ofInt 64 off) := by
  have hi : i < s.vals.length := (List.getElem?_eq_some_iff.1 hv).1
  have hone : 1 ≤ offsetRegs off := by unfold offsetRegs; split <;> omega
  have hpos : 0 < s.scratchRegs.length := by omega
  obtain ⟨dst, hdst⟩ := unusedReg_of_length hpos
  obtain ⟨hfree, -, -, hbp, hsp⟩ := unusedReg_some hdst
  -- the offset is away while the register is looked for
  have haway : (s.setVal i { v with loc := .reg r 0 }).unusedReg r.isFloat
      (implRegIsScratch s.currentFnty) = some dst := by
    rw [hfp, unusedReg_eq_head?, freeRegs_congr fun q _ _ => used_setVal_offset hv hloc 0 q,
      ← unusedReg_eq_head?, hdst]
  have hback : (s.vals.set i { v with loc := .reg r 0 }).set i { v with loc := .reg r off } =
      s.vals := by
    rw [List.set_set, ← hloc]
    exact set_eq_self_of_getElem? hv
  -- the copy is a value of its own
  have htail : ((s.emit (regCp v.w r dst)).register (regVal dst 0 v.w)).scratchRegs =
      s.scratchRegs.tail :=
    freeRegs_take hdst fun q _ _ => used_register (s := s.emit (regCp v.w r dst)) dst q 0 v.w
  have hcopy : ((s.emit (regCp v.w r dst)).register (regVal dst 0 v.w)).vals[s.vals.length]? =
      some (regVal dst 0 v.w) := List.getElem?_concat_length
  have hroom' : offsetRegs off ≤
      ((s.emit (regCp v.w r dst)).register (regVal dst 0 v.w)).scratchRegs.length + 1 := by
    rw [htail, List.length_tail]
    omega
  obtain ⟨imm, hadd, himm⟩ := addOffset_eq hcopy hroom'
  have hne : imm ≠ some dst := by
    intro heq
    have hused := (himm dst heq).1
    rw [used_register, decide_eq_true rfl, Bool.or_true] at hused
    cases hused
  have himm' : ∀ q, imm = some q → s.used q = false ∧ q ≠ regBp ∧ q ≠ regSp := by
    intro q hq
    obtain ⟨hused, hframe⟩ := himm q hq
    rw [used_register, Bool.or_eq_false_iff] at hused
    exact ⟨hused.1, hframe⟩
  have hcode : Untouched s (regCp v.w r dst ++ offsetCode v.w off dst imm) :=
    (untouched_regCp hfree hbp hsp v.w r).append
      (untouched_offsetCode v.w off ⟨hfree, hbp, hsp⟩ himm')
  refine ⟨dst, (((s.emit (regCp v.w r dst)).register (regVal dst 0 v.w)).emit
    (offsetCode v.w off dst imm)).release s.vals.length,
    regCp v.w r dst ++ offsetCode v.w off dst imm, fun spill => ?_, ?_, rfl, ?_⟩
  · unfold applyOffset
    rw [vUnusedReg_of_free spill haway]
    simp only [Option.bind_eq_bind, Option.bind_some]
    change ((s.vals.set i _)[i]?.bind _) = _
    rw [List.getElem?_set_self hi, Option.bind_some]
    simp only [Octx.setVal, Octx.emit, hback]
    change ((addOffset spill ((s.emit (regCp v.w r dst)).register (regVal dst 0 v.w))
      s.vals.length off).bind _) = _
    rw [hadd]
    rfl
  · have hkept : (s.vals ++ [{ regVal dst 0 v.w with retains := 0 }])[i]? = some v := by
      rw [List.getElem?_append_left hi, hv]
    refine ⟨Only.of_append hi ((modify_concat s.vals _ _).trans (set_eq_self_of_getElem? hkept).symm)
      (by simp) (List.append_assoc ..) rfl rfl rfl, ⟨v.loc, rfl⟩, hcode, fun alu m => ?_⟩
    · exact denote_untouched hcode (List.mem_of_getElem? hv) hret
        (fun o h => by rw [hloc] at h; cases h) (fun f h => by rw [hloc] at h; cases h)
        alu s.finiteMath m
  · intro alu m
    rw [execAll_append, low_offsetCode alu _ v.w off dst imm hne]
    exact low_add_congr (low_regCp alu m v.w r dst) _

/-! ## `v_save_reg` -/

theorem scratchRegs_withSlot (s : Octx) (w : Width) :
    (s.withSlot w).scratchRegs = s.scratchRegs := by
  apply freeRegs_congr
  intro r hr _
  have hbp := (mem_regsOf hr).2.1
  rw [Bool.eq_iff_iff, used_withSlot, or_iff_left hbp]

theorem vSpillRegWith_steps {s : Octx} {i : Nat} {v : OutVal} {r : VReg}
    {off : Int} (hv : s.vals[i]? = some v) (hret : 0 < v.retains) (hloc : v.loc = .reg r off)
    (hin : SlotsIn s)
    (hroom : off ≠ 0 → r.isFloat = false ∧ offsetRegs off ≤ s.scratchRegs.length) :
    ∃ s' c, (∀ spill, vSpillRegWith spill s i = some s') ∧
      Steps s i v s' c { v with loc := .spilt (-(s.withSlot v.w).curStackSz) } ∧
      SlotsIn s' ∧ (off = 0 → KeepsFlags c) := by
  have hi : i < s.vals.length := (List.getElem?_eq_some_iff.1 hv).1
  have hv' := getElem?_withSlot hv v.w
  by_cases hoff : off = 0
  · have hrefl := Steps.refl hv'
    have hsrc : ∀ alu m, low v.w ((execAll alu m []).regs r) =
        low v.w (m.regs r + BitVec.ofInt 64 off) := by
      intro alu m
      rw [hoff]
      exact congrArg (low v.w) (BitVec.add_zero _).symm
    refine ⟨_, _, fun spill => ?_, toSlot_steps hv hloc hrefl hsrc, toSlot_slotsIn hi hin hrefl rfl,
      fun _ k hk => ?_⟩
    · simp only [vSpillRegWith, hv, hloc, if_pos hoff, Option.bind_eq_bind, Option.bind_some]
      rfl
    · rw [List.mem_singleton.1 hk]
      rfl
  · obtain ⟨hfp, hlen⟩ := hroom hoff
    rw [← scratchRegs_withSlot s v.w] at hlen
    obtain ⟨src, t, c, happly, hsteps, hcur, hlow⟩ :=
      applyOffset_steps hv' hret hloc hfp hlen
    refine ⟨_, _, fun spill => ?_, toSlot_steps hv hloc hsteps hlow, toSlot_slotsIn hi hin hsteps hcur,
      fun h => absurd h hoff⟩
    simp only [vSpillRegWith, hv, hloc, if_neg hoff, Option.bind_eq_bind]
    change ((applyOffset spill (s.withSlot v.w) i v r off).bind _) = _
    rw [happly]
    rfl

/-- Where a value in a register is after `v_save_reg`. -/
def savedLoc (s : Octx) (v : OutVal) (off : Int) : Loc :=
  match s.unusedReg v.isFloating (implRegIsCalleeSave s.currentFnty) with
  | some csReg => .reg csReg off
  | none => .spilt (-(s.withSlot v.w).curStackSz)

theorem vSaveReg_steps {s : Octx} {i : Nat} {v : OutVal} {r : VReg}
    {off : Int} (hv : s.vals[i]? = some v) (hret : 0 < v.retains) (hloc : v.loc = .reg r off)
    (hin : SlotsIn s)
    (hroom : s.unusedReg v.isFloating (implRegIsCalleeSave s.currentFnty) = none → off ≠ 0 →
      r.isFloat = false ∧ offsetRegs off ≤ s.scratchRegs.length) :
    ∃ s' c, (∀ spill, vSaveReg (vSpillRegWith spill) s i true = some s') ∧
      Steps s i v s' c { v with loc := savedLoc s v off } ∧ SlotsIn s' ∧
      (s.unusedReg v.isFloating (implRegIsCalleeSave s.currentFnty) ≠ none ∨ off = 0 →
        KeepsFlags c) := by
  unfold savedLoc
  cases hcs : s.unusedReg v.isFloating (implRegIsCalleeSave s.currentFnty) with
  | some csReg =>
    obtain ⟨hfree, -, -, hbp, hsp⟩ := unusedReg_some hcs
    refine ⟨_, _, fun spill => ?_, moveTo_steps hv hloc hfree hbp hsp, moveTo_slotsIn hin,
      fun _ => keepsFlags_regCp v.w r csReg⟩
    simp only [vSaveReg, hv, hloc, hcs, if_true]
  | none =>
    obtain ⟨s', c, hspill, hsteps, hslots, hflags⟩ :=
      vSpillRegWith_steps hv hret hloc hin (hroom hcs)
    refine ⟨s', c, fun spill => ?_, hsteps, hslots, fun h => hflags (h.resolve_left fun hne => hne rfl)⟩
    simp only [vSaveReg, hv, hloc, hcs, if_true, hspill]

/-! ## Flags -/

/-- The registers that a flag needs. -/
def flagRegs (finiteMath : Bool) (f : FlagOpts) : Nat :=
  if (x86NeedFpParityP finiteMath f).isSome then 2 else 1

/-- What is written of the parity, with its register. -/
def parityCode (r : VReg) : Option (Bool × VReg) → List Insn
  | none => []
  | some (flip, parityReg) => [.setp flip parityReg, .orAnd flip parityReg r, .andOne r]

/-- "need to promote, since we forced char type" -/
def promoteCode (w : Width) (r : VReg) : List Insn := if w = .w8 then [] else [.ext true .w8 w r r]

theorem used_reserve (s : Octx) (r q : VReg) :
    (s.reserve r).used q = (s.used q || decide (q = r)) := by
  unfold Octx.used
  by_cases heq : q = r
  · have hne : Function.update s.reservedRegs r (s.reservedRegs r + 1) q ≠ 0 := by
      rw [heq, Function.update_self]
      omega
    rw [decide_eq_true heq, Bool.or_true, Bool.or_eq_true]
    exact Or.inl (decide_eq_true hne)
  · have hsame : Function.update s.reservedRegs r (s.reservedRegs r + 1) q = s.reservedRegs q :=
      Function.update_of_ne heq _ _
    rw [decide_eq_false heq, Bool.or_false]
    change (decide (Function.update s.reservedRegs r (s.reservedRegs r + 1) q ≠ 0) || _) = _
    rw [hsame]
    rfl

theorem reserve_undo (s : Octx) (r : VReg) :
    { s.reserve r with
      reservedRegs := fun q => (s.reserve r).reservedRegs q - if q = r then 1 else 0 } = s := by
  have hfun : (fun q => (s.reserve r).reservedRegs q - if q = r then 1 else 0) =
      s.reservedRegs := by
    funext q
    unfold Octx.reserve
    by_cases heq : q = r
    · simp only [heq, Function.update_self, if_true, Nat.add_sub_cancel]
    · simp only [if_neg heq, Nat.sub_zero, Function.update_of_ne heq]
  rw [hfun]
  rfl

theorem chkParity_eq {s : Octx} {r : VReg} {need : Option Bool}
    (hroom : need.isSome = true → 0 < (s.reserve r).scratchRegs.length) :
    ∃ par, (∀ spill, chkParity spill s r need = some (s.emit (parityCode r par))) ∧
      par.map Prod.fst = need ∧
      ∀ flip q, par = some (flip, q) →
        s.used q = false ∧ q ≠ r ∧ q ≠ regBp ∧ q ≠ regSp := by
  cases need with
  | none =>
    refine ⟨none, fun spill => ?_, rfl, fun flip q h => nomatch h⟩
    simp [chkParity, parityCode, Octx.emit]
  | some flip =>
    obtain ⟨q, hq⟩ := unusedReg_of_length (hroom rfl)
    obtain ⟨hfree, -, -, hframe⟩ := unusedReg_some hq
    rw [used_reserve, Bool.or_eq_false_iff] at hfree
    refine ⟨some (flip, q), fun spill => ?_, rfl, ?_⟩
    · have hfound := vUnusedReg_of_free spill hq
      simp only [chkParity, hfound, Option.bind_eq_bind, Option.bind_some]
      rw [reserve_undo]
      rfl
    · intro flip' q' heq
      obtain ⟨-, rfl⟩ := Prod.mk.inj (Option.some.inj heq)
      exact ⟨hfree.1, of_decide_eq_false hfree.2, hframe⟩

/-- The byte that the parity leaves. -/
theorem setWidth_parityCode (alu : BitVec 64 → CpuFlags) (m : Machine) {r q : VReg} (hne : q ≠ r)
    (flip b : Bool) (hb : (m.regs r).setWidth 8 = (ofBool b).setWidth 8) :
    ((execAll alu m (parityCode r (some (flip, q)))).regs r).setWidth 8 =
      (ofBool (if flip then b || m.flags.pf else b && !m.flags.pf)).setWidth 8 := by
  have hset : ∀ (m : Machine) (dst : VReg) (x : BitVec 64),
      ((m.setReg .w8 dst x).regs dst).setWidth 8 = x.setWidth 8 := by
    intro m dst x
    rw [setReg_regs_self]
    exact (low_eq_iff .w8 _ _).1 (low_writeLow dst .w8 _ x)
  simp only [parityCode, execAll_cons, execAll_nil, Insn.exec]
  rw [hset, BitVec.setWidth_and, hset]
  cases flip
  · simp only [Bool.false_eq_true, if_false]
    rw [BitVec.setWidth_and, setReg_regs_of_ne _ _ hne.symm, hset, hb]
    cases b <;> cases m.flags.pf <;> decide
  · simp only [if_true]
    rw [BitVec.setWidth_or, setReg_regs_of_ne _ _ hne.symm, hset, hb]
    cases b <;> cases m.flags.pf <;> decide

/-- The code that loads a flag. -/
def flagCode (f : FlagOpts) (w : Width) (r : VReg) (par : Option (Bool × VReg)) : List Insn :=
  [.movImm 0 r, .setcc f r] ++ parityCode r par ++ promoteCode w r

theorem low_promoteCode (alu : BitVec 64 → CpuFlags) (m : Machine) (w : Width) (r : VReg) (b : Bool)
    (hb : (m.regs r).setWidth 8 = (ofBool b).setWidth 8) :
    low w ((execAll alu m (promoteCode w r)).regs r) = ofBool b := by
  unfold promoteCode
  split
  · rename_i hw
    have hlow : low w (m.regs r) = low w (ofBool b) := by
      rw [hw]
      exact (low_eq_iff .w8 _ _).2 hb
    rw [execAll_nil, hlow]
    cases w <;> cases b <;> decide
  · change low w ((m.setReg w r _).regs r) = _
    rw [setReg_regs_self, low_writeLow, extend_congr true ((low_eq_iff .w8 _ _).2 hb)]
    cases w <;> cases b <;> decide

/-- The register has the truth of the comparison. -/
theorem low_flagCode (alu : BitVec 64 → CpuFlags) (m : Machine) (f : FlagOpts) (w : Width)
    (r : VReg) (finiteMath : Bool) {par : Option (Bool × VReg)}
    (hpar : par.map Prod.fst = x86NeedFpParityP finiteMath f)
    (hne : ∀ flip q, par = some (flip, q) → q ≠ r) :
    low w ((execAll alu m (flagCode f w r par)).regs r) = ofBool (f.holds finiteMath m.flags) := by
  have hset : ((execAll alu m [.movImm 0 r, .setcc f r]).regs r).setWidth 8 =
      (ofBool (x86Cmp f m.flags)).setWidth 8 := by
    simp only [execAll_cons, execAll_nil, Insn.exec]
    rw [setReg_regs_self]
    exact (low_eq_iff .w8 _ _).1 (low_writeLow r .w8 _ _)
  rw [flagCode, execAll_append, execAll_append]
  apply low_promoteCode
  unfold FlagOpts.holds
  rw [← hpar]
  cases par with
  | none => exact hset
  | some p =>
    obtain ⟨flip, q⟩ := p
    rw [setWidth_parityCode alu _ (hne flip q rfl) flip _ hset]
    cases flip <;> rfl

theorem mem_promoteCode {w : Width} {r : VReg} {k : Insn} (h : k ∈ promoteCode w r) :
    k = .ext true .w8 w r r := by
  unfold promoteCode at h
  split at h
  · cases h
  · exact List.mem_singleton.1 h

theorem keepsFlags_flagCode (f : FlagOpts) (w : Width) (r : VReg) :
    KeepsFlags (flagCode f w r none) := by
  apply KeepsFlags.append
  · intro k hk
    obtain rfl | rfl := List.mem_pair.1 hk <;> rfl
  · intro k hk
    rw [mem_promoteCode hk]
    rfl

theorem flagCode_dst {f : FlagOpts} {w : Width} {r : VReg} {par : Option (Bool × VReg)}
    {k : Insn} (hk : k ∈ flagCode f w r par) :
    k.dst? = some r ∨ ∃ flip q, par = some (flip, q) ∧ k.dst? = some q := by
  rw [flagCode, List.mem_append, List.mem_append] at hk
  obtain (hk | hk) | hk := hk
  · obtain rfl | rfl := List.mem_pair.1 hk <;> exact Or.inl rfl
  · cases par with
    | none => cases hk
    | some p =>
      simp only [parityCode, List.mem_cons, List.not_mem_nil, or_false] at hk
      obtain rfl | rfl | rfl := hk
      · exact Or.inr ⟨p.1, p.2, rfl, rfl⟩
      · exact Or.inl rfl
      · exact Or.inl rfl
  · rw [mem_promoteCode hk]
    exact Or.inl rfl

theorem untouched_flagCode {s : Octx} {r : VReg} {par : Option (Bool × VReg)} (f : FlagOpts)
    (w : Width) (hr : s.used r = false ∧ r ≠ regBp ∧ r ≠ regSp)
    (hpar : ∀ flip q, par = some (flip, q) → s.used q = false ∧ q ≠ regBp ∧ q ≠ regSp) :
    Untouched s (flagCode f w r par) where
  regs k hk q hq := by
    obtain hdst | ⟨flip, q', hsome, hdst⟩ := flagCode_dst hk
    · rw [hdst] at hq
      exact Option.some.inj hq ▸ hr
    · rw [hdst] at hq
      exact Option.some.inj hq ▸ hpar flip q' hsome
  mem w' src off hk := by
    obtain hdst | ⟨flip, q', hsome, hdst⟩ := flagCode_dst hk <;> cases hdst

/-- Dead values do not use a register. -/
theorem used_dead (s : Octx) (r q : VReg) (w : Width) :
    ((s.register (regVal r 0 w)).release s.vals.length).used q = s.used q := by
  unfold Octx.used
  change (decide (s.reservedRegs q ≠ 0) ||
    ((s.vals ++ [regVal r 0 w]).modify s.vals.length _).any _) = _
  rw [modify_concat, List.any_append, List.any_cons, List.any_nil, Bool.or_false]
  change (_ || (_ || false)) = _
  rw [Bool.or_false]

theorem flagToReg_steps {s : Octx} {i : Nat} {v : OutVal} {f : FlagOpts}
    (hv : s.vals[i]? = some v) (hloc : v.loc = .flag f)
    (hroom : flagRegs s.finiteMath f ≤ s.scratchRegs.length) :
    ∃ r s' c, (∀ spill, flagToReg spill s i v f = some s') ∧
      Steps s i v s' c { v with loc := .reg r 0 } ∧
      s'.curStackSz = s.curStackSz ∧
      s.unusedReg false (implRegIsScratch s.currentFnty) = some r ∧
      (x86NeedFpParityP s.finiteMath f = none → KeepsFlags c) := by
  have hi : i < s.vals.length := (List.getElem?_eq_some_iff.1 hv).1
  have hpos : 0 < s.scratchRegs.length := by
    unfold flagRegs at hroom
    split at hroom <;> omega
  obtain ⟨r, hr⟩ := unusedReg_of_length hpos
  obtain ⟨hfree, -, -, hframe⟩ := unusedReg_some hr
  have htail : ((((s.register (regVal r 0 .w32)).release s.vals.length).emit
      [.movImm 0 r, .setcc f r]).reserve r).scratchRegs = s.scratchRegs.tail := by
    apply freeRegs_take hr
    intro q _ _
    rw [used_reserve]
    exact congrArg (· || decide (q = r)) (used_dead s r q .w32)
  have hroom' : (x86NeedFpParityP s.finiteMath f).isSome = true →
      0 < ((((s.register (regVal r 0 .w32)).release s.vals.length).emit
        [.movImm 0 r, .setcc f r]).reserve r).scratchRegs.length := by
    intro hsome
    rw [htail, List.length_tail]
    rw [flagRegs, if_pos hsome] at hroom
    omega
  obtain ⟨par, hpar, hneed, hregs⟩ := chkParity_eq hroom'
  have hregs' : ∀ flip q, par = some (flip, q) → s.used q = false ∧ q ≠ regBp ∧ q ≠ regSp := by
    intro flip q hq
    obtain ⟨hused, -, hq⟩ := hregs flip q hq
    exact ⟨(used_dead s r q .w32).symm.trans hused, hq⟩
  refine ⟨r, ((((s.register (regVal r 0 .w32)).release s.vals.length).emit
    (flagCode f v.w r par))).setVal i { v with loc := .reg r 0 }, flagCode f v.w r par,
    fun spill => ?_, ?_, rfl, hr, ?_⟩
  · unfold flagToReg
    rw [vUnusedReg_of_free spill hr]
    simp only [Option.bind_eq_bind, Option.bind_some]
    change ((chkParity spill _ r (x86NeedFpParityP s.finiteMath f)).bind _) = _
    rw [hpar, Option.bind_some]
    unfold flagCode promoteCode
    split
    · simp only [Octx.emit, Octx.setVal, List.append_nil, List.append_assoc]
    · simp only [Octx.emit, Octx.setVal, List.append_assoc]
  · refine ⟨Only.of_append hi (congrArg (List.set · i _) (modify_concat s.vals _ _)) (by simp) rfl
      rfl rfl rfl, ⟨_, rfl⟩, untouched_flagCode f v.w ⟨hfree, hframe⟩ hregs', fun alu m => ?_⟩
    have hlow := low_flagCode alu m f v.w r s.finiteMath hneed fun flip q hq =>
      (hregs flip q hq).2.1
    simp only [OutVal.denote, hloc]
    rw [← hlow]
    exact congrArg (low v.w) (BitVec.add_zero _)
  · intro hnone
    rw [hnone] at hneed
    rw [Option.map_eq_none_iff.1 hneed]
    exact keepsFlags_flagCode f v.w r

/-! ## A flag is saved -/

/-- A value that was in no register goes to one, and on from there. -/
theorem Steps.trans {s t u : Octx} {i : Nat} {v v₁ v₂ : OutVal} {c₁ c₂ : List Insn}
    (h₁ : Steps s i v t c₁ v₁) (h₂ : Steps t i v₁ u c₂ v₂) (hv : s.vals[i]? = some v)
    (hloc : ∀ r off, v.loc ≠ .reg r off) (hcur : s.curStackSz ≤ t.curStackSz) :
    Steps s i v u (c₁ ++ c₂) v₂ where
  toOnly := h₁.toOnly.trans h₂.toOnly (List.getElem?_eq_some_iff.1 hv).1
  moved := by
    obtain ⟨loc₁, rfl⟩ := h₁.moved
    obtain ⟨loc₂, rfl⟩ := h₂.moved
    exact ⟨loc₂, rfl⟩
  untouched := by
    refine h₁.untouched.append (h₂.untouched.weaken (fun r hr => ?_) hcur)
    exact h₁.used_of_used hv (hloc r) hr
  means alu m := by
    rw [execAll_append, ← h₁.finite, h₂.means, h₁.finite, h₁.means]

theorem Steps.slotsIn {s t : Octx} {i : Nat} {v v' : OutVal} {c : List Insn}
    (h : Steps s i v t c v') (hin : SlotsIn s) (hcur : t.curStackSz = s.curStackSz)
    (hloc : ∀ off, v'.loc ≠ .spilt off) : SlotsIn t := by
  intro u hu hret hphi off huloc
  rw [hcur]
  obtain ⟨j, hj⟩ := List.mem_iff_getElem?.1 hu
  by_cases hji : j = i
  · rw [hji, h.self] at hj
    obtain rfl := Option.some.inj hj
    exact absurd huloc (hloc off)
  · by_cases hlt : j < s.vals.length
    · rw [h.other j hji hlt] at hj
      exact hin u (List.mem_of_getElem? hj) hret hphi off huloc
    · have hdead := h.dead j u (not_lt.1 hlt) hj
      omega

/-- The callee-save registers are not used to load a flag. -/
theorem unusedReg_after_flag {s t : Octx} {i : Nat} {v : OutVal} {c : List Insn} {r : VReg}
    (h : Steps s i v t c { v with loc := .reg r 0 })
    (hr : s.unusedReg false (implRegIsScratch s.currentFnty) = some r)
    (hv : s.vals[i]? = some v) (hret : 0 < v.retains) (hloc : ∀ r off, v.loc ≠ .reg r off)
    (fp : Bool) :
    t.unusedReg fp (implRegIsCalleeSave t.currentFnty) =
      s.unusedReg fp (implRegIsCalleeSave s.currentFnty) := by
  obtain ⟨-, hscratch, hfp, -, -⟩ := unusedReg_some hr
  rw [unusedReg_eq_head?, unusedReg_eq_head?, h.fnty]
  congr 1
  apply freeRegs_congr
  intro q _ hq
  have hne : q ≠ r := by
    rintro rfl
    rw [implRegIsScratch, hfp, hq] at hscratch
    cases hscratch
  rw [Bool.eq_iff_iff, h.used_iff hv hret (hloc q), or_iff_left]
  rintro ⟨off, heq⟩
  exact hne (Loc.reg.inj heq).1.symm

end Ucc.Cc1.Save
