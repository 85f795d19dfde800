/-
  Cc1/SaveRegs.lean --- registers that are saved before a call.

  Source: v_save_regs, v_save_reg, v_spill_reg, v_to_stack_mem, v_unused_reg2,
  v_freeup_regp and v_reg_apply_offset in src/cc1/out/virt.c; v_register, v_dup,
  out_val_overwrite and v_try_stack_reclaim in src/cc1/out/val.c; out_aalloc in
  src/cc1/out/stack.c; impl_reg_is_callee_save in src/cc1/out/impl.c;
  calling_convs, impl_reg_is_scratch, impl_reg_savable, impl_load, impl_store,
  x86_cmp and x86_need_fp_parity_p in src/cc1/out/x86_64.c.

  The values are listed in the order in which they were made: `val_head` is the
  last of them, `prev` the next.  A value is known by its index.  `V_REGOFF` and
  `V_SPILT` are made by `v_to_stack_mem` only, out of a place in the frame.  The
  type of a `V_SPILT` is that of the value, which is what `v_get_type` gives.
  `mark_callee_save_reg_as_used` is for the prologue, and is left out.
  `none` is where an assertion fails, where a null pointer is followed, and where
  the fuel runs out.
-/
import Ucc.Cc1.CallStack
import Ucc.Cc1.OutOp
import Ucc.Cc1.Stack
import Ucc.Lib.Round

set_option autoImplicit false

namespace Ucc.Cc1.Save

open Ucc.Cc1.Out (Width)
open Ucc.Cc1.Stack (VReg regBp regSp implRegFrameConst)

/-! ## The processor -/

/-- The flags that a condition reads. -/
structure CpuFlags where
  zf : Bool
  sf : Bool
  ovf : Bool
  cf : Bool
  pf : Bool
deriving DecidableEq, Repr

/-- Registers, the memory at each distance from the frame base, the flags, and the
addresses of labels, which are not known when the program is compiled. -/
structure Machine where
  regs : VReg → BitVec 64
  mem : Int → BitVec 8
  flags : CpuFlags
  labels : String → BitVec 64

/-- `enum flag_cmp` -/
inductive FlagCmp where
  | eq | ne | le | lt | ge | gt | overflow | noOverflow | signbit | noSignbit
deriving DecidableEq, Repr

/-- `struct flag_opts` -/
structure FlagOpts where
  cmp : FlagCmp
  modSigned : Bool
  modFloat : Bool
deriving DecidableEq, Repr

/-- `x86_cmp`, as the processor reads it. -/
def x86Cmp (f : FlagOpts) (c : CpuFlags) : Bool :=
  match f.cmp with
  | .eq => c.zf
  | .ne => !c.zf
  | .le => if f.modSigned then c.zf || c.sf != c.ovf else c.cf || c.zf
  | .lt => if f.modSigned then c.sf != c.ovf else c.cf
  | .ge => if f.modSigned then c.sf == c.ovf else !c.cf
  | .gt => if f.modSigned then !c.zf && c.sf == c.ovf else !c.cf && !c.zf
  | .overflow => c.ovf
  | .noOverflow => !c.ovf
  | .signbit => c.sf
  | .noSignbit => !c.sf

/-- `x86_need_fp_parity_p`, with `flip_result`. -/
def x86NeedFpParityP (finiteMath : Bool) (f : FlagOpts) : Option Bool :=
  if !f.modFloat || finiteMath then none
  else
    match f.cmp with
    | .ge => none
    | .gt => none
    | .ne => some true
    | _ => some false

/-- Whether the comparison holds, where the parity says that it was unordered. -/
def FlagOpts.holds (f : FlagOpts) (finiteMath : Bool) (c : CpuFlags) : Bool :=
  match x86NeedFpParityP finiteMath f with
  | none => x86Cmp f c
  | some true => x86Cmp f c || c.pf
  | some false => x86Cmp f c && !c.pf

/-- The low bits of a register, as far as a type goes. -/
def low (w : Width) (x : BitVec 64) : BitVec 64 := (x.setWidth w.bits).setWidth 64

/-- The bytes of a type. -/
def bytes (w : Width) : Nat := w.bits / 8

/-- A register after its low bits were written: 32 bits clear what is above them, but
not in an SSE register. -/
def writeLow (dst : VReg) (w : Width) (old new : BitVec 64) : BitVec 64 :=
  if w = .w32 ∧ dst.isFloat = false then low w new
  else (old >>> w.bits) <<< w.bits ||| low w new

/-- A number of this many bytes in memory. -/
def readMem (mem : Int → BitVec 8) : Int → Nat → Nat
  | _, 0 => 0
  | at', n + 1 => (mem at').toNat + 256 * readMem mem (at' + 1) n

/-- The memory after a number of this many bytes was written. -/
def writeMem (mem : Int → BitVec 8) (at' : Int) (n x : Nat) : Int → BitVec 8 :=
  fun a => if at' ≤ a ∧ a < at' + n then BitVec.ofNat 8 (x / 256 ^ (a - at').toNat) else mem a

/-- A number of this type, in a register. -/
def extend (signed : Bool) (w : Width) (x : BitVec 64) : BitVec 64 :=
  if signed then (x.setWidth w.bits).signExtend 64 else low w x

/-- The instructions that are written here. -/
inductive Insn where
  | mov (w : Width) (src dst : VReg)
  /-- `movl $0`, and `movabsq` -/
  | movImm (n : BitVec 64) (dst : VReg)
  | setcc (f : FlagOpts) (dst : VReg)
  /-- `setp` or `setnp` -/
  | setp (isSet : Bool) (dst : VReg)
  /-- `orb` or `andb` -/
  | orAnd (isOr : Bool) (src dst : VReg)
  /-- `andb $1` -/
  | andOne (dst : VReg)
  /-- `add`, `sub`, `inc` or `dec`, by a constant -/
  | add (w : Width) (n : BitVec 64) (dst : VReg)
  /-- `add` or `sub`, by a register that has the constant -/
  | addReg (w : Width) (minus : Bool) (src dst : VReg)
  /-- `mov` to this distance from the frame base -/
  | store (w : Width) (src : VReg) (off : Int)
  /-- `mov` from there -/
  | load (w : Width) (off : Int) (dst : VReg)
  /-- `mov` of a constant -/
  | movConst (w : Width) (n : BitVec 64) (dst : VReg)
  | lea (base : VReg) (off : Int) (dst : VReg)
  /-- `lea` of a label, or `mov` from its GOT slot and `lea` of the offset -/
  | leaLbl (str : String) (off : Int) (dst : VReg)
  /-- `movs` or `movz`, and `movl` for `movzlq` -/
  | ext (signed : Bool) (small big : Width) (src dst : VReg)
deriving DecidableEq, Repr

/-- A byte that is a truth value. -/
def ofBool (b : Bool) : BitVec 64 := if b then 1 else 0

/-- `alu` is what an arithmetic instruction makes of the flags. -/
def Machine.setReg (m : Machine) (w : Width) (dst : VReg) (x : BitVec 64) : Machine :=
  { m with regs := Function.update m.regs dst (writeLow dst w (m.regs dst) x) }

def Insn.exec (alu : BitVec 64 → CpuFlags) (m : Machine) : Insn → Machine
  | .mov w src dst => m.setReg w dst (m.regs src)
  | .movImm n dst => m.setReg .w64 dst n
  | .setcc f dst => m.setReg .w8 dst (ofBool (x86Cmp f m.flags))
  | .setp isSet dst => m.setReg .w8 dst (ofBool (m.flags.pf == isSet))
  | .orAnd isOr src dst =>
      let x := if isOr then m.regs dst ||| m.regs src else m.regs dst &&& m.regs src
      { m.setReg .w8 dst x with flags := alu x }
  | .andOne dst =>
      let x := m.regs dst &&& 1
      { m.setReg .w8 dst x with flags := alu x }
  | .add w n dst =>
      let x := m.regs dst + n
      { m.setReg w dst x with flags := alu x }
  | .addReg w minus src dst =>
      let x := if minus then m.regs dst - m.regs src else m.regs dst + m.regs src
      { m.setReg w dst x with flags := alu x }
  | .store w src off => { m with mem := writeMem m.mem off (bytes w) (m.regs src).toNat }
  | .load w off dst => m.setReg w dst (BitVec.ofNat 64 (readMem m.mem off (bytes w)))
  | .movConst w n dst => m.setReg w dst n
  | .lea base off dst => m.setReg .w64 dst (m.regs base + BitVec.ofInt 64 off)
  | .leaLbl str off dst => m.setReg .w64 dst (m.labels str + BitVec.ofInt 64 off)
  | .ext signed small big src dst => m.setReg big dst (extend signed small (m.regs src))

/-- The instructions in order. -/
def execAll (alu : BitVec 64 → CpuFlags) (m : Machine) (code : List Insn) : Machine :=
  code.foldl (Insn.exec alu) m

/-! ## Values -/

/-- `enum out_val_store`, with what it needs. -/
inductive Loc where
  | constI (n : BitVec 64)
  | constF (n : BitVec 64)
  | lbl (str : String) (offset : Int)
  | reg (r : VReg) (offset : Int)
  /-- `V_REGOFF`, from the frame base or from the stack pointer -/
  | regoff (sp : Bool) (offset : Int)
  | spilt (offset : Int)
  | flag (f : FlagOpts)
deriving DecidableEq, Repr

/-- `struct out_val` -/
structure OutVal where
  loc : Loc
  retains : Nat
  phiblock : Option Nat
  w : Width
  isFloating : Bool
deriving DecidableEq, Repr

/-- What a value stands for when the code runs. -/
def OutVal.denote (v : OutVal) (finiteMath : Bool) (m : Machine) : BitVec 64 :=
  match v.loc with
  | .constI n => low v.w n
  | .constF n => low v.w n
  | .lbl str offset => low v.w (m.labels str + BitVec.ofInt 64 offset)
  | .reg r offset => low v.w (m.regs r + BitVec.ofInt 64 offset)
  | .regoff sp offset => low v.w (m.regs (if sp then regSp else regBp) + BitVec.ofInt 64 offset)
  | .spilt offset => BitVec.ofNat 64 (readMem m.mem offset (bytes v.w))
  | .flag f => ofBool (f.holds finiteMath m.flags)

/-! ## Conventions -/

/-- `callee_save_regs` of `calling_convs` -/
def calleeSaveRegs : CallingConv → List VReg
  | .x64Sysv => [⟨1, false⟩, ⟨14, false⟩, ⟨10, false⟩, ⟨11, false⟩, ⟨12, false⟩, ⟨13, false⟩]
  | .x64Ms =>
      [⟨1, false⟩, ⟨4, false⟩, ⟨5, false⟩, ⟨10, false⟩, ⟨11, false⟩, ⟨12, false⟩, ⟨13, false⟩,
        ⟨6, true⟩, ⟨7, true⟩]
  | .cdecl => [⟨1, false⟩, ⟨4, false⟩, ⟨5, false⟩]
  | .stdcall => []
  | .fastcall => []

/-- `impl_reg_is_callee_save` -/
def implRegIsCalleeSave (fnty : CallingConv) (r : VReg) : Bool :=
  decide (r ∈ calleeSaveRegs fnty)

/-- `impl_reg_is_scratch` -/
def implRegIsScratch (fnty : CallingConv) (r : VReg) : Bool :=
  r.isFloat || !implRegIsCalleeSave fnty r

/-- `impl_reg_savable` -/
def implRegSavable (r : VReg) : Bool :=
  r.isFloat || decide (r ≠ regBp ∧ r ≠ regSp)

/-! ## The context -/

/-- The part of `struct out_ctx` that is used here, and the code that was written.
`noReclaim` is `in_prologue || alloca_count`. -/
structure Octx where
  vals : List OutVal
  valTail : Option Nat
  reservedRegs : VReg → Nat
  curStackSz : Nat
  noReclaim : Bool
  currentFnty : CallingConv
  finiteMath : Bool
  code : List Insn

/-- `v_register`: the new value is the head, and its `next` the head before. -/
def Octx.register (s : Octx) (v : OutVal) : Octx :=
  { s with
    vals := s.vals ++ [v]
    valTail :=
      match s.valTail with
      | some i => some i
      | none => if s.vals = [] then none else some (s.vals.length - 1) }

def Octx.emit (s : Octx) (code : List Insn) : Octx := { s with code := s.code ++ code }

def Octx.setVal (s : Octx) (i : Nat) (v : OutVal) : Octx := { s with vals := s.vals.set i v }

def Octx.reserve (s : Octx) (r : VReg) : Octx :=
  { s with reservedRegs := Function.update s.reservedRegs r (s.reservedRegs r + 1) }

/-! ## `v_unused_reg2` -/

/-- A retained value in this register. -/
def OutVal.heldIn (v : OutVal) (r : VReg) : Bool :=
  decide (0 < v.retains) &&
    match v.loc with
    | .reg r' _ => decide (r' = r)
    | _ => false

/-- `used` -/
def Octx.used (s : Octx) (r : VReg) : Bool :=
  decide (s.reservedRegs r ≠ 0) || s.vals.any (·.heldIn r)

/-- The registers from `begin` to `end`. -/
def regsOf (fp : Bool) : List VReg :=
  (List.range (if fp then 8 else 14)).map (⟨·, fp⟩)

/-- The search of `v_unused_reg2`, without `to_replace`.  Only registers that pass the
test are marked as used, and only these are looked at. -/
def Octx.unusedReg (s : Octx) (fp : Bool) (regtest : VReg → Bool) : Option VReg :=
  (regsOf fp).find? fun r => !s.used r && regtest r

/-- Whether a value is what `first` is set to. -/
def OutVal.isFirst (v : OutVal) (fp : Bool) (regtest : VReg → Bool) : Bool :=
  decide (0 < v.retains) &&
    match v.loc with
    | .reg r _ => r.isFloat == fp && regtest r
    | _ => false

/-- `first`: the list is walked from its head. -/
def Octx.first (s : Octx) (fp : Bool) (regtest : VReg → Bool) : Option Nat :=
  (List.range s.vals.length).reverse.find? fun i =>
    match s.vals[i]? with
    | some v => v.isFirst fp regtest
    | none => false

/-! ## Frame -/

/-- `out_aalloct` for a scalar, whose size is its alignment.  Sizes of a frame are
below `2 ^ 32`, where `pack_to_align` rounds up. -/
def Octx.aalloct (s : Octx) (w : Width) : Octx :=
  { s with curStackSz := Lib.roundUp s.curStackSz (bytes w) + bytes w }

/-- A value that `v_try_stack_reclaim` gives up for. -/
def OutVal.blocks (v : OutVal) : Bool :=
  decide (0 < v.retains) && v.phiblock.isNone &&
    match v.loc with
    | .reg r _ => !implRegFrameConst r false
    | .regoff sp _ => sp
    | _ => false

/-- How far below the frame base a value is that `v_try_stack_reclaim` counts. -/
def OutVal.depth (v : OutVal) : Nat :=
  if 0 < v.retains ∧ v.phiblock = none then
    match v.loc with
    | .reg r offset => if implRegFrameConst r false then (-offset).toNat else 0
    | .regoff sp offset => if sp then 0 else (-offset).toNat
    | .spilt offset => (-offset).toNat
    | _ => 0
  else 0

/-- `v_try_stack_reclaim` -/
def Octx.tryStackReclaim (s : Octx) : Octx :=
  if s.noReclaim || s.vals.any (·.blocks) then s
  else { s with curStackSz := s.vals.foldl (fun lowest v => max lowest v.depth) 0 }

/-! ## Moves and spills -/

/-- `impl_reg_cp_no_off` -/
def regCp (w : Width) (src dst : VReg) : List Insn :=
  if src = dst then [] else [.mov w src dst]

/-- A value in a register is copied to another, and is there from then on. -/
def Octx.moveTo (s : Octx) (i : Nat) (v : OutVal) (r : VReg) (offset : Int) (dst : VReg) : Octx :=
  (s.emit (regCp v.w r dst)).setVal i { v with loc := .reg dst offset }

/-- A spill of a value with no free register to go through. -/
abbrev Spill := Octx → Nat → Option Octx

/-- `v_save_reg`; without `fnty` no callee-save register is looked for. -/
def vSaveReg (spill : Spill) (s : Octx) (i : Nat) (fnty : Bool) : Option Octx :=
  match s.vals[i]? with
  | some v =>
      match v.loc with
      | .reg r offset =>
          if fnty then
            match s.unusedReg v.isFloating (implRegIsCalleeSave s.currentFnty) with
            | some csReg => some (s.moveTo i v r offset csReg)
            | none => spill s i
          else spill s i
      -- "not reg"
      | _ => none
  | none => none

/-- `v_freeup_regp` -/
def vFreeupRegp (spill : Spill) (s : Octx) (i : Nat) : Option Octx :=
  match s.vals[i]? with
  | some v =>
      match v.loc with
      | .reg r offset =>
          match (s.reserve r).unusedReg r.isFloat (implRegIsScratch s.currentFnty) with
          | some dst => some (s.moveTo i v r offset dst)
          | none => vSaveReg spill s i true
      | _ => none
  | none => none

/-- `v_unused_reg` with `stack_as_backup`: a free scratch register, or that of `first`
once `first` is elsewhere. -/
def vUnusedReg (spill : Spill) (s : Octx) (fp : Bool) : Option (VReg × Octx) :=
  match s.unusedReg fp (implRegIsScratch s.currentFnty) with
  | some r => some (r, s)
  | none => do
      let i ← s.first fp (implRegIsScratch s.currentFnty)
      let v ← s.vals[i]?
      match v.loc with
      | .reg r _ => do
          let s ← vFreeupRegp spill s i
          some (r, s)
      | _ => none

/-- A new value in a register, that is retained. -/
def regVal (r : VReg) (offset : Int) (w : Width) : OutVal := ⟨.reg r offset, 1, none, w, false⟩

/-- A value with no one left to retain it. -/
def Octx.release (s : Octx) (i : Nat) : Octx :=
  { s with vals := s.vals.modify i fun v => { v with retains := 0 } }

/-- `impl_op`, of the copy that is the value at `d` and the constant `abs(off)`.  A
constant of more than 31 bits goes through a register of its own. -/
def addOffset (spill : Spill) (s : Octx) (d : Nat) (off : Int) : Option (VReg × Octx) := do
  let (imm, s) ←
    if off.natAbs < 2 ^ 31 then some (none, s)
    else do
      let (r, s) ← vUnusedReg spill s false
      some (some r, s.emit [.movImm (BitVec.ofNat 64 off.natAbs) r])
  let v ← s.vals[d]?
  match v.loc with
  | .reg dst _ =>
      match imm with
      | none => some (dst, s.emit [.add v.w (BitVec.ofInt 64 off) dst])
      | some r => some (dst, s.emit [.addReg v.w (decide (off < 0)) r dst])
  -- "v_dup_or_reuse() on a V_SPILT"
  | _ => none

/-- `v_reg_apply_offset` of a value that is retained more than once: `v_dup` copies the
register, while the offset is away, and the copy is added to. -/
def applyOffset (spill : Spill) (s : Octx) (i : Nat) (v : OutVal) (r : VReg) (off : Int) :
    Option (VReg × Octx) := do
  let (dst, s) ← vUnusedReg spill (s.setVal i { v with loc := .reg r 0 }) r.isFloat
  let v ← s.vals[i]?
  match v.loc with
  | .reg r _ => do
      let s := (s.emit (regCp v.w r dst)).setVal i { v with loc := .reg r off }
      let (dst, s') ← addOffset spill (s.register (regVal dst 0 v.w)) s.vals.length off
      some (dst, s'.release s.vals.length)
  -- "reg_cp on non register type"
  | _ => none

/-- `v_spill_reg` -/
def vSpillRegWith (spill : Spill) (s : Octx) (i : Nat) : Option Octx :=
  match s.vals[i]? with
  | some v =>
      match v.loc with
      | .reg r off => do
          let stackPos := s.vals.length
          let s := s.aalloct v.w
          let slot : Int := -s.curStackSz
          let s := s.register (regVal regBp slot .w64)
          let (src, s) ← if off = 0 then some (r, s) else applyOffset spill s i v r off
          let s := s.emit [.store v.w src slot]
          some ((s.setVal i { v with loc := .spilt slot }).release stackPos).tryStackReclaim
      | _ => none
  | none => none

/-- `v_spill_reg`, which comes back to itself where it has to free a register. -/
def vSpillReg : Nat → Spill
  | 0 => fun _ _ => none
  | fuel + 1 => vSpillRegWith (vSpillReg fuel)

/-! ## Flags -/

/-- The second register of a comparison that may be unordered, and what is done with
it. -/
def chkParity (spill : Spill) (s : Octx) (r : VReg) : Option Bool → Option Octx
  | none => some s
  | some flip => do
      let (parityReg, s) ← vUnusedReg spill (s.reserve r) false
      let s := { s with reservedRegs := fun q => s.reservedRegs q - if q = r then 1 else 0 }
      some (s.emit [.setp flip parityReg, .orAnd flip parityReg r, .andOne r])

/-- `v_to_reg` of a flag: `impl_load` into a register that is free. -/
def flagToReg (spill : Spill) (s : Octx) (i : Nat) (v : OutVal) (f : FlagOpts) : Option Octx := do
  let (r, s) ← vUnusedReg spill s false
  let s := (s.register (regVal r 0 .w32)).release s.vals.length
  let s := s.emit [.movImm 0 r, .setcc f r]
  let s ← chkParity spill s r (x86NeedFpParityP s.finiteMath f)
  -- "need to promote, since we forced char type"
  let s := if v.w = .w8 then s else s.emit [.ext true .w8 v.w r r]
  some (s.setVal i { v with loc := .reg r 0 })

/-! ## `v_save_regs` -/

/-- Whether `v_save_regs` goes on to the next value. -/
def skips (ignores : List Nat) (fnval : Option Nat) (i : Nat) (v : OutVal) : Bool :=
  decide (v.retains = 0) || v.phiblock.isSome || decide (fnval = some i) || decide (i ∈ ignores)

/-- The body of the loop of `v_save_regs`. -/
def saveVal (spill : Spill) (s : Octx) (funcTy : Option CallingConv) (i : Nat) (v : OutVal) :
    Option Octx :=
  match v.loc with
  | .reg r _ =>
      if !implRegSavable r then some s
      else if funcTy.isSome && implRegIsCalleeSave s.currentFnty r then some s
      else vSaveReg spill s i funcTy.isSome
  | .flag f =>
      -- "v_save_regs(): retained v"
      if v.retains = 1 then do
        let s ← flagToReg spill s i v f
        vSaveReg spill s i funcTy.isSome
      else none
  | _ => some s

/-- The loop, from the value at `i` to the head. -/
def saveFrom (fuel : Nat) (funcTy : Option CallingConv) (ignores : List Nat)
    (fnval : Option Nat) : Nat → Octx → Nat → Option Octx
  | 0, _, _ => none
  | steps + 1, s, i =>
      match s.vals[i]? with
      | none => some s
      | some v =>
          if skips ignores fnval i v then saveFrom fuel funcTy ignores fnval steps s (i + 1)
          else do
            let s ← saveVal (vSpillReg fuel) s funcTy i v
            saveFrom fuel funcTy ignores fnval steps s (i + 1)

/-- `v_save_regs` -/
def vSaveRegs (fuel : Nat) (s : Octx) (funcTy : Option CallingConv) (ignores : List Nat)
    (fnval : Option Nat) : Option Octx :=
  match s.valTail with
  | none => some s
  | some i => saveFrom fuel funcTy ignores fnval fuel s i

end Ucc.Cc1.Save
