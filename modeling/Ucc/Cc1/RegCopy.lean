/-
  Cc1/RegCopy.lean --- a struct on its way through the return registers.

  Source: impl_overlay_mem_reg in src/cc1/out/impl.c; x86_func_ret_regs and the
  end of impl_call in src/cc1/out/x86_64.c; type_primitive_not_less_than_size in
  src/cc1/type.c.

  The compiler writes one access for each turn of its loop: the callee loads the
  struct into the registers, and the caller stores the registers to its own copy.
  A turn takes the largest access that fits into what is left, and the next one
  starts a whole word further on.
-/
import Ucc.Cc1.FoldSue
import Ucc.Cc1.RegPair

set_option autoImplicit false

namespace Ucc.Cc1

open Ucc.Cc1.Stack (VReg)

/-! ## `impl_overlay_mem_reg` -/

/-- The assertions of `impl_overlay_mem_reg`. -/
inductive OverlayError where
  /-- "not enough registers for memory overlay" -/
  | notEnough
  /-- "float for memsz %u?" -/
  | floatMemsz
  /-- "reading/writing too much memory" -/
  | tooMuch
  /-- "reg oob" -/
  | regOob
  /-- `type_unknown`, for no bytes at all -/
  | typeUnknown
  deriving DecidableEq, Repr

/-- An access of the code that is written: a register, an offset and a size. -/
structure RegAccess where
  reg : VReg
  offset : Nat
  size : Nat
  deriving DecidableEq, Repr

/-- The size of `this_ty`, a floating type for a floating register and otherwise the
largest unsigned one that fits. -/
def thisTySize (reg : VReg) (memsz : Nat) : Except OverlayError Nat :=
  if reg.isFloat then
    if 4 ≤ memsz then .ok (if 4 < memsz then 8 else 4) else .error .floatMemsz
  else
    match typePrimitiveNotLessThanSize .bits64 memsz with
    | some sz => .ok sz
    | none => .error .typeUnknown

/-- `this_sz` -/
def thisSz (reg : VReg) (memsz : Nat) : Except OverlayError Nat := do
  let sz ← thisTySize reg memsz
  if sz ≤ memsz then .ok sz else .error .tooMuch

/-- The sizes of the types. -/
theorem thisTySize_mem {reg : VReg} {memsz sz : Nat} (h : thisTySize reg memsz = .ok sz) :
    sz = 8 ∨ sz = 4 ∨ sz = 2 ∨ sz = 1 := by
  unfold thisTySize at h
  split at h
  · split at h
    · obtain rfl := Except.ok.inj h
      split <;> simp
    · cases h
  · split at h
    · rename_i prim hprim
      obtain rfl := Except.ok.inj h
      simpa [Arch.ulongSize] using List.mem_of_find?_eq_some hprim
    · cases h

theorem thisSz_eq_ok_iff {reg : VReg} {memsz sz : Nat} :
    thisSz reg memsz = .ok sz ↔ thisTySize reg memsz = .ok sz ∧ sz ≤ memsz := by
  unfold thisSz
  cases thisTySize reg memsz with
  | error e =>
    constructor
    · intro h
      cases h
    · rintro ⟨h, -⟩
      cases h
  | ok sz' =>
    simp only [Except.bind, bind]
    split
    · simp only [Except.ok.injEq]
      constructor
      · rintro rfl
        exact ⟨rfl, ‹_›⟩
      · rintro ⟨rfl, -⟩
        rfl
    · constructor
      · intro h
        cases h
      · rintro ⟨h, hle⟩
        cases h
        contradiction

/-- A turn takes at least a byte. -/
theorem thisSz_pos {reg : VReg} {memsz sz : Nat} (h : thisSz reg memsz = .ok sz) : 0 < sz := by
  have hmem := thisTySize_mem (thisSz_eq_ok_iff.1 h).1
  omega

/-- The loop, with `memsz` bytes left at the register `regI`. -/
def overlayLoop (mem2reg : Bool) (nregs : Nat) (regs : Nat → VReg) (memsz regI : Nat) :
    Except OverlayError (List RegAccess) :=
  match h : thisSz (regs regI) memsz with
  | .error e => .error e
  | .ok sz =>
      if mem2reg ∧ nregs ≤ regI then .error .regOob
      else
        let access : RegAccess := ⟨regs regI, wordSize * regI, sz⟩
        -- "early termination"
        if memsz - sz = 0 then .ok [access]
        else do
          let rest ← overlayLoop mem2reg nregs regs (memsz - sz) (regI + 1)
          .ok (access :: rest)
termination_by memsz
decreasing_by
  have hpos := thisSz_pos h
  omega

/-- `impl_overlay_mem_reg` -/
def implOverlayMemReg (mem2reg : Bool) (memsz nregs : Nat) (regs : Nat → VReg) :
    Except OverlayError (List RegAccess) :=
  if memsz = 0 then .ok []
  else if nregs * wordSize < memsz then .error .notEnough
  else overlayLoop mem2reg nregs regs memsz 0

/-- `impl_overlay_mem2regs` -/
def implOverlayMem2regs (memsz nregs : Nat) (regs : Nat → VReg) :
    Except OverlayError (List RegAccess) :=
  implOverlayMemReg true memsz nregs regs

/-- `impl_overlay_regs2mem` -/
def implOverlayRegs2mem (memsz nregs : Nat) (regs : Nat → VReg) :
    Except OverlayError (List RegAccess) :=
  implOverlayMemReg false memsz nregs regs

/-! ## The code that is written -/

/-- Memory, from the start of the struct on. -/
abbrev StructMem := Nat → UInt8

/-- The bytes of the registers. -/
abbrev RegBytes := VReg → Nat → UInt8

/-- A load; `upper` is what it leaves in the rest of the register. -/
def RegAccess.load (upper : Nat → UInt8) (mem : StructMem) (regs : RegBytes) (a : RegAccess) :
    RegBytes :=
  Function.update regs a.reg fun j => if j < a.size then mem (a.offset + j) else upper j

/-- A store. -/
def RegAccess.store (regs : RegBytes) (mem : StructMem) (a : RegAccess) : StructMem :=
  fun x => if a.offset ≤ x ∧ x < a.offset + a.size then regs a.reg (x - a.offset) else mem x

/-- The registers after the loads of the callee. -/
def runLoads (upper : Nat → UInt8) (mem : StructMem) (regs : RegBytes) (l : List RegAccess) :
    RegBytes :=
  l.foldl (RegAccess.load upper mem) regs

/-- The memory after the stores of the caller. -/
def runStores (regs : RegBytes) (mem : StructMem) (l : List RegAccess) : StructMem :=
  l.foldl (RegAccess.store regs) mem

/-- A struct is returned in registers: no assertion fails in the callee or in the
caller, only bytes of the struct are accessed, and the caller's copy gets all of
them and changes nowhere else. -/
def ReturnsWhole (size : Nat) (members : List RetMember) : Prop :=
  ∀ calleeRegs callerRegs : Nat → VReg, ∃ callee caller loads stores,
    x86OverlayRegpair calleeRegs members = some callee ∧
    implOverlayMem2regs size callee.nregs callee.regpair = .ok loads ∧
    x86OverlayRegpair callerRegs members = some caller ∧
    implOverlayRegs2mem size caller.nregs caller.regpair = .ok stores ∧
    (∀ a ∈ loads, a.offset + a.size ≤ size) ∧ (∀ a ∈ stores, a.offset + a.size ≤ size) ∧
    ∀ upper mem mem' regs,
      (∀ x < size, runStores (runLoads upper mem regs loads) mem' stores x = mem x) ∧
      ∀ x, size ≤ x → runStores (runLoads upper mem regs loads) mem' stores x = mem' x

/-- When a struct can be returned in registers. -/
structure CopyFits (size : Nat) (members : List RetMember) : Prop where
  /-- 64 bits are not reached three times, as they can be in a union -/
  two : memberBits (afterRuns 2 members) < 64
  /-- padding does not keep more than 8 bytes within one run -/
  enough : 8 < size → 64 ≤ memberBits members
  /-- one access can take what is left for the last register -/
  rest : size % 8 = 0 ∨ size % 8 = 1 ∨ size % 8 = 2 ∨ size % 8 = 4
  /-- no `float` is wanted for one or two bytes -/
  float : size % 8 = 1 ∨ size % 8 = 2 → ¬ FloatRun (runOf members (size / 8))

/-! ## One turn -/

/-- A whole word. -/
theorem thisSz_word (reg : VReg) {memsz : Nat} (h : 8 ≤ memsz) : thisSz reg memsz = .ok 8 := by
  rw [thisSz_eq_ok_iff]
  refine ⟨?_, h⟩
  unfold thisTySize
  split
  · rw [if_pos (by omega), if_pos (by omega)]
  · have hprim : typePrimitiveNotLessThanSize .bits64 memsz = some 8 := by
      simp [typePrimitiveNotLessThanSize, Arch.ulongSize, h]
    rw [hprim]

/-- What is left at the last register is taken at once exactly if it has the size of a
type, and of a floating type for a floating register. -/
theorem thisSz_all_iff (reg : VReg) {memsz : Nat} (hpos : 1 ≤ memsz) (hle : memsz ≤ 8) :
    thisSz reg memsz = .ok memsz ↔
      (memsz = 8 ∨ memsz = 1 ∨ memsz = 2 ∨ memsz = 4) ∧ (reg.isFloat = true → 4 ≤ memsz) := by
  rw [thisSz_eq_ok_iff, thisTySize]
  cases reg.isFloat <;> interval_cases memsz <;>
    simp [typePrimitiveNotLessThanSize, Arch.ulongSize]

/-! ## The loop -/

section Loop

variable {mem2reg : Bool} {nregs : Nat} {regs : Nat → VReg} {memsz regI : Nat}

theorem overlayLoop_last (hsz : thisSz (regs regI) memsz = .ok memsz) (hreg : regI < nregs) :
    overlayLoop mem2reg nregs regs memsz regI = .ok [⟨regs regI, wordSize * regI, memsz⟩] := by
  rw [overlayLoop]
  split
  · rename_i e he
    rw [hsz] at he
    cases he
  · rename_i sz he
    obtain rfl := Except.ok.inj (hsz.symm.trans he)
    rw [if_neg (by omega), if_pos (Nat.sub_self _)]

theorem overlayLoop_next {sz : Nat} (hsz : thisSz (regs regI) memsz = .ok sz) (hlt : sz < memsz)
    (hreg : regI < nregs) :
    overlayLoop mem2reg nregs regs memsz regI =
      (overlayLoop mem2reg nregs regs (memsz - sz) (regI + 1)).map
        (⟨regs regI, wordSize * regI, sz⟩ :: ·) := by
  rw [overlayLoop]
  split
  · rename_i e he
    rw [hsz] at he
    cases he
  · rename_i sz' he
    obtain rfl := Except.ok.inj (hsz.symm.trans he)
    rw [if_neg (by omega), if_neg (by omega)]
    rfl

/-- A turn for which there is no register. -/
theorem overlayLoop_regOob {sz : Nat} (hsz : thisSz (regs regI) memsz = .ok sz)
    (hreg : nregs ≤ regI) : overlayLoop true nregs regs memsz regI = .error .regOob := by
  rw [overlayLoop]
  split
  · rename_i e he
    rw [hsz] at he
    cases he
  · rw [if_pos ⟨rfl, hreg⟩]

/-- What a loop that ends has written. -/
theorem overlayLoop_ok {l : List RegAccess}
    (h : overlayLoop mem2reg nregs regs memsz regI = .ok l) :
    ∃ sz, thisSz (regs regI) memsz = .ok sz ∧
      ((sz = memsz ∧ l = [⟨regs regI, wordSize * regI, sz⟩]) ∨
        ∃ rest, sz < memsz ∧ overlayLoop mem2reg nregs regs (memsz - sz) (regI + 1) = .ok rest ∧
          l = ⟨regs regI, wordSize * regI, sz⟩ :: rest) := by
  rw [overlayLoop] at h
  split at h
  · cases h
  · rename_i sz hsz
    have hle := (thisSz_eq_ok_iff.1 hsz).2
    refine ⟨sz, hsz, ?_⟩
    split at h
    · cases h
    · split at h
      · left
        exact ⟨by omega, (Except.ok.inj h).symm⟩
      · right
        cases hrest : overlayLoop mem2reg nregs regs (memsz - sz) (regI + 1) with
        | error e =>
          rw [hrest] at h
          cases h
        | ok rest =>
          rw [hrest] at h
          exact ⟨rest, by omega, rfl, (Except.ok.inj h).symm⟩

/-- The first access is at the word of its register. -/
theorem overlayLoop_head {l : List RegAccess}
    (h : overlayLoop mem2reg nregs regs memsz regI = .ok l) :
    ∃ a ∈ l, a.offset = wordSize * regI ∧ 0 < a.size := by
  obtain ⟨sz, hsz, ⟨-, rfl⟩ | ⟨rest, -, -, rfl⟩⟩ := overlayLoop_ok h
  · exact ⟨_, List.mem_cons_self, rfl, thisSz_pos hsz⟩
  · exact ⟨_, List.mem_cons_self, rfl, thisSz_pos hsz⟩

/-- In the last word, a second access is behind the struct. -/
theorem overlayLoop_within {l : List RegAccess} (hle : memsz ≤ wordSize)
    (h : overlayLoop mem2reg nregs regs memsz regI = .ok l)
    (hl : ∀ a ∈ l, a.offset + a.size ≤ wordSize * regI + memsz) :
    thisSz (regs regI) memsz = .ok memsz := by
  obtain ⟨sz, hsz, ⟨rfl, -⟩ | ⟨rest, -, hrest, rfl⟩⟩ := overlayLoop_ok h
  · exact hsz
  · obtain ⟨a, ha, hoff, hpos⟩ := overlayLoop_head hrest
    have hin := hl a (List.mem_cons_of_mem _ ha)
    rw [hoff, Nat.mul_add] at hin
    omega

end Loop

/-! ## A whole copy -/

/-- The accesses of a copy: a word for each register, but for the last. -/
def copyAccesses (regs : Nat → VReg) (size : Nat) : List RegAccess :=
  if size ≤ 8 then [⟨regs 0, 0, size⟩] else [⟨regs 0, 0, 8⟩, ⟨regs 1, 8, size - 8⟩]

/-- One access can take what is left for the last register. -/
def LastFits (regs : Nat → VReg) (size : Nat) : Prop :=
  if size ≤ 8 then thisSz (regs 0) size = .ok size
  else thisSz (regs 1) (size - 8) = .ok (size - 8)

section Copy

variable {mem2reg : Bool} {size nregs : Nat} {regs : Nat → VReg}

theorem implOverlayMemReg_eq (hpos : 1 ≤ size) (hsize : size ≤ 16) (hn : size ≤ nregs * wordSize)
    (hlast : LastFits regs size) :
    implOverlayMemReg mem2reg size nregs regs = .ok (copyAccesses regs size) := by
  have hwords : size ≤ nregs * 8 := hn
  rw [implOverlayMemReg, if_neg (by omega), if_neg (by omega), copyAccesses]
  rw [LastFits] at hlast
  split at hlast
  · rw [if_pos ‹_›]
    exact overlayLoop_last hlast (by omega)
  · rw [if_neg ‹_›]
    rw [overlayLoop_next (thisSz_word (regs 0) (by omega)) (by omega) (by omega),
      overlayLoop_last hlast (by omega)]
    rfl

/-- A copy that stays within the struct. -/
theorem lastFits_of_within (hpos : 1 ≤ size) (hsize : size ≤ 16) {l : List RegAccess}
    (h : implOverlayMemReg mem2reg size nregs regs = .ok l)
    (hl : ∀ a ∈ l, a.offset + a.size ≤ size) :
    size ≤ nregs * wordSize ∧ LastFits regs size := by
  rw [implOverlayMemReg, if_neg (by omega)] at h
  split at h
  · cases h
  · refine ⟨by omega, ?_⟩
    unfold LastFits
    split
    · exact overlayLoop_within ‹_› h (by simpa using hl)
    · obtain ⟨sz, hsz, hcases⟩ := overlayLoop_ok h
      obtain rfl := Except.ok.inj (hsz.symm.trans (thisSz_word (regs 0) (by omega)))
      obtain ⟨hsz', -⟩ | ⟨rest, -, hrest, rfl⟩ := hcases
      · omega
      · refine overlayLoop_within (by simp only [wordSize]; omega) hrest fun a ha => ?_
        have hin := hl a (List.mem_cons_of_mem _ ha)
        simp only [wordSize]
        omega

/-- Stored after they were loaded, all bytes are those of the struct. -/
theorem runStores_runLoads (hne : regs 0 ≠ regs 1) (upper : Nat → UInt8) (mem mem' : StructMem)
    (rf : RegBytes) (x : Nat) :
    runStores (runLoads upper mem rf (copyAccesses regs size)) mem' (copyAccesses regs size) x =
      if x < size then mem x else mem' x := by
  unfold copyAccesses
  split
  · simp only [runStores, runLoads, List.foldl, RegAccess.load, RegAccess.store,
      Function.update_self, Nat.zero_le, true_and, Nat.zero_add, Nat.sub_zero]
    split
    · rfl
    · rfl
  · simp only [runStores, runLoads, List.foldl, RegAccess.load, RegAccess.store,
      Function.update_self, Function.update_of_ne hne, Nat.zero_le, true_and, Nat.zero_add,
      Nat.sub_zero]
    by_cases hhigh : 8 ≤ x ∧ x < 8 + (size - 8)
    · rw [if_pos hhigh, if_pos (by omega), if_pos (by omega)]
      congr 1
      omega
    · rw [if_neg hhigh]
      by_cases hlow : x < 8
      · rw [if_pos hlow, if_pos hlow, if_pos (by omega)]
      · rw [if_neg hlow, if_neg (by omega)]

end Copy

theorem copyAccesses_within (regs : Nat → VReg) (size : Nat) :
    ∀ a ∈ copyAccesses regs size, a.offset + a.size ≤ size := by
  intro a ha
  unfold copyAccesses at ha
  split at ha
  · obtain rfl := List.mem_singleton.1 ha
    simp
  · rcases List.mem_cons.1 ha with rfl | ha
    · simp only
      omega
    · obtain rfl := List.mem_singleton.1 ha
      simp only
      omega

/-- The two registers are never the same. -/
theorem runReg_ne (ms : List RetMember) : runReg ms 0 ≠ runReg ms 1 := by
  unfold runReg retReg
  by_cases h0 : FloatRun (runOf ms 0) <;> by_cases h1 : FloatRun (runOf ms 1) <;>
    simp [h0, h1, regRetI1, regRetI2, regRetF1, regRetF2]

/-- Only the registers that are used count. -/
theorem copyAccesses_congr {regs regs' : Nat → VReg} {size nregs : Nat} (hpos : 1 ≤ size)
    (hn : size ≤ nregs * wordSize) (h : ∀ k < nregs, regs k = regs' k) :
    copyAccesses regs size = copyAccesses regs' size := by
  have hwords : size ≤ nregs * 8 := hn
  unfold copyAccesses
  split
  · rw [h 0 (by omega)]
  · rw [h 0 (by omega), h 1 (by omega)]

theorem lastFits_congr {regs regs' : Nat → VReg} {size nregs : Nat} (hpos : 1 ≤ size)
    (hn : size ≤ nregs * wordSize) (h : ∀ k < nregs, regs k = regs' k) :
    LastFits regs size ↔ LastFits regs' size := by
  have hwords : size ≤ nregs * 8 := hn
  unfold LastFits
  split
  · rw [h 0 (by omega)]
  · rw [h 1 (by omega)]

/-- The last access, by the size and the run. -/
theorem lastFits_runReg_iff (ms : List RetMember) {size : Nat} (hpos : 1 ≤ size)
    (hsize : size ≤ 16) :
    LastFits (runReg ms) size ↔
      (size % 8 = 0 ∨ size % 8 = 1 ∨ size % 8 = 2 ∨ size % 8 = 4) ∧
      (size % 8 = 1 ∨ size % 8 = 2 → ¬ FloatRun (runOf ms (size / 8))) := by
  have hfloat (k : Nat) : (runReg ms k).isFloat = true ↔ FloatRun (runOf ms k) := by
    rw [runReg, retReg_isFloat, decide_eq_true_iff]
  unfold LastFits
  split
  · rw [thisSz_all_iff _ hpos ‹_›, hfloat]
    interval_cases size <;> simp
  · have hgt : 9 ≤ size := by omega
    rw [thisSz_all_iff _ (by omega) (by omega), hfloat]
    interval_cases size <;> simp

/-- Both sides of a call get the same accesses. -/
theorem CopyFits.accesses {size : Nat} {members : List RetMember} (h : CopyFits size members)
    (hpos : 1 ≤ size) (hsize : size ≤ 16) (mem2reg : Bool) (stack : Nat → VReg) :
    ∃ r, x86OverlayRegpair stack members = some r ∧
      implOverlayMemReg mem2reg size r.nregs r.regpair =
        .ok (copyAccesses (runReg members) size) := by
  obtain ⟨r, hr, hn, hregs⟩ := @x86OverlayRegpair_some stack members h.two
  have hwords : size ≤ r.nregs * wordSize := by
    rw [hn, wordSize]
    split
    · have : ¬ 8 < size := fun hgt => absurd (h.enough hgt) (not_le.2 ‹_›)
      omega
    · omega
  have hlast := (lastFits_runReg_iff members hpos hsize).2 ⟨h.rest, h.float⟩
  refine ⟨r, hr, ?_⟩
  rw [implOverlayMemReg_eq hpos hsize hwords ((lastFits_congr hpos hwords hregs).2 hlast),
    copyAccesses_congr hpos hwords hregs]

/-- A copy of one side that stays within the struct. -/
theorem copyFits_of_within {size : Nat} {members : List RetMember} (hpos : 1 ≤ size)
    (hsize : size ≤ 16) {mem2reg : Bool} {stack : Nat → VReg} {r : RegPair}
    (hr : x86OverlayRegpair stack members = some r) {l : List RegAccess}
    (hl : implOverlayMemReg mem2reg size r.nregs r.regpair = .ok l)
    (hin : ∀ a ∈ l, a.offset + a.size ≤ size) : CopyFits size members := by
  have htwo : memberBits (afterRuns 2 members) < 64 := by
    by_contra hge
    rw [x86OverlayRegpair_none (not_lt.1 hge)] at hr
    cases hr
  obtain ⟨r', hr', hn, hregs⟩ := @x86OverlayRegpair_some stack members htwo
  obtain rfl : r' = r := Option.some.inj (hr'.symm.trans hr)
  obtain ⟨henough, hlast⟩ := lastFits_of_within hpos hsize hl hin
  rw [lastFits_congr hpos henough hregs, lastFits_runReg_iff members hpos hsize] at hlast
  refine ⟨htwo, fun hgt => ?_, hlast.1, hlast.2⟩
  by_contra hlt
  rw [hn, if_pos (not_le.1 hlt), wordSize] at henough
  omega

end Ucc.Cc1
