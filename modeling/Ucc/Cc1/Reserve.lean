/-
  Cc1/Reserve.lean --- the counters of reserved registers.

  Source: v_reserve_reg, v_unreserve_reg and v_freeup_regp in src/cc1/out/virt.c;
  impl_reg_to_idx, impl_load, x86_idiv and x86_shift in src/cc1/out/x86_64.c;
  impl_overlay_mem_reg in src/cc1/out/impl.c.

  Below the functions of this module the counters are used in three places: by
  `v_freeup_regp`, by `x86_idiv`, and by `impl_load` around the search for a second
  register.  What the rest of the back end does to them is therefore some sequence
  of calls of these, whatever the operands and types are.  Each of the three gives
  back what it takes.  `impl_overlay_mem_reg` takes a register in each turn of its
  loop and gives back all it was passed.
-/
import Ucc.Cc1.RegCopy
import Ucc.Lib.WrapCount

set_option autoImplicit false

namespace Ucc.Cc1.Reserve

open Ucc.Cc1.Stack (VReg)
open Ucc.Lib (Tick level low)

/-! ## The counters -/

/-- `impl_reg_to_idx`, with `N_SCRATCH_REGS_I` integer registers first. -/
def implRegToIdx (r : VReg) : Nat :=
  r.idx + if r.isFloat then 14 else 0

/-- `reserved_regs` -/
abbrev Counters := Nat → BitVec 8

/-- A call of `v_reserve_reg` or `v_unreserve_reg`. -/
inductive ResvOp where
  | reserve (r : VReg)
  | unreserve (r : VReg)
deriving DecidableEq, Repr

/-- `v_reserve_reg` -/
def vReserveReg (c : Counters) (r : VReg) : Counters :=
  Function.update c (implRegToIdx r) (c (implRegToIdx r) + 1#8)

/-- `v_unreserve_reg` -/
def vUnreserveReg (c : Counters) (r : VReg) : Counters :=
  Function.update c (implRegToIdx r) (c (implRegToIdx r) - 1#8)

/-- The counters after one call. -/
def ResvOp.apply (c : Counters) : ResvOp → Counters
  | .reserve r => vReserveReg c r
  | .unreserve r => vUnreserveReg c r

/-- The counters after these calls. -/
def runResv (c : Counters) (ops : List ResvOp) : Counters :=
  ops.foldl ResvOp.apply c

/-- No counter is decremented below zero. -/
def NeverBelowZero : Counters → List ResvOp → Prop
  | _, [] => True
  | c, .reserve r :: ops => NeverBelowZero (vReserveReg c r) ops
  | c, .unreserve r :: ops =>
      c (implRegToIdx r) ≠ 0#8 ∧ NeverBelowZero (vUnreserveReg c r) ops

/-- "we won't reserve it more than 255 times" -/
def NeverPast255 : Counters → List ResvOp → Prop
  | _, [] => True
  | c, .reserve r :: ops =>
      c (implRegToIdx r) ≠ BitVec.allOnes 8 ∧ NeverPast255 (vReserveReg c r) ops
  | c, .unreserve r :: ops => NeverPast255 (vUnreserveReg c r) ops

/-! ## The functions -/

/-- `X86_64_REG_RDX` -/
def rdx : VReg := ⟨3, false⟩

/-- The functions that come back to the counters, and all others of the back end. -/
inductive BackFn where
  /-- `v_freeup_regp`, of a value in this register -/
  | vFreeupRegp (r : VReg)
  /-- `impl_load` of a flag into this register, where it checks the parity -/
  | chkParity (reg : VReg)
  | x86Idiv
  | x86Shift
  | rest
deriving DecidableEq, Repr

/-- What a call of a function may do to the counters.  Branches on anything but the
counters can go either way. -/
inductive BackFn.Runs : BackFn → List ResvOp → Prop
  /-- the search of `v_freeup_regp` has no `stack_as_backup`, and spills nothing -/
  | freeupMoved (r : VReg) : Runs (.vFreeupRegp r) [.reserve r, .unreserve r]
  /-- `v_save_reg`, when there is no free register -/
  | freeupSaved (r : VReg) {save : List ResvOp} (hsave : Runs .rest save) :
      Runs (.vFreeupRegp r) ([.reserve r, .unreserve r] ++ save)
  /-- `v_unused_reg`, with `stack_as_backup` -/
  | chkParity (reg : VReg) {search : List ResvOp} (hsearch : Runs .rest search) :
      Runs (.chkParity reg) (.reserve reg :: search ++ [.unreserve reg])
  /-- `v_freeup_reg`, and the operands and the division with `rdx` reserved -/
  | idiv {freeup divide : List ResvOp} (hfreeup : Runs .rest freeup)
      (hdivide : Runs .rest divide) :
      Runs .x86Idiv (freeup ++ (.reserve rdx :: divide ++ [.unreserve rdx]))
  | shift {ops : List ResvOp} (hops : Runs .rest ops) : Runs .x86Shift ops
  | restDone : Runs .rest []
  | restCall (f : BackFn) {call ops : List ResvOp} (hcall : Runs f call)
      (hops : Runs .rest ops) : Runs .rest (call ++ ops)

/-- The turns of the loop of `impl_overlay_mem_reg`. -/
inductive OverlayTurns (mem2reg : Bool) : List RegAccess → List ResvOp → Prop
  | done : OverlayTurns mem2reg [] []
  /-- the access itself, "prevent changes", and the next address -/
  | turn (a : RegAccess) {accesses : List RegAccess} {access next ops : List ResvOp}
      (haccess : BackFn.rest.Runs access) (hnext : BackFn.rest.Runs next)
      (hops : OverlayTurns mem2reg accesses ops) :
      OverlayTurns mem2reg (a :: accesses)
        (access ++ (if mem2reg then [.reserve a.reg] else []) ++ next ++ ops)

/-- A call for each of the registers that were passed. -/
def forRegs (op : VReg → ResvOp) (nregs : Nat) (regs : Nat → VReg) : List ResvOp :=
  (List.range nregs).map fun regI => op (regs regI)

/-- What `impl_overlay_mem_reg` does to the counters, where no assertion fails. -/
def OverlayRuns (mem2reg : Bool) (memsz nregs : Nat) (regs : Nat → VReg) (ops : List ResvOp) :
    Prop :=
  ∃ accesses, implOverlayMemReg mem2reg memsz nregs regs = .ok accesses ∧
    if memsz = 0 then ops = []
    else
      ∃ turns, OverlayTurns mem2reg accesses turns ∧
        ops = (if mem2reg then [] else forRegs .reserve nregs regs) ++ turns ++
          forRegs .unreserve nregs regs

/-- The functions that are to leave the counters as they were. -/
inductive ResvFn where
  | overlayMem2regs (memsz nregs : Nat) (regs : Nat → VReg)
  | overlayRegs2mem (memsz nregs : Nat) (regs : Nat → VReg)
  | back (f : BackFn)

/-- A run of a function. -/
def ResvFn.Runs : ResvFn → List ResvOp → Prop
  | .overlayMem2regs memsz nregs regs => OverlayRuns true memsz nregs regs
  | .overlayRegs2mem memsz nregs regs => OverlayRuns false memsz nregs regs
  | .back f => f.Runs

/-! ## One counter at a time -/

/-- The step of the counter at `i`. -/
def ResvOp.tickAt (i : Nat) : ResvOp → Option Tick
  | .reserve r => if implRegToIdx r = i then some .up else none
  | .unreserve r => if implRegToIdx r = i then some .down else none

/-- The steps of the counter at `i`. -/
def ticksAt (i : Nat) (ops : List ResvOp) : List Tick :=
  ops.filterMap (ResvOp.tickAt i)

@[simp] theorem ticksAt_nil (i : Nat) : ticksAt i [] = [] := rfl

@[simp] theorem ticksAt_append (i : Nat) (a b : List ResvOp) :
    ticksAt i (a ++ b) = ticksAt i a ++ ticksAt i b :=
  List.filterMap_append

@[simp] theorem ticksAt_reserve (i : Nat) (r : VReg) (ops : List ResvOp) :
    ticksAt i (.reserve r :: ops) =
      if implRegToIdx r = i then .up :: ticksAt i ops else ticksAt i ops := by
  unfold ticksAt
  by_cases h : implRegToIdx r = i <;> simp [ResvOp.tickAt, h]

@[simp] theorem ticksAt_unreserve (i : Nat) (r : VReg) (ops : List ResvOp) :
    ticksAt i (.unreserve r :: ops) =
      if implRegToIdx r = i then .down :: ticksAt i ops else ticksAt i ops := by
  unfold ticksAt
  by_cases h : implRegToIdx r = i <;> simp [ResvOp.tickAt, h]

theorem runResv_apply (c : Counters) (ops : List ResvOp) (i : Nat) :
    runResv c ops i = Lib.runTicks (c i) (ticksAt i ops) := by
  induction ops generalizing c with
  | nil => rfl
  | cons op ops ih =>
    have hstep : runResv c (op :: ops) i = runResv (op.apply c) ops i := rfl
    rw [hstep, ih]
    cases op with
    | reserve r =>
      by_cases h : implRegToIdx r = i
      · simp [ResvOp.apply, vReserveReg, h, Lib.runTicks, Tick.apply]
      · simp [ResvOp.apply, vReserveReg, h, Function.update_of_ne (Ne.symm h)]
    | unreserve r =>
      by_cases h : implRegToIdx r = i
      · simp [ResvOp.apply, vUnreserveReg, h, Lib.runTicks, Tick.apply]
      · simp [ResvOp.apply, vUnreserveReg, h, Function.update_of_ne (Ne.symm h)]

/-- A property of the counter at `j` and of all others, after one of them changed. -/
theorem forall_update_iff (c : Counters) (j : Nat) (x : BitVec 8) (p : Prop)
    (P Q : Nat → BitVec 8 → Prop) (hat : Q j (c j) ↔ p ∧ P j x)
    (hother : ∀ i, i ≠ j → (Q i (c i) ↔ P i (c i))) :
    (p ∧ ∀ i, P i (Function.update c j x i)) ↔ ∀ i, Q i (c i) := by
  constructor
  · rintro ⟨hp, hall⟩ i
    by_cases hi : i = j
    · have hj := hall i
      rw [hi, Function.update_self] at hj
      rw [hi]
      exact hat.2 ⟨hp, hj⟩
    · have hi' := hall i
      rw [Function.update_of_ne hi] at hi'
      exact (hother i hi).2 hi'
  · intro hall
    refine ⟨(hat.1 (hall j)).1, fun i => ?_⟩
    by_cases hi : i = j
    · rw [hi, Function.update_self]
      exact (hat.1 (hall j)).2
    · rw [Function.update_of_ne hi]
      exact (hother i hi).1 (hall i)

theorem neverBelowZero_iff (c : Counters) (ops : List ResvOp) :
    NeverBelowZero c ops ↔ ∀ i, Lib.NeverBelow (c i) (ticksAt i ops) := by
  induction ops generalizing c with
  | nil => simp [NeverBelowZero, Lib.NeverBelow]
  | cons op ops ih =>
    cases op with
    | reserve r =>
      rw [NeverBelowZero, ih, ← true_and (∀ i, _)]
      refine forall_update_iff c _ _ True (fun i x => Lib.NeverBelow x (ticksAt i ops))
        (fun i x => Lib.NeverBelow x (ticksAt i (.reserve r :: ops))) ?_ ?_
      · simp [Lib.NeverBelow]
      · intro i hi
        simp [Ne.symm hi]
    | unreserve r =>
      rw [NeverBelowZero, ih]
      refine forall_update_iff c _ _ _ (fun i x => Lib.NeverBelow x (ticksAt i ops))
        (fun i x => Lib.NeverBelow x (ticksAt i (.unreserve r :: ops))) ?_ ?_
      · simp [Lib.NeverBelow]
      · intro i hi
        simp [Ne.symm hi]

theorem neverPast255_iff (c : Counters) (ops : List ResvOp) :
    NeverPast255 c ops ↔ ∀ i, Lib.NeverPast (c i) (ticksAt i ops) := by
  induction ops generalizing c with
  | nil => simp [NeverPast255, Lib.NeverPast]
  | cons op ops ih =>
    cases op with
    | reserve r =>
      rw [NeverPast255, ih]
      refine forall_update_iff c _ _ _ (fun i x => Lib.NeverPast x (ticksAt i ops))
        (fun i x => Lib.NeverPast x (ticksAt i (.reserve r :: ops))) ?_ ?_
      · simp [Lib.NeverPast]
      · intro i hi
        simp [Ne.symm hi]
    | unreserve r =>
      rw [NeverPast255, ih, ← true_and (∀ i, _)]
      refine forall_update_iff c _ _ True (fun i x => Lib.NeverPast x (ticksAt i ops))
        (fun i x => Lib.NeverPast x (ticksAt i (.unreserve r :: ops))) ?_ ?_
      · simp [Lib.NeverPast]
      · intro i hi
        simp [Ne.symm hi]

/-- The counters are as they were, and none went below zero. -/
def Restores (c : Counters) (ops : List ResvOp) : Prop :=
  runResv c ops = c ∧ NeverBelowZero c ops

theorem restores_iff (c : Counters) (ops : List ResvOp) :
    Restores c ops ↔
      ∀ i, Lib.runTicks (c i) (ticksAt i ops) = c i ∧ Lib.NeverBelow (c i) (ticksAt i ops) := by
  rw [Restores, neverBelowZero_iff, funext_iff, forall_and]
  simp only [runResv_apply]

/-! ## Sequences that give back what they take -/

/-- Every counter comes back to its level, and is never below it. -/
def Balanced (ops : List ResvOp) : Prop :=
  ∀ i, level (ticksAt i ops) = 0 ∧ 0 ≤ low (ticksAt i ops)

theorem balanced_nil : Balanced [] := fun _ => ⟨rfl, le_rfl⟩

theorem Balanced.append {a b : List ResvOp} (ha : Balanced a) (hb : Balanced b) :
    Balanced (a ++ b) := by
  intro i
  obtain ⟨halevel, halow⟩ := ha i
  obtain ⟨hblevel, hblow⟩ := hb i
  rw [ticksAt_append, Lib.level_append, Lib.low_append]
  omega

/-- A register that is reserved while the counters are used. -/
theorem Balanced.bracket {ops : List ResvOp} (hops : Balanced ops) (r : VReg) :
    Balanced (.reserve r :: ops ++ [.unreserve r]) := by
  intro i
  obtain ⟨hlevel, hlow⟩ := hops i
  by_cases hr : implRegToIdx r = i
  · simp only [List.cons_append, ticksAt_reserve, ticksAt_append, ticksAt_unreserve, hr,
      if_true, ticksAt_nil, level, low, Lib.level_append, Lib.low_append]
    omega
  · simp only [List.cons_append, ticksAt_reserve, ticksAt_append, ticksAt_unreserve, hr,
      if_false, ticksAt_nil, level, low, Lib.level_append, Lib.low_append]
    omega

/-- Every function below `impl_overlay_mem_reg` gives back what it takes. -/
theorem BackFn.Runs.balanced {f : BackFn} {ops : List ResvOp} (h : f.Runs ops) :
    Balanced ops := by
  induction h with
  | freeupMoved r => exact balanced_nil.bracket r
  | freeupSaved r hsave ih => exact (balanced_nil.bracket r).append ih
  | chkParity reg hsearch ih => exact ih.bracket reg
  | idiv hfreeup hdivide ihfreeup ihdivide => exact ihfreeup.append (ihdivide.bracket rdx)
  | shift hops ih => exact ih
  | restDone => exact balanced_nil
  | restCall f hcall hops ihcall ihops => exact ihcall.append ihops

/-- A balanced sequence restores the counters where they have the room. -/
theorem Balanced.restores_iff {ops : List ResvOp} (h : Balanced ops) (c : Counters) :
    Restores c ops ↔ NeverPast255 c ops := by
  rw [Reserve.restores_iff, neverPast255_iff]
  exact forall_congr' fun i => Lib.runTicks_balanced_iff (h i).1 (h i).2 (c i)

/-! ## The loop of the overlay -/

/-- The turns for this many bytes: one for each word, and one each for four bytes, two
and one of the rest. -/
def turnsFor (memsz : Nat) : Nat :=
  memsz / 8 + memsz % 8 / 4 + memsz % 4 / 2 + memsz % 2

/-- A turn takes the largest size there is. -/
theorem thisSz_largest {reg : VReg} {memsz sz : Nat} (h : thisSz reg memsz = .ok sz) :
    (8 ≤ memsz ∧ sz = 8) ∨ (4 ≤ memsz ∧ memsz < 8 ∧ sz = 4) ∨
      (2 ≤ memsz ∧ memsz < 4 ∧ sz = 2) ∨ (memsz = 1 ∧ sz = 1) := by
  by_cases hword : 8 ≤ memsz
  · rw [thisSz_word reg hword] at h
    exact Or.inl ⟨hword, (Except.ok.inj h).symm⟩
  · obtain ⟨hty, hle⟩ := thisSz_eq_ok_iff.1 h
    have hsz := thisTySize_mem hty
    unfold thisTySize at hty
    split at hty
    · split at hty
      · have hval := Except.ok.inj hty
        split at hval <;> omega
      · cases hty
    · interval_cases memsz <;>
        simp [typePrimitiveNotLessThanSize, Arch.ulongSize] at hty <;> omega

theorem turnsFor_sub {reg : VReg} {memsz sz : Nat} (h : thisSz reg memsz = .ok sz) :
    turnsFor memsz = turnsFor (memsz - sz) + 1 := by
  unfold turnsFor
  obtain ⟨hle, rfl⟩ | ⟨hle, hlt, rfl⟩ | ⟨hle, hlt, rfl⟩ | ⟨rfl, rfl⟩ := thisSz_largest h <;> omega

/-- A loop that ends has gone through the registers in order. -/
theorem overlayLoop_regs {mem2reg : Bool} {nregs : Nat} {regs : Nat → VReg} {l : List RegAccess}
    {memsz regI : Nat} (h : overlayLoop mem2reg nregs regs memsz regI = .ok l) :
    l.map (·.reg) = (List.range' regI (turnsFor memsz)).map regs := by
  induction l generalizing memsz regI with
  | nil =>
    obtain ⟨sz, -, ⟨-, hl⟩ | ⟨rest, -, -, hl⟩⟩ := overlayLoop_ok h
    · cases hl
    · cases hl
  | cons a l ih =>
    obtain ⟨sz, hsz, ⟨rfl, hl⟩ | ⟨rest, -, hrest, hl⟩⟩ := overlayLoop_ok h
    · obtain ⟨rfl, rfl⟩ := List.cons.inj hl
      have hzero : turnsFor (sz - sz) = 0 := by rw [Nat.sub_self]; rfl
      rw [turnsFor_sub hsz, hzero]
      rfl
    · obtain ⟨rfl, rfl⟩ := List.cons.inj hl
      rw [turnsFor_sub hsz, List.range'_succ, List.map_cons, List.map_cons, ih hrest]

/-- `mem2reg` stops at the registers there are. -/
theorem overlayLoop_turns_le {nregs : Nat} {regs : Nat → VReg} {l : List RegAccess}
    {memsz regI : Nat} (h : overlayLoop true nregs regs memsz regI = .ok l) :
    regI + turnsFor memsz ≤ nregs := by
  induction l generalizing memsz regI with
  | nil =>
    obtain ⟨sz, -, ⟨-, hl⟩ | ⟨rest, -, -, hl⟩⟩ := overlayLoop_ok h
    · cases hl
    · cases hl
  | cons a l ih =>
    have hreg : regI < nregs := by
      by_contra hge
      obtain ⟨sz, hsz, -⟩ := overlayLoop_ok h
      rw [overlayLoop_regOob hsz (not_lt.1 hge)] at h
      cases h
    obtain ⟨sz, hsz, ⟨rfl, hl⟩ | ⟨rest, -, hrest, hl⟩⟩ := overlayLoop_ok h
    · have hzero : turnsFor (sz - sz) = 0 := by rw [Nat.sub_self]; rfl
      rw [turnsFor_sub hsz, hzero]
      omega
    · obtain ⟨rfl, rfl⟩ := List.cons.inj hl
      have hle := ih hrest
      rw [turnsFor_sub hsz]
      omega

/-- How many of these registers have the counter at `i`. -/
def countAt (i : Nat) (rs : List VReg) : Nat :=
  rs.countP fun r => implRegToIdx r = i

theorem level_forRegs_reserve (i nregs : Nat) (regs : Nat → VReg) :
    level (ticksAt i (forRegs .reserve nregs regs)) = countAt i ((List.range nregs).map regs) ∧
      0 ≤ low (ticksAt i (forRegs .reserve nregs regs)) := by
  unfold forRegs countAt
  induction List.range nregs with
  | nil => exact ⟨rfl, le_rfl⟩
  | cons j l ih =>
    by_cases hr : implRegToIdx (regs j) = i
    · simp only [List.map_cons, ticksAt_reserve, hr, if_true, level, low, List.countP_cons,
        decide_true]
      omega
    · simp only [List.map_cons, ticksAt_reserve, hr, if_false, List.countP_cons, decide_false,
        Bool.false_eq_true]
      omega

/-- To give back the registers takes each counter down as often as it is named. -/
theorem ticksAt_forRegs_unreserve (i nregs : Nat) (regs : Nat → VReg) :
    ticksAt i (forRegs .unreserve nregs regs) =
      List.replicate (countAt i ((List.range nregs).map regs)) .down := by
  unfold forRegs countAt
  induction List.range nregs with
  | nil => rfl
  | cons j l ih =>
    by_cases hr : implRegToIdx (regs j) = i
    · simp [hr, ih, List.replicate_succ]
    · simp [hr, ih]

theorem OverlayTurns.level_mem2reg {accesses : List RegAccess} {ops : List ResvOp}
    (h : OverlayTurns true accesses ops) (i : Nat) :
    level (ticksAt i ops) = countAt i (accesses.map (·.reg)) ∧ 0 ≤ low (ticksAt i ops) := by
  induction h with
  | done => exact ⟨rfl, le_rfl⟩
  | turn a haccess hnext hops ih =>
    obtain ⟨hlevel, hlow⟩ := ih
    obtain ⟨haccessLevel, haccessLow⟩ := haccess.balanced i
    obtain ⟨hnextLevel, hnextLow⟩ := hnext.balanced i
    unfold countAt at hlevel ⊢
    by_cases hr : implRegToIdx a.reg = i
    · simp only [if_true, ticksAt_append, ticksAt_reserve, hr, ticksAt_nil, Lib.level_append,
        Lib.low_append, level, low, List.map_cons, List.countP_cons, decide_true]
      omega
    · simp only [if_true, ticksAt_append, ticksAt_reserve, hr, if_false, ticksAt_nil,
        Lib.level_append, Lib.low_append, level, low, List.map_cons, List.countP_cons,
        decide_false, Bool.false_eq_true]
      omega

theorem OverlayTurns.balanced_reg2mem {accesses : List RegAccess} {ops : List ResvOp}
    (h : OverlayTurns false accesses ops) : Balanced ops := by
  induction h with
  | done => exact balanced_nil
  | turn a haccess hnext hops ih =>
    exact ((haccess.balanced.append balanced_nil).append hnext.balanced).append ih

/-! ## The overlay -/

theorem OverlayRuns.balanced_reg2mem {memsz nregs : Nat} {regs : Nat → VReg}
    {ops : List ResvOp} (h : OverlayRuns false memsz nregs regs ops) : Balanced ops := by
  obtain ⟨accesses, -, h⟩ := h
  split at h
  · rw [h]
    exact balanced_nil
  · obtain ⟨turns, hturns, rfl⟩ := h
    intro i
    obtain ⟨hlevel, hlow⟩ := hturns.balanced_reg2mem i
    obtain ⟨hupLevel, hupLow⟩ := level_forRegs_reserve i nregs regs
    have hdown := Lib.le_low_replicate_down (countAt i ((List.range nregs).map regs))
    simp only [Bool.false_eq_true, if_false, ticksAt_append, Lib.level_append, Lib.low_append,
      ticksAt_forRegs_unreserve, Lib.level_replicate_down]
    omega

/-- What a run of `impl_overlay_mem2regs` comes to at each counter. -/
theorem OverlayRuns.level_mem2reg {memsz nregs : Nat} {regs : Nat → VReg} {ops : List ResvOp}
    (hne : memsz ≠ 0) (h : OverlayRuns true memsz nregs regs ops) :
    turnsFor memsz ≤ nregs ∧ ∀ i,
      level (ticksAt i ops) = countAt i ((List.range (turnsFor memsz)).map regs) -
        countAt i ((List.range nregs).map regs) ∧
      min 0 (level (ticksAt i ops)) ≤ low (ticksAt i ops) := by
  obtain ⟨accesses, hok, h⟩ := h
  rw [if_neg hne] at h
  obtain ⟨turns, hturns, rfl⟩ := h
  unfold implOverlayMemReg at hok
  rw [if_neg hne] at hok
  split at hok
  · cases hok
  · refine ⟨by simpa using overlayLoop_turns_le hok, fun i => ?_⟩
    obtain ⟨hlevel, hlow⟩ := hturns.level_mem2reg i
    rw [overlayLoop_regs hok, ← List.range_eq_range'] at hlevel
    have hdown := Lib.le_low_replicate_down (countAt i ((List.range nregs).map regs))
    simp only [if_true, List.nil_append, ticksAt_append, Lib.level_append, Lib.low_append,
      ticksAt_forRegs_unreserve, Lib.level_replicate_down]
    omega

/-- With registers left over, the counter of the first of them is taken down without
having been taken up. -/
theorem countAt_range_lt {turns nregs : Nat} (h : turns < nregs) (regs : Nat → VReg) :
    countAt (implRegToIdx (regs turns)) ((List.range turns).map regs) <
      countAt (implRegToIdx (regs turns)) ((List.range nregs).map regs) := by
  have hsub : ((List.range (turns + 1)).map regs).Sublist ((List.range nregs).map regs) :=
    (List.range_sublist.2 h).map regs
  have hle := hsub.countP_le (p := fun r => implRegToIdx r = implRegToIdx (regs turns))
  unfold countAt
  rw [List.range_succ, List.map_append, List.countP_append] at hle
  simp only [List.map_cons, List.map_nil, List.countP_cons, decide_true, if_true,
    List.countP_nil] at hle
  omega

/-- Whether the registers that are passed are those that the loop goes through. -/
def ResvFn.UsesAll : ResvFn → Prop
  | .overlayMem2regs memsz nregs _ => memsz = 0 ∨ nregs = turnsFor memsz
  | .overlayRegs2mem _ _ _ => True
  | .back _ => True

theorem ResvFn.balanced {f : ResvFn} {ops : List ResvOp} (hrun : f.Runs ops)
    (hall : f.UsesAll) : Balanced ops := by
  cases f with
  | overlayMem2regs memsz nregs regs =>
    obtain rfl | rfl := hall
    · obtain ⟨accesses, -, h⟩ := hrun
      rw [if_pos rfl] at h
      rw [h]
      exact balanced_nil
    · by_cases hne : memsz = 0
      · obtain ⟨accesses, -, h⟩ := hrun
        rw [if_pos hne] at h
        rw [h]
        exact balanced_nil
      · intro i
        obtain ⟨hlevel, hlow⟩ := (OverlayRuns.level_mem2reg hne hrun).2 i
        omega
  | overlayRegs2mem memsz nregs regs => exact OverlayRuns.balanced_reg2mem hrun
  | back f => exact BackFn.Runs.balanced hrun

/-- Each of the functions leaves the counters as they were, and takes none below zero,
exactly if `impl_overlay_mem2regs` has no more registers than turns and no counter is
taken past 255. -/
theorem reservations_balanced_iff (f : ResvFn) {ops : List ResvOp} (hrun : f.Runs ops)
    (c : Counters) :
    runResv c ops = c ∧ NeverBelowZero c ops ↔ f.UsesAll ∧ NeverPast255 c ops := by
  by_cases hall : f.UsesAll
  · rw [and_iff_right hall]
    exact (f.balanced hrun hall).restores_iff c
  · rw [iff_false_right fun h => hall h.1]
    intro hrestores
    cases f with
    | overlayMem2regs memsz nregs regs =>
      have hne : memsz ≠ 0 := fun h => hall (Or.inl h)
      obtain ⟨hle, hlevel⟩ := OverlayRuns.level_mem2reg hne hrun
      have hlt : turnsFor memsz < nregs := lt_of_le_of_ne hle fun h => hall (Or.inr h.symm)
      have hcount := countAt_range_lt hlt regs
      refine Lib.not_runTicks_of_level_neg ?_ _
        ((restores_iff c ops).1 hrestores (implRegToIdx (regs (turnsFor memsz))))
      rw [(hlevel _).1]
      omega
    | overlayRegs2mem memsz nregs regs => exact hall trivial
    | back f => exact hall trivial

/-- `rax` and then `rdx`. -/
def raxRdx (i : Nat) : VReg := if i = 0 then regRetI1 else regRetI2

/-- `struct { long a, b; }` is loaded into the two registers that are passed. -/
theorem reservations_balanced_two_longs :
    OverlayRuns true 16 2 raxRdx [.reserve regRetI1, .reserve regRetI2, .unreserve regRetI1,
      .unreserve regRetI2] ∧
    runResv (fun _ => 0#8) [.reserve regRetI1, .reserve regRetI2, .unreserve regRetI1,
      .unreserve regRetI2] = fun _ => 0#8 := by
  have hrun : OverlayRuns true 16 2 raxRdx [.reserve regRetI1, .reserve regRetI2,
      .unreserve regRetI1, .unreserve regRetI2] := by
    refine ⟨[⟨regRetI1, 0, 8⟩, ⟨regRetI2, 8, 8⟩], ?_, ?_⟩
    · exact (overlayLoop_next (thisSz_word _ (by decide)) (by decide) (by decide)).trans
        (congrArg _ (overlayLoop_last (by decide) (by decide)))
    · exact ⟨[.reserve regRetI1, .reserve regRetI2], .turn _ .restDone .restDone
        (.turn _ .restDone .restDone .done), rfl⟩
  refine ⟨hrun, ((reservations_balanced_iff (.overlayMem2regs 16 2 raxRdx) hrun _).2 ⟨?_, ?_⟩).1⟩
  · exact Or.inr rfl
  · refine ⟨by decide, by decide, trivial⟩

/-- `struct { long a; }` is passed `rax` and `rdx`, and loaded into `rax`.  `rdx` is
given back without having been reserved: its counter wraps to 255. -/
theorem one_long_unreserves_rdx :
    (∃ r, x86OverlayRegpair (fun _ => regRetI1) [.mk (.scalar 8 false) 0 none] = some r ∧
      r.nregs = 2 ∧ r.regpair 0 = regRetI1 ∧ r.regpair 1 = regRetI2) ∧
    ¬ ∀ (f : ResvFn) (ops : List ResvOp) (c : Counters), f.Runs ops →
      runResv c ops = c ∧ NeverBelowZero c ops := by
  refine ⟨⟨_, rfl, rfl, rfl, rfl⟩, fun h => ?_⟩
  have hrun : OverlayRuns true 8 2 raxRdx
      [.reserve regRetI1, .unreserve regRetI1, .unreserve regRetI2] := by
    refine ⟨[⟨regRetI1, 0, 8⟩], ?_, ?_⟩
    · exact overlayLoop_last (by decide) (by decide)
    · exact ⟨[.reserve regRetI1], .turn _ .restDone .restDone .done, rfl⟩
  have hrdx := congrFun (h (.overlayMem2regs 8 2 raxRdx) _ (fun _ => 0#8) hrun).1 3
  exact absurd hrdx (by decide)

end Ucc.Cc1.Reserve
