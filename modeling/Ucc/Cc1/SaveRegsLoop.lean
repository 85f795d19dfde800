/-
  Cc1/SaveRegsLoop.lean --- v_save_regs leaves nothing in a register that is lost.

  Source: v_save_regs in src/cc1/out/virt.c, v_register in src/cc1/out/val.c and
  the call of v_save_regs in src/cc1/out/x86_64.c.

  The values are looked at from the oldest to the newest.  The n-th that is saved
  goes to the n-th callee-save register that is free, and to the frame once there
  are no more.  `val_tail` is set when there is a second value, so that one alone is
  not looked at; and it is the current function's convention that is asked for what
  a call preserves, not that of the function that is called.
-/
import Ucc.Cc1.SaveRegsFree

set_option autoImplicit false

namespace Ucc.Cc1.Save

open Ucc.Cc1.Out (Width)
open Ucc.Cc1.Stack (VReg regBp regSp)

/-! ## Where a value goes -/

/-- The values that `v_save_regs` saves, of those it does not skip. -/
def OutVal.needsSave (fnty : CallingConv) (v : OutVal) : Bool :=
  match v.loc with
  | .reg r _ => implRegSavable r && !implRegIsCalleeSave fnty r
  | .flag _ => true
  | _ => false

section Plan

variable (s : Octx) (skip : Nat → OutVal → Bool)

/-- Whether the value at `i` is saved. -/
def Octx.saves (i : Nat) (v : OutVal) : Bool := !skip i v && v.needsSave s.currentFnty

/-- How many values of a class are saved before that at `i`. -/
def Octx.savedBefore (fp : Bool) (i : Nat) : Nat :=
  (List.range i).countP fun j =>
    match s.vals[j]? with
    | some v => s.saves skip j v && v.isFloating == fp
    | none => false

/-- The callee-save registers that are free. -/
def Octx.calleeRegs (fp : Bool) : List VReg := s.freeRegs fp (implRegIsCalleeSave s.currentFnty)

/-- The callee-save register that the value at `i` is moved to, if it is saved. -/
def Octx.home (i : Nat) (v : OutVal) : Option VReg :=
  (s.calleeRegs v.isFloating)[s.savedBefore skip v.isFloating i]?

/-- The register that the value at `i` is in when the function is called. -/
def Octx.holder (i : Nat) (v : OutVal) : Option VReg :=
  if v.needsSave s.currentFnty then s.home skip i v
  else
    match v.loc with
    | .reg r _ => some r
    | _ => none

/-- The integer registers that are free to be used once the values before `i` are
saved. -/
def Octx.roomAt (i : Nat) : List VReg :=
  (regsOf false).filter fun r =>
    implRegIsScratch s.currentFnty r && decide (s.reservedRegs r = 0) &&
      (List.range s.vals.length).all fun j =>
        match s.vals[j]? with
        | some v => !v.heldIn r || (decide (j < i) && !skip j v)
        | none => true

/-- Whether an offset is added when the value at `i` is saved. -/
def Octx.addsOffset (i : Nat) (v : OutVal) : Bool :=
  match v.loc with
  | .reg _ off => (s.home skip i v).isNone && decide (off ≠ 0)
  | _ => false

/-- How many registers are needed to save the value at `i`. -/
def Octx.regsFor (i : Nat) (v : OutVal) : Nat :=
  match v.loc with
  | .reg _ off => if s.addsOffset skip i v then offsetRegs off else 0
  | .flag f => flagRegs s.finiteMath f
  | _ => 0

/-- Whether flags are lost when the value at `i` is saved. -/
def Octx.losesFlags (i : Nat) (v : OutVal) : Bool :=
  match v.loc with
  | .flag f => (x86NeedFpParityP s.finiteMath f).isSome
  | _ => s.addsOffset skip i v

/-- No register has to be freed, and a flag is read before it is lost. -/
structure Octx.Room : Prop where
  regs : ∀ (i : Nat) (v : OutVal), s.vals[i]? = some v → s.saves skip i v = true →
    s.regsFor skip i v ≤ (s.roomAt skip i).length
  once : ∀ (i : Nat) (v : OutVal) (f : FlagOpts), s.vals[i]? = some v →
    s.saves skip i v = true → v.loc = .flag f → v.retains = 1
  flags : ∀ (i : Nat) (v : OutVal), s.vals[i]? = some v → s.saves skip i v = true →
    s.losesFlags skip i v = true → ∀ (j : Nat) (u : OutVal), i < j → s.vals[j]? = some u →
      s.saves skip j u = true → ∀ f, u.loc ≠ .flag f

end Plan

theorem saves_iff {s : Octx} {skip : Nat → OutVal → Bool} {i : Nat} {v : OutVal} :
    s.saves skip i v = true ↔ skip i v = false ∧ v.needsSave s.currentFnty = true := by
  rw [Octx.saves, Bool.and_eq_true, Bool.not_eq_true']

/-- What holds of the values when code is written. -/
structure Octx.Wf (s : Octx) : Prop where
  tail : s.valTail = if s.vals.length ≤ 1 then none else some 0
  slots : SlotsIn s
  floats : ∀ v ∈ s.vals, ∀ r off, v.loc = .reg r off → r.isFloat = true → off = 0

/-! ## The invariant -/

/-- Where a value is that has been looked at. -/
def Placed (s : Octx) (skip : Nat → OutVal → Bool) (i : Nat) (v : OutVal) (loc : Loc) : Prop :=
  match s.holder skip i v with
  | some r => ∃ off, loc = .reg r off
  | none => (∀ r off, loc ≠ .reg r off) ∧ ∀ f, loc ≠ .flag f

/-- The values before `i` have been looked at, the code is `c`. -/
structure Saving (s₀ : Octx) (skip : Nat → OutVal → Bool) (i : Nat) (s : Octx) (c : List Insn) :
    Prop where
  code : s.code = s₀.code ++ c
  fnty : s.currentFnty = s₀.currentFnty
  finite : s.finiteMath = s₀.finiteMath
  reserved : s.reservedRegs = s₀.reservedRegs
  len : s₀.vals.length ≤ s.vals.length
  dead : ∀ (j : Nat) (u : OutVal), s₀.vals.length ≤ j → s.vals[j]? = some u → u.retains = 0
  slots : SlotsIn s
  skipped : ∀ (j : Nat) (v : OutVal), s₀.vals[j]? = some v → skip j v = true →
    s.vals[j]? = some v
  ahead : ∀ (j : Nat) (v : OutVal), i ≤ j → s₀.vals[j]? = some v → s.vals[j]? = some v
  value : ∀ (j : Nat) (v : OutVal), s₀.vals[j]? = some v → skip j v = false →
    ∃ loc, s.vals[j]? = some { v with loc := loc } ∧ (j < i → Placed s₀ skip j v loc) ∧
      ∀ alu m, ({ v with loc := loc } : OutVal).denote s₀.finiteMath
        (execAll alu m c) = v.denote s₀.finiteMath m
  callee : ∀ fp, s.calleeRegs fp = (s₀.calleeRegs fp).drop (s₀.savedBefore skip fp i)
  flags : ∀ (j : Nat) (v : OutVal) (f : FlagOpts), i ≤ j → s₀.vals[j]? = some v →
    s₀.saves skip j v = true → v.loc = .flag f → KeepsFlags c

theorem Saving.start {s : Octx} (skip : Nat → OutVal → Bool) (hslots : SlotsIn s) :
    Saving s skip 0 s [] where
  code := (List.append_nil _).symm
  fnty := rfl
  finite := rfl
  reserved := rfl
  len := le_rfl
  dead j u hle hj := by
    have hlt := (List.getElem?_eq_some_iff.1 hj).1
    omega
  slots := hslots
  skipped _ _ hv _ := hv
  ahead _ _ _ hv := hv
  value j v hv _ := ⟨v.loc, hv, fun h => absurd h (Nat.not_lt_zero j), fun _ _ => rfl⟩
  callee _ := rfl
  flags _ _ _ _ _ _ _ k hk := nomatch hk

theorem savedBefore_succ (s : Octx) (skip : Nat → OutVal → Bool) (fp : Bool) {i : Nat} {v : OutVal}
    (hv : s.vals[i]? = some v) :
    s.savedBefore skip fp (i + 1) =
      s.savedBefore skip fp i + if s.saves skip i v && v.isFloating == fp then 1 else 0 := by
  unfold Octx.savedBefore
  rw [List.range_succ, List.countP_append, List.countP_singleton, hv]

/-- A value that stays where it is. -/
theorem Saving.pass {s₀ s : Octx} {skip : Nat → OutVal → Bool} {i : Nat} {c : List Insn}
    (h : Saving s₀ skip i s c) {v : OutVal} (hv : s₀.vals[i]? = some v)
    (hstay : s₀.saves skip i v = false) : Saving s₀ skip (i + 1) s c where
  code := h.code
  fnty := h.fnty
  finite := h.finite
  reserved := h.reserved
  len := h.len
  dead := h.dead
  slots := h.slots
  skipped := h.skipped
  ahead j u hle hj := h.ahead j u (by omega) hj
  value j u hj hskip := by
    obtain ⟨loc, hget, hplaced, hmeans⟩ := h.value j u hj hskip
    refine ⟨loc, hget, fun hlt => ?_, hmeans⟩
    obtain hlt | rfl := Nat.lt_succ_iff_lt_or_eq.1 hlt
    · exact hplaced hlt
    · rw [hv] at hj
      obtain rfl := Option.some.inj hj
      have hsame := (h.ahead j v le_rfl hv).symm.trans hget
      obtain rfl : v.loc = loc := congrArg OutVal.loc (Option.some.inj hsame)
      have hno : v.needsSave s₀.currentFnty = false := by
        simpa [Octx.saves, hskip] using hstay
      unfold Placed Octx.holder
      rw [if_neg (by rw [hno]; exact Bool.false_ne_true)]
      cases hloc : v.loc with
      | reg r off => exact ⟨off, rfl⟩
      | flag f =>
        rw [OutVal.needsSave, hloc] at hno
        cases hno
      | _ => exact ⟨fun _ _ heq => Loc.noConfusion heq, fun _ heq => Loc.noConfusion heq⟩
  callee fp := by
    rw [h.callee, savedBefore_succ s₀ skip fp hv, hstay]
    rfl
  flags j u f hle := h.flags j u f (by omega)

/-! ## The registers of a step -/

theorem Saving.unusedReg_eq_home {s₀ s : Octx} {skip : Nat → OutVal → Bool} {i : Nat}
    {c : List Insn} (h : Saving s₀ skip i s c) (v : OutVal) :
    s.unusedReg v.isFloating (implRegIsCalleeSave s.currentFnty) = s₀.home skip i v := by
  have hcallee := h.callee v.isFloating
  unfold Octx.calleeRegs at hcallee
  rw [unusedReg_eq_head?, hcallee, List.head?_drop]
  rfl

theorem home_isCalleeSave {s : Octx} {skip : Nat → OutVal → Bool} {i : Nat} {v : OutVal} {r : VReg}
    (h : s.home skip i v = some r) : implRegIsCalleeSave s.currentFnty r = true := by
  have hmem := List.mem_of_getElem? h
  unfold Octx.calleeRegs Octx.freeRegs at hmem
  rw [List.mem_filter, Bool.and_eq_true] at hmem
  exact hmem.2.2

/-- A value that has been looked at is in no register that may be used. -/
theorem holder_not_scratch {s : Octx} {skip : Nat → OutVal → Bool} {i : Nat} {v : OutVal} {r : VReg}
    (h : s.holder skip i v = some r) (hr : r ∈ regsOf false) :
    implRegIsScratch s.currentFnty r = false := by
  obtain ⟨hfp, hbp, hsp⟩ := mem_regsOf hr
  have hcs : implRegIsCalleeSave s.currentFnty r = true := by
    unfold Octx.holder at h
    split at h
    · exact home_isCalleeSave h
    · rename_i hno
      cases hloc : v.loc with
      | reg q off =>
        rw [hloc] at h
        obtain rfl := Option.some.inj h
        by_contra hcs
        refine hno ?_
        rw [OutVal.needsSave, hloc]
        simp [implRegSavable, hbp, hsp, Bool.eq_false_of_not_eq_true hcs]
      | _ =>
        rw [hloc] at h
        cases h
  rw [implRegIsScratch, hfp, hcs]
  rfl

theorem mem_roomAt {s : Octx} {skip : Nat → OutVal → Bool} {i : Nat} {r : VReg}
    (h : r ∈ s.roomAt skip i) :
    r ∈ regsOf false ∧ implRegIsScratch s.currentFnty r = true ∧ s.reservedRegs r = 0 ∧
      ∀ (j : Nat) (v : OutVal), s.vals[j]? = some v → v.heldIn r = true →
        j < i ∧ skip j v = false := by
  unfold Octx.roomAt at h
  rw [List.mem_filter, Bool.and_eq_true, Bool.and_eq_true, List.all_eq_true] at h
  obtain ⟨hr, ⟨hscratch, hreserved⟩, hall⟩ := h
  refine ⟨hr, hscratch, of_decide_eq_true hreserved, fun j v hj hheld => ?_⟩
  have hone := hall j (List.mem_range.2 (List.getElem?_eq_some_iff.1 hj).1)
  rw [hj] at hone
  simpa [hheld] using hone

theorem Saving.not_used {s₀ s : Octx} {skip : Nat → OutVal → Bool} {i : Nat} {c : List Insn}
    (h : Saving s₀ skip i s c) {r : VReg} (hr : r ∈ s₀.roomAt skip i) : s.used r = false := by
  obtain ⟨hmem, hscratch, hreserved, hheld⟩ := mem_roomAt hr
  by_contra hused
  rw [Bool.not_eq_false, used_eq_true_iff, h.reserved, hreserved] at hused
  obtain hres | ⟨j, u, off, hj, hret, hloc⟩ := hused
  · exact hres rfl
  have hlt : j < s₀.vals.length := by
    by_contra hge
    have hdead := h.dead j u (not_lt.1 hge) hj
    omega
  obtain ⟨v, hv⟩ : ∃ v, s₀.vals[j]? = some v := ⟨_, List.getElem?_eq_getElem hlt⟩
  have hin : ∀ w : OutVal, s.vals[j]? = some w → w.heldIn r = true := by
    intro w hw
    obtain rfl := Option.some.inj (hj.symm.trans hw)
    simp [OutVal.heldIn, hret, hloc]
  cases hskip : skip j v with
  | true =>
    have hno := (hheld j v hv (hin v (h.skipped j v hv hskip))).2
    rw [hskip] at hno
    cases hno
  | false =>
    obtain ⟨loc, hget, hplaced, -⟩ := h.value j v hv hskip
    by_cases hji : j < i
    · have hplaced := hplaced hji
      obtain rfl := Option.some.inj (hj.symm.trans hget)
      obtain rfl : loc = .reg r off := hloc
      unfold Placed at hplaced
      split at hplaced
      · rename_i q hholder
        obtain ⟨off', heq⟩ := hplaced
        obtain ⟨rfl, -⟩ := Loc.reg.inj heq
        rw [holder_not_scratch hholder hmem] at hscratch
        cases hscratch
      · exact hplaced.1 r off rfl
    · exact hji (hheld j v hv (hin v (h.ahead j v (not_lt.1 hji) hv))).1

theorem Saving.room {s₀ s : Octx} {skip : Nat → OutVal → Bool} {i : Nat} {c : List Insn}
    (h : Saving s₀ skip i s c) : (s₀.roomAt skip i).length ≤ s.scratchRegs.length := by
  have hnodup : (s₀.roomAt skip i).Nodup := (nodup_regsOf false).filter _
  refine (hnodup.subperm fun r hr => ?_).length_le
  obtain ⟨hmem, hscratch, -, -⟩ := mem_roomAt hr
  unfold Octx.scratchRegs Octx.freeRegs
  rw [List.mem_filter, h.fnty, hscratch, h.not_used hr]
  exact ⟨hmem, rfl⟩

/-! ## A value that is saved -/

/-- Where a value is put that is saved. -/
def PutAt (home : Option VReg) (loc : Loc) : Prop :=
  match home with
  | some r => ∃ off, loc = .reg r off
  | none => ∃ off, loc = .spilt off

theorem PutAt.placed {s : Octx} {skip : Nat → OutVal → Bool} {i : Nat} {v : OutVal} {loc : Loc}
    (h : PutAt (s.home skip i v) loc) (hsave : v.needsSave s.currentFnty = true) :
    Placed s skip i v loc := by
  unfold Placed Octx.holder
  rw [if_pos hsave]
  unfold PutAt at h
  cases hhome : s.home skip i v with
  | some r =>
    rw [hhome] at h
    exact h
  | none =>
    rw [hhome] at h
    obtain ⟨off, rfl⟩ := h
    exact ⟨fun _ _ heq => Loc.noConfusion heq, fun _ heq => Loc.noConfusion heq⟩

/-- The callee-save registers after a value went to one, or to the frame. -/
theorem calleeRegs_step {s s' : Octx} {i : Nat} {v : OutVal} {loc : Loc} {c : List Insn}
    (h : Steps s i v s' c { v with loc := loc }) (hv : s.vals[i]? = some v) (hret : 0 < v.retains)
    (hsave : v.needsSave s.currentFnty = true)
    (hput : PutAt (s.unusedReg v.isFloating (implRegIsCalleeSave s.currentFnty)) loc) (fp : Bool) :
    s'.calleeRegs fp = (s.calleeRegs fp).drop (if v.isFloating == fp then 1 else 0) := by
  have hused : ∀ q, implRegIsCalleeSave s.currentFnty q = true →
      (s'.used q = true ↔ s.used q = true ∨ ∃ off, loc = .reg q off) := by
    intro q hq
    refine h.used_iff hv hret fun off hloc => ?_
    rw [OutVal.needsSave, hloc] at hsave
    simp [hq] at hsave
  unfold Octx.calleeRegs
  rw [h.fnty]
  cases hdst : s.unusedReg v.isFloating (implRegIsCalleeSave s.currentFnty) with
  | some dst =>
    rw [hdst] at hput
    obtain ⟨off, rfl⟩ := hput
    have hused' : ∀ q, implRegIsCalleeSave s.currentFnty q = true →
        s'.used q = (s.used q || decide (q = dst)) := by
      intro q hq
      rw [Bool.eq_iff_iff, hused q hq, Bool.or_eq_true, decide_eq_true_iff]
      refine or_congr Iff.rfl ⟨fun ⟨o, heq⟩ => (Loc.reg.inj heq).1.symm, ?_⟩
      rintro rfl
      exact ⟨off, rfl⟩
    by_cases hfp : v.isFloating = fp
    · rw [hfp] at hdst
      rw [if_pos (beq_iff_eq.2 hfp), List.drop_one]
      exact freeRegs_take hdst fun q _ hq => hused' q hq
    · rw [if_neg (by simpa using hfp), List.drop_zero]
      apply freeRegs_congr
      intro q hmem hq
      have hne : q ≠ dst := by
        rintro rfl
        exact hfp ((unusedReg_some hdst).2.2.1.symm.trans (mem_regsOf hmem).1)
      rw [hused' q hq, decide_eq_false hne, Bool.or_false]
  | none =>
    rw [hdst] at hput
    obtain ⟨off, rfl⟩ := hput
    have hsame : s'.freeRegs fp (implRegIsCalleeSave s.currentFnty) =
        s.freeRegs fp (implRegIsCalleeSave s.currentFnty) := by
      apply freeRegs_congr
      intro q _ hq
      rw [Bool.eq_iff_iff, hused q hq, or_iff_left]
      rintro ⟨o, heq⟩
      cases heq
    rw [hsame]
    by_cases hfp : v.isFloating = fp
    · rw [hfp, unusedReg_eq_head?, List.head?_eq_none_iff] at hdst
      rw [hdst, List.drop_nil]
    · rw [if_neg (by simpa using hfp), List.drop_zero]

section Step

variable {s₀ s : Octx} {skip : Nat → OutVal → Bool} {i : Nat} {c : List Insn}

/-- A value that is not skipped is retained, and is not a phi. -/
def Keeps (skip : Nat → OutVal → Bool) : Prop :=
  ∀ j v, skip j v = false → 0 < v.retains ∧ v.phiblock = none

/-- A flag that is yet to be read is not lost. -/
theorem Octx.Room.keepsFlags (hroom : s₀.Room skip) {v : OutVal} (hv : s₀.vals[i]? = some v)
    (hsaves : s₀.saves skip i v = true) {c' : List Insn}
    (hflags : s₀.losesFlags skip i v = false → KeepsFlags c') {j : Nat} {u : OutVal} {f : FlagOpts}
    (hij : i < j) (hj : s₀.vals[j]? = some u) (husaves : s₀.saves skip j u = true)
    (hloc : u.loc = .flag f) : KeepsFlags c' := by
  apply hflags
  by_contra hloses
  exact hroom.flags i v hv hsaves (Bool.eq_true_of_not_eq_false hloses) j u hij hj husaves f hloc

theorem Placed.not_flag {v : OutVal} {loc : Loc} (h : Placed s skip i v loc) (f : FlagOpts) :
    loc ≠ .flag f := by
  unfold Placed at h
  split at h
  · obtain ⟨off, rfl⟩ := h
    exact fun heq => Loc.noConfusion heq
  · exact h.2 f

/-- The others keep their places and what they mean. -/
theorem Saving.value_other (h : Saving s₀ skip i s c) (hkeeps : Keeps skip) (hroom : s₀.Room skip)
    {s' : Octx} {c' : List Insn} {v v' : OutVal} (hv : s₀.vals[i]? = some v)
    (hsaves : s₀.saves skip i v = true) (hstep : Steps s i v s' c' v')
    (hflags : s₀.losesFlags skip i v = false → KeepsFlags c') {j : Nat} {u : OutVal} (hji : j ≠ i)
    (hj : s₀.vals[j]? = some u) (hskip : skip j u = false) :
    ∃ loc, s'.vals[j]? = some { u with loc := loc } ∧ (j < i + 1 → Placed s₀ skip j u loc) ∧
      ∀ alu m, ({ u with loc := loc } : OutVal).denote s₀.finiteMath
        (execAll alu m (c ++ c')) = u.denote s₀.finiteMath m := by
  obtain ⟨loc, hget, hplaced, hmeans⟩ := h.value j u hj hskip
  obtain ⟨hret, hphi⟩ := hkeeps j u hskip
  have hlt := (List.getElem?_eq_some_iff.1 hget).1
  have hmem := List.mem_of_getElem? hget
  refine ⟨loc, (hstep.other j hji hlt).trans hget, fun hle => hplaced (by omega), ?_⟩
  intro alu m
  rw [execAll_append, denote_untouched hstep.untouched hmem hret, hmeans]
  · exact fun off hloc => h.slots _ hmem hret hphi off hloc
  · intro f hloc
    have hij : i < j := by
      by_contra hle
      exact (hplaced (by omega)).not_flag f hloc
    have hsame := Option.some.inj ((h.ahead j u hij.le hj).symm.trans hget)
    have huloc : u.loc = .flag f := (congrArg OutVal.loc hsame).trans hloc
    have husaves : s₀.saves skip j u = true := by
      rw [saves_iff, OutVal.needsSave, huloc]
      exact ⟨hskip, rfl⟩
    exact hroom.keepsFlags hv hsaves hflags hij hj husaves huloc

theorem Saving.save (h : Saving s₀ skip i s c) (hkeeps : Keeps skip) (hroom : s₀.Room skip)
    {s' : Octx} {c' : List Insn} {v : OutVal} {loc : Loc} (hv : s₀.vals[i]? = some v)
    (hsaves : s₀.saves skip i v = true) (hstep : Steps s i v s' c' { v with loc := loc })
    (hslots : SlotsIn s') (hput : PutAt (s₀.home skip i v) loc)
    (hflags : s₀.losesFlags skip i v = false → KeepsFlags c') :
    Saving s₀ skip (i + 1) s' (c ++ c') := by
  obtain ⟨hskip, hneeds⟩ := saves_iff.1 hsaves
  have hvs := h.ahead i v le_rfl hv
  have hret := (hkeeps i v hskip).1
  have hlen := (List.getElem?_eq_some_iff.1 hv).1
  refine ⟨?_, hstep.fnty.trans h.fnty, hstep.finite.trans h.finite,
    hstep.reserved.trans h.reserved, h.len.trans hstep.len, ?_, hslots, ?_, ?_, ?_, ?_, ?_⟩
  · rw [hstep.code, h.code, List.append_assoc]
  · intro j u hle hj
    by_cases hlt : j < s.vals.length
    · rw [hstep.other j (by omega) hlt] at hj
      exact h.dead j u hle hj
    · exact hstep.dead j u (not_lt.1 hlt) hj
  · intro j u hj hskipj
    have hji : j ≠ i := by
      rintro rfl
      rw [hv] at hj
      obtain rfl := Option.some.inj hj
      rw [hskip] at hskipj
      cases hskipj
    have hget := h.skipped j u hj hskipj
    exact (hstep.other j hji (List.getElem?_eq_some_iff.1 hget).1).trans hget
  · intro j u hle hj
    have hget := h.ahead j u (by omega) hj
    exact (hstep.other j (by omega) (List.getElem?_eq_some_iff.1 hget).1).trans hget
  · intro j u hj hskipj
    by_cases hji : j = i
    · subst hji
      rw [hv] at hj
      obtain rfl := Option.some.inj hj
      obtain ⟨loc', hget, -, hmeans⟩ := h.value j v hv hskip
      have hsame := Option.some.inj (hvs.symm.trans hget)
      refine ⟨loc, hstep.self, fun _ => hput.placed hneeds, fun alu m => ?_⟩
      rw [execAll_append, ← h.finite, hstep.means, h.finite]
      rw [← hsame] at hmeans
      exact hmeans alu m
    · exact h.value_other hkeeps hroom hv hsaves hstep hflags hji hj hskipj
  · intro fp
    rw [← h.fnty] at hneeds
    rw [← h.unusedReg_eq_home v] at hput
    rw [calleeRegs_step hstep hvs hret hneeds hput fp, h.callee, List.drop_drop,
      savedBefore_succ s₀ skip fp hv, hsaves, Bool.true_and]
  · intro j u f hle hj husaves hloc
    exact (h.flags j u f (by omega) hj husaves hloc).append
      (hroom.keepsFlags hv hsaves hflags (by omega) hj husaves hloc)

theorem putAt_savedLoc (s : Octx) (v : OutVal) (off : Int) :
    PutAt (s.unusedReg v.isFloating (implRegIsCalleeSave s.currentFnty)) (savedLoc s v off) := by
  unfold PutAt savedLoc
  cases s.unusedReg v.isFloating (implRegIsCalleeSave s.currentFnty) with
  | some r => exact ⟨off, rfl⟩
  | none => exact ⟨_, rfl⟩

/-- A value in a register is saved. -/
theorem Saving.save_reg (h : Saving s₀ skip i s c) (hkeeps : Keeps skip) (hroom : s₀.Room skip)
    (hwf : s₀.Wf) {v : OutVal} {r : VReg} {off : Int} (hv : s₀.vals[i]? = some v)
    (hsaves : s₀.saves skip i v = true) (hloc : v.loc = .reg r off) :
    ∃ s' c', (∀ spill, vSaveReg (vSpillRegWith spill) s i true = some s') ∧
      Saving s₀ skip (i + 1) s' (c ++ c') := by
  have hvs := h.ahead i v le_rfl hv
  have hret := (hkeeps i v (saves_iff.1 hsaves).1).1
  have hhome := h.unusedReg_eq_home v
  have hregs : s.unusedReg v.isFloating (implRegIsCalleeSave s.currentFnty) = none → off ≠ 0 →
      r.isFloat = false ∧ offsetRegs off ≤ s.scratchRegs.length := by
    intro hnone hoff
    rw [hhome] at hnone
    have hfloats := hwf.floats v (List.mem_of_getElem? hv) r off hloc
    have hadds : s₀.addsOffset skip i v = true := by
      simp [Octx.addsOffset, hloc, hnone, hoff]
    have hle := hroom.regs i v hv hsaves
    rw [Octx.regsFor, hloc] at hle
    simp only [hadds, if_true] at hle
    exact ⟨Bool.eq_false_of_not_eq_true fun hfp => hoff (hfloats hfp), hle.trans h.room⟩
  obtain ⟨s', c', hsave, hsteps, hslots, hflags⟩ := vSaveReg_steps hvs hret hloc h.slots hregs
  refine ⟨s', c', hsave, h.save hkeeps hroom hv hsaves hsteps hslots ?_ fun hno => hflags ?_⟩
  · rw [← hhome]
    exact putAt_savedLoc s v off
  · rw [hhome]
    by_contra hboth
    obtain ⟨hnone, hoff⟩ := not_or.1 hboth
    simp [Octx.losesFlags, Octx.addsOffset, hloc, not_not.1 hnone, hoff] at hno

/-- A flag is loaded, and saved from there. -/
theorem Saving.save_flag (h : Saving s₀ skip i s c) (hkeeps : Keeps skip) (hroom : s₀.Room skip)
    {v : OutVal} {f : FlagOpts} (hv : s₀.vals[i]? = some v)
    (hskip : skip i v = false) (hloc : v.loc = .flag f) :
    ∃ t s' c', (∀ spill, flagToReg spill s i v f = some t) ∧
      (∀ spill, vSaveReg (vSpillRegWith spill) t i true = some s') ∧
      Saving s₀ skip (i + 1) s' (c ++ c') := by
  have hvs := h.ahead i v le_rfl hv
  have hsaves : s₀.saves skip i v = true := by simp [Octx.saves, hskip, OutVal.needsSave, hloc]
  have hret := (hkeeps i v hskip).1
  have hnoreg : ∀ r off, v.loc ≠ .reg r off := by
    rw [hloc]
    exact fun r off heq => Loc.noConfusion heq
  have hregs : flagRegs s.finiteMath f ≤ s.scratchRegs.length := by
    have hle := hroom.regs i v hv hsaves
    rw [Octx.regsFor, hloc] at hle
    rw [h.finite]
    exact hle.trans h.room
  obtain ⟨r, t, c₁, hload, hsteps₁, hcur, hr, hflags₁⟩ := flagToReg_steps hvs hloc hregs
  have hslots₁ : SlotsIn t := hsteps₁.slotsIn h.slots hcur fun off heq => Loc.noConfusion heq
  have hcallee := unusedReg_after_flag hsteps₁ hr hvs hret hnoreg v.isFloating
  obtain ⟨s', c₂, hsave, hsteps₂, hslots, hflags₂⟩ :=
    vSaveReg_steps hsteps₁.self hret rfl hslots₁ fun _ hoff => absurd rfl hoff
  refine ⟨t, s', c₁ ++ c₂, hload, hsave, h.save hkeeps hroom hv hsaves
    (hsteps₁.trans hsteps₂ hvs hnoreg hcur.ge) hslots ?_ fun hno => ?_⟩
  · rw [← h.unusedReg_eq_home v, ← hcallee]
    exact putAt_savedLoc t { v with loc := .reg r 0 } 0
  · have hnone : x86NeedFpParityP s.finiteMath f = none := by
      rw [h.finite]
      simpa [Octx.losesFlags, hloc] using hno
    exact (hflags₁ hnone).append (hflags₂ (Or.inr rfl))

/-- The body of the loop. -/
theorem Saving.body (h : Saving s₀ skip i s c) (hkeeps : Keeps skip) (hroom : s₀.Room skip)
    (hwf : s₀.Wf) (called : CallingConv) {v : OutVal} (hv : s₀.vals[i]? = some v)
    (hskip : skip i v = false) :
    ∃ s' c', (∀ spill, saveVal (vSpillRegWith spill) s (some called) i v = some s') ∧
      Saving s₀ skip (i + 1) s' (c ++ c') := by
  have hstay : v.needsSave s₀.currentFnty = false → ∃ c', Saving s₀ skip (i + 1) s (c ++ c') := by
    intro hno
    refine ⟨[], ?_⟩
    rw [List.append_nil]
    exact h.pass hv (by rw [Octx.saves, hno, Bool.and_false])
  unfold saveVal
  cases hloc : v.loc with
  | reg r off =>
    simp only [Option.isSome_some, Bool.true_and, h.fnty]
    cases hsavable : implRegSavable r with
    | false =>
      obtain ⟨c', hc'⟩ := hstay (by simp [OutVal.needsSave, hloc, hsavable])
      exact ⟨s, c', fun spill => rfl, hc'⟩
    | true =>
      cases hcs : implRegIsCalleeSave s₀.currentFnty r with
      | true =>
        obtain ⟨c', hc'⟩ := hstay (by simp [OutVal.needsSave, hloc, hcs])
        exact ⟨s, c', fun spill => rfl, hc'⟩
      | false =>
        have hsaves : s₀.saves skip i v = true := by
          simp [Octx.saves, hskip, OutVal.needsSave, hloc, hsavable, hcs]
        exact h.save_reg hkeeps hroom hwf hv hsaves hloc
  | flag f =>
    have hsaves : s₀.saves skip i v = true := by simp [Octx.saves, hskip, OutVal.needsSave, hloc]
    have honce := hroom.once i v f hv hsaves hloc
    obtain ⟨t, s', c', hload, hsave, hsaving⟩ := h.save_flag hkeeps hroom hv hskip hloc
    refine ⟨s', c', fun spill => ?_, hsaving⟩
    simp only [if_pos honce, hload, Option.bind_eq_bind, Option.bind_some, Option.isSome_some]
    exact hsave spill
  | _ =>
    obtain ⟨c', hc'⟩ := hstay (by rw [OutVal.needsSave, hloc])
    exact ⟨s, c', fun spill => rfl, hc'⟩

end Step

/-! ## The loop -/

/-- Values that are not retained are passed by. -/
theorem saveFrom_dead (fuel : Nat) (funcTy : Option CallingConv) (ignores : List Nat)
    (fnval : Option Nat) {s : Octx} (n : Nat) :
    ∀ i, s.vals.length ≤ i + n → (∀ (j : Nat) (u : OutVal), i ≤ j → s.vals[j]? = some u →
      u.retains = 0) → ∀ steps, n < steps →
      saveFrom fuel funcTy ignores fnval steps s i = some s := by
  induction n with
  | zero =>
    intro i hlen _ steps hsteps
    obtain ⟨steps, rfl⟩ := Nat.exists_eq_succ_of_ne_zero (Nat.ne_of_gt hsteps)
    have hnone : s.vals[i]? = none := List.getElem?_eq_none hlen
    rw [saveFrom, hnone]
  | succ n ih =>
    intro i hlen hdead steps hsteps
    obtain ⟨steps, rfl⟩ := Nat.exists_eq_succ_of_ne_zero (Nat.ne_zero_of_lt hsteps)
    rw [saveFrom]
    cases hv : s.vals[i]? with
    | none => rfl
    | some v =>
      have hskip : skips ignores fnval i v = true := by
        simp [skips, hdead i v le_rfl hv]
      simp only [hskip, if_true]
      exact ih (i + 1) (by omega) (fun j u hle hj => hdead j u (by omega) hj) steps (by omega)

theorem keeps_skips (ignores : List Nat) (fnval : Option Nat) : Keeps (skips ignores fnval) := by
  intro j v hskip
  simp only [skips, Bool.or_eq_false_iff, decide_eq_false_iff_not] at hskip
  obtain ⟨⟨⟨hret, hphi⟩, -⟩, -⟩ := hskip
  exact ⟨Nat.pos_of_ne_zero hret, Option.isNone_iff_eq_none.1 (by simpa using hphi)⟩

/-- A run of the loop from the value at `i`. -/
theorem saveFrom_saving {s₀ : Octx} {ignores : List Nat} {fnval : Option Nat} (hwf : s₀.Wf)
    (hroom : s₀.Room (skips ignores fnval)) (called : CallingConv) (k : Nat) :
    ∀ i s c, i + k = s₀.vals.length → Saving s₀ (skips ignores fnval) i s c →
      ∃ s' c' n, (∀ fuel steps, n ≤ steps →
        saveFrom (fuel + 1) (some called) ignores fnval steps s i = some s') ∧
        Saving s₀ (skips ignores fnval) s₀.vals.length s' c' := by
  induction k with
  | zero =>
    intro i s c hi h
    obtain rfl : i = s₀.vals.length := by omega
    refine ⟨s, c, s.vals.length + 1, fun fuel steps hsteps => ?_, h⟩
    exact saveFrom_dead _ _ _ _ s.vals.length _ (by omega) h.dead steps hsteps
  | succ k ih =>
    intro i s c hi h
    obtain ⟨v, hv⟩ : ∃ v, s₀.vals[i]? = some v := ⟨_, List.getElem?_eq_getElem (by omega)⟩
    have hvs := h.ahead i v le_rfl hv
    cases hskip : skips ignores fnval i v with
    | true =>
      have hpass := h.pass hv (by rw [Octx.saves, hskip]; rfl)
      obtain ⟨s', c', n, hrun, hsaving⟩ := ih (i + 1) s c (by omega) hpass
      refine ⟨s', c', n + 1, fun fuel steps hsteps => ?_, hsaving⟩
      obtain ⟨steps, rfl⟩ := Nat.exists_eq_succ_of_ne_zero (Nat.ne_zero_of_lt hsteps)
      rw [saveFrom, hvs]
      simp only [hskip, if_true]
      exact hrun fuel steps (Nat.le_of_succ_le_succ hsteps)
    | false =>
      obtain ⟨t, c₁, hbody, hnext⟩ := h.body (keeps_skips ignores fnval) hroom hwf called hv hskip
      obtain ⟨s', c', n, hrun, hsaving⟩ := ih (i + 1) t (c ++ c₁) (by omega) hnext
      refine ⟨s', c', n + 1, fun fuel steps hsteps => ?_, hsaving⟩
      obtain ⟨steps, rfl⟩ := Nat.exists_eq_succ_of_ne_zero (Nat.ne_zero_of_lt hsteps)
      rw [saveFrom, hvs]
      simp only [hskip, Bool.false_eq_true, if_false, vSpillReg, hbody, Option.bind_eq_bind,
        Option.bind_some]
      exact hrun fuel steps (Nat.le_of_succ_le_succ hsteps)

/-! ## What a call leaves -/

/-- A value that is still there when a function of this convention returns. -/
def OutVal.Survives (v : OutVal) (called : CallingConv) : Prop :=
  match v.loc with
  | .reg r _ => implRegSavable r = true → implRegIsCalleeSave called r = true
  | .flag _ => False
  | _ => True

instance (v : OutVal) (called : CallingConv) : Decidable (v.Survives called) := by
  unfold OutVal.Survives
  split <;> infer_instance

/-- All that is retained is safe from a call, and is what it was. -/
structure Complete (s : Octx) (called : CallingConv) (skip : Nat → OutVal → Bool) (s' : Octx) :
    Prop where
  clear : ∀ (i : Nat) (v : OutVal), s'.vals[i]? = some v → skip i v = false → v.Survives called
  means : ∃ c, s'.code = s.code ++ c ∧ ∀ (i : Nat) (v : OutVal), s.vals[i]? = some v →
    skip i v = false → ∃ loc, s'.vals[i]? = some { v with loc := loc } ∧
      ∀ alu m, ({ v with loc := loc } : OutVal).denote s.finiteMath
        (execAll alu m c) = v.denote s.finiteMath m

/-- `v_save_regs` comes to an end, and saves all there is. -/
def SavesAll (s : Octx) (called : CallingConv) (ignores : List Nat) (fnval : Option Nat) : Prop :=
  ∃ n, ∀ fuel, n ≤ fuel → ∃ s', vSaveRegs fuel s (some called) ignores fnval = some s' ∧
    Complete s called (skips ignores fnval) s'

/-- The registers that values are left in are preserved.  One value alone is left where
it is. -/
def Octx.Suits (s : Octx) (called : CallingConv) (skip : Nat → OutVal → Bool) : Prop :=
  ∀ (i : Nat) (v : OutVal), s.vals[i]? = some v → skip i v = false →
    if s.vals.length ≤ 1 then v.Survives called
    else ∀ r, s.holder skip i v = some r → implRegSavable r = true →
      implRegIsCalleeSave called r = true

theorem Placed.survives_iff {s : Octx} {skip : Nat → OutVal → Bool} {i : Nat} {v : OutVal}
    {loc : Loc} (h : Placed s skip i v loc) (called : CallingConv) :
    ({ v with loc := loc } : OutVal).Survives called ↔
      ∀ r, s.holder skip i v = some r → implRegSavable r = true →
        implRegIsCalleeSave called r = true := by
  unfold Placed at h
  cases hholder : s.holder skip i v with
  | some r =>
    rw [hholder] at h
    obtain ⟨off, rfl⟩ := h
    refine ⟨fun hsurvives q hq => Option.some.inj hq ▸ hsurvives, fun hall => hall r rfl⟩
  | none =>
    rw [hholder] at h
    obtain ⟨hreg, hflag⟩ := h
    refine ⟨fun _ r hr => (nomatch hr), fun _ => ?_⟩
    unfold OutVal.Survives
    cases loc with
    | reg r off => exact absurd rfl (hreg r off)
    | flag f => exact absurd rfl (hflag f)
    | _ => trivial

/-- What the loop leaves is complete where the registers suit. -/
theorem Saving.complete_iff {s₀ s : Octx} {skip : Nat → OutVal → Bool} {c : List Insn}
    (h : Saving s₀ skip s₀.vals.length s c) (hkeeps : Keeps skip)
    (hlocs : ∀ i v loc, skip i { v with loc := loc } = skip i v) (hmany : ¬s₀.vals.length ≤ 1)
    (called : CallingConv) : Complete s₀ called skip s ↔ s₀.Suits called skip := by
  constructor
  · intro hcomplete i v hv hskip
    rw [if_neg hmany]
    obtain ⟨loc, hget, hplaced, -⟩ := h.value i v hv hskip
    rw [← (hplaced (List.getElem?_eq_some_iff.1 hv).1).survives_iff called]
    exact hcomplete.clear i _ hget ((hlocs i v loc).trans hskip)
  · intro hsuits
    refine ⟨fun i u hu hskip => ?_, c, h.code, fun i v hv hskip => ?_⟩
    · by_cases hlt : i < s₀.vals.length
      · obtain ⟨v, hv⟩ : ∃ v, s₀.vals[i]? = some v := ⟨_, List.getElem?_eq_getElem hlt⟩
        cases hskipv : skip i v with
        | true =>
          obtain rfl := Option.some.inj ((h.skipped i v hv hskipv).symm.trans hu)
          rw [hskipv] at hskip
          cases hskip
        | false =>
          obtain ⟨loc, hget, hplaced, -⟩ := h.value i v hv hskipv
          obtain rfl := Option.some.inj (hget.symm.trans hu)
          have hsuit := hsuits i v hv hskipv
          rw [if_neg hmany] at hsuit
          exact ((hplaced hlt).survives_iff called).2 hsuit
      · have hdead := h.dead i u (not_lt.1 hlt) hu
        have hlive := (hkeeps i u hskip).1
        omega
    · obtain ⟨loc, hget, -, hmeans⟩ := h.value i v hv hskip
      exact ⟨loc, hget, hmeans⟩

/-- One value alone is left where it is. -/
theorem complete_self_iff {s : Octx} {skip : Nat → OutVal → Bool} (hone : s.vals.length ≤ 1)
    (called : CallingConv) : Complete s called skip s ↔ s.Suits called skip := by
  constructor
  · intro hcomplete i v hv hskip
    rw [if_pos hone]
    exact hcomplete.clear i v hv hskip
  · intro hsuits
    refine ⟨fun i v hv hskip => ?_, [], (List.append_nil _).symm, fun i v hv _ =>
      ⟨v.loc, hv, fun _ _ => rfl⟩⟩
    have hsuit := hsuits i v hv hskip
    rw [if_pos hone] at hsuit
    exact hsuit

/-- Where `v_save_regs` comes to an end in one state. -/
theorem savesAll_iff_of_run {s s' : Octx} {called : CallingConv} {ignores : List Nat}
    {fnval : Option Nat} {n : Nat}
    (hrun : ∀ fuel, n ≤ fuel → vSaveRegs fuel s (some called) ignores fnval = some s') :
    SavesAll s called ignores fnval ↔ Complete s called (skips ignores fnval) s' := by
  constructor
  · rintro ⟨k, hall⟩
    obtain ⟨t, ht, hcomplete⟩ := hall (max n k) (le_max_right n k)
    rw [hrun _ (le_max_left n k)] at ht
    exact Option.some.inj ht ▸ hcomplete
  · intro hcomplete
    exact ⟨n, fun fuel hle => ⟨s', hrun fuel hle, hcomplete⟩⟩

/-- Where no register has to be freed and no flag is lost, all is saved if and only if the
registers suit. -/
theorem savesAll_iff_suits {s : Octx} (hwf : s.Wf) (called : CallingConv) (ignores : List Nat)
    (fnval : Option Nat) (hroom : s.vals.length ≤ 1 ∨ s.Room (skips ignores fnval)) :
    SavesAll s called ignores fnval ↔ s.Suits called (skips ignores fnval) := by
  by_cases hone : s.vals.length ≤ 1
  · have hrun : ∀ fuel, 0 ≤ fuel → vSaveRegs fuel s (some called) ignores fnval = some s := by
      intro fuel _
      rw [vSaveRegs, hwf.tail, if_pos hone]
    rw [savesAll_iff_of_run hrun, complete_self_iff hone called]
  · obtain ⟨s', c', n, hrun, hsaving⟩ := saveFrom_saving hwf (hroom.resolve_left hone) called
      s.vals.length 0 s [] (Nat.zero_add _) (Saving.start _ hwf.slots)
    have hrun' : ∀ fuel, n + 1 ≤ fuel →
        vSaveRegs fuel s (some called) ignores fnval = some s' := by
      intro fuel hle
      obtain ⟨fuel, rfl⟩ := Nat.exists_eq_succ_of_ne_zero (Nat.ne_zero_of_lt hle)
      rw [vSaveRegs, hwf.tail, if_neg hone]
      exact hrun fuel (fuel + 1) (by omega)
    rw [savesAll_iff_of_run hrun', hsaving.complete_iff (keeps_skips ignores fnval) _ hone called]
    exact fun i v loc => rfl

/-- `g` is to be called, with a sum in `rax`. -/
def sumHeld : Octx where
  vals := [⟨.reg ⟨0, false⟩ 0, 1, none, .w32, false⟩, ⟨.lbl "g" 0, 1, none, .w64, false⟩]
  valTail := some 0
  reservedRegs _ := 0
  curStackSz := 0
  noReclaim := false
  currentFnty := .x64Sysv
  finiteMath := false
  code := []

theorem wf_sumHeld : sumHeld.Wf where
  tail := rfl
  slots v hv _ _ off hloc := by
    obtain rfl | rfl := List.mem_pair.1 hv <;> cases hloc
  floats v hv r off hloc hfp := by
    obtain rfl | rfl := List.mem_pair.1 hv
    · exact (Loc.reg.inj hloc).2.symm
    · cases hloc

/-- The sum is the only value that is saved. -/
theorem saves_sumHeld {i : Nat} {v : OutVal} (hv : sumHeld.vals[i]? = some v)
    (hskip : skips [] (some 1) i v = false) :
    i = 0 ∧ v = ⟨.reg ⟨0, false⟩ 0, 1, none, .w32, false⟩ := by
  match i with
  | 0 => exact ⟨rfl, (Option.some.inj hv).symm⟩
  | 1 => simp [skips] at hskip
  | i + 2 => cases hv

theorem room_sumHeld : sumHeld.Room (skips [] (some 1)) where
  regs i v hv hsaves := by
    obtain ⟨rfl, rfl⟩ := saves_sumHeld hv (saves_iff.1 hsaves).1
    decide
  once i v f hv hsaves hloc := by
    obtain ⟨rfl, rfl⟩ := saves_sumHeld hv (saves_iff.1 hsaves).1
    cases hloc
  flags i v hv hsaves hloses := by
    obtain ⟨rfl, rfl⟩ := saves_sumHeld hv (saves_iff.1 hsaves).1
    exact absurd hloses (by decide)

/-- A value alone on the list, in `rax`. -/
def oneHeld : Octx := { sumHeld with
  vals := [⟨.reg ⟨0, false⟩ 0, 1, none, .w32, false⟩]
  valTail := none }

/-- `val_tail` is null where there is one value, and the loop does not start. -/
theorem one_value_not_saved : ¬SavesAll oneHeld .x64Sysv [] none := by
  have hrun : ∀ fuel, 0 ≤ fuel → vSaveRegs fuel oneHeld (some .x64Sysv) [] none = some oneHeld :=
    fun _ _ => rfl
  rw [savesAll_iff_of_run hrun]
  intro hcomplete
  exact absurd (hcomplete.clear 0 _ rfl (by decide)) (by decide)

end Ucc.Cc1.Save
