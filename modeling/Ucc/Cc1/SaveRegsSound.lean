/-
  Cc1/SaveRegsSound.lean --- what is left in registers when a function is called.

  Source: v_save_regs in src/cc1/out/virt.c and the functions below it, as in
  Cc1/SaveRegs.lean.

  A step of `v_save_regs` writes code that uses registers no value is in, and
  memory below the frame, so that the other values stand for what they stood for.
-/
import Ucc.Cc1.SaveRegs

set_option autoImplicit false

namespace Ucc.Cc1.Save

open Ucc.Cc1.Out (Width)
open Ucc.Cc1.Stack (VReg regBp regSp implRegFrameConst)

/-! ## Words and memory -/

theorem setWidth_low (w : Width) (x : BitVec 64) :
    (low w x).setWidth w.bits = x.setWidth w.bits := by
  unfold low
  rw [BitVec.setWidth_setWidth_of_le _ w.bits_le, BitVec.setWidth_eq]

theorem low_eq_iff (w : Width) (x y : BitVec 64) :
    low w x = low w y ↔ x.setWidth w.bits = y.setWidth w.bits := by
  constructor
  · intro h
    rw [← setWidth_low w x, h, setWidth_low]
  · intro h
    unfold low
    rw [h]

theorem low_add_congr {w : Width} {x y : BitVec 64} (h : low w x = low w y) (z : BitVec 64) :
    low w (x + z) = low w (y + z) := by
  rw [low_eq_iff] at h ⊢
  rw [BitVec.setWidth_add _ _ w.bits_le, BitVec.setWidth_add _ _ w.bits_le, h]

theorem low_writeLow (dst : VReg) (w : Width) (old new : BitVec 64) :
    low w (writeLow dst w old new) = low w new := by
  rw [low_eq_iff]
  unfold writeLow
  split
  · exact setWidth_low w new
  · apply BitVec.eq_of_getLsbD_eq
    intro i hi
    have hle := w.bits_le
    simp only [BitVec.getLsbD_setWidth, BitVec.getLsbD_or, BitVec.getLsbD_shiftLeft, low, hi,
      decide_true, Bool.not_true, Bool.and_false, Bool.false_and, Bool.false_or, Bool.true_and]
    rw [decide_eq_true (by omega : i < 64), Bool.true_and]

theorem writeLow_whole (dst : VReg) (old new : BitVec 64) : writeLow dst .w64 old new = new := by
  have h := low_writeLow dst .w64 old new
  rw [low_eq_iff] at h
  simpa [Width.bits] using h

/-- Only the low bits are extended. -/
theorem extend_congr (signed : Bool) {w : Width} {x y : BitVec 64} (h : low w x = low w y) :
    extend signed w x = extend signed w y := by
  unfold extend
  rw [(low_eq_iff w x y).1 h, h]

theorem bytes_pos (w : Width) : 0 < bytes w := by cases w <;> decide

theorem toNat_low (w : Width) (x : BitVec 64) : (low w x).toNat = x.toNat % 256 ^ bytes w := by
  have hpow : 256 ^ bytes w = 2 ^ w.bits := by cases w <;> decide
  have hlt : x.toNat % 2 ^ w.bits < 2 ^ 64 := lt_of_le_of_lt (Nat.mod_le _ _) x.isLt
  unfold low
  rw [BitVec.toNat_setWidth, BitVec.toNat_setWidth, Nat.mod_eq_of_lt hlt, hpow]

/-- What was written is read. -/
theorem readMem_writeMem_self (mem : Int → BitVec 8) (at' : Int) (n x : Nat) :
    readMem (writeMem mem at' n x) at' n = x % 256 ^ n := by
  suffices h : ∀ k m, k + m = n →
      readMem (writeMem mem at' n x) (at' + k) m = x / 256 ^ k % 256 ^ m by
    simpa using h 0 n (by omega)
  intro k m
  induction m generalizing k with
  | zero => intro _; simp [readMem, Nat.mod_one]
  | succ m ih =>
    intro hk
    have hnext := ih (k + 1) (by omega)
    have hbyte : writeMem mem at' n x (at' + k) = BitVec.ofNat 8 (x / 256 ^ k) := by
      unfold writeMem
      rw [if_pos (by omega), add_sub_cancel_left, Int.toNat_natCast]
    have hdiv : x / 256 ^ (k + 1) = x / 256 ^ k / 256 := by
      rw [Nat.pow_succ, Nat.div_div_eq_div_mul]
    have hstep : at' + k + 1 = at' + (k + 1 : Nat) := by push_cast; ring
    have hpow : 256 ^ (m + 1) = 256 * 256 ^ m := Nat.pow_succ'
    rw [readMem, hbyte, hstep, hnext, hdiv, BitVec.toNat_ofNat, hpow, Nat.mod_mul]

theorem readMem_congr {mem mem' : Int → BitVec 8} (at' : Int) (n : Nat)
    (h : ∀ a, at' ≤ a → a < at' + n → mem a = mem' a) : readMem mem at' n = readMem mem' at' n := by
  induction n generalizing at' with
  | zero => rfl
  | succ n ih =>
    rw [readMem, readMem, h at' le_rfl (by omega), ih (at' + 1)]
    intro a hle hlt
    exact h a (by omega) (by push_cast; omega)

/-! ## Instructions -/

section Exec

variable (alu : BitVec 64 → CpuFlags) (m : Machine)

theorem execAll_append (a b : List Insn) :
    execAll alu m (a ++ b) = execAll alu (execAll alu m a) b :=
  List.foldl_append

@[simp] theorem execAll_nil : execAll alu m [] = m := rfl

@[simp] theorem execAll_cons (i : Insn) (c : List Insn) :
    execAll alu m (i :: c) = execAll alu (i.exec alu m) c := rfl

@[simp] theorem setReg_regs_self (w : Width) (dst : VReg) (x : BitVec 64) :
    (m.setReg w dst x).regs dst = writeLow dst w (m.regs dst) x :=
  Function.update_self _ _ _

theorem setReg_regs_of_ne (w : Width) {dst r : VReg} (h : r ≠ dst) (x : BitVec 64) :
    (m.setReg w dst x).regs r = m.regs r :=
  Function.update_of_ne h _ _

@[simp] theorem setReg_mem (w : Width) (dst : VReg) (x : BitVec 64) :
    (m.setReg w dst x).mem = m.mem := rfl

@[simp] theorem setReg_flags (w : Width) (dst : VReg) (x : BitVec 64) :
    (m.setReg w dst x).flags = m.flags := rfl

/-- The register that an instruction writes. -/
def Insn.dst? : Insn → Option VReg
  | .mov _ _ dst => some dst
  | .movImm _ dst => some dst
  | .setcc _ dst => some dst
  | .setp _ dst => some dst
  | .orAnd _ _ dst => some dst
  | .andOne dst => some dst
  | .add _ _ dst => some dst
  | .addReg _ _ _ dst => some dst
  | .store _ _ _ => none
  | .load _ _ dst => some dst
  | .movConst _ _ dst => some dst
  | .lea _ _ dst => some dst
  | .leaLbl _ _ dst => some dst
  | .ext _ _ _ _ dst => some dst

/-- The instructions that change flags. -/
def Insn.setsFlags : Insn → Bool
  | .orAnd _ _ _ => true
  | .andOne _ => true
  | .add _ _ _ => true
  | .addReg _ _ _ _ => true
  | _ => false

theorem exec_regs_of_ne (i : Insn) {r : VReg} (h : i.dst? ≠ some r) :
    (i.exec alu m).regs r = m.regs r := by
  cases i with
  | store w src off => rfl
  | mov w src dst => exact setReg_regs_of_ne m _ (fun e => h (congrArg some e.symm)) _
  | movImm n dst => exact setReg_regs_of_ne m _ (fun e => h (congrArg some e.symm)) _
  | setcc f dst => exact setReg_regs_of_ne m _ (fun e => h (congrArg some e.symm)) _
  | setp isSet dst => exact setReg_regs_of_ne m _ (fun e => h (congrArg some e.symm)) _
  | orAnd isOr src dst => exact setReg_regs_of_ne m _ (fun e => h (congrArg some e.symm)) _
  | andOne dst => exact setReg_regs_of_ne m _ (fun e => h (congrArg some e.symm)) _
  | add w n dst => exact setReg_regs_of_ne m _ (fun e => h (congrArg some e.symm)) _
  | addReg w minus src dst => exact setReg_regs_of_ne m _ (fun e => h (congrArg some e.symm)) _
  | load w off dst => exact setReg_regs_of_ne m _ (fun e => h (congrArg some e.symm)) _
  | movConst w n dst => exact setReg_regs_of_ne m _ (fun e => h (congrArg some e.symm)) _
  | lea base off dst => exact setReg_regs_of_ne m _ (fun e => h (congrArg some e.symm)) _
  | leaLbl str off dst => exact setReg_regs_of_ne m _ (fun e => h (congrArg some e.symm)) _
  | ext signed small big src dst =>
    exact setReg_regs_of_ne m _ (fun e => h (congrArg some e.symm)) _

theorem exec_labels (i : Insn) : (i.exec alu m).labels = m.labels := by
  cases i <;> rfl

theorem exec_flags (i : Insn) (h : i.setsFlags = false) : (i.exec alu m).flags = m.flags := by
  cases i <;> first | rfl | exact absurd h (by simp [Insn.setsFlags])

end Exec

/-! ## Code that leaves the values alone -/

/-- Code that writes no register that is used, and no memory of the frame. -/
structure Untouched (s : Octx) (c : List Insn) : Prop where
  regs : ∀ i ∈ c, ∀ r, i.dst? = some r → s.used r = false ∧ r ≠ regBp ∧ r ≠ regSp
  mem : ∀ w src off, Insn.store w src off ∈ c → off + bytes w ≤ -s.curStackSz

/-- Code that leaves the flags as they are. -/
def KeepsFlags (c : List Insn) : Prop := ∀ i ∈ c, i.setsFlags = false

theorem Untouched.nil (s : Octx) : Untouched s [] := ⟨by simp, by simp⟩

theorem Untouched.append {s : Octx} {a b : List Insn} (ha : Untouched s a) (hb : Untouched s b) :
    Untouched s (a ++ b) where
  regs i hi r hr := by
    obtain hi | hi := List.mem_append.1 hi
    · exact ha.regs i hi r hr
    · exact hb.regs i hi r hr
  mem w src off hi := by
    obtain hi | hi := List.mem_append.1 hi
    · exact ha.mem w src off hi
    · exact hb.mem w src off hi

theorem KeepsFlags.append {a b : List Insn} (ha : KeepsFlags a) (hb : KeepsFlags b) :
    KeepsFlags (a ++ b) := by
  intro i hi
  obtain hi | hi := List.mem_append.1 hi
  · exact ha i hi
  · exact hb i hi

section Exec

variable (alu : BitVec 64 → CpuFlags)

theorem execAll_regs (c : List Insn) (m : Machine) {r : VReg}
    (h : ∀ i ∈ c, i.dst? ≠ some r) : (execAll alu m c).regs r = m.regs r := by
  induction c generalizing m with
  | nil => rfl
  | cons i c ih =>
    rw [execAll_cons, ih _ fun j hj => h j (List.mem_cons_of_mem _ hj),
      exec_regs_of_ne alu m i (h i List.mem_cons_self)]

theorem execAll_flags {c : List Insn} (h : KeepsFlags c) (m : Machine) :
    (execAll alu m c).flags = m.flags := by
  induction c generalizing m with
  | nil => rfl
  | cons i c ih =>
    rw [execAll_cons, ih fun j hj => h j (List.mem_cons_of_mem _ hj),
      exec_flags alu m i (h i List.mem_cons_self)]

theorem execAll_labels (c : List Insn) (m : Machine) : (execAll alu m c).labels = m.labels := by
  induction c generalizing m with
  | nil => rfl
  | cons i c ih => rw [execAll_cons, ih, exec_labels]

theorem exec_mem (m : Machine) (i : Insn) {a : Int}
    (h : ∀ w src off, i = .store w src off → a < off ∨ off + bytes w ≤ a) :
    (i.exec alu m).mem a = m.mem a := by
  cases i with
  | store w src off =>
    have hout := h w src off rfl
    simp only [Insn.exec, writeMem]
    rw [if_neg (by omega)]
  | _ => rfl

theorem Untouched.execAll_mem {s : Octx} {c : List Insn} (h : Untouched s c) (m : Machine)
    {a : Int} (ha : -s.curStackSz ≤ a) : (execAll alu m c).mem a = m.mem a := by
  have hmem := h.mem
  clear h
  induction c generalizing m with
  | nil => rfl
  | cons i c ih =>
    rw [execAll_cons, ih _ fun w src off hi => hmem w src off (List.mem_cons_of_mem _ hi)]
    apply exec_mem
    rintro w src off rfl
    have hle := hmem w src off List.mem_cons_self
    omega

theorem Untouched.execAll_regs {s : Octx} {c : List Insn} (h : Untouched s c) (m : Machine)
    {r : VReg} (hr : s.used r = true ∨ r = regBp ∨ r = regSp) :
    (execAll alu m c).regs r = m.regs r := by
  apply Save.execAll_regs
  intro i hi hdst
  obtain ⟨hused, hbp, hsp⟩ := h.regs i hi r hdst
  obtain hr | hr | hr := hr
  · rw [hused] at hr
    cases hr
  · exact hbp hr
  · exact hsp hr

end Exec

theorem used_of_mem {s : Octx} {v : OutVal} {r : VReg} {off : Int} (hv : v ∈ s.vals)
    (hret : 0 < v.retains) (hloc : v.loc = .reg r off) : s.used r = true := by
  have hheld : v.heldIn r = true := by simp [OutVal.heldIn, hret, hloc]
  rw [Octx.used, Bool.or_eq_true, List.any_eq_true]
  exact Or.inr ⟨v, hv, hheld⟩

/-- The values keep their meaning. -/
theorem denote_untouched {s : Octx} {c : List Insn} (h : Untouched s c) {v : OutVal}
    (hv : v ∈ s.vals) (hret : 0 < v.retains)
    (hslot : ∀ off, v.loc = .spilt off → -s.curStackSz ≤ off)
    (hflag : ∀ f, v.loc = .flag f → KeepsFlags c) (alu : BitVec 64 → CpuFlags)
    (finiteMath : Bool) (m : Machine) :
    v.denote finiteMath (execAll alu m c) = v.denote finiteMath m := by
  unfold OutVal.denote
  cases hloc : v.loc with
  | constI n => rfl
  | constF n => rfl
  | lbl str off =>
    simp only
    rw [execAll_labels]
  | reg r off =>
    simp only
    rw [h.execAll_regs alu m (Or.inl (used_of_mem hv hret hloc))]
  | regoff sp off =>
    have hr : s.used (if sp then regSp else regBp) = true ∨
        (if sp then regSp else regBp) = regBp ∨ (if sp then regSp else regBp) = regSp := by
      cases sp
      · exact Or.inr (Or.inl rfl)
      · exact Or.inr (Or.inr rfl)
    simp only
    rw [h.execAll_regs alu m hr]
  | spilt off =>
    simp only
    rw [readMem_congr off (bytes v.w) fun a hle _ =>
      h.execAll_mem alu m ((hslot off hloc).trans hle)]
  | flag f =>
    simp only
    rw [execAll_flags alu (hflag f hloc)]

/-! ## Free registers -/

theorem used_eq_true_iff (s : Octx) (r : VReg) :
    s.used r = true ↔
      s.reservedRegs r ≠ 0 ∨ ∃ (j : Nat) (v : OutVal) (off : Int),
        s.vals[j]? = some v ∧ 0 < v.retains ∧ v.loc = .reg r off := by
  unfold Octx.used
  rw [Bool.or_eq_true, decide_eq_true_iff, List.any_eq_true]
  refine or_congr Iff.rfl ⟨?_, ?_⟩
  · rintro ⟨v, hv, hheld⟩
    obtain ⟨j, hj⟩ := List.mem_iff_getElem?.1 hv
    unfold OutVal.heldIn at hheld
    rw [Bool.and_eq_true, decide_eq_true_iff] at hheld
    cases hloc : v.loc with
    | reg r' off =>
      rw [hloc] at hheld
      obtain rfl : r' = r := of_decide_eq_true hheld.2
      exact ⟨j, v, off, hj, hheld.1, hloc⟩
    | _ =>
      rw [hloc] at hheld
      cases hheld.2
  · rintro ⟨j, v, off, hj, hret, hloc⟩
    exact ⟨v, List.mem_of_getElem? hj, by simp [OutVal.heldIn, hret, hloc]⟩

theorem mem_regsOf {fp : Bool} {r : VReg} (h : r ∈ regsOf fp) :
    r.isFloat = fp ∧ r ≠ regBp ∧ r ≠ regSp := by
  unfold regsOf at h
  obtain ⟨k, hk, rfl⟩ := List.mem_map.1 h
  rw [List.mem_range] at hk
  refine ⟨rfl, ?_, ?_⟩
  · intro heq
    obtain ⟨rfl, rfl⟩ := VReg.mk.inj heq
    simp at hk
  · intro heq
    obtain ⟨rfl, rfl⟩ := VReg.mk.inj heq
    simp at hk

/-- What `v_unused_reg2` finds. -/
theorem unusedReg_some {s : Octx} {fp : Bool} {regtest : VReg → Bool} {r : VReg}
    (h : s.unusedReg fp regtest = some r) :
    s.used r = false ∧ regtest r = true ∧ r.isFloat = fp ∧ r ≠ regBp ∧ r ≠ regSp := by
  have hfound := List.find?_some h
  rw [Bool.and_eq_true, Bool.not_eq_true'] at hfound
  exact ⟨hfound.1, hfound.2, mem_regsOf (List.mem_of_find?_eq_some h)⟩

theorem vUnusedReg_of_free (spill : Spill) {s : Octx} {fp : Bool} {r : VReg}
    (h : s.unusedReg fp (implRegIsScratch s.currentFnty) = some r) :
    vUnusedReg spill s fp = some (r, s) := by
  unfold vUnusedReg
  rw [h]

/-! ## One value -/

/-- The spilt values are in the frame. -/
def SlotsIn (s : Octx) : Prop :=
  ∀ v ∈ s.vals, 0 < v.retains → v.phiblock = none → ∀ off, v.loc = .spilt off →
    -s.curStackSz ≤ off

/-- With the code `c` the value at `i` is another, and no other value is.  Values that are
made on the way are not retained. -/
structure Only (s : Octx) (i : Nat) (s' : Octx) (c : List Insn) (v' : OutVal) : Prop where
  code : s'.code = s.code ++ c
  self : s'.vals[i]? = some v'
  other : ∀ j, j ≠ i → j < s.vals.length → s'.vals[j]? = s.vals[j]?
  len : s.vals.length ≤ s'.vals.length
  dead : ∀ j u, s.vals.length ≤ j → s'.vals[j]? = some u → u.retains = 0
  fnty : s'.currentFnty = s.currentFnty
  finite : s'.finiteMath = s.finiteMath
  reserved : s'.reservedRegs = s.reservedRegs

/-- The value at `i` goes elsewhere with the code `c`, and nothing happens to the others. -/
structure Steps (s : Octx) (i : Nat) (v : OutVal) (s' : Octx) (c : List Insn) (v' : OutVal) :
    Prop extends Only s i s' c v' where
  moved : ∃ loc, v' = { v with loc := loc }
  untouched : Untouched s c
  means : ∀ alu m, v'.denote s.finiteMath (execAll alu m c) = v.denote s.finiteMath m

/-- What is used afterwards was used before, or is where the value is. -/
theorem Only.used {s s' : Octx} {i : Nat} {v' : OutVal} {c : List Insn}
    (h : Only s i s' c v') {r : VReg} (hr : s'.used r = true) :
    s.used r = true ∨ ∃ off, v'.loc = .reg r off := by
  rw [used_eq_true_iff, h.reserved] at hr
  obtain hr | ⟨j, u, off, hj, hret, hloc⟩ := hr
  · exact Or.inl ((used_eq_true_iff s r).2 (Or.inl hr))
  · by_cases hji : j = i
    · rw [hji, h.self] at hj
      obtain rfl := Option.some.inj hj
      exact Or.inr ⟨off, hloc⟩
    · by_cases hlt : j < s.vals.length
      · rw [h.other j hji hlt] at hj
        exact Or.inl ((used_eq_true_iff s r).2 (Or.inr ⟨j, u, off, hj, hret, hloc⟩))
      · have hzero := h.dead j u (not_lt.1 hlt) hj
        omega

/-- A register that the value was not in stays used. -/
theorem Only.used_of_used {s s' : Octx} {i : Nat} {v v' : OutVal} {c : List Insn}
    (h : Only s i s' c v') (hv : s.vals[i]? = some v) {q : VReg}
    (hq : ∀ off, v.loc ≠ .reg q off) (hused : s.used q = true) : s'.used q = true := by
  rw [used_eq_true_iff] at hused ⊢
  rw [h.reserved]
  obtain hres | ⟨j, u, off, hj, hlive, hloc⟩ := hused
  · exact Or.inl hres
  · have hji : j ≠ i := by
      rintro rfl
      rw [hv] at hj
      obtain rfl := Option.some.inj hj
      exact hq off hloc
    have hlt := (List.getElem?_eq_some_iff.1 hj).1
    exact Or.inr ⟨j, u, off, (h.other j hji hlt).trans hj, hlive, hloc⟩

theorem Only.used_iff {s s' : Octx} {i : Nat} {v v' : OutVal} {c : List Insn}
    (h : Only s i s' c v') (hv : s.vals[i]? = some v) (hret : 0 < v'.retains) {q : VReg}
    (hq : ∀ off, v.loc ≠ .reg q off) :
    s'.used q = true ↔ s.used q = true ∨ ∃ off, v'.loc = .reg q off := by
  refine ⟨h.used, ?_⟩
  rintro (hused | ⟨off, hloc⟩)
  · exact h.used_of_used hv hq hused
  · exact (used_eq_true_iff s' q).2 (Or.inr ⟨i, v', off, h.self, hret, hloc⟩)

/-- The value at `i` is set, and values that no one retains are added. -/
theorem Only.of_append {s t : Octx} {i : Nat} {v' : OutVal} {l : List OutVal} {c : List Insn}
    (hi : i < s.vals.length) (hvals : t.vals = (s.vals ++ l).set i v')
    (hdead : ∀ u ∈ l, u.retains = 0) (hcode : t.code = s.code ++ c)
    (hfnty : t.currentFnty = s.currentFnty) (hfinite : t.finiteMath = s.finiteMath)
    (hreserved : t.reservedRegs = s.reservedRegs) : Only s i t c v' where
  code := hcode
  self := by
    rw [hvals, List.getElem?_set_self]
    rw [List.length_append]
    omega
  other j hji hlt := by
    rw [hvals, List.getElem?_set_ne (Ne.symm hji), List.getElem?_append_left hlt]
  len := by
    rw [hvals, List.length_set, List.length_append]
    exact Nat.le_add_right _ _
  dead j w hle hj := by
    rw [hvals, List.getElem?_set_ne (by omega), List.getElem?_append_right hle] at hj
    exact hdead w (List.mem_of_getElem? hj)
  fnty := hfnty
  finite := hfinite
  reserved := hreserved

theorem Only.of_set {s t : Octx} {i : Nat} {v' : OutVal} {c : List Insn}
    (hi : i < s.vals.length) (hvals : t.vals = s.vals.set i v') (hcode : t.code = s.code ++ c)
    (hfnty : t.currentFnty = s.currentFnty) (hfinite : t.finiteMath = s.finiteMath)
    (hreserved : t.reservedRegs = s.reservedRegs) : Only s i t c v' :=
  Only.of_append hi (by rw [hvals, List.append_nil]) (by simp) hcode hfnty hfinite hreserved

theorem Only.trans {s t u : Octx} {i : Nat} {v₁ v₂ : OutVal} {c₁ c₂ : List Insn}
    (h₁ : Only s i t c₁ v₁) (h₂ : Only t i u c₂ v₂) (hi : i < s.vals.length) :
    Only s i u (c₁ ++ c₂) v₂ where
  code := by
    rw [h₂.code, h₁.code, List.append_assoc]
  self := h₂.self
  other j hji hlt := (h₂.other j hji (lt_of_lt_of_le hlt h₁.len)).trans (h₁.other j hji hlt)
  len := h₁.len.trans h₂.len
  dead j w hle hj := by
    by_cases hlt : j < t.vals.length
    · rw [h₂.other j (by omega) hlt] at hj
      exact h₁.dead j w hle hj
    · exact h₂.dead j w (not_lt.1 hlt) hj
  fnty := h₂.fnty.trans h₁.fnty
  finite := h₂.finite.trans h₁.finite
  reserved := h₂.reserved.trans h₁.reserved

theorem regCp_mem {w : Width} {src dst : VReg} {i : Insn} (h : i ∈ regCp w src dst) :
    i = .mov w src dst := by
  unfold regCp at h
  split at h
  · cases h
  · exact List.mem_singleton.1 h

theorem keepsFlags_regCp (w : Width) (src dst : VReg) : KeepsFlags (regCp w src dst) := by
  intro i hi
  rw [regCp_mem hi]
  rfl

theorem untouched_regCp {s : Octx} {dst : VReg} (hfree : s.used dst = false) (hbp : dst ≠ regBp)
    (hsp : dst ≠ regSp) (w : Width) (src : VReg) : Untouched s (regCp w src dst) where
  regs i hi r hr := by
    rw [regCp_mem hi] at hr
    obtain rfl := Option.some.inj hr
    exact ⟨hfree, hbp, hsp⟩
  mem w' src' off hi := by
    cases regCp_mem hi

/-- A copy has the low bits of its source. -/
theorem low_regCp (alu : BitVec 64 → CpuFlags) (m : Machine) (w : Width) (src dst : VReg) :
    low w ((execAll alu m (regCp w src dst)).regs dst) = low w (m.regs src) := by
  unfold regCp
  split
  · rename_i heq
    rw [execAll_nil, heq]
  · rw [execAll_cons, execAll_nil]
    change low w ((m.setReg w dst (m.regs src)).regs dst) = _
    rw [setReg_regs_self, low_writeLow]

/-- A move to a register that is free. -/
theorem moveTo_steps {s : Octx} {i : Nat} {v : OutVal} {r dst : VReg} {off : Int}
    (hv : s.vals[i]? = some v) (hloc : v.loc = .reg r off) (hfree : s.used dst = false)
    (hbp : dst ≠ regBp) (hsp : dst ≠ regSp) :
    Steps s i v (s.moveTo i v r off dst) (regCp v.w r dst) { v with loc := .reg dst off } := by
  have hi : i < s.vals.length := (List.getElem?_eq_some_iff.1 hv).1
  refine ⟨Only.of_set hi rfl rfl rfl rfl rfl, ⟨_, rfl⟩, untouched_regCp hfree hbp hsp v.w r, ?_⟩
  intro alu m
  simp only [OutVal.denote, hloc]
  exact low_add_congr (low_regCp alu m v.w r dst) _

theorem moveTo_slotsIn {s : Octx} {i : Nat} {v : OutVal} {r dst : VReg} {off : Int}
    (h : SlotsIn s) : SlotsIn (s.moveTo i v r off dst) := by
  intro u hu hret hphi o hloc
  obtain hu | rfl := List.mem_or_eq_of_mem_set hu
  · exact h u hu hret hphi o hloc
  · cases hloc

/-! ## Spills -/

theorem le_foldl_depth (l : List OutVal) (lowest : Nat) :
    lowest ≤ l.foldl (fun lowest v => max lowest v.depth) lowest ∧
      ∀ v ∈ l, v.depth ≤ l.foldl (fun lowest v => max lowest v.depth) lowest := by
  induction l generalizing lowest with
  | nil => simp
  | cons u l ih =>
    obtain ⟨hle, hmem⟩ := ih (max lowest u.depth)
    rw [List.foldl_cons]
    refine ⟨by omega, fun v hv => ?_⟩
    obtain rfl | hv := List.mem_cons.1 hv
    · omega
    · exact hmem v hv

/-- The frame is not cut down to less than the spilt values need. -/
theorem slotsIn_tryStackReclaim {s : Octx} (h : SlotsIn s) : SlotsIn s.tryStackReclaim := by
  unfold Octx.tryStackReclaim
  split
  · exact h
  · intro v hv hret hphi off hloc
    have hdepth := (le_foldl_depth s.vals 0).2 v hv
    have heq : v.depth = (-off).toNat := by
      rw [OutVal.depth, if_pos ⟨hret, hphi⟩, hloc]
    rw [heq] at hdepth
    change -((s.vals.foldl _ 0 : Nat) : Int) ≤ off
    omega

theorem tryStackReclaim_eq (s : Octx) :
    s.tryStackReclaim.vals = s.vals ∧ s.tryStackReclaim.code = s.code ∧
      s.tryStackReclaim.currentFnty = s.currentFnty ∧
      s.tryStackReclaim.finiteMath = s.finiteMath ∧
      s.tryStackReclaim.reservedRegs = s.reservedRegs := by
  unfold Octx.tryStackReclaim
  split <;> exact ⟨rfl, rfl, rfl, rfl, rfl⟩

theorem Untouched.weaken {s t : Octx} {c : List Insn} (h : Untouched t c)
    (hused : ∀ r, s.used r = true → t.used r = true) (hcur : s.curStackSz ≤ t.curStackSz) :
    Untouched s c where
  regs i hi r hr := by
    obtain ⟨hfree, hframe⟩ := h.regs i hi r hr
    refine ⟨?_, hframe⟩
    by_contra hs
    rw [hused r (Bool.eq_true_of_not_eq_false hs)] at hfree
    cases hfree
  mem w src off hi := by
    have hle := h.mem w src off hi
    omega

theorem Steps.refl {s : Octx} {i : Nat} {v : OutVal} (hv : s.vals[i]? = some v) :
    Steps s i v s [] v where
  code := (List.append_nil _).symm
  self := hv
  other _ _ _ := rfl
  len := le_rfl
  dead j u hle hj := by
    have hlt := (List.getElem?_eq_some_iff.1 hj).1
    omega
  moved := ⟨v.loc, rfl⟩
  fnty := rfl
  finite := rfl
  reserved := rfl
  untouched := Untouched.nil s
  means _ _ := rfl

/-- The context of a spill, once it has its slot. -/
def Octx.withSlot (s : Octx) (w : Width) : Octx :=
  (s.aalloct w).register (regVal regBp (-(s.aalloct w).curStackSz) .w64)

/-- The end of a spill, with the value in `src`. -/
def Octx.toSlot (s : Octx) (i : Nat) (v : OutVal) (src : VReg) (slot : Int) (stackPos : Nat) :
    Octx :=
  (((s.emit [.store v.w src slot]).setVal i { v with loc := .spilt slot }).release
    stackPos).tryStackReclaim

theorem curStackSz_withSlot (s : Octx) (w : Width) :
    s.curStackSz + bytes w ≤ (s.withSlot w).curStackSz := by
  have hle := Lib.le_roundUp (bytes_pos w) s.curStackSz
  change s.curStackSz + bytes w ≤ Lib.roundUp s.curStackSz (bytes w) + bytes w
  omega

theorem used_withSlot (s : Octx) (w : Width) (r : VReg) :
    (s.withSlot w).used r = true ↔ s.used r = true ∨ r = regBp := by
  rw [used_eq_true_iff, used_eq_true_iff]
  constructor
  · rintro (hr | ⟨j, v, off, hj, hret, hloc⟩)
    · exact Or.inl (Or.inl hr)
    · change (s.vals ++ [_])[j]? = some v at hj
      obtain hlt | hge := lt_or_ge j s.vals.length
      · rw [List.getElem?_append_left hlt] at hj
        exact Or.inl (Or.inr ⟨j, v, off, hj, hret, hloc⟩)
      · obtain rfl := List.mem_singleton.1
          (List.mem_of_getElem? ((List.getElem?_append_right hge).symm.trans hj))
        exact Or.inr (Loc.reg.inj hloc).1.symm
  · rintro ((hr | ⟨j, v, off, hj, hret, hloc⟩) | rfl)
    · exact Or.inl hr
    · have hlt := (List.getElem?_eq_some_iff.1 hj).1
      exact Or.inr ⟨j, v, off, (List.getElem?_append_left hlt).trans hj, hret, hloc⟩
    · exact Or.inr ⟨s.vals.length, _, _, List.getElem?_concat_length, Nat.one_pos, rfl⟩

theorem getElem?_withSlot {s : Octx} {i : Nat} {v : OutVal} (hv : s.vals[i]? = some v)
    (w : Width) : (s.withSlot w).vals[i]? = some v :=
  (List.getElem?_append_left (List.getElem?_eq_some_iff.1 hv).1).trans hv

/-- The value in `src` goes to the slot. -/
theorem toSlot_steps {s t : Octx} {i : Nat} {v : OutVal} {r src : VReg} {off : Int}
    {c : List Insn} (hv : s.vals[i]? = some v) (hloc : v.loc = .reg r off)
    (h : Steps (s.withSlot v.w) i v t c v)
    (hsrc : ∀ alu m, low v.w ((execAll alu m c).regs src) =
      low v.w (m.regs r + BitVec.ofInt 64 off)) :
    Steps s i v (t.toSlot i v src (-(s.withSlot v.w).curStackSz) s.vals.length)
      (c ++ [.store v.w src (-(s.withSlot v.w).curStackSz)])
      { v with loc := .spilt (-(s.withSlot v.w).curStackSz) } := by
  have hi : i < s.vals.length := (List.getElem?_eq_some_iff.1 hv).1
  have hlen : (s.withSlot v.w).vals.length = s.vals.length + 1 := List.length_append
  have hcur := curStackSz_withSlot s v.w
  have hti : i < t.vals.length := by
    have := h.len
    omega
  obtain ⟨hvals, hcode, hfnty, hfinite, hreserved⟩ := tryStackReclaim_eq
    (((t.emit [.store v.w src (-(s.withSlot v.w).curStackSz)]).setVal i
      { v with loc := .spilt (-(s.withSlot v.w).curStackSz) }).release s.vals.length)
  have hget : ∀ j : Nat, (t.toSlot i v src (-(s.withSlot v.w).curStackSz) s.vals.length).vals[j]? =
      ((t.vals.set i { v with loc := .spilt (-(s.withSlot v.w).curStackSz) }).modify
        s.vals.length fun v => { v with retains := 0 })[j]? := fun j => by
    rw [Octx.toSlot, hvals]
    rfl
  refine ⟨⟨?_, ?_, ?_, ?_, ?_, ?_, ?_, ?_⟩, ⟨_, rfl⟩, ?_, ?_⟩
  · rw [Octx.toSlot, hcode]
    change t.code ++ _ = _
    rw [h.code, List.append_assoc]
    rfl
  · rw [hget, List.getElem?_modify_ne _ _ (by omega), List.getElem?_set_self hti]
  · intro j hji hlt
    rw [hget, List.getElem?_modify_ne _ _ (by omega), List.getElem?_set_ne (Ne.symm hji),
      h.other j hji (by omega)]
    exact List.getElem?_append_left hlt
  · rw [Octx.toSlot, hvals]
    change s.vals.length ≤ ((t.vals.set i _).modify _ _).length
    rw [List.length_modify, List.length_set]
    have := h.len
    omega
  · intro j u hle hj
    rw [hget, List.getElem?_modify, List.getElem?_set_ne (by omega)] at hj
    obtain ⟨u', hu', rfl⟩ := Option.map_eq_some_iff.1 hj
    split
    · rfl
    · exact h.dead j u' (by omega) hu'
  · rw [Octx.toSlot, hfnty]
    exact h.fnty
  · rw [Octx.toSlot, hfinite]
    exact h.finite
  · rw [Octx.toSlot, hreserved]
    exact h.reserved
  · apply Untouched.append
    · exact h.untouched.weaken (fun q hq => (used_withSlot s v.w q).2 (Or.inl hq)) (by omega)
    · refine ⟨?_, ?_⟩
      · intro k hk q hq
        rw [List.mem_singleton.1 hk] at hq
        cases hq
      · intro w src' off' hk
        obtain ⟨rfl, rfl, rfl⟩ := Insn.store.inj (List.mem_singleton.1 hk)
        omega
  · intro alu m
    rw [execAll_append, execAll_cons, execAll_nil]
    simp only [OutVal.denote, hloc, Insn.exec]
    rw [readMem_writeMem_self, ← toNat_low, hsrc, BitVec.ofNat_toNat, BitVec.setWidth_eq]

theorem toSlot_slotsIn {s t : Octx} {i : Nat} {v : OutVal} {src : VReg} {c : List Insn}
    (hi : i < s.vals.length) (hin : SlotsIn s) (h : Steps (s.withSlot v.w) i v t c v)
    (hcur : t.curStackSz = (s.withSlot v.w).curStackSz) :
    SlotsIn (t.toSlot i v src (-(s.withSlot v.w).curStackSz) s.vals.length) := by
  have hlen : (s.withSlot v.w).vals.length = s.vals.length + 1 := List.length_append
  have hgrow := curStackSz_withSlot s v.w
  apply slotsIn_tryStackReclaim
  intro u hu hret hphi off hloc
  change -(t.curStackSz : Int) ≤ off
  rw [hcur]
  obtain ⟨j, hj⟩ := List.mem_iff_getElem?.1 hu
  change ((t.vals.set i _).modify s.vals.length _)[j]? = some u at hj
  rw [List.getElem?_modify] at hj
  obtain ⟨u', hu', rfl⟩ := Option.map_eq_some_iff.1 hj
  split at hret
  · cases hret
  · rename_i hne
    simp only [if_neg hne] at hloc hphi
    by_cases hji : j = i
    · rw [hji, List.getElem?_set_self (by have := h.len; omega)] at hu'
      obtain rfl := Option.some.inj hu'
      obtain rfl := Loc.spilt.inj hloc
      omega
    · rw [List.getElem?_set_ne (Ne.symm hji)] at hu'
      by_cases hlt : j < s.vals.length
      · rw [h.other j hji (by omega)] at hu'
        change (s.vals ++ [_])[j]? = some u' at hu'
        rw [List.getElem?_append_left hlt] at hu'
        have hle := hin u' (List.mem_of_getElem? hu') hret hphi off hloc
        omega
      · have hdead := h.dead j u' (by omega) hu'
        change 0 < u'.retains at hret
        omega

end Ucc.Cc1.Save
