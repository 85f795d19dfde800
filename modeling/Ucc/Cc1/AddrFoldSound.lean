/-
  Cc1/AddrFoldSound.lean --- a folded operator has its value.

  Source: fold_const_expr_op and const_op_num_int in src/cc1/ops/expr_op.c.

  Sums and differences of addresses, and then every way `fold_const_expr_op`
  takes: what is folded is the value wherever the objects are if and only if the
  condition of that way holds.
-/
import Ucc.Cc1.AddrFoldTruth

set_option autoImplicit false

namespace Ucc.Cc1

namespace BinOp

variable {O : Objects} {b : BinOp O} {l r : Collapsed}

/-! ## Sums and differences -/

/-- An address folded to another address. -/
theorem value_offset {k : Consty} {c : Collapsed} (h : collapseConst k = some c) {n : String}
    (hn : c.lbl = some n) (x : Integral) (ρ : Env) :
    Consty.value ρ { k with offset := x } = ρ.addr n + x := by
  unfold collapseConst at h
  split at h <;> cases h <;> simp_all [Consty.value, Addr.value]

theorem offset_of_collapse {k : Consty} {c : Collapsed} (h : collapseConst k = some c)
    {n : String} (hn : c.lbl = some n) : c.offset = k.offset := by
  unfold collapseConst at h
  split at h <;> cases h <;> simp_all

/-- An address folded to itself with another offset. -/
theorem soundAs_offset {k : Consty} {c : Collapsed} (h : collapseConst k = some c) {n : String}
    (hn : c.lbl = some n) (x : Integral) :
    b.SoundAs (some { k with offset := x }) ↔
      ∀ ρ : Env, ρ.Admissible O b.syms → ∀ v, b.eval ρ = some v → ρ.addr n + x = v := by
  rw [soundAs_some]
  · simp only [value_offset h hn]
  · intro hno
    unfold collapseConst at h
    change k.bits = .no at hno
    rw [hno] at h
    cases h

/-- An offset with a number added or subtracted. -/
def moved (op : OpType) (o x : Integral) : Integral := if op = .plus then o + x else o - x

/-- A sum or difference of an address and a number, with what is left of the
number after it is scaled. -/
theorem fold_left (hop : b.op = .plus ∨ b.op = .minus) (hl : collapseConst b.lhs.k = some l)
    (hr : collapseConst b.rhs.k = some r) {m : String} (hm : l.lbl = some m) (hn : r.lbl = none) :
    constOpNumInt b.expr =
      if b.lhs.ty.isPtr = none ∧ b.rhs.ty.isPtr ≠ none then none
      else some { b.lhs.k with
        offset := moved b.op b.lhs.k.offset
          (stepped b.op b.lhs.ty b.rhs.ty l.offset r.offset).2 } := by
  rw [constOpNumInt_eq hl hr (by rcases hop with h | h <;> rw [h] <;> rfl)]
  rcases hop with hop | hop <;> cases hlp : b.lhs.ty.isPtr <;> cases hrp : b.rhs.ty.isPtr <;>
    simp [applyStep, labels, foldLabels, foldOneLabel, expr, stepped, moved, hop, hlp, hrp, hm, hn]

theorem fold_right (hop : b.op = .plus ∨ b.op = .minus) (hl : collapseConst b.lhs.k = some l)
    (hr : collapseConst b.rhs.k = some r) {n : String} (hm : l.lbl = none) (hn : r.lbl = some n) :
    constOpNumInt b.expr =
      if b.lhs.ty.isPtr ≠ none then none
      else some { b.rhs.k with
        offset := moved b.op b.rhs.k.offset
          (stepped b.op b.lhs.ty b.rhs.ty l.offset r.offset).1 } := by
  rw [constOpNumInt_eq hl hr (by rcases hop with h | h <;> rw [h] <;> rfl)]
  rcases hop with hop | hop <;> cases hlp : b.lhs.ty.isPtr <;> cases hrp : b.rhs.ty.isPtr <;>
    simp [applyStep, labels, foldLabels, foldOneLabel, expr, stepped, moved, hop, hlp, hrp, hm, hn]

/-- The side of the address is not scaled. -/
theorem stepped_left {op : OpType} {lt rt : CTy} (h : ¬ (lt.isPtr = none ∧ rt.isPtr ≠ none))
    (x x' y : Integral) : stepped op lt rt x y = (x, (stepped op lt rt x' y).2) := by
  unfold stepped
  split
  · cases hl : lt.isPtr <;> cases hr : rt.isPtr <;> simp_all
  · rfl

theorem stepped_right {op : OpType} {lt rt : CTy} (h : lt.isPtr = none) (x y y' : Integral) :
    stepped op lt rt x y = ((stepped op lt rt x y').1, y) := by
  unfold stepped
  split
  · cases hr : rt.isPtr <;> simp_all
  · rfl

theorem fold_both (hsc : opIsShortcircuit b.op = false) (hl : collapseConst b.lhs.k = some l)
    (hr : collapseConst b.rhs.k = some r) {m n : String} (hm : l.lbl = some m)
    (hn : r.lbl = some n) : constOpNumInt b.expr = foldTwoLabels b.expr l r := by
  rw [constOpNumInt_eq hl hr hsc]
  simp [applyStep, labels, foldLabels, hm, hn]

/-- A sum or difference at run time, where the operands are wide enough for an
address. -/
theorem eval_moved {ρ : Env} {v : Integral} (hop : b.op = .plus ∨ b.op = .minus)
    (hwide : b.lhs.ty ≠ .uint ∨ b.rhs.ty ≠ .uint)
    (hdiff : b.op = .minus → b.lhs.ty.isPtr ≠ none → b.rhs.ty.isPtr = none)
    (h : b.eval ρ = some v) :
    moved b.op (stepped b.op b.lhs.ty b.rhs.ty (b.lhs.value ρ) (b.rhs.value ρ)).1
      (stepped b.op b.lhs.ty b.rhs.ty (b.lhs.value ρ) (b.rhs.value ρ)).2 = v := by
  have htyped := b.typed
  have hby : ByType b.op := by
    rcases hop with hop | hop <;> rw [hop] <;> exact ⟨by decide, by decide, rfl⟩
  rw [eval] at h
  rcases em (b.lhs.ty.isPtr = none ∧ b.rhs.ty.isPtr = none) with hint | hptr
  · have harith : b.lhs.ty = b.rhs.ty := by
      rcases hop with hop | hop <;> rw [hop] at htyped <;>
        exact (binaryType_arith htyped hint.1 hint.2 (by simp)).1
    have hne : b.lhs.ty ≠ .uint := by
      rcases hwide with hw | hw
      · exact hw
      · rw [harith]
        exact hw
    rw [evalBinary_int hby hint] at h
    rw [stepped_of_not_ptr hint.1 hint.2]
    rcases hop with hop | hop
    · rw [hop, evalInt] at h
      have hv := CTy.wrap_of_ne_uint hne h
      rw [BitVec.ofInt_add, CTy.ofInt_read, CTy.ofInt_read] at hv
      rw [hop]
      exact hv
    · rw [hop, evalInt] at h
      have hv := CTy.wrap_of_ne_uint hne h
      rw [Int.sub_eq_add_neg, BitVec.ofInt_add, BitVec.ofInt_neg, CTy.ofInt_read,
        CTy.ofInt_read, ← BitVec.sub_eq_add_neg] at hv
      rw [hop]
      exact hv
  · rw [evalBinary_ptr hby hptr] at h
    rcases hop with hop | hop
    · rw [hop] at htyped h ⊢
      cases hlp : b.lhs.ty.isPtr <;> cases hrp : b.rhs.ty.isPtr <;>
        simp_all [binaryType, evalPtr, stepped, moved]
    · rw [hop] at htyped h ⊢
      cases hlp : b.lhs.ty.isPtr <;> cases hrp : b.rhs.ty.isPtr <;>
        simp_all [binaryType, evalPtr, stepped, moved]

theorem plus_sound (hop : b.op = .plus) (hl : collapseConst b.lhs.k = some l)
    (hr : collapseConst b.rhs.k = some r) (hlc : b.lhs.k.atCompileTime = true)
    (hrc : b.rhs.k.atCompileTime = true) (hlabel : l.lbl ≠ none ∨ r.lbl ≠ none) :
    b.SoundAs (constOpNumInt b.expr) := by
  have hlv := Operand.value_of_atCompileTime hl hlc
  have hrv := Operand.value_of_atCompileTime hr hrc
  cases hm : l.lbl with
  | none =>
    cases hn : r.lbl with
    | none => simp [hm, hn] at hlabel
    | some n =>
      rw [fold_right (Or.inl hop) hl hr hm hn]
      split
      · exact soundAs_none
      rename_i hlp
      refine (soundAs_offset hr hn _).mpr fun ρ _ v hv => ?_
      have hv := eval_moved (Or.inl hop) (Or.inr (b.rhs_wf.ne_uint hr hrc hn))
        (by rw [hop]; rintro ⟨⟩) hv
      rw [hlv, hrv, Collapsed.value, Collapsed.value, hm, hn,
        stepped_right (not_not.mp hlp) _ _ r.offset, hop, moved, if_pos rfl] at hv
      rw [← offset_of_collapse hr hn, ← hv, hop, moved, if_pos rfl]
      ring
  | some m =>
    cases hn : r.lbl with
    | some n =>
      rw [fold_both (by rw [hop]; rfl) hl hr hm hn]
      have hfold : foldTwoLabels b.expr l r = some constFoldNo := by
        simp [foldTwoLabels, expr, hop]
      rw [hfold]
      exact soundAs_no
    | none =>
      rw [fold_left (Or.inl hop) hl hr hm hn]
      split
      · exact soundAs_none
      rename_i hlp
      refine (soundAs_offset hl hm _).mpr fun ρ _ v hv => ?_
      have hv := eval_moved (Or.inl hop) (Or.inl (b.lhs_wf.ne_uint hl hlc hm))
        (by rw [hop]; rintro ⟨⟩) hv
      rw [hlv, hrv, Collapsed.value, Collapsed.value, hm, hn,
        stepped_left hlp _ l.offset, hop, moved, if_pos rfl] at hv
      rw [← offset_of_collapse hl hm, ← hv, hop, moved, if_pos rfl]
      ring

/-! ## Differences of addresses -/

/-- Two places of an object that are one step apart, a whole number of steps from
an address. -/
theorem exists_two_places (n : String) (base : Integral) {s : Nat} (hs : 0 < s)
    (hs' : s < 2 ^ 32) :
    ∃ k : Int, (-2 ^ 63 ≤ s * k ∧ s * (k + 1) < 2 ^ 63) ∧
      O.Placed n (base + BitVec.ofInt 64 (s * k)) ∧
      O.Placed n (base + BitVec.ofInt 64 (s * (k + 1))) := by
  have hsize := O.size_lt n
  have hbase := base.isLt
  unfold Objects.Placed
  simp only [BitVec.toNat_add, BitVec.toNat_ofInt]
  rcases Nat.lt_or_ge base.toNat (2 ^ 63) with hlow | hhigh
  · refine ⟨1, ?_⟩
    omega
  · have hdiv := Nat.div_add_mod (2 ^ 33) s
    have hmod := Nat.mod_lt (2 ^ 33) hs
    generalize 2 ^ 33 / s = j at hdiv
    refine ⟨-(j + 2), ?_⟩
    have hk : (s : Int) * -(j + 2) = -((s * j : Nat) : Int) - 2 * s := by
      push_cast
      ring
    have hk' : (s : Int) * (-(j + 2) + 1) = -((s * j : Nat) : Int) - s := by
      push_cast
      ring
    rw [hk, hk']
    generalize s * j = d at hdiv
    omega

theorem eq_one_of_ofNat {s : Nat} (hs : s < 2 ^ 32) (h : BitVec.ofNat 64 s = 1) : s = 1 := by
  have hnat := congrArg BitVec.toNat h
  rw [BitVec.toNat_ofNat] at hnat
  change s % 2 ^ 64 = 1 at hnat
  omega

/-- A quotient that agrees at two neighbours is by one. -/
theorem eq_one_of_diffFoldsWell {s : Nat} (hs : 0 < s) (hs' : s < 2 ^ 32) {x y p : Integral}
    {k : Int} (hx : (x - p).toInt = s * k) (hy : (y - p).toInt = s * (k + 1))
    (hwx : DiffFoldsWell s x p) (hwy : DiffFoldsWell s y p) : s = 1 := by
  have hpos : (s : Int) ≠ 0 := by omega
  have hx0 := hwx ⟨k, hx⟩
  have hy0 := hwy ⟨k + 1, hy⟩
  rw [hx, Int.mul_ediv_cancel_left _ hpos] at hx0
  rw [hy, Int.mul_ediv_cancel_left _ hpos, BitVec.ofInt_add] at hy0
  have hone : BitVec.ofInt 64 1 = (1 : Integral) := rfl
  rw [hone] at hy0
  exact eq_one_of_ofNat hs' (by linear_combination hy0 - hx0)

/-- The difference of two pointers at run time. -/
theorem eval_diff (hop : b.op = .minus) {s : Nat} (hs : b.lhs.ty.isPtr = some s)
    (hrp : b.rhs.ty.isPtr ≠ none) (ρ : Env) :
    b.eval ρ = if (s : Int) ∣ (b.lhs.value ρ - b.rhs.value ρ).toInt then
      some (BitVec.ofInt 64 ((b.lhs.value ρ - b.rhs.value ρ).toInt / s)) else none := by
  obtain ⟨s', hs'⟩ := Option.ne_none_iff_exists'.mp hrp
  rw [eval, hop, evalBinary_ptr ⟨by decide, by decide, rfl⟩ (by simp [hs]), hs, hs']
  rfl

/-- The difference of an address and a pointer that is a number. -/
theorem diff_sound_iff (hop : b.op = .minus) (hl : collapseConst b.lhs.k = some l)
    (hr : collapseConst b.rhs.k = some r) (hlc : b.lhs.k.atCompileTime = true)
    (hrc : b.rhs.k.atCompileTime = true) {m : String} (hm : l.lbl = some m) (hn : r.lbl = none)
    {s : Nat} (hs : b.lhs.ty.isPtr = some s) (hrp : b.rhs.ty.isPtr ≠ none) :
    b.SoundAs (some { b.lhs.k with offset := l.offset - r.offset * BitVec.ofNat 64 s }) ↔
      s = 1 := by
  have hlv := Operand.value_of_atCompileTime hl hlc
  have hrv := Operand.value_of_atCompileTime hr hrc
  obtain ⟨hpos, hlt⟩ := b.lhs_wf.next s hs
  have hwell : b.SoundAs (some { b.lhs.k with offset := l.offset - r.offset * BitVec.ofNat 64 s }) ↔
      ∀ ρ : Env, ρ.Admissible O b.syms → DiffFoldsWell s (ρ.addr m + l.offset) r.offset := by
    refine (soundAs_offset hl hm _).trans (forall₂_congr fun ρ _ => ?_)
    rw [eval_diff hop hs hrp, hlv, hrv, Collapsed.value, Collapsed.value, hm, hn,
      ← diff_agrees_iff]
    simp only [add_sub_assoc]
  rw [hwell]
  constructor
  · intro h
    obtain ⟨k, ⟨hlo, hhi⟩, hpx, hpy⟩ := exists_two_places (O := O) m (r.offset - l.offset) hpos hlt
    obtain ⟨ρ, hadm, hx, -⟩ := exists_env hl hr (Or.inl hm) id fun _ => hpx
    obtain ⟨ρ', hadm', hy, -⟩ := exists_env hl hr (Or.inl hm) id fun _ => hpy
    have hstep : (s : Int) * (k + 1) = s * k + s := by ring
    have hdist : ∀ {a : Integral} {z : Int}, a = r.offset - l.offset + BitVec.ofInt 64 z →
        -2 ^ 63 ≤ z → z < 2 ^ 63 → (a + l.offset - r.offset).toInt = z := by
      rintro a z rfl hz hz'
      have hz0 : r.offset - l.offset + BitVec.ofInt 64 z + l.offset - r.offset =
          BitVec.ofInt 64 z := by ring
      rw [hz0]
      exact BitVec.toInt_ofInt_eq_self (by decide) hz hz'
    refine eq_one_of_diffFoldsWell (k := k) hpos hlt ?_ ?_ (h ρ hadm) (h ρ' hadm')
    · exact hdist hx hlo (by omega)
    · exact hdist hy (by omega) hhi
  · rintro rfl ρ _ _
    simp

/-- A place of an object from where a number less the address is not the address
less the number. -/
theorem exists_swapped (n : String) (x o : Integral) :
    ∃ a : Integral, O.Placed n a ∧
      (-2 ^ 63 ≤ x.toInt - (a + o).toInt ∧ x.toInt - (a + o).toInt < 2 ^ 63) ∧
      (a + o) - x ≠ x - (a + o) := by
  have hsize := O.size_lt n
  have hlt := (x - o).isLt
  -- a step from `x - o` that neither leaves the room nor overflows from `x`
  have hstep : ∃ d : Int, (d ≠ 0 ∧ -2 ^ 63 < d ∧ d < 2 ^ 63) ∧
      (-2 ^ 63 ≤ x.toInt + d ∧ x.toInt + d < 2 ^ 63) ∧
      O.Placed n (x - o + BitVec.ofInt 64 d) := by
    unfold Objects.Placed
    simp only [BitVec.toNat_add, BitVec.toNat_ofInt]
    have hhi := BitVec.toInt_lt (x := x)
    have hlo := BitVec.le_toInt (x := x)
    rcases lt_or_ge x.toInt 0 with hneg | hpos
    · rcases Nat.lt_or_ge (x - o).toNat (2 ^ 64 - 2 ^ 62) with h | h
      · exact ⟨2 ^ 61, by omega⟩
      · exact ⟨2 ^ 62 + 2 ^ 61, by omega⟩
    · rcases Nat.lt_or_ge (x - o).toNat (2 ^ 62) with h | h
      · exact ⟨-(2 ^ 62 + 2 ^ 61), by omega⟩
      · exact ⟨-2 ^ 61, by omega⟩
  obtain ⟨d, ⟨hd, hdlo, hdhi⟩, ⟨hlo, hhi⟩, hplaced⟩ := hstep
  have hsum : x - o + BitVec.ofInt 64 d + o = x + BitVec.ofInt 64 d := by ring
  refine ⟨_, hplaced, ?_, ?_⟩
  · have hint : (x - o + BitVec.ofInt 64 d + o).toInt = x.toInt + d := by
      rw [hsum, BitVec.toInt_add, BitVec.toInt_ofInt_eq_self (by decide) hdlo.le hdhi]
      exact Int.bmod_eq_of_le (by omega) (by omega)
    rw [hint]
    omega
  · intro heq
    rw [hsum] at heq
    have htwice : BitVec.ofInt 64 (d + d) = 0 := by
      rw [BitVec.ofInt_add]
      linear_combination heq
    have hzero := congrArg BitVec.toNat htwice
    rw [BitVec.toNat_ofInt] at hzero
    change ((d + d) % 2 ^ 64).toNat = 0 at hzero
    omega

/-- Between integers that are as wide as an address, a difference that does not
overflow has a value. -/
theorem exists_eval_minus (hop : b.op = .minus) (hlp : b.lhs.ty.isPtr = none)
    (hrp : b.rhs.ty.isPtr = none) (hsize : b.lhs.ty.size = 8) {ρ : Env}
    (hlo : -2 ^ 63 ≤ (b.lhs.value ρ).toInt - (b.rhs.value ρ).toInt)
    (hhi : (b.lhs.value ρ).toInt - (b.rhs.value ρ).toInt < 2 ^ 63) :
    ∃ v, b.eval ρ = some v := by
  rw [eval, hop, evalBinary_int ⟨by decide, by decide, rfl⟩ ⟨hlp, hrp⟩, evalInt]
  unfold CTy.wrap
  split
  · rename_i hsigned
    rw [CTy.read_signed hsigned, CTy.read_signed hsigned, if_pos]
    · exact ⟨_, rfl⟩
    · rw [CTy.Fits, if_pos hsigned, CTy.bits, hsize]
      exact ⟨hlo, hhi⟩
  · exact ⟨_, rfl⟩

/-- A number less an address is folded with its operands swapped. -/
theorem swapped_unsound (hop : b.op = .minus) (hl : collapseConst b.lhs.k = some l)
    (hr : collapseConst b.rhs.k = some r) (hlc : b.lhs.k.atCompileTime = true)
    (hrc : b.rhs.k.atCompileTime = true) {n : String} (hm : l.lbl = none) (hn : r.lbl = some n)
    (hlp : b.lhs.ty.isPtr = none) : ¬ b.SoundAs (constOpNumInt b.expr) := by
  have hlv := Operand.value_of_atCompileTime hl hlc
  have hrv := Operand.value_of_atCompileTime hr hrc
  have htyped := b.typed
  rw [hop] at htyped
  have hrp : b.rhs.ty.isPtr = none := by
    cases hrp : b.rhs.ty.isPtr with
    | none => rfl
    | some s => simp [binaryType, hlp, hrp] at htyped
  have hty := (binaryType_arith htyped hlp hrp (by simp)).1
  have hsize : b.lhs.ty.size = 8 := by
    rw [hty]
    exact b.rhs_wf.wide hrc (by simp [syms_of_collapse hr, hn])
  rw [fold_right (Or.inr hop) hl hr hm hn, if_neg (not_not.mpr hlp), soundAs_offset hr hn]
  intro hs
  obtain ⟨a, hplaced, ⟨hlo, hhi⟩, hne⟩ := exists_swapped (O := O) n l.offset r.offset
  obtain ⟨ρ, hadm, rfl, -⟩ := exists_env hl hr (Or.inr hn) id fun _ => hplaced
  have hlval : b.lhs.value ρ = l.offset := by rw [hlv, Collapsed.value, hm]
  have hrval : b.rhs.value ρ = ρ.addr n + r.offset := by rw [hrv, Collapsed.value, hn]
  obtain ⟨v, hv⟩ := exists_eval_minus hop hlp hrp hsize (ρ := ρ)
    (by rw [hlval, hrval]; exact hlo) (by rw [hlval, hrval]; exact hhi)
  have hfold := hs ρ hadm v hv
  have hdiff := eval_moved (Or.inr hop) (Or.inr (b.rhs_wf.ne_uint hr hrc hn))
    (fun _ _ => hrp) hv
  rw [stepped_of_not_ptr hlp hrp, hop, moved, if_neg (by decide)] at hfold hdiff
  rw [hlval, hrval] at hdiff
  rw [← offset_of_collapse hr hn] at hfold
  apply hne
  rw [hdiff, ← hfold, add_sub_assoc]

/-- Unsigned division is right on differences that are not negative. -/
theorem udiv_eq_iff {d : Integral} {s : Nat} (hs : 0 < s) (hs' : s < 2 ^ 32)
    (hdvd : (s : Int) ∣ d.toInt) :
    d.udiv (BitVec.ofNat 64 s) = BitVec.ofInt 64 (d.toInt / s) ↔ s = 1 ∨ 0 ≤ d.toInt := by
  obtain ⟨q, hq⟩ := hdvd
  have hpos : (s : Int) ≠ 0 := by omega
  rw [← BitVec.toNat_inj, BitVec.toNat_ofInt, hq, Int.mul_ediv_cancel_left _ hpos]
  change (d / BitVec.ofNat 64 s).toNat = _ ↔ _
  rw [BitVec.toNat_udiv, BitVec.toNat_ofNat, Nat.mod_eq_of_lt (by omega)]
  have hhi := BitVec.toInt_lt (x := d)
  have hlo := BitVec.le_toInt (x := d)
  have hcond := BitVec.toInt_eq_toNat_cond d
  rcases lt_or_ge q 0 with hneg | hnonneg
  · have hle : (s : Int) * q ≤ q := by nlinarith
    have hnat : (d.toNat : Int) = 2 ^ 64 + s * q := by
      have hlt := d.isLt
      split at hcond <;> omega
    have hdiv : ((d.toNat / s : Nat) : Int) = 2 ^ 64 / s + q := by
      rw [Int.natCast_ediv, hnat, Int.add_mul_ediv_left _ _ hpos]
    have hone : (2 ^ 64 / (s : Int) = 2 ^ 64) ↔ s = 1 := by
      constructor
      · intro h
        have hmul := Int.ediv_mul_le (2 ^ 64) hpos
        rw [h] at hmul
        omega
      · rintro rfl
        norm_num
    rw [← hone]
    omega
  · have hle : q ≤ s * q := by nlinarith
    have hnat : (d.toNat : Int) = s * q := by
      have hlt := d.isLt
      split at hcond <;> omega
    have hdiv : ((d.toNat / s : Nat) : Int) = q := by
      rw [Int.natCast_ediv, hnat, Int.mul_ediv_cancel_left _ hpos]
    refine iff_of_true ?_ (Or.inr (by omega))
    omega

/-- The difference of two addresses in one object. -/
theorem same_object_sound_iff (hop : b.op = .minus) (hl : collapseConst b.lhs.k = some l)
    (hr : collapseConst b.rhs.k = some r) (hlc : b.lhs.k.atCompileTime = true)
    (hrc : b.rhs.k.atCompileTime = true) {m : String} (hm : l.lbl = some m) (hn : r.lbl = some m)
    {s : Nat} (hs : b.lhs.ty.isPtr = some s) (hrp : b.rhs.ty.isPtr ≠ none) :
    b.SoundAs (some
        { bits := .num ((l.offset - r.offset).udiv (BitVec.ofNat 64 s)) {}
          nonstandardConst := true }) ↔
      SameDiffFoldsWell s l.offset r.offset := by
  obtain ⟨hpos, hlt⟩ := b.lhs_wf.next s hs
  have heval : ∀ ρ : Env, b.eval ρ = if (s : Int) ∣ (l.offset - r.offset).toInt then
      some (BitVec.ofInt 64 ((l.offset - r.offset).toInt / s)) else none := fun ρ => by
    have hsub : b.lhs.value ρ - b.rhs.value ρ = l.offset - r.offset := by
      rw [Operand.value_of_atCompileTime hl hlc, Operand.value_of_atCompileTime hr hrc,
        Collapsed.value, Collapsed.value, hm, hn]
      exact add_sub_add_left_eq_sub _ _ _
    rw [eval_diff hop hs hrp, hsub]
  rw [soundAs_some (by rintro ⟨⟩)]
  unfold SameDiffFoldsWell
  rcases em ((s : Int) ∣ (l.offset - r.offset).toInt) with hdvd | hdvd
  · rw [← udiv_eq_iff hpos hlt hdvd]
    simp only [heval, hdvd, if_true, true_imp_iff]
    constructor
    · intro h
      obtain ⟨ρ, hadm, -, -⟩ := exists_env hl hr (Or.inl hm) id fun _ => placed_one m
      have hfold := h ρ hadm _ rfl
      rwa [value_num] at hfold
    · rintro h ρ _ v ⟨⟩
      rw [value_num, h]
  · refine iff_of_true ?_ (fun h => absurd h hdvd)
    intro ρ _ v hv
    rw [heval, if_neg hdvd] at hv
    cases hv

/-- An address less the same object's address as an integer. -/
theorem scaled_sound_iff (hop : b.op = .minus) (hl : collapseConst b.lhs.k = some l)
    (hr : collapseConst b.rhs.k = some r) (hlc : b.lhs.k.atCompileTime = true)
    (hrc : b.rhs.k.atCompileTime = true) {m : String} (hm : l.lbl = some m) (hn : r.lbl = some m)
    {s : Nat} (hs : b.lhs.ty.isPtr = some s) (hrp : b.rhs.ty.isPtr = none) :
    b.SoundAs (some
        { bits := .num ((l.offset - r.offset).udiv (BitVec.ofNat 64 s)) {}
          nonstandardConst := true }) ↔ s = 1 := by
  obtain ⟨hpos, hlt⟩ := b.lhs_wf.next s hs
  have heval : ∀ ρ : Env, b.eval ρ =
      some (ρ.addr m + l.offset - (ρ.addr m + r.offset) * BitVec.ofNat 64 s) := fun ρ => by
    rw [eval, hop, evalBinary_ptr ⟨by decide, by decide, rfl⟩ (by simp [hs]), hs, hrp,
      Operand.value_of_atCompileTime hl hlc, Operand.value_of_atCompileTime hr hrc,
      Collapsed.value, Collapsed.value, hm, hn]
    rfl
  rw [soundAs_some (by rintro ⟨⟩)]
  constructor
  · intro h
    obtain ⟨ρ, hadm, hone, -⟩ := exists_env hl hr (Or.inl hm) id fun _ => placed_one m
    obtain ⟨ρ', hadm', htwo, -⟩ := exists_env hl hr (Or.inl hm) id fun _ =>
      placed_low (a := 2) m (by decide) (by decide)
    have hx := h ρ hadm _ (heval ρ)
    have hy := h ρ' hadm' _ (heval ρ')
    rw [value_num, hone] at hx
    rw [value_num, htwo] at hy
    exact eq_one_of_ofNat hlt (by linear_combination hy - hx)
  · rintro rfl ρ _ v hv
    rw [heval] at hv
    rw [value_num, ← Option.some.inj hv]
    change (l.offset - r.offset) / 1#64 = _
    rw [BitVec.udiv_one, BitVec.mul_one]
    ring

/-- A label subtracted from a number. -/
theorem minus_right_sound_iff (hop : b.op = .minus) (hl : collapseConst b.lhs.k = some l)
    (hr : collapseConst b.rhs.k = some r) (hlc : b.lhs.k.atCompileTime = true)
    (hrc : b.rhs.k.atCompileTime = true) (hm : l.lbl = none)
    {n : String} (hn : r.lbl = some n) :
    b.SoundAs (constOpNumInt b.expr) ↔ MinusFoldsWell b.lhs.ty b.rhs.ty l r := by
  simp only [MinusFoldsWell, hm, hn]
  cases hlp : b.lhs.ty.isPtr with
  | none => exact iff_of_false (swapped_unsound hop hl hr hlc hrc hm hn hlp) (by simp)
  | some s =>
    rw [fold_right (Or.inr hop) hl hr hm hn, if_pos (by simp [hlp])]
    exact iff_of_true soundAs_none (by simp)

/-- A number or a pointer that is one, subtracted from a label. -/
theorem minus_left_sound_iff (hop : b.op = .minus) (hl : collapseConst b.lhs.k = some l)
    (hr : collapseConst b.rhs.k = some r) (hlc : b.lhs.k.atCompileTime = true)
    (hrc : b.rhs.k.atCompileTime = true) {m : String}
    (hm : l.lbl = some m) (hn : r.lbl = none) :
    b.SoundAs (constOpNumInt b.expr) ↔ MinusFoldsWell b.lhs.ty b.rhs.ty l r := by
  have hlv := Operand.value_of_atCompileTime hl hlc
  have hrv := Operand.value_of_atCompileTime hr hrc
  simp only [MinusFoldsWell, hm, hn]
  rw [fold_left (Or.inr hop) hl hr hm hn]
  rcases em (∃ s, b.lhs.ty.isPtr = some s ∧ b.rhs.ty.isPtr ≠ none) with ⟨s, hs, hrp⟩ | hdiff
  · rw [if_neg (by simp [hs]), ← offset_of_collapse hl hm]
    have hfold : moved b.op l.offset (stepped b.op b.lhs.ty b.rhs.ty l.offset r.offset).2 =
        l.offset - r.offset * BitVec.ofNat 64 s := by
      simp [moved, stepped, hop, hs]
    rw [hfold, diff_sound_iff hop hl hr hlc hrc hm hn hs hrp]
    constructor
    · rintro rfl s' hs' _
      exact Option.some.inj (hs'.symm.trans hs)
    · intro h
      exact h s hs hrp
  · refine iff_of_true ?_ fun s hs hrp => absurd ⟨s, hs, hrp⟩ hdiff
    split
    · exact soundAs_none
    rename_i hlp
    refine (soundAs_offset hl hm _).mpr fun ρ _ v hv => ?_
    have hv := eval_moved (Or.inr hop) (Or.inl (b.lhs_wf.ne_uint hl hlc hm))
      (fun _ hne => by
        obtain ⟨s, hs⟩ := Option.ne_none_iff_exists'.mp hne
        by_contra hrp
        exact hdiff ⟨s, hs, hrp⟩) hv
    rw [hlv, hrv, Collapsed.value, Collapsed.value, hm, hn,
      stepped_left hlp _ l.offset, hop, moved, if_neg (by decide)] at hv
    rw [← offset_of_collapse hl hm, ← hv, hop, moved, if_neg (by decide)]
    ring

/-- The difference of two labels. -/
theorem minus_both_sound_iff (hop : b.op = .minus) (hl : collapseConst b.lhs.k = some l)
    (hr : collapseConst b.rhs.k = some r) (hlc : b.lhs.k.atCompileTime = true)
    (hrc : b.rhs.k.atCompileTime = true) {m n : String}
    (hm : l.lbl = some m) (hn : r.lbl = some n) :
    b.SoundAs (constOpNumInt b.expr) ↔ MinusFoldsWell b.lhs.ty b.rhs.ty l r := by
  simp only [MinusFoldsWell, hm, hn]
  rw [fold_both (by rw [hop]; rfl) hl hr hm hn]
  have hwm := b.lhs_wf.weak l hl m hm
  have hwn := b.rhs_wf.weak r hr n hn
  rcases em (m = n ∧ l.isWeak = false) with ⟨rfl, hwl⟩ | hother
  · have hwr : r.isWeak = false := hwn.symm.trans (hwm.trans hwl)
    cases hlp : b.lhs.ty.isPtr with
    | none =>
      have hfold : foldTwoLabels b.expr l r = none := by
        simp [foldTwoLabels, expr, hop, hwl, hwr, hm, hn, hlp]
      rw [hfold]
      exact iff_of_true soundAs_none (by simp)
    | some s =>
      have hfold : foldTwoLabels b.expr l r = some
          { bits := .num ((l.offset - r.offset).udiv (BitVec.ofNat 64 s)) {}
            nonstandardConst := true } := by
        simp [foldTwoLabels, expr, hop, hwl, hwr, hm, hn, hlp]
      rw [hfold]
      cases hrp : b.rhs.ty.isPtr with
      | none =>
        rw [scaled_sound_iff hop hl hr hlc hrc hm hn hlp hrp]
        simp [hwl]
      | some s' =>
        rw [same_object_sound_iff hop hl hr hlc hrc hm hn hlp (by simp [hrp])]
        simp [hwl]
  · have hfold : foldTwoLabels b.expr l r = some constFoldNo := by
      simp only [foldTwoLabels, expr, hop, hm, hn]
      rw [if_neg]
      intro h
      simp only [Bool.and_eq_true, Bool.not_eq_true', beq_iff_eq, Option.some.injEq] at h
      exact hother ⟨h.2, h.1.1⟩
    rw [hfold]
    exact iff_of_true soundAs_no fun h hw => absurd ⟨h, hw⟩ hother

theorem minus_sound_iff (hop : b.op = .minus) (hl : collapseConst b.lhs.k = some l)
    (hr : collapseConst b.rhs.k = some r) (hlc : b.lhs.k.atCompileTime = true)
    (hrc : b.rhs.k.atCompileTime = true) (hlabel : l.lbl ≠ none ∨ r.lbl ≠ none) :
    b.SoundAs (constOpNumInt b.expr) ↔ MinusFoldsWell b.lhs.ty b.rhs.ty l r := by
  cases hm : l.lbl with
  | none =>
    cases hn : r.lbl with
    | none => simp [hm, hn] at hlabel
    | some n => exact minus_right_sound_iff hop hl hr hlc hrc hm hn
  | some m =>
    cases hn : r.lbl with
    | none => exact minus_left_sound_iff hop hl hr hlc hrc hm hn
    | some n => exact minus_both_sound_iff hop hl hr hlc hrc hm hn

/-! ## Every operator -/

theorem applyStep_numbers (op : OpType) (lt rt : CTy) (hm : l.lbl = none) (hn : r.lbl = none) :
    ∃ l' r', applyStep op lt rt l r = some (l', r') ∧ l'.lbl = none ∧ r'.lbl = none ∧
      (l'.offset, r'.offset) = stepped op lt rt l.offset r.offset := by
  unfold applyStep stepped
  rcases em (op = .plus ∨ op = .minus) with hop | hop
  · cases lt.isPtr <;> cases rt.isPtr <;> simp [labels, hm, hn, hop]
  · simp [labels, hm, hn, hop]

/-- A folded number against a value that does not depend on the addresses. -/
theorem foldNumbers_sound_iff {value : Option Integral} {ρ₀ : Env}
    (hadm : ρ₀.Admissible O b.syms) (heval : ∀ ρ, b.eval ρ = value) :
    b.SoundAs (foldNumbers b.expr l r) ↔
      Agrees (constOpExec l.offset (some r.offset) b.op b.ty) value := by
  have hfold : constOpExec l.offset (b.expr.rhs.map fun _ => r.offset) b.expr.op
      b.expr.treeType = constOpExec l.offset (some r.offset) b.op b.ty := rfl
  unfold foldNumbers
  rw [hfold]
  cases constOpExec l.offset (some r.offset) b.op b.ty with
  | ok x =>
    rw [agrees_ok, soundAs_some (by rintro ⟨⟩)]
    simp only [heval, value_num]
    exact ⟨fun h => h ρ₀ hadm, fun h _ _ => h⟩
  | error fault =>
    cases fault with
    | error msg => exact iff_of_true soundAs_no (agrees_error _ _)
    | ice => exact iff_of_true soundAs_none (agrees_error _ _)

/-- Numbers are folded by `const_op_exec`. -/
theorem numbers_sound_iff (hsc : opIsShortcircuit b.op = false)
    (hl : collapseConst b.lhs.k = some l) (hr : collapseConst b.rhs.k = some r)
    (hlc : b.lhs.k.atCompileTime = true) (hrc : b.rhs.k.atCompileTime = true)
    (hm : l.lbl = none) (hn : r.lbl = none) :
    b.SoundAs (constOpNumInt b.expr) ↔ NumFoldsWell b.op b.lhs.ty b.rhs.ty l.offset r.offset := by
  obtain ⟨l', r', hstep, hm', hn', hoff⟩ :=
    applyStep_numbers b.op b.lhs.ty b.rhs.ty hm hn
  have hsame : b.sameObject = false := by simp [sameObject, syms_of_collapse hl, hm]
  have heval : ∀ ρ, b.eval ρ =
      evalBinary b.op b.lhs.ty b.rhs.ty false l.offset r.offset := fun ρ => by
    rw [eval, hsame, Operand.value_of_atCompileTime hl hlc, Operand.value_of_atCompileTime hr hrc,
      Collapsed.value, Collapsed.value, hm, hn]
  have hadm : (⟨fun _ => 0, id⟩ : Env).Admissible O b.syms := by
    rw [syms_eq hl hr, hm, hn]
    constructor
    · rintro n ⟨⟩
    · rintro m ⟨⟩
  have hfold : constOpNumInt b.expr = foldNumbers b.expr l' r' := by
    rw [constOpNumInt_eq hl hr hsc, hstep]
    simp [foldLabels, labels, hm', hn']
  rw [hfold, foldNumbers_sound_iff hadm heval,
    ← numbers_agree_iff b.typed hsc (b.lhs_wf.fits hl hlc hm) (b.rhs_wf.fits hr hrc hn), ← hoff]

/-- The operators that only fold numbers. -/
theorem others_sound (hop : b.op ≠ .eq ∧ b.op ≠ .ne ∧ b.op ≠ .plus ∧ b.op ≠ .minus)
    (hsc : opIsShortcircuit b.op = false) (hl : collapseConst b.lhs.k = some l)
    (hr : collapseConst b.rhs.k = some r) (hlabel : l.lbl ≠ none ∨ r.lbl ≠ none) :
    b.SoundAs (constOpNumInt b.expr) := by
  obtain ⟨heq, hne, hplus, hminus⟩ := hop
  have hstep : applyStep b.op b.lhs.ty b.rhs.ty l r = some (l, r) := by
    simp [applyStep, hplus, hminus]
  have hfold : foldLabels b.expr l r = none ∨ foldLabels b.expr l r = some constFoldNo := by
    unfold foldLabels
    cases hm : l.lbl <;> cases hn : r.lbl
    · simp [hm, hn] at hlabel
    all_goals
      cases hop : b.op <;>
        simp_all [labels, foldOneLabel, foldTwoLabels, expr, opIsShortcircuit]
  rw [constOpNumInt_eq hl hr hsc, hstep]
  rcases hfold with hfold | hfold
  · exact (congrArg b.SoundAs hfold).mpr soundAs_none
  · exact (congrArg b.SoundAs hfold).mpr soundAs_no

/-- An operator that is not a short-circuit one, with an address among its operands. -/
theorem labels_sound_iff (hl : collapseConst b.lhs.k = some l)
    (hr : collapseConst b.rhs.k = some r) (hlc : b.lhs.k.atCompileTime = true)
    (hrc : b.rhs.k.atCompileTime = true) (hsc : opIsShortcircuit b.op = false)
    (hlabel : l.lbl ≠ none ∨ r.lbl ≠ none) :
    b.SoundAs (constOpNumInt b.expr) ↔ ConstsFoldWell O b.op b.lhs.ty b.rhs.ty l r := by
  have hnot : ∀ {P : Prop}, l.lbl = none → r.lbl = none → P := fun hm hn => by
    simp [hm, hn] at hlabel
  cases hop : b.op with
  | andsc | orsc =>
    rw [hop] at hsc
    cases hsc
  | eq | ne =>
    have hfold : constOpNumInt b.expr = foldLabels b.expr l r := by
      rw [constOpNumInt_eq hl hr hsc]
      simp [applyStep, hop]
    rw [hfold]
    exact equality_sound_iff (by simp [hop]) hl hr (Operand.value_of_atCompileTime hl hlc)
      (Operand.value_of_atCompileTime hr hrc) hlabel
  | plus => exact iff_of_true (plus_sound hop hl hr hlc hrc hlabel) hnot
  | minus => exact minus_sound_iff hop hl hr hlc hrc hlabel
  | _ => exact iff_of_true (others_sound (by simp [hop]) hsc hl hr hlabel) hnot

/-- Two operands that are constant at compile time. -/
theorem consts_sound_iff (hl : collapseConst b.lhs.k = some l)
    (hr : collapseConst b.rhs.k = some r) (hlc : b.lhs.k.atCompileTime = true)
    (hrc : b.rhs.k.atCompileTime = true) :
    b.SoundAs (constOpNumInt b.expr) ↔ ConstsFoldWell O b.op b.lhs.ty b.rhs.ty l r := by
  have hlv := Operand.value_of_atCompileTime hl hlc
  have hrv := Operand.value_of_atCompileTime hr hrc
  cases hsc : opIsShortcircuit b.op with
  | true =>
    have hfold : constOpNumInt b.expr = shortcircuited b.op l.toTruth r.toTruth := by
      cases hop : b.op <;> rw [hop] at hsc <;> try cases hsc
      all_goals
        simp [constOpNumInt, expr, hop, hl, hr, applyStep, opIsShortcircuit, shortcircuited]
    rw [hfold]
    cases hop : b.op with
    | andsc => exact and_sound_iff hl hr fun ρ => by rw [eval, hop, hlv, hrv]; rfl
    | orsc => exact or_sound_iff hl hr fun ρ => by rw [eval, hop, hlv, hrv]; rfl
    | _ =>
      rw [hop] at hsc
      cases hsc
  | false =>
    rcases em (l.lbl = none ∧ r.lbl = none) with ⟨hm, hn⟩ | hlabel
    · rw [numbers_sound_iff hsc hl hr hlc hrc hm hn]
      cases hop : b.op with
      | eq | ne =>
        refine iff_of_true ?_ (by simp [ConstsFoldWell, EqFoldsWell, hm, hn])
        cases b.lhs.ty <;> cases b.rhs.ty <;> simp [NumFoldsWell, IntFoldsWell, CTy.isPtr]
      | minus => simp [ConstsFoldWell, MinusFoldsWell, hm, hn]
      | andsc | orsc =>
        rw [hop] at hsc
        cases hsc
      | _ => simp [ConstsFoldWell, hm, hn]
    · exact labels_sound_iff hl hr hlc hrc hsc (not_and_or.mp hlabel)

/-- Objects of eight bytes. -/
def twoInts : Objects where
  size _ := 8
  weak _ := false
  size_pos _ := by decide
  size_lt _ := by decide

/-- `&a[1] == &a[0]`, with `int a[2]`. -/
def secondIsFirst : BinOp twoInts where
  op := .eq
  lhs := ⟨.ptr 4, { bits := .addr (.lblTrue "a"), offset := 4 }⟩
  rhs := ⟨.ptr 4, { bits := .addr (.lblTrue "a") }⟩
  ty := .int
  lhs_wf := {
    const := by decide
    next := by rintro step ⟨⟩; decide
    wide := by decide
    range := by rintro - ⟨⟩
    weak := by rintro c ⟨⟩ n -; rfl }
  rhs_wf := {
    const := by decide
    next := by rintro step ⟨⟩; decide
    wide := by decide
    range := by rintro - ⟨⟩
    weak := by rintro c ⟨⟩ n -; rfl }
  typed := by decide

end BinOp

end Ucc.Cc1
