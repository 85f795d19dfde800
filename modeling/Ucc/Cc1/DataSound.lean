/-
  Cc1/DataSound.lean --- the data that is emitted is the image of the object.

  Source: asm_declare_init in src/cc1/out/asm.c, fold_sue_calc_fieldwidth and fold_sue
  in src/cc1/fold_sue.c, decl_size_align_inc_bitfield in src/cc1/decl.c.
-/
import Ucc.Cc1.DataImage

set_option autoImplicit false

namespace Ucc.Cc1.Data

open Ucc.Lib

variable {tg : Target} {symbols : String → Integral} {image : Nat → Bool} {pos : Nat}

/-! ## Directives -/

theorem holds_zero {n : Nat} :
    Holds image pos n 0 ↔ ∀ k < 8 * n, image (8 * pos + k) = false := by
  refine forall_congr' fun k => forall_congr' fun _ => ?_
  rw [show (0 : Integral).getLsbD k = false from BitVec.getLsbD_zero]

@[simp] theorem assemble_nil : assemble symbols [] = [] := rfl

theorem assemble_append (a b : List Directive) :
    assemble symbols (a ++ b) = assemble symbols a ++ assemble symbols b :=
  List.flatMap_append

theorem assemble_value (size : Nat) (base : Operand) (offset : Integral) :
    assemble symbols [.value size base offset] = leBytes size (base.value symbols + offset) := by
  simp [assemble, Directive.bytes]

theorem assemble_pad (n : Nat) :
    assemble symbols (asmDeclarePad n) = List.replicate n 0 := by
  unfold asmDeclarePad
  split
  · rename_i hn
    rw [hn]
    rfl
  · simp [assemble, Directive.bytes]

@[simp] theorem length_pad (n : Nat) : (assemble symbols (asmDeclarePad n)).length = n := by
  rw [assemble_pad, List.length_replicate]

theorem lies_pad {n : Nat} :
    Lies image pos (assemble symbols (asmDeclarePad n)) ↔ Holds image pos n 0 := by
  rw [assemble_pad, lies_zeros, holds_zero]

theorem lies_value {size : Nat} {base : Operand} {offset : Integral} :
    Lies image pos (assemble symbols [.value size base offset]) ↔
      Holds image pos size (base.value symbols + offset) := by
  rw [assemble_value, lies_leBytes]
  rfl

theorem padRest_eq {size sub : Nat} (hle : sub ≤ size) (hlt : size < 2 ^ 32) :
    padRest size sub = asmDeclarePad (size - sub) := by
  have hrest : (size + 2 ^ 32 - sub) % 2 ^ 32 = size - sub := by omega
  rw [padRest, hrest]

theorem Holds.congr {size : Nat} {v v' : Integral} (h : Holds image pos size v)
    (hv : ∀ k < 8 * size, v.getLsbD k = v'.getLsbD k) : Holds image pos size v' :=
  fun k hk => (h k hk).trans (hv k hk)

theorem Holds.add {m n : Nat} (h : Holds image pos m 0) (h' : Holds image (pos + m) n 0) :
    Holds image pos (m + n) 0 := by
  rw [holds_zero] at h h' ⊢
  intro k hk
  by_cases hlt : k < 8 * m
  · exact h k hlt
  · have hsub := h' (k - 8 * m) (by omega)
    rwa [show 8 * (pos + m) + (k - 8 * m) = 8 * pos + k by omega] at hsub

/-! ## Scalars -/

/-- The initialiser is emitted with the size of the type, and wherever the data lies,
so does the object. -/
def ObjType.Good (tg : Target) (t : ObjType) (init : Option Init) : Prop :=
  ∃ ds, t.asmDeclareInit tg init = .ok ds ∧ ∀ symbols : String → Integral,
    (assemble symbols ds).length = t.size tg.arch ∧ ∀ image pos,
      Lies image pos (assemble symbols ds) → t.Occurs tg.arch symbols image init pos

theorem ObjType.Good.emits {t : ObjType} {init : Option Init} (h : t.Good tg init) :
    t.Emits tg init := by
  obtain ⟨ds, hds, h⟩ := h
  refine ⟨ds, hds, fun symbols => ?_⟩
  obtain ⟨hlen, hocc⟩ := h symbols
  exact ⟨hlen, hocc _ 0 (lies_self _)⟩

theorem asmDeclareInitType_pow {log : Nat} (hle : log ≤ 3) :
    asmDeclareInitType (2 ^ log) = .ok (2 ^ log) := by
  interval_cases log <;> rfl

theorem integralStr_getLsbD {v : Integral} {log k : Nat} (hle : log ≤ 3) (isSigned : Bool)
    (hk : k < 8 * 2 ^ log) : (integralStr tg v (2 ^ log) isSigned).getLsbD k = v.getLsbD k := by
  have hpos : 0 < 2 ^ log := Nat.two_pow_pos log
  have hmax : 2 ^ log ≤ 2 ^ 3 := Nat.pow_le_pow_right (by decide) hle
  have hk64 : k < 64 := by omega
  unfold integralStr integralTruncate
  rw [integralTruncateBits_eq _ (by omega) (by omega)]
  cases isSigned with
  | true =>
    show (signAbove (8 * 2 ^ log) v).getLsbD k = v.getLsbD k
    rw [getLsbD_signAbove (by omega), decide_eq_true hk64, if_pos hk, Bool.true_and]
  | false =>
    show (zeroAbove (8 * 2 ^ log) v).getLsbD k = v.getLsbD k
    rw [getLsbD_zeroAbove, decide_eq_true hk64, decide_eq_true hk, Bool.true_and, Bool.true_and]

/-- A constant of a type that has a directive. -/
theorem staticVal_good {s : ScalarType} {k : Constant} (hs : (ObjType.scalar s).Sound tg.arch)
    (hk : k.FitsIn s) : (ObjType.scalar s).Good tg (some (.scalar k)) := by
  obtain ⟨hld, hdouble⟩ := hs
  cases s with
  | integral log hle isSigned =>
    cases k with
    | num v =>
      refine ⟨[.value (2 ^ log) (.num (integralStr tg v (2 ^ log) isSigned)) 0], ?_, fun symbols =>
        ⟨?_, fun image pos hlies => ?_⟩⟩
      · simp only [ObjType.asmDeclareInit, staticVal, ScalarType.size, asmDeclareInitType_pow hle]
        rfl
      · rw [assemble_value, length_leBytes]
        rfl
      · refine (lies_value.mp hlies).congr fun j hj => ?_
        rw [Operand.value, add_zero, integralStr_getLsbD hle isSigned hj]
        rfl
    | addr base offset =>
      refine ⟨[.value (2 ^ log) base offset], ?_, fun symbols => ⟨?_, fun image pos hlies => ?_⟩⟩
      · simp only [ObjType.asmDeclareInit, staticVal, ScalarType.size, asmDeclareInitType_pow hle]
        rfl
      · rw [assemble_value, length_leBytes]
        rfl
      · exact lies_value.mp hlies
    | fp single double => exact hk.elim
  | float =>
    cases k with
    | fp single double =>
      refine ⟨_, rfl, fun symbols => ⟨?_, fun image pos hlies => ?_⟩⟩
      · rw [assemble_value, length_leBytes]
        rfl
      · refine (lies_value.mp hlies).congr fun j hj => ?_
        rw [Operand.value, add_zero]
        rfl
    | num v => exact hk.elim
    | addr base offset => exact hk.elim
  | double =>
    have harch := hdouble rfl
    cases k with
    | fp single double =>
      refine ⟨_, rfl, fun symbols => ⟨?_, fun image pos hlies => ?_⟩⟩
      · rw [assemble_value, length_leBytes]
        simp [ObjType.size, ScalarType.size, harch]
      · simp only [ObjType.Occurs, ScalarType.size, harch]
        refine (lies_value.mp hlies).congr fun j hj => ?_
        rw [Operand.value, add_zero]
        rfl
    | num v => exact hk.elim
    | addr base offset => exact hk.elim
  | ldouble => exact absurd rfl hld

/-- Without an initialiser there are zeros. -/
theorem ObjType.good_none (t : ObjType) : t.Good tg none := by
  cases t with
  | scalar s =>
    exact ⟨_, rfl, fun symbols => ⟨length_pad _, fun image pos hlies => lies_pad.mp hlies⟩⟩
  | array elem len =>
    exact ⟨_, rfl, fun symbols => ⟨length_pad _, fun image pos hlies => lies_pad.mp hlies⟩⟩
  | sue su ms =>
    exact ⟨_, rfl, fun symbols => ⟨length_pad _, fun image pos hlies => lies_pad.mp hlies⟩⟩

/-! ## Groups of bit-fields -/

/-- Bit `i` of the number of a group, from one of its bit-fields. -/
def BitfieldVal.bit (b : BitfieldVal) (i : Nat) : Bool :=
  decide (b.offset ≤ i ∧ i < b.offset + b.width) && b.val.getLsbD (i - b.offset)

theorem BitfieldVal.shifted_getLsbD {b : BitfieldVal} (hpos : b.width ≠ 0) (hle : b.width ≤ 64)
    {i : Nat} (hi : i < 64) :
    ((integralTruncateBits tg.castWBuiltinTypes b.val b.width).1 <<< b.offset).getLsbD i =
      b.bit i := by
  rw [integralTruncateBits_eq _ (by omega) hle, BitVec.getLsbD_shiftLeft, getLsbD_zeroAbove]
  unfold BitfieldVal.bit
  rw [decide_eq_true hi, decide_eq_true (show i - b.offset < 64 by omega), Bool.true_and,
    Bool.true_and, ← Bool.and_assoc]
  congr 1
  rw [Bool.eq_iff_iff]
  simp only [Bool.and_eq_true, Bool.not_eq_true', decide_eq_false_iff_not, decide_eq_true_eq]
  omega

theorem groupValue_getLsbD {vals : List BitfieldVal}
    (hvals : ∀ b ∈ vals, b.width ≠ 0 ∧ b.width ≤ 64) {i : Nat} (hi : i < 64) :
    (groupValue tg vals).getLsbD i = vals.any fun b => b.bit i := by
  have hfold : ∀ (acc : Integral) (vals : List BitfieldVal),
      (∀ b ∈ vals, b.width ≠ 0 ∧ b.width ≤ 64) →
      (vals.foldl (fun v b => v |||
        ((integralTruncateBits tg.castWBuiltinTypes b.val b.width).1 <<< b.offset)) acc).getLsbD i =
        (acc.getLsbD i || vals.any fun b => b.bit i) := by
    intro acc vals hvals
    induction vals generalizing acc with
    | nil => simp
    | cons b vals ih =>
      obtain ⟨hpos, hle⟩ := hvals b List.mem_cons_self
      rw [List.foldl_cons, ih _ fun c hc => hvals c (List.mem_cons_of_mem _ hc),
        BitVec.getLsbD_or, BitfieldVal.shifted_getLsbD hpos hle hi, List.any_cons, Bool.or_assoc]
  rw [groupValue, hfold 0 vals hvals]
  simp

/-- The bit-fields of a group follow each other inside `limit` bits. -/
structure Fields (limit : Nat) (vals : List BitfieldVal) : Prop where
  width : ∀ b ∈ vals, b.width ≠ 0
  within : ∀ b ∈ vals, b.offset + b.width ≤ limit
  inOrder : vals.Pairwise fun a b => a.offset + a.width ≤ b.offset

/-- Two bit-fields of a group share no bit. -/
def BitfieldVal.Apart (a b : BitfieldVal) : Prop :=
  a.offset + a.width ≤ b.offset ∨ b.offset + b.width ≤ a.offset

instance : Std.Symm BitfieldVal.Apart := ⟨fun _ _ h => h.symm⟩

theorem Fields.apart {limit : Nat} {vals : List BitfieldVal} (h : Fields limit vals)
    {a b : BitfieldVal} (ha : a ∈ vals) (hb : b ∈ vals) (hne : a ≠ b) : a.Apart b := by
  have hapart : vals.Pairwise BitfieldVal.Apart := h.inOrder.imp .inl
  exact hapart.forall ha hb hne

/-- A bit-field of a group has its value. -/
theorem Fields.value {limit : Nat} {vals : List BitfieldVal} (h : Fields limit vals)
    (hlimit : limit ≤ 64) {b : BitfieldVal} (hb : b ∈ vals) {k : Nat} (hk : k < b.width) :
    (groupValue tg vals).getLsbD (b.offset + k) = b.val.getLsbD k := by
  have hwithin := h.within b hb
  have hvals : ∀ c ∈ vals, c.width ≠ 0 ∧ c.width ≤ 64 := fun c hc =>
    ⟨h.width c hc, by have := h.within c hc; omega⟩
  rw [groupValue_getLsbD hvals (by omega), Bool.eq_iff_iff, List.any_eq_true]
  have hself : b.bit (b.offset + k) = b.val.getLsbD k := by
    have hin : b.offset ≤ b.offset + k ∧ b.offset + k < b.offset + b.width := by omega
    rw [BitfieldVal.bit, decide_eq_true hin, Bool.true_and, Nat.add_sub_cancel_left]
  constructor
  · rintro ⟨c, hc, hbit⟩
    have hrange : c.offset ≤ b.offset + k ∧ b.offset + k < c.offset + c.width := by
      simp only [BitfieldVal.bit, Bool.and_eq_true, decide_eq_true_eq] at hbit
      exact hbit.1
    -- two bit-fields that share a bit are the same one
    have hsame : c = b := by
      by_contra hne
      have hapart := h.apart hc hb hne
      unfold BitfieldVal.Apart at hapart
      omega
    rw [hsame, hself] at hbit
    exact hbit
  · intro hbit
    exact ⟨b, hb, by rw [hself]; exact hbit⟩

/-- The other bits of a group are zero. -/
theorem Fields.zero {limit : Nat} {vals : List BitfieldVal} (h : Fields limit vals)
    (hlimit : limit ≤ 64) {i : Nat}
    (hout : ∀ b ∈ vals, b.val ≠ 0 → ¬ (b.offset ≤ i ∧ i < b.offset + b.width)) :
    (groupValue tg vals).getLsbD i = false := by
  by_cases hi : i < 64
  · have hvals : ∀ c ∈ vals, c.width ≠ 0 ∧ c.width ≤ 64 := fun c hc =>
      ⟨h.width c hc, by have := h.within c hc; omega⟩
    rw [groupValue_getLsbD hvals hi, List.any_eq_false]
    intro b hb hbit
    simp only [BitfieldVal.bit, Bool.and_eq_true, decide_eq_true_eq] at hbit
    refine hout b hb ?_ hbit.1
    rintro hzero
    rw [hzero] at hbit
    simp at hbit
  · exact BitVec.getLsbD_of_ge _ _ (by omega)

/-- The data of a group. -/
theorem asmDeclareInitBitfields_ok {limit log : Nat} {vals : List BitfieldVal}
    (h : Fields limit vals) (hne : vals ≠ []) (hlog : log ≤ 3) :
    asmDeclareInitBitfields tg vals (2 ^ log) =
      .ok [.value (2 ^ log) (.num (groupValue tg vals)) 0] := by
  have hsum : (vals.map BitfieldVal.width).sum > 0 := by
    obtain ⟨b, vals, rfl⟩ := List.exists_cons_of_ne_nil hne
    have hpos := h.width b List.mem_cons_self
    rw [List.map_cons, List.sum_cons]
    omega
  unfold asmDeclareInitBitfields
  rw [if_pos hsum, asmDeclareInitType_pow hlog]
  rfl

theorem lies_group {log : Nat} {vals : List BitfieldVal}
    (hlies : Lies image pos (assemble symbols [.value (2 ^ log) (.num (groupValue tg vals)) 0])) :
    Holds image pos (2 ^ log) (groupValue tg vals) := by
  refine (lies_value.mp hlies).congr fun k _ => ?_
  rw [Operand.value, add_zero]

end Ucc.Cc1.Data
