/-
  Cc1/AddrFoldTruth.lean --- truth values and equality of addresses.

  Source: const_op_num_int, const_shortcircuit and eval_shortcircuit in
  src/cc1/ops/expr_op.c.

  The operators that fold to zero or one on addresses, each with the exact
  condition for the folded truth value to be that of the expression.
-/
import Ucc.Cc1.AddrFold

set_option autoImplicit false

namespace Ucc.Cc1

namespace BinOp

variable {O : Objects} {b : BinOp O} {l r : Collapsed}

/-- The cases of `const_op_num_int`. -/
def foldLabels (e : OpExpr) (l r : Collapsed) : Option Consty :=
  match labels l r with
  | 0 => foldNumbers e l r
  | 1 => foldOneLabel e l r
  | _ => foldTwoLabels e l r

/-- `const_op_num_int`, on operands that have collapsed. -/
theorem constOpNumInt_eq (hl : collapseConst b.lhs.k = some l)
    (hr : collapseConst b.rhs.k = some r) (hsc : opIsShortcircuit b.op = false) :
    constOpNumInt b.expr =
      (applyStep b.op b.lhs.ty b.rhs.ty l r).bind fun p => foldLabels b.expr p.1 p.2 := by
  unfold constOpNumInt
  simp only [expr, hl, hr, hsc, Option.bind_eq_bind, Option.bind_some]
  rfl

theorem mem_syms_left (hl : collapseConst b.lhs.k = some l) {n : String} (h : l.lbl = some n) :
    n ∈ b.syms := by
  simp [syms, syms_of_collapse hl, h]

theorem mem_syms_right (hr : collapseConst b.rhs.k = some r) {n : String} (h : r.lbl = some n) :
    n ∈ b.syms := by
  simp [syms, syms_of_collapse hr, h]

/-! ## Short-circuit operators -/

theorem zero_of_false {c : Collapsed} (h : c.toTruth = .false) : c.lbl = none ∧ c.offset = 0 := by
  unfold Collapsed.toTruth at h
  split at h
  · cases h
  split at h
  · cases h
  · rename_i hnum
    simpa using hnum

theorem value_of_false {c : Collapsed} (h : c.toTruth = .false) (ρ : Env) : c.value ρ = 0 := by
  obtain ⟨hlbl, hoff⟩ := zero_of_false h
  rw [Collapsed.value, hlbl]
  exact hoff

theorem weak_of_unknown {c : Collapsed} (h : c.toTruth = .unknown) : c.isWeak = true := by
  unfold Collapsed.toTruth at h
  split at h
  · assumption
  split at h <;> cases h

theorem inside_of_number {c : Collapsed} (h : c.lbl = none) : c.Inside O := fun n hn => by
  rw [h] at hn
  cases hn

theorem inside_of_weak {c : Collapsed} (h : c.isWeak = true) : c.Inside O := fun n _ hw => by
  rw [h] at hw
  cases hw

/-- What a short-circuit operator is folded to, with what is known of its second
operand. -/
def shortcircuited (op : OpType) (l r : EvalTruth) : Option Consty :=
  some (evalTruthToConsty (evalShortcircuit op l r))

theorem and_sound_iff (hl : collapseConst b.lhs.k = some l) (hr : collapseConst b.rhs.k = some r)
    (heval : ∀ ρ, b.eval ρ = some (ofTruth (l.value ρ != 0 && r.value ρ != 0))) :
    b.SoundAs (shortcircuited .andsc l.toTruth r.toTruth) ↔ AndFoldsWell O l r := by
  unfold AndFoldsWell
  cases hlt : l.toTruth with
  | unknown => exact iff_of_true soundAs_no (by rintro ⟨⟩)
  | false =>
    refine iff_of_true ((soundAs_truth (t := false) heval).mpr ?_) (by rintro ⟨⟩)
    intro ρ _
    simp [value_of_false hlt]
  | true =>
    cases hrt : r.toTruth with
    | unknown => exact iff_of_true soundAs_no (by rintro _ ⟨⟩)
    | false =>
      refine iff_of_true ((soundAs_truth (t := false) heval).mpr ?_) (by rintro _ ⟨⟩)
      intro ρ _
      simp [value_of_false hrt]
    | true =>
      refine (soundAs_truth (t := true) heval).trans ?_
      constructor
      · intro hs _ _
        by_contra hout
        have hzero : ∃ ρ : Env, ρ.Admissible O b.syms ∧ (l.value ρ = 0 ∨ r.value ρ = 0) := by
          rcases not_and_or.mp hout with hin | hin
          · obtain ⟨ρ, hadm, hz, -⟩ := exists_zero hl hr (Or.inl rfl) hin id
            exact ⟨ρ, hadm, Or.inl hz⟩
          · obtain ⟨ρ, hadm, hz, -⟩ := exists_zero hl hr (Or.inr rfl) hin id
            exact ⟨ρ, hadm, Or.inr hz⟩
        obtain ⟨ρ, hadm, hz⟩ := hzero
        have htrue := hs ρ hadm
        rcases hz with hz | hz <;> simp [hz] at htrue
      · intro hin ρ hadm
        obtain ⟨hinl, hinr⟩ := hin rfl rfl
        have hvl := value_ne_zero (placed_left hadm hl) hlt hinl
        have hvr := value_ne_zero (placed_right hadm hr) hrt hinr
        exact Bool.and_eq_true_iff.mpr ⟨bne_iff_ne.mpr hvl, bne_iff_ne.mpr hvr⟩

/-- The objects of two labels can be put at two places that are apart. -/
theorem exists_env_pair (hl : collapseConst b.lhs.k = some l)
    (hr : collapseConst b.rhs.k = some r) {m n : String} {x y : Integral} (hm : l.lbl = some m)
    (hn : r.lbl = some n) (hne : m ≠ n) (hx : O.weak m = false → O.Placed m x)
    (hy : O.weak n = false → O.Placed n y)
    (hap : O.weak m = false → O.weak n = false → O.Apart m n x y) :
    ∃ ρ : Env, ρ.Admissible O b.syms ∧ l.value ρ = x + l.offset ∧ r.value ρ = y + r.offset := by
  refine ⟨Env.pair m x y id, ?_, ?_, ?_⟩
  · refine admissible_pair ?_ hx (fun h => absurd h.symm hne) hy (fun _ => hap)
    rw [syms_eq hl hr, hm, hn]
    simp
  · simp [Collapsed.value, hm, Env.pair]
  · simp [Collapsed.value, hn, Env.pair, hne.symm]

/-- Two objects with their addresses at zero. -/
theorem apart_neg_iff {m n : String} {o p : Integral} (hm : O.size m < o.toNat)
    (hn : O.size n < p.toNat) :
    O.Apart m n (-o) (-p) ↔
      p.toNat + O.size m ≤ o.toNat ∨ o.toNat + O.size n ≤ p.toNat := by
  have ho := o.isLt
  have hp := p.isLt
  unfold Objects.Apart
  rw [BitVec.toNat_neg, BitVec.toNat_neg, Nat.mod_eq_of_lt (by omega),
    Nat.mod_eq_of_lt (by omega)]
  omega

theorem size_lt_of_placed_neg {n : String} {o : Integral} (h : O.Placed n (-o)) :
    O.size n < o.toNat := by
  obtain ⟨hpos, hend⟩ := h
  rw [BitVec.toNat_neg] at hpos hend
  omega

/-- With the first operand at zero, behind its object, the second can be there
too, unless it is ruled out. -/
theorem exists_both_zero_iff (hl : collapseConst b.lhs.k = some l)
    (hr : collapseConst b.rhs.k = some r) {n : String} (hn : l.lbl = some n)
    (hw : l.isWeak = false) (hsize : O.size n < l.offset.toNat) :
    (∀ ρ : Env, ρ.Admissible O b.syms → l.value ρ = 0 → r.value ρ ≠ 0) ↔
      OtherNonzero O n l.offset r := by
  have hwn := (b.lhs_wf.weak l hl n hn).trans hw
  have hlv : ∀ ρ : Env, l.value ρ = ρ.addr n + l.offset := fun ρ => by rw [Collapsed.value, hn]
  have hzero : ∀ {ρ : Env}, l.value ρ = 0 → ρ.addr n = -l.offset := fun {ρ} h =>
    eq_neg_of_add_eq_zero_left ((hlv ρ).symm.trans h)
  unfold OtherNonzero
  cases hrl : r.lbl with
  | none =>
    have hrv : ∀ ρ : Env, r.value ρ = r.offset := fun ρ => by rw [Collapsed.value, hrl]
    constructor
    · intro h
      obtain ⟨ρ, hadm, haddr, -⟩ :=
        exists_env hl hr (Or.inl hn) id fun _ => placed_neg hsize
      rw [← hrv ρ]
      exact h ρ hadm (by rw [hlv, haddr]; exact neg_add_cancel _)
    · intro h ρ _ _
      rw [hrv]
      exact h
  | some m =>
    have hrv : ∀ ρ : Env, r.value ρ = ρ.addr m + r.offset := fun ρ => by
      rw [Collapsed.value, hrl]
    have hwm := b.rhs_wf.weak r hr m hrl
    rcases eq_or_ne m n with rfl | hne
    · simp only [if_true, hwm.symm.trans hwn, true_and]
      constructor
      · intro h heq
        obtain ⟨ρ, hadm, haddr, -⟩ :=
          exists_env hl hr (Or.inl hn) id fun _ => placed_neg hsize
        refine h ρ hadm ?_ ?_
        · rw [hlv, haddr]
          exact neg_add_cancel _
        · rw [hrv, haddr, heq]
          exact neg_add_cancel _
      · intro h ρ _ hz hrz
        rw [hrv, hzero hz] at hrz
        exact h (neg_add_eq_zero.mp hrz).symm
    · simp only [hne, if_false]
      constructor
      · intro h
        by_contra hno
        have hbehind : O.weak m = false → O.size m < r.offset.toNat := fun hm => by
          by_contra hle
          exact hno ⟨hwm.symm.trans hm, Or.inl (by omega)⟩
        obtain ⟨ρ, hadm, hlz, hrz⟩ := exists_env_pair hl hr hn hrl hne.symm
          (fun _ => placed_neg hsize) (fun hm => placed_neg (hbehind hm)) fun _ hm => by
            rw [apart_neg_iff hsize (hbehind hm)]
            by_contra hap
            exact hno ⟨hwm.symm.trans hm, Or.inr (by omega)⟩
        exact h ρ hadm (hlz.trans (neg_add_cancel _)) (hrz.trans (neg_add_cancel _))
      · rintro ⟨hweak, hcond⟩ ρ hadm hz hrz
        have hrm : ρ.addr m = -r.offset := eq_neg_of_add_eq_zero_left ((hrv ρ).symm.trans hrz)
        have hpm := placed_right hadm hr m hrl hweak
        have hap := hadm.2 n (mem_syms_left hl hn) m (mem_syms_right hr hrl) hwn
          (hwm.trans hweak) hne.symm
        rw [hrm] at hpm
        have hbehind := size_lt_of_placed_neg hpm
        rw [hzero hz, hrm, apart_neg_iff hsize hbehind] at hap
        omega

theorem or_sound_iff (hl : collapseConst b.lhs.k = some l) (hr : collapseConst b.rhs.k = some r)
    (heval : ∀ ρ, b.eval ρ = some (ofTruth (l.value ρ != 0 || r.value ρ != 0))) :
    b.SoundAs (shortcircuited .orsc l.toTruth r.toTruth) ↔ OrFoldsWell O l r := by
  cases hlt : l.toTruth with
  | unknown =>
    refine iff_of_true soundAs_no ⟨by rw [hlt]; rintro ⟨⟩, ?_⟩
    intro n _ hw
    rw [weak_of_unknown hlt] at hw
    cases hw
  | false =>
    have hwell : OrFoldsWell O l r ↔ r.Inside O := by
      refine ⟨fun h => h.1 hlt, fun h => ⟨fun _ => h, ?_⟩⟩
      intro n hn
      rw [(zero_of_false hlt).1] at hn
      cases hn
    rw [hwell]
    cases hrt : r.toTruth with
    | unknown => exact iff_of_true soundAs_no (inside_of_weak (weak_of_unknown hrt))
    | false =>
      refine iff_of_true ((soundAs_truth (t := false) heval).mpr ?_)
        (inside_of_number (zero_of_false hrt).1)
      intro ρ _
      simp [value_of_false hlt, value_of_false hrt]
    | true =>
      refine (soundAs_truth (t := true) heval).trans ⟨?_, ?_⟩
      · intro hs
        by_contra hin
        obtain ⟨ρ, hadm, hz, -⟩ := exists_zero hl hr (Or.inr rfl) hin id
        have htrue := hs ρ hadm
        simp [value_of_false hlt, hz] at htrue
      · intro hin ρ hadm
        have hvr := value_ne_zero (placed_right hadm hr) hrt hin
        exact Bool.or_eq_true_iff.mpr (Or.inr (bne_iff_ne.mpr hvr))
  | true =>
    refine (soundAs_truth (t := true) heval).trans ⟨?_, ?_⟩
    · intro hs
      refine ⟨by rw [hlt]; rintro ⟨⟩, fun n hn hw hsize => ?_⟩
      refine (exists_both_zero_iff hl hr hn hw hsize).mp fun ρ hadm hz => ?_
      have htrue := hs ρ hadm
      rw [hz] at htrue
      exact bne_iff_ne.mp htrue
    · intro hwell ρ hadm
      rcases em (l.Inside O) with hin | hout
      · have hvl := value_ne_zero (placed_left hadm hl) hlt hin
        exact Bool.or_eq_true_iff.mpr (Or.inl (bne_iff_ne.mpr hvl))
      · unfold Collapsed.Inside at hout
        push Not at hout
        obtain ⟨n, hn, hw, hsize⟩ := hout
        have hother := (exists_both_zero_iff hl hr hn hw hsize).mpr (hwell.2 n hn hw hsize)
        rcases eq_or_ne (l.value ρ) 0 with hz | hnz
        · exact Bool.or_eq_true_iff.mpr (Or.inr (bne_iff_ne.mpr (hother ρ hadm hz)))
        · exact Bool.or_eq_true_iff.mpr (Or.inl (bne_iff_ne.mpr hnz))

/-- A second operand in memory may be anything. -/
theorem exists_zero_in_memory {o : Operand} (hct : o.k.atCompileTime = false) {ρ : Env}
    (hbits : o.k.bits ≠ .no) (hload : ρ.load = fun _ => 0) : o.value ρ = 0 := by
  unfold Consty.atCompileTime at hct
  split at hct
  · exact absurd ‹_› hbits
  · rename_i hneed
    rw [Operand.value, hneed, hload]
    cases o.ty <;> rfl
  · cases hct

theorem unread_sound_iff (hl : collapseConst b.lhs.k = some l)
    (hr : collapseConst b.rhs.k = some r) (hlc : b.lhs.k.atCompileTime = true)
    (hrc : b.rhs.k.atCompileTime = false) (hsc : opIsShortcircuit b.op = true) :
    b.SoundAs (shortcircuited b.op l.toTruth .unknown) ↔ (b.op = .orsc → l.Inside O) := by
  have hlv : ∀ ρ : Env, b.lhs.value ρ = l.value ρ := Operand.value_of_atCompileTime hl hlc
  cases hop : b.op with
  | andsc =>
    refine iff_of_true ?_ (by rintro ⟨⟩)
    cases hlt : l.toTruth with
    | unknown => exact soundAs_no
    | true => exact soundAs_no
    | false =>
      have heval : ∀ ρ, b.eval ρ = some (ofTruth (l.value ρ != 0 && b.rhs.value ρ != 0)) :=
        fun ρ => by rw [eval, hop, hlv]; rfl
      refine (soundAs_truth (t := false) heval).mpr fun ρ _ => ?_
      simp [value_of_false hlt]
  | orsc =>
    simp only [true_imp_iff]
    cases hlt : l.toTruth with
    | unknown => exact iff_of_true soundAs_no (inside_of_weak (weak_of_unknown hlt))
    | false => exact iff_of_true soundAs_no (inside_of_number (zero_of_false hlt).1)
    | true =>
      have heval : ∀ ρ, b.eval ρ = some (ofTruth (l.value ρ != 0 || b.rhs.value ρ != 0)) :=
        fun ρ => by rw [eval, hop, hlv]; rfl
      refine (soundAs_truth (t := true) heval).trans ⟨?_, ?_⟩
      · intro hs
        by_contra hin
        obtain ⟨ρ, hadm, hz, hload⟩ := exists_zero hl hr (Or.inl rfl) hin fun _ => 0
        have htrue := hs ρ hadm
        rw [hz, exists_zero_in_memory hrc b.rhs_wf.const hload] at htrue
        cases htrue
      · intro hin ρ hadm
        have hvl := value_ne_zero (placed_left hadm hl) hlt hin
        exact Bool.or_eq_true_iff.mpr (Or.inl (bne_iff_ne.mpr hvl))
  | _ =>
    rw [hop] at hsc
    cases hsc

/-! ## Equality -/

theorem toTruth_of_strong {c : Collapsed} {n : String} (h : c.lbl = some n)
    (hw : c.isWeak = false) : c.toTruth = .true := by
  simp [Collapsed.toTruth, hw, h]

/-- An address is never null exactly when it is in its object, or just behind. -/
theorem nonzero_iff_inside (hl : collapseConst b.lhs.k = some l)
    (hr : collapseConst b.rhs.k = some r) {c : Collapsed} (hc : c = l ∨ c = r) {n : String}
    (h : c.lbl = some n) (hw : c.isWeak = false) :
    (∀ ρ : Env, ρ.Admissible O b.syms → c.value ρ ≠ 0) ↔ c.Inside O := by
  constructor
  · intro hne
    by_contra hin
    obtain ⟨ρ, hadm, hz, -⟩ := exists_zero hl hr hc hin id
    exact hne ρ hadm hz
  · intro hin ρ hadm
    refine value_ne_zero ?_ (toTruth_of_strong h hw) hin
    rcases hc with rfl | rfl
    · exact placed_left hadm hl
    · exact placed_right hadm hr

theorem placed_low (n : String) {a : Integral} (hpos : 0 < a.toNat) (hlt : a.toNat < 2 ^ 63) :
    O.Placed n a := by
  have hsize := O.size_lt n
  exact ⟨hpos, by omega⟩

theorem placed_one (n : String) : O.Placed n 1 := placed_low n (by decide) (by decide)

/-- Two addresses of distinct objects always differ exactly when their offsets
are as far apart as those of addresses in the objects. -/
theorem apart_ne_iff {m n : String} (hne : m ≠ n) (hl : collapseConst b.lhs.k = some l)
    (hr : collapseConst b.rhs.k = some r) (hm : l.lbl = some m) (hn : r.lbl = some n)
    (hwl : l.isWeak = false) (hwr : r.isWeak = false) :
    (∀ ρ : Env, ρ.Admissible O b.syms → l.value ρ ≠ r.value ρ) ↔
      ((l.offset - r.offset).toNat < O.size m ∨
        2 ^ 64 < (l.offset - r.offset).toNat + O.size n) := by
  have hsm := O.size_lt m
  have hsn := O.size_lt n
  have hpm := O.size_pos m
  have hpn := O.size_pos n
  have hlt := (l.offset - r.offset).isLt
  have hlv : ∀ ρ : Env, l.value ρ = ρ.addr m + l.offset := fun ρ => by rw [Collapsed.value, hm]
  have hrv : ∀ ρ : Env, r.value ρ = ρ.addr n + r.offset := fun ρ => by rw [Collapsed.value, hn]
  constructor
  · intro h
    by_contra hno
    push Not at hno
    -- the second object behind the first, or, for a distance near the top, before it
    rcases Nat.lt_or_ge (l.offset - r.offset).toNat (2 ^ 63) with hlow | hhigh
    · have hy : (1 + (l.offset - r.offset)).toNat = 1 + (l.offset - r.offset).toNat := by
        rw [BitVec.toNat_add]
        exact Nat.mod_eq_of_lt (by change 1 + _ < _; omega)
      obtain ⟨ρ, hadm, hx, hy⟩ := exists_env_pair (x := 1) (y := 1 + (l.offset - r.offset))
        hl hr hm hn hne (fun _ => placed_one m) (fun _ => ⟨by omega, by omega⟩)
        fun _ _ => Or.inl (by rw [hy]; change 1 + _ ≤ _; omega)
      refine h ρ hadm ?_
      rw [hx, hy]
      ring
    · have hx : (1 - (l.offset - r.offset)).toNat = 2 ^ 64 + 1 - (l.offset - r.offset).toNat := by
        rw [BitVec.toNat_sub]
        change (_ + 1) % _ = _
        omega
      obtain ⟨ρ, hadm, hx, hy⟩ := exists_env_pair (x := 1 - (l.offset - r.offset)) (y := 1)
        hl hr hm hn hne (fun _ => ⟨by omega, by omega⟩) (fun _ => placed_one n)
        fun _ _ => Or.inr (by rw [hx]; change 1 + _ ≤ _; omega)
      refine h ρ hadm ?_
      rw [hx, hy]
      ring
  · intro hcond ρ hadm heq
    obtain ⟨hposm, hendm⟩ := placed_left hadm hl m hm hwl
    obtain ⟨hposn, hendn⟩ := placed_right hadm hr n hn hwr
    have hap := hadm.2 m (mem_syms_left hl hm) n (mem_syms_right hr hn)
      ((b.lhs_wf.weak l hl m hm).trans hwl) ((b.rhs_wf.weak r hr n hn).trans hwr) hne
    have hdist : ρ.addr n = ρ.addr m + (l.offset - r.offset) := by
      rw [hlv, hrv] at heq
      linear_combination -heq
    generalize l.offset - r.offset = δ at *
    unfold Objects.Apart at hap
    rw [hdist, BitVec.toNat_add] at hap
    rw [hdist, BitVec.toNat_add] at hendn hposn
    omega

theorem same_label_eq_iff {m : String} (hl : collapseConst b.lhs.k = some l)
    (hr : collapseConst b.rhs.k = some r) (hm : l.lbl = some m) (hn : r.lbl = some m) :
    (∀ ρ : Env, ρ.Admissible O b.syms → l.value ρ = r.value ρ) ↔ l.offset = r.offset := by
  have hvalue : ∀ ρ : Env, l.value ρ = r.value ρ ↔ l.offset = r.offset := fun ρ => by
    rw [Collapsed.value, Collapsed.value, hm, hn]
    exact add_right_inj _
  constructor
  · intro h
    obtain ⟨ρ, hadm, -, -⟩ := exists_env hl hr (Or.inl hm) id fun _ => placed_one m
    exact (hvalue ρ).mp (h ρ hadm)
  · intro h ρ _
    exact (hvalue ρ).mpr h

/-- What an equality is folded to, when it is. -/
theorem equality_truth_iff (hop : b.op = .eq ∨ b.op = .ne)
    (hlv : ∀ ρ : Env, b.lhs.value ρ = l.value ρ) (hrv : ∀ ρ : Env, b.rhs.value ρ = r.value ρ)
    {same : Bool} :
    b.SoundAs (some (constNum (ofTruth ((b.op == .eq) == same)))) ↔
      ∀ ρ : Env, ρ.Admissible O b.syms → (l.value ρ == r.value ρ) = same := by
  have heval : ∀ ρ, b.eval ρ =
      some (ofTruth ((b.op == .eq) == (l.value ρ == r.value ρ))) := fun ρ => by
    rw [eval, hlv, hrv]
    rcases hop with hop | hop
    · rw [hop]
      cases heq : l.value ρ == r.value ρ <;> simp [evalBinary, heq]
    · rw [hop]
      cases heq : l.value ρ == r.value ρ <;> simp [evalBinary, bne, heq] <;> rfl
  refine (soundAs_truth heval).trans (forall₂_congr fun ρ _ => ?_)
  cases b.op == .eq <;> cases l.value ρ == r.value ρ <;> cases same <;> decide

/-- An address against a number. -/
theorem null_sound_iff (hop : b.op = .eq ∨ b.op = .ne) (hl : collapseConst b.lhs.k = some l)
    (hr : collapseConst b.rhs.k = some r) (hlv : ∀ ρ : Env, b.lhs.value ρ = l.value ρ)
    (hrv : ∀ ρ : Env, b.rhs.value ρ = r.value ρ) {c d : Collapsed}
    (hcd : c = l ∧ d = r ∨ c = r ∧ d = l) {m : String} (hm : c.lbl = some m) (hn : d.lbl = none) :
    b.SoundAs (if d.offset = 0 ∧ c.isWeak = false then
        some (constNum (ofTruth (b.op != .eq))) else some constFoldNo) ↔
      (d.offset = 0 → c.Inside O) := by
  split
  · rename_i hfold
    obtain ⟨hzero, hweak⟩ := hfold
    have hne : (b.op != .eq) = ((b.op == .eq) == false) := by
      cases hbeq : b.op == .eq <;> simp [bne, hbeq]
    have hdv : ∀ ρ : Env, d.value ρ = 0 := fun ρ => by
      rw [Collapsed.value, hn]
      exact hzero
    rw [hne, equality_truth_iff hop hlv hrv]
    have hc : c = l ∨ c = r := hcd.imp And.left And.left
    simp only [hzero, true_imp_iff, ← nonzero_iff_inside hl hr hc hm hweak]
    refine forall₂_congr fun ρ _ => ?_
    rw [beq_eq_false_iff_ne, ← hdv ρ]
    rcases hcd with ⟨rfl, rfl⟩ | ⟨rfl, rfl⟩
    · exact Iff.rfl
    · exact ne_comm
  · rename_i hfold
    refine iff_of_true soundAs_no fun hzero => inside_of_weak ?_
    simpa [hzero] using hfold

theorem equality_sound_iff (hop : b.op = .eq ∨ b.op = .ne)
    (hl : collapseConst b.lhs.k = some l) (hr : collapseConst b.rhs.k = some r)
    (hlv : ∀ ρ : Env, b.lhs.value ρ = l.value ρ) (hrv : ∀ ρ : Env, b.rhs.value ρ = r.value ρ)
    (hlabel : l.lbl ≠ none ∨ r.lbl ≠ none) :
    b.SoundAs (foldLabels b.expr l r) ↔ EqFoldsWell O l r := by
  cases hm : l.lbl with
  | none =>
    cases hn : r.lbl with
    | none => simp [hm, hn] at hlabel
    | some n =>
      have hfold : foldLabels b.expr l r = if l.offset = 0 ∧ r.isWeak = false then
          some (constNum (ofTruth (b.op != .eq))) else some constFoldNo := by
        rcases hop with hop | hop <;>
          simp [foldLabels, labels, foldOneLabel, hm, hn, expr, hop]
      have hwell : EqFoldsWell O l r ↔ (l.offset = 0 → r.Inside O) := by
        simp only [EqFoldsWell, hm, hn]
      rw [hfold, hwell]
      exact null_sound_iff hop hl hr hlv hrv (Or.inr ⟨rfl, rfl⟩) hn hm
  | some m =>
    cases hn : r.lbl with
    | none =>
      have hfold : foldLabels b.expr l r = if r.offset = 0 ∧ l.isWeak = false then
          some (constNum (ofTruth (b.op != .eq))) else some constFoldNo := by
        rcases hop with hop | hop <;>
          simp [foldLabels, labels, foldOneLabel, hm, hn, expr, hop]
      have hwell : EqFoldsWell O l r ↔ (r.offset = 0 → l.Inside O) := by
        simp only [EqFoldsWell, hm, hn]
      rw [hfold, hwell]
      exact null_sound_iff hop hl hr hlv hrv (Or.inl ⟨rfl, rfl⟩) hm hn
    | some n =>
      have hfold : foldLabels b.expr l r = if l.isWeak || r.isWeak then some constFoldNo
          else some (constNum (ofTruth ((b.op == .eq) == (some m == some n)))) := by
        rcases hop with hop | hop <;>
          simp [foldLabels, labels, foldTwoLabels, hm, hn, expr, hop]
      rw [hfold]
      split
      · rename_i hweak
        refine iff_of_true soundAs_no ?_
        simp only [EqFoldsWell, hm, hn]
        intro hwl hwr
        simp [hwl, hwr] at hweak
      · rename_i hweak
        obtain ⟨hwl, hwr⟩ : l.isWeak = false ∧ r.isWeak = false := by simpa using hweak
        simp only [EqFoldsWell, hm, hn, hwl, hwr, true_imp_iff]
        rw [equality_truth_iff hop hlv hrv]
        rcases eq_or_ne m n with rfl | hne
        · simp only [beq_self_eq_true, if_true, beq_iff_eq]
          exact same_label_eq_iff hl hr hm hn
        · simp only [hne, if_false]
          rw [← apart_ne_iff hne hl hr hm hn hwl hwr]
          refine forall₂_congr fun ρ _ => ?_
          have hbeq : (some m == some n) = false := by simpa using hne
          rw [hbeq, beq_eq_false_iff_ne]

end BinOp

end Ucc.Cc1
