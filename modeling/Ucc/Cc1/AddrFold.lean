/-
  Cc1/AddrFold.lean --- operators on addresses.

  Source: const_op_num_int and const_shortcircuit in src/cc1/ops/expr_op.c.

  The folder knows an address as a label and an offset, and takes every address
  of an object that is not weak for one that is not null, and unlike every
  address of another object.  That is true of addresses in an object and of the
  one just behind it, not of any offset.  `FoldsWell` is the exact condition
  under which a folded constant is the value of the expression, wherever the
  linker puts the objects.
-/
import Ucc.Cc1.NumberFold

set_option autoImplicit false

namespace Ucc.Cc1

/-! ## Collapsed constants -/

/-- The number or address of a collapsed constant. -/
def Collapsed.value (ρ : Env) (c : Collapsed) : Integral :=
  match c.lbl with
  | none => c.offset
  | some n => ρ.addr n + c.offset

theorem value_of_collapse {k : Consty} {c : Collapsed} (h : collapseConst k = some c)
    (ρ : Env) : k.value ρ = c.value ρ := by
  unfold collapseConst at h
  split at h <;> cases h <;> simp_all [Consty.value, Collapsed.value, Addr.value]

theorem syms_of_collapse {k : Consty} {c : Collapsed} (h : collapseConst k = some c) :
    k.syms = c.lbl.toList := by
  unfold collapseConst at h
  split at h <;> cases h <;> simp_all [Consty.syms]

theorem exists_collapse {k : Consty} (h : k.bits ≠ .no) : ∃ c, collapseConst k = some c := by
  unfold collapseConst
  split
  · exact absurd ‹_› h
  all_goals exact ⟨_, rfl⟩

/-- An operand that is constant at compile time is not read from memory. -/
theorem Operand.value_of_atCompileTime {o : Operand} {c : Collapsed}
    (hc : collapseConst o.k = some c) (h : o.k.atCompileTime = true) (ρ : Env) :
    o.value ρ = c.value ρ := by
  rw [← value_of_collapse hc ρ]
  unfold Operand.value
  split
  · rename_i hbits
    simp [Consty.atCompileTime, hbits] at h
  · rfl

/-! ## Placements -/

section Placements

variable {O : Objects} {m n : String} {a b o : Integral}

theorem placed_neg (h : O.size n < o.toNat) : O.Placed n (-o) := by
  have ho := o.isLt
  unfold Objects.Placed
  rw [BitVec.toNat_neg, Nat.mod_eq_of_lt (by omega)]
  omega

theorem Objects.Placed.add_ne_zero (h : O.Placed n a) (ho : o.toNat ≤ O.size n) : a + o ≠ 0 := by
  obtain ⟨hpos, hend⟩ := h
  intro hzero
  have hsum := congrArg BitVec.toNat hzero
  rw [BitVec.toNat_add, Nat.mod_eq_of_lt (by omega)] at hsum
  change a.toNat + o.toNat = 0 at hsum
  omega

theorem Objects.Apart.symm (h : O.Apart m n a b) : O.Apart n m b a := Or.symm h

/-- There is room for another object beside one that has its place. -/
theorem exists_beside (hm : O.weak m = false → O.Placed m a) :
    ∃ b, (n = m → b = a) ∧ (O.weak n = false → O.Placed n b) ∧
      (m ≠ n → O.weak m = false → O.weak n = false → O.Apart m n a b) := by
  have hsm := O.size_lt m
  have hsn := O.size_lt n
  rcases eq_or_ne n m with rfl | hne
  · exact ⟨a, fun _ => rfl, hm, fun h => absurd rfl h⟩
  rcases Nat.lt_or_ge a.toNat (2 ^ 33) with hlow | hhigh
  · refine ⟨BitVec.ofNat 64 (a.toNat + O.size m + 1), fun h => absurd h hne, fun _ => ?_,
      fun _ _ _ => Or.inl ?_⟩
    · unfold Objects.Placed
      rw [BitVec.toNat_ofNat, Nat.mod_eq_of_lt (by omega)]
      omega
    · rw [BitVec.toNat_ofNat, Nat.mod_eq_of_lt (by omega)]
      omega
  · refine ⟨1, fun h => absurd h hne, fun _ => ?_, fun _ _ _ => Or.inr ?_⟩
    · exact ⟨by decide, by change 1 + O.size n < 2 ^ 64; omega⟩
    · change 1 + O.size n ≤ a.toNat
      omega

/-- The addresses of two labels. -/
def Env.pair (m : String) (a b : Integral) (load : Integral → Integral) : Env :=
  ⟨fun x => if x = m then a else b, load⟩

theorem admissible_pair {load : Integral → Integral} {names : List String}
    (hnames : ∀ x ∈ names, x = m ∨ x = n) (hm : O.weak m = false → O.Placed m a)
    (heq : n = m → b = a) (hn : O.weak n = false → O.Placed n b)
    (hap : m ≠ n → O.weak m = false → O.weak n = false → O.Apart m n a b) :
    (Env.pair m a b load).Admissible O names := by
  have hother : n ≠ m → (Env.pair m a b load).addr n = b := fun h => if_neg h
  have hself : (Env.pair m a b load).addr m = a := if_pos rfl
  have hboth : (Env.pair m a b load).addr n = b := by
    rcases eq_or_ne n m with rfl | hne
    · rw [hself, heq rfl]
    · exact hother hne
  constructor
  · intro x hx hweak
    rcases hnames x hx with rfl | rfl
    · rw [hself]
      exact hm hweak
    · rw [hboth]
      exact hn hweak
  · intro x hx y hy hwx hwy hne
    rcases hnames x hx with rfl | rfl <;> rcases hnames y hy with rfl | rfl
    · exact absurd rfl hne
    · rw [hself, hboth]
      exact hap hne hwx hwy
    · rw [hself, hboth]
      exact (hap hne.symm hwy hwx).symm
    · exact absurd rfl hne

/-- An object can be put anywhere it has room, whatever the other label is. -/
theorem exists_env {names : List String} (load : Integral → Integral)
    (hnames : ∀ x ∈ names, x = m ∨ x = n) (hm : O.weak m = false → O.Placed m a) :
    ∃ ρ : Env, ρ.Admissible O names ∧ ρ.addr m = a ∧ ρ.load = load := by
  obtain ⟨b, heq, hn, hap⟩ := exists_beside (n := n) hm
  exact ⟨Env.pair m a b load, admissible_pair hnames hm heq hn hap, if_pos rfl, rfl⟩

end Placements

/-! ## When folding is sound -/

section Conditions

variable (O : Objects)

/-- An address is in its object or just behind it. -/
def Collapsed.Inside (c : Collapsed) : Prop :=
  ∀ n, c.lbl = some n → c.isWeak = false → c.offset.toNat ≤ O.size n

/-- With the first operand at address zero, the second cannot be there. -/
def OtherNonzero (n : String) (o : Integral) (r : Collapsed) : Prop :=
  match r.lbl with
  | none => r.offset ≠ 0
  | some m =>
      r.isWeak = false ∧
        if m = n then r.offset ≠ o
        else r.offset.toNat ≤ O.size m ∨
          (o.toNat < r.offset.toNat + O.size n ∧ r.offset.toNat < o.toNat + O.size m)

def AndFoldsWell (l r : Collapsed) : Prop :=
  l.toTruth = .true → r.toTruth = .true → l.Inside O ∧ r.Inside O

def OrFoldsWell (l r : Collapsed) : Prop :=
  (l.toTruth = .false → r.Inside O) ∧
    ∀ n, l.lbl = some n → l.isWeak = false → O.size n < l.offset.toNat →
      OtherNonzero O n l.offset r

def EqFoldsWell (l r : Collapsed) : Prop :=
  match l.lbl, r.lbl with
  | none, none => True
  | some _, none => r.offset = 0 → l.Inside O
  | none, some _ => l.offset = 0 → r.Inside O
  | some m, some n =>
      l.isWeak = false → r.isWeak = false →
        if m = n then l.offset = r.offset
        else (l.offset - r.offset).toNat < O.size m ∨
          2 ^ 64 < (l.offset - r.offset).toNat + O.size n

/-- The difference of two offsets is divided as an unsigned number. -/
def SameDiffFoldsWell (s : Nat) (o p : Integral) : Prop :=
  (s : Int) ∣ (o - p).toInt → s = 1 ∨ 0 ≤ (o - p).toInt

def MinusFoldsWell (lt rt : CTy) (l r : Collapsed) : Prop :=
  match l.lbl, r.lbl with
  | none, none => NumFoldsWell .minus lt rt l.offset r.offset
  -- the number is scaled, and not the difference
  | some _, none => ∀ s, lt.isPtr = some s → rt.isPtr ≠ none → s = 1
  -- the operands are swapped
  | none, some _ => lt.isPtr ≠ none
  | some m, some n =>
      m = n → l.isWeak = false → ∀ s, lt.isPtr = some s →
        -- an address that has become an integer is to be scaled, and is not
        if rt.isPtr = none then s = 1 else SameDiffFoldsWell s l.offset r.offset

/-- When an operator on two operands that are constant at compile time is folded
to its value. -/
def ConstsFoldWell (op : OpType) (lt rt : CTy) (l r : Collapsed) : Prop :=
  match op with
  | .andsc => AndFoldsWell O l r
  | .orsc => OrFoldsWell O l r
  | .eq | .ne => EqFoldsWell O l r
  | .minus => MinusFoldsWell lt rt l r
  | op => l.lbl = none → r.lbl = none → NumFoldsWell op lt rt l.offset r.offset

end Conditions

/-- When an expression is folded to its value. -/
def BinOp.FoldsWell {O : Objects} (b : BinOp O) : Prop :=
  ∀ l r, collapseConst b.lhs.k = some l → collapseConst b.rhs.k = some r →
    b.lhs.k.atCompileTime = true →
      if b.rhs.k.atCompileTime then ConstsFoldWell O b.op b.lhs.ty b.rhs.ty l r
      else b.op = .orsc → l.Inside O

/-! ## Soundness of one result -/

namespace BinOp

variable {O : Objects} {b : BinOp O}

/-- A result of the folder is the value at run time. -/
def SoundAs (b : BinOp O) (k : Option Consty) : Prop :=
  ∀ k', k = some k' → k'.bits ≠ .no →
    ∀ ρ : Env, ρ.Admissible O b.syms → ∀ v, b.eval ρ = some v → k'.value ρ = v

theorem soundAs_none : b.SoundAs none := by
  rintro k ⟨⟩

theorem soundAs_no : b.SoundAs (some constFoldNo) := by
  rintro k ⟨⟩ h
  exact absurd rfl h

theorem soundAs_some {k : Consty} (h : k.bits ≠ .no) :
    b.SoundAs (some k) ↔
      ∀ ρ : Env, ρ.Admissible O b.syms → ∀ v, b.eval ρ = some v → k.value ρ = v := by
  constructor
  · intro hs
    exact hs k rfl h
  · rintro hs k' ⟨⟩ -
    exact hs

theorem value_num (ρ : Env) (x : Integral) (suffix : Suffix) (ns : Bool) :
    Consty.value ρ ⟨.num x suffix, 0, ns⟩ = x :=
  BitVec.add_zero x

/-- A result that is a truth value. -/
theorem soundAs_truth {t : Bool} {p : Env → Bool} (hp : ∀ ρ, b.eval ρ = some (ofTruth (p ρ))) :
    b.SoundAs (some (constNum (ofTruth t))) ↔
      ∀ ρ : Env, ρ.Admissible O b.syms → p ρ = t := by
  rw [soundAs_some (by rintro ⟨⟩)]
  constructor
  · intro hs ρ hadm
    have heq := hs ρ hadm _ (hp ρ)
    rw [constNum, value_num] at heq
    exact (ofTruth_inj.mp heq).symm
  · intro hs ρ hadm v hv
    rw [hp ρ, hs ρ hadm] at hv
    rw [constNum, value_num]
    exact Option.some.inj hv

/-- Whether the constant is a standard one does not count. -/
theorem soundAs_map {k : Option Consty} {f : Consty → Bool} :
    b.SoundAs (k.map fun k => { k with nonstandardConst := f k }) ↔ b.SoundAs k := by
  cases k with
  | none => exact Iff.rfl
  | some k =>
    constructor
    · rintro hs k' ⟨⟩ hbits
      exact hs { k with nonstandardConst := f k } rfl hbits
    · rintro hs k' ⟨⟩ hbits
      exact hs k rfl hbits

end BinOp

/-! ## Operands -/

namespace Operand.Wf

variable {O : Objects} {o : Operand} {c : Collapsed}

/-- An operand without a label is a number of its type. -/
theorem fits (h : o.Wf O) (hc : collapseConst o.k = some c) (hct : o.k.atCompileTime = true)
    (hlbl : c.lbl = none) : o.ty.Fits (o.ty.read c.offset) := by
  have hfits := h.range hct (by simp [syms_of_collapse hc, hlbl]) ⟨fun _ => 0, id⟩
  rwa [value_of_collapse hc, Collapsed.value, hlbl] at hfits

/-- An operand with a label has a type of the size of an address. -/
theorem ne_uint (h : o.Wf O) (hc : collapseConst o.k = some c) (hct : o.k.atCompileTime = true)
    {n : String} (hlbl : c.lbl = some n) : o.ty ≠ .uint := by
  intro hty
  have hsize := h.wide hct (by simp [syms_of_collapse hc, hlbl])
  rw [hty] at hsize
  exact absurd hsize (by decide)

theorem placed (h : o.Wf O) {names : List String} {ρ : Env} (hadm : ρ.Admissible O names)
    (hsub : ∀ x, x ∈ o.k.syms → x ∈ names) (hc : collapseConst o.k = some c) (n : String)
    (hlbl : c.lbl = some n) (hw : c.isWeak = false) : O.Placed n (ρ.addr n) := by
  refine hadm.1 n (hsub n ?_) ((h.weak c hc n hlbl).trans hw)
  simp [syms_of_collapse hc, hlbl]

end Operand.Wf

namespace BinOp

variable {O : Objects} {b : BinOp O} {l r : Collapsed}

theorem syms_eq (hl : collapseConst b.lhs.k = some l) (hr : collapseConst b.rhs.k = some r) :
    b.syms = l.lbl.toList ++ r.lbl.toList := by
  rw [syms, syms_of_collapse hl, syms_of_collapse hr]

/-- There is at most one label beside that of an operand. -/
theorem exists_other (hl : collapseConst b.lhs.k = some l) (hr : collapseConst b.rhs.k = some r)
    {m : String} (h : l.lbl = some m ∨ r.lbl = some m) :
    ∃ n, ∀ x ∈ b.syms, x = m ∨ x = n := by
  rw [syms_eq hl hr]
  rcases h with h | h
  · refine ⟨r.lbl.getD m, ?_⟩
    cases hlbl : r.lbl <;> simp [h]
  · refine ⟨l.lbl.getD m, ?_⟩
    cases hlbl : l.lbl <;> simp [h, or_comm]

/-- An object of an operand can be put anywhere it has room. -/
theorem exists_env (hl : collapseConst b.lhs.k = some l) (hr : collapseConst b.rhs.k = some r)
    {m : String} {a : Integral} (h : l.lbl = some m ∨ r.lbl = some m)
    (load : Integral → Integral) (hm : O.weak m = false → O.Placed m a) :
    ∃ ρ : Env, ρ.Admissible O b.syms ∧ ρ.addr m = a ∧ ρ.load = load := by
  obtain ⟨n, hn⟩ := exists_other hl hr h
  exact Ucc.Cc1.exists_env load hn hm

/-- What is true is not zero at run time, in the object. -/
theorem value_ne_zero {c : Collapsed} {ρ : Env}
    (hplaced : ∀ n, c.lbl = some n → c.isWeak = false → O.Placed n (ρ.addr n))
    (ht : c.toTruth = .true) (hin : c.Inside O) : c.value ρ ≠ 0 := by
  unfold Collapsed.toTruth at ht
  split at ht
  · cases ht
  rename_i hweak
  have hweak : c.isWeak = false := by simpa using hweak
  split at ht
  · rename_i hnum
    cases hlbl : c.lbl with
    | none =>
      rw [Collapsed.value, hlbl]
      simpa [hlbl] using hnum
    | some n =>
      rw [Collapsed.value, hlbl]
      exact (hplaced n hlbl hweak).add_ne_zero (hin n hlbl hweak)
  · cases ht

theorem placed_left {ρ : Env} (hadm : ρ.Admissible O b.syms)
    (hl : collapseConst b.lhs.k = some l) (n : String) (h : l.lbl = some n)
    (hw : l.isWeak = false) : O.Placed n (ρ.addr n) :=
  b.lhs_wf.placed hadm (fun _ => List.mem_append_left _) hl n h hw

theorem placed_right {ρ : Env} (hadm : ρ.Admissible O b.syms)
    (hr : collapseConst b.rhs.k = some r) (n : String) (h : r.lbl = some n)
    (hw : r.isWeak = false) : O.Placed n (ρ.addr n) :=
  b.rhs_wf.placed hadm (fun _ => List.mem_append_right _) hr n h hw

/-- Behind its object an address may be zero. -/
theorem exists_zero (hl : collapseConst b.lhs.k = some l) (hr : collapseConst b.rhs.k = some r)
    {c : Collapsed} (hc : c = l ∨ c = r) (hin : ¬ c.Inside O) (load : Integral → Integral) :
    ∃ ρ : Env, ρ.Admissible O b.syms ∧ c.value ρ = 0 ∧ ρ.load = load := by
  unfold Collapsed.Inside at hin
  push Not at hin
  obtain ⟨n, hlbl, -, hsize⟩ := hin
  have hmem : l.lbl = some n ∨ r.lbl = some n := by
    rcases hc with rfl | rfl
    · exact Or.inl hlbl
    · exact Or.inr hlbl
  obtain ⟨ρ, hadm, haddr, hload⟩ := exists_env hl hr hmem load fun _ => placed_neg hsize
  refine ⟨ρ, hadm, ?_, hload⟩
  rw [Collapsed.value, hlbl]
  change ρ.addr n + c.offset = 0
  rw [haddr]
  exact neg_add_cancel c.offset

end BinOp

end Ucc.Cc1
