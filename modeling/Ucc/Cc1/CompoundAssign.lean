/-
  Cc1/CompoundAssign.lean --- compound assignment, and the types it works in.

  Source: src/cc1/ops/expr_assign_compound.c, with op_required_promotion of
  src/cc1/ops/expr_op.c; impl_op, maybe_promote, x86_idiv and x86_shift of
  src/cc1/out/x86_64.c for what an instruction makes of operands of given types.

  Operands of integer type that are computed at run time.  `-ftrapv` and the
  sanitizers are off.  The right operand is promoted before the types are chosen
  and the left one is not, so that a `short` outranks an `int`.
-/
import Ucc.Cc1.Promotion

set_option autoImplicit false

namespace Ucc.Cc1

open Ucc.Lib

/-! ## `fold_expr_assign_compound` -/

/-- `upcast_ty`, and the type of the right operand after its casts. -/
structure CompoundTypes where
  upcast : Option IntPrim
  rhs : IntPrim
  deriving DecidableEq, Repr

/-- `fold_expr_assign_compound` -/
def foldExprAssignCompound (tg : Target) (op : OpType) (l r : IntPrim) : CompoundTypes :=
  let r := r.promoteIfSmaller tg
  let p := opRequiredPromotion tg op l r
  match p.lhs, p.rhs with
  | some t, _ => ⟨some t, r⟩
  | none, some t => ⟨none, t⟩
  | none, none => ⟨none, r⟩

/-! ## Instructions -/

/-- A value in a register, with its type. -/
structure TVal where
  ty : IntPrim
  val : Int
  deriving DecidableEq, Repr

/-- The operations of the arithmetic unit, on numbers. -/
def alu (op : OpType) (a b : Int) : Int :=
  match op with
  | .multiply => a * b
  | .plus => a + b
  | .minus => a - b
  | .xor => bitwise 64 (· ^^^ ·) a b
  | .or => bitwise 64 (· ||| ·) a b
  | .and => bitwise 64 (· &&& ·) a b
  | _ => 0

/-- `maybe_promote` -/
def maybePromote (tg : Target) (l r : TVal) : TVal × TVal :=
  if l.ty.size tg = r.ty.size tg then (l, r)
  else if l.ty.size tg < r.ty.size tg then (⟨r.ty, r.ty.wrap tg l.val⟩, r)
  else (l, ⟨l.ty, l.ty.wrap tg r.val⟩)

/-- `x86_shift`: the count is in `%cl`, and masked by the processor. -/
def x86Shift (tg : Target) (op : OpType) (l r : TVal) : TVal :=
  let count := (r.val % 256 % (if l.ty.size tg = 8 then 64 else 32)).toNat
  ⟨l.ty, l.ty.wrap tg (if op = .shiftl then l.val * 2 ^ count else l.val / 2 ^ count)⟩

/-- `x86_idiv`: the signedness and the size are those of the right operand.
`none` where an assertion stops the compiler, where the left operand does not fill
the register that is divided, and where the processor traps. -/
def x86Idiv (tg : Target) (op : OpType) (l r : TVal) : Option TVal :=
  -- "idiv with short/char?"
  if r.ty.isSigned tg ∧ r.ty.size tg < 4 then none
  else if l.ty.size tg ≠ r.ty.size tg then none
  else
    let a := r.ty.wrap tg l.val
    if r.val = 0 ∨ ¬ InRange (r.ty.isSigned tg) (r.ty.bits tg) (a.tdiv r.val) then none
    else some ⟨l.ty, l.ty.wrap tg (if op = .modulus then a.tmod r.val else a.tdiv r.val)⟩

/-- `impl_op`, for the operators of a compound assignment. -/
def implOp (tg : Target) (op : OpType) (l r : TVal) : Option TVal :=
  match op with
  | .multiply | .plus | .minus | .xor | .or | .and =>
      let (l, r) := maybePromote tg l r
      some ⟨l.ty, l.ty.wrap tg (alu op l.val r.val)⟩
  | .shiftl | .shiftr => some (x86Shift tg op l r)
  | .divide | .modulus => x86Idiv tg op l r
  | _ => none

/-- `gen_expr_assign_compound`: the value that is stored. -/
def genExprAssignCompound (tg : Target) (op : OpType) (l r : IntPrim) (a b : Int) :
    Option Int :=
  let ts := foldExprAssignCompound tg op l r
  let rhs : TVal := ⟨ts.rhs, ts.rhs.conv tg ((r.promoteIfSmaller tg).conv tg b)⟩
  match ts.upcast with
  | some t => (implOp tg op ⟨t, t.conv tg a⟩ rhs).map fun v => l.conv tg v.val
  | none => (implOp tg op ⟨l, a⟩ rhs).map fun v => v.val

/-! ## The C meaning -/

/-- An operator on two values of a type; `none` where C gives no result. -/
def cBinary (tg : Target) (t : IntPrim) (op : OpType) (a b : Int) : Option Int :=
  match op with
  | .multiply | .plus | .minus =>
      if t.isSigned tg ∧ ¬ t.Fits tg (alu op a b) then none else some (t.wrap tg (alu op a b))
  | .xor | .or | .and => some (t.wrap tg (alu op a b))
  | .divide => if b = 0 ∨ ¬ t.Fits tg (a.tdiv b) then none else some (a.tdiv b)
  | .modulus => if b = 0 ∨ ¬ t.Fits tg (a.tdiv b) then none else some (a.tmod b)
  | _ => none

/-- A shift of a value of a promoted type. -/
def cShift (tg : Target) (t : IntPrim) (op : OpType) (a n : Int) : Option Int :=
  if n < 0 ∨ t.bits tg ≤ n then none
  else if op = .shiftl then
    if t.isSigned tg ∧ (a < 0 ∨ ¬ t.Fits tg (a * 2 ^ n.toNat)) then none
    else some (t.wrap tg (a * 2 ^ n.toNat))
  else some (a / 2 ^ n.toNat)

/-- The value of `E1 op= E2`: the operation in the common type, or in the promoted
type of the left operand for a shift, converted to the type of the left operand. -/
def cCompound (tg : Target) (op : OpType) (l r : IntPrim) (a b : Int) : Option Int :=
  match op with
  | .shiftl | .shiftr => (cShift tg l.cPromote op (l.cPromote.conv tg a) b).map (l.conv tg)
  | _ =>
      let t := usualArith tg l r
      (cBinary tg t op (t.conv tg a) (t.conv tg b)).map (l.conv tg)

/-- Wherever C gives a result, it is the one that is stored. -/
def CompoundSound (tg : Target) (op : OpType) (l r : IntPrim) : Prop :=
  ∀ a b, l.Fits tg a → r.Fits tg b →
    ∀ v, cCompound tg op l r a b = some v → genExprAssignCompound tg op l r a b = some v

/-- A `short` or `unsigned short` is divided in its own type. -/
def DividesNarrow (tg : Target) (l r : IntPrim) : Prop :=
  (r.cPromote = .int ∨ r.cPromote = .uint) ∧
    (l = .short ∨ l = .ushort ∧ (r.isSigned tg ∨ r = .uint))

/-- The common type is the unsigned type of the right operand's, and the right
operand is left signed. -/
def DividesSigned (tg : Target) (l r : IntPrim) : Prop :=
  l.size tg = r.size tg ∧ l.cRank < r.cRank ∧ IntPrim.int.cRank ≤ l.cRank ∧
    l.isSigned tg = false ∧ r.isSigned tg

/-- The types in which a division goes wrong. -/
def DividesWrong (tg : Target) (op : OpType) (l r : IntPrim) : Prop :=
  (op = .divide ∨ op = .modulus) ∧ (DividesNarrow tg l r ∨ DividesSigned tg l r)

instance (tg : Target) (l r : IntPrim) : Decidable (DividesNarrow tg l r) :=
  inferInstanceAs (Decidable ((r.cPromote = .int ∨ r.cPromote = .uint) ∧
    (l = .short ∨ l = .ushort ∧ (r.isSigned tg ∨ r = .uint))))

instance (tg : Target) (l r : IntPrim) : Decidable (DividesSigned tg l r) :=
  inferInstanceAs (Decidable (l.size tg = r.size tg ∧ l.cRank < r.cRank ∧
    IntPrim.int.cRank ≤ l.cRank ∧ l.isSigned tg = false ∧ r.isSigned tg))

/-! ## What the chosen types are -/

/-- The operators that `impl_op` leaves to the arithmetic unit. -/
def opIsAlu : OpType → Bool
  | .multiply | .plus | .minus | .xor | .or | .and => true
  | _ => false

/-- The type of the left operand in the operation. -/
def CompoundTypes.lhs (ts : CompoundTypes) (l : IntPrim) : IntPrim := ts.upcast.getD l

/-- For an operator that is not a shift, the types only depend on the operands'. -/
theorem foldExprAssignCompound_of_not_shift (tg : Target) {op : OpType} (l r : IntPrim)
    (h : opIsAlu op ∨ op = .divide ∨ op = .modulus) :
    foldExprAssignCompound tg op l r = foldExprAssignCompound tg .plus l r := by
  cases op <;> first | rfl | simp [opIsAlu] at h

/-- No operand is cut below the width of the left one. -/
theorem compound_bits_le (tg : Target) (l r : IntPrim) (hl : l ≠ .bool) :
    let ts := foldExprAssignCompound tg .plus l r
    (ts.lhs l ≠ .bool ∧ l.bits tg ≤ (ts.lhs l).bits tg) ∧
      (ts.rhs ≠ .bool ∧ l.bits tg ≤ ts.rhs.bits tg) ∧
      (usualArith tg l r ≠ .bool ∧ l.bits tg ≤ (usualArith tg l r).bits tg) ∧
      (ts.upcast = none → ts.rhs.size tg = l.size tg) := by
  revert tg l r
  decide

/-- A `_Bool` works in the common type. -/
theorem compound_bool (tg : Target) (r : IntPrim) :
    foldExprAssignCompound tg .plus .bool r =
      ⟨some (usualArith tg .bool r), usualArith tg .bool r⟩ ∧ usualArith tg .bool r ≠ .bool := by
  revert tg r
  decide

theorem genExprAssignCompound_upcast {tg : Target} {op : OpType} {l r t q : IntPrim}
    (hts : foldExprAssignCompound tg op l r = ⟨some t, q⟩) (a : Int) {b : Int}
    (hb : r.Fits tg b) :
    genExprAssignCompound tg op l r a b =
      (implOp tg op ⟨t, t.conv tg a⟩ ⟨q, q.conv tg b⟩).map fun v => l.conv tg v.val := by
  unfold genExprAssignCompound
  rw [hts, IntPrim.conv_of_fits (IntPrim.fits_promoteIfSmaller hb)]

theorem genExprAssignCompound_plain {tg : Target} {op : OpType} {l r q : IntPrim}
    (hts : foldExprAssignCompound tg op l r = ⟨none, q⟩) (a : Int) {b : Int}
    (hb : r.Fits tg b) :
    genExprAssignCompound tg op l r a b =
      (implOp tg op ⟨l, a⟩ ⟨q, q.conv tg b⟩).map fun v => v.val := by
  unfold genExprAssignCompound
  rw [hts, IntPrim.conv_of_fits (IntPrim.fits_promoteIfSmaller hb)]

/-! ## The arithmetic unit -/

/-- The low bits of a result come from the low bits of the operands. -/
theorem alu_modEq {op : OpType} {w : Nat} (hw : w ≤ 64) {a b a' b' : Int}
    (ha : a ≡ a' [ZMOD 2 ^ w]) (hb : b ≡ b' [ZMOD 2 ^ w]) :
    alu op a b ≡ alu op a' b' [ZMOD 2 ^ w] := by
  unfold alu
  split
  · exact ha.mul hb
  · exact ha.add hb
  · exact ha.sub hb
  · exact bitwise_modEq hw (g := (· ^^^ ·)) (fun _ _ => BitVec.setWidth_xor) ha hb
  · exact bitwise_modEq hw (g := (· ||| ·)) (fun _ _ => BitVec.setWidth_or) ha hb
  · exact bitwise_modEq hw (g := (· &&& ·)) (fun _ _ => BitVec.setWidth_and) ha hb
  · exact Int.ModEq.refl 0

theorem implOp_alu_eq {tg : Target} {op : OpType} (h : opIsAlu op) (l r : TVal) :
    implOp tg op l r =
      some ⟨(maybePromote tg l r).1.ty, (maybePromote tg l r).1.ty.wrap tg
        (alu op (maybePromote tg l r).1.val (maybePromote tg l r).2.val)⟩ := by
  cases op <;> first | rfl | cases h

/-- The operands are promoted to no less than their own width. -/
theorem maybePromote_modEq (tg : Target) (l r : TVal) {w : Nat} (hl : w ≤ l.ty.bits tg)
    (hr : w ≤ r.ty.bits tg) :
    w ≤ (maybePromote tg l r).1.ty.bits tg ∧
      (maybePromote tg l r).1.val ≡ l.val [ZMOD 2 ^ w] ∧
      (maybePromote tg l r).2.val ≡ r.val [ZMOD 2 ^ w] := by
  unfold maybePromote
  split
  · exact ⟨hl, rfl, rfl⟩
  · split
    · exact ⟨hr, (wrap_modEq _ _ _).of_dvd (pow_dvd_pow 2 hr), rfl⟩
    · exact ⟨hl, rfl, (wrap_modEq _ _ _).of_dvd (pow_dvd_pow 2 hl)⟩

theorem implOp_alu {tg : Target} {op : OpType} (h : opIsAlu op) (l r : TVal) {w : Nat}
    (hl : w ≤ l.ty.bits tg) (hr : w ≤ r.ty.bits tg) :
    ∃ v, implOp tg op l r = some v ∧ v.val ≡ alu op l.val r.val [ZMOD 2 ^ w] := by
  obtain ⟨hw, hlv, hrv⟩ := maybePromote_modEq tg l r hl hr
  refine ⟨_, implOp_alu_eq h l r, ?_⟩
  refine ((wrap_modEq _ _ _).of_dvd (pow_dvd_pow 2 hw)).trans ?_
  exact alu_modEq (hl.trans (l.ty.bits_le tg)) hlv hrv

/-- Where the sizes agree, nothing is promoted. -/
theorem implOp_alu_of_size_eq {tg : Target} {op : OpType} (h : opIsAlu op) (l r : TVal)
    (hsize : l.ty.size tg = r.ty.size tg) :
    implOp tg op l r = some ⟨l.ty, l.ty.wrap tg (alu op l.val r.val)⟩ := by
  rw [implOp_alu_eq h, maybePromote, if_pos hsize]

/-- What is stored, but for a `_Bool`. -/
theorem genExprAssignCompound_alu {tg : Target} {op : OpType} (h : opIsAlu op) {l : IntPrim}
    (r : IntPrim) (hl : l ≠ .bool) (a : Int) {b : Int} (hb : r.Fits tg b) :
    genExprAssignCompound tg op l r a b = some (l.conv tg (alu op a b)) := by
  obtain ⟨⟨hlhs, hlbits⟩, ⟨hrhs, hrbits⟩, -, hsize⟩ := compound_bits_le tg l r hl
  have hts := foldExprAssignCompound_of_not_shift tg l r (.inl h)
  have hbmod := IntPrim.conv_modEq hrhs hrbits b
  have hwidth := l.bits_le tg
  generalize hty : foldExprAssignCompound tg .plus l r = ts at *
  obtain ⟨upcast, q⟩ := ts
  cases upcast with
  | some t =>
    have hamod : t.conv tg a ≡ a [ZMOD 2 ^ l.bits tg] := IntPrim.conv_modEq hlhs hlbits a
    obtain ⟨v, hv, hmod⟩ := implOp_alu h ⟨t, t.conv tg a⟩ ⟨q, q.conv tg b⟩ hlbits hrbits
    rw [genExprAssignCompound_upcast hts a hb, hv]
    exact congrArg some (IntPrim.conv_congr hl (hmod.trans (alu_modEq hwidth hamod hbmod)))
  | none =>
    have hv := implOp_alu_of_size_eq h ⟨l, a⟩ ⟨q, q.conv tg b⟩ (hsize rfl).symm
    rw [genExprAssignCompound_plain hts a hb, hv, Option.map_some, ← l.conv_of_ne hl]
    exact congrArg some (IntPrim.conv_congr hl (alu_modEq hwidth rfl hbmod))

theorem cBinary_alu {tg : Target} {t : IntPrim} {op : OpType} (h : opIsAlu op) {x y v : Int}
    (hv : cBinary tg t op x y = some v) : v = t.wrap tg (alu op x y) := by
  have harith : ∀ {z w : Int} {c : Prop} [Decidable c],
      (if c then none else some z) = some w → w = z := by
    intro z w c _ hw
    split at hw
    · cases hw
    · exact (Option.some.inj hw).symm
  cases op <;> cases h
  case multiply => exact harith hv
  case plus => exact harith hv
  case minus => exact harith hv
  case xor => exact (Option.some.inj hv).symm
  case or => exact (Option.some.inj hv).symm
  case and => exact (Option.some.inj hv).symm

/-- Addition, subtraction, multiplication and the bitwise operators are right in
all types: what they do to the low bits does not depend on the type. -/
theorem compoundSound_alu {tg : Target} {op : OpType} (h : opIsAlu op) (l r : IntPrim) :
    CompoundSound tg op l r := by
  intro a b ha hb v hv
  have hcompound : (cBinary tg (usualArith tg l r) op ((usualArith tg l r).conv tg a)
      ((usualArith tg l r).conv tg b)).map (l.conv tg) = some v := by
    cases op <;> first | exact hv | cases h
  obtain ⟨w, hw, rfl⟩ := Option.map_eq_some_iff.mp hcompound
  rw [cBinary_alu h hw]
  by_cases hl : l = .bool
  · subst hl
    have hts := foldExprAssignCompound_of_not_shift tg .bool r (.inl h)
    rw [(compound_bool tg r).1] at hts
    rw [genExprAssignCompound_upcast hts a hb, implOp_alu_of_size_eq h]
    · rfl
    · rfl
  · obtain ⟨-, -, ⟨ht, hbits⟩, -⟩ := compound_bits_le tg l r hl
    rw [genExprAssignCompound_alu h r hl a hb, IntPrim.conv_wrap hl hbits]
    refine congrArg some (IntPrim.conv_congr hl ?_)
    exact alu_modEq (l.bits_le tg) (IntPrim.conv_modEq ht hbits a).symm
      (IntPrim.conv_modEq ht hbits b).symm

/-! ## Shifts -/

/-- The types of a shift: a left operand that ranks below `int` is promoted. -/
theorem compound_shift (tg : Target) {op : OpType} (h : op = .shiftl ∨ op = .shiftr)
    (l r : IntPrim) :
    foldExprAssignCompound tg op l r =
      ⟨if l.intrank < IntPrim.intrank .int then some l.cPromote else none,
        r.promoteIfSmaller tg⟩ := by
  rcases h with rfl | rfl
  · revert tg l r
    decide
  · revert tg l r
    decide

/-- The processor masks the count to the width of the promoted type. -/
theorem shift_count (tg : Target) (l : IntPrim) :
    (if l.cPromote.size tg = 8 then 64 else 32) = l.cPromote.bits tg ∧
      (¬ l.intrank < IntPrim.intrank .int →
        l ≠ .bool ∧ l.bits tg ≤ l.cPromote.bits tg ∧
          (if l.size tg = 8 then 64 else 32) = l.cPromote.bits tg) := by
  revert tg l
  decide

/-- The number that a shift gives. -/
def shifted (op : OpType) (a b : Int) : Int :=
  if op = .shiftl then a * 2 ^ b.toNat else a / 2 ^ b.toNat

theorem x86Shift_eq {tg : Target} {t : IntPrim} {op : OpType} {a : Int} {r : TVal}
    (hlo : 0 ≤ r.val) (hhi : r.val < (if t.size tg = 8 then 64 else 32)) :
    x86Shift tg op ⟨t, a⟩ r = ⟨t, t.wrap tg (shifted op a r.val)⟩ := by
  have hlt : r.val < 256 := by
    split at hhi <;> omega
  simp only [x86Shift, shifted]
  rw [Int.emod_eq_of_lt hlo hlt, Int.emod_eq_of_lt hlo hhi]

theorem cShift_eq {tg : Target} {t : IntPrim} (ht : t ≠ .bool) {op : OpType} {a n w : Int}
    (ha : t.Fits tg a) (h : cShift tg t op a n = some w) :
    (0 ≤ n ∧ n < t.bits tg) ∧ w = t.wrap tg (shifted op a n) := by
  unfold cShift at h
  split at h
  · cases h
  · rename_i hn
    refine ⟨by omega, ?_⟩
    by_cases hop : op = .shiftl
    · rw [if_pos hop] at h
      rw [shifted, if_pos hop]
      split at h
      · cases h
      · exact (Option.some.inj h).symm
    · rw [if_neg hop] at h
      rw [shifted, if_neg hop, ← Option.some.inj h]
      have hrange := inRange_ediv ((t.fits_iff ht).mp ha)
        (show (0 : Int) < 2 ^ n.toNat by positivity)
      exact (wrap_of_inRange (t.bits_pos tg) hrange).symm

theorem IntPrim.cPromote_ne_bool (p : IntPrim) : p.cPromote ≠ .bool := by
  revert p
  decide

/-- Shifts are right in all types. -/
theorem compoundSound_shift {tg : Target} {op : OpType} (h : op = .shiftl ∨ op = .shiftr)
    (l r : IntPrim) : CompoundSound tg op l r := by
  intro a b ha hb v hv
  have hfits : l.cPromote.Fits tg a := by
    rw [l.cPromote_eq tg]
    exact IntPrim.fits_promoteIfSmaller ha
  have hcompound : (cShift tg l.cPromote op (l.cPromote.conv tg a) b).map (l.conv tg) = some v := by
    rcases h with rfl | rfl
    · exact hv
    · exact hv
  rw [IntPrim.conv_of_fits hfits] at hcompound
  obtain ⟨w, hw, rfl⟩ := Option.map_eq_some_iff.mp hcompound
  obtain ⟨⟨hlo, hhi⟩, rfl⟩ := cShift_eq l.cPromote_ne_bool hfits hw
  have hts := compound_shift tg h l r
  obtain ⟨hcount, hhigh⟩ := shift_count tg l
  have himpl : ∀ lv rv, implOp tg op lv rv = some (x86Shift tg op lv rv) := by
    rcases h with rfl | rfl
    · exact fun _ _ => rfl
    · exact fun _ _ => rfl
  have hbval := IntPrim.conv_of_fits (IntPrim.fits_promoteIfSmaller hb)
  by_cases hlow : l.intrank < IntPrim.intrank .int
  · rw [if_pos hlow] at hts
    rw [genExprAssignCompound_upcast hts a hb, himpl, hbval, IntPrim.conv_of_fits hfits,
      x86Shift_eq hlo (by rw [← hcount] at hhi; exact_mod_cast hhi)]
    rfl
  · rw [if_neg hlow] at hts
    obtain ⟨hl, hbits, hcount'⟩ := hhigh hlow
    rw [genExprAssignCompound_plain hts a hb, himpl, hbval,
      x86Shift_eq hlo (by rw [← hcount'] at hhi; exact_mod_cast hhi),
      IntPrim.conv_wrap hl hbits, l.conv_of_ne hl]
    rfl

/-! ## Divisions -/

/-- The number that a division gives. -/
def divided (op : OpType) (a b : Int) : Int := if op = .modulus then a.tmod b else a.tdiv b

theorem cBinary_div {op : OpType} (h : op = .divide ∨ op = .modulus) (tg : Target) (t : IntPrim)
    (x y : Int) :
    cBinary tg t op x y =
      if y = 0 ∨ ¬ t.Fits tg (x.tdiv y) then none else some (divided op x y) := by
  rcases h with rfl | rfl
  · rfl
  · rfl

theorem implOp_div {op : OpType} (h : op = .divide ∨ op = .modulus) (tg : Target) (l r : TVal) :
    implOp tg op l r = x86Idiv tg op l r := by
  rcases h with rfl | rfl
  · rfl
  · rfl

theorem divided_fits {tg : Target} {op : OpType} {t : IntPrim} (ht : t ≠ .bool) {x y : Int}
    (hx : t.Fits tg x) (hq : t.Fits tg (x.tdiv y)) : t.Fits tg (divided op x y) := by
  unfold divided
  split
  · exact (t.fits_iff ht).mpr (inRange_tmod ((t.fits_iff ht).mp hx) y)
  · exact hq

/-- A division in the type of both operands. -/
theorem x86Idiv_eq {tg : Target} {op : OpType} {t q : IntPrim} (ht : t ≠ .bool)
    (hsigned : q.isSigned tg = t.isSigned tg) (hsize : q.size tg = t.size tg)
    (hwide : t.isSigned tg = true → 4 ≤ t.size tg) {x y : Int} (hx : t.Fits tg x) (hy : y ≠ 0)
    (hq : t.Fits tg (x.tdiv y)) :
    x86Idiv tg op ⟨t, x⟩ ⟨q, y⟩ = some ⟨t, divided op x y⟩ := by
  have hrange := (t.fits_iff ht).mp hx
  have hbits : q.bits tg = t.bits tg := by
    rw [IntPrim.bits, IntPrim.bits, hsize]
  have hwrap : q.wrap tg x = x := by
    rw [IntPrim.wrap, hsigned, hbits]
    exact wrap_of_inRange (t.bits_pos tg) hrange
  have hresult : t.wrap tg (divided op x y) = divided op x y :=
    wrap_of_inRange (t.bits_pos tg) ((t.fits_iff ht).mp (divided_fits ht hx hq))
  have hnarrow : ¬ (q.isSigned tg = true ∧ q.size tg < 4) := by
    rw [hsigned, hsize]
    exact fun hn => absurd (hwide hn.1) (not_le.mpr hn.2)
  have htrap : ¬ (y = 0 ∨ ¬ InRange (q.isSigned tg) (q.bits tg) (x.tdiv y)) := by
    rw [hsigned, hbits, ← t.fits_iff ht]
    exact fun hn => hn.elim hy fun hn => hn hq
  simp only [x86Idiv, hwrap]
  rw [if_neg hnarrow, if_neg (not_not.mpr hsize.symm), if_neg htrap]
  exact congrArg (fun z => some (TVal.mk t z)) hresult

/-- Otherwise a division works in the common type, or on two values of
`unsigned short`. -/
theorem compound_div (tg : Target) (l r : IntPrim) (hn : ¬ DividesNarrow tg l r)
    (hs : ¬ DividesSigned tg l r) :
    let ts := foldExprAssignCompound tg .plus l r
    let t := usualArith tg l r
    (ts.lhs l = t ∧ t ≠ .bool ∧ ts.rhs ≠ .bool ∧ ts.rhs.isSigned tg = t.isSigned tg ∧
        ts.rhs.size tg = t.size tg ∧ 4 ≤ t.size tg) ∨
      (l = .ushort ∧ ts = ⟨none, .ushort⟩ ∧ t = .int ∧ r.isSigned tg = false ∧
        r.size tg ≤ 2) := by
  revert tg l r
  decide

/-- A conversion only depends on the size and the signedness. -/
theorem IntPrim.conv_eq_conv {tg : Target} {p q : IntPrim} (hp : p ≠ .bool) (hq : q ≠ .bool)
    (hsigned : p.isSigned tg = q.isSigned tg) (hsize : p.size tg = q.size tg) (z : Int) :
    p.conv tg z = q.conv tg z := by
  rw [p.conv_of_ne hp, q.conv_of_ne hq, IntPrim.wrap, IntPrim.wrap, IntPrim.bits, IntPrim.bits,
    hsigned, hsize]

/-- An unsigned type of at most two bytes has values of `unsigned short`. -/
theorem IntPrim.fits_ushort {tg : Target} {p : IntPrim} {z : Int} (hsigned : p.isSigned tg = false)
    (hsize : p.size tg ≤ 2) (h : p.Fits tg z) : IntPrim.ushort.Fits tg z := by
  refine (IntPrim.fits_iff (by decide)).mpr ?_
  show 0 ≤ z ∧ z < 2 ^ 16
  by_cases hp : p = .bool
  · subst hp
    rcases h with rfl | rfl
    · decide
    · decide
  · have hrange := (p.fits_iff hp).mp h
    rw [hsigned] at hrange
    obtain ⟨hlo, hhi⟩ : 0 ≤ z ∧ z < 2 ^ p.bits tg := hrange
    have hbits : p.bits tg ≤ 16 := Nat.mul_le_mul_left 8 hsize
    exact ⟨hlo, hhi.trans_le (pow_le_pow_right₀ (by decide) hbits)⟩

/-- A quotient of two values of `unsigned short`. -/
theorem ushort_tdiv {tg : Target} {a b : Int} (ha : IntPrim.ushort.Fits tg a)
    (hb : IntPrim.ushort.Fits tg b) : IntPrim.ushort.Fits tg (a.tdiv b) := by
  have ha' : 0 ≤ a ∧ a < 2 ^ 16 := ha
  have hb' : 0 ≤ b ∧ b < 2 ^ 16 := hb
  show 0 ≤ a.tdiv b ∧ a.tdiv b < 2 ^ 16
  exact ⟨Int.tdiv_nonneg ha'.1 hb'.1, (Int.tdiv_le_self b ha'.1).trans_lt ha'.2⟩

/-- The divisions in the remaining types are right. -/
theorem compoundSound_div {tg : Target} {op : OpType} (h : op = .divide ∨ op = .modulus)
    {l r : IntPrim} (hn : ¬ DividesNarrow tg l r) (hs : ¬ DividesSigned tg l r) :
    CompoundSound tg op l r := by
  intro a b ha hb v hv
  have hcompound : (cBinary tg (usualArith tg l r) op ((usualArith tg l r).conv tg a)
      ((usualArith tg l r).conv tg b)).map (l.conv tg) = some v := by
    rcases h with rfl | rfl
    · exact hv
    · exact hv
  obtain ⟨w, hw, rfl⟩ := Option.map_eq_some_iff.mp hcompound
  rw [cBinary_div h] at hw
  split at hw
  · cases hw
  rename_i hdef
  obtain ⟨hy, hq⟩ := not_or.mp hdef
  rw [not_not] at hq
  obtain rfl := Option.some.inj hw
  have hts := foldExprAssignCompound_of_not_shift tg l r (.inr h)
  rcases compound_div tg l r hn hs with ⟨hlhs, ht, hrhs, hsigned, hsize, hwide⟩ |
    ⟨rfl, hty, ht, hsigned, hsize⟩
  · generalize foldExprAssignCompound tg .plus l r = ts at *
    generalize usualArith tg l r = t at *
    obtain ⟨upcast, q⟩ := ts
    have hx := t.fits_conv tg a
    have hb' : q.conv tg b = t.conv tg b := IntPrim.conv_eq_conv hrhs ht hsigned hsize b
    have hdiv : x86Idiv tg op ⟨t, t.conv tg a⟩ ⟨q, t.conv tg b⟩ =
        some ⟨t, divided op (t.conv tg a) (t.conv tg b)⟩ :=
      x86Idiv_eq ht hsigned hsize (fun _ => hwide) hx hy hq
    cases upcast with
    | some t' =>
      obtain rfl : t' = t := hlhs
      rw [genExprAssignCompound_upcast hts a hb, implOp_div h, hb', hdiv]
      rfl
    | none =>
      obtain rfl : l = t := hlhs
      rw [IntPrim.conv_of_fits ha] at hdiv hx hq ⊢
      rw [genExprAssignCompound_plain hts a hb, implOp_div h, hb', hdiv,
        IntPrim.conv_of_fits (divided_fits ht hx hq)]
      rfl
  · have hb' : IntPrim.ushort.Fits tg b := IntPrim.fits_ushort hsigned hsize hb
    have ha'' : IntPrim.int.conv tg a = a :=
      IntPrim.conv_of_fits (IntPrim.fits_promoteIfSmaller ha)
    have hb'' : IntPrim.int.conv tg b = b :=
      IntPrim.conv_of_fits (IntPrim.fits_promoteIfSmaller hb')
    rw [ht, hb''] at hy
    rw [ht, ha'', hb'']
    have hq' := ushort_tdiv ha hb'
    have hwide : IntPrim.isSigned tg .ushort = true → 4 ≤ IntPrim.size tg .ushort :=
      fun hs' => nomatch hs'
    have hdiv : x86Idiv tg op ⟨.ushort, a⟩ ⟨.ushort, b⟩ = some ⟨.ushort, divided op a b⟩ :=
      x86Idiv_eq (by decide) rfl rfl hwide ha hy hq'
    rw [hty] at hts
    rw [genExprAssignCompound_plain hts a hb, implOp_div h, IntPrim.conv_of_fits hb', hdiv,
      IntPrim.conv_of_fits (divided_fits (by decide) ha hq')]
    rfl

/-! ## The result -/

/-- A value of each type for which a division goes wrong. -/
def wrongDivisor (tg : Target) (l r : IntPrim) : Int × Int :=
  if l = .short then (7, 1)
  else if l = .ushort then if r = .uint then (10, 65543) else (10, -3)
  else (2 ^ (l.bits tg - 1), 3)

theorem compound_div_wrong (tg : Target) {op : OpType} (h : op = .divide ∨ op = .modulus)
    (l r : IntPrim) (hw : DividesNarrow tg l r ∨ DividesSigned tg l r) :
    let ab := wrongDivisor tg l r
    l.Fits tg ab.1 ∧ r.Fits tg ab.2 ∧ (cCompound tg op l r ab.1 ab.2).isSome ∧
      genExprAssignCompound tg op l r ab.1 ab.2 ≠ cCompound tg op l r ab.1 ab.2 := by
  rcases h with rfl | rfl
  · revert tg l r
    decide
  · revert tg l r
    decide

/-- Compound assignment is right for every pair of integer types and every
operator, except exactly for the divisions that are made in a type which is
narrower than `int`, or signed where the common type is not. -/
theorem compoundSound_iff (tg : Target) (op : OpType) (l r : IntPrim) :
    CompoundSound tg op l r ↔ ¬ DividesWrong tg op l r := by
  constructor
  · intro hsound ⟨hop, hwrong⟩
    obtain ⟨ha, hb, hsome, hne⟩ := compound_div_wrong tg hop l r hwrong
    obtain ⟨v, hv⟩ := Option.isSome_iff_exists.mp hsome
    exact hne ((hsound _ _ ha hb v hv).trans hv.symm)
  · intro hright
    by_cases hdiv : op = .divide ∨ op = .modulus
    · have hboth := not_or.mp fun hw => hright ⟨hdiv, hw⟩
      exact compoundSound_div hdiv hboth.1 hboth.2
    by_cases hshift : op = .shiftl ∨ op = .shiftr
    · exact compoundSound_shift hshift l r
    by_cases halu : opIsAlu op = true
    · exact compoundSound_alu halu l r
    · -- C has no other compound assignments
      intro a b _ _ v hv
      have hnone : cCompound tg op l r a b = none := by
        cases op <;> first | rfl | simp [opIsAlu] at *
      rw [hnone] at hv
      cases hv

/-- `unsigned short u = 10; int i = -3; u /= i;` divides by 65533. -/
theorem ushort_division_not_sound :
    ¬ ∀ (tg : Target) (op : OpType) (l r : IntPrim), CompoundSound tg op l r := by
  intro hall
  have hsound := hall ⟨.bits64, true⟩ .divide .ushort .int 10 (-3) (by decide) (by decide) 65533
    (by decide)
  exact absurd hsound (by decide)

end Ucc.Cc1
