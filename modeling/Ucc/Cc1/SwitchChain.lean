/-
  Cc1/SwitchChain.lean --- the chain of branches of a switch.

  Source: gen_stmt_switch and fold_stmt_and_add_to_curswitch in
  src/cc1/ops/stmt_switch.c, impl_branch in src/cc1/out/x86_64.c.

  The cases are tested one after the other, in the order in which they stand, against the
  controlling value, which has been promoted.  The constant of a case, or the first one of
  a range, has been cast to the type of that value.  The second one of a range has not.
-/
import Ucc.Cc1.CheckedArith
import Ucc.Cc1.SwitchDups

set_option autoImplicit false

namespace Ucc.Cc1.SwitchDups

open Ucc.Lib Ucc.Cc1.Out

variable {w : Width} {s : Bool}

/-! ## The chain -/

/-- Where the chain goes to: the block of a case, the one of the default, or the end. -/
inductive Target where
  | case (i : Nat)
  | default
  | switchEnd
  deriving DecidableEq, Repr

/-- `impl_branch` branches to its first block. -/
def implBranch (cond : OutVal) : Bool :=
  match cond.store with
  | .flag set => set
  | .constI val => val != 0
  | _ => cond.bits != 0

/-- The tests for a case: whether they lead to `cse->bits.case_blk`. -/
def testCase (o : OutOpts) (cmpWith : OutVal) (cse : Case w s) : Option Bool :=
  let thisCase := outNewL (.int w s) cse.expr.val
  match cse.expr2 with
  | some max => do
      let below ← outOp o .lt cmpWith thisCase
      if implBranch below then some false
      else do
        let above ← outOp o .gt cmpWith (outNewL (.int max.w max.s) max.num.val)
        some (!implBranch above)
  | none => do
      let equal ← outOp o .eq thisCase cmpWith
      some (implBranch equal)

/-- The loop over the cases, from the one with the number `i` on. -/
def testCases (o : OutOpts) (cmpWith : OutVal) (pdefault : Bool) (i : Nat) :
    List (Case w s) → Option Target
  | [] => some (if pdefault then .default else .switchEnd)
  | cse :: cases => do
      let found ← testCase o cmpWith cse
      if found then some (.case i) else testCases o cmpWith pdefault (i + 1) cases

/-- `gen_stmt_switch` -/
def genStmtSwitch (o : OutOpts) (cmpWith : OutVal) (pdefault : Bool) (cases : List (Case w s)) :
    Option Target := testCases o cmpWith pdefault 0 cases

/-! ## What it should do -/

instance (c : Case w s) (z : Int) : Decidable (c.Has z) := inferInstanceAs (Decidable (_ ∧ _))

/-- The only case that has the value, or the default or the end if none has. -/
inductive Dispatched (cases : List (Case w s)) (pdefault : Bool) (z : Int) : Target → Prop
  | case {i : Nat} {c : Case w s} (hc : cases[i]? = some c) (has : c.Has z)
      (only : ∀ j d, cases[j]? = some d → d.Has z → j = i) :
      Dispatched cases pdefault z (.case i)
  | other (none : ∀ c ∈ cases, ¬ c.Has z) :
      Dispatched cases pdefault z (if pdefault then .default else .switchEnd)

/-- The branches lead where the controlling value says. -/
def DispatchExact (o : OutOpts) (cmpWith : OutStore) (pdefault : Bool) (cases : List (Case w s)) :
    Prop :=
  ∃ t, genStmtSwitch o ⟨.int w s, cmpWith⟩ pdefault cases = some t ∧
    Dispatched cases pdefault (OutVal.num ⟨.int w s, cmpWith⟩) t

/-- `fold_switch_dups` has reported nothing. -/
def Passed (cases : List (Case w s)) : Prop :=
  ∃ vals, Sorts cmpStart (cases.map Case.val) vals ∧ foldSwitchDups vals = []

/-! ## When it does -/

/-- The controlling value and the bounds of a case, as the tests compare them. -/
structure Reading where
  value : Int
  lo : Int
  hi : Int

/-- If the controlling value is a constant and is folded, whole words are compared.  Else
the first bound is compared in the type of the switch, and the second in that or in its
own, whichever is larger. -/
def Case.reading (o : OutOpts) (cmpWith : OutVal) (c : Case w s) : Reading :=
  match (if o.constFold then cmpWith.constI? else none) with
  | some k => ⟨readAs s k, readAs s c.expr.val, readAs s c.val.stop.val⟩
  | none =>
      { value := cmpWith.num
        lo := c.lo
        hi := match c.expr2 with
          | none => c.lo
          | some max => wrap s (Nat.max w.bits max.w.bits) max.int }

/-- The tests find the value in the case. -/
def Case.Found (o : OutOpts) (cmpWith : OutVal) (c : Case w s) : Prop :=
  (c.reading o cmpWith).lo ≤ (c.reading o cmpWith).value ∧
    (c.reading o cmpWith).value ≤ (c.reading o cmpWith).hi

instance (o : OutOpts) (cmpWith : OutVal) (c : Case w s) : Decidable (c.Found o cmpWith) :=
  inferInstanceAs (Decidable (_ ∧ _))

/-- At most one case has the value, and a case that is taken for one that has it, or for
one that has it not, is behind one that has it. -/
def ReadsRight (o : OutOpts) (cmpWith : OutVal) (cases : List (Case w s)) : Prop :=
  (cases.Pairwise fun c d => ¬ (c.Has cmpWith.num ∧ d.Has cmpWith.num)) ∧
    ∀ before c after, cases = before ++ c :: after →
      ¬ (c.Found o cmpWith ↔ c.Has cmpWith.num) → ∃ d ∈ before, d.Has cmpWith.num

/-! ## A comparison -/

section Comparison

variable {o : OutOpts} {op : OpType} {v : Width} {t : Bool} {l r : OutVal}

/-- The larger of two types has the numbers of a signedness that the smaller has. -/
theorem inRange_max {z : Int} (n : Nat) (h : InRange s w.bits z) :
    wrap s (Nat.max w.bits n) z = z :=
  wrap_of_inRange (lt_of_lt_of_le w.bits_pos (Nat.le_max_left _ _)) (h.mono (Nat.le_max_left _ _))

theorem word_eq_ofInt (hv : r.ty = .int v t) : r.word v = BitVec.ofInt v.bits r.num := by
  rw [OutVal.num_eq hv, ofInt_readAs le_rfl, BitVec.setWidth_eq]

theorem extended_eq_ofInt (hl : l.ty = .int w s) (n : Nat) (hn : n ≤ 64) :
    l.extended.setWidth n = BitVec.ofInt n l.num := by
  rw [extended_eq hl, extend_eq_ofInt w.bits_le, setWidth_ofInt hn, OutVal.num_eq hl]

/-- Two integers are compared in the larger of their types, with the signedness of the
left one. -/
theorem implCompare_flag (hl : l.ty = .int w s) (hr : r.ty = .int v t) :
    implCompare op l r = ⟨.int .w8 false, .flag (compareWords s op
      (BitVec.ofInt (Nat.max w.bits v.bits) l.num)
      (BitVec.ofInt (Nat.max w.bits v.bits) r.num))⟩ := by
  have hlw := word_eq_ofInt hl
  have hrw := word_eq_ofInt hr
  have hlx := extended_eq_ofInt hl v.bits v.bits_le
  have hrx := extended_eq_ofInt hr w.bits w.bits_le
  obtain ⟨lty, lstore⟩ := l
  obtain ⟨rty, rstore⟩ := r
  cases hl
  cases hr
  rcases lt_trichotomy w.bits v.bits with hlt | heq | hgt
  · have hprom : promoteOperands ⟨.int w s, lstore⟩ ⟨.int v t, rstore⟩ =
        (inReg (.int v t) (OutVal.extended ⟨.int w s, lstore⟩), ⟨.int v t, rstore⟩) := if_pos hlt
    rw [show Nat.max w.bits v.bits = v.bits from max_eq_right hlt.le, ← hrw, ← hlx]
    unfold implCompare
    rw [hprom]
    change OutVal.mk _ (.flag (compareWords s op ((inReg _ _).store.val.setWidth v.bits) _)) = _
    rw [inReg_val]
    rfl
  · have hwv : w = v := by cases w <;> cases v <;> first | rfl | cases heq
    subst hwv
    have hprom : promoteOperands ⟨.int w s, lstore⟩ ⟨.int w t, rstore⟩ =
        (⟨.int w s, lstore⟩, ⟨.int w t, rstore⟩) :=
      (if_neg (lt_irrefl w.bits)).trans (if_neg (lt_irrefl w.bits))
    rw [show Nat.max w.bits w.bits = w.bits from max_self _, ← hlw, ← hrw]
    unfold implCompare
    rw [hprom]
    rfl
  · have hprom : promoteOperands ⟨.int w s, lstore⟩ ⟨.int v t, rstore⟩ =
        (⟨.int w s, lstore⟩, inReg (.int w s) (OutVal.extended ⟨.int v t, rstore⟩)) :=
      (if_neg (not_lt.mpr hgt.le)).trans (if_pos hgt)
    rw [show Nat.max w.bits v.bits = w.bits from max_eq_left hgt.le, ← hlw, ← hrx]
    unfold implCompare
    rw [hprom]
    change OutVal.mk _ (.flag (compareWords s op _ ((inReg _ _).store.val.setWidth w.bits))) = _
    rw [inReg_val]
    rfl

/-- A comparison with nothing to fold. -/
theorem outOp_comparison (hop : opIsComparison op = true)
    (h : o.constFold = false ∨ l.constI? = none ∨ r.constI? = none) :
    outOp o op l r = some (implCompare op l.checkIvfp r.checkIvfp) := by
  have hmem : tryMemOffset o op l r = none :=
    tryMemOffset_of_ne o l r (by rintro rfl; cases hop) (by rintro rfl; cases hop)
  have hgo : constFolding o op l r = .go := by
    unfold constFolding
    split
    · rename_i hfold
      have hone := h.resolve_left (by rw [hfold]; decide)
      cases hl : l.constI? with
      | none =>
        cases hr : r.constI? with
        | none => rfl
        | some m => cases op <;> first | rfl | cases hop
      | some k =>
        have hr := hone.resolve_left (by rw [hl]; nofun)
        rw [hr]
        cases op <;> first | rfl | cases hop
    · rfl
  unfold outOp outOpWith
  rw [hmem, hgo]
  cases op <;> first | rfl | cases hop

/-- The two truth values are numbers of every type. -/
theorem wrapAroundOf_ofTruth (op : OpType) (w : Width) (s b : Bool) :
    wrapAroundOf op (w.bits / 8) s (ofTruth b) = ofTruth b := by
  unfold wrapAroundOf
  cases s with
  | true => rfl
  | false => cases w <;> cases b <;> rfl

theorem tryConstFold_of_ok {op : OpType} {ty : OutTy} {l r val : Integral}
    (h : constOpExecOf l (some r) op (ty.bits / 8) ty.isSigned = .ok val) :
    tryConstFold op ty l r = .ret (outNewL ty val) := by
  unfold tryConstFold
  rw [h]

/-- A comparison of two constants that is folded. -/
theorem outOp_comparison_folded (hop : opIsComparison op = true) (hfold : o.constFold = true)
    (k m : Integral) :
    outOp o op (outNewL (.int w s) k) (outNewL (.int v t) m) =
      some (outNewL (.int w s) (ofTruth (compareWords s op k m))) := by
  have hmem : tryMemOffset o op (outNewL (.int w s) k) (outNewL (.int v t) m) = none :=
    tryMemOffset_of_ne o _ _ (by rintro rfl; cases hop) (by rintro rfl; cases hop)
  have hret : constFolding o op (outNewL (.int w s) k) (outNewL (.int v t) m) =
      .ret (outNewL (.int w s) (ofTruth (compareWords s op k m))) := by
    have hexec : constOpExecOf k (some m) op (w.bits / 8) s =
        .ok (ofTruth (compareWords s op k m)) := by
      rw [← wrapAroundOf_ofTruth op w s]
      exact congrArg (Except.map _) (binaryExec_comparison hop s k m)
    unfold constFolding
    rw [if_pos hfold]
    exact tryConstFold_of_ok hexec
  rw [outOp, outOpWith_of_ret hmem hret]

theorem compareWords_lt {n : Nat} (s : Bool) (a b : BitVec n) :
    compareWords s .lt a b = decide (readAs s a < readAs s b) := by
  cases s with
  | true => exact BitVec.slt_eq_decide
  | false =>
    change a.ult b = decide ((a.toNat : Int) < b.toNat)
    rw [BitVec.ult_eq_decide]
    simp

theorem compareWords_eq {n : Nat} (s : Bool) (a b : BitVec n) :
    compareWords s .eq a b = decide (readAs s a = readAs s b) := by
  have hinj : readAs s a = readAs s b ↔ a = b := by
    refine ⟨fun h => ?_, fun h => by rw [h]⟩
    have := congrArg (BitVec.ofInt n) h
    rwa [ofInt_readAs le_rfl, ofInt_readAs le_rfl, BitVec.setWidth_eq, BitVec.setWidth_eq] at this
  simp only [hinj, compareWords, beq_eq_decide]

theorem compareWords_gt {n : Nat} (s : Bool) (a b : BitVec n) :
    compareWords s .gt a b = compareWords s .lt b a := rfl

/-- Where a folded comparison branches to. -/
theorem branch_folded (hop : opIsComparison op = true) (hfold : o.constFold = true)
    (k m : Integral) :
    ∃ cond, outOp o op (outNewL (.int w s) k) (outNewL (.int v t) m) = some cond ∧
      implBranch cond = compareWords s op k m := by
  refine ⟨_, outOp_comparison_folded hop hfold k m, ?_⟩
  change (ofTruth (compareWords s op k m) != 0) = _
  cases compareWords s op k m <;> rfl

/-- Where a comparison branches to that is made when the code runs. -/
theorem branch_compared (hop : opIsComparison op = true)
    (h : o.constFold = false ∨ l.constI? = none ∨ r.constI? = none)
    (hl : l.ty = .int w s) (hr : r.ty = .int v t) :
    ∃ cond, outOp o op l r = some cond ∧ implBranch cond = compareWords s op
      (BitVec.ofInt (Nat.max w.bits v.bits) l.num) (BitVec.ofInt (Nat.max w.bits v.bits) r.num) := by
  have hnum : ∀ {x : OutVal} {w : Width} {s : Bool}, x.ty = .int w s →
      x.checkIvfp.ty = .int w s ∧ x.checkIvfp.num = x.num := by
    intro x w s hx
    have hty := (same_checkIvfp x).1.trans hx
    refine ⟨hty, ?_⟩
    rw [OutVal.num_eq hx, OutVal.num_eq hty, (same_checkIvfp x).word w]
  refine ⟨_, outOp_comparison hop h, ?_⟩
  rw [implCompare_flag (hnum hl).1 (hnum hr).1, (hnum hl).2, (hnum hr).2]
  rfl

end Comparison

/-! ## The test of a case -/

section Test

variable {o : OutOpts} {cmpWith : OutStore} {cse : Case w s}

theorem inRange_num (cmpWith : OutStore) :
    InRange s w.bits (OutVal.num ⟨.int w s, cmpWith⟩) := by
  rw [OutVal.num_eq rfl]
  exact inRange_readAs w.bits_pos s _

/-- The test for one value, and what it compares. -/
theorem testCase_single {cmp : OutVal} {expr : Numeric} {n : Nat} {value lo : Int}
    (heq : ∃ cond, outOp o .eq (outNewL (.int w s) expr.val) cmp = some cond ∧
      implBranch cond = decide (lo = value)) :
    testCase o cmp (⟨expr, none, n⟩ : Case w s) = some (decide (lo ≤ value ∧ value ≤ lo)) := by
  obtain ⟨cond, hcond, hbr⟩ := heq
  simp only [testCase, hcond, Option.bind_eq_bind, Option.bind_some, hbr, Option.some.injEq]
  refine decide_eq_decide.mpr ?_
  omega

/-- The two tests for a range. -/
theorem testCase_range {cmp : OutVal} {expr : Numeric} {max : CaseConst} {n : Nat}
    {value lo hi : Int}
    (hlt : ∃ cond, outOp o .lt cmp (outNewL (.int w s) expr.val) = some cond ∧
      implBranch cond = decide (value < lo))
    (hgt : ∃ cond, outOp o .gt cmp (outNewL (.int max.w max.s) max.num.val) = some cond ∧
      implBranch cond = decide (hi < value)) :
    testCase o cmp (⟨expr, some max, n⟩ : Case w s) = some (decide (lo ≤ value ∧ value ≤ hi)) := by
  obtain ⟨below, hbelow, hltbr⟩ := hlt
  obtain ⟨above, habove, hgtbr⟩ := hgt
  simp only [testCase, hbelow, habove, Option.bind_eq_bind, Option.bind_some, hltbr, hgtbr]
  split
  · rename_i hlt
    have := of_decide_eq_true hlt
    exact congrArg some (decide_eq_false (by omega)).symm
  · rename_i hnot
    have hge : ¬ value < lo := fun hlt => hnot (decide_eq_true hlt)
    rw [← decide_not, Option.some.injEq]
    refine decide_eq_decide.mpr ?_
    omega

/-- A folded test compares the words. -/
theorem testCase_folded (hfold : o.constFold = true) (k : Integral) (cse : Case w s) :
    testCase o (outNewL (.int w s) k) cse =
      some (decide (cse.Found o (outNewL (.int w s) k))) := by
  have hread : cse.Found o (outNewL (.int w s) k) ↔
      readAs s cse.expr.val ≤ readAs s k ∧ readAs s k ≤ readAs s cse.val.stop.val := by
    unfold Case.Found Case.reading
    rw [hfold]
    exact Iff.rfl
  rw [decide_eq_decide.mpr hread]
  obtain ⟨expr, expr2, n⟩ := cse
  have hfolded : ∀ {op : OpType} {v : Width} {t : Bool} (l r : Integral),
      opIsComparison op = true → ∃ cond,
        outOp o op (outNewL (.int w s) l) (outNewL (.int v t) r) = some cond ∧
          implBranch cond = compareWords s op l r := fun l r hop => branch_folded hop hfold l r
  cases expr2 with
  | none =>
    refine testCase_single ?_
    rw [← compareWords_eq]
    exact hfolded _ _ rfl
  | some max =>
    refine testCase_range ?_ ?_
    · rw [← compareWords_lt]
      exact hfolded _ _ rfl
    · rw [← compareWords_lt, ← compareWords_gt]
      exact hfolded _ _ rfl

theorem found_compared (h : o.constFold = false ∨ OutVal.constI? ⟨.int w s, cmpWith⟩ = none)
    (cse : Case w s) :
    cse.Found o ⟨.int w s, cmpWith⟩ ↔
      cse.lo ≤ OutVal.num ⟨.int w s, cmpWith⟩ ∧
        OutVal.num ⟨.int w s, cmpWith⟩ ≤ match cse.expr2 with
          | none => cse.lo
          | some max => wrap s (Nat.max w.bits max.w.bits) max.int := by
  unfold Case.Found Case.reading
  rcases h with h | h
  · rw [h]
    exact Iff.rfl
  · rw [h, ite_self]

/-- Another compares the numbers. -/
theorem testCase_compared (h : o.constFold = false ∨ OutVal.constI? ⟨.int w s, cmpWith⟩ = none)
    (cse : Case w s) :
    testCase o ⟨.int w s, cmpWith⟩ cse = some (decide (cse.Found o ⟨.int w s, cmpWith⟩)) := by
  rw [decide_eq_decide.mpr (found_compared h cse)]
  have hz := inRange_num (w := w) (s := s) cmpWith
  obtain ⟨expr, expr2, n⟩ := cse
  have hlo : InRange s w.bits (Case.lo ⟨expr, expr2, n⟩) := inRange_readAs w.bits_pos s _
  have hlonum : (outNewL (.int w s) expr.val).num = Case.lo ⟨expr, expr2, n⟩ := num_outNewL w s _
  cases expr2 with
  | none =>
    refine testCase_single ?_
    have hbr := @branch_compared w s o .eq w s (outNewL (.int w s) expr.val)
      ⟨.int w s, cmpWith⟩ rfl (by tauto) rfl rfl
    rwa [compareWords_eq, readAs_ofInt, readAs_ofInt, hlonum, inRange_max _ hlo,
      inRange_max _ hz] at hbr
  | some max =>
    have hmax : (outNewL (.int max.w max.s) max.num.val).num = max.int := num_outNewL _ _ _
    refine testCase_range ?_ ?_
    · have hbr := @branch_compared w s o .lt w s ⟨.int w s, cmpWith⟩
        (outNewL (.int w s) expr.val) rfl (by tauto) rfl rfl
      rwa [compareWords_lt, readAs_ofInt, readAs_ofInt, hlonum, inRange_max _ hlo,
        inRange_max _ hz] at hbr
    · have hbr := @branch_compared w s o .gt max.w max.s ⟨.int w s, cmpWith⟩
        (outNewL (.int max.w max.s) max.num.val) rfl (by tauto) rfl rfl
      rwa [compareWords_gt, compareWords_lt, readAs_ofInt, readAs_ofInt, hmax,
        inRange_max _ hz] at hbr

/-- A test leads to the block of the case exactly if it finds the value. -/
theorem testCase_eq (o : OutOpts) (cmpWith : OutStore) (cse : Case w s) :
    testCase o ⟨.int w s, cmpWith⟩ cse = some (decide (cse.Found o ⟨.int w s, cmpWith⟩)) := by
  cases hfold : o.constFold with
  | false => exact testCase_compared (Or.inl hfold) cse
  | true =>
    cases cmpWith with
    | constI k => exact testCase_folded hfold k cse
    | _ => exact testCase_compared (Or.inr rfl) cse

end Test

/-! ## The first that is found -/

section First

variable {α : Type} (found : α → Bool) (has : α → Prop)

/-- The first that is found is the only one that has it, or none is found and none has. -/
def FirstRight (l : List α) : Prop :=
  match l.findIdx? found with
  | some i => ∃ c, l[i]? = some c ∧ has c ∧ ∀ j d, l[j]? = some d → has d → j = i
  | none => ∀ c ∈ l, ¬ has c

/-- One that is found wrongly, or wrongly not, is behind one that has it. -/
def WrongBehind (l : List α) : Prop :=
  ∀ before c after, l = before ++ c :: after → ¬ (found c = true ↔ has c) → ∃ d ∈ before, has d

variable {found has} {c : α} {l : List α}

theorem wrongBehind_cons_of_has (hc : has c) :
    WrongBehind found has (c :: l) ↔ found c = true := by
  constructor
  · intro h
    by_contra hnot
    obtain ⟨d, hd, -⟩ := h [] c l rfl fun hiff => hnot (hiff.mpr hc)
    cases hd
  · intro hfound before d after heq hwrong
    cases before with
    | nil =>
      obtain ⟨rfl, -⟩ := List.cons.inj heq
      exact absurd (iff_of_true hfound hc) hwrong
    | cons e before =>
      obtain ⟨rfl, -⟩ := List.cons.inj heq
      exact ⟨c, List.mem_cons_self, hc⟩

theorem wrongBehind_cons_of_not (hc : ¬ has c) :
    WrongBehind found has (c :: l) ↔ found c = false ∧ WrongBehind found has l := by
  constructor
  · intro h
    constructor
    · by_contra hfound
      obtain ⟨d, hd, -⟩ := h [] c l rfl fun hiff => hc (hiff.mp (Bool.eq_true_of_not_eq_false hfound))
      cases hd
    · rintro before d after rfl hwrong
      obtain ⟨e, he, hhas⟩ := h (c :: before) d after rfl hwrong
      rcases List.mem_cons.mp he with rfl | he
      · exact absurd hhas hc
      · exact ⟨e, he, hhas⟩
  · rintro ⟨hnot, h⟩ before d after heq hwrong
    cases before with
    | nil =>
      obtain ⟨rfl, -⟩ := List.cons.inj heq
      exact absurd (iff_of_false (by rw [hnot]; decide) hc) hwrong
    | cons e before =>
      obtain ⟨rfl, rfl⟩ := List.cons.inj heq
      obtain ⟨x, hx, hhas⟩ := h before d after rfl hwrong
      exact ⟨x, List.mem_cons_of_mem c hx, hhas⟩

theorem firstRight_cons_of_found (hfound : found c = true) :
    FirstRight found has (c :: l) ↔ has c ∧ ∀ d ∈ l, ¬ has d := by
  unfold FirstRight
  rw [List.findIdx?_cons, if_pos hfound]
  constructor
  · rintro ⟨d, hd, hhas, honly⟩
    obtain rfl := Option.some.inj hd
    refine ⟨hhas, fun e he hhase => ?_⟩
    obtain ⟨j, hj⟩ := List.mem_iff_getElem?.mp he
    exact absurd (honly (j + 1) e hj hhase) (Nat.succ_ne_zero j)
  · rintro ⟨hhas, hnone⟩
    refine ⟨c, rfl, hhas, fun j d hd hhasd => ?_⟩
    cases j with
    | zero => rfl
    | succ j => exact absurd hhasd (hnone d (List.mem_of_getElem? hd))

theorem firstRight_cons_of_not (hnot : found c = false) :
    FirstRight found has (c :: l) ↔ ¬ has c ∧ FirstRight found has l := by
  unfold FirstRight
  rw [List.findIdx?_cons, if_neg (by rw [hnot]; decide)]
  cases l.findIdx? found with
  | none => exact List.forall_mem_cons
  | some i =>
    constructor
    · rintro ⟨d, hd, hhas, honly⟩
      refine ⟨fun hc => absurd (honly 0 c rfl hc) (Nat.zero_ne_add_one i), d, hd, hhas, ?_⟩
      exact fun j e he hhase => Nat.succ.inj (honly (j + 1) e he hhase)
    · rintro ⟨hc, d, hd, hhas, honly⟩
      refine ⟨d, hd, hhas, fun j e he hhase => ?_⟩
      cases j with
      | zero =>
        obtain rfl := Option.some.inj he
        exact absurd hhase hc
      | succ j => exact congrArg Nat.succ (honly j e he hhase)

/-- The search is right exactly if at most one has it and wrong answers are behind that
one. -/
theorem firstRight_iff (l : List α) :
    FirstRight found has l ↔
      (l.Pairwise fun c d => ¬ (has c ∧ has d)) ∧ WrongBehind found has l := by
  induction l with
  | nil => exact iff_of_true nofun ⟨List.Pairwise.nil, by simp [WrongBehind]⟩
  | cons c l ih =>
    rw [List.pairwise_cons]
    by_cases hc : has c
    · rw [wrongBehind_cons_of_has hc]
      cases hfound : found c with
      | false => simp [firstRight_cons_of_not hfound, hc]
      | true =>
        rw [firstRight_cons_of_found hfound]
        constructor
        · rintro ⟨-, hnone⟩
          refine ⟨⟨fun d hd hboth => hnone d hd hboth.2, ?_⟩, rfl⟩
          exact List.pairwise_of_forall_mem_list fun d hd e _ hboth => hnone d hd hboth.1
        · rintro ⟨⟨hone, -⟩, -⟩
          exact ⟨hc, fun d hd hhas => hone d hd ⟨hc, hhas⟩⟩
    · rw [wrongBehind_cons_of_not hc]
      cases hfound : found c with
      | false =>
        rw [firstRight_cons_of_not hfound, ih]
        simp [hc]
      | true =>
        rw [firstRight_cons_of_found hfound]
        simp [hc]

end First

/-! ## The chain -/

section Chain

variable {o : OutOpts} {cmpWith : OutStore}

/-- The chain leads to the first case in which the value is found. -/
theorem testCases_eq (o : OutOpts) (cmpWith : OutStore) (pdefault : Bool)
    (cases : List (Case w s)) (i : Nat) :
    testCases o ⟨.int w s, cmpWith⟩ pdefault i cases =
      some (match cases.findIdx? fun c => decide (c.Found o ⟨.int w s, cmpWith⟩) with
        | some j => .case (i + j)
        | none => if pdefault then .default else .switchEnd) := by
  induction cases generalizing i with
  | nil => rfl
  | cons c cases ih =>
    simp only [testCases, testCase_eq, Option.bind_eq_bind, Option.bind_some, List.findIdx?_cons]
    split
    · rfl
    · rw [ih]
      cases cases.findIdx? fun c => decide (c.Found o ⟨.int w s, cmpWith⟩) with
      | none => rfl
      | some j =>
        change some (Target.case (i + 1 + j)) = some (Target.case (i + (j + 1)))
        rw [Nat.add_right_comm, Nat.add_assoc]

/-- At most one case has a value, if the check for duplicates is exact on the cases and
has reported nothing. -/
theorem pairwise_of_passed {cases : List (Case w s)} (hpassed : Passed cases)
    (hright : SortsRight cases) (z : Int) :
    cases.Pairwise fun c d => ¬ (c.Has z ∧ d.Has z) := by
  obtain ⟨vals, hsorts, hquiet⟩ := hpassed
  have hexact : DupsExact cases := (listExact_overlap_iff (Disjoint cases)).mpr hright
  have hdisj : Disjoint cases := by
    by_contra hmeet
    exact (hexact vals hsorts).mpr hmeet hquiet
  exact hdisj.imp fun hapart hboth => hapart ⟨z, hboth⟩

/-- A value that is computed is found where it is, if the second bounds are numbers of the
type of the switch. -/
theorem found_iff_has (h : o.constFold = false ∨ OutVal.constI? ⟨.int w s, cmpWith⟩ = none)
    (c : Case w s) (hfits : ∀ max, c.expr2 = some max → InRange s w.bits max.int) :
    c.Found o ⟨.int w s, cmpWith⟩ ↔ c.Has (OutVal.num ⟨.int w s, cmpWith⟩) := by
  rw [found_compared h]
  unfold Case.Has Case.hi
  cases hexpr2 : c.expr2 with
  | none => exact Iff.rfl
  | some max =>
    have hmax := hfits max hexpr2
    simp only [inRange_max _ hmax, wrap_of_inRange w.bits_pos hmax]

/-- Then the cases are read right. -/
theorem readsRight_of_passed {cases : List (Case w s)} (hpassed : Passed cases)
    (hright : SortsRight cases)
    (h : o.constFold = false ∨ OutVal.constI? ⟨.int w s, cmpWith⟩ = none)
    (hfits : ∀ c ∈ cases, ∀ max, c.expr2 = some max → InRange s w.bits max.int) :
    ReadsRight o ⟨.int w s, cmpWith⟩ cases := by
  refine ⟨pairwise_of_passed hpassed hright _, ?_⟩
  rintro before c after rfl hwrong
  exact absurd (found_iff_has h c (hfits c (by simp))) hwrong

-- `switch(0xffffffffu){ case 0xffffffffu: }`: the cast of the case sets the upper half
example : ¬ Case.Found ⟨true, true, false, false⟩ (outNewL (.int .w32 false) 0xffffffff)
    (⟨(foldCastNum true true uintTy uintTy ⟨0xffffffff, { unsigned := true }⟩).1, none, 0⟩ :
      Case .w32 false) := by decide

/-- `case 0 ... 0x100000005l`, in a switch on an `unsigned`. -/
def longRange : List (Case .w32 false) :=
  [⟨⟨0, {}⟩, some ⟨.w64, true, ⟨0x100000005, { long := true }⟩⟩, 0⟩]

end Chain

end Ucc.Cc1.SwitchDups
