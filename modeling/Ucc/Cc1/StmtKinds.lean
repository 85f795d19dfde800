/-
  Cc1/StmtKinds.lean --- each kind of statement leads to where it should.

  One lemma for each kind of statement, then the induction over statements
  (`lowers_genStmt`), and what it says about the blocks of a whole function.
-/
import Ucc.Cc1.StmtLower

set_option autoImplicit false

namespace Ucc.Cc1.Flow

section Kinds

variable {defined : List Nat} (isEmpty : OutCtx → Nat → Bool) {w : Within}

attribute [local simp] genStmt genStmts Tr TrAll Stmt.cases casesOf Stmt.labels labelsOf
  Stmt.Checked CheckedAll

/-- `genStmt` of the statement leads to where `Tr` says. -/
def LowersStmt (defined : List Nat) (w : Within) (s : Stmt) : Prop :=
  Lowers defined w s.cases s.labels (genStmt isEmpty s) fun G t => Tr G t s

/-! ### Statements without parts -/

/-- A statement without cases and labels that fills no open block. -/
theorem lowers_plain {gen : Targets → OutCtx → OutCtx} {tr : OutCtx → Targets → Pt → Pt → Prop}
    (hg : ∀ t c, Inv defined c → w.Has t → Grows defined (fun _ => False) c (gen t c))
    (htr : ∀ t c, Inv defined c → w.Has t → ∀ G, Ext (gen t c) G → tr G t c.pt (gen t c).pt) :
    Lowers defined w [] [] gen tr := by
  intro t c hi hw _
  exact ⟨⟨(hg t c hi hw).mono fun _ hf => hf.elim, .nil⟩, htr t c hi hw⟩

theorem lowers_expr (e : Expr) : LowersStmt isEmpty defined w (.expr e) := by
  refine lowers_plain (fun t c hi _ => ?_) fun t c hi _ G hG => ?_
  · rw [genStmt]
    exact .expr e hi
  · rw [genStmt] at hG ⊢
    rw [Tr]
    exact evalAt_genExpr hi hG

theorem lowers_noop : LowersStmt isEmpty defined w .noop := by
  refine lowers_plain (fun t c hi _ => ?_) fun t c _ _ G _ => ?_
  · rw [genStmt]
    exact .refl hi
  · rw [genStmt, Tr]

/-- A jump to a block of an enclosing statement. -/
theorem lowers_transferTo {target : Targets → Option Nat}
    (h : ∀ t, w.Has t → ∃ b, target t = some b) :
    Lowers defined w [] [] (fun t => transferTo (target t))
      fun G t p q => q = none ∧ ∃ b, target t = some b ∧ Jump G p b := by
  have hgen : ∀ {t b}, target t = some b → ∀ c, transferTo (target t) c = outCtrlTransfer b c := by
    intro t b hb c
    rw [hb, transferTo]
  refine lowers_plain (fun t c hi hw => ?_) fun t c hi hw G hG => ?_
  · obtain ⟨b, hb⟩ := h t hw
    rw [hgen hb]
    exact .transfer b hi
  · obtain ⟨b, hb⟩ := h t hw
    rw [hgen hb] at hG ⊢
    exact ⟨pt_of_currentBlk_none (currentBlk_outCtrlTransfer _ _), b, hb, jump_transfer hi hG⟩

theorem lowers_break (hb : w.loopOrSwitch = true) : LowersStmt isEmpty defined w .break_ := by
  have htarget : Lowers defined w [] [] _ _ := lowers_transferTo fun t hw => hw.blkBreak hb
  simpa only [LowersStmt, genStmt, Tr, Stmt.cases, Stmt.labels] using htarget

theorem lowers_continue (hb : w.loop = true) : LowersStmt isEmpty defined w .continue_ := by
  have htarget : Lowers defined w [] [] _ _ := lowers_transferTo fun t hw => hw.blkContinue hb
  simpa only [LowersStmt, genStmt, Tr, Stmt.cases, Stmt.labels] using htarget

theorem lowers_goto {lbl : Nat} (hl : lbl ∈ defined) :
    LowersStmt isEmpty defined w (.goto lbl) := by
  refine lowers_plain (fun t c hi _ => ?_) fun t c hi _ G hG => ?_
  · have hlabel := Grows.label (P := fun _ => False) hi hl
    rw [genStmt]
    exact hlabel.trans (.transfer _ hlabel.inv)
  · have hlabel := Grows.label (P := fun _ => False) hi hl
    have hjump := Grows.transfer (P := fun _ => False) (labelGetblk lbl c).1 hlabel.inv
    rw [genStmt] at hG ⊢
    rw [Tr, ← pt_labelGetblk hi lbl]
    exact ⟨pt_of_currentBlk_none (currentBlk_outCtrlTransfer _ _), _,
      (hjump.ext.trans hG).label _ _ (labelToBlk_labelGetblk lbl c), jump_transfer hlabel.inv hG⟩

theorem genStmt_return (e : Option Expr) (t : Targets) (c : OutCtx) :
    genStmt isEmpty (.return_ e) t c = outCtrlTransfer c.epilogueBlk (genOptional e c) := by
  have hep : (genOptional e c).epilogueBlk = c.epilogueBlk := by
    cases e with
    | none => rfl
    | some e => cases h : c.currentBlk <;> simp [genOptional, genExpr, h]
  have hnone : ∀ d : OutCtx, d.currentBlk = none → { d with currentBlk := none } = d := by
    intro d hd
    cases d
    simp_all
  rw [genStmt, hnone _ (currentBlk_outCtrlTransfer _ _), hep]

theorem lowers_return (e : Option Expr) : LowersStmt isEmpty defined w (.return_ e) := by
  refine lowers_plain (fun t c hi _ => ?_) fun t c hi _ G hG => ?_
  · have hexpr := Grows.optional (P := fun _ => False) e hi
    rw [genStmt_return]
    exact hexpr.trans (.transfer _ hexpr.inv)
  · have hexpr := Grows.optional (P := fun _ => False) e hi
    have hjump := Grows.transfer (P := fun _ => False) c.epilogueBlk hexpr.inv
    rw [genStmt_return] at hG ⊢
    rw [Tr]
    refine ⟨pt_of_currentBlk_none (currentBlk_outCtrlTransfer _ _), _,
      evalOptional_genOptional hi (hjump.ext.trans hG), ?_⟩
    rw [((hexpr.trans hjump).ext.trans hG).epilogue]
    exact jump_transfer hexpr.inv hG

/-! ### Blocks, labels and cases -/

/-- The same of the statements of a block. -/
def LowersStmts (defined : List Nat) (w : Within) (stmts : List Stmt) : Prop :=
  Lowers defined w (casesOf stmts) (labelsOf stmts) (genStmts isEmpty stmts)
    fun G t => TrAll G t stmts

theorem lowers_nil : LowersStmts isEmpty defined w [] := by
  refine lowers_plain (fun t c hi _ => ?_) fun t c _ _ G _ => ?_
  · rw [genStmts]
    exact .refl hi
  · rw [genStmts, TrAll]

theorem lowers_cons {s : Stmt} {stmts : List Stmt} (hs : LowersStmt isEmpty defined w s)
    (hstmts : LowersStmts isEmpty defined w stmts) :
    LowersStmts isEmpty defined w (s :: stmts) := by
  intro t c hi hw hready
  rw [casesOf, labelsOf] at hready ⊢
  have hgen : genStmts isEmpty (s :: stmts) t c
      = genStmts isEmpty stmts t (genStmt isEmpty s t c) := by rw [genStmts]
  rw [hgen]
  obtain ⟨hwork₁, hext₁, hleads₁⟩ := (Work.none hi).stmt hs hw hready.left
  obtain ⟨hwork₂, hext₂, hleads₂⟩ := hwork₁.stmt hstmts hw hready
  refine ⟨hwork₂.finish, fun G hG => ?_⟩
  show TrAll G t (s :: stmts) _ _
  rw [TrAll]
  exact ⟨_, hleads₁ G (hext₂.trans hG), hleads₂ G hG⟩

theorem lowers_code {stmts : List Stmt} (h : LowersStmts isEmpty defined w stmts) :
    LowersStmt isEmpty defined w (.code stmts) := by
  intro t c hi hw hready
  rw [Stmt.cases, Stmt.labels] at hready ⊢
  let c₁ := newBlockForScope isEmpty "scope_enter" c
  let c₂ := genStmts isEmpty stmts t c₁
  let c₃ := newBlockForScope isEmpty "scope_leave" c₂
  have hgen : genStmt isEmpty (.code stmts) t c = c₃ := by rw [genStmt]
  rw [hgen]
  have hg₁ := Grows.scope (P := fun _ => False) isEmpty "scope_enter" hi
  obtain ⟨hwork₂, hext₂, hleads⟩ := ((Work.none hi).step hg₁).stmt h hw hready
  have hg₃ := Grows.scope (P := fun _ => False) isEmpty "scope_leave" hwork₂.grows.inv
  refine ⟨(hwork₂.step hg₃).finish, fun G hG => ?_⟩
  have hG₂ := hg₃.ext.trans hG
  show Tr G t (.code stmts) c.pt c₃.pt
  rw [Tr]
  exact ⟨c₁.pt, c₂.pt, scope_newBlockForScope isEmpty hi (hext₂.trans hG₂), hleads G hG₂,
    scope_newBlockForScope isEmpty hwork₂.grows.inv hG⟩

theorem lowers_label {lbl : Nat} {lhs : Stmt} (h : LowersStmt isEmpty defined w lhs) :
    LowersStmt isEmpty defined w (.label lbl lhs) := by
  intro t c hi hw hready
  rw [Stmt.cases, Stmt.labels] at hready ⊢
  let b := (labelGetblk lbl c).1
  let c₁ := (labelGetblk lbl c).2
  let c₂ := outCtrlTransferMakeCurrent b c₁
  have hgen : genStmt isEmpty (.label lbl lhs) t c = genStmt isEmpty lhs t c₂ := by rw [genStmt]
  rw [hgen]
  have hg₁ := Grows.label (P := fun _ => False) hi
    (hready.labelsDefined lbl List.mem_cons_self)
  have hb : c₁.labelToBlk lbl = some b := labelToBlk_labelGetblk lbl c
  have ho : Open c₁ b := (hready.grows hg₁ fun _ _ => id).pending lbl List.mem_cons_self b hb
  obtain ⟨hg₂, hs₂⟩ := enter hg₁.inv ho (owns_label hb t.caseBlk)
    fun l hl => ⟨b, by rwa [List.mem_singleton.mp hl]⟩
  have hwork₂ := ((Work.none hi).step hg₁).part [] (hg₂.mono fun _ hown => .inl hown) hs₂
    (fun _ hb => (nomatch hb)) fun _ hb => (nomatch hb)
  obtain ⟨hwork₃, hext₃, hleads⟩ := hwork₂.stmt h hw hready
  refine ⟨hwork₃.finish, fun G hG => ?_⟩
  have hG₂ := hext₃.trans hG
  have hlead := hleads G hG
  rw [pt_enter hg₁.inv ho] at hlead
  show Tr G t (.label lbl lhs) c.pt _
  rw [Tr, ← pt_labelGetblk hi lbl]
  exact ⟨b, (hg₂.ext.trans hG₂).label lbl b hb, jump_enter hg₁.inv hG₂, hlead⟩

theorem lowers_case {l : CaseLabel} {lhs : Stmt} (h : LowersStmt isEmpty defined w lhs) :
    LowersStmt isEmpty defined w (.case l lhs) := by
  intro t c hi hw hready
  rw [Stmt.cases, Stmt.labels] at hready ⊢
  -- a case is counted after those behind it
  have hperm : ([l] ++ lhs.cases).Perm (lhs.cases ++ [l]) := List.perm_append_comm
  obtain ⟨b, hb, ho, _⟩ := hready.caseOpen l (by simp)
  let c₁ := outCtrlTransferMakeCurrent b c
  have hgen : genStmt isEmpty (.case l lhs) t c = genStmt isEmpty lhs t c₁ := by
    rw [genStmt]
    simp only [hb]
    rfl
  rw [hgen]
  obtain ⟨hg₁, hs₁⟩ := enter hi ho (owns_case hb) fun l hl => (nomatch hl)
  have hwork₁ := (Work.none hi).part [] (hg₁.mono fun _ hown => .inl hown) hs₁
    (fun _ hb => (nomatch hb)) fun _ hb => (nomatch hb)
  obtain ⟨hwork₂, hext₂, hleads⟩ := hwork₁.stmt h hw (hready.perm hperm.symm)
  refine ⟨(hwork₂.perm hperm).finish, fun G hG => ?_⟩
  have hlead := hleads G hG
  rw [pt_enter hi ho] at hlead
  show Tr G t (.case l lhs) c.pt _
  rw [Tr]
  exact ⟨b, hb, jump_enter hi (hext₂.trans hG), hlead⟩

/-! ### Choices and loops -/

theorem lowers_if {e : Expr} {lhs rhs : Stmt} (hl : LowersStmt isEmpty defined w lhs)
    (hr : LowersStmt isEmpty defined w rhs) :
    LowersStmt isEmpty defined w (.if_ e lhs rhs) := by
  intro t c hi hw hready
  rw [Stmt.cases, Stmt.labels] at hready ⊢
  -- the blocks are `if_true`, `if_false` and `fi`
  let c₀ := newBlks ["if_true", "if_false", "fi"] c
  let c₁ := newBlockForScope isEmpty "scope_enter" c₀
  let c₂ := genTest (some e) c.nblks (c.nblks + 1) c₁
  let c₃ := genArm (genStmt isEmpty lhs) t c.nblks (c.nblks + 2) c₂
  let c₄ := genArm (genStmt isEmpty rhs) t (c.nblks + 1) (c.nblks + 2) c₃
  let c₅ := outCurrentBlk (c.nblks + 2) c₄
  let c₆ := newBlockForScope isEmpty "scope_leave" c₅
  have hgen : genStmt isEmpty (.if_ e lhs rhs) t c = c₆ := by
    rw [genStmt]
    rfl
  rw [hgen]
  have hwork₀ : Work defined t.caseBlk [] [] _ [c.nblks, c.nblks + 1, c.nblks + 2] c c₀ :=
    .start _ hi (by simp) fun b => by simp; omega
  have hg₁ := Grows.scope (P := fun _ => False) isEmpty "scope_enter" hwork₀.grows.inv
  have hwork₁ := hwork₀.step hg₁
  have hg₂ := Grows.test (P := fun _ => False) (some e) c.nblks (c.nblks + 1) hwork₁.grows.inv
  have hwork₂ := hwork₁.step hg₂
  obtain ⟨harml, hwork₃⟩ :=
    hwork₂.arm hl hw hready.left (currentBlk_genTest _ _ _ _) (c.nblks + 2)
  obtain ⟨harmr, hwork₄⟩ := hwork₃.arm hr hw hready harml.current (c.nblks + 2)
  have hwork₅ := hwork₄.current harmr.current
  have hg₆ := Grows.scope (P := fun _ => False) isEmpty "scope_leave" hwork₅.grows.inv
  refine ⟨(hwork₅.step hg₆).finish, fun G hG => ?_⟩
  have hG₄ := (Ext.current harmr.current _).trans (hg₆.ext.trans hG)
  have hG₃ := harmr.grows.ext.trans hG₄
  have hG₂ := harml.grows.ext.trans hG₃
  obtain ⟨ql, hql, hjl⟩ := harml.leads G hG₃
  obtain ⟨qr, hqr, hjr⟩ := harmr.leads G hG₄
  show Tr G t (.if_ e lhs rhs) c.pt c₆.pt
  rw [Tr, ← pt_newBlks ["if_true", "if_false", "fi"] hi]
  refine ⟨_, _, _, c₁.pt, ql, qr, ?_, ?_, hql, hjl, hqr, hjr, ?_⟩
  · exact scope_newBlockForScope isEmpty hwork₀.grows.inv (hg₂.ext.trans hG₂)
  · exact testAt_genTest hwork₁.grows.inv hG₂
  · rw [← hwork₄.pt_current]
    exact scope_newBlockForScope isEmpty hwork₅.grows.inv hG

theorem has_inLoop (t : Targets) (brk cont : Nat) :
    Within.Has ⟨true, true, w.switch⟩ (t.inLoop brk cont) :=
  ⟨fun _ => ⟨brk, rfl⟩, fun _ => ⟨cont, rfl⟩⟩

theorem lowers_while {e : Expr} {lhs : Stmt}
    (hl : LowersStmt isEmpty defined ⟨true, true, w.switch⟩ lhs) :
    LowersStmt isEmpty defined w (.while_ e lhs) := by
  intro t c hi _ hready
  rw [Stmt.cases, Stmt.labels] at hready ⊢
  -- the blocks are `while_body`, `while_cont` and `while_break`
  let c₀ := newBlks ["while_body", "while_cont", "while_break"] c
  let c₁ := outCtrlTransfer (c.nblks + 1) c₀
  let c₂ := outCurrentBlk (c.nblks + 1) c₁
  let c₃ := newBlockForScope isEmpty "scope_enter" c₂
  let c₄ := genTest (some e) c.nblks (c.nblks + 2) c₃
  let c₅ := genArm (genStmt isEmpty lhs) (t.inLoop (c.nblks + 2) (c.nblks + 1)) c.nblks
    (c.nblks + 1) c₄
  let c₆ := outCurrentBlk (c.nblks + 2) c₅
  let c₇ := newBlockForScope isEmpty "scope_leave" c₆
  have hgen : genStmt isEmpty (.while_ e lhs) t c = c₇ := by
    rw [genStmt]
    rfl
  rw [hgen]
  have hwork₀ : Work defined t.caseBlk [] [] _ [c.nblks + 1, c.nblks, c.nblks + 2] c c₀ :=
    .start _ hi (by simp) fun b => by simp; omega
  have hg₁ := Grows.transfer (P := fun _ => False) (c.nblks + 1) hwork₀.grows.inv
  have hwork₁ := hwork₀.step hg₁
  have hwork₂ := hwork₁.current (currentBlk_outCtrlTransfer _ _)
  have hg₃ := Grows.scope (P := fun _ => False) isEmpty "scope_enter" hwork₂.grows.inv
  have hwork₃ := hwork₂.step hg₃
  have hg₄ := Grows.test (P := fun _ => False) (some e) c.nblks (c.nblks + 2) hwork₃.grows.inv
  have hwork₄ := hwork₃.step hg₄
  obtain ⟨harm, hwork₅⟩ := hwork₄.arm (t := t.inLoop (c.nblks + 2) (c.nblks + 1)) hl
    (has_inLoop _ _ _) hready (currentBlk_genTest _ _ _ _) (c.nblks + 1)
  have hwork₆ := hwork₅.current harm.current
  have hg₇ := Grows.scope (P := fun _ => False) isEmpty "scope_leave" hwork₆.grows.inv
  refine ⟨(hwork₆.step hg₇).finish, fun G hG => ?_⟩
  have hG₅ := (Ext.current harm.current _).trans (hg₇.ext.trans hG)
  have hG₄ := harm.grows.ext.trans hG₅
  have hG₃ := hg₄.ext.trans hG₄
  have hG₁ := (Ext.current (currentBlk_outCtrlTransfer _ _) _).trans (hg₃.ext.trans hG₃)
  obtain ⟨q, hq, hj⟩ := harm.leads G hG₅
  show Tr G t (.while_ e lhs) c.pt c₇.pt
  rw [Tr, ← pt_newBlks ["while_body", "while_cont", "while_break"] hi]
  refine ⟨_, c.nblks + 1, _, c₃.pt, q, jump_transfer hwork₀.grows.inv hG₁, ?_, ?_, hq, hj, ?_⟩
  · rw [← hwork₁.pt_current]
    exact scope_newBlockForScope isEmpty hwork₂.grows.inv hG₃
  · exact testAt_genTest hwork₃.grows.inv hG₄
  · rw [← hwork₅.pt_current]
    exact scope_newBlockForScope isEmpty hwork₆.grows.inv hG

theorem lowers_do {e : Expr} {lhs : Stmt}
    (hl : LowersStmt isEmpty defined ⟨true, true, w.switch⟩ lhs) :
    LowersStmt isEmpty defined w (.do_ lhs e) := by
  intro t c hi _ hready
  rw [Stmt.cases, Stmt.labels] at hready ⊢
  -- the blocks are `do_begin`, `do_test` and `do_end`
  let c₀ := newBlks ["do_begin", "do_test", "do_end"] c
  let c₁ := outCtrlTransfer c.nblks c₀
  let c₂ := genArm (genStmt isEmpty lhs) (t.inLoop (c.nblks + 2) (c.nblks + 1)) c.nblks
    (c.nblks + 1) c₁
  let c₃ := outCurrentBlk (c.nblks + 1) c₂
  let c₄ := genTest (some e) c.nblks (c.nblks + 2) c₃
  let c₅ := outCurrentBlk (c.nblks + 2) c₄
  have hgen : genStmt isEmpty (.do_ lhs e) t c = c₅ := by
    rw [genStmt]
    rfl
  rw [hgen]
  have hwork₀ : Work defined t.caseBlk [] [] _ [c.nblks, c.nblks + 1, c.nblks + 2] c c₀ :=
    .start _ hi (by simp) fun b => by simp; omega
  have hg₁ := Grows.transfer (P := fun _ => False) c.nblks hwork₀.grows.inv
  have hwork₁ := hwork₀.step hg₁
  obtain ⟨harm, hwork₂⟩ := hwork₁.arm (t := t.inLoop (c.nblks + 2) (c.nblks + 1)) hl
    (has_inLoop _ _ _) hready (currentBlk_outCtrlTransfer _ _) (c.nblks + 1)
  have hwork₃ := hwork₂.current harm.current
  have hg₄ := Grows.test (P := fun _ => False) (some e) c.nblks (c.nblks + 2) hwork₃.grows.inv
  have hwork₄ := hwork₃.step hg₄
  have hwork₅ := hwork₄.current (currentBlk_genTest _ _ _ _)
  refine ⟨hwork₅.finish, fun G hG => ?_⟩
  have hG₄ := (Ext.current (currentBlk_genTest _ _ _ _) _).trans hG
  have hG₂ := (Ext.current harm.current _).trans (hg₄.ext.trans hG₄)
  have hG₁ := harm.grows.ext.trans hG₂
  obtain ⟨q, hq, hj⟩ := harm.leads G hG₂
  show Tr G t (.do_ lhs e) c.pt c₅.pt
  rw [Tr, ← pt_newBlks ["do_begin", "do_test", "do_end"] hi]
  refine ⟨_, c.nblks + 1, c.nblks + 2, q, jump_transfer hwork₀.grows.inv hG₁, hq, hj, ?_,
    hwork₄.pt_current⟩
  rw [← hwork₂.pt_current]
  exact testAt_genTest hwork₃.grows.inv hG₄

theorem lowers_for {init test inc : Option Expr} {lhs : Stmt}
    (hl : LowersStmt isEmpty defined ⟨true, true, w.switch⟩ lhs) :
    LowersStmt isEmpty defined w (.for_ init test inc lhs) := by
  intro t c hi _ hready
  rw [Stmt.cases, Stmt.labels] at hready ⊢
  -- the blocks are `for_test`, `for_body`, `for_end` and `for_inc`
  let c₀ := newBlks ["for_test", "for_body", "for_end", "for_inc"] c
  let c₁ := newBlockForScope isEmpty "scope_enter" c₀
  let c₂ := genOptional init c₁
  let c₃ := outCtrlTransfer c.nblks c₂
  let c₄ := outCurrentBlk c.nblks c₃
  let c₅ := genTest test (c.nblks + 1) (c.nblks + 2) c₄
  let c₆ := genArm (genStmt isEmpty lhs) (t.inLoop (c.nblks + 2) (c.nblks + 3)) (c.nblks + 1)
    (c.nblks + 3) c₅
  let c₇ := outCurrentBlk (c.nblks + 3) c₆
  let c₈ := genOptional inc c₇
  let c₉ := outCtrlTransfer c.nblks c₈
  let c₁₀ := outCurrentBlk (c.nblks + 2) c₉
  let c₁₁ := newBlockForScope isEmpty "scope_leave" c₁₀
  have hgen : genStmt isEmpty (.for_ init test inc lhs) t c = c₁₁ := by
    rw [genStmt]
    cases test <;> rfl
  rw [hgen]
  have hwork₀ : Work defined t.caseBlk [] [] _
      [c.nblks, c.nblks + 1, c.nblks + 3, c.nblks + 2] c c₀ :=
    .start _ hi (by simp) fun b => by simp; omega
  have hg₁ := Grows.scope (P := fun _ => False) isEmpty "scope_enter" hwork₀.grows.inv
  have hwork₁ := hwork₀.step hg₁
  have hg₂ := Grows.optional (P := fun _ => False) init hwork₁.grows.inv
  have hwork₂ := hwork₁.step hg₂
  have hg₃ := Grows.transfer (P := fun _ => False) c.nblks hwork₂.grows.inv
  have hwork₃ := hwork₂.step hg₃
  have hwork₄ := hwork₃.current (currentBlk_outCtrlTransfer _ _)
  have hg₅ := Grows.test (P := fun _ => False) test (c.nblks + 1) (c.nblks + 2) hwork₄.grows.inv
  have hwork₅ := hwork₄.step hg₅
  obtain ⟨harm, hwork₆⟩ := hwork₅.arm (t := t.inLoop (c.nblks + 2) (c.nblks + 3)) hl
    (has_inLoop _ _ _) hready (currentBlk_genTest _ _ _ _) (c.nblks + 3)
  have hwork₇ := hwork₆.current harm.current
  have hg₈ := Grows.optional (P := fun _ => False) inc hwork₇.grows.inv
  have hwork₈ := hwork₇.step hg₈
  have hg₉ := Grows.transfer (P := fun _ => False) c.nblks hwork₈.grows.inv
  have hwork₉ := hwork₈.step hg₉
  have hwork₁₀ := hwork₉.current (currentBlk_outCtrlTransfer _ _)
  have hg₁₁ := Grows.scope (P := fun _ => False) isEmpty "scope_leave" hwork₁₀.grows.inv
  refine ⟨(hwork₁₀.step hg₁₁).finish, fun G hG => ?_⟩
  have hG₉ := (Ext.current (currentBlk_outCtrlTransfer _ _) _).trans (hg₁₁.ext.trans hG)
  have hG₈ := hg₉.ext.trans hG₉
  have hG₆ := (Ext.current harm.current _).trans (hg₈.ext.trans hG₈)
  have hG₅ := harm.grows.ext.trans hG₆
  have hG₃ := (Ext.current (currentBlk_outCtrlTransfer _ _) _).trans (hg₅.ext.trans hG₅)
  have hG₂ := hg₃.ext.trans hG₃
  obtain ⟨q, hq, hj⟩ := harm.leads G hG₆
  show Tr G t (.for_ init test inc lhs) c.pt c₁₁.pt
  rw [Tr, ← pt_newBlks ["for_test", "for_body", "for_end", "for_inc"] hi]
  refine ⟨c.nblks, _, _, _, c₁.pt, c₂.pt, q, c₈.pt, ?_, ?_, jump_transfer hwork₂.grows.inv hG₃,
    ?_, hq, hj, ?_, jump_transfer hwork₈.grows.inv hG₉, ?_⟩
  · exact scope_newBlockForScope isEmpty hwork₀.grows.inv (hg₂.ext.trans hG₂)
  · exact evalOptional_genOptional hwork₁.grows.inv hG₂
  · rw [← hwork₃.pt_current]
    exact testAt_genTest hwork₄.grows.inv hG₅
  · rw [← hwork₆.pt_current]
    exact evalOptional_genOptional hwork₇.grows.inv hG₈
  · rw [← hwork₉.pt_current]
    exact scope_newBlockForScope isEmpty hwork₁₀.grows.inv hG

/-! ### Switches -/

section Switch

variable {c : OutCtx}

/-- The block `b` has been made for a case. -/
structure CaseMade (defined : List Nat) (e : Expr) (l : CaseLabel) (c : OutCtx) (b : Nat)
    (c' : OutCtx) : Prop where
  grows : Grows defined (· = b) c c'
  since : c.nblks ≤ b
  waits : Open c' b
  named : Named c' b
  leads : ∀ G, Ext c' G → CaseAt G e l c.pt b c'.pt

/-- The only block that is left open is that of the case. -/
theorem Work.caseMade {blks : CaseLabel → Option Nat} {N : Nat → Prop} {b : Nat} {e : Expr}
    {l : CaseLabel} {c' : OutCtx} (h : Work defined blks [] [] N [b] c c')
    (hleads : ∀ G, Ext c' G → CaseAt G e l c.pt b c'.pt) : CaseMade defined e l c b c' := by
  obtain ⟨hN, ho⟩ := h.waits b List.mem_cons_self
  exact ⟨h.rest.mono fun b' hb' => List.mem_singleton.mp hb', (h.news b hN).1, ho,
    (h.news b hN).2.2, hleads⟩

theorem genCase_value (e : Expr) (k : Int) (hi : Inv defined c) :
    CaseMade defined e (.value k) c (genCase e (.value k) c).1 (genCase e (.value k) c).2 := by
  -- the blocks are `case_next` and `case`
  let c₀ := newBlks ["case_next", "case"] c
  let c₁ := implBranch (.eq k e) (c.nblks + 1) c.nblks c₀
  let c₂ := outCurrentBlk c.nblks c₁
  have hgen : genCase e (.value k) c = (c.nblks + 1, c₂) := rfl
  rw [hgen]
  have hwork₀ : Work defined (fun _ => none) [] [] _ [c.nblks, c.nblks + 1] c c₀ :=
    .start _ hi (by simp) fun b => by simp; omega
  have hg₁ := Grows.branch (P := fun _ => False) (.eq k e) (c.nblks + 1) c.nblks hwork₀.grows.inv
  have hwork₁ := hwork₀.step hg₁
  refine (hwork₁.current (currentBlk_implBranch _ _ _ _)).caseMade fun G hG => ?_
  rw [CaseAt, ← pt_newBlks ["case_next", "case"] hi]
  exact ⟨c.nblks, branch_implBranch hwork₀.grows.inv
    ((Ext.current (currentBlk_implBranch _ _ _ _) _).trans hG), hwork₁.pt_current⟩

theorem genCase_range (e : Expr) (lo hi' : Int) (hi : Inv defined c) :
    CaseMade defined e (.range lo hi') c (genCase e (.range lo hi') c).1
      (genCase e (.range lo hi') c).2 := by
  -- the blocks are `case_next`, `case` and `range_true`
  let c₀ := newBlks ["case_next", "case", "range_true"] c
  let c₁ := implBranch (.lt e lo) c.nblks (c.nblks + 2) c₀
  let c₂ := outCurrentBlk (c.nblks + 2) c₁
  let c₃ := implBranch (.gt e hi') c.nblks (c.nblks + 1) c₂
  let c₄ := outCurrentBlk c.nblks c₃
  have hgen : genCase e (.range lo hi') c = (c.nblks + 1, c₄) := rfl
  rw [hgen]
  have hwork₀ : Work defined (fun _ => none) [] [] _ [c.nblks + 2, c.nblks, c.nblks + 1] c c₀ :=
    .start _ hi (by simp) fun b => by simp; omega
  have hg₁ := Grows.branch (P := fun _ => False) (.lt e lo) c.nblks (c.nblks + 2)
    hwork₀.grows.inv
  have hwork₁ := hwork₀.step hg₁
  have hwork₂ := hwork₁.current (currentBlk_implBranch _ _ _ _)
  have hg₃ := Grows.branch (P := fun _ => False) (.gt e hi') c.nblks (c.nblks + 1)
    hwork₂.grows.inv
  have hwork₃ := hwork₂.step hg₃
  refine (hwork₃.current (currentBlk_implBranch _ _ _ _)).caseMade fun G hG => ?_
  have hG₃ := (Ext.current (currentBlk_implBranch _ _ _ _) _).trans hG
  have hG₁ := (Ext.current (currentBlk_implBranch _ _ _ _) _).trans (hg₃.ext.trans hG₃)
  rw [CaseAt, ← pt_newBlks ["case_next", "case", "range_true"] hi]
  refine ⟨c.nblks, c.nblks + 2, branch_implBranch hwork₀.grows.inv hG₁, ?_, hwork₃.pt_current⟩
  rw [← hwork₁.pt_current]
  exact branch_implBranch hwork₂.grows.inv hG₃

/-- The blocks that have been made for the cases `ls`. -/
structure BlksMade (defined : List Nat) (ls : List CaseLabel) (blks : CaseLabel → Option Nat)
    (c c' : OutCtx) : Prop where
  grows : Grows defined (fun b => ∃ l ∈ ls, blks l = some b) c c'
  made : ∀ l ∈ ls, ∃ b, blks l = some b ∧ c.nblks ≤ b ∧ Open c' b ∧ Named c' b
  inj : ∀ l ∈ ls, ∀ l' ∈ ls, blks l = blks l' → l = l'

namespace BlksMade

variable {ls ls' : List CaseLabel} {blks blks' : CaseLabel → Option Nat} {c' c'' : OutCtx}

theorem nil (hi : Inv defined c) : BlksMade defined [] blks c c :=
  ⟨.refl hi, fun _ hl => (nomatch hl), fun _ hl => (nomatch hl)⟩

theorem single {l : CaseLabel} {b : Nat} (hg : Grows defined (· = b) c c') (hb : c.nblks ≤ b)
    (ho : Open c' b) (hn : Named c' b) (hl : blks l = some b) :
    BlksMade defined [l] blks c c' where
  grows := hg.mono fun b' hb' => ⟨l, List.mem_singleton_self l, hb' ▸ hl⟩
  made l' hl' := by
    rw [List.mem_singleton.mp hl']
    exact ⟨b, hl, hb, ho, hn⟩
  inj l₁ h₁ l₂ h₂ _ := (List.mem_singleton.mp h₁).trans (List.mem_singleton.mp h₂).symm

/-- Blocks that are made one after the other are different. -/
theorem append (h : BlksMade defined ls blks c c') (h' : BlksMade defined ls' blks c' c'') :
    BlksMade defined (ls ++ ls') blks c c'' := by
  have hbefore : ∀ l ∈ ls, ∀ l' ∈ ls', blks l ≠ blks l' := by
    intro l hl l' hl' heq
    obtain ⟨b, hb, _, ho, _⟩ := h.made l hl
    obtain ⟨b', hb', hsince, _⟩ := h'.made l' hl'
    obtain rfl : b = b' := Option.some.inj (hb.symm.trans (heq.trans hb'))
    exact absurd ho.made (by omega)
  refine ⟨.trans (h.grows.mono ?_) (h'.grows.mono ?_), fun l hl => ?_, fun l₁ h₁ l₂ h₂ heq => ?_⟩
  · rintro b ⟨l, hl, hb⟩
    exact ⟨l, List.mem_append_left _ hl, hb⟩
  · rintro b ⟨l, hl, hb⟩
    exact ⟨l, List.mem_append_right _ hl, hb⟩
  · rcases List.mem_append.mp hl with hl | hl
    · obtain ⟨b, hb, hsince, ho, hn⟩ := h.made l hl
      refine ⟨b, hb, hsince, h'.grows.keeps b ho ?_, h'.grows.ext.named ho.made hn⟩
      rintro ⟨l', hl', hb'⟩
      exact hbefore l hl l' hl' (hb.trans hb'.symm)
    · obtain ⟨b, hb, hsince, ho, hn⟩ := h'.made l hl
      exact ⟨b, hb, h.grows.ext.nblks.trans hsince, ho, hn⟩
  · rcases List.mem_append.mp h₁ with hm₁ | hm₁ <;> rcases List.mem_append.mp h₂ with hm₂ | hm₂
    · exact h.inj l₁ hm₁ l₂ hm₂ heq
    · exact absurd heq (hbefore l₁ hm₁ l₂ hm₂)
    · exact absurd heq.symm (hbefore l₂ hm₂ l₁ hm₁)
    · exact h'.inj l₁ hm₁ l₂ hm₂ heq

theorem congr (h : BlksMade defined ls blks c c') (hls : ∀ l, l ∈ ls' ↔ l ∈ ls)
    (hblks : ∀ l ∈ ls, blks' l = blks l) : BlksMade defined ls' blks' c c' where
  grows := by
    refine h.grows.mono ?_
    rintro b ⟨l, hl, hb⟩
    exact ⟨l, (hls l).mpr hl, (hblks l hl).trans hb⟩
  made l hl := by
    rw [hblks l ((hls l).mp hl)]
    exact h.made l ((hls l).mp hl)
  inj l hl l' hl' heq := by
    rw [hblks l ((hls l).mp hl), hblks l' ((hls l').mp hl')] at heq
    exact h.inj l ((hls l).mp hl) l' ((hls l').mp hl') heq

theorem step (h : BlksMade defined ls blks c c') (hg : Grows defined (fun _ => False) c' c'') :
    BlksMade defined ls blks c c'' := by
  have hnone : BlksMade defined [] blks c' c'' :=
    ⟨hg.mono fun _ hf => hf.elim, fun _ hl => (nomatch hl), fun _ hl => (nomatch hl)⟩
  simpa using h.append hnone

end BlksMade

theorem genCases_other (e : Expr) {l : CaseLabel} (ls : List CaseLabel)
    (blks : CaseLabel → Option Nat) (c : OutCtx) (hl : l ∉ ls) :
    (genCases e ls blks c).1 l = blks l := by
  induction ls generalizing blks c with
  | nil => rfl
  | cons l' ls ih =>
    rw [List.mem_cons, not_or] at hl
    let blks' := Function.update blks l' (some (genCase e l' c).1)
    have hgen : genCases e (l' :: ls) blks c = genCases e ls blks' (genCase e l' c).2 := rfl
    rw [hgen, ih _ _ hl.2]
    exact Function.update_of_ne hl.1 _ _

theorem genCase_made (e : Expr) {l : CaseLabel} (hl : l ≠ .default) (hi : Inv defined c) :
    CaseMade defined e l c (genCase e l c).1 (genCase e l c).2 := by
  cases l with
  | value k => exact genCase_value e k hi
  | range lo hi' => exact genCase_range e lo hi' hi
  | default => exact absurd rfl hl

theorem genCases_made (e : Expr) (ls : List CaseLabel) (blks : CaseLabel → Option Nat)
    (hi : Inv defined c) (hnodup : ls.Nodup) (hdefault : ∀ l ∈ ls, l ≠ .default) :
    BlksMade defined ls (genCases e ls blks c).1 c (genCases e ls blks c).2 ∧
      ∀ G, Ext (genCases e ls blks c).2 G →
        Chain G e (genCases e ls blks c).1 ls c.pt (genCases e ls blks c).2.pt := by
  induction ls generalizing blks c with
  | nil => exact ⟨.nil hi, fun G _ => rfl⟩
  | cons l ls ih =>
    rw [List.nodup_cons] at hnodup
    have hcase := genCase_made e (hdefault l List.mem_cons_self) hi
    let blks' := Function.update blks l (some (genCase e l c).1)
    have hgen : genCases e (l :: ls) blks c = genCases e ls blks' (genCase e l c).2 := rfl
    obtain ⟨hrest, hleads⟩ := ih blks' hcase.grows.inv hnodup.2 fun l' hl' =>
      hdefault l' (List.mem_cons_of_mem l hl')
    have hblk : (genCases e ls blks' (genCase e l c).2).1 l = some (genCase e l c).1 := by
      rw [genCases_other e ls blks' _ hnodup.1]
      exact Function.update_self _ _ _
    rw [hgen]
    refine ⟨.append (.single hcase.grows hcase.since hcase.waits hcase.named hblk) hrest,
      fun G hG => ?_⟩
    rw [Chain]
    exact ⟨_, _, hblk, hcase.leads G (hrest.grows.ext.trans hG), hleads G hG⟩

theorem Chain.congr {G : OutCtx} {e : Expr} {blks blks' : CaseLabel → Option Nat}
    {ls : List CaseLabel} {p q : Pt} (h : Chain G e blks ls p q)
    (hblks : ∀ l ∈ ls, blks' l = blks l) : Chain G e blks' ls p q := by
  induction ls generalizing p with
  | nil => exact h
  | cons l ls ih =>
    obtain ⟨b, p', hb, hcase, hrest⟩ := h
    exact ⟨b, p', (hblks l List.mem_cons_self).trans hb, hcase,
      ih hrest fun l' hl' => hblks l' (List.mem_cons_of_mem l hl')⟩

/-- The cases of a switch, with its `default`. -/
def genSwitchCases (e : Expr) (cases : List CaseLabel) (fin : Nat) (c : OutCtx) :
    (CaseLabel → Option Nat) × OutCtx :=
  let (blks, c) := genCases e (cases.filter (· ≠ .default)) (fun _ => none) c
  genDefault (cases.contains .default) fin blks c

theorem genSwitchCases_made (e : Expr) {cases : List CaseLabel} (fin : Nat)
    (hi : Inv defined c) (hnodup : cases.Nodup) :
    BlksMade defined cases (genSwitchCases e cases fin c).1 c (genSwitchCases e cases fin c).2 ∧
      (genSwitchCases e cases fin c).2.currentBlk = none ∧
      ∀ G, Ext (genSwitchCases e cases fin c).2 G →
        SwitchAt G e (genSwitchCases e cases fin c).1 cases fin c.pt := by
  let ls := cases.filter (· ≠ .default)
  have hne : ∀ l ∈ ls, l ≠ .default := fun l hl => by simpa using (List.mem_filter.mp hl).2
  obtain ⟨hmade, hleads⟩ := genCases_made e ls (fun _ => none) hi (hnodup.filter _) hne
  let blks := (genCases e ls (fun _ => none) c).1
  let c₁ := (genCases e ls (fun _ => none) c).2
  cases hdef : cases.contains .default with
  | false =>
    have hgen : genSwitchCases e cases fin c = (blks, outCtrlTransfer fin c₁) := by
      simp only [genSwitchCases, genDefault, hdef]
      rfl
    rw [hgen]
    have hjump := Grows.transfer (P := fun _ => False) fin hmade.grows.inv
    refine ⟨(hmade.congr (fun l => ?_) fun _ _ => rfl).step hjump, currentBlk_outCtrlTransfer _ _,
      fun G hG => ⟨_, fin, hleads G (hjump.ext.trans hG), jump_transfer hmade.grows.inv hG, ?_⟩⟩
    · refine ⟨fun hl => List.mem_filter.mpr ⟨hl, ?_⟩, fun hl => (List.mem_filter.mp hl).1⟩
      have hmem : l ≠ .default := by
        rintro rfl
        simp [hl] at hdef
      simpa using hmem
    · rw [if_neg (by rw [hdef]; exact Bool.false_ne_true)]
  | true =>
    let blks' := Function.update blks .default (some c₁.nblks)
    let c₂ := (outBlkNew (.named "default") c₁).2
    have hgen : genSwitchCases e cases fin c = (blks', outCtrlTransfer c₁.nblks c₂) := by
      simp only [genSwitchCases, genDefault, hdef]
      rfl
    rw [hgen]
    have hnew := Grows.new (P := (· = c₁.nblks)) (.named "default") hmade.grows.inv rfl
    have hjump := Grows.transfer (P := fun _ => False) c₁.nblks hnew.inv
    have hsame : ∀ l ∈ ls, blks' l = blks l := fun l hl => Function.update_of_ne (hne l hl) _ _
    have hdefault : BlksMade defined [.default] blks' c₁ c₂ :=
      .single hnew le_rfl ((open_outBlkNew hmade.grows.inv _ _).mpr (.inr rfl))
        (named_outBlkNew _ _) (Function.update_self _ _ _)
    have hall := ((hmade.congr (fun _ => Iff.rfl) hsame).append hdefault).step hjump
    refine ⟨hall.congr (fun l => ?_) fun _ _ => rfl, currentBlk_outCtrlTransfer _ _,
      fun G hG => ⟨_, c₁.nblks, (hleads G ?_).congr hsame, ?_, ?_⟩⟩
    · rw [List.mem_append, List.mem_singleton, List.mem_filter]
      have hmem : CaseLabel.default ∈ cases := by simpa using hdef
      by_cases hl : l = .default
      · simp [hl, hmem]
      · simp [hl]
    · exact hnew.ext.trans (hjump.ext.trans hG)
    · rw [← pt_outBlkNew hmade.grows.inv (.named "default")]
      exact jump_transfer hnew.inv hG
    · rw [if_pos hdef]
      simp [blks']

theorem has_inSwitch {t : Targets} (h : w.Has t) (fin : Nat) (blks : CaseLabel → Option Nat) :
    Within.Has ⟨true, w.loop, true⟩ (t.inSwitch fin blks) :=
  ⟨fun _ => ⟨fin, rfl⟩, h.blkContinue⟩

/-- The body of a switch is ready when the blocks of its cases have been made. -/
theorem BlksMade.ready {lhs : Stmt} {fin : Nat} {blks blks' : CaseLabel → Option Nat}
    {c₁ d : OutCtx} (hg : Grows defined (· = fin) c c₁) (hfin : c.nblks ≤ fin)
    (hnamed : Named c₁ fin) (hlt : fin < c₁.nblks)
    (h : BlksMade defined lhs.cases blks c₁ d)
    (hr : Ready defined blks' [] lhs.labels c) (hnodup : lhs.cases.Nodup) :
    Ready defined blks lhs.cases lhs.labels d := by
  have hall : Grows defined (fun b => b = fin ∨ ∃ l ∈ lhs.cases, blks l = some b) c d :=
    (hg.mono fun _ hb => .inl hb).trans (h.grows.mono fun _ hb => .inr hb)
  have hlabels := hr.grows hall fun b hown hb => by
    rcases hb with rfl | ⟨l, hl, hb⟩
    · exact hr.not_owns_new hall.inv hfin (h.grows.ext.named hlt hnamed) hown
    · obtain ⟨b', hb', hsince, _, hn⟩ := h.made l hl
      obtain rfl : b' = b := Option.some.inj (hb'.symm.trans hb)
      exact hr.not_owns_new hall.inv (hg.ext.nblks.trans hsince) hn hown
  refine ⟨fun l hl => ?_, h.inj, hnodup, hlabels.pending, hlabels.labelsNodup,
    hlabels.labelsDefined⟩
  obtain ⟨b, hb, _, ho, hn⟩ := h.made l hl
  exact ⟨b, hb, ho, hn⟩

theorem lowers_switch {e : Expr} {lhs : Stmt} (hapart : lhs.cases.Pairwise CaseLabel.Apart)
    (hl : LowersStmt isEmpty defined ⟨true, w.loop, true⟩ lhs) :
    LowersStmt isEmpty defined w (.switch e lhs) := by
  intro t c hi hw hready
  rw [Stmt.cases, Stmt.labels] at hready ⊢
  -- the block for the end is `switch_fin`
  let fin := c.nblks
  let c₀ := newBlks ["switch_fin"] c
  let c₁ := newBlockForScope isEmpty "scope_enter" c₀
  let c₂ := genExpr e c₁
  let blks := (genSwitchCases e lhs.cases fin c₂).1
  let d := (genSwitchCases e lhs.cases fin c₂).2
  let d₀ := newBlks ["switch_body"] d
  let d₁ := genArm (genStmt isEmpty lhs) (t.inSwitch fin blks) d.nblks fin d₀
  let d₂ := outCurrentBlk fin d₁
  let d₃ := newBlockForScope isEmpty "scope_leave" d₂
  have hgen : genStmt isEmpty (.switch e lhs) t c = d₃ := by
    rw [genStmt]
    rfl
  rw [hgen]
  have hnodup : lhs.cases.Nodup := hapart.imp fun h => h.1
  have hwork₀ : Work defined t.caseBlk [] [] _ [fin] c c₀ :=
    .start _ hi (by simp) fun b => by simp; omega
  have hg₁ := Grows.scope (P := fun _ => False) isEmpty "scope_enter" hwork₀.grows.inv
  have hwork₁ := hwork₀.step hg₁
  have hg₂ := Grows.expr (P := fun _ => False) e hwork₁.grows.inv
  have hwork₂ := hwork₁.step hg₂
  obtain ⟨hN, hfin⟩ := hwork₂.waits fin List.mem_cons_self
  obtain ⟨hmade, hcur, hleads⟩ := genSwitchCases_made e fin hwork₂.grows.inv hnodup
  have hfirst : Grows defined (· = fin) c c₂ :=
    hwork₂.rest.mono fun b hb => List.mem_singleton.mp hb
  have hreadyd := hmade.ready hfirst le_rfl (hwork₂.news fin hN).2.2 hfin.made hready hnodup
  -- the body, for which `switch_body` is made
  have hbody₀ : Work defined blks [] [] _ [d.nblks] d d₀ :=
    .start (c := d) _ hmade.grows.inv (by simp) fun b => by simp; omega
  obtain ⟨harm, hbody₁⟩ := hbody₀.arm (t := t.inSwitch fin blks) hl (has_inSwitch hw _ _)
    hreadyd ((currentBlk_newBlks _ _).trans hcur) fin
  obtain ⟨hgbody, hsettled⟩ := hbody₁.finish
  -- the end
  have hnot : ∀ {l}, l ∈ lhs.cases → blks l ≠ some fin := by
    intro l hl hb
    obtain ⟨b, hb', hsince, _⟩ := hmade.made l hl
    obtain rfl : b = fin := Option.some.inj (hb'.symm.trans hb)
    exact absurd hfin.made (Nat.not_lt.mpr hsince)
  have hfind : Open d fin := hmade.grows.keeps fin hfin fun ⟨l, hl, hb⟩ => hnot hl hb
  have hnamed : Named d₁ fin :=
    (hmade.grows.ext.trans hgbody.ext).named hfin.made (hwork₂.news fin hN).2.2
  have hfin₁ : Open d₁ fin := by
    refine hgbody.keeps fin hfind ?_
    rintro (⟨l, hl, hb⟩ | ⟨l, _, hb⟩)
    · exact hnot hl hb
    · obtain ⟨s, hs⟩ := hnamed
      cases (hgbody.inv.label l fin hb).2.1.symm.trans hs
  have hg₃ := Grows.current (P := (· = fin)) hgbody.inv harm.current hfin₁ rfl
  have hg₄ := Grows.scope (P := fun _ => False) isEmpty "scope_leave" hg₃.inv
  have hext := hg₃.ext.trans hg₄.ext
  have hall : Grows defined (fun b => Owns d₃ t.caseBlk [] lhs.labels b ∨
      (b = fin ∨ ∃ l ∈ lhs.cases, blks l = some b)) c d₃ := by
    refine (hfirst.mono fun _ hb => .inr (.inl hb)).trans
      (.trans (hmade.grows.mono fun _ hb => .inr (.inr hb)) (.trans (hgbody.mono ?_)
        (.trans (hg₃.mono fun _ hb => .inr (.inl hb)) (hg₄.mono fun _ hf => hf.elim))))
    rintro b (hcase | ⟨l, hl, hb⟩)
    · exact .inr (.inr hcase)
    · exact .inl (.inr ⟨l, hl, hext.label l b hb⟩)
  have hsettled₃ := hsettled.ext hext
  refine ⟨⟨hall.discard ?_, ?_, hsettled₃.bound⟩, fun G hG => ?_⟩
  · rintro b (rfl | ⟨l, hl, hb⟩)
    · exact ⟨le_rfl, hext.named hfin₁.made hnamed,
        hg₄.ext.not_open hfin₁.made fun ho => ho.waits rfl⟩
    · obtain ⟨b', hb', hsince, ho, hn⟩ := hmade.made l hl
      obtain rfl : b' = b := Option.some.inj (hb'.symm.trans hb)
      exact ⟨hfirst.ext.nblks.trans hsince, (hgbody.ext.trans hext).named ho.made hn,
        (hsettled₃.filled b' (.inl ⟨l, hl, hb⟩)).2⟩
  · rintro b (⟨l, hl, _⟩ | hlabel)
    · cases hl
    · exact hsettled₃.filled b (.inr hlabel)
  · have hG₁ := hext.trans hG
    have hGd := hgbody.ext.trans hG₁
    obtain ⟨q, hq, hj⟩ := harm.leads G hG₁
    have hG₂ := hmade.grows.ext.trans hGd
    show Tr G t (.switch e lhs) c.pt d₃.pt
    rw [Tr, ← pt_newBlks ["switch_fin"] hi]
    refine ⟨hapart, fin, _, blks, c₁.pt, c₂.pt, q, ?_, ?_, hleads G hGd, hq, hj, ?_⟩
    · exact scope_newBlockForScope isEmpty hwork₀.grows.inv (hg₂.ext.trans hG₂)
    · exact evalAt_genExpr hwork₁.grows.inv hG₂
    · rw [← pt_outCurrentBlk hgbody.inv hfin₁]
      exact scope_newBlockForScope isEmpty hg₃.inv hG

end Switch

/-! ## All statements -/

mutual
/-- Every statement that has been checked leads to where it should. -/
theorem lowers_genStmt (s : Stmt) (w : Within) (h : s.Checked defined w) :
    LowersStmt isEmpty defined w s := by
  cases s with
  | expr e => exact lowers_expr isEmpty e
  | noop => exact lowers_noop isEmpty
  | code stmts =>
    rw [Stmt.Checked] at h
    exact lowers_code isEmpty (lowers_genStmts stmts w h)
  | if_ e lhs rhs =>
    rw [Stmt.Checked] at h
    exact lowers_if isEmpty (lowers_genStmt lhs w h.1) (lowers_genStmt rhs w h.2)
  | while_ e lhs =>
    rw [Stmt.Checked] at h
    exact lowers_while isEmpty (lowers_genStmt lhs _ h)
  | do_ lhs e =>
    rw [Stmt.Checked] at h
    exact lowers_do isEmpty (lowers_genStmt lhs _ h)
  | for_ init test inc lhs =>
    rw [Stmt.Checked] at h
    exact lowers_for isEmpty (lowers_genStmt lhs _ h)
  | switch e lhs =>
    rw [Stmt.Checked] at h
    exact lowers_switch isEmpty h.1 (lowers_genStmt lhs _ h.2)
  | case l lhs =>
    rw [Stmt.Checked] at h
    exact lowers_case isEmpty (lowers_genStmt lhs w h.2)
  | break_ =>
    rw [Stmt.Checked] at h
    exact lowers_break isEmpty h
  | continue_ =>
    rw [Stmt.Checked] at h
    exact lowers_continue isEmpty h
  | goto lbl =>
    rw [Stmt.Checked] at h
    exact lowers_goto isEmpty h
  | label lbl lhs =>
    rw [Stmt.Checked] at h
    exact lowers_label isEmpty (lowers_genStmt lhs w h)
  | return_ e => exact lowers_return isEmpty e
theorem lowers_genStmts (stmts : List Stmt) (w : Within) (h : CheckedAll defined w stmts) :
    LowersStmts isEmpty defined w stmts := by
  cases stmts with
  | nil => exact lowers_nil isEmpty
  | cons s stmts =>
    rw [CheckedAll] at h
    exact lowers_cons isEmpty (lowers_genStmt s w h.1) (lowers_genStmts stmts w h.2)
end

end Kinds

/-! ## Whole functions -/

mutual
/-- Cases stand in switches only. -/
theorem cases_eq_nil {defined : List Nat} (s : Stmt) (w : Within) (h : s.Checked defined w)
    (hw : w.switch = false) : s.cases = [] := by
  cases s with
  | expr _ | noop | break_ | continue_ | goto _ | return_ _ | switch _ _ => rfl
  | code stmts =>
    rw [Stmt.Checked] at h
    exact casesOf_eq_nil stmts w h hw
  | if_ e lhs rhs =>
    rw [Stmt.Checked] at h
    rw [Stmt.cases, cases_eq_nil lhs w h.1 hw, cases_eq_nil rhs w h.2 hw, List.append_nil]
  | while_ _ lhs | do_ lhs _ | for_ _ _ _ lhs | label _ lhs =>
    rw [Stmt.Checked] at h
    exact cases_eq_nil lhs _ h hw
  | case l lhs =>
    rw [Stmt.Checked] at h
    cases hw.symm.trans h.1
theorem casesOf_eq_nil {defined : List Nat} (stmts : List Stmt) (w : Within)
    (h : CheckedAll defined w stmts) (hw : w.switch = false) : casesOf stmts = [] := by
  cases stmts with
  | nil => rfl
  | cons s stmts =>
    rw [CheckedAll] at h
    rw [casesOf, cases_eq_nil s w h.1 hw, casesOf_eq_nil stmts w h.2 hw, List.append_nil]
end

section Func

variable (isEmpty : OutCtx → Nat → Bool)

theorem open_init (b : Nat) : Open .init b ↔ b = 1 := by
  constructor
  · intro ho
    have hmade : b < 2 := ho.made
    have hne : b ≠ 0 := by
      rintro rfl
      exact ho.waits rfl
    omega
  · rintro rfl
    exact ⟨Nat.lt_succ_self 1, rfl, by simp [OutCtx.init]⟩

theorem inv_init (defined : List Nat) : Inv defined .init where
  ok := rfl
  current b hb := by
    obtain rfl : 0 = b := Option.some.inj hb
    exact ⟨Nat.zero_lt_two, rfl⟩
  empty _ _ := rfl
  label _ _ hl := nomatch hl

theorem ready_init (labels : List Nat) (h : labels.Nodup) :
    Ready labels noTargets.caseBlk [] labels .init where
  caseOpen _ hl := nomatch hl
  caseInj _ hl := nomatch hl
  casesNodup := .nil
  pending _ _ _ hl := nomatch hl
  labelsNodup := h
  labelsDefined _ hl := hl

theorem outFuncEpilogue_eq {defined : List Nat} {c : OutCtx} (hi : Inv defined c) :
    outFuncEpilogue c = terminate .terminal
      (outCurrentBlk c.epilogueBlk (outCtrlTransfer c.epilogueBlk c)) := by
  have hep : (outCtrlTransfer c.epilogueBlk c).epilogueBlk = c.epilogueBlk :=
    (Grows.transfer (P := fun _ => False) c.epilogueBlk hi).ext.epilogue
  cases h : c.currentBlk with
  | none =>
    have hsame : outCtrlTransfer c.epilogueBlk c = c := terminate_none h
    rw [outFuncEpilogue, hsame]
    simp only [h]
  | some b =>
    rw [outFuncEpilogue]
    simp only [h, (hi.current b h).2, if_true, hep]

/-- What the finished blocks of a function are. -/
structure Finished (body : Stmt) (G : OutCtx) : Prop where
  ok : G.ok = true
  ended : ∀ b < G.nblks, (G.blk b).type ≠ .uninit
  leads : ∃ q, Tr G noTargets body (some (0, 0)) q ∧ Jump G q G.epilogueBlk
  epilogue : EndsAt G .terminal (some (G.epilogueBlk, 0))
  label : ∀ l b, G.labelToBlk l = some b → l ∈ body.labels

theorem finished_genFunc (f : Function) : Finished f.body (genFunc isEmpty f.body) := by
  have hcases := cases_eq_nil f.body _ f.checked rfl
  have hlow := lowers_genStmt isEmpty f.body _ f.checked
  rw [LowersStmt, hcases] at hlow
  have hi := inv_init f.body.labels
  have hr := ready_init f.body.labels f.nodup
  obtain ⟨⟨hg, hs⟩, hleads⟩ := hlow noTargets .init hi ⟨nofun, nofun⟩ hr
  let c := genStmt isEmpty f.body noTargets .init
  have hep : c.epilogueBlk = 1 := hg.ext.epilogue
  have hone : Named c 1 := hg.ext.named (Nat.lt_succ_self 1) ⟨_, rfl⟩
  have hopen : Open c 1 := by
    refine hg.keeps 1 ((open_init 1).mpr rfl) ?_
    rintro (⟨l, hl, _⟩ | ⟨l, _, hb⟩)
    · cases hl
    · obtain ⟨d, hd⟩ := hone
      cases (hg.inv.label l 1 hb).2.1.symm.trans hd
  have hG : genFunc isEmpty f.body
      = terminate .terminal (outCurrentBlk 1 (outCtrlTransfer 1 c)) := by
    have heq := outFuncEpilogue_eq hg.inv
    rw [hep] at heq
    exact heq
  have hg₁ := Grows.transfer (P := (· = 1)) 1 hg.inv
  have hopen₁ := (Grows.transfer (P := fun _ => False) 1 hg.inv).keeps 1 hopen id
  have hg₂ := Grows.current (P := (· = 1)) hg₁.inv (currentBlk_outCtrlTransfer _ _) hopen₁ rfl
  have hg₃ : Grows f.body.labels (· = 1) _ (terminate .terminal _) :=
    .terminate BlkType.noConfusion hg₂.inv
  have hgrow := hg₁.trans (hg₂.trans hg₃)
  have hall : Grows f.body.labels
      (fun b => Owns c noTargets.caseBlk [] f.body.labels b ∨ b = 1) .init _ :=
    (hg.mono fun _ hb => .inl hb).trans (hgrow.mono fun _ hb => .inr hb)
  have hs' := hs.ext hgrow.ext
  have hclosed : ¬Open (terminate .terminal (outCurrentBlk 1 (outCtrlTransfer 1 c))) 1 :=
    hg₃.ext.not_open hopen₁.made fun ho => ho.waits rfl
  rw [hG]
  refine ⟨hall.inv.ok, fun b hb ht => ?_, ?_, ?_, fun l b hl => (hall.inv.label l b hl).2.2⟩
  · -- a block without an end would still be open
    have ho : Open (terminate .terminal (outCurrentBlk 1 (outCtrlTransfer 1 c))) b :=
      ⟨hb, ht, by simp⟩
    by_cases hold : b < 2
    · obtain rfl := (open_init b).mp (hall.ext.closed b hold ho)
      exact hclosed ho
    · rcases hall.fresh b ho (Nat.not_lt.mp hold) with (hown | rfl) | ⟨l, hl⟩
      · exact (hs'.filled b (hown.imp hgrow.ext (fun _ h => h) fun _ h => h)).2 ho
      · exact hclosed ho
      · exact (hs'.filled b (.inr ⟨l, (hall.inv.label l b hl).2.2, hl⟩)).2 ho
  · refine ⟨c.pt, hleads _ hgrow.ext, ?_⟩
    rw [hall.ext.epilogue]
    exact jump_transfer hg.inv (hg₂.ext.trans hg₃.ext)
  · have hends := endsAt_terminate BlkType.noConfusion hg₂.inv
      (Ext.refl (terminate .terminal (outCurrentBlk 1 (outCtrlTransfer 1 c))))
    rw [pt_outCurrentBlk hg₁.inv hopen₁] at hends
    rw [hall.ext.epilogue]
    exact hends

end Func

end Ucc.Cc1.Flow
