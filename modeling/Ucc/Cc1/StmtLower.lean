/-
  Cc1/StmtLower.lean --- what the blocks of a statement say.

  `Tr` says from where to where a statement leads in the finished blocks; it is
  proved of what `genStmt` makes together with which open blocks the statement fills
  (`Lowers`).  Statements are put together from the same parts: making blocks, a
  test, an arm that starts in an open block and ends with a jump.  `Work` keeps the
  account of a statement of which some parts are done.
-/
import Ucc.Cc1.StmtGraph

set_option autoImplicit false

namespace Ucc.Cc1.Flow

/-! ## Where statements lead -/

/-- The blocks for the body of a loop. -/
def Targets.inLoop (t : Targets) (brk cont : Nat) : Targets :=
  { t with blkBreak := some brk, blkContinue := some cont }

/-- The blocks for the body of a switch. -/
def Targets.inSwitch (t : Targets) (fin : Nat) (blks : CaseLabel → Option Nat) : Targets :=
  { t with blkBreak := some fin, caseBlk := blks }

/-- At `p`, the value of an expression decides between two blocks; without an
expression it is the first. -/
def TestAt (G : OutCtx) : Option Expr → Pt → Nat → Nat → Prop
  | some e, p, ifTrue, ifFalse => ∃ q, EvalAt G e p q ∧ Branch G (.truth e) q ifTrue ifFalse
  | none, p, ifTrue, _ => Jump G p ifTrue

/-- At `p`, a value that belongs to the case leads to the block `b`, any other to `q`. -/
def CaseAt (G : OutCtx) (e : Expr) : CaseLabel → Pt → Nat → Pt → Prop
  | .value k, p, b, q => ∃ next, Branch G (.eq k e) p b next ∧ q = some (next, 0)
  | .range lo hi, p, b, q => ∃ next test2, Branch G (.lt e lo) p next test2 ∧
      Branch G (.gt e hi) (some (test2, 0)) next b ∧ q = some (next, 0)
  | .default, _, _, _ => False

/-- From `p` on, a value is compared with one case after the other; one that belongs
to none of them leads to `q`. -/
def Chain (G : OutCtx) (e : Expr) (blks : CaseLabel → Option Nat) :
    List CaseLabel → Pt → Pt → Prop
  | [], p, q => q = p
  | l :: ls, p, q => ∃ b p', blks l = some b ∧ CaseAt G e l p b p' ∧ Chain G e blks ls p' q

/-- From `p` on, a value leads to the block of its case, to that of `default` or to the
end of the switch. -/
def SwitchAt (G : OutCtx) (e : Expr) (blks : CaseLabel → Option Nat) (cases : List CaseLabel)
    (fin : Nat) (p : Pt) : Prop :=
  ∃ q other, Chain G e blks (cases.filter (· ≠ .default)) p q ∧ Jump G q other ∧
    if cases.contains .default then blks .default = some other else other = fin

mutual
/-- A statement whose start is `p` has its end at `q`. -/
def Tr (G : OutCtx) : Targets → Stmt → Pt → Pt → Prop
  | _, .expr e, p, q => EvalAt G e p q
  | _, .noop, p, q => q = p
  | t, .code stmts, p, q => ∃ p' q', Scope G p p' ∧ TrAll G t stmts p' q' ∧ Scope G q' q
  | t, .if_ e lhs rhs, p, q => ∃ ifTrue ifFalse fi p' ql qr,
      Scope G p p' ∧ TestAt G (some e) p' ifTrue ifFalse ∧
      Tr G t lhs (some (ifTrue, 0)) ql ∧ Jump G ql fi ∧
      Tr G t rhs (some (ifFalse, 0)) qr ∧ Jump G qr fi ∧
      Scope G (some (fi, 0)) q
  | t, .while_ e lhs, p, q => ∃ body cont brk p' q',
      Jump G p cont ∧ Scope G (some (cont, 0)) p' ∧ TestAt G (some e) p' body brk ∧
      Tr G (t.inLoop brk cont) lhs (some (body, 0)) q' ∧ Jump G q' cont ∧
      Scope G (some (brk, 0)) q
  | t, .do_ lhs e, p, q => ∃ start cont brk q',
      Jump G p start ∧ Tr G (t.inLoop brk cont) lhs (some (start, 0)) q' ∧ Jump G q' cont ∧
      TestAt G (some e) (some (cont, 0)) start brk ∧ q = some (brk, 0)
  | t, .for_ init test inc lhs, p, q => ∃ tst body fin next p' p'' q' q'',
      Scope G p p' ∧ EvalOptional G init p' p'' ∧ Jump G p'' tst ∧
      TestAt G test (some (tst, 0)) body fin ∧
      Tr G (t.inLoop fin next) lhs (some (body, 0)) q' ∧ Jump G q' next ∧
      EvalOptional G inc (some (next, 0)) q'' ∧ Jump G q'' tst ∧
      Scope G (some (fin, 0)) q
  | t, .switch e lhs, p, q => lhs.cases.Pairwise CaseLabel.Apart ∧ ∃ fin body blks p' p'' q',
      Scope G p p' ∧ EvalAt G e p' p'' ∧ SwitchAt G e blks lhs.cases fin p'' ∧
      Tr G (t.inSwitch fin blks) lhs (some (body, 0)) q' ∧ Jump G q' fin ∧
      Scope G (some (fin, 0)) q
  | t, .case l lhs, p, q =>
      ∃ b, t.caseBlk l = some b ∧ Jump G p b ∧ Tr G t lhs (some (b, 0)) q
  | t, .break_, p, q => q = none ∧ ∃ b, t.blkBreak = some b ∧ Jump G p b
  | t, .continue_, p, q => q = none ∧ ∃ b, t.blkContinue = some b ∧ Jump G p b
  | _, .goto lbl, p, q => q = none ∧ ∃ b, G.labelToBlk lbl = some b ∧ Jump G p b
  | t, .label lbl lhs, p, q =>
      ∃ b, G.labelToBlk lbl = some b ∧ Jump G p b ∧ Tr G t lhs (some (b, 0)) q
  | _, .return_ e, p, q => q = none ∧ ∃ p', EvalOptional G e p p' ∧ Jump G p' G.epilogueBlk
/-- The same of the statements of a block. -/
def TrAll (G : OutCtx) : Targets → List Stmt → Pt → Pt → Prop
  | _, [], p, q => q = p
  | t, s :: stmts, p, q => ∃ p', Tr G t s p p' ∧ TrAll G t stmts p' q
end

/-! ## The blocks of a statement -/

/-- The blocks of the given cases and labels. -/
def Owns (c : OutCtx) (blks : CaseLabel → Option Nat) (cases : List CaseLabel)
    (labels : List Nat) (b : Nat) : Prop :=
  (∃ l ∈ cases, blks l = some b) ∨ ∃ l ∈ labels, c.labelToBlk l = some b

/-- What is needed to generate a statement with the given cases and labels. -/
structure Ready (defined : List Nat) (blks : CaseLabel → Option Nat) (cases : List CaseLabel)
    (labels : List Nat) (c : OutCtx) : Prop where
  caseOpen : ∀ l ∈ cases, ∃ b, blks l = some b ∧ Open c b ∧ Named c b
  caseInj : ∀ l ∈ cases, ∀ l' ∈ cases, blks l = blks l' → l = l'
  casesNodup : cases.Nodup
  pending : ∀ l ∈ labels, ∀ b, c.labelToBlk l = some b → Open c b
  labelsNodup : labels.Nodup
  labelsDefined : ∀ l ∈ labels, l ∈ defined

/-- The blocks of the given cases and labels are there and no longer open. -/
structure Settled (blks : CaseLabel → Option Nat) (cases : List CaseLabel) (labels : List Nat)
    (c : OutCtx) : Prop where
  filled : ∀ b, Owns c blks cases labels b → b < c.nblks ∧ ¬Open c b
  bound : ∀ l ∈ labels, ∃ b, c.labelToBlk l = some b

section Owning

variable {defined : List Nat} {P N : Nat → Prop} {blks : CaseLabel → Option Nat} {c c' : OutCtx}
  {cases cases' : List CaseLabel} {labels labels' : List Nat}

theorem Owns.imp {b : Nat} (h : Owns c blks cases labels b) (he : Ext c c')
    (hc : ∀ l ∈ cases, l ∈ cases') (hl : ∀ l ∈ labels, l ∈ labels') :
    Owns c' blks cases' labels' b := by
  rcases h with ⟨l, hmem, hb⟩ | ⟨l, hmem, hb⟩
  · exact .inl ⟨l, hc l hmem, hb⟩
  · exact .inr ⟨l, hl l hmem, he.label l b hb⟩

theorem Settled.ext (h : Settled blks cases labels c) (he : Ext c c') :
    Settled blks cases labels c' where
  filled b hb := by
    have hb' : Owns c blks cases labels b := by
      rcases hb with hcase | ⟨l, hmem, hl⟩
      · exact .inl hcase
      · obtain ⟨b', hb'⟩ := h.bound l hmem
        obtain rfl : b' = b := Option.some.inj ((he.label l b' hb').symm.trans hl)
        exact .inr ⟨l, hmem, hb'⟩
    obtain ⟨hmade, hclosed⟩ := h.filled b hb'
    exact ⟨hmade.trans_le he.nblks, he.not_open hmade hclosed⟩
  bound l hmem := by
    obtain ⟨b, hb⟩ := h.bound l hmem
    exact ⟨b, he.label l b hb⟩

theorem Settled.append (h : Settled blks cases labels c) (h' : Settled blks cases' labels' c) :
    Settled blks (cases ++ cases') (labels ++ labels') c where
  filled b hb := by
    rcases hb with ⟨l, hmem, hl⟩ | ⟨l, hmem, hl⟩
    · rcases List.mem_append.mp hmem with hm | hm
      · exact h.filled b (.inl ⟨l, hm, hl⟩)
      · exact h'.filled b (.inl ⟨l, hm, hl⟩)
    · rcases List.mem_append.mp hmem with hm | hm
      · exact h.filled b (.inr ⟨l, hm, hl⟩)
      · exact h'.filled b (.inr ⟨l, hm, hl⟩)
  bound l hmem := by
    rcases List.mem_append.mp hmem with hm | hm
    · exact h.bound l hm
    · exact h'.bound l hm

theorem Settled.nil : Settled blks [] [] c := by
  refine ⟨fun b hb => ?_, fun l hl => (nomatch hl)⟩
  rcases hb with ⟨l, hl, _⟩ | ⟨l, hl, _⟩ <;> cases hl

theorem Ready.left (h : Ready defined blks (cases ++ cases') (labels ++ labels') c) :
    Ready defined blks cases labels c where
  caseOpen l hl := h.caseOpen l (List.mem_append_left _ hl)
  caseInj l hl l' hl' := h.caseInj l (List.mem_append_left _ hl) l' (List.mem_append_left _ hl')
  casesNodup := h.casesNodup.of_append_left
  pending l hl := h.pending l (List.mem_append_left _ hl)
  labelsNodup := h.labelsNodup.of_append_left
  labelsDefined l hl := h.labelsDefined l (List.mem_append_left _ hl)

theorem Ready.tail (h : Ready defined blks (cases ++ cases') (labels ++ labels') c) :
    Ready defined blks cases' labels' c where
  caseOpen l hl := h.caseOpen l (List.mem_append_right _ hl)
  caseInj l hl l' hl' := h.caseInj l (List.mem_append_right _ hl) l' (List.mem_append_right _ hl')
  casesNodup := h.casesNodup.of_append_right
  pending l hl := h.pending l (List.mem_append_right _ hl)
  labelsNodup := h.labelsNodup.of_append_right
  labelsDefined l hl := h.labelsDefined l (List.mem_append_right _ hl)

/-- A statement is still to be generated after blocks have been filled that are not
its own. -/
theorem Ready.grows (h : Ready defined blks cases labels c) (hg : Grows defined P c c')
    (hP : ∀ b, Owns c' blks cases labels b → ¬P b) : Ready defined blks cases labels c' where
  caseOpen l hl := by
    obtain ⟨b, hb, ho, hn⟩ := h.caseOpen l hl
    exact ⟨b, hb, hg.keeps b ho (hP b (.inl ⟨l, hl, hb⟩)), hg.ext.named ho.made hn⟩
  caseInj := h.caseInj
  casesNodup := h.casesNodup
  pending l hl b hb := by
    have hP' := hP b (.inr ⟨l, hl, hb⟩)
    rcases hg.labels l b hb with hb' | hPb | ho
    · exact hg.keeps b (h.pending l hl b hb') hP'
    · exact absurd hPb hP'
    · exact ho
  labelsNodup := h.labelsNodup
  labelsDefined := h.labelsDefined

/-- No block belongs to two statements. -/
theorem Ready.disjoint (h : Ready defined blks (cases ++ cases') (labels ++ labels') c)
    (he : Ext c c') (hi : Inv defined c') {b : Nat} (hb : Owns c' blks cases labels b) :
    ¬Owns c' blks cases' labels' b := by
  have hcases := List.disjoint_of_nodup_append h.casesNodup
  have hlabels := List.disjoint_of_nodup_append h.labelsNodup
  have hnamed : ∀ l ∈ cases ++ cases', blks l = some b → Named c' b := by
    intro l hl hlb
    obtain ⟨b', hb', ho, hn⟩ := h.caseOpen l hl
    obtain rfl : b' = b := Option.some.inj (hb'.symm.trans hlb)
    exact he.named ho.made hn
  rintro (⟨l', hmem', hl'⟩ | ⟨l', hmem', hl'⟩)
  · rcases hb with ⟨l, hmem, hl⟩ | ⟨l, hmem, hl⟩
    · have heq := h.caseInj l (List.mem_append_left _ hmem) l' (List.mem_append_right _ hmem')
        (hl.trans hl'.symm)
      subst heq
      exact hcases hmem hmem'
    · obtain ⟨d, hd⟩ := hnamed l' (List.mem_append_right _ hmem') hl'
      cases (hi.label l b hl).2.1.symm.trans hd
  · rcases hb with ⟨l, hmem, hl⟩ | ⟨l, hmem, hl⟩
    · obtain ⟨d, hd⟩ := hnamed l (List.mem_append_left _ hmem) hl
      cases (hi.label l' b hl').2.1.symm.trans hd
    · have hdesc := (hi.label l b hl).2.1.symm.trans (hi.label l' b hl').2.1
      cases hdesc
      exact hlabels hmem hmem'

/-- A new block is not one of a statement that is to be generated. -/
theorem Ready.not_owns_new (h : Ready defined blks cases labels c) (hi : Inv defined c') {b : Nat}
    (hb : c.nblks ≤ b) (hn : Named c' b) : ¬Owns c' blks cases labels b := by
  rintro (⟨l, hmem, hl⟩ | ⟨l, _, hl⟩)
  · obtain ⟨b', hb', ho, _⟩ := h.caseOpen l hmem
    obtain rfl : b' = b := Option.some.inj (hb'.symm.trans hl)
    exact absurd ho.made (by omega)
  · obtain ⟨d, hd⟩ := hn
    cases (hi.label l b hl).2.1.symm.trans hd

/-- The second part of a statement is still to be generated after the first. -/
theorem Ready.right (h : Ready defined blks (cases ++ cases') (labels ++ labels') c)
    (hg : Grows defined (fun b => Owns c' blks cases labels b ∨ N b) c c')
    (hN : ∀ b, N b → c.nblks ≤ b ∧ Named c' b) : Ready defined blks cases' labels' c' := by
  refine h.tail.grows hg fun b hb => ?_
  rintro (hown | hnew)
  · exact h.disjoint hg.ext hg.inv hown hb
  · exact h.tail.not_owns_new hg.inv (hN b hnew).1 (hN b hnew).2 hb

theorem Ready.perm (h : Ready defined blks cases labels c) (hp : cases.Perm cases') :
    Ready defined blks cases' labels c where
  caseOpen l hl := h.caseOpen l (hp.mem_iff.mpr hl)
  caseInj l hl l' hl' := h.caseInj l (hp.mem_iff.mpr hl) l' (hp.mem_iff.mpr hl')
  casesNodup := hp.nodup_iff.mp h.casesNodup
  pending := h.pending
  labelsNodup := h.labelsNodup
  labelsDefined := h.labelsDefined

theorem Owns.perm (hp : cases.Perm cases') (b : Nat) :
    Owns c blks cases labels b ↔ Owns c blks cases' labels b := by
  simp only [Owns, hp.mem_iff]

end Owning

/-! ## The parts of a statement -/

section Parts

variable {defined : List Nat} {P : Nat → Prop} {c : OutCtx}

/-- Blocks made one after the other. -/
def newBlks : List String → OutCtx → OutCtx
  | [], c => c
  | d :: ds, c => newBlks ds (outBlkNew (.named d) c).2

theorem currentBlk_newBlks (ds : List String) (c : OutCtx) :
    (newBlks ds c).currentBlk = c.currentBlk := by
  induction ds generalizing c with
  | nil => rfl
  | cons d ds ih => exact ih _

theorem Grows.news (ds : List String) (hi : Inv defined c)
    (hP : ∀ b, c.nblks ≤ b → b < c.nblks + ds.length → P b) :
    Grows defined P c (newBlks ds c) := by
  induction ds generalizing c with
  | nil => exact .refl hi
  | cons d ds ih =>
    rw [List.length_cons] at hP
    have hnew := Grows.new (P := P) (.named d) hi (hP _ le_rfl (by omega))
    have hn : (outBlkNew (.named d) c).2.nblks = c.nblks + 1 := rfl
    exact hnew.trans (ih hnew.inv fun b hb hb' => hP b (by omega) (by omega))

theorem pt_newBlks (ds : List String) (hi : Inv defined c) : (newBlks ds c).pt = c.pt := by
  induction ds generalizing c with
  | nil => rfl
  | cons d ds ih =>
    rw [newBlks, ih (hi.outBlkNew _)]
    exact pt_outBlkNew hi _

theorem open_newBlks (ds : List String) (hi : Inv defined c) {b : Nat} (hb : c.nblks ≤ b)
    (hb' : b < c.nblks + ds.length) : Open (newBlks ds c) b ∧ Named (newBlks ds c) b := by
  induction ds generalizing c with
  | nil => simp at hb'; omega
  | cons d ds ih =>
    rw [List.length_cons] at hb'
    have hn : (outBlkNew (.named d) c).2.nblks = c.nblks + 1 := rfl
    by_cases heq : b = c.nblks
    · subst heq
      have hopen := (open_outBlkNew hi (.named d) c.nblks).mpr (.inr rfl)
      -- the blocks that are made later are other ones
      have hrest := Grows.news (P := fun b => c.nblks < b) ds (hi.outBlkNew (.named d))
        fun b hb _ => by omega
      exact ⟨hrest.keeps _ hopen (Nat.lt_irrefl _),
        hrest.ext.named (Nat.lt_succ_self _) (named_outBlkNew d c)⟩
    · exact ih (hi.outBlkNew _) (by omega) (by omega)

/-- A test of an expression that may be missing. -/
def genTest (e : Option Expr) (ifTrue ifFalse : Nat) (c : OutCtx) : OutCtx :=
  match e with
  | some e => implBranch (.truth e) ifTrue ifFalse (genExpr e c)
  | none => outCtrlTransfer ifTrue c

@[simp]
theorem currentBlk_genTest (e : Option Expr) (ifTrue ifFalse : Nat) (c : OutCtx) :
    (genTest e ifTrue ifFalse c).currentBlk = none := by
  cases e <;> simp [genTest]

theorem Grows.test (e : Option Expr) (ifTrue ifFalse : Nat) (hi : Inv defined c) :
    Grows defined P c (genTest e ifTrue ifFalse c) := by
  cases e with
  | none => exact .transfer _ hi
  | some e =>
    have hexpr := Grows.expr (P := P) e hi
    exact hexpr.trans (.branch _ _ _ hexpr.inv)

theorem testAt_genTest {e : Option Expr} {ifTrue ifFalse : Nat} (hi : Inv defined c)
    {G : OutCtx} (hG : Ext (genTest e ifTrue ifFalse c) G) :
    TestAt G e c.pt ifTrue ifFalse := by
  cases e with
  | none => exact jump_transfer hi hG
  | some e =>
    have hexpr := Grows.expr (P := fun _ => True) e hi
    have hbranch := Grows.branch (P := fun _ => True) (.truth e) ifTrue ifFalse hexpr.inv
    exact ⟨_, evalAt_genExpr hi (hbranch.ext.trans hG), branch_implBranch hexpr.inv hG⟩

/-! ### Arms -/

/-- The enclosing statements have made the blocks that jumps go to. -/
structure Within.Has (w : Within) (t : Targets) : Prop where
  blkBreak : w.loopOrSwitch = true → ∃ b, t.blkBreak = some b
  blkContinue : w.loop = true → ∃ b, t.blkContinue = some b

/-- `gen` generates what has the given cases and labels, and leads to where `tr` says. -/
def Lowers (defined : List Nat) (w : Within) (cases : List CaseLabel) (labels : List Nat)
    (gen : Targets → OutCtx → OutCtx) (tr : OutCtx → Targets → Pt → Pt → Prop) : Prop :=
  ∀ t c, Inv defined c → w.Has t → Ready defined t.caseBlk cases labels c →
    (Grows defined (Owns (gen t c) t.caseBlk cases labels) c (gen t c) ∧
      Settled t.caseBlk cases labels (gen t c)) ∧
    ∀ G, Ext (gen t c) G → tr G t c.pt (gen t c).pt

/-- A statement that starts in an open block and ends with a jump. -/
def genArm (gen : Targets → OutCtx → OutCtx) (t : Targets) (b next : Nat) (c : OutCtx) : OutCtx :=
  outCtrlTransfer next (gen t (outCurrentBlk b c))

/-- What an arm does. -/
structure Arm (defined : List Nat) (t : Targets) (cases : List CaseLabel) (labels : List Nat)
    (tr : OutCtx → Targets → Pt → Pt → Prop) (b next : Nat) (c c' : OutCtx) : Prop where
  grows : Grows defined (fun b' => Owns c' t.caseBlk cases labels b' ∨ b' = b) c c'
  settled : Settled t.caseBlk cases labels c'
  closed : ¬Open c' b
  current : c'.currentBlk = none
  leads : ∀ G, Ext c' G → ∃ q, tr G t (some (b, 0)) q ∧ Jump G q next

theorem Lowers.arm {w : Within} {cases : List CaseLabel} {labels : List Nat}
    {gen : Targets → OutCtx → OutCtx} {tr : OutCtx → Targets → Pt → Pt → Prop}
    (h : Lowers defined w cases labels gen tr) {t : Targets} {b : Nat} (next : Nat)
    (hi : Inv defined c) (hw : w.Has t) (hr : Ready defined t.caseBlk cases labels c)
    (hc : c.currentBlk = none) (ho : Open c b) (hb : ¬Owns c t.caseBlk cases labels b) :
    Arm defined t cases labels tr b next c (genArm gen t b next c) := by
  have hcur := Grows.current (P := fun b' => b' = b) hi hc ho rfl
  have hr' : Ready defined t.caseBlk cases labels (outCurrentBlk b c) := by
    refine hr.grows hcur ?_
    rintro b' hown rfl
    exact hb hown
  obtain ⟨⟨hgrows, hsettled⟩, hleads⟩ := h t _ hcur.inv hw hr'
  have hjump := Grows.transfer
    (P := fun b' => Owns (genArm gen t b next c) t.caseBlk cases labels b' ∨ b' = b) next hgrows.inv
  refine ⟨?_, hsettled.ext hjump.ext, ?_, currentBlk_outCtrlTransfer _ _, ?_⟩
  · refine (hcur.mono fun b' hb' => .inr hb').trans (.trans (hgrows.mono ?_) hjump)
    intro b' hown
    exact .inl (hown.imp hjump.ext (fun _ h => h) fun _ h => h)
  · exact (hgrows.ext.trans hjump.ext).not_open ho.made fun ho' => ho'.waits rfl
  · intro G hG
    have hlead := hleads G (hjump.ext.trans hG)
    rw [pt_outCurrentBlk hi ho] at hlead
    exact ⟨_, hlead, jump_transfer hgrows.inv hG⟩

/-! ### Work in progress -/

/-- A statement that was begun at `c` has been generated as far as `c'`: it has made
the blocks `N`, of which `left` are still open, and its parts with the given cases
and labels are done. -/
structure Work (defined : List Nat) (blks : CaseLabel → Option Nat) (cases : List CaseLabel)
    (labels : List Nat) (N : Nat → Prop) (left : List Nat) (c c' : OutCtx) : Prop where
  grows : Grows defined (fun b => Owns c' blks cases labels b ∨ N b) c c'
  settled : Settled blks cases labels c'
  news : ∀ b, N b → c.nblks ≤ b ∧ b < c'.nblks ∧ Named c' b
  waits : ∀ b ∈ left, N b ∧ Open c' b
  filled : ∀ b, N b → b ∉ left → ¬Open c' b
  nodup : left.Nodup

namespace Work

variable {blks : CaseLabel → Option Nat} {cases : List CaseLabel} {labels : List Nat}
  {N : Nat → Prop} {left : List Nat} {c' c'' : OutCtx}

/-- The blocks are made. -/
theorem start (ds : List String) (hi : Inv defined c) {left : List Nat} (hnodup : left.Nodup)
    (hleft : ∀ b, b ∈ left ↔ c.nblks ≤ b ∧ b < c.nblks + ds.length) :
    Work defined blks [] [] (· ∈ left) left c (newBlks ds c) where
  grows := .news ds hi fun b hb hb' => .inr ((hleft b).mpr ⟨hb, hb'⟩)
  settled := .nil
  news b hb := by
    obtain ⟨hle, hlt⟩ := (hleft b).mp hb
    obtain ⟨ho, hn⟩ := open_newBlks ds hi hle hlt
    exact ⟨hle, ho.made, hn⟩
  waits b hb := by
    obtain ⟨hle, hlt⟩ := (hleft b).mp hb
    exact ⟨hb, (open_newBlks ds hi hle hlt).1⟩
  filled b hb hn := absurd hb hn
  nodup := hnodup

/-- A part of the statement with its own cases and labels, which fills the blocks
`used`. -/
theorem part {cs : List CaseLabel} {ls : List Nat} (used : List Nat)
    (h : Work defined blks cases labels N (used ++ left) c c')
    (hg : Grows defined (fun b => Owns c'' blks cs ls b ∨ b ∈ used) c' c'')
    (hs : Settled blks cs ls c'') (hused : ∀ b ∈ used, ¬Open c'' b)
    (hleft : ∀ b ∈ left, ¬Owns c'' blks cs ls b) :
    Work defined blks (cases ++ cs) (labels ++ ls) N left c c'' where
  grows := by
    refine (h.grows.mono fun b hb => hb.imp ?_ id).trans (hg.mono fun b hb => hb.imp ?_ ?_)
    · exact fun hown => hown.imp hg.ext (fun _ => List.mem_append_left _)
        fun _ => List.mem_append_left _
    · exact fun hown => hown.imp (.refl _) (fun _ => List.mem_append_right _)
        fun _ => List.mem_append_right _
    · exact fun hb' => (h.waits b (List.mem_append_left _ hb')).1
  settled := (h.settled.ext hg.ext).append hs
  news b hb := by
    obtain ⟨hle, hlt, hn⟩ := h.news b hb
    exact ⟨hle, hlt.trans_le hg.ext.nblks, hg.ext.named hlt hn⟩
  waits b hb := by
    obtain ⟨hN, ho⟩ := h.waits b (List.mem_append_right _ hb)
    refine ⟨hN, hg.keeps b ho ?_⟩
    rintro (hown | hmem)
    · exact hleft b hb hown
    · exact List.disjoint_of_nodup_append h.nodup hmem hb
  filled b hN hb := by
    by_cases hmem : b ∈ used
    · exact hused b hmem
    · refine hg.ext.not_open (h.news b hN).2.1 (h.filled b hN ?_)
      simp [hmem, hb]
  nodup := h.nodup.of_append_right

/-- A step that fills no open block. -/
theorem step (h : Work defined blks cases labels N left c c')
    (hg : Grows defined (fun _ => False) c' c'') :
    Work defined blks cases labels N left c c'' := by
  have hpart := part [] h (hg.mono fun _ hf => hf.elim) .nil
    (fun _ hb => nomatch hb) fun b _ hown => ?_
  · simpa using hpart
  · rcases hown with ⟨l, hl, _⟩ | ⟨l, hl, _⟩ <;> cases hl

/-- Going on with the next of the open blocks. -/
theorem current {b : Nat} (h : Work defined blks cases labels N (b :: left) c c')
    (hc : c'.currentBlk = none) :
    Work defined blks cases labels N left c (outCurrentBlk b c') := by
  have hg := Grows.current (P := (· = b)) h.grows.inv hc (h.waits b List.mem_cons_self).2 rfl
  have hpart := part [b] h
    (hg.mono fun b' hb' => .inr (by simp [hb'])) .nil (fun b' hb' => ?_) fun b _ hown => ?_
  · simpa using hpart
  · rw [List.mem_singleton.mp hb']
    exact fun ho => ho.waits rfl
  · rcases hown with ⟨l, hl, _⟩ | ⟨l, hl, _⟩ <;> cases hl

theorem pt_current {b : Nat} (h : Work defined blks cases labels N (b :: left) c c') :
    (outCurrentBlk b c').pt = some (b, 0) :=
  pt_outCurrentBlk h.grows.inv (h.waits b List.mem_cons_self).2

/-- The statement is ready for its next part. -/
theorem ready {cs : List CaseLabel} {ls : List Nat}
    (h : Work defined blks cases labels N left c c')
    (hr : Ready defined blks (cases ++ cs) (labels ++ ls) c) : Ready defined blks cs ls c' :=
  hr.right h.grows fun b hb => ⟨(h.news b hb).1, (h.news b hb).2.2⟩

/-- An arm that starts in the next of the open blocks. -/
theorem arm {cs : List CaseLabel} {ls : List Nat} {w : Within} {t : Targets} {b : Nat}
    {gen : Targets → OutCtx → OutCtx} {tr : OutCtx → Targets → Pt → Pt → Prop}
    (h : Work defined t.caseBlk cases labels N (b :: left) c c')
    (hl : Lowers defined w cs ls gen tr) (hw : w.Has t)
    (hr : Ready defined t.caseBlk (cases ++ cs) (labels ++ ls) c) (hc : c'.currentBlk = none)
    (next : Nat) :
    Arm defined t cs ls tr b next c' (genArm gen t b next c') ∧
      Work defined t.caseBlk (cases ++ cs) (labels ++ ls) N left c (genArm gen t b next c') := by
  obtain ⟨hN, ho⟩ := h.waits b List.mem_cons_self
  have hnot : ∀ {d}, Inv defined d → Ext c' d → ∀ b', N b' → ¬Owns d t.caseBlk cs ls b' := by
    intro d hi he b' hb'
    obtain ⟨hle, hlt, hn⟩ := h.news b' hb'
    exact hr.tail.not_owns_new hi hle (he.named hlt hn)
  have harm := hl.arm next h.grows.inv hw (h.ready hr) hc ho
    (hnot h.grows.inv (.refl _) b hN)
  refine ⟨harm, part [b] h (harm.grows.mono fun b' hb' => hb'.imp id ?_) harm.settled
    (fun b' hb' => ?_) fun b' hb' => ?_⟩
  · exact fun heq => by simp [heq]
  · rw [List.mem_singleton.mp hb']
    exact harm.closed
  · exact hnot harm.grows.inv harm.grows.ext b' (h.waits b' (List.mem_cons_of_mem b hb')).1

/-- Nothing has been made yet. -/
theorem none (hi : Inv defined c) : Work defined blks [] [] (fun _ => False) [] c c where
  grows := .refl hi
  settled := .nil
  news _ hb := hb.elim
  waits _ hb := nomatch hb
  filled _ hb := hb.elim
  nodup := .nil

/-- A part that starts where the generation stands. -/
theorem stmt {cs : List CaseLabel} {ls : List Nat} {w : Within} {t : Targets}
    {gen : Targets → OutCtx → OutCtx} {tr : OutCtx → Targets → Pt → Pt → Prop}
    (h : Work defined t.caseBlk cases labels N [] c c')
    (hl : Lowers defined w cs ls gen tr) (hw : w.Has t)
    (hr : Ready defined t.caseBlk (cases ++ cs) (labels ++ ls) c) :
    Work defined t.caseBlk (cases ++ cs) (labels ++ ls) N [] c (gen t c') ∧
      Ext c' (gen t c') ∧ ∀ G, Ext (gen t c') G → tr G t c'.pt (gen t c').pt := by
  obtain ⟨⟨hg, hs⟩, hleads⟩ := hl t c' h.grows.inv hw (h.ready hr)
  have hpart := part [] h (hg.mono fun _ hown => .inl hown) hs (fun _ hb => (nomatch hb))
    fun _ hb => (nomatch hb)
  exact ⟨hpart, hg.ext, hleads⟩

theorem perm {cases' : List CaseLabel} (h : Work defined blks cases labels N left c c')
    (hp : cases.Perm cases') :
    Work defined blks cases' labels N left c c' where
  grows := h.grows.mono fun b hb => hb.imp (Owns.perm hp b).mp id
  settled := ⟨fun b hb => h.settled.filled b ((Owns.perm hp b).mpr hb), h.settled.bound⟩
  news := h.news
  waits := h.waits
  filled := h.filled
  nodup := h.nodup

/-- What counts of the blocks that have been made are those that are still open. -/
theorem rest (h : Work defined blks [] [] N left c c') : Grows defined (· ∈ left) c c' := by
  have hg : Grows defined (fun b => b ∈ left ∨ (N b ∧ b ∉ left)) c c' := by
    refine h.grows.mono fun b hb => ?_
    rcases hb with (⟨l, hl, _⟩ | ⟨l, hl, _⟩) | hN
    · cases hl
    · cases hl
    · by_cases hleft : b ∈ left
      · exact .inl hleft
      · exact .inr ⟨hN, hleft⟩
  exact hg.discard fun b hb =>
    ⟨(h.news b hb.1).1, (h.news b hb.1).2.2, h.filled b hb.1 hb.2⟩

/-- All blocks have been filled. -/
theorem finish (h : Work defined blks cases labels N [] c c') :
    Grows defined (Owns c' blks cases labels) c c' ∧ Settled blks cases labels c' :=
  ⟨h.grows.discard fun b hb => ⟨(h.news b hb).1, (h.news b hb).2.2,
    h.filled b hb List.not_mem_nil⟩, h.settled⟩

end Work

/-! ### Going on in a block of a case or a label -/

section Enter

variable {blks : CaseLabel → Option Nat} {cases : List CaseLabel} {labels : List Nat}

theorem owns_label {l b : Nat} (h : c.labelToBlk l = some b) (blks : CaseLabel → Option Nat)
    (b' : Nat) :
    Owns c blks [] [l] b' ↔ b' = b := by
  simp [Owns, h, eq_comm]

theorem owns_case {l : CaseLabel} {b : Nat} (h : blks l = some b) (b' : Nat) :
    Owns c blks [l] [] b' ↔ b' = b := by
  simp [Owns, h, eq_comm]

/-- Going on with the block of a case or a label, from where the generation stands. -/
theorem enter {b : Nat} (hi : Inv defined c) (ho : Open c b)
    (hown : ∀ b', Owns c blks cases labels b' ↔ b' = b)
    (hbound : ∀ l ∈ labels, ∃ b, c.labelToBlk l = some b) :
    Grows defined (Owns (outCtrlTransferMakeCurrent b c) blks cases labels) c
        (outCtrlTransferMakeCurrent b c) ∧
      Settled blks cases labels (outCtrlTransferMakeCurrent b c) := by
  have hlabel : (outCtrlTransferMakeCurrent b c).labelToBlk = c.labelToBlk := by
    simp [outCtrlTransferMakeCurrent, outCurrentBlk, outCtrlTransfer]
  have hown' : ∀ b', Owns (outCtrlTransferMakeCurrent b c) blks cases labels b' ↔ b' = b := by
    intro b'
    rw [← hown b', Owns, Owns, hlabel]
  have hjump := Grows.transfer (P := (· = b)) b hi
  have hjump' := Grows.transfer (P := fun _ => False) b hi
  have ho' := hjump'.keeps b ho id
  have hcur := Grows.current (P := (· = b)) hjump.inv (currentBlk_outCtrlTransfer _ _) ho' rfl
  refine ⟨(hjump.trans hcur).mono fun b' hb' => (hown' b').mpr hb', ⟨fun b' hb' => ?_, ?_⟩⟩
  · rw [hown' b'] at hb'
    subst hb'
    exact ⟨ho'.made, fun ho'' => ho''.waits rfl⟩
  · rw [hlabel]
    exact hbound

theorem pt_enter {b : Nat} (hi : Inv defined c) (ho : Open c b) :
    (outCtrlTransferMakeCurrent b c).pt = some (b, 0) := by
  have hjump := Grows.transfer (P := fun _ => False) b hi
  exact pt_outCurrentBlk hjump.inv (hjump.keeps b ho id)

theorem jump_enter {b : Nat} (hi : Inv defined c) {G : OutCtx}
    (hG : Ext (outCtrlTransferMakeCurrent b c) G) : Jump G c.pt b :=
  jump_transfer hi ((Ext.current (currentBlk_outCtrlTransfer _ _) b).trans hG)

end Enter

end Parts

end Ucc.Cc1.Flow
