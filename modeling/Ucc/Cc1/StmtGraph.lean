/-
  Cc1/StmtGraph.lean --- what the generation of a statement leaves in the blocks.

  A block is open from the time it is made until it becomes the current one.  The
  generation of a statement fills the open blocks that belong to it, the blocks of
  its labels and of its cases, and leaves the other ones open (`Grows`).  What the
  finished blocks then say is `Tr`: from where to where a statement leads, in terms
  of evaluations and ends of blocks alone.
-/
import Ucc.Cc1.StmtMachine

set_option autoImplicit false

namespace Ucc.Cc1.Flow

/-! ## Open blocks -/

/-- Where the generation stands: a block and how many evaluations it has, or nowhere
if the code there is not reached. -/
abbrev Pt := Option (Nat × Nat)

/-- The place of the generation. -/
def OutCtx.pt (c : OutCtx) : Pt := c.currentBlk.map fun b => (b, (c.blk b).evals.length)

/-- The block has been made and waits for its contents. -/
structure Open (c : OutCtx) (b : Nat) : Prop where
  made : b < c.nblks
  uninit : (c.blk b).type = .uninit
  waits : c.currentBlk ≠ some b

/-- What holds throughout the generation; `defined` are the labels of the function. -/
structure Inv (defined : List Nat) (c : OutCtx) : Prop where
  ok : c.ok = true
  current : ∀ b, c.currentBlk = some b → b < c.nblks ∧ (c.blk b).type = .uninit
  empty : ∀ b, Open c b → (c.blk b).evals = []
  label : ∀ l b, c.labelToBlk l = some b →
    b < c.nblks ∧ (c.blk b).desc = .label l ∧ l ∈ defined

/-- What is in the blocks stays there. -/
structure Ext (c c' : OutCtx) : Prop where
  nblks : c.nblks ≤ c'.nblks
  epilogue : c'.epilogueBlk = c.epilogueBlk
  desc : ∀ b < c.nblks, (c'.blk b).desc = (c.blk b).desc
  evals : ∀ b < c.nblks, (c.blk b).evals <+: (c'.blk b).evals
  filled : ∀ b < c.nblks, (c.blk b).type ≠ .uninit → c'.blk b = c.blk b
  label : ∀ l b, c.labelToBlk l = some b → c'.labelToBlk l = some b
  closed : ∀ b < c.nblks, Open c' b → Open c b

namespace Ext

theorem refl (c : OutCtx) : Ext c c :=
  ⟨le_rfl, rfl, fun _ _ => rfl, fun _ _ => List.prefix_rfl, fun _ _ _ => rfl, fun _ _ h => h,
    fun _ _ h => h⟩

theorem trans {c c' c'' : OutCtx} (h : Ext c c') (h' : Ext c' c'') : Ext c c'' where
  nblks := h.nblks.trans h'.nblks
  epilogue := h'.epilogue.trans h.epilogue
  desc b hb := (h'.desc b (hb.trans_le h.nblks)).trans (h.desc b hb)
  evals b hb := (h.evals b hb).trans (h'.evals b (hb.trans_le h.nblks))
  filled b hb ht := by
    have hsame := h.filled b hb ht
    rw [← hsame] at ht ⊢
    exact h'.filled b (hb.trans_le h.nblks) ht
  label l b hl := h'.label l b (h.label l b hl)
  closed b hb ho := h.closed b hb (h'.closed b (hb.trans_le h.nblks) ho)

theorem not_open {c c' : OutCtx} (h : Ext c c') {b : Nat} (hb : b < c.nblks) (hn : ¬Open c b) :
    ¬Open c' b := fun ho => hn (h.closed b hb ho)

end Ext

/-- The block is not one of a label. -/
def Named (c : OutCtx) (b : Nat) : Prop := ∃ d, (c.blk b).desc = .named d

/-- The generation goes from `c` to `c'`, and of the blocks that are open before or
after it only those in `P` are its own. -/
structure Grows (defined : List Nat) (P : Nat → Prop) (c c' : OutCtx) : Prop where
  inv : Inv defined c'
  ext : Ext c c'
  fresh : ∀ b, Open c' b → c.nblks ≤ b → P b ∨ ∃ l, c'.labelToBlk l = some b
  keeps : ∀ b, Open c b → ¬P b → Open c' b
  labels : ∀ l b, c'.labelToBlk l = some b → c.labelToBlk l = some b ∨ P b ∨ Open c' b

namespace Grows

variable {defined : List Nat} {P Q : Nat → Prop} {c c' c'' : OutCtx}

theorem refl (h : Inv defined c) : Grows defined P c c :=
  ⟨h, .refl c, fun _ ho hb => absurd ho.made (by omega), fun _ ho _ => ho, fun _ _ hl => .inl hl⟩

theorem trans (h : Grows defined P c c') (h' : Grows defined P c' c'') :
    Grows defined P c c'' where
  inv := h'.inv
  ext := h.ext.trans h'.ext
  fresh b ho hb := by
    by_cases hb' : b < c'.nblks
    · rcases h.fresh b (h'.ext.closed b hb' ho) hb with hP | ⟨l, hl⟩
      · exact .inl hP
      · exact .inr ⟨l, h'.ext.label l b hl⟩
    · exact h'.fresh b ho (by omega)
  keeps b ho hP := h'.keeps b (h.keeps b ho hP) hP
  labels l b hl := by
    by_cases hP : P b
    · exact .inr (.inl hP)
    · rcases h'.labels l b hl with hl' | hP' | ho
      · rcases h.labels l b hl' with hl'' | hP' | ho
        · exact .inl hl''
        · exact .inr (.inl hP')
        · exact .inr (.inr (h'.keeps b ho hP))
      · exact .inr (.inl hP')
      · exact .inr (.inr ho)

theorem mono (h : Grows defined P c c') (hPQ : ∀ b, P b → Q b) : Grows defined Q c c' where
  inv := h.inv
  ext := h.ext
  fresh b ho hb := (h.fresh b ho hb).imp (hPQ b) id
  keeps b ho hQ := h.keeps b ho fun hP => hQ (hPQ b hP)
  labels l b hl := (h.labels l b hl).imp id (Or.imp (hPQ b) id)

/-- Blocks that have been made and filled on the way do not count. -/
theorem discard {N : Nat → Prop} (h : Grows defined (fun b => P b ∨ N b) c c')
    (hN : ∀ b, N b → c.nblks ≤ b ∧ Named c' b ∧ ¬Open c' b) : Grows defined P c c' where
  inv := h.inv
  ext := h.ext
  fresh b ho hb := by
    rcases h.fresh b ho hb with (hP | hn) | hl
    · exact .inl hP
    · exact absurd ho (hN b hn).2.2
    · exact .inr hl
  keeps b ho hP := by
    refine h.keeps b ho fun hPN => ?_
    rcases hPN with hP' | hn
    · exact hP hP'
    · have hmade := ho.made
      have hnew := (hN b hn).1
      omega
  labels l b hl := by
    rcases h.labels l b hl with hl' | (hP | hn) | ho
    · exact .inl hl'
    · exact .inr (.inl hP)
    · obtain ⟨d, hd⟩ := (hN b hn).2.1
      rw [(h.inv.label l b hl).2.1] at hd
      cases hd
    · exact .inr (.inr ho)

end Grows

/-! ## Places in the finished blocks -/

/-- At `p`, the expression is evaluated, which leads to `q`. -/
def EvalAt (G : OutCtx) (e : Expr) : Pt → Pt → Prop
  | none, q => q = none
  | some (x, i), q => (G.blk x).evals[i]? = some e ∧ q = some (x, i + 1)

/-- The block ends at `p` with the given type. -/
def EndsAt (G : OutCtx) (type : BlkType) : Pt → Prop
  | none => True
  | some (x, i) => i = (G.blk x).evals.length ∧ (G.blk x).type = type

/-- `p` leads to the start of the block `b`. -/
def Jump (G : OutCtx) (p : Pt) (b : Nat) : Prop := EndsAt G (.nextBlock b) p

/-- At `p`, the outcome of a test decides between two blocks. -/
def Branch (G : OutCtx) (t : Test) (p : Pt) (ifTrue ifFalse : Nat) : Prop :=
  match t.expr.const with
  | some v => Jump G p (if t.holds v then ifTrue else ifFalse)
  | none => EndsAt G (.cond t ifTrue ifFalse) p

/-- `p` leads to `q`, perhaps over a block for a scope. -/
def Scope (G : OutCtx) (p q : Pt) : Prop := q = p ∨ ∃ b, Jump G p b ∧ q = some (b, 0)

/-- An expression that may be missing. -/
def EvalOptional (G : OutCtx) : Option Expr → Pt → Pt → Prop
  | none, p, q => q = p
  | some e, p, q => EvalAt G e p q

/-! ## The operations -/

section Ops

variable {defined : List Nat} {P : Nat → Prop} {c : OutCtx}

/-- The current block with other contents: it stays the current one, or has an end. -/
structure Refill (c : OutCtx) (b : Nat) (x : OutBlk) (cur : Option Nat) : Prop where
  current : c.currentBlk = some b
  desc : x.desc = (c.blk b).desc
  evals : (c.blk b).evals <+: x.evals
  fill : (cur = some b ∧ x.type = .uninit) ∨ (cur = none ∧ x.type ≠ .uninit)

/-- The context with a block refilled. -/
def OutCtx.refill (c : OutCtx) (b : Nat) (x : OutBlk) (cur : Option Nat) : OutCtx :=
  { c with blk := Function.update c.blk b x, currentBlk := cur }

theorem Refill.open_iff {b : Nat} {x : OutBlk} {cur : Option Nat} (h : Refill c b x cur)
    (b' : Nat) : Open (c.refill b x cur) b' ↔ Open c b' := by
  by_cases hb : b' = b
  · subst hb
    refine iff_of_false (fun ho => ?_) fun ho => ho.waits h.current
    rcases h.fill with ⟨hcur, _⟩ | ⟨_, ht⟩
    · exact ho.waits hcur
    · exact ht (by simpa [OutCtx.refill] using ho.uninit)
  · have hblk : (c.refill b x cur).blk b' = c.blk b' := Function.update_of_ne hb _ _
    have hcur : (c.refill b x cur).currentBlk ≠ some b' := by
      rcases h.fill with ⟨hcur, _⟩ | ⟨hcur, _⟩
      · simpa [OutCtx.refill, hcur] using Ne.symm hb
      · simp [OutCtx.refill, hcur]
    refine ⟨fun ho => ⟨ho.made, hblk ▸ ho.uninit, ?_⟩, fun ho => ⟨ho.made, ?_, hcur⟩⟩
    · rw [h.current]
      exact fun hc => hb (Option.some.inj hc).symm
    · rw [hblk]
      exact ho.uninit

theorem Refill.desc_eq {b : Nat} {x : OutBlk} {cur : Option Nat} (h : Refill c b x cur)
    (b' : Nat) : ((c.refill b x cur).blk b').desc = (c.blk b').desc := by
  by_cases hb : b' = b
  · subst hb
    simpa [OutCtx.refill] using h.desc
  · simp [OutCtx.refill, hb]

theorem Refill.grows {b : Nat} {x : OutBlk} {cur : Option Nat} (h : Refill c b x cur)
    (hi : Inv defined c) : Grows defined P c (c.refill b x cur) where
  inv :=
    { ok := hi.ok
      current := by
        intro b' hb'
        rcases h.fill with ⟨hcur, ht⟩ | ⟨hcur, _⟩
        · obtain rfl : b = b' := Option.some.inj (hcur.symm.trans hb')
          exact ⟨(hi.current b h.current).1, by simpa [OutCtx.refill] using ht⟩
        · cases hcur.symm.trans hb'
      empty := by
        intro b' ho
        have hne : b' ≠ b := by
          rintro rfl
          exact ((h.open_iff b').mp ho).waits h.current
        simpa [OutCtx.refill, hne] using hi.empty b' ((h.open_iff b').mp ho)
      label := by
        intro l b' hl
        obtain ⟨hmade, hdesc, hdef⟩ := hi.label l b' hl
        exact ⟨hmade, (h.desc_eq b').trans hdesc, hdef⟩ }
  ext :=
    { nblks := le_rfl
      epilogue := rfl
      desc := fun b' _ => h.desc_eq b'
      evals := by
        intro b' _
        by_cases hb : b' = b
        · subst hb
          simpa [OutCtx.refill] using h.evals
        · simp [OutCtx.refill, hb]
      filled := by
        intro b' _ ht
        have hb : b' ≠ b := by
          rintro rfl
          exact ht (hi.current b' h.current).2
        exact Function.update_of_ne hb _ _
      label := fun _ _ hl => hl
      closed := fun b' _ ho => (h.open_iff b').mp ho }
  fresh b' ho hb := by
    have hmade : b' < c.nblks := ho.made
    omega
  keeps b' ho _ := (h.open_iff b').mpr ho
  labels _ _ hl := .inl hl

/-! ### Ends of blocks -/

theorem terminate_none {type : BlkType} (h : c.currentBlk = none) : terminate type c = c := by
  simp [terminate, h]

theorem terminate_refill {type : BlkType} (hi : Inv defined c) {b : Nat}
    (h : c.currentBlk = some b) :
    terminate type c = c.refill b { c.blk b with type := type } none := by
  simp [terminate, h, OutCtx.refill, (hi.current b h).2]

theorem refill_terminate {type : BlkType} (ht : type ≠ .uninit) {b : Nat}
    (h : c.currentBlk = some b) : Refill c b { c.blk b with type := type } none :=
  ⟨h, rfl, List.prefix_rfl, .inr ⟨rfl, ht⟩⟩

@[simp]
theorem currentBlk_terminate (type : BlkType) (c : OutCtx) :
    (terminate type c).currentBlk = none := by
  cases h : c.currentBlk <;> simp [terminate, h]

@[simp]
theorem labelToBlk_terminate (type : BlkType) (c : OutCtx) :
    (terminate type c).labelToBlk = c.labelToBlk := by
  cases h : c.currentBlk <;> simp [terminate, h]

theorem Grows.terminate {type : BlkType} (ht : type ≠ .uninit) (hi : Inv defined c) :
    Grows defined P c (terminate type c) := by
  cases h : c.currentBlk with
  | none =>
    rw [terminate_none h]
    exact .refl hi
  | some b =>
    rw [terminate_refill hi h]
    exact (refill_terminate ht h).grows hi

/-- In the finished blocks, the place at which a block was given its end has that end. -/
theorem endsAt_terminate {type : BlkType} (ht : type ≠ .uninit) (hi : Inv defined c)
    {G : OutCtx} (hG : Ext (terminate type c) G) : EndsAt G type c.pt := by
  cases h : c.currentBlk with
  | none => simp [OutCtx.pt, h, EndsAt]
  | some b =>
    rw [terminate_refill hi h] at hG
    have hx : (c.refill b { c.blk b with type := type } none).blk b
        = { c.blk b with type := type } := by simp [OutCtx.refill]
    have hsame := hG.filled b (hi.current b h).1 (by rw [hx]; exact ht)
    simp [OutCtx.pt, h, EndsAt, hsame, hx]

theorem pt_of_currentBlk_none (h : c.currentBlk = none) : c.pt = none := by simp [OutCtx.pt, h]

@[simp]
theorem currentBlk_outCtrlTransfer (next : Nat) (c : OutCtx) :
    (outCtrlTransfer next c).currentBlk = none := currentBlk_terminate _ _

@[simp]
theorem currentBlk_implBranch (t : Test) (ifTrue ifFalse : Nat) (c : OutCtx) :
    (implBranch t ifTrue ifFalse c).currentBlk = none := by
  unfold implBranch
  split
  · exact currentBlk_outCtrlTransfer _ _
  · exact currentBlk_terminate _ _

theorem Grows.transfer (next : Nat) (hi : Inv defined c) :
    Grows defined P c (outCtrlTransfer next c) := .terminate BlkType.noConfusion hi

theorem jump_transfer {next : Nat} (hi : Inv defined c) {G : OutCtx}
    (hG : Ext (outCtrlTransfer next c) G) : Jump G c.pt next :=
  endsAt_terminate BlkType.noConfusion hi hG

theorem Grows.branch (t : Test) (ifTrue ifFalse : Nat) (hi : Inv defined c) :
    Grows defined P c (implBranch t ifTrue ifFalse c) := by
  unfold implBranch
  split
  · exact .transfer _ hi
  · exact .terminate BlkType.noConfusion hi

theorem branch_implBranch {t : Test} {ifTrue ifFalse : Nat} (hi : Inv defined c) {G : OutCtx}
    (hG : Ext (implBranch t ifTrue ifFalse c) G) : Branch G t c.pt ifTrue ifFalse := by
  unfold implBranch at hG
  unfold Branch
  cases ht : t.expr.const with
  | some v =>
    simp only [ht] at hG ⊢
    exact jump_transfer hi hG
  | none =>
    simp only [ht] at hG ⊢
    exact endsAt_terminate BlkType.noConfusion hi hG

/-! ### Evaluations -/

theorem refill_genExpr (hi : Inv defined c) (e : Expr) {b : Nat} (h : c.currentBlk = some b) :
    Refill c b { c.blk b with evals := (c.blk b).evals ++ [e] } (some b) :=
  ⟨h, rfl, List.prefix_append _ _, .inl ⟨rfl, (hi.current b h).2⟩⟩

theorem genExpr_refill (e : Expr) {b : Nat} (h : c.currentBlk = some b) :
    genExpr e c = c.refill b { c.blk b with evals := (c.blk b).evals ++ [e] } (some b) := by
  simp [genExpr, h, OutCtx.refill]

theorem Grows.expr (e : Expr) (hi : Inv defined c) : Grows defined P c (genExpr e c) := by
  cases h : c.currentBlk with
  | none =>
    have hsame : genExpr e c = c := by simp [genExpr, h]
    rw [hsame]
    exact .refl hi
  | some b =>
    rw [genExpr_refill e h]
    exact (refill_genExpr hi e h).grows hi

theorem evalAt_genExpr {e : Expr} (hi : Inv defined c) {G : OutCtx} (hG : Ext (genExpr e c) G) :
    EvalAt G e c.pt (genExpr e c).pt := by
  cases h : c.currentBlk with
  | none => simp [OutCtx.pt, h, genExpr, EvalAt]
  | some b =>
    rw [genExpr_refill e h] at hG ⊢
    have hx : ((c.refill b { c.blk b with evals := (c.blk b).evals ++ [e] } (some b)).blk b).evals
        = (c.blk b).evals ++ [e] := by simp [OutCtx.refill]
    have hpre := hG.evals b (hi.current b h).1
    rw [hx] at hpre
    have hget : (G.blk b).evals[(c.blk b).evals.length]? = some e := by
      obtain ⟨rest, hrest⟩ := hpre
      simp [← hrest]
    simp only [OutCtx.pt, h, Option.map_some, EvalAt]
    refine ⟨hget, ?_⟩
    simp [OutCtx.refill]

theorem Grows.optional (e : Option Expr) (hi : Inv defined c) :
    Grows defined P c (genOptional e c) := by
  cases e with
  | none => exact .refl hi
  | some e => exact .expr e hi

theorem evalOptional_genOptional {e : Option Expr} (hi : Inv defined c) {G : OutCtx}
    (hG : Ext (genOptional e c) G) : EvalOptional G e c.pt (genOptional e c).pt := by
  cases e with
  | none => rfl
  | some e => exact evalAt_genExpr hi hG

/-! ### Making blocks and going on with them -/

theorem open_outBlkNew (hi : Inv defined c) (desc : Desc) (b : Nat) :
    Open (outBlkNew desc c).2 b ↔ Open c b ∨ b = c.nblks := by
  by_cases hb : b = c.nblks
  · subst hb
    refine iff_of_true ⟨Nat.lt_succ_self _, by simp [outBlkNew], fun hc => ?_⟩ (.inr rfl)
    exact absurd (hi.current _ hc).1 (Nat.lt_irrefl _)
  · have hblk : (outBlkNew desc c).2.blk b = c.blk b := Function.update_of_ne hb _ _
    constructor
    · intro ho
      have hmade : b < c.nblks + 1 := ho.made
      exact .inl ⟨by omega, hblk ▸ ho.uninit, ho.waits⟩
    · rintro (ho | heq)
      · exact ⟨Nat.lt_succ_of_lt ho.made, hblk ▸ ho.uninit, ho.waits⟩
      · exact absurd heq hb

theorem Ext.outBlkNew (hi : Inv defined c) (desc : Desc) : Ext c (outBlkNew desc c).2 where
  nblks := Nat.le_succ _
  epilogue := rfl
  desc b hb := by simp [Flow.outBlkNew, hb.ne]
  evals b hb := by simp [Flow.outBlkNew, hb.ne]
  filled b hb _ := by simp [Flow.outBlkNew, hb.ne]
  label _ _ hl := hl
  closed b hb ho := by
    rcases (open_outBlkNew hi desc b).mp ho with ho' | heq
    · exact ho'
    · omega

theorem Inv.outBlkNew (hi : Inv defined c) (desc : Desc) : Inv defined (outBlkNew desc c).2 where
  ok := hi.ok
  current b hb := by
    obtain ⟨hmade, ht⟩ := hi.current b hb
    exact ⟨Nat.lt_succ_of_lt hmade, by simpa [Flow.outBlkNew, hmade.ne] using ht⟩
  empty b ho := by
    rcases (open_outBlkNew hi desc b).mp ho with ho' | rfl
    · simpa [Flow.outBlkNew, ho'.made.ne] using hi.empty b ho'
    · simp [Flow.outBlkNew]
  label l b hl := by
    obtain ⟨hmade, hdesc, hdef⟩ := hi.label l b hl
    exact ⟨Nat.lt_succ_of_lt hmade, by simpa [Flow.outBlkNew, hmade.ne] using hdesc, hdef⟩

theorem Grows.new (desc : Desc) (hi : Inv defined c) (hP : P c.nblks) :
    Grows defined P c (outBlkNew desc c).2 where
  inv := hi.outBlkNew desc
  ext := .outBlkNew hi desc
  fresh b ho hb := by
    rcases (open_outBlkNew hi desc b).mp ho with ho' | rfl
    · exact absurd ho'.made (by omega)
    · exact .inl hP
  keeps b ho _ := (open_outBlkNew hi desc b).mpr (.inl ho)
  labels _ _ hl := .inl hl

theorem open_outCurrentBlk (hc : c.currentBlk = none) (b b' : Nat) :
    Open (outCurrentBlk b c) b' ↔ Open c b' ∧ b' ≠ b := by
  constructor
  · intro ho
    refine ⟨⟨ho.made, ho.uninit, by simp [hc]⟩, ?_⟩
    rintro rfl
    exact ho.waits rfl
  · rintro ⟨ho, hne⟩
    exact ⟨ho.made, ho.uninit, fun h => hne (Option.some.inj h).symm⟩

theorem Ext.current (hc : c.currentBlk = none) (b : Nat) : Ext c (outCurrentBlk b c) where
  nblks := le_rfl
  epilogue := rfl
  desc _ _ := rfl
  evals _ _ := List.prefix_rfl
  filled _ _ _ := rfl
  label _ _ hl := hl
  closed b' _ ho := ((open_outCurrentBlk hc b b').mp ho).1

theorem Grows.current {b : Nat} (hi : Inv defined c) (hc : c.currentBlk = none) (ho : Open c b)
    (hP : P b) : Grows defined P c (outCurrentBlk b c) where
  inv :=
    { ok := hi.ok
      current := by
        intro b' hb'
        obtain rfl : b = b' := Option.some.inj hb'
        exact ⟨ho.made, ho.uninit⟩
      empty := fun b' ho' => hi.empty b' ((open_outCurrentBlk hc b b').mp ho').1
      label := hi.label }
  ext := .current hc b
  fresh b' ho' hb := absurd ho'.made (Nat.not_lt.mpr hb)
  keeps b' ho' hP' := by
    refine (open_outCurrentBlk hc b b').mpr ⟨ho', ?_⟩
    rintro rfl
    exact hP' hP
  labels _ _ hl := .inl hl

theorem pt_outCurrentBlk {b : Nat} (hi : Inv defined c) (ho : Open c b) :
    (outCurrentBlk b c).pt = some (b, 0) := by
  have hempty := hi.empty b ho
  simp [OutCtx.pt, outCurrentBlk, hempty]

theorem pt_outBlkNew (hi : Inv defined c) (desc : Desc) : (outBlkNew desc c).2.pt = c.pt := by
  cases h : c.currentBlk with
  | none => simp [OutCtx.pt, outBlkNew, h]
  | some b =>
    have hne := (hi.current b h).1.ne
    simp [OutCtx.pt, outBlkNew, h, hne]

theorem named_outBlkNew (d : String) (c : OutCtx) : Named (outBlkNew (.named d) c).2 c.nblks :=
  ⟨d, by simp [outBlkNew]⟩

theorem Ext.named {c c' : OutCtx} (h : Ext c c') {b : Nat} (hb : b < c.nblks)
    (hn : Named c b) : Named c' b := by
  obtain ⟨d, hd⟩ := hn
  exact ⟨d, (h.desc b hb).trans hd⟩

section Scopes

variable (isEmpty : OutCtx → Nat → Bool)

theorem newBlockForScope_cases (desc : String) (c : OutCtx) :
    newBlockForScope isEmpty desc c = c ∨
      newBlockForScope isEmpty desc c
        = outCurrentBlk c.nblks (outCtrlTransfer c.nblks (outBlkNew (.named desc) c).2) := by
  unfold newBlockForScope
  split
  · exact .inl rfl
  · split
    · exact .inl rfl
    · exact .inr rfl

/-- The new block is there to be gone on with. -/
theorem open_transfer_new (hi : Inv defined c) (desc : Desc) (next : Nat) :
    Open (outCtrlTransfer next (outBlkNew desc c).2) c.nblks :=
  (Grows.transfer (P := fun _ => False) next (hi.outBlkNew desc)).keeps _
    ((open_outBlkNew hi desc _).mpr (.inr rfl)) id

theorem Grows.scope (desc : String) (hi : Inv defined c) :
    Grows defined P c (newBlockForScope isEmpty desc c) := by
  rcases newBlockForScope_cases isEmpty desc c with h | h
  · rw [h]
    exact .refl hi
  · rw [h]
    have hnew := Grows.new (P := fun b => P b ∨ b = c.nblks) (.named desc) hi (.inr rfl)
    have hjump := Grows.transfer (P := fun b => P b ∨ b = c.nblks) c.nblks hnew.inv
    have hopen := open_transfer_new hi (.named desc) c.nblks
    have hcur := Grows.current (P := fun b => P b ∨ b = c.nblks) hjump.inv
      (currentBlk_outCtrlTransfer _ _) hopen (.inr rfl)
    refine (hnew.trans (hjump.trans hcur)).discard ?_
    rintro b rfl
    refine ⟨le_rfl, (hjump.ext.trans hcur.ext).named (Nat.lt_succ_self _) (named_outBlkNew _ _),
      fun ho => ho.waits rfl⟩

theorem scope_newBlockForScope {desc : String} (hi : Inv defined c) {G : OutCtx}
    (hG : Ext (newBlockForScope isEmpty desc c) G) :
    Scope G c.pt (newBlockForScope isEmpty desc c).pt := by
  rcases newBlockForScope_cases isEmpty desc c with h | h
  · rw [h]
    exact .inl rfl
  · rw [h] at hG ⊢
    have hi' := hi.outBlkNew (.named desc)
    have hopen := open_transfer_new hi (.named desc) c.nblks
    have hjump := Grows.transfer (P := fun _ => True) c.nblks hi'
    have hcur := Grows.current (P := fun _ => True) hjump.inv
      (currentBlk_outCtrlTransfer _ _) hopen trivial
    refine .inr ⟨c.nblks, ?_, pt_outCurrentBlk hjump.inv hopen⟩
    rw [← pt_outBlkNew hi (.named desc)]
    exact jump_transfer hi' (hcur.ext.trans hG)

end Scopes

/-! ### Labels -/

theorem labelToBlk_labelGetblk (l : Nat) (c : OutCtx) :
    (labelGetblk l c).2.labelToBlk l = some (labelGetblk l c).1 := by
  cases h : c.labelToBlk l with
  | some b => simp [labelGetblk, h]
  | none => simp [labelGetblk, h]

theorem pt_labelGetblk (hi : Inv defined c) (l : Nat) : (labelGetblk l c).2.pt = c.pt := by
  cases h : c.labelToBlk l with
  | some b => simp [labelGetblk, h]
  | none =>
    rw [← pt_outBlkNew hi (.label l)]
    simp [labelGetblk, h, OutCtx.pt]

theorem open_labelGetblk (hi : Inv defined c) {l : Nat} (h : c.labelToBlk l = none) (b : Nat) :
    Open (labelGetblk l c).2 b ↔ Open c b ∨ b = c.nblks := by
  have hiff := open_outBlkNew hi (.label l) b
  rw [← hiff]
  simp only [labelGetblk, h]
  exact ⟨fun ho => ⟨ho.made, ho.uninit, ho.waits⟩, fun ho => ⟨ho.made, ho.uninit, ho.waits⟩⟩

section NewLabel

variable {l : Nat} (h : c.labelToBlk l = none)
include h

theorem blk_labelGetblk : (labelGetblk l c).2.blk = (outBlkNew (.label l) c).2.blk := by
  simp [labelGetblk, h]

theorem nblks_labelGetblk : (labelGetblk l c).2.nblks = c.nblks + 1 := by
  simp [labelGetblk, h, outBlkNew]

theorem labelToBlk_labelGetblk_cases {l' b : Nat}
    (hb : (labelGetblk l c).2.labelToBlk l' = some b) :
    (l' = l ∧ b = c.nblks) ∨ c.labelToBlk l' = some b := by
  by_cases hll : l' = l
  · subst hll
    rw [labelToBlk_labelGetblk] at hb
    exact .inl ⟨rfl, by simpa [labelGetblk, h, outBlkNew] using hb.symm⟩
  · exact .inr (by simpa [labelGetblk, h, outBlkNew, hll] using hb)

theorem Inv.labelGetblk (hi : Inv defined c) (hl : l ∈ defined) :
    Inv defined (labelGetblk l c).2 := by
  have hnew := hi.outBlkNew (.label l)
  refine
    { ok := by simpa [Flow.labelGetblk, h, Flow.outBlkNew] using hi.ok
      current := ?_
      empty := ?_
      label := ?_ }
  · intro b hb
    rw [blk_labelGetblk h, nblks_labelGetblk h]
    exact hnew.current b (by simpa [Flow.labelGetblk, h] using hb)
  · intro b ho
    rw [blk_labelGetblk h]
    exact hnew.empty b ((open_outBlkNew hi _ b).mpr ((open_labelGetblk hi h b).mp ho))
  · intro l' b hb
    rw [blk_labelGetblk h, nblks_labelGetblk h]
    rcases labelToBlk_labelGetblk_cases h hb with ⟨rfl, rfl⟩ | hb'
    · exact ⟨Nat.lt_succ_self _, by simp [Flow.outBlkNew], hl⟩
    · exact hnew.label l' b hb'

theorem Ext.labelGetblk (hi : Inv defined c) : Ext c (labelGetblk l c).2 := by
  have hext := Ext.outBlkNew hi (.label l)
  refine
    { nblks := by rw [nblks_labelGetblk h]; omega
      epilogue := by simp [Flow.labelGetblk, h, Flow.outBlkNew]
      desc := fun b hb => by rw [blk_labelGetblk h]; exact hext.desc b hb
      evals := fun b hb => by rw [blk_labelGetblk h]; exact hext.evals b hb
      filled := fun b hb => by rw [blk_labelGetblk h]; exact hext.filled b hb
      label := ?_
      closed := ?_ }
  · intro l' b hb
    have hne : l' ≠ l := by
      rintro rfl
      simp [h] at hb
    simpa [Flow.labelGetblk, h, Flow.outBlkNew, hne] using hb
  · intro b hb ho
    rcases (open_labelGetblk hi h b).mp ho with ho' | rfl
    · exact ho'
    · omega

end NewLabel

theorem Grows.label {l : Nat} (hi : Inv defined c) (hl : l ∈ defined) :
    Grows defined P c (labelGetblk l c).2 := by
  cases h : c.labelToBlk l with
  | some b =>
    have hsame : (labelGetblk l c).2 = c := by simp [labelGetblk, h]
    rw [hsame]
    exact .refl hi
  | none =>
    have hiff := open_labelGetblk hi h
    have hself : (labelGetblk l c).2.labelToBlk l = some c.nblks := by
      rw [labelToBlk_labelGetblk]
      simp [labelGetblk, h, outBlkNew]
    refine
      { inv := hi.labelGetblk h hl
        ext := Ext.labelGetblk h hi
        fresh := ?_
        keeps := fun b ho _ => (hiff b).mpr (.inl ho)
        labels := ?_ }
    · intro b ho hb
      rcases (hiff b).mp ho with ho' | rfl
      · exact absurd ho'.made (by omega)
      · exact .inr ⟨l, hself⟩
    · intro l' b hb
      rcases labelToBlk_labelGetblk_cases h hb with ⟨rfl, rfl⟩ | hb'
      · exact .inr (.inr ((hiff _).mpr (.inr rfl)))
      · exact .inl hb'

end Ops

end Ucc.Cc1.Flow
