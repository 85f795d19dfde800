/-
  Cc1/BlkLayout.lean --- blocks that are written one after the other.

  Whatever the order in which the blocks are written, the stream does what the
  graph does: each block runs into the next one, or is cut off by a jump to
  where it goes.  A threaded jump skips blocks without instructions, which the
  graph walks through in silence.
-/
import Ucc.Cc1.Blk

set_option autoImplicit false

namespace Ucc.Cc1

variable {B : Type} [DecidableEq B]

/-! ## The layout of an order -/

/-- Where control goes at the end of a block that has no jump there. -/
def fall (g : Blocks B) (b : B) : Option B :=
  match (g.blk b).type with
  | .nextBlock next => some next
  | .cond _ _ if1Blk _ => some if1Blk
  | _ => none

/-- The conditional jump of a block. -/
def condLine (g : Blocks B) (b : B) : List (Line B) :=
  match (g.blk b).type with
  | .cond _ _ _ _ => [.condjmp b]
  | _ => []

/-- A block, without what cuts it off. -/
def segment (g : Blocks B) (b : B) : List (Line B) :=
  .label b :: .insns b :: condLine g b

/-- The blocks `bs` in this order, after a block that goes on at `jmpto`. -/
def layout (opts : FlushOpts) (g : Blocks B) : Option B → List B → List (Line B)
  | jmpto, [] => (jmpto.map Line.jmp).toList
  | jmpto, b :: bs => cutOff opts g jmpto b ++ segment g b ++ layout opts g (fall g b) bs

theorem cutOff_eq (opts : FlushOpts) (g : Blocks B) (jmpto : Option B) (b : B) :
    cutOff opts g jmpto b = [] ∨ ∃ target, cutOff opts g jmpto b = [.jmp target] := by
  unfold cutOff
  split
  · exact .inl rfl
  · split
    · exact .inl rfl
    · exact .inr ⟨_, rfl⟩

omit [DecidableEq B] in
theorem condLine_eq (g : Blocks B) (b : B) : condLine g b = [] ∨ condLine g b = [.condjmp b] := by
  unfold condLine
  split
  · exact .inr rfl
  · exact .inl rfl

theorem count_label_layout (opts : FlushOpts) (g : Blocks B) (jmpto : Option B) (bs : List B)
    (b : B) : (layout opts g jmpto bs).count (.label b) = bs.count b := by
  induction bs generalizing jmpto with
  | nil => cases jmpto <;> simp [layout]
  | cons c bs ih =>
    rw [layout, List.count_append, List.count_append, ih, segment]
    rcases cutOff_eq opts g jmpto c with hcut | ⟨target, hcut⟩ <;>
      rcases condLine_eq g c with hcond | hcond <;>
      simp [hcut, hcond, List.count_cons, Nat.add_comm]

theorem count_insns_layout (opts : FlushOpts) (g : Blocks B) (jmpto : Option B) (bs : List B)
    (b : B) : (layout opts g jmpto bs).count (.insns b) = bs.count b := by
  induction bs generalizing jmpto with
  | nil => cases jmpto <;> simp [layout]
  | cons c bs ih =>
    rw [layout, List.count_append, List.count_append, ih, segment]
    rcases cutOff_eq opts g jmpto c with hcut | ⟨target, hcut⟩ <;>
      rcases condLine_eq g c with hcond | hcond <;>
      simp [hcut, hcond, List.count_cons, Nat.add_comm]

theorem fromLabel_append {xs ys : List (Line B)} {b : B} (h : .label b ∉ xs) :
    fromLabel (xs ++ ys) b = fromLabel ys b := by
  apply List.dropWhile_append_of_pos
  intro l hl
  have hne : l ≠ .label b := by
    rintro rfl
    exact h hl
  simpa using hne

theorem label_not_mem_cutOff (opts : FlushOpts) (g : Blocks B) (jmpto : Option B) (b c : B) :
    .label c ∉ cutOff opts g jmpto b := by
  rcases cutOff_eq opts g jmpto b with hcut | ⟨target, hcut⟩ <;> simp [hcut]

omit [DecidableEq B] in
theorem label_not_mem_segment {g : Blocks B} {b c : B} (h : c ≠ b) : .label c ∉ segment g b := by
  rw [segment]
  rcases condLine_eq g b with hcond | hcond <;> simp [hcond, h]

/-- A block is found at its label. -/
theorem fromLabel_layout (opts : FlushOpts) (g : Blocks B) (jmpto : Option B) {as cs : List B}
    {b : B} (hb : b ∉ as) :
    fromLabel (layout opts g jmpto (as ++ b :: cs)) b =
      segment g b ++ layout opts g (fall g b) cs := by
  induction as generalizing jmpto with
  | nil =>
    rw [List.nil_append, layout, List.append_assoc,
      fromLabel_append (label_not_mem_cutOff opts g jmpto b b)]
    rw [segment, fromLabel, List.cons_append, List.dropWhile_cons_of_neg (by simp)]
  | cons a as ih =>
    rw [List.mem_cons, not_or] at hb
    rw [List.cons_append, layout, List.append_assoc,
      fromLabel_append (label_not_mem_cutOff opts g jmpto a b),
      fromLabel_append (label_not_mem_segment hb.1), ih _ hb.2]

/-! ## Threading -/

/-- From a block to another one through blocks without instructions. -/
inductive Skips (g : Blocks B) : B → B → Prop
  | refl (b : B) : Skips g b b
  | skip {b next target : B} : (g.blk b).insns = [] → (g.blk b).type = .nextBlock next →
      Skips g next target → Skips g b target

omit [DecidableEq B] in
theorem skips_threadTo (g : Blocks B) (lim : Nat) (b : B) : Skips g b (threadTo g lim b) := by
  induction lim generalizing b with
  | zero => exact .refl b
  | succ lim ih =>
    rw [threadTo]
    split
    · rename_i hinsns htype
      exact .skip hinsns htype (ih _)
    · exact .refl b

omit [DecidableEq B] in
theorem skips_blkJmpthread (opts : FlushOpts) (g : Blocks B) (b : B) :
    Skips g b (blkJmpthread opts g b) := by
  unfold blkJmpthread
  split
  · exact skips_threadTo g jmpThreadLim b
  · exact .refl b

omit [DecidableEq B] in
/-- The graph goes through such blocks in silence. -/
theorem Skips.walk {g : Blocks B} {b target : B} (h : Skips g b target) :
    (walk g).Run (.enter b) [] (.enter target) := by
  induction h with
  | refl b => exact .refl _
  | skip hinsns htype _ ih =>
    have hstep := GraphStep.nextBlock htype
    rw [visits, if_pos hinsns] at hstep
    exact .silent hstep ih

/-! ## The stream and the graph -/

/-- Each block once, with those that control can go to. -/
structure Covers (g : Blocks B) (order : List B) : Prop where
  nodup : order.Nodup
  closed : ∀ b ∈ order, ∀ next, Succ g b next → next ∈ order
  mustgen : ∀ b ∈ g.mustgen, b ∈ order

omit [DecidableEq B] in
theorem Covers.skips {g : Blocks B} {order : List B} (h : Covers g order) {b target : B}
    (hskips : Skips g b target) (hb : b ∈ order) : target ∈ order := by
  induction hskips with
  | refl b => exact hb
  | skip _ htype _ ih => exact ih (h.closed _ hb _ (.next htype))

/-- The stream is where the graph is, or ahead of it by blocks without
instructions. -/
inductive Ahead (g : Blocks B) (order : List B) (s : List (Line B)) : Pc B → Node B → Prop
  | jmp {b target : B} {rest : List (Line B)} : Skips g b target → target ∈ order →
      Ahead g order s (.lines (.jmp target :: rest)) (.enter b)
  | label {b target : B} : Skips g b target → target ∈ order →
      Ahead g order s (.lines (fromLabel s target)) (.enter b)
  | insns {b : B} {rest : List (Line B)} : b ∈ order →
      fromLabel s b = .label b :: .insns b :: rest →
      Ahead g order s (.lines (.insns b :: rest)) (.enter b)
  | condjmp {b : B} {rest : List (Line B)} : b ∈ order →
      fromLabel s b = .label b :: .insns b :: .condjmp b :: rest →
      Ahead g order s (.lines (.condjmp b :: rest)) (.decide b)
  | stopped : Ahead g order s .stopped .stopped

section Layout

variable (opts : FlushOpts) {g : Blocks B} {order : List B}

/-- A block of the order with what comes after it. -/
theorem Covers.split (h : Covers g order) {b : B} (hb : b ∈ order) :
    ∃ as cs, order = as ++ b :: cs ∧
      fromLabel (layout opts g none order) b = segment g b ++ layout opts g (fall g b) cs := by
  obtain ⟨as, cs, horder⟩ := List.append_of_mem hb
  have hnodup := h.nodup
  rw [horder] at hnodup
  have hfresh : b ∉ as := fun hin =>
    List.disjoint_of_nodup_append hnodup hin List.mem_cons_self
  refine ⟨as, cs, horder, ?_⟩
  rw [horder]
  exact fromLabel_layout opts g none hfresh

theorem Covers.label (h : Covers g order) {b : B} (hb : b ∈ order) :
    ∃ rest, fromLabel (layout opts g none order) b = .label b :: .insns b :: rest := by
  obtain ⟨as, cs, -, heq⟩ := h.split opts hb
  exact ⟨_, heq⟩

/-- After a block that goes on at `next`: that block, or a jump to it. -/
theorem Covers.ahead_after (h : Covers g order) {as cs : List B} (horder : order = as ++ cs)
    {next : B} (hnext : next ∈ order) :
    Ahead g order (layout opts g none order) (.lines (layout opts g (some next) cs))
      (.enter next) := by
  cases cs with
  | nil => exact .jmp (.refl next) hnext
  | cons c cs =>
    by_cases heq : next = c
    · subst heq
      have hlabel : Ahead g order (layout opts g none order)
          (.lines (fromLabel (layout opts g none order) next)) (.enter next) :=
        .label (.refl next) hnext
      have hnodup := h.nodup
      rw [horder] at hnodup
      have hfresh : next ∉ as := fun hin =>
        List.disjoint_of_nodup_append hnodup hin List.mem_cons_self
      have hfrom := @fromLabel_layout B _ opts g none as cs next hfresh
      rw [← horder] at hfrom
      rw [hfrom] at hlabel
      have hcut : cutOff opts g (some next) next = [] := by
        rw [cutOff, if_pos rfl]
      rw [layout, hcut, List.nil_append]
      exact hlabel
    · have hcut : cutOff opts g (some next) c = [.jmp (blkJmpthread opts g next)] := by
        rw [cutOff, if_neg heq]
      have hskips := skips_blkJmpthread opts g next
      rw [layout, hcut]
      exact .jmp hskips (h.skips hskips hnext)

/-- What comes after the instructions of a block, by the way it ends. -/
theorem Covers.after_insns (h : Covers g order) {b : B} (hb : b ∈ order) {rest : List (Line B)}
    (hrest : fromLabel (layout opts g none order) b = .label b :: .insns b :: rest) :
    (∀ next, (g.blk b).type = .nextBlock next →
      Ahead g order (layout opts g none order) (.lines rest) (.enter next)) ∧
    (∀ insn if0Blk if1Blk unlikely, (g.blk b).type = .cond insn if0Blk if1Blk unlikely →
      ∃ rest', rest = .condjmp b :: rest' ∧
        Ahead g order (layout opts g none order) (.lines rest') (.enter if1Blk)) := by
  obtain ⟨as, cs, horder, hsplit⟩ := h.split opts hb
  rw [hrest, segment, List.cons_append, List.cons_append] at hsplit
  obtain rfl := (List.cons.inj (List.cons.inj hsplit).2).2
  have horder' : order = (as ++ [b]) ++ cs := by
    rw [horder, List.append_assoc]
    rfl
  constructor
  · intro next htype
    have hafter := h.ahead_after opts horder' (h.closed b hb next (.next htype))
    simpa only [condLine, fall, htype, List.nil_append] using hafter
  · intro insn if0Blk if1Blk unlikely htype
    have hafter := h.ahead_after opts horder' (h.closed b hb if1Blk (.if1 htype))
    refine ⟨layout opts g (some if1Blk) cs, ?_, hafter⟩
    simp only [condLine, fall, htype, List.singleton_append]

/-- What the stream does, the graph does. -/
theorem Covers.stream_simulates (h : Covers g order) :
    (stream g (layout opts g none order)).Simulates (walk g)
      (Ahead g order (layout opts g none order)) := by
  intro pc node es pc' hahead hstep
  cases hahead with
  | jmp hskips htarget =>
    cases hstep
    exact ⟨_, .refl _, .label hskips htarget⟩
  | label hskips htarget =>
    obtain ⟨rest, hrest⟩ := h.label opts htarget
    rw [hrest] at hstep
    cases hstep
    exact ⟨_, hskips.walk, .insns htarget hrest⟩
  | @insns b rest hb hrest =>
    obtain ⟨hnext, hcond⟩ := h.after_insns opts hb hrest
    cases hstep with
    | terminal htype => exact ⟨_, .single (.terminal htype), .stopped⟩
    | nextExpr htype hin =>
      exact ⟨_, .single (.nextExpr htype hin), .label (.refl _) (h.mustgen _ hin)⟩
    | nextBlock htype => exact ⟨_, .single (.nextBlock htype), hnext _ htype⟩
    | cond htype =>
      obtain ⟨rest', rfl, -⟩ := hcond _ _ _ _ htype
      exact ⟨_, .single (.cond htype), .condjmp hb hrest⟩
  | @condjmp b rest hb hrest =>
    obtain ⟨-, hcond⟩ := h.after_insns opts hb hrest
    cases hstep with
    | taken htype =>
      exact ⟨_, .single (.taken htype), .label (.refl _) (h.closed b hb _ (.if0 htype))⟩
    | notTaken htype =>
      obtain ⟨rest', heq, hafter⟩ := hcond _ _ _ _ htype
      obtain rfl := (List.cons.inj heq).2
      exact ⟨_, .single (.notTaken htype), hafter⟩
    | @parity _ if0Blk if1Blk _ _ to0 _ htype hparity =>
      refine ⟨_, .single (.parity htype hparity), .label (.refl _) ?_⟩
      cases to0 with
      | true => exact h.closed b hb _ (.if0 htype)
      | false => exact h.closed b hb _ (.if1 htype)
  | stopped => cases hstep

/-- From the instructions of a block the stream does what the graph does. -/
theorem Covers.insns_step (h : Covers g order) {b : B} (hb : b ∈ order) {rest : List (Line B)}
    (hrest : fromLabel (layout opts g none order) b = .label b :: .insns b :: rest)
    {es : List (BlkEvent B)} {node : Node B} (hstep : GraphStep g (.enter b) es node) :
    ∃ pc, StreamStep g (layout opts g none order) (.lines (.insns b :: rest)) es pc ∧
      Ahead g order (layout opts g none order) pc node := by
  obtain ⟨hnext, hcond⟩ := h.after_insns opts hb hrest
  cases hstep with
  | terminal htype => exact ⟨_, .terminal htype, .stopped⟩
  | nextExpr htype hin =>
    exact ⟨_, .nextExpr htype hin, .label (.refl _) (h.mustgen _ hin)⟩
  | nextBlock htype => exact ⟨_, .nextBlock htype, hnext _ htype⟩
  | cond htype =>
    obtain ⟨rest', rfl, -⟩ := hcond _ _ _ _ htype
    exact ⟨_, .cond htype, .condjmp hb hrest⟩

/-- From a label the stream does what the graph does, unless the graph is still
on its way there. -/
theorem Covers.label_step (h : Covers g order) {b target : B} (hskips : Skips g b target)
    (htarget : target ∈ order) {es : List (BlkEvent B)} {node : Node B}
    (hstep : GraphStep g (.enter b) es node) :
    ∃ pc, (stream g (layout opts g none order)).Run
        (.lines (fromLabel (layout opts g none order) target)) es pc ∧
      Ahead g order (layout opts g none order) pc node := by
  cases hskips with
  | refl =>
    obtain ⟨rest, hrest⟩ := h.label opts htarget
    obtain ⟨pc, hpc, hahead⟩ := h.insns_step opts htarget hrest hstep
    refine ⟨pc, ?_, hahead⟩
    rw [hrest]
    exact .silent .label (.single hpc)
  | @skip _ next _ hinsns htype hskips =>
    have hes : es = [] ∧ node = .enter next := by
      cases hstep with
      | nextBlock htype' =>
        rw [htype] at htype'
        obtain rfl := BlkType.nextBlock.inj htype'
        rw [visits, if_pos hinsns]
        exact ⟨rfl, rfl⟩
      | terminal htype' => rw [htype] at htype'; cases htype'
      | nextExpr htype' => rw [htype] at htype'; cases htype'
      | cond htype' => rw [htype] at htype'; cases htype'
    obtain ⟨rfl, rfl⟩ := hes
    exact ⟨_, .refl _, .label hskips htarget⟩

/-- What the graph does, the stream does. -/
theorem Covers.graph_simulates (h : Covers g order) :
    (walk g).Simulates (stream g (layout opts g none order)) fun node pc =>
      Ahead g order (layout opts g none order) pc node := by
  intro node pc es node' hahead hstep
  cases hahead with
  | jmp hskips htarget =>
    obtain ⟨pc, hrun, hahead⟩ := h.label_step opts hskips htarget hstep
    exact ⟨pc, .silent .jmp hrun, hahead⟩
  | label hskips htarget => exact h.label_step opts hskips htarget hstep
  | insns hb hrest =>
    obtain ⟨pc, hpc, hahead⟩ := h.insns_step opts hb hrest hstep
    exact ⟨pc, .single hpc, hahead⟩
  | @condjmp b rest hb hrest =>
    obtain ⟨-, hcond⟩ := h.after_insns opts hb hrest
    cases hstep with
    | taken htype =>
      exact ⟨_, .single (.taken htype), .label (.refl _) (h.closed b hb _ (.if0 htype))⟩
    | notTaken htype =>
      obtain ⟨rest', heq, hafter⟩ := hcond _ _ _ _ htype
      obtain rfl := (List.cons.inj heq).2
      exact ⟨_, .single (.notTaken htype), hafter⟩
    | @parity _ if0Blk if1Blk _ _ to0 htype hparity =>
      refine ⟨_, .single (.parity htype hparity), .label (.refl _) ?_⟩
      cases to0 with
      | true => exact h.closed b hb _ (.if0 htype)
      | false => exact h.closed b hb _ (.if1 htype)
  | stopped => cases hstep

/-- The traces of the stream are those of the graph. -/
theorem Covers.traces_iff (h : Covers g order) {b : B} (hb : b ∈ order)
    (es : List (BlkEvent B)) :
    (stream g (layout opts g none order)).Traces
        (.lines (fromLabel (layout opts g none order) b)) es ↔
      (walk g).Traces (.enter b) es :=
  Lib.Emitter.traces_iff (h.stream_simulates opts) (h.graph_simulates opts) (.label (.refl b) hb) es

/-- The stream never runs off its end. -/
theorem Covers.run_ne_nil (h : Covers g order) {b : B} (hb : b ∈ order)
    {es : List (BlkEvent B)} {rest : List (Line B)}
    (hrun : (stream g (layout opts g none order)).Run
      (.lines (fromLabel (layout opts g none order) b)) es (.lines rest)) : rest ≠ [] := by
  obtain ⟨node, -, hahead⟩ := (h.stream_simulates opts).run (.label (.refl b) hb) hrun
  generalize hpc : Pc.lines rest = pc at hahead
  cases hahead with
  | label hskips htarget =>
    obtain ⟨rest', hrest'⟩ := h.label opts htarget
    rw [Pc.lines.inj hpc, hrest']
    exact List.cons_ne_nil _ _
  | jmp =>
    rw [Pc.lines.inj hpc]
    exact List.cons_ne_nil _ _
  | insns =>
    rw [Pc.lines.inj hpc]
    exact List.cons_ne_nil _ _
  | condjmp =>
    rw [Pc.lines.inj hpc]
    exact List.cons_ne_nil _ _
  | stopped => cases hpc

end Layout

end Ucc.Cc1
