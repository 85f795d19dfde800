/-
  Cc1/BlkFlush.lean --- the traversals of the blocks.

  `mark_reachable_blocks` marks what can be reached, and `bfs_block` writes the
  blocks in some order: it marks a block before it visits those it is merged
  from, and writes it after them.  All that is said of the order is that it has
  each block once, and that it is closed under the edges of the graph.
-/
import Ucc.Cc1.BlkLayout

set_option autoImplicit false

namespace Ucc.Cc1

variable {B : Type} [DecidableEq B]

/-! ## Marking -/

/-- The blocks after a block. -/
def succs (g : Blocks B) (b : B) : List B :=
  match (g.blk b).type with
  | .nextBlock next => [next]
  | .cond _ if0Blk if1Blk _ => [if0Blk, if1Blk]
  | _ => []

omit [DecidableEq B] in
theorem succ_iff {g : Blocks B} {b next : B} : Succ g b next ↔ next ∈ succs g b := by
  unfold succs
  constructor
  · intro h
    cases h with
    | next htype => simp [htype]
    | if0 htype => simp [htype]
    | if1 htype => simp [htype]
  · intro h
    split at h
    · rename_i htype
      obtain rfl := List.mem_singleton.1 h
      exact .next htype
    · rename_i htype
      rcases List.mem_cons.1 h with rfl | h
      · exact .if0 htype
      · obtain rfl := List.mem_singleton.1 h
        exact .if1 htype
    · cases h

/-- No block that can be reached from `b` is uninitialised. -/
def Initialised (g : Blocks B) (b : B) : Prop :=
  ∀ x, Relation.ReflTransGen (Succ g) b x → (g.blk x).type ≠ .uninit

omit [DecidableEq B] in
theorem Initialised.succ {g : Blocks B} {b next : B} (h : Initialised g b)
    (hnext : next ∈ succs g b) : Initialised g next :=
  fun x hx => h x (.head (succ_iff.2 hnext) hx)

/-- What marking from `roots` does. -/
structure Marks (g : Blocks B) (roots : List B) (marked marked' : Finset B) : Prop where
  mono : marked ⊆ marked'
  root : ∀ b ∈ roots, b ∈ marked'
  reach : ∀ x ∈ marked', x ∈ marked ∨ ∃ b ∈ roots, Relation.ReflTransGen (Succ g) b x
  closed : ∀ x ∈ marked', x ∉ marked → ∀ y ∈ succs g x, y ∈ marked'

omit [DecidableEq B] in
theorem Marks.refl (g : Blocks B) (marked : Finset B) : Marks g [] marked marked :=
  ⟨Finset.Subset.refl _, by simp, fun x hx => .inl hx, fun x hx hnot => absurd hx hnot⟩

omit [DecidableEq B] in
theorem Marks.cons {g : Blocks B} {b : B} {bs : List B} {m m' m'' : Finset B}
    (h : Marks g [b] m m') (h' : Marks g bs m' m'') : Marks g (b :: bs) m m'' := by
  refine ⟨h.mono.trans h'.mono, ?_, ?_, ?_⟩
  · intro x hx
    rcases List.mem_cons.1 hx with rfl | hx
    · exact h'.mono (h.root x List.mem_cons_self)
    · exact h'.root x hx
  · intro x hx
    rcases h'.reach x hx with hx | ⟨c, hc, hreach⟩
    · rcases h.reach x hx with hx | ⟨c, hc, hreach⟩
      · exact .inl hx
      · obtain rfl := List.mem_singleton.1 hc
        exact .inr ⟨c, List.mem_cons_self, hreach⟩
    · exact .inr ⟨c, List.mem_cons_of_mem b hc, hreach⟩
  · intro x hx hnot y hy
    by_cases hin : x ∈ m'
    · exact h'.mono (h.closed x hin hnot y hy)
    · exact h'.closed x hx hin y hy

/-- A block is marked, and then those after it. -/
theorem Marks.block {g : Blocks B} {b : B} {m m' : Finset B}
    (h : Marks g (succs g b) (insert b m) m') : Marks g [b] m m' := by
  have hb : b ∈ m' := h.mono (Finset.mem_insert_self b m)
  refine ⟨(Finset.subset_insert b m).trans h.mono, ?_, ?_, ?_⟩
  · intro x hx
    obtain rfl := List.mem_singleton.1 hx
    exact hb
  · intro x hx
    rcases h.reach x hx with hx | ⟨c, hc, hreach⟩
    · rcases Finset.mem_insert.1 hx with rfl | hx
      · exact .inr ⟨x, List.mem_cons_self, .refl⟩
      · exact .inl hx
    · exact .inr ⟨b, List.mem_cons_self, .head (succ_iff.2 hc) hreach⟩
  · intro x hx hnot y hy
    by_cases heq : x = b
    · subst heq
      exact h.root y hy
    · exact h.closed x hx (by simp [heq, hnot]) y hy

variable [Fintype B]

theorem card_compl_insert_lt {b : B} {m : Finset B} (hb : b ∉ m) {fuel : Nat}
    (hfuel : mᶜ.card < fuel + 1) : (insert b m)ᶜ.card < fuel := by
  rw [Finset.compl_insert]
  have hlt := Finset.card_erase_lt_of_mem (Finset.mem_compl.2 hb)
  omega

theorem card_compl_lt_of_subset {m m' : Finset B} (h : m ⊆ m') {fuel : Nat}
    (hfuel : mᶜ.card < fuel) : m'ᶜ.card < fuel :=
  (Finset.card_le_card (Finset.compl_subset_compl.2 h)).trans_lt hfuel

theorem foldlM_marks {g : Blocks B} {fuel : Nat}
    (hone : ∀ (m : Finset B) b, mᶜ.card < fuel → Initialised g b →
      ∃ m', markBlocks g fuel m b = some m' ∧ Marks g [b] m m')
    {bs : List B} {m : Finset B} (hfuel : mᶜ.card < fuel) (hinit : ∀ b ∈ bs, Initialised g b) :
    ∃ m', bs.foldlM (markBlocks g fuel) m = some m' ∧ Marks g bs m m' := by
  induction bs generalizing m with
  | nil => exact ⟨m, rfl, .refl g m⟩
  | cons b bs ih =>
    obtain ⟨m1, hm1, hmarks1⟩ := hone m b hfuel (hinit b List.mem_cons_self)
    obtain ⟨m2, hm2, hmarks2⟩ := ih (card_compl_lt_of_subset hmarks1.mono hfuel)
      (fun c hc => hinit c (List.mem_cons_of_mem b hc))
    refine ⟨m2, ?_, hmarks1.cons hmarks2⟩
    rw [List.foldlM_cons, hm1]
    exact hm2

omit [DecidableEq B] [Fintype B] in
theorem markBlocks_succ [DecidableEq B] {g : Blocks B} {fuel : Nat} {m : Finset B} {b : B}
    (hb : b ∉ m) (htype : (g.blk b).type ≠ .uninit) :
    markBlocks g (fuel + 1) m b = (succs g b).foldlM (markBlocks g fuel) (insert b m) := by
  rw [markBlocks, if_neg hb, succs]
  cases hcase : (g.blk b).type with
  | uninit => exact absurd hcase htype
  | terminal => rfl
  | nextExpr => rfl
  | nextBlock next => simp
  | cond insn if0Blk if1Blk unlikely => simp

/-- Marking halts, and marks what can be reached. -/
theorem markBlocks_spec (g : Blocks B) (fuel : Nat) (m : Finset B) (b : B)
    (hfuel : mᶜ.card < fuel) (hinit : Initialised g b) :
    ∃ m', markBlocks g fuel m b = some m' ∧ Marks g [b] m m' := by
  induction fuel generalizing m b with
  | zero => exact absurd hfuel (Nat.not_lt_zero _)
  | succ fuel ih =>
    by_cases hb : b ∈ m
    · refine ⟨m, by rw [markBlocks, if_pos hb], Finset.Subset.refl _, ?_, fun x hx => .inl hx,
        fun x hx hnot => absurd hx hnot⟩
      intro x hx
      obtain rfl := List.mem_singleton.1 hx
      exact hb
    · obtain ⟨m', hm', hmarks⟩ := foldlM_marks ih (card_compl_insert_lt hb hfuel)
        (fun c hc => hinit.succ hc)
      refine ⟨m', ?_, hmarks.block⟩
      rw [markBlocks_succ hb (hinit b .refl), hm']

/-! ## Writing -/

/-- What visiting `roots` does: the blocks of `order` are written. -/
structure Emits (opts : FlushOpts) (g : Blocks B) (reachable : Finset B) (roots : List B)
    (st st' : FlushState B) (order : List B) : Prop where
  out : ∀ bs, st.out ++ layout opts g st.jmpto (order ++ bs) =
    st'.out ++ layout opts g st'.jmpto bs
  nodup : order.Nodup
  fresh : ∀ x ∈ order, x ∉ st.emitted
  emitted : ∀ x, x ∈ st'.emitted ↔ x ∈ st.emitted ∨ x ∈ order
  reach : ∀ x ∈ order, x ∈ reachable
  closed : ∀ x ∈ order, ∀ y ∈ succs g x, y ∈ st'.emitted
  root : ∀ b ∈ roots, b ∈ reachable → b ∈ st'.emitted

omit [Fintype B] in
theorem Emits.refl (opts : FlushOpts) (g : Blocks B) (reachable : Finset B)
    (st : FlushState B) : Emits opts g reachable [] st st [] :=
  ⟨fun _ => rfl, List.nodup_nil, by simp, by simp, by simp, by simp, by simp⟩

omit [Fintype B] in
theorem Emits.cons {opts : FlushOpts} {g : Blocks B} {reachable : Finset B} {b : B}
    {bs : List B} {st st' st'' : FlushState B} {order order' : List B}
    (h : Emits opts g reachable [b] st st' order)
    (h' : Emits opts g reachable bs st' st'' order') :
    Emits opts g reachable (b :: bs) st st'' (order ++ order') := by
  refine ⟨?_, ?_, ?_, ?_, ?_, ?_, ?_⟩
  · intro cs
    rw [List.append_assoc, h.out, h'.out]
  · refine List.nodup_append'.2 ⟨h.nodup, h'.nodup, ?_⟩
    intro x hx hx'
    exact h'.fresh x hx' ((h.emitted x).2 (.inr hx))
  · intro x hx hin
    rcases List.mem_append.1 hx with hx | hx
    · exact h.fresh x hx hin
    · exact h'.fresh x hx ((h.emitted x).2 (.inl hin))
  · intro x
    rw [h'.emitted, h.emitted, List.mem_append, or_assoc]
  · intro x hx
    rcases List.mem_append.1 hx with hx | hx
    · exact h.reach x hx
    · exact h'.reach x hx
  · intro x hx y hy
    rcases List.mem_append.1 hx with hx | hx
    · exact (h'.emitted y).2 (.inl (h.closed x hx y hy))
    · exact h'.closed x hx y hy
  · intro c hc hreach
    rcases List.mem_cons.1 hc with rfl | hc
    · exact (h'.emitted c).2 (.inl (h.root c List.mem_cons_self hreach))
    · exact h'.root c hc hreach

/-- The state after a block and its conditional jump have been written. -/
def afterBlk (opts : FlushOpts) (g : Blocks B) (b : B) (st : FlushState B) : FlushState B where
  jmpto := fall g b
  emitted := st.emitted
  out := st.out ++ cutOff opts g st.jmpto b ++ segment g b

omit [Fintype B] in
/-- A block is marked, those it is merged from are written, then the block, then
those after it. -/
theorem Emits.block {opts : FlushOpts} {g : Blocks B} {reachable : Finset B} {b : B}
    {preds next : List B} {st st2 st4 : FlushState B} {o1 o2 : List B} (hb : b ∉ st.emitted)
    (hreach : b ∈ reachable) (hclosed : ∀ y ∈ succs g b, y ∈ reachable)
    (h1 : Emits opts g reachable preds { st with emitted := insert b st.emitted } st2 o1)
    (h2 : Emits opts g reachable next (afterBlk opts g b st2) st4 o2)
    (hnext : ∀ y ∈ succs g b, y ∈ next) :
    Emits opts g reachable [b] st st4 (o1 ++ b :: o2) := by
  have hb2 : b ∈ st2.emitted := (h1.emitted b).2 (.inl (Finset.mem_insert_self b _))
  have hfresh2 : ∀ x ∈ o2, x ∉ st2.emitted := h2.fresh
  have hemitted2 : ∀ x, x ∈ st4.emitted ↔ x ∈ st2.emitted ∨ x ∈ o2 := h2.emitted
  refine ⟨?_, ?_, ?_, ?_, ?_, ?_, ?_⟩
  · intro bs
    calc st.out ++ layout opts g st.jmpto (o1 ++ b :: o2 ++ bs)
        = st2.out ++ layout opts g st2.jmpto (b :: (o2 ++ bs)) := by
          rw [List.append_assoc]
          exact h1.out (b :: (o2 ++ bs))
      _ = (afterBlk opts g b st2).out ++
            layout opts g (afterBlk opts g b st2).jmpto (o2 ++ bs) := by
          simp only [layout, afterBlk, List.append_assoc]
      _ = st4.out ++ layout opts g st4.jmpto bs := h2.out bs
  · refine List.nodup_append'.2 ⟨h1.nodup, List.nodup_cons.2 ⟨?_, h2.nodup⟩, ?_⟩
    · intro hin
      exact hfresh2 b hin hb2
    · intro x hx hx'
      rcases List.mem_cons.1 hx' with rfl | hx'
      · exact h1.fresh x hx (Finset.mem_insert_self x _)
      · exact hfresh2 x hx' ((h1.emitted x).2 (.inr hx))
  · intro x hx hin
    rcases List.mem_append.1 hx with hx | hx
    · exact h1.fresh x hx (Finset.mem_insert_of_mem hin)
    · rcases List.mem_cons.1 hx with rfl | hx
      · exact hb hin
      · exact hfresh2 x hx ((h1.emitted x).2 (.inl (Finset.mem_insert_of_mem hin)))
  · intro x
    rw [hemitted2, h1.emitted, Finset.mem_insert, List.mem_append, List.mem_cons]
    tauto
  · intro x hx
    rcases List.mem_append.1 hx with hx | hx
    · exact h1.reach x hx
    · rcases List.mem_cons.1 hx with rfl | hx
      · exact hreach
      · exact h2.reach x hx
  · intro x hx y hy
    rcases List.mem_append.1 hx with hx | hx
    · exact (hemitted2 y).2 (.inl (h1.closed x hx y hy))
    · rcases List.mem_cons.1 hx with rfl | hx
      · exact h2.root y (hnext y hy) (hclosed y hy)
      · exact h2.closed x hx y hy
  · intro c hc _
    obtain rfl := List.mem_singleton.1 hc
    exact (hemitted2 c).2 (.inl hb2)

theorem Emits.card_lt {opts : FlushOpts} {g : Blocks B} {reachable : Finset B} {roots : List B}
    {st st' : FlushState B} {order : List B} (h : Emits opts g reachable roots st st' order)
    {fuel : Nat} (hfuel : st.emittedᶜ.card < fuel) : st'.emittedᶜ.card < fuel :=
  card_compl_lt_of_subset (fun x hx => (h.emitted x).2 (.inl hx)) hfuel

theorem foldlM_emits {opts : FlushOpts} {g : Blocks B} {reachable : Finset B} {fuel : Nat}
    (hone : ∀ (st : FlushState B) b, st.emittedᶜ.card < fuel →
      ∃ st' order, bfsBlock opts g reachable fuel st b = some st' ∧
        Emits opts g reachable [b] st st' order)
    (bs : List B) {st : FlushState B} (hfuel : st.emittedᶜ.card < fuel) :
    ∃ st' order, bs.foldlM (bfsBlock opts g reachable fuel) st = some st' ∧
      Emits opts g reachable bs st st' order := by
  induction bs generalizing st with
  | nil => exact ⟨st, [], rfl, .refl opts g reachable st⟩
  | cons b bs ih =>
    obtain ⟨st1, o1, hst1, hemits1⟩ := hone st b hfuel
    obtain ⟨st2, o2, hst2, hemits2⟩ := ih (hemits1.card_lt hfuel)
    refine ⟨st2, o1 ++ o2, ?_, hemits1.cons hemits2⟩
    rw [List.foldlM_cons, hst1]
    exact hst2

/-- The order in which `bfs_block` visits the blocks after a block. -/
def visitOrder (g : Blocks B) (b : B) : List B :=
  match (g.blk b).type with
  | .nextBlock next => [next]
  | .cond _ if0Blk if1Blk true => [if0Blk, if1Blk]
  | .cond _ if0Blk if1Blk false => [if1Blk, if0Blk]
  | _ => []

omit [DecidableEq B] [Fintype B] in
theorem mem_visitOrder {g : Blocks B} {b y : B} (h : y ∈ succs g b) : y ∈ visitOrder g b := by
  unfold succs at h
  unfold visitOrder
  cases htype : (g.blk b).type with
  | uninit => simp [htype] at h
  | terminal => simp [htype] at h
  | nextExpr => simp [htype] at h
  | nextBlock next => simpa [htype] using h
  | cond insn if0Blk if1Blk unlikely =>
    simp only [htype] at h
    cases unlikely with
    | true => exact h
    | false =>
      simp only [List.mem_cons, List.not_mem_nil, or_false] at h ⊢
      exact h.symm

omit [Fintype B] in
/-- `bfs_block` in steps; the assertion of `blk_jmpnext` holds, since the block
that was just written has used up the pending jump. -/
theorem bfsBlock_succ {opts : FlushOpts} {g : Blocks B} {reachable : Finset B} {fuel : Nat}
    {st : FlushState B} {b : B} (hb : b ∉ st.emitted) (hreach : b ∈ reachable)
    (htype : (g.blk b).type ≠ .uninit) :
    bfsBlock opts g reachable (fuel + 1) st b =
      ((g.blk b).mergePreds.foldlM (bfsBlock opts g reachable fuel)
          { st with emitted := insert b st.emitted }).bind fun st2 =>
        (visitOrder g b).foldlM (bfsBlock opts g reachable fuel) (afterBlk opts g b st2) := by
  have hcond : ¬ (b ∈ st.emitted ∨ b ∉ reachable) := by simp [hb, hreach]
  rw [bfsBlock, if_neg hcond]
  refine congrArg (Option.bind _) (funext fun st2 => ?_)
  cases hcase : (g.blk b).type with
  | uninit => exact absurd hcase htype
  | terminal => simp [visitOrder, afterBlk, blkCodegen, segment, condLine, fall, hcase]
  | nextExpr => simp [visitOrder, afterBlk, blkCodegen, segment, condLine, fall, hcase]
  | nextBlock next =>
    simp [visitOrder, afterBlk, blkCodegen, blkJmpnext, segment, condLine, fall, hcase]
  | cond insn if0Blk if1Blk unlikely =>
    cases unlikely <;>
      simp [visitOrder, afterBlk, blkCodegen, blkJmpnext, segment, condLine, fall, hcase]

/-- Writing halts, and writes what has been marked as reachable. -/
theorem bfsBlock_spec (opts : FlushOpts) (g : Blocks B) {reachable : Finset B}
    (hinit : ∀ x ∈ reachable, (g.blk x).type ≠ .uninit)
    (hclosed : ∀ x ∈ reachable, ∀ y ∈ succs g x, y ∈ reachable) (fuel : Nat)
    (st : FlushState B) (b : B) (hfuel : st.emittedᶜ.card < fuel) :
    ∃ st' order, bfsBlock opts g reachable fuel st b = some st' ∧
      Emits opts g reachable [b] st st' order := by
  induction fuel generalizing st b with
  | zero => exact absurd hfuel (Nat.not_lt_zero _)
  | succ fuel ih =>
    by_cases hskip : b ∈ st.emitted ∨ b ∉ reachable
    · refine ⟨st, [], by rw [bfsBlock, if_pos hskip], fun _ => rfl, List.nodup_nil, by simp,
        by simp, by simp, by simp, ?_⟩
      intro c hc hreach
      obtain rfl := List.mem_singleton.1 hc
      exact hskip.resolve_right (fun h => h hreach)
    · rw [not_or, not_not] at hskip
      obtain ⟨hb, hreach⟩ := hskip
      have hfuel1 : ({ st with emitted := insert b st.emitted } : FlushState B).emittedᶜ.card <
          fuel := card_compl_insert_lt hb hfuel
      obtain ⟨st2, o1, hst2, hemits1⟩ := foldlM_emits ih (g.blk b).mergePreds hfuel1
      have hfuel2 : (afterBlk opts g b st2).emittedᶜ.card < fuel := hemits1.card_lt hfuel1
      obtain ⟨st4, o2, hst4, hemits2⟩ := foldlM_emits ih (visitOrder g b) hfuel2
      refine ⟨st4, o1 ++ b :: o2, ?_, hemits1.block hb hreach (hclosed b hreach) hemits2
        (fun y hy => mem_visitOrder hy)⟩
      rw [bfsBlock_succ hb hreach (hinit b hreach), hst2]
      exact hst4

/-! ## The whole of a function -/

/-- The blocks that can be reached are marked, and no others. -/
theorem markReachableBlocks_spec {g : Blocks B} {first : B}
    (hinit : ∀ b, Reachable g first b → (g.blk b).type ≠ .uninit) :
    ∃ m reachable, markReachableBlocks g (Fintype.card B + 1) ∅ first = some m ∧
      g.mustgen.foldlM (markReachableBlocks g (Fintype.card B + 1)) m = some reachable ∧
      ∀ b, b ∈ reachable ↔ Reachable g first b := by
  have hroots : ∀ b ∈ first :: g.mustgen, Initialised g b :=
    fun b hb x hx => hinit x ⟨b, hb, hx⟩
  have hfuel : (∅ : Finset B)ᶜ.card < Fintype.card B + 1 := by
    rw [Finset.compl_empty, Finset.card_univ]
    exact Nat.lt_succ_self _
  obtain ⟨reachable, hfold, hmarks⟩ :=
    foldlM_marks (markBlocks_spec g (Fintype.card B + 1)) hfuel hroots
  rw [List.foldlM_cons] at hfold
  obtain ⟨m, hm, hreachable⟩ := Option.bind_eq_some_iff.1 hfold
  refine ⟨m, reachable, hm, hreachable, fun b => ⟨?_, ?_⟩⟩
  · intro hb
    exact (hmarks.reach b hb).resolve_left (Finset.notMem_empty b)
  · rintro ⟨root, hroot, hreach⟩
    induction hreach with
    | refl => exact hmarks.root root hroot
    | tail _ hsucc ih =>
      exact hmarks.closed _ ih (Finset.notMem_empty _) _ (succ_iff.1 hsucc)

/-- The stream is the layout of an order, without the blocks that `dot_block` has
marked as written. -/
theorem blkFlushall_eq (opts : FlushOpts) {g : Blocks B} {first : B}
    (hinit : ∀ b, Reachable g first b → (g.blk b).type ≠ .uninit) :
    ∃ (dumped : Finset B) (order : List B),
      blkFlushall opts g first = some (layout opts g none order) ∧
      (if opts.dumpBasicBlocks then first ∈ dumped else dumped = ∅) ∧
      order.Nodup ∧ (∀ x ∈ order, x ∉ dumped) ∧
      (∀ b ∈ first :: g.mustgen, b ∈ dumped ∨ b ∈ order) ∧
      ∀ x ∈ order, ∀ y ∈ succs g x, y ∈ dumped ∨ y ∈ order := by
  obtain ⟨dumped, hdumped, hfirst⟩ :
      ∃ dumped, emittedBefore opts g (Fintype.card B + 1) first = some dumped ∧
        (if opts.dumpBasicBlocks then first ∈ dumped else dumped = ∅) := by
    unfold emittedBefore
    cases opts.dumpBasicBlocks with
    | false => exact ⟨∅, rfl, rfl⟩
    | true =>
      have hfuel : (∅ : Finset B)ᶜ.card < Fintype.card B + 1 := by
        rw [Finset.compl_empty, Finset.card_univ]
        exact Nat.lt_succ_self _
      obtain ⟨dumped, hdumped, hmarks⟩ := markBlocks_spec g (Fintype.card B + 1) ∅ first hfuel
        (fun x hx => hinit x ⟨first, List.mem_cons_self, hx⟩)
      exact ⟨dumped, hdumped, hmarks.root first List.mem_cons_self⟩
  obtain ⟨m, reachable, hm, hreachable, hiff⟩ := markReachableBlocks_spec hinit
  have hclosed : ∀ x ∈ reachable, ∀ y ∈ succs g x, y ∈ reachable := by
    intro x hx y hy
    obtain ⟨root, hroot, hreach⟩ := (hiff x).1 hx
    exact (hiff y).2 ⟨root, hroot, hreach.tail (succ_iff.2 hy)⟩
  have hfuel : (FlushState.mk none dumped []).emittedᶜ.card < Fintype.card B + 1 :=
    Nat.lt_succ_of_le (Finset.card_le_univ _)
  obtain ⟨st, order, hfold, hemits⟩ :=
    foldlM_emits (bfsBlock_spec opts g (fun x hx => hinit x ((hiff x).1 hx)) hclosed _)
      (first :: g.mustgen) hfuel
  rw [List.foldlM_cons] at hfold
  obtain ⟨st1, hst1, hst⟩ := Option.bind_eq_some_iff.1 hfold
  have hout := hemits.out []
  rw [List.append_nil] at hout
  refine ⟨dumped, order, ?_, hfirst, hemits.nodup, hemits.fresh, ?_, ?_⟩
  · unfold blkFlushall
    simp only [hdumped, hm, hreachable, hst1, hst, Option.bind_eq_bind, Option.bind_some,
      Option.pure_def]
    exact congrArg some hout.symm
  · intro b hb
    exact (hemits.emitted b).1 (hemits.root b hb ((hiff b).2 ⟨b, hb, .refl⟩))
  · intro x hx y hy
    exact (hemits.emitted y).1 (hemits.closed x hx y hy)

/-- The stream does what the graph does, whatever the graph and with threading
or without, exactly when the blocks are not dumped: `dot_block` leaves the
blocks marked as written. -/
theorem blkFlushall_faithful_iff (opts : FlushOpts) (g : Blocks B) (first : B)
    (hinit : ∀ b, Reachable g first b → (g.blk b).type ≠ .uninit) :
    FlushesFaithfully opts g first ↔ opts.dumpBasicBlocks = false := by
  obtain ⟨dumped, order, hflush, hdumped, hnodup, hfresh, hroots, hclosed⟩ :=
    blkFlushall_eq opts hinit
  constructor
  · rintro ⟨s, hs, hcount, -⟩
    obtain rfl := Option.some.inj (hflush.symm.trans hs)
    by_contra hdump
    rw [Bool.not_eq_false] at hdump
    rw [hdump, if_pos rfl] at hdumped
    have hone := (hcount first ⟨first, List.mem_cons_self, .refl⟩).1
    rw [count_label_layout, List.count_eq_zero.2 (fun hin => hfresh first hin hdumped)] at hone
    cases hone
  · intro hdump
    rw [hdump] at hdumped
    have hdumped : dumped = ∅ := hdumped
    subst hdumped
    simp only [Finset.notMem_empty, false_or] at hroots hclosed
    have hcovers : Covers g order :=
      ⟨hnodup, fun b hb next hnext => hclosed b hb next (succ_iff.1 hnext),
        fun b hb => hroots b (List.mem_cons_of_mem first hb)⟩
    have hmem : ∀ b, Reachable g first b → b ∈ order := by
      rintro b ⟨root, hroot, hreach⟩
      induction hreach with
      | refl => exact hroots root hroot
      | tail _ hsucc ih => exact hcovers.closed _ ih _ hsucc
    have hfirst : first ∈ order := hroots first List.mem_cons_self
    refine ⟨_, hflush, ?_, hcovers.traces_iff opts hfirst, fun es rest hrun =>
      hcovers.run_ne_nil opts hfirst hrun⟩
    intro b hb
    rw [count_label_layout, count_insns_layout]
    have hone := List.count_eq_one_of_mem hnodup (hmem b hb)
    exact ⟨hone, hone⟩

/-- Two blocks: a loop, and an empty block that goes back to it. -/
def emptyLatch : Blocks Bool where
  blk
    | true => ⟨["inc"], [false], .nextBlock false⟩
    | false => ⟨[], [], .nextBlock true⟩
  mustgen := []

theorem emptyLatch_initialised (b : Bool) (_ : Reachable emptyLatch true b) :
    (emptyLatch.blk b).type ≠ .uninit := by
  cases b <;> simp [emptyLatch]

/-- The empty block is merged into the loop, so it is written first. -/
theorem blkFlushall_faithful_emptyLatch :
    FlushesFaithfully ⟨true, false⟩ emptyLatch true :=
  (blkFlushall_faithful_iff ⟨true, false⟩ emptyLatch true emptyLatch_initialised).2 rfl

example : blkFlushall ⟨true, false⟩ emptyLatch true =
    some [.label false, .insns false, .label true, .insns true, .jmp false] := by
  decide

/-- With the blocks dumped, nothing is written. -/
theorem blkFlushall_dumped_empty :
    ¬ ∀ opts : FlushOpts, FlushesFaithfully opts emptyLatch true := by
  intro h
  obtain ⟨s, hs, hcount, -⟩ := h ⟨true, true⟩
  have hnil : blkFlushall ⟨true, true⟩ emptyLatch true = some [] := by decide
  obtain rfl := Option.some.inj (hnil.symm.trans hs)
  have hone := (hcount true ⟨true, List.mem_cons_self, .refl⟩).1
  cases hone

end Ucc.Cc1
