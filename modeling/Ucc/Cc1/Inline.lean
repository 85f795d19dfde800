/-
  Cc1/Inline.lean --- binding the parameters of inline expansions.

  Source: src/cc1/inline.c (inline_sym_map_save, inline_sym_map_restore,
  gen_inline_func), src/cc1/out/new.c (sym_inline_val, out_new_sym,
  out_new_sym_val).

  A parameter is bound in one of two tables: to a stack slot through
  `sym_outval`, or to a value in `sym_inline_map`.  What is generated for the
  body of an expansion is a sequence of reads and writes of parameters and of
  further expansions; the reads are what is observed.  An assertion that fails
  gives `none`.
-/
import Mathlib.Tactic

set_option autoImplicit false

namespace Ucc.Cc1

variable {Sym V : Type} [DecidableEq Sym]

/-- `INLINE_DEPTH_MAX` -/
def inlineDepthMax : Nat := 5

/-- What the folder knows of the parameters: whether they are written
(`nwrites`), and whether they are volatile. -/
structure SymInfo (Sym : Type) where
  nwrites : Sym → Bool
  isVolatile : Sym → Bool

/-- A parameter with its argument; `nonconstTemporary` is
`out_is_nonconst_temporary` of it. -/
structure Bind (Sym V : Type) where
  sym : Sym
  arg : V
  nonconstTemporary : Bool

/-- The parameters of an expansion with their arguments; no parameter is there
twice. -/
structure Binds (Sym V : Type) where
  list : List (Bind Sym V)
  nodup : (list.map Bind.sym).Nodup

/-- What is generated for a function body.  Only parameters with `nwrites` are
written. -/
inductive Body (I : SymInfo Sym) (V : Type) where
  | done
  | read (s : Sym) (rest : Body I V)
  | write (s : Sym) (written : I.nwrites s = true) (v : V) (rest : Body I V)
  | call (binds : Binds Sym V) (body : Body I V) (rest : Body I V)

/-! ## The two tables -/

/-- `sym_outval` of each parameter, as a slot of the frame; `sym_inline_map`;
the slots, and the first one that is free. -/
structure InlineState (Sym V : Type) where
  outval : Sym → Option Nat
  map : Sym → Option V
  mem : Nat → V
  next : Nat

/-- `struct inline_sym_map` -/
structure Pushed (V : Type) where
  symOutval : Option Nat
  mapVal : Option V

/-- `inline_arg_to_lvalue`: the argument goes to a new slot. -/
def InlineState.argToLvalue (st : InlineState Sym V) (s : Sym) (arg : V) : InlineState Sym V where
  outval := Function.update st.outval s (some st.next)
  map := st.map
  mem := Function.update st.mem st.next arg
  next := st.next + 1

/-- The argument is spilt. -/
def Bind.spilt (I : SymInfo Sym) (b : Bind Sym V) : Bool :=
  I.nwrites b.sym || b.nonconstTemporary || I.isVolatile b.sym

/-- The loop of `inline_sym_map_save`, for one parameter. -/
def inlineSave1 (I : SymInfo Sym) (st : InlineState Sym V) (b : Bind Sym V) :
    InlineState Sym V × Pushed V :=
  if b.spilt I then
    (st.argToLvalue b.sym b.arg, ⟨st.outval b.sym, none⟩)
  else
    ({ st with
        map := Function.update st.map b.sym (some b.arg)
        outval := Function.update st.outval b.sym none },
      ⟨st.outval b.sym, st.map b.sym⟩)

/-- `inline_sym_map_save` -/
def inlineSymMapSave (I : SymInfo Sym) (st : InlineState Sym V) :
    List (Bind Sym V) → InlineState Sym V × List (Pushed V)
  | [] => (st, [])
  | b :: bs =>
      let (st, p) := inlineSave1 I st b
      let (st, ps) := inlineSymMapSave I st bs
      (st, p :: ps)

/-- The loop of `inline_sym_map_restore`, for one parameter. -/
def inlineRestore1 (st : InlineState Sym V) (s : Sym) (p : Pushed V) :
    Option (InlineState Sym V) :=
  match st.outval s with
  | some _ =>
      if p.mapVal.isSome then none
      else some { st with outval := Function.update st.outval s p.symOutval }
  | none =>
      some { st with
        map := Function.update st.map s p.mapVal
        outval := Function.update st.outval s p.symOutval }

/-- `inline_sym_map_restore` -/
def inlineSymMapRestore (st : InlineState Sym V) :
    List (Bind Sym V) → List (Pushed V) → Option (InlineState Sym V)
  | b :: bs, p :: ps => do
      let st ← inlineRestore1 st b.sym p
      inlineSymMapRestore st bs ps
  | _, _ => some st

/-- `out_new_sym_val` of a parameter: `sym_inline_val`, or what is in its slot. -/
def outNewSymVal (st : InlineState Sym V) (s : Sym) : Option V :=
  match st.map s with
  | some v => some v
  | none => (st.outval s).map st.mem

/-- A store to the slot of a parameter, from `out_new_sym`. -/
def storeSym (st : InlineState Sym V) (s : Sym) (v : V) : Option (InlineState Sym V) :=
  (st.outval s).map fun slot => { st with mem := Function.update st.mem slot v }

/-- Generate a body: the state, and the values of the reads in order.  At the
depth limit a call is a call, and its body is not generated here. -/
def genBody (I : SymInfo Sym) (depth : Nat) :
    InlineState Sym V → Body I V → Option (InlineState Sym V × List V)
  | st, .done => some (st, [])
  | st, .read s rest => do
      let v ← outNewSymVal st s
      let (st, vs) ← genBody I depth st rest
      return (st, v :: vs)
  | st, .write s _ v rest => do
      let st ← storeSym st s v
      genBody I depth st rest
  | st, .call binds body rest =>
      if inlineDepthMax ≤ depth then genBody I depth st rest
      else do
        -- `gen_inline_func`
        let (st, pushed) := inlineSymMapSave I st binds.list
        let (st, vs) ← genBody I (depth + 1) st body
        let st ← inlineSymMapRestore st binds.list pushed
        let (st, vs') ← genBody I depth st rest
        return (st, vs ++ vs')

/-! ## Calls -/

/-- The parameters of a call, over those of its caller. -/
def bindArgs (env : Sym → Option V) (bs : List (Bind Sym V)) : Sym → Option V :=
  bs.foldl (fun env b => Function.update env b.sym (some b.arg)) env

/-- The parameters that a call has bound, as they were before it. -/
def unbindArgs (before after : Sym → Option V) (bs : List (Bind Sym V)) : Sym → Option V :=
  fun s => if s ∈ bs.map Bind.sym then before s else after s

/-- The same body, when each call has parameters of its own. -/
def callBody (I : SymInfo Sym) (depth : Nat) :
    (Sym → Option V) → Body I V → Option ((Sym → Option V) × List V)
  | env, .done => some (env, [])
  | env, .read s rest => do
      let v ← env s
      let (env, vs) ← callBody I depth env rest
      return (env, v :: vs)
  | env, .write s _ v rest =>
      if (env s).isSome then callBody I depth (Function.update env s (some v)) rest else none
  | env, .call binds body rest =>
      if inlineDepthMax ≤ depth then callBody I depth env rest
      else do
        let (env', vs) ← callBody I (depth + 1) (bindArgs env binds.list) body
        let (env, vs') ← callBody I depth (unbindArgs env env' binds.list) rest
        return (env, vs ++ vs')

/-- The parameters that an expansion puts in the map. -/
def Binds.maps (I : SymInfo Sym) (binds : Binds Sym V) (s : Sym) : Bool :=
  binds.list.any fun b => decide (b.sym = s) && !b.spilt I

/-- No parameter is spilt in an expansion inside one that has it in the map:
`mapped` are the parameters that are in the map. -/
def Unmixed (I : SymInfo Sym) (depth : Nat) : (Sym → Bool) → Body I V → Prop
  | _, .done => True
  | mapped, .read _ rest => Unmixed I depth mapped rest
  | mapped, .write _ _ _ rest => Unmixed I depth mapped rest
  | mapped, .call binds body rest =>
      (inlineDepthMax ≤ depth ∨
        ((∀ b ∈ binds.list, b.spilt I = true → mapped b.sym = false) ∧
          Unmixed I (depth + 1) (fun s => mapped s || binds.maps I s) body)) ∧
      Unmixed I depth mapped rest

/-! ## Saving and restoring -/

/-- The parameters of a list of arguments. -/
def syms (bs : List (Bind Sym V)) : List Sym := bs.map Bind.sym

/-- What is pushed for an argument. -/
def pushedFor (I : SymInfo Sym) (outval : Sym → Option Nat) (map : Sym → Option V)
    (b : Bind Sym V) : Pushed V :=
  ⟨outval b.sym, if b.spilt I then none else map b.sym⟩

/-- One parameter is bound, and nothing else changes. -/
structure Saved1 (I : SymInfo Sym) (st : InlineState Sym V) (b : Bind Sym V)
    (st' : InlineState Sym V) : Prop where
  outval : st'.outval = Function.update st.outval b.sym (if b.spilt I then some st.next else none)
  map : st'.map = if b.spilt I then st.map else Function.update st.map b.sym (some b.arg)
  mem : st'.mem = if b.spilt I then Function.update st.mem st.next b.arg else st.mem
  next : st'.next = if b.spilt I then st.next + 1 else st.next

theorem inlineSave1_spec (I : SymInfo Sym) (st : InlineState Sym V) (b : Bind Sym V) :
    Saved1 I st b (inlineSave1 I st b).1 ∧
      (inlineSave1 I st b).2 = pushedFor I st.outval st.map b := by
  unfold inlineSave1 pushedFor
  cases h : b.spilt I with
  | true => exact ⟨⟨by simp [InlineState.argToLvalue, h], by simp [InlineState.argToLvalue, h],
      by simp [InlineState.argToLvalue, h], by simp [InlineState.argToLvalue, h]⟩, by simp⟩
  | false => exact ⟨⟨by simp [h], by simp [h], by simp [h], by simp [h]⟩, by simp⟩

/-- The parameters of an expansion are bound, and nothing else changes. -/
structure Saved (I : SymInfo Sym) (st : InlineState Sym V) (bs : List (Bind Sym V))
    (st' : InlineState Sym V) : Prop where
  next : st.next ≤ st'.next
  other : ∀ s, s ∉ syms bs → st'.outval s = st.outval s ∧ st'.map s = st.map s
  spilt : ∀ b ∈ bs, b.spilt I = true → st'.map b.sym = st.map b.sym ∧
    ∃ slot, st'.outval b.sym = some slot ∧ st.next ≤ slot ∧ slot < st'.next ∧
      st'.mem slot = b.arg
  mapped : ∀ b ∈ bs, b.spilt I = false → st'.outval b.sym = none ∧ st'.map b.sym = some b.arg
  mem : ∀ x < st.next, st'.mem x = st.mem x

theorem inlineSymMapSave_pushed (I : SymInfo Sym) (st : InlineState Sym V)
    {bs : List (Bind Sym V)} (hnodup : (syms bs).Nodup) :
    (inlineSymMapSave I st bs).2 = bs.map (pushedFor I st.outval st.map) := by
  induction bs generalizing st with
  | nil => rfl
  | cons b bs ih =>
    obtain ⟨hfresh, hnodup⟩ := List.nodup_cons.1 hnodup
    obtain ⟨hsaved, hpushed⟩ := inlineSave1_spec I st b
    rw [inlineSymMapSave]
    dsimp only
    rw [ih _ hnodup, hpushed, List.map_cons]
    congr 1
    apply List.map_congr_left
    intro b' hb'
    have hne : b'.sym ≠ b.sym := by
      intro heq
      exact hfresh (heq ▸ List.mem_map_of_mem hb')
    have hout : (inlineSave1 I st b).1.outval b'.sym = st.outval b'.sym := by
      rw [hsaved.outval, Function.update_of_ne hne]
    have hmap : (inlineSave1 I st b).1.map b'.sym = st.map b'.sym := by
      rw [hsaved.map]
      split
      · rfl
      · rw [Function.update_of_ne hne]
    rw [pushedFor, pushedFor, hout, hmap]

theorem inlineSymMapSave_saved (I : SymInfo Sym) (st : InlineState Sym V)
    {bs : List (Bind Sym V)} (hnodup : (syms bs).Nodup) :
    Saved I st bs (inlineSymMapSave I st bs).1 := by
  induction bs generalizing st with
  | nil =>
    exact ⟨Nat.le_refl _, fun _ _ => ⟨rfl, rfl⟩, by simp, by simp, fun _ _ => rfl⟩
  | cons b bs ih =>
    obtain ⟨hfresh, hnodup⟩ := List.nodup_cons.1 hnodup
    obtain ⟨h1, -⟩ := inlineSave1_spec I st b
    have h := ih (inlineSave1 I st b).1 hnodup
    rw [inlineSymMapSave]
    dsimp only
    generalize (inlineSave1 I st b).1 = st1 at h1 h ⊢
    generalize (inlineSymMapSave I st1 bs).1 = st2 at h ⊢
    have hnext : st.next ≤ st1.next := by
      rw [h1.next]
      split <;> omega
    have hother : ∀ s, s ≠ b.sym → st1.outval s = st.outval s ∧ st1.map s = st.map s := by
      intro s hs
      rw [h1.outval, h1.map, Function.update_of_ne hs]
      refine ⟨rfl, ?_⟩
      split
      · rfl
      · rw [Function.update_of_ne hs]
    have htail : ∀ b' ∈ bs, b'.sym ≠ b.sym := by
      intro b' hb' heq
      exact hfresh (heq ▸ List.mem_map_of_mem hb')
    refine ⟨hnext.trans h.next, ?_, ?_, ?_, ?_⟩
    · intro s hs
      rw [syms, List.map_cons, List.mem_cons, not_or] at hs
      rw [(h.other s hs.2).1, (h.other s hs.2).2]
      exact hother s hs.1
    · intro b' hb' hspilt
      rcases List.mem_cons.1 hb' with rfl | hb'
      · have hnew : st1.mem st.next = b'.arg := by
          rw [h1.mem, hspilt, if_pos rfl, Function.update_self]
        have hlt : st.next < st1.next := by
          rw [h1.next, hspilt, if_pos rfl]
          omega
        refine ⟨?_, st.next, ?_, Nat.le_refl _, hlt.trans_le h.next, ?_⟩
        · rw [(h.other _ hfresh).2, h1.map, hspilt, if_pos rfl]
        · rw [(h.other _ hfresh).1, h1.outval, hspilt, if_pos rfl, Function.update_self]
        · rw [h.mem _ hlt, hnew]
      · obtain ⟨hmap, slot, hslot, hge, hlt, hmem⟩ := h.spilt b' hb' hspilt
        refine ⟨?_, slot, hslot, hnext.trans hge, hlt, hmem⟩
        rw [hmap, (hother _ (htail b' hb')).2]
    · intro b' hb' hspilt
      rcases List.mem_cons.1 hb' with rfl | hb'
      · rw [(h.other _ hfresh).1, (h.other _ hfresh).2, h1.outval, h1.map, hspilt]
        simp
      · exact h.mapped b' hb' hspilt
    · intro x hx
      rw [h.mem x (hx.trans_le hnext), h1.mem]
      split
      · rw [Function.update_of_ne (by omega)]
      · rfl

/-- The tables are restored; the slots are left as they are. -/
theorem inlineSymMapRestore_spec (I : SymInfo Sym) {o : Sym → Option Nat} {m : Sym → Option V}
    {bs : List (Bind Sym V)} (hnodup : (syms bs).Nodup) {st : InlineState Sym V}
    (hbound : ∀ b ∈ bs, (st.outval b.sym).isSome = b.spilt I) :
    ∃ st', inlineSymMapRestore st bs (bs.map (pushedFor I o m)) = some st' ∧
      (∀ s, st'.outval s = if s ∈ syms bs then o s else st.outval s) ∧
      (∀ s, s ∉ syms bs → st'.map s = st.map s) ∧
      (∀ b ∈ bs, st'.map b.sym = if b.spilt I then st.map b.sym else m b.sym) ∧
      st'.mem = st.mem ∧ st'.next = st.next := by
  induction bs generalizing st with
  | nil => exact ⟨st, rfl, by simp [syms], by simp, by simp, rfl, rfl⟩
  | cons b bs ih =>
    obtain ⟨hfresh, hnodup⟩ := List.nodup_cons.1 hnodup
    have hb := hbound b List.mem_cons_self
    obtain ⟨st1, hst1, hout1, hmap1, hmem1, hnext1⟩ :
        ∃ st1, inlineRestore1 st b.sym (pushedFor I o m b) = some st1 ∧
          st1.outval = Function.update st.outval b.sym (o b.sym) ∧
          st1.map = (if b.spilt I then st.map else Function.update st.map b.sym (m b.sym)) ∧
          st1.mem = st.mem ∧ st1.next = st.next := by
      unfold inlineRestore1 pushedFor
      cases hs : b.spilt I with
      | true =>
        rw [hs] at hb
        obtain ⟨slot, hslot⟩ := Option.isSome_iff_exists.1 hb
        rw [hslot]
        exact ⟨_, rfl, rfl, rfl, rfl, rfl⟩
      | false =>
        rw [hs, Option.isSome_eq_false_iff, Option.isNone_iff_eq_none] at hb
        rw [hb]
        exact ⟨_, rfl, rfl, rfl, rfl, rfl⟩
    have htail : ∀ b' ∈ bs, b'.sym ≠ b.sym := by
      intro b' hb' heq
      exact hfresh (heq ▸ List.mem_map_of_mem hb')
    have hbound1 : ∀ b' ∈ bs, (st1.outval b'.sym).isSome = b'.spilt I := by
      intro b' hb'
      rw [hout1, Function.update_of_ne (htail b' hb')]
      exact hbound b' (List.mem_cons_of_mem b hb')
    have hmapne : ∀ s, s ≠ b.sym → st1.map s = st.map s := by
      intro s hs
      rw [hmap1]
      split
      · rfl
      · rw [Function.update_of_ne hs]
    obtain ⟨st', hst', hout, hmap, hmapb, hmem, hnext⟩ := ih hnodup hbound1
    refine ⟨st', ?_, ?_, ?_, ?_, hmem.trans hmem1, hnext.trans hnext1⟩
    · rw [List.map_cons, inlineSymMapRestore, hst1]
      exact hst'
    · intro s
      rw [hout, hout1]
      by_cases hs : s = b.sym
      · subst hs
        have hin : b.sym ∈ syms (b :: bs) := List.mem_cons_self
        rw [if_neg (show b.sym ∉ syms bs from hfresh), if_pos hin, Function.update_self]
      · have hiff : s ∈ syms (b :: bs) ↔ s ∈ syms bs := by
          simp [syms, hs]
        simp only [hiff, Function.update_of_ne hs]
    · intro s hs
      rw [syms, List.map_cons, List.mem_cons, not_or] at hs
      rw [hmap s hs.2, hmapne s hs.1]
    · intro b' hb'
      rcases List.mem_cons.1 hb' with rfl | hb'
      · rw [hmap _ hfresh, hmap1]
        split
        · rfl
        · rw [Function.update_self]
      · rw [hmapb b' hb', hmapne _ (htail b' hb')]

/-- After the body of an expansion, in which the tables come back as they were,
its parameters are unbound. -/
theorem restore_after_save (I : SymInfo Sym) (st : InlineState Sym V) (binds : Binds Sym V)
    {st2 : InlineState Sym V}
    (hout : st2.outval = (inlineSymMapSave I st binds.list).1.outval)
    (hmap : st2.map = (inlineSymMapSave I st binds.list).1.map) :
    ∃ st3, inlineSymMapRestore st2 binds.list (inlineSymMapSave I st binds.list).2 = some st3 ∧
      st3.outval = st.outval ∧ st3.map = st.map ∧ st3.mem = st2.mem ∧ st3.next = st2.next := by
  have hsaved := inlineSymMapSave_saved I st binds.nodup
  have hbound : ∀ b ∈ binds.list, (st2.outval b.sym).isSome = b.spilt I := by
    intro b hb
    rw [hout]
    cases hs : b.spilt I with
    | true =>
      obtain ⟨-, slot, hslot, -⟩ := hsaved.spilt b hb hs
      rw [hslot]
      rfl
    | false =>
      rw [(hsaved.mapped b hb hs).1]
      rfl
  rw [inlineSymMapSave_pushed I st binds.nodup]
  obtain ⟨st3, hst3, hout3, hmap3, hmapb3, hmem3, hnext3⟩ :=
    inlineSymMapRestore_spec I binds.nodup hbound
  refine ⟨st3, hst3, ?_, ?_, hmem3, hnext3⟩
  · funext s
    rw [hout3]
    by_cases hs : s ∈ syms binds.list
    · rw [if_pos hs]
    · rw [if_neg hs, hout, (hsaved.other s hs).1]
  · funext s
    by_cases hs : s ∈ syms binds.list
    · obtain ⟨b, hb, rfl⟩ := List.mem_map.1 hs
      rw [hmapb3 b hb]
      cases hspilt : b.spilt I with
      | true => rw [if_pos rfl, hmap, (hsaved.spilt b hb hspilt).1]
      | false => rfl
    · rw [hmap3 s hs, hmap, (hsaved.other s hs).2]

/-! ## What generating a body does to the tables -/

/-- An expansion, step by step. -/
theorem genBody_call {I : SymInfo Sym} {depth : Nat} {st : InlineState Sym V}
    {binds : Binds Sym V} {body rest : Body I V} (hdepth : ¬ inlineDepthMax ≤ depth)
    {r : InlineState Sym V × List V} :
    genBody I depth st (.call binds body rest) = some r ↔
      ∃ st2 vs st3 vs', genBody I (depth + 1) (inlineSymMapSave I st binds.list).1 body =
          some (st2, vs) ∧
        inlineSymMapRestore st2 binds.list (inlineSymMapSave I st binds.list).2 = some st3 ∧
        genBody I depth st3 rest = some (r.1, vs') ∧ r.2 = vs ++ vs' := by
  rw [genBody, if_neg hdepth]
  simp only [Option.bind_eq_bind, Option.bind_eq_some_iff, Option.pure_def, Option.some.injEq]
  constructor
  · rintro ⟨⟨st2, vs⟩, hbody, st3, hst3, ⟨st4, vs'⟩, hrest, rfl⟩
    exact ⟨st2, vs, st3, vs', hbody, hst3, hrest, rfl⟩
  · rintro ⟨st2, vs, st3, vs', hbody, hst3, hrest, hr⟩
    exact ⟨(st2, vs), hbody, st3, hst3, (r.1, vs'), hrest, Prod.ext rfl hr.symm⟩

/-- Both tables come back as they were. -/
theorem genBody_tables {I : SymInfo Sym} {depth : Nat} {st st' : InlineState Sym V}
    {b : Body I V} {vs : List V} (h : genBody I depth st b = some (st', vs)) :
    st'.outval = st.outval ∧ st'.map = st.map := by
  induction b generalizing depth st st' vs with
  | done =>
    obtain ⟨rfl, -⟩ := Prod.mk.inj (Option.some.inj h)
    exact ⟨rfl, rfl⟩
  | read s rest ih =>
    rw [genBody] at h
    simp only [Option.bind_eq_bind, Option.bind_eq_some_iff, Option.pure_def,
      Option.some.injEq, Prod.mk.injEq] at h
    obtain ⟨v, -, ⟨st1, vs1⟩, hrest, rfl, -⟩ := h
    exact ih hrest
  | write s hs v rest ih =>
    rw [genBody, storeSym] at h
    simp only [Option.bind_eq_bind, Option.bind_eq_some_iff, Option.map_eq_some_iff] at h
    obtain ⟨st1, ⟨slot, -, rfl⟩, hrest⟩ := h
    have htables := ih hrest
    exact htables
  | call binds body rest ihbody ihrest =>
    by_cases hdepth : inlineDepthMax ≤ depth
    · rw [genBody, if_pos hdepth] at h
      exact ihrest h
    · obtain ⟨st2, vs2, st3, vs3, hbody, hst3, hrest, -⟩ := (genBody_call hdepth).1 h
      obtain ⟨hout, hmap⟩ := ihbody hbody
      obtain ⟨st3', hst3', hout3, hmap3, -⟩ := restore_after_save I st binds hout hmap
      obtain rfl := Option.some.inj (hst3.symm.trans hst3')
      obtain ⟨hout', hmap'⟩ := ihrest hrest
      exact ⟨hout'.trans hout3, hmap'.trans hmap3⟩

/-- Each parameter that has a slot has one of its own, among those in use. -/
structure InlineState.Slots (st : InlineState Sym V) : Prop where
  below : ∀ s slot, st.outval s = some slot → slot < st.next
  own : ∀ s s' slot, st.outval s = some slot → st.outval s' = some slot → s = s'

theorem Saved1.slots {I : SymInfo Sym} {st st' : InlineState Sym V} {b : Bind Sym V}
    (h : Saved1 I st b st') (hst : st.Slots) : st'.Slots := by
  have hslot : ∀ s slot, st'.outval s = some slot →
      (s = b.sym ∧ slot = st.next ∧ st.next < st'.next) ∨ st.outval s = some slot := by
    intro s slot hs
    rw [h.outval] at hs
    by_cases heq : s = b.sym
    · subst heq
      rw [Function.update_self] at hs
      cases hspilt : b.spilt I with
      | true =>
        rw [hspilt, if_pos rfl] at hs
        refine .inl ⟨rfl, (Option.some.inj hs).symm, ?_⟩
        rw [h.next, hspilt, if_pos rfl]
        omega
      | false =>
        rw [hspilt] at hs
        cases hs
    · rw [Function.update_of_ne heq] at hs
      exact .inr hs
  have hnext : st.next ≤ st'.next := by
    rw [h.next]
    split <;> omega
  refine ⟨?_, ?_⟩
  · intro s slot hs
    rcases hslot s slot hs with ⟨-, rfl, hlt⟩ | hs
    · exact hlt
    · exact (hst.below s slot hs).trans_le hnext
  · intro s s' slot hs hs'
    rcases hslot s slot hs with ⟨rfl, rfl, -⟩ | hs <;>
      rcases hslot s' _ hs' with ⟨rfl, heq, -⟩ | hs'
    · rfl
    · exact absurd (hst.below s' _ hs') (Nat.lt_irrefl _)
    · subst heq
      exact absurd (hst.below s _ hs) (Nat.lt_irrefl _)
    · exact hst.own s s' slot hs hs'

theorem inlineSymMapSave_slots (I : SymInfo Sym) {st : InlineState Sym V} (hst : st.Slots)
    (bs : List (Bind Sym V)) : (inlineSymMapSave I st bs).1.Slots := by
  induction bs generalizing st with
  | nil => exact hst
  | cons b bs ih => exact ih ((inlineSave1_spec I st b).1.slots hst)

/-- A body leaves alone the slots that no parameter has when it starts. -/
theorem genBody_frame {I : SymInfo Sym} {depth : Nat} {st st' : InlineState Sym V}
    {b : Body I V} {vs : List V} (h : genBody I depth st b = some (st', vs)) (hst : st.Slots) :
    st'.Slots ∧ st.next ≤ st'.next ∧
      ∀ x < st.next, (∀ s, st.outval s ≠ some x) → st'.mem x = st.mem x := by
  induction b generalizing depth st st' vs with
  | done =>
    obtain ⟨rfl, -⟩ := Prod.mk.inj (Option.some.inj h)
    exact ⟨hst, Nat.le_refl _, fun _ _ _ => rfl⟩
  | read s rest ih =>
    rw [genBody] at h
    simp only [Option.bind_eq_bind, Option.bind_eq_some_iff, Option.pure_def,
      Option.some.injEq, Prod.mk.injEq] at h
    obtain ⟨v, -, ⟨st1, vs1⟩, hrest, rfl, -⟩ := h
    exact ih hrest hst
  | write s hs v rest ih =>
    rw [genBody, storeSym] at h
    simp only [Option.bind_eq_bind, Option.bind_eq_some_iff, Option.map_eq_some_iff] at h
    obtain ⟨st1, ⟨slot, hslot, rfl⟩, hrest⟩ := h
    obtain ⟨hslots, hnext, hmem⟩ := ih hrest ⟨hst.below, hst.own⟩
    refine ⟨hslots, hnext, ?_⟩
    intro x hx hfree
    rw [hmem x hx hfree]
    apply Function.update_of_ne
    rintro rfl
    exact hfree s hslot
  | call binds body rest ihbody ihrest =>
    by_cases hdepth : inlineDepthMax ≤ depth
    · rw [genBody, if_pos hdepth] at h
      exact ihrest h hst
    · obtain ⟨st2, vs2, st3, vs3, hbody, hst3, hrest, -⟩ := (genBody_call hdepth).1 h
      have hsaved := inlineSymMapSave_saved I st binds.nodup
      have hslots1 := inlineSymMapSave_slots I hst binds.list
      obtain ⟨hout2, hmap2⟩ := genBody_tables hbody
      obtain ⟨hslots2, hnext2, hmem2⟩ := ihbody hbody hslots1
      obtain ⟨st3', hst3', hout3, -, hmem3, hnext3⟩ := restore_after_save I st binds hout2 hmap2
      obtain rfl := Option.some.inj (hst3.symm.trans hst3')
      have hnext : st.next ≤ st3.next := by
        rw [hnext3]
        exact hsaved.next.trans hnext2
      have hslots3 : st3.Slots := by
        refine ⟨?_, ?_⟩
        · intro s slot hs
          rw [hout3] at hs
          exact (hst.below s slot hs).trans_le hnext
        · rw [hout3]
          exact hst.own
      obtain ⟨hslots, hnext', hmem⟩ := ihrest hrest hslots3
      refine ⟨hslots, hnext.trans hnext', ?_⟩
      intro x hx hfree
      rw [hmem x (hx.trans_le hnext) (by rw [hout3]; exact hfree), hmem3,
        hmem2 x (hx.trans_le hsaved.next) ?_, hsaved.mem x hx]
      intro s hs
      by_cases hin : s ∈ syms binds.list
      · obtain ⟨b, hb, rfl⟩ := List.mem_map.1 hin
        cases hspilt : b.spilt I with
        | true =>
          obtain ⟨-, slot, hslot, hge, -⟩ := hsaved.spilt b hb hspilt
          rw [hslot] at hs
          have := Option.some.inj hs
          omega
        | false =>
          rw [(hsaved.mapped b hb hspilt).1] at hs
          cases hs
      · rw [(hsaved.other s hin).1] at hs
        exact hfree s hs

/-! ## Reads -/

theorem bindArgs_other {env : Sym → Option V} {bs : List (Bind Sym V)} {s : Sym}
    (h : s ∉ syms bs) : bindArgs env bs s = env s := by
  unfold bindArgs
  induction bs generalizing env with
  | nil => rfl
  | cons b bs ih =>
    rw [syms, List.map_cons, List.mem_cons, not_or] at h
    rw [List.foldl_cons, ih h.2, Function.update_of_ne h.1]

theorem bindArgs_mem {env : Sym → Option V} {bs : List (Bind Sym V)} (hnodup : (syms bs).Nodup)
    {b : Bind Sym V} (hb : b ∈ bs) : bindArgs env bs b.sym = some b.arg := by
  induction bs generalizing env with
  | nil => cases hb
  | cons b' bs ih =>
    obtain ⟨hfresh, hnodup⟩ := List.nodup_cons.1 hnodup
    rcases List.mem_cons.1 hb with rfl | hb
    · change bindArgs (Function.update env b.sym (some b.arg)) bs b.sym = _
      rw [bindArgs_other hfresh, Function.update_self]
    · exact ih hnodup hb

/-- What the tables must be for the reads to be right: `mapped` are the
parameters in the map, none of them is written, and the values are those of the
call. -/
structure Bound (I : SymInfo Sym) (mapped : Sym → Bool) (st : InlineState Sym V)
    (env : Sym → Option V) : Prop where
  slots : st.Slots
  mapped : ∀ s, (st.map s).isSome = mapped s
  unwritten : ∀ s, I.nwrites s = true → st.map s = none
  value : ∀ s, env s = outNewSymVal st s

omit [DecidableEq Sym] in
theorem Binds.eq_of_sym (binds : Binds Sym V) {b b' : Bind Sym V} (hb : b ∈ binds.list)
    (hb' : b' ∈ binds.list) (h : b.sym = b'.sym) : b = b' :=
  List.inj_on_of_nodup_map binds.nodup hb hb' h

theorem Binds.maps_mem (I : SymInfo Sym) (binds : Binds Sym V) {b : Bind Sym V}
    (hb : b ∈ binds.list) : binds.maps I b.sym = !b.spilt I := by
  rw [Bool.eq_iff_iff]
  unfold Binds.maps
  rw [List.any_eq_true]
  constructor
  · rintro ⟨b', hb', h⟩
    rw [Bool.and_eq_true, decide_eq_true_eq] at h
    rw [binds.eq_of_sym hb hb' h.1.symm]
    exact h.2
  · intro h
    exact ⟨b, hb, by simpa using h⟩

theorem Binds.maps_other (I : SymInfo Sym) (binds : Binds Sym V) {s : Sym}
    (hs : s ∉ syms binds.list) : binds.maps I s = false := by
  rw [Bool.eq_false_iff]
  unfold Binds.maps
  intro h
  obtain ⟨b, hb, h⟩ := List.any_eq_true.1 h
  rw [Bool.and_eq_true, decide_eq_true_eq] at h
  exact hs (h.1 ▸ List.mem_map_of_mem hb)

/-- An expansion binds its parameters in one of the tables, and shows them. -/
theorem Bound.save {I : SymInfo Sym} {mapped : Sym → Bool} {st : InlineState Sym V}
    {env : Sym → Option V} (h : Bound I mapped st env) (binds : Binds Sym V)
    (hunmixed : ∀ b ∈ binds.list, b.spilt I = true → mapped b.sym = false) :
    Bound I (fun s => mapped s || binds.maps I s)
      (inlineSymMapSave I st binds.list).1 (bindArgs env binds.list) := by
  have hsaved := inlineSymMapSave_saved I st binds.nodup
  have hnone : ∀ b ∈ binds.list, b.spilt I = true → st.map b.sym = none := by
    intro b hb hspilt
    have hmapped := h.mapped b.sym
    rw [hunmixed b hb hspilt] at hmapped
    simpa using hmapped
  refine ⟨inlineSymMapSave_slots I h.slots binds.list, ?_, ?_, ?_⟩
  · intro s
    by_cases hs : s ∈ syms binds.list
    · obtain ⟨b, hb, rfl⟩ := List.mem_map.1 hs
      rw [binds.maps_mem I hb]
      cases hspilt : b.spilt I with
      | true =>
        rw [(hsaved.spilt b hb hspilt).1, hnone b hb hspilt, hunmixed b hb hspilt]
        rfl
      | false =>
        rw [(hsaved.mapped b hb hspilt).2]
        simp
    · rw [(hsaved.other s hs).2, h.mapped, binds.maps_other I hs, Bool.or_false]
  · intro s hwritten
    by_cases hs : s ∈ syms binds.list
    · obtain ⟨b, hb, rfl⟩ := List.mem_map.1 hs
      have hspilt : b.spilt I = true := by simp [Bind.spilt, hwritten]
      rw [(hsaved.spilt b hb hspilt).1]
      exact h.unwritten b.sym hwritten
    · rw [(hsaved.other s hs).2]
      exact h.unwritten s hwritten
  · intro s
    unfold outNewSymVal
    by_cases hs : s ∈ syms binds.list
    · obtain ⟨b, hb, rfl⟩ := List.mem_map.1 hs
      rw [bindArgs_mem binds.nodup hb]
      cases hspilt : b.spilt I with
      | true =>
        obtain ⟨hmap, slot, hslot, -, -, hmem⟩ := hsaved.spilt b hb hspilt
        rw [hmap, hnone b hb hspilt, hslot]
        simp [hmem]
      | false =>
        rw [(hsaved.mapped b hb hspilt).2]
    · rw [bindArgs_other hs, h.value, (hsaved.other s hs).1, (hsaved.other s hs).2]
      unfold outNewSymVal
      cases hout : st.outval s with
      | none => rfl
      | some slot =>
        rw [Option.map_some, Option.map_some, hsaved.mem slot (h.slots.below s slot hout)]

/-- After an expansion its parameters are what they were before. -/
theorem Bound.restore {I : SymInfo Sym} {mapped mapped2 : Sym → Bool}
    {st st2 st3 : InlineState Sym V} {env env2 : Sym → Option V} (h : Bound I mapped st env)
    (binds : Binds Sym V) {depth : Nat} {body : Body I V} {vs : List V}
    (hbody : genBody I depth (inlineSymMapSave I st binds.list).1 body = some (st2, vs))
    (h2 : Bound I mapped2 st2 env2)
    (hst3 : inlineSymMapRestore st2 binds.list (inlineSymMapSave I st binds.list).2 = some st3) :
    Bound I mapped st3 (unbindArgs env env2 binds.list) := by
  have hsaved := inlineSymMapSave_saved I st binds.nodup
  obtain ⟨hout2, hmap2⟩ := genBody_tables hbody
  obtain ⟨-, hnext2, hmem2⟩ := genBody_frame hbody (inlineSymMapSave_slots I h.slots binds.list)
  obtain ⟨st3', hst3', hout3, hmap3, hmem3, hnext3⟩ := restore_after_save I st binds hout2 hmap2
  obtain rfl := Option.some.inj (hst3.symm.trans hst3')
  refine ⟨⟨?_, ?_⟩, ?_, ?_, ?_⟩
  · intro s slot hs
    rw [hout3] at hs
    rw [hnext3]
    exact (h.slots.below s slot hs).trans_le (hsaved.next.trans hnext2)
  · rw [hout3]
    exact h.slots.own
  · rw [hmap3]
    exact h.mapped
  · rw [hmap3]
    exact h.unwritten
  · intro s
    unfold unbindArgs
    by_cases hs : s ∈ syms binds.list
    · -- the slot that the expansion hid is as it was
      rw [if_pos (show s ∈ binds.list.map Bind.sym from hs), h.value]
      unfold outNewSymVal
      rw [hout3, hmap3, hmem3]
      cases hout : st.outval s with
      | none => rfl
      | some slot =>
        have hlt := h.slots.below s slot hout
        have hhid : ∀ s', (inlineSymMapSave I st binds.list).1.outval s' ≠ some slot := by
          intro s' hs'
          by_cases hin : s' ∈ syms binds.list
          · obtain ⟨b, hb, rfl⟩ := List.mem_map.1 hin
            cases hspilt : b.spilt I with
            | true =>
              obtain ⟨-, slot', hslot', hge, -⟩ := hsaved.spilt b hb hspilt
              rw [hslot'] at hs'
              have := Option.some.inj hs'
              omega
            | false =>
              rw [(hsaved.mapped b hb hspilt).1] at hs'
              cases hs'
          · rw [(hsaved.other s' hin).1] at hs'
            exact hin (h.slots.own s s' slot hout hs' ▸ hs)
        rw [Option.map_some, Option.map_some, hmem2 slot (hlt.trans_le hsaved.next) hhid,
          hsaved.mem slot hlt]
    · rw [if_neg (show s ∉ binds.list.map Bind.sym from hs), h2.value]
      unfold outNewSymVal
      rw [hout3, hmap3, hmem3, hout2, hmap2, (hsaved.other s hs).1, (hsaved.other s hs).2]

/-- The reads of a body are those of calls. -/
theorem genBody_reads {I : SymInfo Sym} {depth : Nat} {mapped : Sym → Bool}
    {st : InlineState Sym V} {env : Sym → Option V} {b : Body I V}
    (hb : Unmixed I depth mapped b) (h : Bound I mapped st env) :
    (genBody I depth st b = none ∧ callBody I depth env b = none) ∨
    ∃ st' env' vs, genBody I depth st b = some (st', vs) ∧
      callBody I depth env b = some (env', vs) ∧ Bound I mapped st' env' := by
  induction b generalizing depth mapped st env with
  | done => exact .inr ⟨st, env, [], rfl, rfl, h⟩
  | read s rest ih =>
    rw [genBody, callBody, h.value]
    cases hread : outNewSymVal st s with
    | none => exact .inl ⟨rfl, rfl⟩
    | some v =>
      rcases ih hb h with ⟨hgen, hcall⟩ | ⟨st', env', vs, hgen, hcall, h'⟩
      · rw [hgen, hcall]
        exact .inl ⟨rfl, rfl⟩
      · rw [hgen, hcall]
        exact .inr ⟨st', env', v :: vs, rfl, rfl, h'⟩
  | write s hs v rest ih =>
    have hnone := h.unwritten s hs
    have hval : env s = (st.outval s).map st.mem := by
      rw [h.value, outNewSymVal, hnone]
    rw [genBody, callBody, storeSym, hval]
    cases hout : st.outval s with
    | none => exact .inl ⟨rfl, rfl⟩
    | some slot =>
      have hstore : Bound I mapped { st with mem := Function.update st.mem slot v }
          (Function.update env s (some v)) := by
        refine ⟨⟨h.slots.below, h.slots.own⟩, h.mapped, h.unwritten, ?_⟩
        intro s'
        unfold outNewSymVal
        dsimp only
        by_cases heq : s' = s
        · subst heq
          rw [Function.update_self, hnone, hout]
          simp
        · rw [Function.update_of_ne heq, h.value, outNewSymVal]
          cases hmap : st.map s' with
          | some v' => rfl
          | none =>
            cases hout' : st.outval s' with
            | none => rfl
            | some slot' =>
              have hne : slot' ≠ slot := by
                rintro rfl
                exact heq (h.slots.own s' s slot' hout' hout)
              simp [Function.update_of_ne hne]
      exact ih hb hstore
  | call binds body rest ihbody ihrest =>
    obtain ⟨hcall, hrestb⟩ := hb
    by_cases hdepth : inlineDepthMax ≤ depth
    · rw [genBody, callBody, if_pos hdepth, if_pos hdepth]
      exact ihrest hrestb h
    · obtain ⟨hunmixed, hbodyb⟩ := hcall.resolve_left hdepth
      rw [genBody, callBody, if_neg hdepth, if_neg hdepth]
      rcases ihbody hbodyb (h.save binds hunmixed) with
        ⟨hgen, hcall⟩ | ⟨st2, env2, vs, hgen, hcall, h2⟩
      · left
        dsimp only
        rw [hgen, hcall]
        exact ⟨rfl, rfl⟩
      · obtain ⟨hout2, hmap2⟩ := genBody_tables hgen
        obtain ⟨st3, hst3, -⟩ := restore_after_save I st binds hout2 hmap2
        have h3 := h.restore binds hgen h2 hst3
        dsimp only
        rw [hgen, hcall]
        simp only [Option.bind_eq_bind, Option.bind_some, hst3]
        rcases ihrest hrestb h3 with ⟨hgen', hcall'⟩ | ⟨st', env', vs', hgen', hcall', h'⟩
        · rw [hgen', hcall']
          exact .inl ⟨rfl, rfl⟩
        · rw [hgen', hcall']
          exact .inr ⟨st', env', vs ++ vs', rfl, rfl, h'⟩

/-! ## The whole of a function -/

/-- The frame of a function whose body is about to be generated: its own
parameters have slots, and there is nothing in the map. -/
structure Frame (Sym V : Type) where
  outval : Sym → Option Nat
  mem : Nat → V
  next : Nat
  below : ∀ s slot, outval s = some slot → slot < next
  own : ∀ s s' slot, outval s = some slot → outval s' = some slot → s = s'

/-- The state in which the body is generated. -/
def Frame.start (f : Frame Sym V) : InlineState Sym V :=
  ⟨f.outval, fun _ => none, f.mem, f.next⟩

omit [DecidableEq Sym] in
theorem Frame.bound (I : SymInfo Sym) (f : Frame Sym V) :
    Bound I (fun _ => false) f.start (outNewSymVal f.start) :=
  ⟨⟨f.below, f.own⟩, fun _ => rfl, fun _ _ => rfl, fun _ => rfl⟩

/-- Whatever is expanded where, both tables come back as they were; and when no
parameter is spilt inside an expansion that has it in the map, each read of a
parameter gives the argument of the innermost expansion that has it, or what
has been written to it since. -/
theorem inline_binds_like_call (I : SymInfo Sym) (f : Frame Sym V) (b : Body I V)
    (hb : Unmixed I 0 (fun _ => false) b) :
    (∀ depth (st st' : InlineState Sym V) binds body vs,
      genBody I depth st (.call binds body .done) = some (st', vs) →
        st'.outval = st.outval ∧ st'.map = st.map) ∧
    (genBody I 0 f.start b).map Prod.snd =
      (callBody I 0 (outNewSymVal f.start) b).map Prod.snd := by
  refine ⟨fun depth st st' binds body vs h => genBody_tables h, ?_⟩
  rcases genBody_reads hb (f.bound I) with ⟨hgen, hcall⟩ | ⟨st', env', vs, hgen, hcall, -⟩
  · rw [hgen, hcall]
    rfl
  · rw [hgen, hcall]
    rfl

/-- One parameter, that is neither written nor volatile. -/
def readOnlyParam : SymInfo Unit := ⟨fun _ => false, fun _ => false⟩

/-- A caller without parameters. -/
def emptyFrame : Frame Unit Nat where
  outval := fun _ => none
  mem := fun _ => 0
  next := 0
  below := fun _ _ h => nomatch h
  own := fun _ _ _ h => nomatch h

/-- The argument list of a function of one parameter. -/
def oneArg (arg : Nat) (nonconstTemporary : Bool) : Binds Unit Nat :=
  ⟨[⟨(), arg, nonconstTemporary⟩], List.nodup_singleton ()⟩

/-- A function that reads its parameter, and expands itself once. -/
def expandsItself (outer inner : Binds Unit Nat) : Body readOnlyParam Nat :=
  .call outer (.read () (.call inner (.read () .done) (.read () .done))) .done

/-- Constants inside a value that is spilt. -/
theorem inline_binds_like_call_const_inside :
    (genBody readOnlyParam 0 emptyFrame.start (expandsItself (oneArg 1 true) (oneArg 2 false))).map
        Prod.snd = some [1, 2, 1] := by
  have hunmixed : Unmixed readOnlyParam 0 (fun _ => false)
      (expandsItself (oneArg 1 true) (oneArg 2 false)) := by
    simp [Unmixed, expandsItself, oneArg, Bind.spilt, readOnlyParam]
  exact (inline_binds_like_call readOnlyParam emptyFrame _ hunmixed).2

/-- A value that is spilt inside a constant: the map still has the constant. -/
theorem inline_reads_outer_argument :
    ¬ ∀ b : Body readOnlyParam Nat,
      (genBody readOnlyParam 0 emptyFrame.start b).map Prod.snd =
        (callBody readOnlyParam 0 (outNewSymVal emptyFrame.start) b).map Prod.snd := by
  intro h
  have hreads := h (expandsItself (oneArg 1 false) (oneArg 2 true))
  have hgen : (genBody readOnlyParam 0 emptyFrame.start
      (expandsItself (oneArg 1 false) (oneArg 2 true))).map Prod.snd = some [1, 1, 1] := rfl
  have hcall : (callBody readOnlyParam 0 (outNewSymVal emptyFrame.start)
      (expandsItself (oneArg 1 false) (oneArg 2 true))).map Prod.snd = some [1, 2, 1] := rfl
  rw [hgen, hcall] at hreads
  cases hreads

end Ucc.Cc1
