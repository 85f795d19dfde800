/-
  Cc1/Blk.lean --- the blocks of a function, and writing them out.

  Source: src/cc1/out/blk.c (blk_jmpnext, blk_jmpthread, blk_codegen, bfs_block,
  mark_reachable_blocks, dot_block, blk_flushall), src/cc1/out/blk.h, and
  impl_jmp and impl_branch of src/cc1/out/x86_64.c for what the jumps do.

  The blocks of a function are the elements of a finite type.  The traversals
  recurse through the graph, so they take fuel; a failed assertion and the end
  of the fuel give `none`.  Alignment, debug labels and comments are not
  written.
-/
import Mathlib.Tactic
import Ucc.Lib.Trace

set_option autoImplicit false

namespace Ucc.Cc1

/-! ## Blocks -/

/-- The conditional jump of a block.  It jumps to `if_0_blk` when it is taken;
after a floating point comparison a jump on the parity flag precedes it, to
`if_0_blk` or to `if_1_blk`. -/
structure CondInsn where
  parity : Option Bool

/-- `enum` of `struct out_blk`, with the `bits` of each case. -/
inductive BlkType (B : Type) where
  | uninit
  | terminal
  | nextBlock (next : B)
  | nextExpr
  | cond (insn : CondInsn) (if0Blk if1Blk : B) (unlikely : Bool)

/-- `struct out_blk` -/
structure OutBlk (B : Type) where
  insns : List String
  mergePreds : List B
  type : BlkType B

/-- The blocks of a function, and `octx->mustgen`. -/
structure Blocks (B : Type) where
  blk : B → OutBlk B
  mustgen : List B

/-- `cc1_fopt` -/
structure FlushOpts where
  threadJumps : Bool
  dumpBasicBlocks : Bool

/-- What is written to the section.  The instructions of a block are one line
here. -/
inductive Line (B : Type) where
  | label (b : B)
  | insns (b : B)
  | condjmp (b : B)
  | jmp (b : B)
deriving DecidableEq

variable {B : Type} [DecidableEq B]

/-! ## Writing them out -/

/-- `struct flush_state`, the `emitted` bits, and what has been written. -/
structure FlushState (B : Type) where
  jmpto : Option B
  emitted : Finset B
  out : List (Line B)

/-- `JMP_THREAD_LIM` -/
def jmpThreadLim : Nat := 10

/-- `blk_jmpnext` -/
def blkJmpnext (next : B) (st : FlushState B) : Option (FlushState B) :=
  if st.jmpto.isSome then none else some { st with jmpto := some next }

/-- The loop of `blk_jmpthread`. -/
def threadTo (g : Blocks B) : Nat → B → B
  | 0, b => b
  | lim + 1, b =>
      match (g.blk b).insns, (g.blk b).type with
      | [], .nextBlock next => threadTo g lim next
      | _, _ => b

/-- `blk_jmpthread` -/
def blkJmpthread (opts : FlushOpts) (g : Blocks B) (next : B) : B :=
  if opts.threadJumps then threadTo g jmpThreadLim next else next

/-- The jump that cuts off the block before `b`. -/
def cutOff (opts : FlushOpts) (g : Blocks B) (jmpto : Option B) (b : B) : List (Line B) :=
  match jmpto with
  | none => []
  | some next => if next = b then [] else [.jmp (blkJmpthread opts g next)]

/-- `blk_codegen` -/
def blkCodegen (opts : FlushOpts) (g : Blocks B) (b : B) (st : FlushState B) : FlushState B where
  jmpto := none
  emitted := st.emitted
  out := st.out ++ cutOff opts g st.jmpto b ++ [.label b, .insns b]

/-- `bfs_block` -/
def bfsBlock (opts : FlushOpts) (g : Blocks B) (reachable : Finset B) :
    Nat → FlushState B → B → Option (FlushState B)
  | 0, _, _ => none
  | fuel + 1, st, b =>
      if b ∈ st.emitted ∨ b ∉ reachable then some st
      else do
        let st := { st with emitted := insert b st.emitted }
        let st ← (g.blk b).mergePreds.foldlM (bfsBlock opts g reachable fuel) st
        match (g.blk b).type with
        | .uninit => none
        | .terminal => some (blkCodegen opts g b st)
        | .nextExpr => some (blkCodegen opts g b st)
        | .nextBlock next => do
            let st ← blkJmpnext next (blkCodegen opts g b st)
            bfsBlock opts g reachable fuel st next
        | .cond _ if0Blk if1Blk unlikely => do
            let st := blkCodegen opts g b st
            let st := { st with out := st.out ++ [.condjmp b] }
            let st ← blkJmpnext if1Blk st
            if unlikely then
              let st ← bfsBlock opts g reachable fuel st if0Blk
              bfsBlock opts g reachable fuel st if1Blk
            else
              let st ← bfsBlock opts g reachable fuel st if1Blk
              bfsBlock opts g reachable fuel st if0Blk

/-- `mark_reachable_blocks`, and `dot_block` which walks the same way: the
former sets `reachable`, the latter `emitted`. -/
def markBlocks (g : Blocks B) : Nat → Finset B → B → Option (Finset B)
  | 0, _, _ => none
  | fuel + 1, marked, b =>
      if b ∈ marked then some marked
      else
        match (g.blk b).type with
        | .uninit => none
        | .terminal => some (insert b marked)
        | .nextExpr => some (insert b marked)
        | .nextBlock next => markBlocks g fuel (insert b marked) next
        | .cond _ if0Blk if1Blk _ => do
            let marked ← markBlocks g fuel (insert b marked) if0Blk
            markBlocks g fuel marked if1Blk

/-- `mark_reachable_blocks` -/
def markReachableBlocks (g : Blocks B) : Nat → Finset B → B → Option (Finset B) :=
  markBlocks g

/-- `dot_block` -/
def dotBlock (g : Blocks B) : Nat → Finset B → B → Option (Finset B) :=
  markBlocks g

/-- The `emitted` bits before anything is written: `dot_blocks` sets them. -/
def emittedBefore (opts : FlushOpts) (g : Blocks B) (fuel : Nat) (first : B) :
    Option (Finset B) :=
  if opts.dumpBasicBlocks then dotBlock g fuel ∅ first else some ∅

/-- `blk_flushall` -/
def blkFlushall [Fintype B] (opts : FlushOpts) (g : Blocks B) (first : B) :
    Option (List (Line B)) := do
  let fuel := Fintype.card B + 1
  let emitted ← emittedBefore opts g fuel first
  let reachable ← markReachableBlocks g fuel ∅ first
  let reachable ← g.mustgen.foldlM (markReachableBlocks g fuel) reachable
  let st ← bfsBlock opts g reachable fuel ⟨none, emitted, []⟩ first
  let st ← g.mustgen.foldlM (bfsBlock opts g reachable fuel) st
  return st.out ++ (st.jmpto.map Line.jmp).toList

/-! ## What the graph does -/

/-- How a conditional jump comes out: taken, not taken, or settled by the parity
flag. -/
inductive Outcome
  | taken
  | notTaken
  | parity

/-- What is observed of a run: the blocks with instructions, the outcomes of the
jumps, and the end. -/
inductive BlkEvent (B : Type) where
  | visit (b : B)
  | branch (o : Outcome)
  | computed (target : B)
  | stop

/-- A block without instructions is not seen. -/
def visits (g : Blocks B) (b : B) : List (BlkEvent B) :=
  if (g.blk b).insns = [] then [] else [.visit b]

/-- Where control is in the graph. -/
inductive Node (B : Type) where
  | enter (b : B)
  | decide (b : B)
  | stopped

/-- A walk of the graph.  A computed jump goes to a block whose address has been
taken. -/
inductive GraphStep (g : Blocks B) : Node B → List (BlkEvent B) → Node B → Prop
  | terminal {b : B} : (g.blk b).type = .terminal →
      GraphStep g (.enter b) (visits g b ++ [.stop]) .stopped
  | nextExpr {b target : B} : (g.blk b).type = .nextExpr → target ∈ g.mustgen →
      GraphStep g (.enter b) (visits g b ++ [.computed target]) (.enter target)
  | nextBlock {b next : B} : (g.blk b).type = .nextBlock next →
      GraphStep g (.enter b) (visits g b) (.enter next)
  | cond {b if0Blk if1Blk : B} {insn : CondInsn} {unlikely : Bool} :
      (g.blk b).type = .cond insn if0Blk if1Blk unlikely →
      GraphStep g (.enter b) (visits g b) (.decide b)
  | taken {b if0Blk if1Blk : B} {insn : CondInsn} {unlikely : Bool} :
      (g.blk b).type = .cond insn if0Blk if1Blk unlikely →
      GraphStep g (.decide b) [.branch .taken] (.enter if0Blk)
  | notTaken {b if0Blk if1Blk : B} {insn : CondInsn} {unlikely : Bool} :
      (g.blk b).type = .cond insn if0Blk if1Blk unlikely →
      GraphStep g (.decide b) [.branch .notTaken] (.enter if1Blk)
  | parity {b if0Blk if1Blk : B} {insn : CondInsn} {unlikely to0 : Bool} :
      (g.blk b).type = .cond insn if0Blk if1Blk unlikely → insn.parity = some to0 →
      GraphStep g (.decide b) [.branch .parity] (.enter (if to0 then if0Blk else if1Blk))

/-- The graph, as a system that emits events. -/
def walk (g : Blocks B) : Lib.Emitter (Node B) (BlkEvent B) := ⟨GraphStep g⟩

/-! ## What the stream does -/

/-- The stream from a label on. -/
def fromLabel (s : List (Line B)) (b : B) : List (Line B) :=
  s.dropWhile fun l => l ≠ .label b

/-- What is left to execute. -/
inductive Pc (B : Type) where
  | lines (rest : List (Line B))
  | stopped

/-- Execution of the stream `s`, line by line. -/
inductive StreamStep (g : Blocks B) (s : List (Line B)) :
    Pc B → List (BlkEvent B) → Pc B → Prop
  | label {b : B} {rest : List (Line B)} :
      StreamStep g s (.lines (.label b :: rest)) [] (.lines rest)
  | terminal {b : B} {rest : List (Line B)} : (g.blk b).type = .terminal →
      StreamStep g s (.lines (.insns b :: rest)) (visits g b ++ [.stop]) .stopped
  | nextExpr {b target : B} {rest : List (Line B)} : (g.blk b).type = .nextExpr →
      target ∈ g.mustgen →
      StreamStep g s (.lines (.insns b :: rest)) (visits g b ++ [.computed target])
        (.lines (fromLabel s target))
  | nextBlock {b next : B} {rest : List (Line B)} : (g.blk b).type = .nextBlock next →
      StreamStep g s (.lines (.insns b :: rest)) (visits g b) (.lines rest)
  | cond {b if0Blk if1Blk : B} {insn : CondInsn} {unlikely : Bool} {rest : List (Line B)} :
      (g.blk b).type = .cond insn if0Blk if1Blk unlikely →
      StreamStep g s (.lines (.insns b :: rest)) (visits g b) (.lines rest)
  | taken {b if0Blk if1Blk : B} {insn : CondInsn} {unlikely : Bool} {rest : List (Line B)} :
      (g.blk b).type = .cond insn if0Blk if1Blk unlikely →
      StreamStep g s (.lines (.condjmp b :: rest)) [.branch .taken] (.lines (fromLabel s if0Blk))
  | notTaken {b if0Blk if1Blk : B} {insn : CondInsn} {unlikely : Bool} {rest : List (Line B)} :
      (g.blk b).type = .cond insn if0Blk if1Blk unlikely →
      StreamStep g s (.lines (.condjmp b :: rest)) [.branch .notTaken] (.lines rest)
  | parity {b if0Blk if1Blk : B} {insn : CondInsn} {unlikely to0 : Bool}
      {rest : List (Line B)} :
      (g.blk b).type = .cond insn if0Blk if1Blk unlikely → insn.parity = some to0 →
      StreamStep g s (.lines (.condjmp b :: rest)) [.branch .parity]
        (.lines (fromLabel s (if to0 then if0Blk else if1Blk)))
  | jmp {b : B} {rest : List (Line B)} :
      StreamStep g s (.lines (.jmp b :: rest)) [] (.lines (fromLabel s b))

/-- The stream, as a system that emits events. -/
def stream (g : Blocks B) (s : List (Line B)) : Lib.Emitter (Pc B) (BlkEvent B) :=
  ⟨StreamStep g s⟩

/-! ## What is asked of the stream -/

/-- The edges of the graph. -/
inductive Succ (g : Blocks B) : B → B → Prop
  | next {b next : B} : (g.blk b).type = .nextBlock next → Succ g b next
  | if0 {b if0Blk if1Blk : B} {insn : CondInsn} {unlikely : Bool} :
      (g.blk b).type = .cond insn if0Blk if1Blk unlikely → Succ g b if0Blk
  | if1 {b if0Blk if1Blk : B} {insn : CondInsn} {unlikely : Bool} :
      (g.blk b).type = .cond insn if0Blk if1Blk unlikely → Succ g b if1Blk

/-- Reachable from the first block, or from one that must be generated. -/
def Reachable (g : Blocks B) (first b : B) : Prop :=
  ∃ root ∈ first :: g.mustgen, Relation.ReflTransGen (Succ g) root b

/-- The blocks are written, each reachable one once; from the label of the first
one the stream does what the graph does, and never runs off its end. -/
def FlushesFaithfully [Fintype B] (opts : FlushOpts) (g : Blocks B) (first : B) : Prop :=
  ∃ s, blkFlushall opts g first = some s ∧
    (∀ b, Reachable g first b → s.count (.label b) = 1 ∧ s.count (.insns b) = 1) ∧
    (∀ es, (stream g s).Traces (.lines (fromLabel s first)) es ↔
      (walk g).Traces (.enter first) es) ∧
    ∀ es rest, (stream g s).Run (.lines (fromLabel s first)) es (.lines rest) → rest ≠ []

end Ucc.Cc1
