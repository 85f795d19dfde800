/-
  Lib/Moves.lean --- bytes that are cleared and copied.

  Addresses are words, and wrap around.  A move clears a range of bytes or copies
  one to another.  `zeroChain` and `copyChain` are moves that follow each other
  without a gap; they do what one large move does.
-/
import Mathlib.Data.BitVec
import Mathlib.Tactic

set_option autoImplicit false

namespace Ucc.Lib

variable {w : Nat}

/-- A memory of bytes. -/
abbrev ByteMem (w : Nat) := BitVec w → UInt8

/-- One of the `len` addresses from `p` on. -/
def InSpan (p : BitVec w) (len : Nat) (a : BitVec w) : Prop := (a - p).toNat < len

/-- Instructions that write to memory. -/
inductive MemMove (w : Nat) where
  | zero (addr : BitVec w) (size : Nat)
  | copy (dst src : BitVec w) (size : Nat)
  deriving DecidableEq, Repr

/-- The addresses that are written. -/
def MemMove.writes : MemMove w → BitVec w → Prop
  | .zero addr size => InSpan addr size
  | .copy dst _ size => InSpan dst size

/-- The memory after a move. -/
def MemMove.run (m : ByteMem w) : MemMove w → ByteMem w
  | .zero addr size => fun a => if (a - addr).toNat < size then 0 else m a
  | .copy dst src size => fun a => if (a - dst).toNat < size then m (src + (a - dst)) else m a

/-- The memory after a list of moves. -/
def runMoves (m : ByteMem w) (moves : List (MemMove w)) : ByteMem w := moves.foldl MemMove.run m

/-- The bytes of the range become 0, and nothing else is written. -/
def ZeroesExactly (p : BitVec w) (len : Nat) (moves : List (MemMove w)) : Prop :=
  (∀ a, (∃ move ∈ moves, move.writes a) ↔ InSpan p len a) ∧
    ∀ m a, InSpan p len a → runMoves m moves a = 0

/-- The bytes of one range are copied to another, and nothing else is written. -/
def CopiesExactly (dst src : BitVec w) (len : Nat) (moves : List (MemMove w)) : Prop :=
  (∀ a, (∃ move ∈ moves, move.writes a) ↔ InSpan dst len a) ∧
    ∀ m a, InSpan dst len a → runMoves m moves a = m (src + (a - dst))

/-- The ranges have no address in common. -/
def Apart (p q : BitVec w) (len : Nat) : Prop := ∀ a, InSpan p len a → ¬ InSpan q len a

/-! ## Ranges -/

/-- A range is cut in two. -/
theorem inSpan_add {p a : BitVec w} {c len : Nat} (h : c + len ≤ 2 ^ w) :
    InSpan p (c + len) a ↔ InSpan p c a ∨ InSpan (p + BitVec.ofNat w c) len a := by
  unfold InSpan
  have hsub : a - (p + BitVec.ofNat w c) = (a - p) - BitVec.ofNat w c := by
    rw [sub_add_eq_sub_sub]
  have hlt := (a - p).isLt
  rw [hsub]
  generalize a - p = x at *
  rcases Nat.lt_or_ge x.toNat c with hc | hc
  · have : (x - BitVec.ofNat w c).toNat = 2 ^ w - c + x.toNat := by
      rw [BitVec.toNat_sub, BitVec.toNat_ofNat]
      rcases Nat.lt_or_ge c (2 ^ w) with hcw | hcw
      · rw [Nat.mod_eq_of_lt hcw, Nat.mod_eq_of_lt (by omega)]
      · have hce : c = 2 ^ w := by omega
        rw [hce, Nat.mod_self, Nat.sub_zero, Nat.add_mod_left, Nat.mod_eq_of_lt hlt]
        omega
    omega
  · have hcw : c < 2 ^ w := by omega
    have : (x - BitVec.ofNat w c).toNat = x.toNat - c := by
      rw [BitVec.toNat_sub, BitVec.toNat_ofNat, Nat.mod_eq_of_lt hcw]
      have hmod : 2 ^ w - c + x.toNat = (x.toNat - c) + 2 ^ w := by omega
      rw [hmod, Nat.add_mod_right, Nat.mod_eq_of_lt (by omega)]
    omega

theorem InSpan.mono {p a : BitVec w} {len len' : Nat} (h : InSpan p len a) (hle : len ≤ len') :
    InSpan p len' a := Nat.lt_of_lt_of_le h hle

/-- The byte at an offset. -/
theorem inSpan_offset {p : BitVec w} {k len : Nat} (hk : k < 2 ^ w) :
    InSpan p len (p + BitVec.ofNat w k) ↔ k < len := by
  unfold InSpan
  rw [add_sub_cancel_left, BitVec.toNat_ofNat, Nat.mod_eq_of_lt hk]

theorem not_inSpan_zero (p a : BitVec w) : ¬ InSpan p 0 a := Nat.not_lt_zero _

/-! ## Lists of moves -/

theorem runMoves_cons (m : ByteMem w) (move : MemMove w) (moves : List (MemMove w)) :
    runMoves m (move :: moves) = runMoves (move.run m) moves := rfl

/-- What is not written stays. -/
theorem runMoves_of_not_writes {moves : List (MemMove w)} {a : BitVec w}
    (h : ∀ move ∈ moves, ¬ move.writes a) (m : ByteMem w) : runMoves m moves a = m a := by
  induction moves generalizing m with
  | nil => rfl
  | cons move moves ih =>
    rw [runMoves_cons, ih (fun x hx => h x (List.mem_cons_of_mem _ hx))]
    have hhead := h move List.mem_cons_self
    cases move with
    | zero addr size => exact if_neg hhead
    | copy dst src size => exact if_neg hhead

/-- Ranges that are cleared one after the other. -/
def zeroChain (p : BitVec w) : List Nat → List (MemMove w)
  | [] => []
  | n :: ns => .zero p n :: zeroChain (p + BitVec.ofNat w n) ns

/-- Ranges that are copied one after the other. -/
def copyChain (dst src : BitVec w) : List Nat → List (MemMove w)
  | [] => []
  | n :: ns => .copy dst src n :: copyChain (dst + BitVec.ofNat w n) (src + BitVec.ofNat w n) ns

theorem copyChain_append (dst src : BitVec w) (ms ns : List Nat) :
    copyChain dst src (ms ++ ns) = copyChain dst src ms ++
      copyChain (dst + BitVec.ofNat w ms.sum) (src + BitVec.ofNat w ms.sum) ns := by
  induction ms generalizing dst src with
  | nil => simp [copyChain]
  | cons m ms ih =>
    simp only [List.cons_append, copyChain, ih, List.sum_cons, BitVec.ofNat_add, add_assoc]

theorem zeroChain_writes (p : BitVec w) (ns : List Nat) (h : ns.sum ≤ 2 ^ w) (a : BitVec w) :
    (∃ move ∈ zeroChain p ns, move.writes a) ↔ InSpan p ns.sum a := by
  induction ns generalizing p with
  | nil => simp [zeroChain, not_inSpan_zero]
  | cons n ns ih =>
    rw [List.sum_cons] at h ⊢
    simp only [zeroChain, List.exists_mem_cons_iff]
    rw [ih _ (by omega), inSpan_add h]
    rfl

/-- The chain clears its range. -/
theorem zeroChain_exact (p : BitVec w) (ns : List Nat) (h : ns.sum ≤ 2 ^ w) :
    ZeroesExactly p ns.sum (zeroChain p ns) := by
  refine ⟨zeroChain_writes p ns h, ?_⟩
  induction ns generalizing p with
  | nil => exact fun _ _ ha => absurd ha (not_inSpan_zero _ _)
  | cons n ns ih =>
    intro m a ha
    rw [List.sum_cons] at h ha
    have hwrites := zeroChain_writes (p + BitVec.ofNat w n) ns (by omega) a
    rw [zeroChain, runMoves_cons]
    by_cases hrest : InSpan (p + BitVec.ofNat w n) ns.sum a
    · exact ih _ (by omega) _ _ hrest
    · rw [runMoves_of_not_writes fun x hx hw => hrest (hwrites.1 ⟨x, hx, hw⟩)]
      exact if_pos (((inSpan_add h).1 ha).resolve_right hrest)

theorem copyChain_writes (dst src : BitVec w) (ns : List Nat) (h : ns.sum ≤ 2 ^ w)
    (a : BitVec w) :
    (∃ move ∈ copyChain dst src ns, move.writes a) ↔ InSpan dst ns.sum a := by
  induction ns generalizing dst src with
  | nil => simp [copyChain, not_inSpan_zero]
  | cons n ns ih =>
    rw [List.sum_cons] at h ⊢
    simp only [copyChain, List.exists_mem_cons_iff]
    rw [ih _ _ (by omega), inSpan_add h]
    rfl

/-- The chain copies its range, if it does not overwrite what it copies. -/
theorem copyChain_exact (dst src : BitVec w) (ns : List Nat) (h : ns.sum ≤ 2 ^ w)
    (hapart : Apart dst src ns.sum) : CopiesExactly dst src ns.sum (copyChain dst src ns) := by
  refine ⟨copyChain_writes dst src ns h, ?_⟩
  induction ns generalizing dst src with
  | nil => exact fun _ _ ha => absurd ha (not_inSpan_zero _ _)
  | cons n ns ih =>
    intro m a ha
    rw [List.sum_cons] at h ha hapart
    have hrest : Apart (dst + BitVec.ofNat w n) (src + BitVec.ofNat w n) ns.sum := fun b hd hs =>
      hapart b ((inSpan_add h).2 (Or.inr hd)) ((inSpan_add h).2 (Or.inr hs))
    have hwrites := copyChain_writes (dst + BitVec.ofNat w n) (src + BitVec.ofNat w n) ns
      (by omega) a
    rw [copyChain, runMoves_cons]
    by_cases hin : InSpan (dst + BitVec.ofNat w n) ns.sum a
    · rw [ih _ _ (by omega) hrest _ _ hin]
      have hsrc : src + BitVec.ofNat w n + (a - (dst + BitVec.ofNat w n)) = src + (a - dst) := by
        ring
      have hread : InSpan src (n + ns.sum) (src + (a - dst)) := by
        unfold InSpan
        rw [add_sub_cancel_left]
        exact ha
      rw [hsrc]
      refine if_neg fun hd => ?_
      exact hapart _ (InSpan.mono hd (by omega)) hread
    · rw [runMoves_of_not_writes fun x hx hw => hin (hwrites.1 ⟨x, hx, hw⟩)]
      exact if_pos (((inSpan_add h).1 ha).resolve_right hin)

end Ucc.Lib
