/-
  Cc1/Vla.lean --- the sizes of variably-modified types.

  Source: src/cc1/vla.c (vla_decl_space, vla_cached_size, vla_cache_size,
  vla_gen_size_ty, vla_typedef_init, vla_decl_init, vla_size), with type_next,
  type_skip_all and type_is_vla of src/cc1/type_is.c.

  A type is a chain of nodes, down to a base type.  Two arrays with a run-time dimension
  are told apart by their size expressions, and it is such a node that the map of saved
  sizes is asked for.  The code is run as it is generated: a size expression has the value
  that it has then.  `[*]` is in prototypes only, and has no node here.
-/
import Ucc.Cc1.SaveRegsSound

set_option autoImplicit false

namespace Ucc.Cc1.Vla

open Ucc.Cc1.Save (readMem writeMem readMem_writeMem_self readMem_congr)
open Ucc.Cc1.Stack (wordSize)

/-! ## Types -/

/-- The nodes that `type_skip_all` passes, besides typedefs. -/
inductive Wrap where
  | cast | attr | whereAt
deriving DecidableEq, Repr

/-- `struct type` -/
inductive VmTy where
  /-- with its `type_size` -/
  | btype (size : Nat)
  | ptr (next : VmTy)
  | block (next : VmTy)
  | func (next : VmTy)
  /-- an array with a run-time dimension -/
  | vla (size : Nat) (next : VmTy)
  /-- an array with a constant dimension, or with none -/
  | array (count : Option Integral) (next : VmTy)
  | tdef (next : VmTy)
  | wrap (kind : Wrap) (next : VmTy)
deriving DecidableEq, Repr

namespace VmTy

/-- `type_skip_all` -/
def skipAll : VmTy → VmTy
  | .tdef n => n.skipAll
  | .wrap _ n => n.skipAll
  | t => t

/-- `type_next`: of a typedef, that of what it names. -/
def next : VmTy → Option VmTy
  | .btype _ => none
  | .ptr n => some n
  | .block n => some n
  | .func n => some n
  | .vla _ n => some n
  | .array _ n => some n
  | .tdef n => n.next
  | .wrap _ n => n.next

/-- `type_is_vla` with `VLA_TOP_DIMENSION` -/
def isVlaTop (t : VmTy) : Bool :=
  match t.skipAll with
  | .vla _ _ => true
  | _ => false

/-- `type_is_vla` with `VLA_ANY_DIMENSION` -/
def isVlaAny : VmTy → Bool
  | .vla _ _ => true
  | .array _ n => n.isVlaAny
  | .tdef n => n.isVlaAny
  | .wrap _ n => n.isVlaAny
  | _ => false

/-- The number of nodes. -/
def depth : VmTy → Nat
  | .btype _ => 0
  | .ptr n => n.depth + 1
  | .block n => n.depth + 1
  | .func n => n.depth + 1
  | .vla _ n => n.depth + 1
  | .array _ n => n.depth + 1
  | .tdef n => n.depth + 1
  | .wrap _ n => n.depth + 1

theorem depth_next {t u : VmTy} (h : t.next = some u) : u.depth < t.depth := by
  induction t with
  | btype size => cases h
  | tdef n ih => exact Nat.lt_succ_of_lt (ih h)
  | wrap k n ih => exact Nat.lt_succ_of_lt (ih h)
  | _ =>
    obtain rfl := Option.some.inj h
    exact Nat.lt_succ_self _

/-- The loop of `vla_decl_space` over `type_next`. -/
def vlaDims (t : VmTy) : Nat :=
  (if t.isVlaTop then 1 else 0) +
    match _hnext : t.next with
    | some u => u.vlaDims
    | none => 0
termination_by t.depth
decreasing_by exact depth_next _hnext

end VmTy

/-- `decl`, and where its stack entry is. -/
structure VlaDecl where
  isTypedef : Bool
  ty : VmTy
  place : Int

/-- `vla_decl_space`: a pointer, the stack pointer that was saved, and the sizes. -/
def VlaDecl.space (d : VlaDecl) : Nat :=
  (if d.isTypedef then 0 else if d.ty.isVlaAny then wordSize * 2 else wordSize) +
    d.ty.vlaDims * wordSize

/-- Where `vla_typedef_init` and `vla_decl_init` begin to store sizes. -/
def VlaDecl.sizesAt (d : VlaDecl) : Int :=
  if d.isTypedef then d.place else d.place + (1 + if d.ty.isVlaAny then 1 else 0) * wordSize

/-! ## The size of a type -/

/-- `vlamap`, the memory, and the arrays whose size expressions were evaluated. -/
structure VlaState where
  vlamap : VmTy → Option Int
  mem : Int → BitVec 8
  evaluated : List VmTy

def VlaState.read (s : VlaState) (a : Int) : Integral := BitVec.ofNat 64 (readMem s.mem a wordSize)

/-- `vla_cached_size` -/
def vlaCachedSize (s : VlaState) (t : VmTy) : Option Integral := (s.vlamap t.skipAll).map s.read

/-- `vla_cache_size` -/
def vlaCacheSize (s : VlaState) (t : VmTy) (sz : Integral) (stackEnt : Int) : VlaState :=
  { s with
    vlamap := Function.update s.vlamap t (some stackEnt)
    mem := writeMem s.mem stackEnt wordSize sz.toNat }

/-- `gen_expr` of the size of an array -/
def VlaState.genExpr (s : VlaState) (t : VmTy) : VlaState :=
  { s with evaluated := s.evaluated ++ [t] }

/-- `vla_gen_size_ty`.  With `skip` the type is what `type_skip_all` makes of it, so that a
typedef is passed.  `none` is the assertion "release NULL out_val". -/
def vlaGenSizeTy (dims : VmTy → Integral) :
    Bool → VmTy → Option Int → VlaState → Option (Integral × VlaState)
  | _, .btype size, _, s => some (BitVec.ofNat 64 size, s)
  | _, .ptr n, stackEnt, s =>
      (vlaGenSizeTy dims false n stackEnt s).map fun r => (BitVec.ofNat 64 wordSize * r.1, r.2)
  | _, .block n, stackEnt, s =>
      (vlaGenSizeTy dims false n stackEnt s).map fun r => (BitVec.ofNat 64 wordSize * r.1, r.2)
  | _, .func n, stackEnt, s =>
      (vlaGenSizeTy dims false n stackEnt s).map fun r => (1 * r.1, r.2)
  | _, .vla i n, stackEnt, s =>
      match vlaCachedSize s (.vla i n) with
      | some sz => some (sz, s)
      | none =>
          match vlaGenSizeTy dims false n (stackEnt.map (· + wordSize)) (s.genExpr (.vla i n)) with
          | none => none
          | some (inner, s) =>
              let sz := inner * dims (.vla i n)
              match stackEnt with
              | some stackEnt => some (sz, vlaCacheSize s (.vla i n) sz stackEnt)
              | none => some (sz, s)
  | _, .array count n, stackEnt, s =>
      (vlaGenSizeTy dims false n stackEnt s).map fun r => (count.getD 0 * r.1, r.2)
  | skip, .tdef n, stackEnt, s =>
      if skip then vlaGenSizeTy dims true n stackEnt s
      else
        match vlaCachedSize s (.tdef n) with
        | some sz => if stackEnt.isSome then some (sz, s) else none
        | none => vlaGenSizeTy dims false n stackEnt s
  | _, .wrap _ n, stackEnt, s => vlaGenSizeTy dims true n stackEnt s

/-- `vla_size` -/
def vlaSize (dims : VmTy → Integral) (t : VmTy) (s : VlaState) : Option (Integral × VlaState) :=
  match vlaCachedSize s t with
  | some sz => some (sz, s)
  | none => vlaGenSizeTy dims false t none s

/-! ## What is asked of it -/

/-- The size of a type in C, a function being one byte. -/
def sizeofC (dims : VmTy → Integral) : VmTy → Integral
  | .btype size => BitVec.ofNat 64 size
  | .ptr _ => BitVec.ofNat 64 wordSize
  | .block _ => BitVec.ofNat 64 wordSize
  | .func _ => 1
  | .vla i n => dims (.vla i n) * sizeofC dims n
  | .array count n => count.getD 0 * sizeofC dims n
  | .tdef n => sizeofC dims n
  | .wrap _ n => sizeofC dims n

/-- The arrays with a run-time dimension. -/
def VmTy.vlas : VmTy → List VmTy
  | .btype _ => []
  | .ptr n => n.vlas
  | .block n => n.vlas
  | .func n => n.vlas
  | .vla i n => .vla i n :: n.vlas
  | .array _ n => n.vlas
  | .tdef n => n.vlas
  | .wrap _ n => n.vlas

/-- Those whose size is not saved yet. -/
def VlaState.fresh (s : VlaState) (t : VmTy) : List VmTy :=
  t.vlas.filter fun u => (s.vlamap u).isNone

/-- The sizes that are saved are right, and in words of their own. -/
structure VlaState.Good (dims : VmTy → Integral) (s : VlaState) : Prop where
  sizes : ∀ u a, s.vlamap u = some a → s.read a = sizeofC dims u
  arrays : ∀ u a, s.vlamap u = some a → ∃ i n, u = .vla i n
  closed : ∀ u a, s.vlamap u = some a → ∀ v ∈ u.vlas, ∃ b, s.vlamap v = some b
  apart : ∀ u v a b, u ≠ v → s.vlamap u = some a → s.vlamap v = some b →
    a + wordSize ≤ b ∨ b + wordSize ≤ a

/-- No size is saved where the declaration's stack entry is. -/
def VlaState.Free (s : VlaState) (d : VlaDecl) : Prop :=
  ∀ u a, s.vlamap u = some a → a + wordSize ≤ d.place ∨ d.place + d.space ≤ a

/-- A declaration's sizes are right, evaluated once and saved in its stack entry. -/
structure SizedDecl (dims : VmTy → Integral) (s : VlaState) (d : VlaDecl) (x : Integral)
    (s' : VlaState) : Prop where
  value : x = sizeofC dims d.ty
  once : s'.evaluated = s.evaluated ++ s.fresh d.ty ∧ (s.fresh d.ty).Nodup
  saved : ∀ u ∈ d.ty.vlas, ∃ a, s'.vlamap u = some a
  inside : ∀ u ∈ s.fresh d.ty, ∀ a, s'.vlamap u = some a →
    d.sizesAt ≤ a ∧ a + wordSize ≤ d.place + d.space
  kept : ∀ u a, s.vlamap u = some a → s'.vlamap u = some a
  good : s'.Good dims

/-- The sizes of a type are right wherever they are asked for: in a declaration, and later
with `vla_size`. -/
def VlaSized (t : VmTy) : Prop :=
  ∀ dims s, s.Good dims →
    (∀ d, d.ty = t → s.Free d → ∃ x s',
      vlaGenSizeTy dims false t (some d.sizesAt) s = some (x, s') ∧ SizedDecl dims s d x s') ∧
    vlaSize dims t s = some (sizeofC dims t, { s with evaluated := s.evaluated ++ s.fresh t })

end Ucc.Cc1.Vla
