/-
  Cc1/VlaSound.lean --- which sizes of variably-modified types are right.

  Source: src/cc1/vla.c.

  `vla_gen_size_ty` multiplies all the way down to the base type, where C's size ends at a
  pointer.  What it computes is a product over the nodes, whatever was saved before; that
  the product is the size is a matter of the type only.
-/
import Ucc.Cc1.Vla

set_option autoImplicit false

namespace Ucc.Cc1.Vla

open Ucc.Cc1.Save (readMem writeMem readMem_writeMem_self readMem_congr)
open Ucc.Cc1.Stack (wordSize)

/-! ## Nodes -/

namespace VmTy

theorem depth_skipAll (t : VmTy) : t.skipAll.depth ≤ t.depth := by
  induction t with
  | tdef n ih => exact ih.trans (Nat.le_succ _)
  | wrap k n ih => exact ih.trans (Nat.le_succ _)
  | _ => exact le_rfl

theorem vlas_skipAll (t : VmTy) : t.skipAll.vlas = t.vlas := by
  induction t with
  | tdef n ih => exact ih
  | wrap k n ih => exact ih
  | _ => rfl

theorem isVlaTop_iff (t : VmTy) : t.isVlaTop = true ↔ ∃ i n, t.skipAll = .vla i n := by
  unfold isVlaTop
  cases t.skipAll with
  | vla i n => exact iff_of_true rfl ⟨i, n, rfl⟩
  | _ => exact iff_of_false Bool.false_ne_true (by rintro ⟨i, n, h⟩; cases h)

/-- The arrays inside one of the arrays. -/
theorem exists_of_mem_vlas {t u : VmTy} (h : u ∈ t.vlas) :
    (∃ i n, u = .vla i n) ∧ u.vlas <:+ t.vlas ∧ (u = t.skipAll ∨ u.depth < t.skipAll.depth) := by
  induction t with
  | btype size => cases h
  | vla i n ih =>
    obtain rfl | h := List.mem_cons.1 h
    · exact ⟨⟨i, n, rfl⟩, List.suffix_rfl, Or.inl rfl⟩
    · obtain ⟨hvla, hsuffix, hdepth⟩ := ih h
      refine ⟨hvla, hsuffix.trans (List.suffix_cons _ _), Or.inr (Nat.lt_succ_of_le ?_)⟩
      rcases hdepth with rfl | hdepth
      · exact n.depth_skipAll
      · exact hdepth.le.trans n.depth_skipAll
  | tdef n ih => exact ih h
  | wrap k n ih => exact ih h
  | ptr n ih | block n ih | func n ih | array count n ih =>
    obtain ⟨hvla, hsuffix, hdepth⟩ := ih h
    refine ⟨hvla, hsuffix, Or.inr (Nat.lt_succ_of_le ?_)⟩
    rcases hdepth with rfl | hdepth
    · exact n.depth_skipAll
    · exact hdepth.le.trans n.depth_skipAll

theorem depth_of_mem_vlas {t u : VmTy} (h : u ∈ t.vlas) : u.depth ≤ t.depth := by
  obtain ⟨-, -, rfl | hlt⟩ := exists_of_mem_vlas h
  · exact t.depth_skipAll
  · exact hlt.le.trans t.depth_skipAll

theorem vla_notMem_vlas (i : Nat) (n : VmTy) : .vla i n ∉ n.vlas := fun h =>
  Nat.not_succ_le_self _ (depth_of_mem_vlas h)

theorem nodup_vlas (t : VmTy) : t.vlas.Nodup := by
  induction t with
  | btype size => exact List.nodup_nil
  | vla i n ih => exact List.nodup_cons.2 ⟨vla_notMem_vlas i n, ih⟩
  | _ => assumption

/-- The loop of `vla_decl_space` counts them. -/
theorem length_vlas (t : VmTy) :
    t.vlas.length = (if t.isVlaTop then 1 else 0) +
      match t.next with
      | some u => u.vlas.length
      | none => 0 := by
  induction t with
  | tdef n ih => exact ih
  | wrap k n ih => exact ih
  | vla i n => exact Nat.add_comm _ _
  | btype size => rfl
  | ptr n | block n | func n | array count n => exact (Nat.zero_add _).symm

theorem vlaDims_eq (t : VmTy) : t.vlaDims = t.vlas.length := by
  induction t using vlaDims.induct with
  | case1 t ih =>
    rw [vlaDims, length_vlas]
    cases hnext : t.next with
    | none => rfl
    | some u => exact congrArg _ (ih u hnext)

end VmTy

/-! ## The product -/

/-- What is computed when nothing was saved. -/
def product (dims : VmTy → Integral) : VmTy → Integral
  | .btype size => BitVec.ofNat 64 size
  | .ptr n => BitVec.ofNat 64 wordSize * product dims n
  | .block n => BitVec.ofNat 64 wordSize * product dims n
  | .func n => 1 * product dims n
  | .vla i n => product dims n * dims (.vla i n)
  | .array count n => count.getD 0 * product dims n
  | .tdef n => product dims n
  | .wrap _ n => product dims n

theorem product_skipAll (dims : VmTy → Integral) (t : VmTy) :
    product dims t.skipAll = product dims t := by
  induction t with
  | tdef n ih => exact ih
  | wrap k n ih => exact ih
  | _ => rfl

theorem product_congr {dims dims' : VmTy → Integral} {t : VmTy}
    (h : ∀ u ∈ t.vlas, dims u = dims' u) : product dims t = product dims' t := by
  induction t with
  | btype size => rfl
  | vla i n ih =>
    rw [product, product, ih fun u hu => h u (List.mem_cons_of_mem _ hu),
      h _ List.mem_cons_self]
  | tdef n ih => exact ih h
  | wrap k n ih => exact ih h
  | ptr n ih | block n ih | func n ih | array count n ih => exact congrArg _ (ih h)

theorem sizeofC_congr {dims dims' : VmTy → Integral} {t : VmTy}
    (h : ∀ u ∈ t.vlas, dims u = dims' u) : sizeofC dims t = sizeofC dims' t := by
  induction t with
  | vla i n ih =>
    rw [sizeofC, sizeofC, ih fun u hu => h u (List.mem_cons_of_mem _ hu),
      h _ List.mem_cons_self]
  | tdef n ih => exact ih h
  | wrap k n ih => exact ih h
  | array count n ih => exact congrArg _ (ih h)
  | _ => rfl

/-- A run-time dimension may be 0. -/
theorem product_zero {t : VmTy} (h : t.vlas ≠ []) : product (fun _ => 0) t = 0 := by
  induction t with
  | btype size => exact absurd rfl h
  | vla i n ih => exact mul_zero _
  | tdef n ih => exact ih h
  | wrap k n ih => exact ih h
  | ptr n ih | block n ih | func n ih | array count n ih =>
    rw [product, ih h, mul_zero]

/-! ## The types whose product is their size -/

/-- What is behind a pointer, or a function, does not change the product: there is no
run-time dimension in it, and it multiplies out to 1.  `c` is the product in front. -/
def Inline (c : Integral) (t : VmTy) : Prop :=
  if t.vlas = [] then c * product (fun _ => 0) t = c else c = 0

/-- The product is the size, `c` being the product of what is in front. -/
def ProductIsSize : Integral → VmTy → Prop
  | _, .btype _ => True
  | c, .ptr n => Inline (c * BitVec.ofNat 64 wordSize) n
  | c, .block n => Inline (c * BitVec.ofNat 64 wordSize) n
  | c, .func n => Inline c n
  | c, .vla _ n => ProductIsSize c n
  | c, .array count n => ProductIsSize (c * count.getD 0) n
  | c, .tdef n => ProductIsSize c n
  | c, .wrap _ n => ProductIsSize c n

theorem inline_iff (c : Integral) (t : VmTy) :
    Inline c t ↔ ∀ dims, c * product dims t = c := by
  unfold Inline
  split
  · rename_i hnone
    refine ⟨fun h dims => ?_, fun h => h _⟩
    have hsame : product dims t = product (fun _ => 0) t := product_congr fun u hu => by
      rw [hnone] at hu
      cases hu
    rw [hsame, h]
  · rename_i hsome
    refine ⟨fun h dims => ?_, fun h => ?_⟩
    · rw [h, zero_mul]
    · rw [← h fun _ => 0, product_zero hsome, mul_zero]

theorem productIsSize_iff (c : Integral) (t : VmTy) :
    ProductIsSize c t ↔ ∀ dims, c * product dims t = c * sizeofC dims t := by
  induction t generalizing c with
  | btype size => exact iff_of_true trivial fun _ => rfl
  | ptr n | block n =>
    rw [ProductIsSize, inline_iff]
    exact forall_congr' fun dims => by rw [product, sizeofC, mul_assoc]
  | func n =>
    rw [ProductIsSize, inline_iff]
    exact forall_congr' fun dims => by rw [product, sizeofC, one_mul, mul_one]
  | vla i n ih =>
    rw [ProductIsSize, ih]
    constructor
    · intro h dims
      rw [product, sizeofC, ← mul_assoc, h, mul_assoc, mul_comm (dims _)]
    · intro h dims
      -- the dimension may be 1
      have hone := h (Function.update dims (.vla i n) 1)
      have hsame : ∀ u ∈ n.vlas, Function.update dims (.vla i n) 1 u = dims u := fun u hu =>
        Function.update_of_ne (fun heq => n.vla_notMem_vlas i (by rw [← heq]; exact hu)) _ _
      rwa [product, sizeofC, Function.update_self, mul_one, one_mul, product_congr hsame,
        sizeofC_congr hsame] at hone
  | array count n ih =>
    rw [ProductIsSize, ih]
    exact forall_congr' fun dims => by rw [product, sizeofC, mul_assoc, mul_assoc]
  | tdef n ih => exact ih c
  | wrap k n ih => exact ih c

/-! ## The run -/

/-- No typedef that is looked up names an array with a run-time dimension. -/
def Unnamed : Bool → VmTy → Prop
  | _, .btype _ => True
  | _, .ptr n => Unnamed false n
  | _, .block n => Unnamed false n
  | _, .func n => Unnamed false n
  | _, .vla _ n => Unnamed false n
  | _, .array _ n => Unnamed false n
  | skip, .tdef n => (skip = false → n.isVlaTop = false) ∧ Unnamed skip n
  | _, .wrap _ n => Unnamed true n

/-- The sizes that are saved of the arrays of a type are what would be computed. -/
structure VlaState.Computed (dims : VmTy → Integral) (s : VlaState) (t : VmTy) : Prop where
  sizes : ∀ u ∈ t.vlas, ∀ a, s.vlamap u = some a → s.read a = product dims u
  arrays : ∀ u a, s.vlamap u = some a → ∃ i n, u = .vla i n
  closed : ∀ u a, s.vlamap u = some a → ∀ v ∈ u.vlas, ∃ b, s.vlamap v = some b

/-- The sizes of some arrays, the first at `a`. -/
def fill (dims : VmTy → Integral) : Int → List VmTy → VlaState → VlaState
  | _, [], s => s
  | a, u :: us, s => vlaCacheSize (fill dims (a + wordSize) us s) u (product dims u) a

/-- What is left behind: with a stack entry the sizes are saved. -/
def settled (dims : VmTy → Integral) (t : VmTy) (stackEnt : Option Int) (s : VlaState) : VlaState :=
  let s' := { s with evaluated := s.evaluated ++ s.fresh t }
  match stackEnt with
  | some a => fill dims a (s.fresh t) s'
  | none => s'

section Run

variable {dims : VmTy → Integral} {s : VlaState} {t : VmTy}

theorem vlaCachedSize_some {a : Int} (ha : s.vlamap t.skipAll = some a) :
    vlaCachedSize s t = some (s.read a) := by
  unfold vlaCachedSize
  rw [ha, Option.map_some]

theorem vlaCachedSize_none (ha : s.vlamap t.skipAll = none) : vlaCachedSize s t = none := by
  unfold vlaCachedSize
  rw [ha, Option.map_none]

theorem fresh_skipAll : s.fresh t.skipAll = s.fresh t := by
  unfold VlaState.fresh
  rw [t.vlas_skipAll]

theorem mem_fresh {u : VmTy} : u ∈ s.fresh t ↔ u ∈ t.vlas ∧ s.vlamap u = none := by
  unfold VlaState.fresh
  rw [List.mem_filter, Option.isNone_iff_eq_none]

theorem fresh_eq_nil (hclosed : ∀ v ∈ t.skipAll.vlas, ∃ b, s.vlamap v = some b) :
    s.fresh t = [] := by
  rw [← fresh_skipAll, List.eq_nil_iff_forall_not_mem]
  intro v hv
  obtain ⟨hmem, hnone⟩ := mem_fresh.1 hv
  obtain ⟨b, hb⟩ := hclosed v hmem
  rw [hb] at hnone
  cases hnone

theorem settled_of_cached (h : s.Computed dims t) {a : Int} (ha : s.vlamap t.skipAll = some a)
    (stackEnt : Option Int) : settled dims t stackEnt s = s := by
  have hnil := fresh_eq_nil (h.closed _ a ha)
  unfold settled
  rw [hnil, List.append_nil]
  cases stackEnt with
  | none => rfl
  | some a => rfl

theorem fresh_vla {i : Nat} {n : VmTy} (h : s.vlamap (.vla i n) = none) :
    s.fresh (.vla i n) = .vla i n :: s.fresh n :=
  List.filter_cons_of_pos (by rw [h]; rfl)

/-- The product, and the sizes that were not saved yet. -/
theorem vlaGenSizeTy_eq (h : s.Computed dims t) (skip : Bool) (stackEnt : Option Int)
    (hlook : stackEnt = none → Unnamed skip t) :
    vlaGenSizeTy dims skip t stackEnt s = some (product dims t, settled dims t stackEnt s) := by
  induction t generalizing s skip stackEnt with
  | btype size =>
    have hnil : settled dims (.btype size) stackEnt s = s := by
      cases stackEnt with
      | none => exact congrArg (fun e => { s with evaluated := e }) (List.append_nil _)
      | some a => exact congrArg (fun e => { s with evaluated := e }) (List.append_nil _)
    rw [hnil]
    rfl
  | ptr n ih | block n ih | func n ih | array count n ih =>
    rw [vlaGenSizeTy, ih ⟨h.sizes, h.arrays, h.closed⟩ false stackEnt hlook]
    rfl
  | vla i n ih =>
    rw [vlaGenSizeTy]
    cases hcached : s.vlamap (.vla i n) with
    | some a =>
      rw [vlaCachedSize_some (t := .vla i n) hcached, h.sizes _ List.mem_cons_self a hcached,
        settled_of_cached (t := .vla i n) h hcached]
    | none =>
      have hrun := ih (s := s.genExpr (.vla i n))
        ⟨fun u hu => h.sizes u (List.mem_cons_of_mem _ hu), h.arrays, h.closed⟩ false
        (stackEnt.map (· + wordSize)) (by cases stackEnt with
          | none => exact fun _ => hlook rfl
          | some a => exact fun hnone => by cases hnone)
      have hfresh : (s.genExpr (.vla i n)).fresh n = s.fresh n := rfl
      rw [vlaCachedSize_none (t := .vla i n) hcached, hrun]
      unfold settled
      rw [hfresh, fresh_vla hcached]
      have happ : s.evaluated ++ VmTy.vla i n :: s.fresh n =
          s.evaluated ++ [VmTy.vla i n] ++ s.fresh n := by simp
      rw [happ]
      cases stackEnt with
      | none => rfl
      | some a => rfl
  | tdef n ih =>
    rw [vlaGenSizeTy]
    cases skip with
    | true => exact ih ⟨h.sizes, h.arrays, h.closed⟩ true stackEnt fun hnone => (hlook hnone).2
    | false =>
      rw [if_neg Bool.false_ne_true]
      cases hcached : s.vlamap n.skipAll with
      | some a =>
        have hent : stackEnt.isSome = true := by
          cases stackEnt with
          | some b => rfl
          | none =>
            have hvla := (n.isVlaTop_iff).2 (h.arrays _ a hcached)
            rw [(hlook rfl).1 rfl] at hvla
            cases hvla
        have hmem : n.skipAll ∈ n.vlas := by
          obtain ⟨i, m, heq⟩ := h.arrays _ a hcached
          rw [← n.vlas_skipAll, heq]
          exact List.mem_cons_self
        rw [vlaCachedSize_some (t := .tdef n) hcached, h.sizes _ hmem a hcached, product_skipAll,
          settled_of_cached (t := .tdef n) h hcached]
        exact if_pos hent
      | none =>
        rw [vlaCachedSize_none (t := .tdef n) hcached]
        exact ih ⟨h.sizes, h.arrays, h.closed⟩ false stackEnt fun hnone => (hlook hnone).2
  | wrap k n ih => exact ih ⟨h.sizes, h.arrays, h.closed⟩ true stackEnt hlook

/-- A size that is not saved is not saved under a typedef either. -/
theorem vlaGenSizeTy_skip (h : s.vlamap t.skipAll = none) (stackEnt : Option Int) :
    vlaGenSizeTy dims false t stackEnt s = vlaGenSizeTy dims true t stackEnt s := by
  induction t with
  | tdef n ih =>
    rw [vlaGenSizeTy, if_neg Bool.false_ne_true, vlaCachedSize_none (t := .tdef n) h]
    exact ih h
  | _ => rfl

end Run

/-! ## The words of a stack entry -/

section Fill

variable {dims : VmTy → Integral} {s : VlaState}

theorem read_cacheSize_self (t : VmTy) (sz : Integral) (a : Int) :
    (vlaCacheSize s t sz a).read a = sz := by
  have hword : 256 ^ wordSize = 2 ^ 64 := by decide
  unfold VlaState.read vlaCacheSize
  rw [readMem_writeMem_self, hword, Nat.mod_eq_of_lt sz.isLt, BitVec.ofNat_toNat,
    BitVec.setWidth_eq]

theorem read_cacheSize_of_apart (t : VmTy) (sz : Integral) {a b : Int}
    (h : b + wordSize ≤ a ∨ a + wordSize ≤ b) : (vlaCacheSize s t sz a).read b = s.read b := by
  unfold VlaState.read vlaCacheSize
  refine congrArg _ (readMem_congr b wordSize fun x hle hlt => if_neg ?_)
  omega

theorem fill_evaluated (a : Int) (us : List VmTy) :
    (fill dims a us s).evaluated = s.evaluated := by
  induction us generalizing a with
  | nil => rfl
  | cons u us ih => exact ih (a + wordSize)

theorem fill_vlamap (a : Int) (us : List VmTy) (u : VmTy) :
    (fill dims a us s).vlamap u =
      if u ∈ us then some (a + wordSize * (us.idxOf u : Nat)) else s.vlamap u := by
  induction us generalizing a with
  | nil => rfl
  | cons v us ih =>
    change Function.update (fill dims (a + wordSize) us s).vlamap v (some a) u = _
    by_cases heq : u = v
    · subst heq
      rw [Function.update_self, if_pos List.mem_cons_self, List.idxOf_cons_self]
      simp
    · rw [Function.update_of_ne heq, ih, List.idxOf_cons_ne _ (Ne.symm heq)]
      by_cases hu : u ∈ us
      · rw [if_pos hu, if_pos (List.mem_cons_of_mem _ hu)]
        push_cast
        congr 1
        ring
      · rw [if_neg hu, if_neg (List.not_mem_cons_of_ne_of_not_mem heq hu)]

theorem fill_read_of_apart (a : Int) (us : List VmTy) {b : Int}
    (h : b + wordSize ≤ a ∨ a + wordSize * us.length ≤ b) :
    (fill dims a us s).read b = s.read b := by
  induction us generalizing a with
  | nil => rfl
  | cons u us ih =>
    rw [List.length_cons] at h
    push_cast at h
    rw [fill, read_cacheSize_of_apart, ih]
    · simp only [wordSize] at h ⊢
      omega
    · simp only [wordSize] at h ⊢
      omega

theorem fill_read (a : Int) (us : List VmTy) {u : VmTy} (hu : u ∈ us) :
    (fill dims a us s).read (a + wordSize * (us.idxOf u : Nat)) = product dims u := by
  induction us generalizing a with
  | nil => cases hu
  | cons v us ih =>
    by_cases heq : u = v
    · subst heq
      rw [List.idxOf_cons_self, Nat.cast_zero, mul_zero, add_zero]
      exact read_cacheSize_self _ _ _
    · have hmem := (List.mem_cons.1 hu).resolve_left heq
      have hplace : a + wordSize * ((us.idxOf u + 1 : Nat) : Int) =
          a + wordSize + wordSize * (us.idxOf u : Nat) := by
        push_cast
        ring
      rw [List.idxOf_cons_ne _ (Ne.symm heq), hplace, fill, read_cacheSize_of_apart, ih _ hmem]
      simp only [wordSize]
      omega

end Fill

/-! ## The types whose sizes are right -/

/-- Wherever a size is stored or given, the product is the size, and no typedef of an array
with a run-time dimension is found below the front. -/
structure VmTy.Direct (t : VmTy) : Prop where
  whole : ProductIsSize 1 t
  elems : ∀ u ∈ t.vlas, ProductIsSize 1 u
  unnamed : Unnamed true t

theorem product_eq_sizeofC {t : VmTy} (h : ProductIsSize 1 t) (dims : VmTy → Integral) :
    product dims t = sizeofC dims t := by
  have heq := (productIsSize_iff 1 t).1 h dims
  rwa [one_mul, one_mul] at heq

theorem productIsSize_of_eq {t : VmTy} (h : ∀ dims, product dims t = sizeofC dims t) :
    ProductIsSize 1 t :=
  (productIsSize_iff 1 t).2 fun dims => by rw [h]

theorem sizeofC_skipAll (dims : VmTy → Integral) (t : VmTy) :
    sizeofC dims t.skipAll = sizeofC dims t := by
  induction t with
  | tdef n ih => exact ih
  | wrap k n ih => exact ih
  | _ => rfl

theorem VlaDecl.space_eq (d : VlaDecl) :
    d.place + d.space = d.sizesAt + wordSize * d.ty.vlas.length ∧ d.place ≤ d.sizesAt := by
  unfold VlaDecl.space VlaDecl.sizesAt
  rw [d.ty.vlaDims_eq]
  cases d.isTypedef <;> cases d.ty.isVlaAny <;> simp [wordSize] <;> omega

section Sound

variable {dims : VmTy → Integral} {s : VlaState} {t : VmTy}

theorem VlaState.Good.computed (h : s.Good dims) (ht : t.Direct) : s.Computed dims t where
  sizes u hu a ha := by rw [h.sizes u a ha, product_eq_sizeofC (ht.elems u hu)]
  arrays := h.arrays
  closed := h.closed

/-- New sizes besides those that are saved. -/
theorem good_fill (h : s.Good dims) {a : Int} {us : List VmTy}
    (harrays : ∀ u ∈ us, ∃ i n, u = .vla i n)
    (hvalue : ∀ u ∈ us, product dims u = sizeofC dims u)
    (hclosed : ∀ u ∈ us, ∀ v ∈ u.vlas, v ∈ us ∨ ∃ b, s.vlamap v = some b)
    (hfree : ∀ u b, s.vlamap u = some b → b + wordSize ≤ a ∨ a + wordSize * us.length ≤ b) :
    (fill dims a us s).Good dims := by
  -- an array is new, with a word of its own, or old
  have hcases : ∀ u b, (fill dims a us s).vlamap u = some b →
      (u ∈ us ∧ b = a + wordSize * (us.idxOf u : Nat)) ∨ u ∉ us ∧ s.vlamap u = some b := by
    intro u b hb
    rw [fill_vlamap] at hb
    split at hb
    · rename_i hu
      exact Or.inl ⟨hu, (Option.some.inj hb).symm⟩
    · rename_i hu
      exact Or.inr ⟨hu, hb⟩
  have hinside : ∀ u ∈ us, (us.idxOf u : Int) + 1 ≤ us.length := fun u hu => by
    have hidx := List.idxOf_lt_length_of_mem hu
    omega
  have hdefined : ∀ v, (v ∈ us ∨ ∃ b, s.vlamap v = some b) →
      ∃ b, (fill dims a us s).vlamap v = some b := by
    intro v hv
    rw [fill_vlamap]
    split
    · exact ⟨_, rfl⟩
    · rename_i hnot
      exact hv.resolve_left hnot
  constructor
  · intro u b hb
    rcases hcases u b hb with ⟨hu, rfl⟩ | ⟨-, hold⟩
    · rw [fill_read _ _ hu, hvalue u hu]
    · rw [fill_read_of_apart _ _ (hfree u b hold), h.sizes u b hold]
  · intro u b hb
    rcases hcases u b hb with ⟨hu, -⟩ | ⟨-, hold⟩
    · exact harrays u hu
    · exact h.arrays u b hold
  · intro u b hb v hv
    rcases hcases u b hb with ⟨hu, -⟩ | ⟨-, hold⟩
    · exact hdefined v (hclosed u hu v hv)
    · exact hdefined v (Or.inr (h.closed u b hold v hv))
  · intro u v b c hne hb hc
    rcases hcases u b hb with ⟨hu, rfl⟩ | ⟨-, holdu⟩
    · rcases hcases v c hc with ⟨hv, rfl⟩ | ⟨-, holdv⟩
      · have hidx : us.idxOf u ≠ us.idxOf v := fun heq => hne ((List.idxOf_inj hu).1 heq)
        simp only [wordSize]
        omega
      · have hin := hinside u hu
        have hout := hfree v c holdv
        simp only [wordSize] at hout ⊢
        omega
    · rcases hcases v c hc with ⟨hv, rfl⟩ | ⟨-, holdv⟩
      · have hin := hinside v hv
        have hout := hfree u b holdu
        simp only [wordSize] at hout ⊢
        omega
      · exact h.apart u v b c hne holdu holdv

/-- A declaration. -/
theorem sizedDecl_settled (h : s.Good dims) {d : VlaDecl} (hd : d.ty.Direct) (hfree : s.Free d) :
    SizedDecl dims s d (product dims d.ty) (settled dims d.ty (some d.sizesAt) s) := by
  obtain ⟨hspace, hplace⟩ := d.space_eq
  have hlen : (s.fresh d.ty).length ≤ d.ty.vlas.length := List.length_filter_le _ _
  have hmap : ∀ u, (settled dims d.ty (some d.sizesAt) s).vlamap u =
      if u ∈ s.fresh d.ty then some (d.sizesAt + wordSize * ((s.fresh d.ty).idxOf u : Nat))
      else s.vlamap u := fill_vlamap _ _
  refine ⟨product_eq_sizeofC hd.whole dims, ⟨fill_evaluated _ _, d.ty.nodup_vlas.filter _⟩,
    fun u hu => ?_, fun u hu a ha => ?_, fun u a ha => ?_, ?_⟩
  · rw [hmap]
    split
    · exact ⟨_, rfl⟩
    · rename_i hold
      exact Option.ne_none_iff_exists'.1 fun hnone => hold (mem_fresh.2 ⟨hu, hnone⟩)
  · rw [hmap, if_pos hu] at ha
    obtain rfl := Option.some.inj ha
    have hidx := List.idxOf_lt_length_of_mem hu
    simp only [wordSize] at hspace ⊢
    omega
  · rw [hmap, if_neg, ha]
    intro hfresh
    rw [(mem_fresh.1 hfresh).2] at ha
    cases ha
  · have hs : VlaState.Good dims { s with evaluated := s.evaluated ++ s.fresh d.ty } :=
      ⟨h.sizes, h.arrays, h.closed, h.apart⟩
    refine good_fill hs ?_ ?_ ?_ ?_
    · exact fun u hu => (VmTy.exists_of_mem_vlas (mem_fresh.1 hu).1).1
    · exact fun u hu => product_eq_sizeofC (hd.elems u (mem_fresh.1 hu).1) dims
    · intro u hu v hv
      have hmem := (VmTy.exists_of_mem_vlas (mem_fresh.1 hu).1).2.1.subset hv
      by_cases hnone : s.vlamap v = none
      · exact Or.inl (mem_fresh.2 ⟨hmem, hnone⟩)
      · exact Or.inr (Option.ne_none_iff_exists'.1 hnone)
    · intro u b hb
      have hout := hfree u b hb
      simp only [wordSize] at hspace hout ⊢
      omega

/-- A size that is asked for. -/
theorem vlaSize_eq (h : s.Good dims) (ht : t.Direct) :
    vlaSize dims t s =
      some (sizeofC dims t, { s with evaluated := s.evaluated ++ s.fresh t }) := by
  unfold vlaSize
  cases ha : s.vlamap t.skipAll with
  | some a =>
    rw [vlaCachedSize_some ha, h.sizes _ a ha, sizeofC_skipAll, fresh_eq_nil (h.closed _ a ha),
      List.append_nil]
  | none =>
    rw [vlaCachedSize_none ha, vlaGenSizeTy_skip ha,
      vlaGenSizeTy_eq (h.computed ht) true none fun _ => ht.unnamed, product_eq_sizeofC ht.whole]
    rfl

end Sound

/-! ## The others -/

/-- Nothing is saved yet. -/
def VlaState.init : VlaState := ⟨fun _ => none, fun _ => 0, []⟩

theorem VlaState.init_vlamap (u : VmTy) (a : Int) : VlaState.init.vlamap u ≠ some a :=
  (Option.some_ne_none a).symm

theorem VlaState.good_init (dims : VmTy → Integral) : VlaState.init.Good dims where
  sizes u a h := absurd h (init_vlamap u a)
  arrays u a h := absurd h (init_vlamap u a)
  closed u a h := absurd h (init_vlamap u a)
  apart u _ a _ _ h := absurd h (init_vlamap u a)

/-- The typedef that is found, and what it names. -/
theorem exists_named {t : VmTy} (skip : Bool) (h : ¬ Unnamed skip t) :
    ∃ w ∈ t.vlas, (skip = true → w ≠ t.skipAll) ∧
      ∀ dims (s : VlaState), (∀ u, s.vlamap u ≠ none ↔ u ∈ w.vlas) →
        vlaGenSizeTy dims skip t none s = none := by
  induction t generalizing skip with
  | btype size => exact absurd trivial h
  | ptr n ih | block n ih | func n ih | array count n ih =>
    obtain ⟨w, hw, -, hrun⟩ := ih false h
    refine ⟨w, hw, fun _ heq => ?_, fun dims s hs => ?_⟩
    · obtain ⟨⟨i, m, rfl⟩, -⟩ := VmTy.exists_of_mem_vlas hw
      cases heq
    · rw [vlaGenSizeTy, hrun dims s hs, Option.map_none]
  | vla i n ih =>
    obtain ⟨w, hw, -, hrun⟩ := ih false h
    refine ⟨w, List.mem_cons_of_mem _ hw, fun _ heq => ?_, fun dims s hs => ?_⟩
    · rw [heq] at hw
      exact n.vla_notMem_vlas i hw
    · have hnone : s.vlamap (.vla i n) = none := by
        by_contra hsome
        exact n.vla_notMem_vlas i
          ((VmTy.exists_of_mem_vlas hw).2.1.subset ((hs _).1 hsome))
      rw [vlaGenSizeTy, vlaCachedSize_none (t := .vla i n) hnone]
      simp only [Option.map_none, hrun dims (s.genExpr (.vla i n)) hs]
  | tdef n ih =>
    by_cases htop : skip = false ∧ n.isVlaTop = true
    · obtain ⟨rfl, htop⟩ := htop
      obtain ⟨i, m, heq⟩ := n.isVlaTop_iff.1 htop
      have hself : n.skipAll ∈ n.skipAll.vlas := by
        rw [heq]
        exact List.mem_cons_self
      refine ⟨n.skipAll, n.vlas_skipAll ▸ hself, by rintro ⟨⟩, fun dims s hs => ?_⟩
      obtain ⟨a, ha⟩ := Option.ne_none_iff_exists'.1 ((hs _).2 hself)
      rw [vlaGenSizeTy, if_neg Bool.false_ne_true, vlaCachedSize_some (t := .tdef n) ha]
      exact if_neg Bool.false_ne_true
    · obtain ⟨w, hw, hne, hrun⟩ := ih skip fun hn => h ⟨fun hskip =>
        Bool.eq_false_iff.2 fun hvla => htop ⟨hskip, hvla⟩, hn⟩
      refine ⟨w, hw, hne, fun dims s hs => ?_⟩
      rw [vlaGenSizeTy]
      cases skip with
      | true => exact hrun dims s hs
      | false =>
        have hnone : s.vlamap n.skipAll = none := by
          by_contra hsome
          have hvla := (VmTy.exists_of_mem_vlas ((hs _).1 hsome)).1
          exact htop ⟨rfl, n.isVlaTop_iff.2 hvla⟩
        rw [if_neg Bool.false_ne_true, vlaCachedSize_none (t := .tdef n) hnone]
        exact hrun dims s hs
  | wrap k n ih =>
    obtain ⟨w, hw, hne, hrun⟩ := ih true h
    exact ⟨w, hw, fun _ => hne rfl, hrun⟩

/-- A state where the sizes of the arrays inside one array are saved, all of them 0. -/
def savedZeros (w : VmTy) : VlaState :=
  fill (fun _ => 0) 0 w.vlas .init

theorem savedZeros_vlamap (w u : VmTy) :
    (savedZeros w).vlamap u ≠ none ↔ u ∈ w.vlas := by
  unfold savedZeros
  rw [fill_vlamap]
  split
  · rename_i hu
    exact iff_of_true (Option.some_ne_none _) hu
  · rename_i hu
    exact iff_of_false (fun h => h rfl) hu

theorem good_savedZeros (w : VmTy) : (savedZeros w).Good fun _ => 0 := by
  refine good_fill (VlaState.good_init _) (fun u hu => (VmTy.exists_of_mem_vlas hu).1) ?_ ?_ ?_
  · intro u hu
    obtain ⟨⟨i, n, rfl⟩, -⟩ := VmTy.exists_of_mem_vlas hu
    rw [product, sizeofC, mul_zero, zero_mul]
  · exact fun u hu v hv => Or.inl ((VmTy.exists_of_mem_vlas hu).2.1.subset hv)
  · exact fun u b hb => absurd hb (VlaState.init_vlamap u b)

section Necessary

variable {t : VmTy}

/-- What the first declaration of a function computes. -/
theorem VlaSized.first (h : VlaSized t) (dims : VmTy → Integral) :
    SizedDecl dims .init ⟨true, t, 0⟩ (product dims t) (settled dims t (some 0) .init) := by
  have hgood := VlaState.good_init dims
  obtain ⟨x, s', hrun, hsized⟩ := (h dims _ hgood).1 ⟨true, t, 0⟩ rfl
    fun u a ha => absurd ha (VlaState.init_vlamap u a)
  have hcomputed : VlaState.init.Computed dims t :=
    ⟨fun u _ a ha => absurd ha (VlaState.init_vlamap u a), hgood.arrays, hgood.closed⟩
  have heq := vlaGenSizeTy_eq hcomputed false (some 0) fun hnone => by cases hnone
  obtain ⟨rfl, rfl⟩ := Prod.mk.inj (Option.some.inj (heq.symm.trans hrun))
  exact hsized

theorem VlaSized.elems (h : VlaSized t) {u : VmTy} (hu : u ∈ t.vlas) : ProductIsSize 1 u := by
  refine productIsSize_of_eq fun dims => ?_
  have hfresh : u ∈ VlaState.init.fresh t := mem_fresh.2 ⟨hu, rfl⟩
  have hmap : (settled dims t (some 0) .init).vlamap u = _ :=
    fill_vlamap 0 (VlaState.init.fresh t) u
  rw [if_pos hfresh] at hmap
  exact (fill_read 0 _ hfresh).symm.trans ((h.first dims).good.sizes u _ hmap)

theorem VlaSized.unnamed (h : VlaSized t) : Unnamed true t := by
  by_contra hnamed
  obtain ⟨w, hw, hne, hrun⟩ := exists_named true hnamed
  have hnone : (savedZeros w).vlamap t.skipAll = none := by
    by_contra hsome
    have hle := VmTy.depth_of_mem_vlas ((savedZeros_vlamap w _).1 hsome)
    obtain ⟨-, -, heq | hlt⟩ := VmTy.exists_of_mem_vlas hw
    · exact hne rfl heq
    · omega
  have hsized := (h _ _ (good_savedZeros w)).2
  unfold vlaSize at hsized
  rw [vlaCachedSize_none hnone, vlaGenSizeTy_skip hnone, hrun _ _ (savedZeros_vlamap w)] at hsized
  cases hsized

end Necessary

/-- The sizes of a type are right, saved once and apart, exactly if on the way to its base
type nothing behind a pointer, a block or a function has a size of its own, and no typedef
of an array with a run-time dimension is below the front. -/
theorem vla_sized_iff (t : VmTy) : VlaSized t ↔ t.Direct := by
  constructor
  · intro h
    exact ⟨productIsSize_of_eq fun dims => (h.first dims).value, fun u hu => h.elems hu, h.unnamed⟩
  · intro ht dims s hs
    refine ⟨?_, vlaSize_eq hs ht⟩
    rintro d rfl hfree
    exact ⟨_, _, vlaGenSizeTy_eq (hs.computed ht) false (some d.sizesAt) (by rintro ⟨⟩),
      sizedDecl_settled hs ht hfree⟩

/-- `int *[n]`, of one pointer, is given 32 bytes. -/
theorem pointers_not_sized : ¬ VlaSized (.vla 0 (.ptr (.btype 4))) := by
  intro h
  have hsized := (h (fun _ => 1) .init (VlaState.good_init _)).2
  have hrun : vlaSize (fun _ => 1) (.vla 0 (.ptr (.btype 4))) .init =
      some (32, ⟨fun _ => none, fun _ => 0, [.vla 0 (.ptr (.btype 4))]⟩) := rfl
  have hvalue := congrArg Prod.fst (Option.some.inj (hrun.symm.trans hsized))
  revert hvalue
  decide

end Ucc.Cc1.Vla
