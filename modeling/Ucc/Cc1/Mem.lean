/-
  Cc1/Mem.lean --- `memset` and `memcpy` without the library.

  Source: src/cc1/out/mem.c, type_nav_MAX_FOR in src/cc1/type_nav.c,
  impl_store in src/cc1/out/x86_64.c.

  A store is as wide as the type of what is stored, and a pointer is moved by
  `out_op`, by the type it has then.  `out_memset` stores the remainder inside
  its loop, and changes the type of the pointer for good; `out_memcpy` goes back
  to its destination by subtracting the length, which is given the type of a
  pointer.
-/
import Ucc.Cc1.FoldSue
import Ucc.Cc1.PtrStep
import Ucc.Lib.Moves

set_option autoImplicit false

namespace Ucc.Cc1.Out

open Ucc.Lib

/-! ## `mem.c` -/

/-- `type_nav_MAX_FOR`: the size of the type, of a length that is an `unsigned`. -/
def typeNavMaxFor (sz : Nat) : Option Nat := typePrimitiveNotLessThanSize .bits64 (sz % 2 ^ 32)

/-- A type of a size that is not a VLA. -/
def sizedElem (sz : Nat) : Elem := ⟨sz % 2 ^ 32, false, 0, Nat.mod_lt _ (by decide)⟩

/-- `out_change_type`, to a pointer to a type of this size. -/
def OutVal.changePtr (v : OutVal) (sz : Nat) : OutVal := { v with ty := .ptr (sizedElem sz) }

/-- `p++` -/
def ptrInc (o : OutOpts) (p : OutVal) : Option OutVal := outOp o .plus p (outNewL intptrTy 1)

/-- `cc1_mstringop_strategy` -/
inductive StringopStrategy where
  | libcall
  | loop
  | threshold
  deriving DecidableEq, Repr

/-- The options of `should_use_libc`. -/
structure StringopOpts where
  freestanding : Bool
  strategy : StringopStrategy
  threshold : Nat
  deriving DecidableEq, Repr

/-- `should_use_libc` -/
def shouldUseLibc (so : StringopOpts) (nbytes : Nat) : Bool :=
  if so.freestanding then false
  else
    match so.strategy with
    | .libcall => true
    | .loop => false
    | .threshold => decide (so.threshold ≤ nbytes)

/-- A turn of the loop of `out_memset`. -/
def memsetTurn (o : OutOpts) (tzero : Nat) (textra : Option Nat) (vPtr : OutVal) :
    Option (OutVal × List (MemMove 64)) := do
  let store := .zero vPtr.store.val tzero
  let vPtr ← ptrInc o vPtr
  match textra with
  | none => some (vPtr, [store])
  | some textra =>
      -- "need to zero a little more"
      let vPtr := vPtr.changePtr textra
      some (vPtr, [store, .zero vPtr.store.val textra])

/-- The loop of `out_memset`, whose counter is an `unsigned`; `none` is a loop that has not
ended when the fuel is used up. -/
def memsetLoop (o : OutOpts) (tzero : Nat) (textra : Option Nat) (n : Nat) :
    Nat → BitVec 32 → OutVal → Option (List (MemMove 64))
  | 0, _, _ => none
  | fuel + 1, i, vPtr =>
      if i.toNat < n then do
        let (vPtr, stores) ← memsetTurn o tzero textra vPtr
        let rest ← memsetLoop o tzero textra n fuel (i + 1) vPtr
        some (stores ++ rest)
      else some []

/-- `textra`: the type of the remainder, if there is one. -/
def textraFor (rem : Nat) : Option (Option Nat) :=
  if rem = 0 then some none else (typeNavMaxFor rem).map some

/-- What a call of `memset` of the library writes. -/
abbrev LibMemset := Integral → UInt8 → Integral → List (MemMove 64)

/-- `out_memset` of zeros. -/
def outMemset (lib : LibMemset) (so : StringopOpts) (o : OutOpts) (fuel : Nat) (vPtr : OutVal)
    (nbytes : Nat) : Option (List (MemMove 64)) :=
  if nbytes = 0 then some []
  else if shouldUseLibc so nbytes then some (lib vPtr.store.val 0 (BitVec.ofNat 64 nbytes))
  else do
    let tzero ← typeNavMaxFor nbytes
    let textra ← textraFor (nbytes % tzero)
    memsetLoop o tzero textra (nbytes / tzero) fuel 0 (vPtr.changePtr tzero)

/-- `out_memcpy_single`: what is loaded is stored, and both pointers are moved. -/
def outMemcpySingle (o : OutOpts) (sz : Nat) (dst src : OutVal) :
    Option (OutVal × OutVal × MemMove 64) := do
  let store := .copy dst.store.val src.store.val sz
  let dst ← ptrInc o dst
  let src ← ptrInc o src
  some (dst, src, store)

/-- The inner loop of `out_memcpy`; each turn makes `bytesTodo` smaller, which is enough
fuel. -/
def memcpyInner (o : OutOpts) (stepSz : Nat) :
    Nat → Nat → OutVal → OutVal → Option (Nat × OutVal × OutVal × List (MemMove 64))
  | 0, bytesTodo, dest, src => some (bytesTodo, dest, src, [])
  | fuel + 1, bytesTodo, dest, src =>
      if stepSz ≤ bytesTodo then do
        let (dest, src, store) ← outMemcpySingle o stepSz dest src
        let (bytesTodo, dest, src, stores) ←
          memcpyInner o stepSz fuel (bytesTodo - stepSz) dest src
        some (bytesTodo, dest, src, store :: stores)
      else some (bytesTodo, dest, src, [])

/-- The outer loop of `out_memcpy`. -/
def memcpyOuter (o : OutOpts) :
    Nat → Nat → OutVal → OutVal → Option (OutVal × OutVal × List (MemMove 64))
  | 0, _, _, _ => none
  | fuel + 1, bytesTodo, dest, src =>
      if bytesTodo = 0 then some (dest, src, [])
      else do
        let stepSz ← typeNavMaxFor bytesTodo
        let (bytesTodo, dest, src, stores) ←
          memcpyInner o stepSz bytesTodo bytesTodo (dest.changePtr stepSz) (src.changePtr stepSz)
        let (dest, src, rest) ← memcpyOuter o fuel bytesTodo dest src
        some (dest, src, stores ++ rest)

/-- What a call of `memcpy` of the library writes, and what it returns. -/
abbrev LibMemcpy := Integral → Integral → Integral → List (MemMove 64) × Integral

/-- `out_memcpy`: the value that it returns, and the stores. -/
def outMemcpy (lib : LibMemcpy) (so : StringopOpts) (o : OutOpts) (dest src : OutVal)
    (nbytes : Nat) : Option (OutVal × List (MemMove 64)) :=
  if nbytes = 0 then some (dest, [])
  else if shouldUseLibc so nbytes then
    let (stores, ret) := lib dest.store.val src.store.val (BitVec.ofNat 64 nbytes)
    some (inReg voidPtrTy ret, stores)
  else do
    let (dest, _, stores) ← memcpyOuter o (nbytes + 1) nbytes dest src
    let ret ← outOp o .minus dest (outNewL dest.ty (BitVec.ofNat 64 nbytes))
    some (ret, stores)

/-! ## Pointers that are moved -/

/-- The pointer can be moved by `out_op`: where it is not an offset, there is an instruction,
which cannot be printed for a label or an address of the frame unless they are loaded
first. -/
def Steppable (o : OutOpts) (p : OutVal) : Bool :=
  match p.store with
  | .lbl _ _ => o.symbolArith || o.pic
  | .regoff _ _ => o.pic
  | _ => true

/-- The pointer is moved by its offset. -/
def ByOffset (o : OutOpts) (p : OutVal) : Prop :=
  p.isRegOrLbl = true ∧ (p.isLbl = false ∨ o.symbolArith = true)

/-- The sizes of the types. -/
def PrimSize (sz : Nat) : Prop := sz = 8 ∨ sz = 4 ∨ sz = 2 ∨ sz = 1

section Steps

variable {o : OutOpts} {sz : Nat} {p : OutVal}

theorem typeNavMaxFor_eq (n : Nat) :
    typeNavMaxFor n = if 8 ≤ n % 2 ^ 32 then some 8 else if 4 ≤ n % 2 ^ 32 then some 4
      else if 2 ≤ n % 2 ^ 32 then some 2 else if 1 ≤ n % 2 ^ 32 then some 1 else none := by
  unfold typeNavMaxFor typePrimitiveNotLessThanSize
  simp only [List.find?_cons, List.find?_nil, Arch.ulongSize, ge_iff_le]
  generalize n % 2 ^ 32 = m
  by_cases h8 : 8 ≤ m
  · simp [h8]
  · by_cases h4 : 4 ≤ m
    · simp [h8, h4]
    · by_cases h2 : 2 ≤ m
      · simp [h8, h4, h2]
      · by_cases h1 : 1 ≤ m
        · simp [h8, h4, h2, h1]
        · simp [h8, h4, h2, h1]

/-- The type that is found is one of the four, and no larger. -/
theorem typeNavMaxFor_some {n : Nat} (h : typeNavMaxFor n = some sz) :
    PrimSize sz ∧ sz ≤ n % 2 ^ 32 ∧ (sz ≠ 8 → n % 2 ^ 32 < 2 * sz) := by
  rw [typeNavMaxFor_eq] at h
  unfold PrimSize
  split at h
  · obtain rfl := Option.some.inj h
    omega
  · split at h
    · obtain rfl := Option.some.inj h
      omega
    · split at h
      · obtain rfl := Option.some.inj h
        omega
      · split at h
        · obtain rfl := Option.some.inj h
          omega
        · cases h

theorem typeNavMaxFor_none {n : Nat} : typeNavMaxFor n = none ↔ n % 2 ^ 32 = 0 := by
  rw [typeNavMaxFor_eq]
  repeat' split
  all_goals simp
  all_goals omega

theorem Elem.step_sizedElem (hsz : PrimSize sz) :
    (sizedElem sz).step = BitVec.ofNat 64 sz ∧ calcPtrStep (.ptr (sizedElem sz)) ≠ -1 := by
  rcases hsz with rfl | rfl | rfl | rfl <;> decide

theorem needSwap_const (op : OpType) (l : OutVal) (ty : OutTy) (k : Integral) :
    needSwap op l (outNewL ty k) ≠ some true := by
  intro h
  obtain ⟨⟨a, b⟩, hmem, hab⟩ := List.exists_of_findSome?_eq_some h
  simp only at hab
  split at hab
  · cases hab
  · split at hab
    · rename_i hmatch
      simp only [Bool.and_eq_true] at hmatch
      have hkind : a = .constI := by
        cases a <;> first | rfl | cases hmatch.1.2
      subst hkind
      simp [operandKinds] at hmem
    · cases hab

/-- A small constant is an immediate. -/
theorem checkIvfp_size (hsz : PrimSize sz) :
    (outNewL intptrTy (BitVec.ofNat 64 sz)).checkIvfp = outNewL intptrTy (BitVec.ofNat 64 sz) := by
  rcases hsz with rfl | rfl | rfl | rfl <;> decide

/-- A constant that is added by an instruction. -/
theorem outOp_inc_go (hsz : PrimSize sz) (hp : p.ty = .ptr (sizedElem sz))
    (hmem : tryMemOffset o .plus p (outNewL intptrTy 1) = none)
    (hgo : constFolding o .plus p (outNewL intptrTy 1) = .go) :
    ptrInc o p = if operandsPrinted o .plus p (outNewL intptrTy (BitVec.ofNat 64 sz)) then
      some (inReg (.ptr (sizedElem sz)) (p.store.val + BitVec.ofNat 64 sz)) else none := by
  have hscale : applyPtrStep (outOpWith (fun _ _ _ => none) o) p (outNewL intptrTy 1) =
      some (p, outNewL intptrTy (BitVec.ofNat 64 sz), none) := by
    have hstep := (Elem.step_sizedElem hsz).2
    simp only [applyPtrStep, isValPtr, hp, scaleIncdec, OutVal.constI?, outNewL, intptrTy]
    rw [if_neg hstep, one_mul, ← Elem.step_eq hstep, (Elem.step_sizedElem hsz).1]
    rfl
  unfold ptrInc outOp
  rw [outOpWith_go (Or.inl rfl) hmem hgo, hscale]
  simp only [Option.bind_some]
  split
  · rename_i hprinted
    obtain ⟨ty, himpl, hty⟩ := implOp_word (o := o) (Or.inl rfl) (by rw [hp]; rfl) rfl hprinted
    obtain rfl : ty = .ptr (sizedElem sz) := by
      rcases hty with hty | ⟨hswap, -⟩
      · exact hty.trans hp
      · rw [checkIvfp_size hsz] at hswap
        exact absurd hswap (needSwap_const _ _ _ _)
    rw [himpl]
    rfl
  · rename_i hprinted
    rw [implOp_none (by simpa using hprinted)]
    rfl

theorem addOffset_kind (n : Integral) :
    (p.addOffset n).isRegOrLbl = p.isRegOrLbl ∧ (p.addOffset n).isLbl = p.isLbl := by
  obtain ⟨ty, store⟩ := p
  cases store <;> exact ⟨rfl, rfl⟩

/-- The constant is an offset. -/
theorem ptrInc_of_byOffset (hsz : PrimSize sz) (hp : p.ty = .ptr (sizedElem sz))
    (h : ByOffset o p) :
    ∃ v, ptrInc o p = some v ∧ v.ty = .ptr (sizedElem sz) ∧
      v.store.val = p.store.val + BitVec.ofNat 64 sz ∧ ByOffset o v := by
  obtain ⟨hstep, hne⟩ := Elem.step_sizedElem hsz
  have hne' := hne
  rw [← hp] at hne'
  obtain ⟨v, hv⟩ := Option.ne_none_iff_exists'.1
    (tryMemOffset_rhs (o := o) (r := outNewL intptrTy 1) rfl h.1 (Or.inl rfl) h.2 hne')
  refine ⟨v, outOpWith_of_mem hv, ?_⟩
  rcases tryMemOffset_cases hv with ⟨k, hk, -, -, -, -, rfl⟩ | ⟨k, -, hreg, -⟩
  · obtain rfl : 1 = k := Option.some.inj hk
    obtain ⟨hty, hval⟩ := addOffset_val h.1
      ((if OpType.plus = .minus then -1 else 1) * 1 * BitVec.ofInt 64 (calcPtrStep p.ty))
    refine ⟨hty.trans hp, ?_, ?_⟩
    · rw [hval, hp, ← Elem.step_eq hne, hstep]
      simp
    · unfold ByOffset
      rw [(addOffset_kind _).1, (addOffset_kind _).2]
      exact h
  · cases hreg

theorem printed_of_pic (h : o.pic = true) (l r : OutVal) : operandsPrinted o .plus l r = true := by
  have hpic : ∀ x y : OutVal,
      ((if o.pic then (x.toReg, y.toRegConst) else (x, y)).1.isReg &&
        (if o.pic then (x.toReg, y.toRegConst) else (x, y)).2.readable) = true := by
    intro x y
    rw [if_pos h]
    obtain ⟨ty, store⟩ := y
    cases store <;> rfl
  unfold operandsPrinted aluOperands
  exact hpic _ _

/-- The constant 1 changes the pointer. -/
theorem constFolding_inc (hne : p.constI? = none) :
    constFolding o .plus p (outNewL intptrTy 1) = .go := by
  rcases constFolding_cases o .plus p (outNewL intptrTy 1) with hgo | ⟨k, -, hk, -⟩ |
      ⟨k, -, hk, -⟩ | ⟨k, -, -, hk, hnoop, -⟩
  · exact hgo
  · rw [hne] at hk
    cases hk
  · rw [hne] at hk
    cases hk
  · obtain rfl : 1 = k := Option.some.inj hk
    cases hnoop

theorem tryMemOffset_inc (h : ¬ ByOffset o p) :
    tryMemOffset o .plus p (outNewL intptrTy 1) = none := by
  cases hmem : tryMemOffset o .plus p (outNewL intptrTy 1) with
  | none => rfl
  | some v =>
    rcases tryMemOffset_cases hmem with ⟨k, -, hreg, -, hlbl, -⟩ | ⟨k, -, hreg, -⟩
    · exact absurd ⟨hreg, hlbl⟩ h
    · cases hreg

/-- A constant that is moved. -/
theorem ptrInc_of_const (hsz : PrimSize sz) (hp : p.ty = .ptr (sizedElem sz)) {k : Integral}
    (hk : p.constI? = some k) :
    ∃ v, ptrInc o p = some v ∧ v.ty = .ptr (sizedElem sz) ∧
      v.store.val = p.store.val + BitVec.ofNat 64 sz ∧
      (ByOffset o v ∨ (v.constI?.isSome = true ∧ sz = 1)) := by
  have hmem := tryMemOffset_inc (o := o) (p := p) fun h => by
    rw [ByOffset, not_regOrLbl hk] at h
    cases h.1
  rcases constFolding_cases o .plus p (outNewL intptrTy 1) with
      hgo | ⟨m, n, hm, hn, hstep, -, heq⟩ | ⟨m, -, -, hn, -⟩ | ⟨m, -, hm, -⟩
  · rw [outOp_inc_go hsz hp hmem hgo,
      if_pos (operandsPrinted_simple rfl (by simp [OutVal.isSimple, hk]) rfl)]
    exact ⟨_, rfl, rfl, inReg_val _ _, Or.inl ⟨rfl, Or.inl rfl⟩⟩
  · obtain rfl : 1 = n := Option.some.inj hn
    have hone : sz = 1 := by
      rw [hp] at hstep
      rcases hsz with rfl | rfl | rfl | rfl <;> first | rfl | exact absurd hstep (by decide)
    rw [tryConstFold_word (Or.inl rfl) (by rw [hp]; rfl) (by rw [hp]; rfl)] at heq
    refine ⟨_, outOpWith_of_ret hmem heq, hp, ?_, Or.inr ⟨rfl, hone⟩⟩
    rw [val_of_constI? hm, hone]
    rfl
  · cases hn
  · rw [hk] at hm
    cases hm

/-- A pointer that can be moved. -/
theorem ptrInc_of_steppable (hsz : PrimSize sz) (hp : p.ty = .ptr (sizedElem sz))
    (h : Steppable o p = true) :
    ∃ v, ptrInc o p = some v ∧ v.ty = .ptr (sizedElem sz) ∧
      v.store.val = p.store.val + BitVec.ofNat 64 sz ∧
      (ByOffset o v ∨ (v.constI?.isSome = true ∧ sz = 1)) := by
  by_cases hoff : ByOffset o p
  · obtain ⟨v, hv, hty, hval, hoff'⟩ := ptrInc_of_byOffset hsz hp hoff
    exact ⟨v, hv, hty, hval, Or.inl hoff'⟩
  cases hk : p.constI? with
  | some k => exact ptrInc_of_const hsz hp hk
  | none =>
    have hprinted : operandsPrinted o .plus p (outNewL intptrTy (BitVec.ofNat 64 sz)) = true := by
      have hpic := printed_of_pic (o := o) (l := p)
        (r := outNewL intptrTy (BitVec.ofNat 64 sz))
      obtain ⟨ty, store⟩ := p
      cases store with
      | constI val => cases hk
      | reg held offset => exact absurd ⟨rfl, Or.inl rfl⟩ hoff
      | lbl addr offset =>
        simp only [ByOffset, OutVal.isRegOrLbl, OutVal.isLbl, true_and, Bool.true_eq_false,
          false_or, Bool.not_eq_true] at hoff
        simp only [Steppable, hoff, Bool.false_or] at h
        exact hpic h
      | regoff held offset => exact hpic h
      | spilt held | flag set =>
        unfold operandsPrinted
        rw [checkIvfp_size hsz]
        cases ho : o.pic <;>
          simp [OutVal.checkIvfp, aluOperands, needSwap, operandKinds, OutVal.matchesKind, ho,
            OutVal.isLbl, OutVal.constI?, outNewL, opIsCommutative, OutVal.toRegMem, OutVal.toReg,
            inReg, OutVal.isReg, OutVal.readable, OutVal.toRegMemConst, OutVal.toRegConst]
    rw [outOp_inc_go hsz hp (tryMemOffset_inc hoff) (constFolding_inc hk), if_pos hprinted]
    exact ⟨_, rfl, rfl, inReg_val _ _, Or.inl ⟨rfl, Or.inl rfl⟩⟩

/-- A pointer that cannot. -/
theorem ptrInc_of_not_steppable (hsz : PrimSize sz) (hp : p.ty = .ptr (sizedElem sz))
    (h : Steppable o p = false) : ptrInc o p = none := by
  have hoff : ¬ ByOffset o p := by
    intro hoff
    obtain ⟨ty, store⟩ := p
    cases store <;> simp_all [Steppable, ByOffset, OutVal.isRegOrLbl, OutVal.isLbl]
  have hnone : p.constI? = none := by
    obtain ⟨ty, store⟩ := p
    cases store <;> first | rfl | cases h
  rw [outOp_inc_go hsz hp (tryMemOffset_inc hoff) (constFolding_inc hnone), if_neg]
  unfold operandsPrinted
  rw [checkIvfp_size hsz]
  obtain ⟨ty, store⟩ := p
  cases store with
  | lbl addr offset =>
    simp only [Steppable, Bool.or_eq_false_iff] at h
    simp [OutVal.checkIvfp, aluOperands, needSwap, operandKinds, OutVal.matchesKind, h.2,
      OutVal.isLbl, OutVal.constI?, outNewL, OutVal.isReg]
  | regoff held offset =>
    simp only [Steppable] at h
    simp [OutVal.checkIvfp, aluOperands, needSwap, operandKinds, OutVal.matchesKind, h,
      OutVal.isLbl, OutVal.constI?, outNewL, OutVal.isReg, OutVal.toRegMem, opIsCommutative]
  | _ => cases h

/-- A pointer that was moved can be moved again. -/
theorem steppable_of_moved (h : ByOffset o p ∨ (p.constI?.isSome = true ∧ sz = 1)) :
    Steppable o p = true := by
  obtain ⟨ty, store⟩ := p
  rcases h with ⟨hreg, hlbl⟩ | ⟨hconst, -⟩
  · cases store with
    | lbl addr offset =>
      have hsym : o.symbolArith = true := hlbl.resolve_left (by simp [OutVal.isLbl])
      simp [Steppable, hsym]
    | reg held offset => rfl
    | _ => cases hreg
  · cases store <;> first | rfl | cases hconst

end Steps

/-! ## `out_memset` -/

section Memset

variable {o : OutOpts} {sz te n : Nat} {p : OutVal}

theorem primSize_pos (h : PrimSize sz) : 0 < sz := by
  unfold PrimSize at h
  omega

theorem succ_toNat {i : BitVec 32} (hi : i.toNat < n) (hn : n < 2 ^ 32) :
    (i + 1).toNat = i.toNat + 1 := by
  have hone : (1 : BitVec 32).toNat = 1 := rfl
  rw [BitVec.toNat_add, hone, Nat.mod_eq_of_lt (by omega)]

/-- The stores of a loop with no remainder. -/
theorem memsetLoop_none (hsz : PrimSize sz) (hn : n < 2 ^ 32) {m : Nat} {i : BitVec 32}
    (hi : i.toNat + m = n) (hp : p.ty = .ptr (sizedElem sz)) (hstep : Steppable o p = true) :
    memsetLoop o sz none n (m + 1) i p = some (zeroChain p.store.val (List.replicate m sz)) := by
  induction m generalizing i p with
  | zero =>
    rw [memsetLoop, if_neg (by omega)]
    rfl
  | succ m ih =>
    obtain ⟨v, hv, hty, hval, hmoved⟩ := ptrInc_of_steppable hsz hp hstep
    have hlt : i.toNat < n := by omega
    have hrest := ih (i := i + 1) (p := v) (by rw [succ_toNat hlt hn]; omega) hty
      (steppable_of_moved hmoved)
    rw [memsetLoop, if_pos hlt]
    simp only [memsetTurn, hv, Option.bind_eq_bind, Option.bind_some, hrest, hval]
    rfl

/-- One turn with a remainder. -/
theorem memsetLoop_one (hsz : PrimSize sz) (hp : p.ty = .ptr (sizedElem sz))
    (hstep : Steppable o p = true) (fuel : Nat) :
    memsetLoop o sz (some te) 1 (fuel + 2) 0 p = some (zeroChain p.store.val [sz, te]) := by
  obtain ⟨v, hv, hty, hval, hmoved⟩ := ptrInc_of_steppable hsz hp hstep
  rw [memsetLoop, if_pos (by decide)]
  simp only [memsetTurn, hv, Option.bind_eq_bind, Option.bind_some]
  rw [memsetLoop, if_neg (by decide)]
  simp only [OutVal.changePtr, hval]
  rfl

theorem memsetLoop_one_fuel {textra : Option Nat} {fuel : Nat} (h : fuel < 2) :
    memsetLoop o sz textra 1 fuel 0 p = none := by
  cases fuel with
  | zero => rfl
  | succ fuel =>
    obtain rfl : fuel = 0 := by omega
    rw [memsetLoop, if_pos (by decide)]
    cases memsetTurn o sz textra p with
    | none => rfl
    | some e => rfl

/-- An `unsigned` never gets to 2 ^ 32. -/
theorem memsetLoop_never (textra : Option Nat) (hn : 2 ^ 32 ≤ n) (fuel : Nat) (i : BitVec 32) :
    memsetLoop o sz textra n fuel i p = none := by
  induction fuel generalizing i p with
  | zero => rfl
  | succ fuel ih =>
    have hlt : i.toNat < n := by
      have := i.isLt
      omega
    rw [memsetLoop, if_pos hlt]
    cases memsetTurn o sz textra p with
    | none => rfl
    | some e =>
      obtain ⟨v, stores⟩ := e
      simp only [Option.bind_eq_bind, Option.bind_some, ih, Option.bind_none]

/-- A pointer that cannot be moved. -/
theorem memsetLoop_not_steppable (textra : Option Nat) (hn : 0 < n) (hsz : PrimSize sz)
    (hp : p.ty = .ptr (sizedElem sz)) (hstep : Steppable o p = false) (fuel : Nat) :
    memsetLoop o sz textra n fuel 0 p = none := by
  cases fuel with
  | zero => rfl
  | succ fuel =>
    rw [memsetLoop, if_pos (show (0 : BitVec 32).toNat < n from hn)]
    simp only [memsetTurn, ptrInc_of_not_steppable hsz hp hstep, Option.bind_eq_bind,
      Option.bind_none]

/-- The store starts in the range, and ends in it. -/
def StoredWithin (a : Integral) (len : Nat) (move : MemMove 64) : Prop :=
  ∃ c size, move = .zero (a + BitVec.ofNat 64 c) size ∧ c + size ≤ len

theorem StoredWithin.shift {a : Integral} {len c : Nat} {move : MemMove 64}
    (h : StoredWithin (a + BitVec.ofNat 64 c) len move) : StoredWithin a (c + len) move := by
  obtain ⟨d, size, rfl, hle⟩ := h
  refine ⟨c + d, size, ?_, by omega⟩
  rw [BitVec.ofNat_add, ← add_assoc]

theorem StoredWithin.mono {a : Integral} {len len' : Nat} {move : MemMove 64}
    (h : StoredWithin a len move) (hle : len ≤ len') : StoredWithin a len' move := by
  obtain ⟨c, size, rfl, hc⟩ := h
  exact ⟨c, size, rfl, by omega⟩

theorem storedWithin_zero (a : Integral) {size len : Nat} (h : size ≤ len) :
    StoredWithin a len (.zero a size) := by
  refine ⟨0, size, ?_, by omega⟩
  rw [BitVec.add_zero]

/-- A turn with a remainder, of a pointer to any of the types. -/
theorem memsetTurn_some {pz : Nat} (hpz : PrimSize pz) (hp : p.ty = .ptr (sizedElem pz))
    {v : OutVal} {stores : List (MemMove 64)}
    (h : memsetTurn o sz (some te) p = some (v, stores)) :
    v.ty = .ptr (sizedElem te) ∧ v.store.val = p.store.val + BitVec.ofNat 64 pz ∧
      stores = [.zero p.store.val sz, .zero (p.store.val + BitVec.ofNat 64 pz) te] := by
  cases hstep : Steppable o p with
  | false =>
    simp only [memsetTurn, ptrInc_of_not_steppable hpz hp hstep, Option.bind_eq_bind,
      Option.bind_none] at h
    cases h
  | true =>
    obtain ⟨u, hu, -, hval, -⟩ := ptrInc_of_steppable hpz hp hstep
    simp only [memsetTurn, hu, Option.bind_eq_bind, Option.bind_some, Option.some.injEq,
      Prod.mk.injEq] at h
    obtain ⟨rfl, rfl⟩ := h
    refine ⟨rfl, hval, ?_⟩
    rw [← hval]
    rfl

/-- After the first turn the pointer is moved by the remainder's type, so that the stores do
not get further than the first ones. -/
theorem memsetLoop_some_within (hte : PrimSize te) (hle : 2 * te ≤ sz) (hn : n < 2 ^ 32)
    {fuel m : Nat} {i : BitVec 32} (hi : i.toNat + m = n) (hp : p.ty = .ptr (sizedElem te))
    {stores : List (MemMove 64)} (h : memsetLoop o sz (some te) n fuel i p = some stores) :
    ∀ move ∈ stores, StoredWithin p.store.val (m * sz) move := by
  induction fuel generalizing m i p stores with
  | zero => cases h
  | succ fuel ih =>
    rw [memsetLoop] at h
    split at h
    · rename_i hlt
      obtain ⟨m, rfl⟩ : ∃ k, m = k + 1 := ⟨m - 1, by omega⟩
      obtain ⟨⟨v, first⟩, hturn, h⟩ := Option.bind_eq_some_iff.1 h
      obtain ⟨rest, hrest, h⟩ := Option.bind_eq_some_iff.1 h
      obtain rfl := Option.some.inj h
      obtain ⟨hty, hval, rfl⟩ := memsetTurn_some hte hp hturn
      have hwithin := ih (m := m) (by rw [succ_toNat hlt hn]; omega) hty hrest
      rw [hval] at hwithin
      have hmul : (m + 1) * sz = m * sz + sz := by ring
      intro move hmove
      simp only [List.cons_append, List.nil_append, List.mem_cons] at hmove
      rcases hmove with rfl | rfl | hmove
      · exact storedWithin_zero _ (by omega)
      · exact (storedWithin_zero _ le_rfl).shift.mono (by omega)
      · exact (hwithin move hmove).shift.mono (by omega)
    · obtain rfl := Option.some.inj h
      simp

/-- With two or more turns, the last bytes are not reached. -/
theorem memsetLoop_some_short (hsz : PrimSize sz) (hte : PrimSize te) (hle : 2 * te ≤ sz)
    (hn : n < 2 ^ 32) (htwo : 2 ≤ n) {fuel : Nat} (hp : p.ty = .ptr (sizedElem sz))
    {stores : List (MemMove 64)} (h : memsetLoop o sz (some te) n fuel 0 p = some stores) :
    ∀ move ∈ stores, StoredWithin p.store.val (n * sz) move := by
  cases fuel with
  | zero => cases h
  | succ fuel =>
    rw [memsetLoop, if_pos (show (0 : BitVec 32).toNat < n by
      have : (0 : BitVec 32).toNat = 0 := rfl
      omega)] at h
    obtain ⟨⟨v, first⟩, hturn, h⟩ := Option.bind_eq_some_iff.1 h
    obtain ⟨rest, hrest, h⟩ := Option.bind_eq_some_iff.1 h
    obtain rfl := Option.some.inj h
    obtain ⟨hty, hval, rfl⟩ := memsetTurn_some hsz hp hturn
    have hone : (0 + 1 : BitVec 32).toNat = 1 := rfl
    have hwithin := memsetLoop_some_within (m := n - 1) hte hle hn (by rw [hone]; omega) hty hrest
    rw [hval] at hwithin
    have hmul : n * sz = (n - 1) * sz + sz := by
      obtain ⟨k, rfl⟩ : ∃ k, n = k + 1 := ⟨n - 1, by omega⟩
      rw [Nat.add_sub_cancel]
      ring
    have hmul' : sz ≤ (n - 1) * sz := Nat.le_mul_of_pos_left sz (by omega)
    intro move hmove
    simp only [List.cons_append, List.nil_append, List.mem_cons] at hmove
    rcases hmove with rfl | rfl | hmove
    · exact storedWithin_zero _ (by omega)
    · exact (storedWithin_zero _ le_rfl).shift.mono (by omega)
    · exact (hwithin move hmove).shift.mono (by omega)

/-- A byte past the stores is not written. -/
theorem not_writes_of_within {a : Integral} {len : Nat} {move : MemMove 64} {k : Nat}
    (h : StoredWithin a len move) (hk : len ≤ k) (hlt : k < 2 ^ 64) :
    ¬ move.writes (a + BitVec.ofNat 64 k) := by
  obtain ⟨c, size, rfl, hc⟩ := h
  have hspan : a + BitVec.ofNat 64 k = a + BitVec.ofNat 64 c + BitVec.ofNat 64 (k - c) := by
    rw [add_assoc, ← BitVec.ofNat_add, Nat.add_sub_cancel' (by omega)]
  change ¬ InSpan _ _ _
  rw [hspan, inSpan_offset (by omega)]
  omega

/-- The length is a multiple of the type that is found for it, or one of them and a type
more; the turns can be counted by an `unsigned`. -/
def MemsetFits (nbytes : Nat) : Prop :=
  ∃ tzero, typeNavMaxFor nbytes = some tzero ∧ nbytes / tzero < 2 ^ 32 ∧
    (nbytes % tzero = 0 ∨
      (nbytes / tzero = 1 ∧ (nbytes % tzero = 1 ∨ nbytes % tzero = 2 ∨ nbytes % tzero = 4)))

/-- The type of a remainder. -/
theorem remainder_type (hsz : PrimSize sz) {r : Nat} (hr : 0 < r) (hlt : r < sz) :
    ∃ te, typeNavMaxFor r = some te ∧ PrimSize te ∧ te ≤ r ∧ 2 * te ≤ sz ∧
      (te = r ↔ r = 1 ∨ r = 2 ∨ r = 4) := by
  have hsmall : r < 8 := by
    unfold PrimSize at hsz
    omega
  have hmod : r % 2 ^ 32 = r := Nat.mod_eq_of_lt (by omega)
  cases hte : typeNavMaxFor r with
  | none =>
    rw [typeNavMaxFor_none, hmod] at hte
    omega
  | some te =>
    obtain ⟨hprim, hle, hfit⟩ := typeNavMaxFor_some hte
    rw [hmod] at hle hfit
    refine ⟨te, rfl, hprim, hle, ?_, ?_⟩
    · unfold PrimSize at hsz hprim
      omega
    · unfold PrimSize at hprim
      omega

variable {lib : LibMemset} {so : StringopOpts} {nbytes : Nat}

/-- The loop of `out_memset`, with the types that it uses. -/
theorem outMemset_eq (hloop : shouldUseLibc so nbytes = false) (hpos : nbytes ≠ 0)
    (hsz : typeNavMaxFor nbytes = some sz) {textra : Option Nat}
    (htextra : textraFor (nbytes % sz) = some textra) (fuel : Nat) :
    outMemset lib so o fuel p nbytes =
      memsetLoop o sz textra (nbytes / sz) fuel 0 (p.changePtr sz) := by
  unfold outMemset
  simp only [hpos, hloop, hsz, htextra, if_false, Bool.false_eq_true, Option.bind_eq_bind,
    Option.bind_some]

/-- The length fits, and its bytes are cleared. -/
theorem outMemset_of_fits (hlt : nbytes < 2 ^ 64) (hloop : shouldUseLibc so nbytes = false)
    (hpos : nbytes ≠ 0) (hstep : Steppable o p = true) (h : MemsetFits nbytes) :
    ∃ fuel stores, outMemset lib so o fuel p nbytes = some stores ∧
      ZeroesExactly p.store.val nbytes stores := by
  obtain ⟨sz, hsz, hn, hfit⟩ := h
  have hprim := (typeNavMaxFor_some hsz).1
  have hdiv := Nat.div_add_mod nbytes sz
  by_cases hrem : nbytes % sz = 0
  · refine ⟨nbytes / sz + 1, zeroChain p.store.val (List.replicate (nbytes / sz) sz), ?_, ?_⟩
    · rw [outMemset_eq hloop hpos hsz (if_pos hrem)]
      exact memsetLoop_none hprim hn (by simp) rfl hstep
    · have hsum : (List.replicate (nbytes / sz) sz).sum = nbytes := by
        rw [List.sum_replicate, smul_eq_mul, mul_comm]
        omega
      have h := zeroChain_exact p.store.val (List.replicate (nbytes / sz) sz)
        (by rw [hsum]; omega)
      rwa [hsum] at h
  · obtain ⟨hone, hpow⟩ := hfit.resolve_left hrem
    obtain ⟨te, hte, -, -, -, heq⟩ := remainder_type hprim (Nat.pos_of_ne_zero hrem)
      (Nat.mod_lt _ (primSize_pos hprim))
    refine ⟨2, zeroChain p.store.val [sz, te], ?_, ?_⟩
    · have htextra : textraFor (nbytes % sz) = some (some te) := by
        rw [textraFor, if_neg hrem, hte]
        rfl
      rw [outMemset_eq hloop hpos hsz htextra, hone]
      exact memsetLoop_one (p := p.changePtr sz) hprim rfl hstep 0
    · have hsum : [sz, te].sum = nbytes := by
        rw [hone, mul_one] at hdiv
        rw [heq.2 hpow]
        simpa using hdiv
      have h := zeroChain_exact p.store.val [sz, te] (by rw [hsum]; omega)
      rwa [hsum] at h

/-- The other lengths. -/
theorem fits_of_outMemset (hlt : nbytes < 2 ^ 64) (hloop : shouldUseLibc so nbytes = false)
    (hpos : nbytes ≠ 0) {fuel : Nat} {stores : List (MemMove 64)}
    (h : outMemset lib so o fuel p nbytes = some stores)
    (hzero : ZeroesExactly p.store.val nbytes stores) :
    Steppable o p = true ∧ MemsetFits nbytes := by
  cases hsz : typeNavMaxFor nbytes with
  | none => simp [outMemset, hpos, hloop, hsz] at h
  | some sz =>
    obtain ⟨hprim, hle, -⟩ := typeNavMaxFor_some hsz
    have hszpos := primSize_pos hprim
    have hdiv := Nat.div_add_mod nbytes sz
    have hmod := Nat.mod_lt nbytes hszpos
    have hnpos : 0 < nbytes / sz := Nat.div_pos (hle.trans (Nat.mod_le _ _)) hszpos
    -- the textra, and the loop
    have hextra : ∃ textra, textraFor (nbytes % sz) = some textra := by
      unfold textraFor
      split
      · exact ⟨none, rfl⟩
      · obtain ⟨te, hte, -⟩ := remainder_type hprim (Nat.pos_of_ne_zero ‹_›) hmod
        exact ⟨some te, by rw [hte]; rfl⟩
    obtain ⟨textra, htextra⟩ := hextra
    rw [outMemset_eq hloop hpos hsz htextra] at h
    have hstep : Steppable o p = true := by
      cases hstep : Steppable o p with
      | true => rfl
      | false =>
        rw [memsetLoop_not_steppable (p := p.changePtr sz) textra hnpos hprim rfl hstep] at h
        cases h
    have hn : nbytes / sz < 2 ^ 32 := by
      by_contra hge
      rw [memsetLoop_never textra (by omega)] at h
      cases h
    refine ⟨hstep, sz, hsz, hn, ?_⟩
    by_contra hnot
    rw [not_or] at hnot
    obtain ⟨te, hte, htprim, hter, hte2, heq⟩ := remainder_type hprim
      (Nat.pos_of_ne_zero hnot.1) hmod
    obtain rfl : some te = textra := by
      rw [textraFor, if_neg hnot.1, hte] at htextra
      exact Option.some.inj htextra
    have hlast : InSpan p.store.val nbytes (p.store.val + BitVec.ofNat 64 (nbytes - 1)) :=
      (inSpan_offset (by omega)).2 (by omega)
    obtain ⟨move, hmove, hwrites⟩ := (hzero.1 _).2 hlast
    by_cases hone : nbytes / sz = 1
    · rw [hone] at h hdiv
      obtain ⟨fuel, rfl⟩ : ∃ k, fuel = k + 2 := by
        refine ⟨fuel - 2, ?_⟩
        by_contra hfuel
        rw [memsetLoop_one_fuel (by omega)] at h
        cases h
      rw [memsetLoop_one (p := p.changePtr sz) hprim rfl hstep] at h
      obtain rfl := Option.some.inj h
      have hshort : te < nbytes % sz :=
        lt_of_le_of_ne hter fun h => hnot.2 ⟨hone, heq.1 h⟩
      have hsum : [sz, te].sum = sz + te := by simp
      have hspan := (zeroChain_writes p.store.val [sz, te] (by omega) _).1
        ⟨move, hmove, hwrites⟩
      rw [hsum, inSpan_offset (by omega)] at hspan
      omega
    · have hwithin := memsetLoop_some_short (p := p.changePtr sz) hprim htprim hte2 hn
        (by omega) rfl h move hmove
      refine not_writes_of_within hwithin ?_ (by omega) hwrites
      have : nbytes / sz * sz = sz * (nbytes / sz) := mul_comm _ _
      have := hnot.1
      omega

/-- The stores of `out_memset` clear the bytes of the range and no others, if and only if the
length fits the types. -/
theorem memset_zeroes_iff (lib : LibMemset) (so : StringopOpts) (o : OutOpts) (p : OutVal)
    (nbytes : Nat) (hlt : nbytes < 2 ^ 64) (hloop : shouldUseLibc so nbytes = false) :
    (∃ fuel stores, outMemset lib so o fuel p nbytes = some stores ∧
        ZeroesExactly p.store.val nbytes stores) ↔
      nbytes = 0 ∨ (Steppable o p = true ∧ MemsetFits nbytes) := by
  constructor
  · rintro ⟨fuel, stores, h, hzero⟩
    by_cases hpos : nbytes = 0
    · exact Or.inl hpos
    · exact Or.inr (fits_of_outMemset hlt hloop hpos h hzero)
  · rintro (rfl | ⟨hstep, hfits⟩)
    · refine ⟨0, [], rfl, ?_⟩
      exact zeroChain_exact p.store.val [] (Nat.zero_le _)
    · by_cases hpos : nbytes = 0
      · subst hpos
        refine ⟨0, [], rfl, ?_⟩
        exact zeroChain_exact p.store.val [] (Nat.zero_le _)
      · exact outMemset_of_fits hlt hloop hpos hstep hfits

end Memset

/-- Three `long`s. -/
theorem memset_zeroes_twenty_four :
    ∃ fuel stores, outMemset (fun _ _ _ => []) ⟨false, .loop, 0⟩ ⟨true, true, true, false⟩ fuel
        (inReg voidPtrTy 4096) 24 = some stores ∧ ZeroesExactly 4096 24 stores :=
  (memset_zeroes_iff (fun _ _ _ => []) ⟨false, .loop, 0⟩ ⟨true, true, true, false⟩
    (inReg voidPtrTy 4096) 24 (by decide) rfl).2
    (Or.inr ⟨rfl, 8, by decide, by decide, Or.inl (by decide)⟩)

/-- Five `int`s: the last one is not cleared. -/
theorem memset_twenty_short :
    ¬ ∃ fuel stores, outMemset (fun _ _ _ => []) ⟨false, .loop, 0⟩ ⟨true, true, true, false⟩ fuel
        (inReg voidPtrTy 4096) 20 = some stores ∧ ZeroesExactly 4096 20 stores := by
  rintro ⟨fuel, stores, h, hzero⟩
  obtain ⟨-, tzero, htzero, -, hfit⟩ := fits_of_outMemset (by decide) rfl (by decide) h hzero
  obtain rfl : tzero = 8 := by
    have height : typeNavMaxFor 20 = some 8 := by decide
    exact Option.some.inj (htzero.symm.trans height)
  omega

end Ucc.Cc1.Out
