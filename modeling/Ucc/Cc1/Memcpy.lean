/-
  Cc1/Memcpy.lean --- what `memcpy` without the library copies and returns.

  Source: out_memcpy_single and out_memcpy in src/cc1/out/mem.c.

  The bytes are copied whatever their number is.  The address that is returned
  is the end less the number times the size of the last type, so that it is the
  destination only if the last type is a byte.
-/
import Ucc.Cc1.Mem

set_option autoImplicit false

namespace Ucc.Cc1.Out

open Ucc.Lib

/-- `out_memcpy` copies the bytes and no others, and returns the destination. -/
def CopiesAndReturns (lib : LibMemcpy) (so : StringopOpts) (o : OutOpts) (dest src : OutVal)
    (nbytes : Nat) : Prop :=
  ∃ v stores, outMemcpy lib so o dest src nbytes = some (v, stores) ∧
    v.store.val = dest.store.val ∧ CopiesExactly dest.store.val src.store.val nbytes stores

/-- The documented behaviour of `memcpy`. -/
def LibMemcpy.Copies (lib : LibMemcpy) : Prop :=
  ∀ dst src n, (lib dst src n).2 = dst ∧
    (Apart dst src n.toNat → CopiesExactly dst src n.toNat (lib dst src n).1)

section Memcpy

variable {o : OutOpts} {sz todo : Nat} {dest src : OutVal}

/-- A pointer of a type, which can be moved. -/
def StepPtr (o : OutOpts) (sz : Nat) (p : OutVal) : Prop :=
  p.ty = .ptr (sizedElem sz) ∧ Steppable o p = true

/-- A pointer after a move. -/
def Moved (o : OutOpts) (sz : Nat) (p : OutVal) : Prop :=
  p.ty = .ptr (sizedElem sz) ∧ (ByOffset o p ∨ (p.constI?.isSome = true ∧ sz = 1))

theorem Moved.stepPtr {p : OutVal} (h : Moved o sz p) : StepPtr o sz p :=
  ⟨h.1, steppable_of_moved h.2⟩

/-- One type is copied. -/
theorem outMemcpySingle_eq (hsz : PrimSize sz) (hd : StepPtr o sz dest) (hs : StepPtr o sz src) :
    ∃ d s, outMemcpySingle o sz dest src = some (d, s, .copy dest.store.val src.store.val sz) ∧
      Moved o sz d ∧ Moved o sz s ∧ d.store.val = dest.store.val + BitVec.ofNat 64 sz ∧
      s.store.val = src.store.val + BitVec.ofNat 64 sz := by
  obtain ⟨d, hd₁, hdty, hdval, hdmoved⟩ := ptrInc_of_steppable hsz hd.1 hd.2
  obtain ⟨s, hs₁, hsty, hsval, hsmoved⟩ := ptrInc_of_steppable hsz hs.1 hs.2
  refine ⟨d, s, ?_, ⟨hdty, hdmoved⟩, ⟨hsty, hsmoved⟩, hdval, hsval⟩
  simp only [outMemcpySingle, hd₁, hs₁, Option.bind_eq_bind, Option.bind_some]

/-- The inner loop. -/
theorem memcpyInner_eq (todo : Nat) (hsz : PrimSize sz) (hd : StepPtr o sz dest) (hs : StepPtr o sz src)
    {fuel : Nat} (hfuel : todo ≤ fuel) :
    ∃ d s, memcpyInner o sz fuel todo dest src = some (todo % sz, d, s,
        copyChain dest.store.val src.store.val (List.replicate (todo / sz) sz)) ∧
      StepPtr o sz d ∧ StepPtr o sz s ∧ (sz ≤ todo ∨ Moved o sz dest → Moved o sz d) ∧
      d.store.val = dest.store.val + BitVec.ofNat 64 (todo / sz * sz) ∧
      s.store.val = src.store.val + BitVec.ofNat 64 (todo / sz * sz) := by
  have hpos := primSize_pos hsz
  induction fuel generalizing todo dest src with
  | zero =>
    obtain rfl : todo = 0 := by omega
    refine ⟨dest, src, by simp [memcpyInner, copyChain], hd, hs, ?_, ?_, ?_⟩
    · rintro (h | h)
      · omega
      · exact h
    · simp
    · simp
  | succ fuel ih =>
    rw [memcpyInner]
    split
    · rename_i hle
      obtain ⟨d, s, hsingle, hdm, hsm, hdval, hsval⟩ := outMemcpySingle_eq hsz hd hs
      obtain ⟨d', s', hrest, hd', hs', hmoved, hdval', hsval'⟩ :=
        ih (todo - sz) hdm.stepPtr hsm.stepPtr (by omega)
      have hdiv : todo / sz = (todo - sz) / sz + 1 := Nat.div_eq_sub_div hpos hle
      have hmod : (todo - sz) % sz = todo % sz := (Nat.mod_eq_sub_mod hle).symm
      have hmul : todo / sz * sz = sz + (todo - sz) / sz * sz := by
        rw [hdiv]
        ring
      refine ⟨d', s', ?_, hd', hs', fun _ => hmoved (Or.inr hdm), ?_, ?_⟩
      · simp only [hsingle, hrest, Option.bind_eq_bind, Option.bind_some, hmod, hdiv, hdval, hsval,
          List.replicate_succ, copyChain]
      · rw [hdval', hdval, hmul, BitVec.ofNat_add, add_assoc]
      · rw [hsval', hsval, hmul, BitVec.ofNat_add, add_assoc]
    · rename_i hlt
      have hmod : todo % sz = todo := Nat.mod_eq_of_lt (by omega)
      have hdiv : todo / sz = 0 := Nat.div_eq_of_lt (by omega)
      refine ⟨dest, src, by rw [hmod, hdiv]; rfl, hd, hs, ?_, ?_, ?_⟩
      · rintro (h | h)
        · omega
        · exact h
      · simp [hdiv]
      · simp [hdiv]

theorem stepPtr_changePtr {p : OutVal} (h : Steppable o p = true) (sz : Nat) :
    StepPtr o sz (p.changePtr sz) := ⟨rfl, h⟩

/-- The bytes that are left after a type are fewer than it. -/
theorem left_odd (hsz : typeNavMaxFor todo = some sz) :
    (todo % sz = 0 → (sz = 1 ↔ todo % 2 = 1)) ∧
      (todo % sz ≠ 0 → todo % sz % 2 = todo % 2 ∧ todo % sz % 2 ^ 32 ≠ 0) := by
  obtain ⟨hprim, hle, hfit⟩ := typeNavMaxFor_some hsz
  rcases hprim with rfl | rfl | rfl | rfl <;> omega

/-- The two loops. -/
theorem memcpyOuter_eq (todo : Nat) (hd : Steppable o dest = true) (hs : Steppable o src = true) {fuel : Nat}
    (hfuel : todo < fuel) (htodo : todo % 2 ^ 32 ≠ 0) :
    ∃ d s ns, memcpyOuter o fuel todo dest src =
        some (d, s, copyChain dest.store.val src.store.val ns) ∧ ns.sum = todo ∧
      d.store.val = dest.store.val + BitVec.ofNat 64 todo ∧
      ∃ last, PrimSize last ∧ Moved o last d ∧ (last = 1 ↔ todo % 2 = 1) := by
  induction fuel generalizing todo dest src with
  | zero => omega
  | succ fuel ih =>
    have hne : todo ≠ 0 := by
      rintro rfl
      exact htodo rfl
    obtain ⟨sz, hsz⟩ := Option.ne_none_iff_exists'.1 (mt typeNavMaxFor_none.1 htodo)
    obtain ⟨hprim, hle, -⟩ := typeNavMaxFor_some hsz
    have hle' : sz ≤ todo := hle.trans (Nat.mod_le _ _)
    obtain ⟨d, s, hinner, hd', hs', hmoved, hdval, hsval⟩ := memcpyInner_eq todo hprim
      (stepPtr_changePtr hd sz) (stepPtr_changePtr hs sz) le_rfl
    obtain ⟨hlast, hleft⟩ := left_odd hsz
    have hdiv : todo / sz * sz + todo % sz = todo := Nat.div_add_mod' todo sz
    have hsum : (List.replicate (todo / sz) sz).sum = todo / sz * sz := by
      rw [List.sum_replicate, smul_eq_mul]
    rw [memcpyOuter, if_neg hne]
    simp only [hsz, hinner, Option.bind_eq_bind, Option.bind_some]
    by_cases hrem : todo % sz = 0
    · obtain ⟨fuel, rfl⟩ : ∃ k, fuel = k + 1 := ⟨fuel - 1, by omega⟩
      refine ⟨d, s, List.replicate (todo / sz) sz, ?_, by omega, ?_, sz, hprim,
        hmoved (Or.inl hle'), hlast hrem⟩
      · rw [hrem, memcpyOuter, if_pos rfl]
        simp only [Option.bind_some, List.append_nil]
        rfl
      · rw [hdval]
        congr 2
        omega
    · obtain ⟨hodd, hmod⟩ := hleft hrem
      have hlt := Nat.mod_lt todo (primSize_pos hprim)
      obtain ⟨d', s', ns, hrest, hns, hdval', last, hlprim, hlmoved, hlodd⟩ :=
        ih (todo % sz) hd'.2 hs'.2 (by omega) hmod
      refine ⟨d', s', List.replicate (todo / sz) sz ++ ns, ?_, ?_, ?_, last, hlprim, hlmoved,
        by rw [hlodd, hodd]⟩
      · simp only [hrest, Option.bind_some]
        rw [copyChain_append, hsum, hdval, hsval]
        rfl
      · rw [List.sum_append]
        omega
      · rw [hdval', hdval, add_assoc, ← BitVec.ofNat_add, hdiv]
        rfl

/-- A pointer that cannot be moved. -/
theorem memcpyOuter_none (h : Steppable o dest = false ∨ Steppable o src = false) {fuel : Nat}
    (hne : todo ≠ 0) : memcpyOuter o fuel todo dest src = none := by
  cases fuel with
  | zero => rfl
  | succ fuel =>
    rw [memcpyOuter, if_neg hne]
    cases hsz : typeNavMaxFor todo with
    | none => rfl
    | some sz =>
      obtain ⟨hprim, hle, -⟩ := typeNavMaxFor_some hsz
      have hle' : sz ≤ todo := hle.trans (Nat.mod_le _ _)
      have hsingle : outMemcpySingle o sz (dest.changePtr sz) (src.changePtr sz) = none := by
        unfold outMemcpySingle
        rcases h with h | h
        · rw [ptrInc_of_not_steppable (p := dest.changePtr sz) hprim rfl h]
          rfl
        · rw [ptrInc_of_not_steppable (p := src.changePtr sz) hprim rfl h]
          cases ptrInc o (dest.changePtr sz) <;> rfl
      obtain ⟨k, rfl⟩ : ∃ k, todo = k + 1 := ⟨todo - 1, by omega⟩
      simp only [Option.bind_eq_bind, Option.bind_some]
      rw [memcpyInner, if_pos hle', hsingle]
      rfl

theorem memcpyOuter_ice {fuel : Nat} (hne : todo ≠ 0) (h : todo % 2 ^ 32 = 0) :
    memcpyOuter o fuel todo dest src = none := by
  cases fuel with
  | zero => rfl
  | succ fuel =>
    rw [memcpyOuter, if_neg hne, typeNavMaxFor_none.2 h]
    rfl

/-- The length is subtracted, and scaled. -/
theorem outOp_minus_length (hsz : PrimSize sz) {d : OutVal} (hd : Moved o sz d) (n : Integral) :
    ∃ v, outOp o .minus d (outNewL d.ty n) = some v ∧
      v.store.val = d.store.val - n * BitVec.ofNat 64 sz := by
  obtain ⟨hty, hmoved⟩ := hd
  obtain ⟨hstep, hne⟩ := Elem.step_sizedElem hsz
  rcases hmoved with ⟨hreg, hlbl⟩ | ⟨hconst, rfl⟩
  · obtain ⟨v, hv, -, hval⟩ := outOp_minus_of_asInt (r := outNewL d.ty n) hty
      ⟨rfl, hreg, hlbl, hne⟩
    refine ⟨v, hv, ?_⟩
    rw [hval, hstep]
    rfl
  · obtain ⟨k, hk⟩ := Option.isSome_iff_exists.1 hconst
    have hdist : (d.store.val - (outNewL d.ty n).store.val).toInt =
        (sizedElem 1).bytes * (d.store.val - n).toInt := (one_mul _).symm
    have hright : DiffRight o (sizedElem 1) d (outNewL d.ty n) (d.store.val - n).toInt := by
      unfold DiffRight
      rw [if_neg fun h => ?_, if_neg fun h => ?_]
      · exact Or.inr (Or.inl (by decide))
      · rw [h.2.1] at hk
        cases hk
      · rw [SubtractedAsInt, not_regOrLbl hk] at h
        cases h.2.1
    have hprinted : StepPrinted o .minus d (outNewL d.ty n) := fun _ _ =>
      ⟨_, applyPtrStep_ptr _ hty hty,
        operandsPrinted_simple rfl (by simp [OutVal.isSimple, hk]) rfl⟩
    have hty' : (outNewL d.ty n).ty = .ptr (sizedElem 1) := hty
    obtain ⟨v, hv, hval⟩ := (ptr_minus_ptr_iff hty hty' (by decide) hdist).2 ⟨hright, hprinted⟩
    refine ⟨v, hv, ?_⟩
    rw [BitVec.eq_of_toInt_eq hval]
    exact congrArg (d.store.val - ·) (mul_one n).symm

variable {lib : LibMemcpy} {so : StringopOpts} {nbytes : Nat}

/-- The length times a larger type is another number: one less than the type is odd. -/
theorem length_scaled_iff {last : Nat} (hlast : PrimSize last) (hpos : nbytes ≠ 0)
    (hlt : nbytes < 2 ^ 64) (a : Integral) :
    a + BitVec.ofNat 64 nbytes - BitVec.ofNat 64 nbytes * BitVec.ofNat 64 last = a ↔ last = 1 := by
  constructor
  · intro h
    by_contra hne
    have hword : BitVec.ofNat 64 nbytes = BitVec.ofNat 64 (nbytes * last) := by
      rw [BitVec.ofNat_mul]
      rwa [add_sub_assoc, add_eq_left, sub_eq_zero] at h
    have hmod : nbytes * last % 2 ^ 64 = nbytes % 2 ^ 64 := by
      have hnat := congrArg BitVec.toNat hword
      rw [BitVec.toNat_ofNat, BitVec.toNat_ofNat] at hnat
      exact hnat.symm
    have hdvd : 2 ^ 64 ∣ nbytes * (last - 1) := by
      rw [Nat.mul_sub, mul_one]
      exact Nat.dvd_of_mod_eq_zero (Nat.sub_mod_eq_zero_of_mod_eq hmod)
    have hcoprime : Nat.Coprime (2 ^ 64) (last - 1) := by
      refine Nat.Coprime.pow_left 64 ?_
      rcases hlast with rfl | rfl | rfl | rfl <;> first | decide | contradiction
    have hle := Nat.le_of_dvd (Nat.pos_of_ne_zero hpos) (hcoprime.dvd_of_dvd_mul_right hdvd)
    omega
  · rintro rfl
    rw [BitVec.mul_one, add_sub_cancel_right]

/-- The loop copies the bytes, and what it returns depends on the last type. -/
theorem copiesAndReturns_loop_iff (hpos : nbytes ≠ 0) (hlt : nbytes < 2 ^ 64)
    (hlibc : shouldUseLibc so nbytes = false)
    (hapart : Apart dest.store.val src.store.val nbytes) :
    CopiesAndReturns lib so o dest src nbytes ↔
      nbytes % 2 = 1 ∧ Steppable o dest = true ∧ Steppable o src = true := by
  have hloop : outMemcpy lib so o dest src nbytes =
      (memcpyOuter o (nbytes + 1) nbytes dest src).bind fun e =>
        (outOp o .minus e.1 (outNewL e.1.ty (BitVec.ofNat 64 nbytes))).bind fun ret =>
          some (ret, e.2.2) := by
    simp only [outMemcpy, hpos, hlibc, if_false, Bool.false_eq_true]
    rfl
  have hnone : memcpyOuter o (nbytes + 1) nbytes dest src = none →
      ¬ CopiesAndReturns lib so o dest src nbytes := by
    rintro h ⟨v, stores, hv, -⟩
    rw [hloop, h] at hv
    cases hv
  cases hd : Steppable o dest with
  | false => simp [hnone (memcpyOuter_none (Or.inl hd) hpos)]
  | true =>
    cases hs : Steppable o src with
    | false => simp [hnone (memcpyOuter_none (Or.inr hs) hpos)]
    | true =>
      by_cases hice : nbytes % 2 ^ 32 = 0
      · have heven : ¬ nbytes % 2 = 1 := by omega
        simp [hnone (memcpyOuter_ice hpos hice), heven]
      · obtain ⟨d, s, ns, houter, hsum, hdval, last, hprim, hmoved, hodd⟩ :=
          memcpyOuter_eq nbytes hd hs (Nat.lt_succ_self _) hice
        obtain ⟨v, hv, hval⟩ := outOp_minus_length hprim hmoved (BitVec.ofNat 64 nbytes)
        have hout : outMemcpy lib so o dest src nbytes =
            some (v, copyChain dest.store.val src.store.val ns) := by
          rw [hloop, houter]
          simp only [Option.bind_some, hv]
        have hcopies := copyChain_exact dest.store.val src.store.val ns (by omega)
          (by rwa [hsum])
        rw [hsum] at hcopies
        rw [hdval] at hval
        simp only [and_self, and_true]
        rw [← hodd, ← length_scaled_iff hprim hpos hlt dest.store.val, ← hval]
        constructor
        · rintro ⟨v', stores, hv', hret, -⟩
          rw [hout] at hv'
          cases hv'
          exact hret
        · intro hret
          exact ⟨v, _, hout, hret, hcopies⟩

/-- `out_memcpy` copies the bytes and returns the destination, if and only if it calls the
library, there is nothing to copy, or the length is odd. -/
theorem memcpy_copies_iff (lib : LibMemcpy) (so : StringopOpts) (o : OutOpts) (dest src : OutVal)
    (nbytes : Nat) (hlib : lib.Copies) (hlt : nbytes < 2 ^ 64)
    (hapart : Apart dest.store.val src.store.val nbytes) :
    CopiesAndReturns lib so o dest src nbytes ↔
      nbytes = 0 ∨ shouldUseLibc so nbytes = true ∨
        (nbytes % 2 = 1 ∧ Steppable o dest = true ∧ Steppable o src = true) := by
  by_cases hpos : nbytes = 0
  · subst hpos
    refine iff_of_true ⟨dest, [], rfl, rfl, ?_⟩ (Or.inl rfl)
    exact copyChain_exact dest.store.val src.store.val [] (Nat.zero_le _) hapart
  cases hlibc : shouldUseLibc so nbytes with
  | true =>
    refine iff_of_true ?_ (Or.inr (Or.inl rfl))
    obtain ⟨hret, hcopies⟩ := hlib dest.store.val src.store.val (BitVec.ofNat 64 nbytes)
    have hnat : (BitVec.ofNat 64 nbytes).toNat = nbytes := by
      rw [BitVec.toNat_ofNat, Nat.mod_eq_of_lt hlt]
    rw [hnat] at hcopies
    refine ⟨_, _, ?_, (inReg_val voidPtrTy _).trans hret, hcopies hapart⟩
    simp only [outMemcpy, hpos, hlibc, if_false, if_true]
  | false =>
    simp only [hpos, Bool.false_eq_true, false_or]
    rw [copiesAndReturns_loop_iff hpos hlt hlibc hapart]

end Memcpy

/-- A byte-wise `memcpy` of the library. -/
def bytewiseMemcpy : LibMemcpy := fun dst src n => ([.copy dst src n.toNat], dst)

theorem bytewiseMemcpy_copies : bytewiseMemcpy.Copies := by
  intro dst src n
  refine ⟨rfl, fun hapart => ?_⟩
  have hsum : [n.toNat].sum = n.toNat := by simp
  have h := copyChain_exact dst src [n.toNat] (by rw [hsum]; exact n.isLt.le)
    (by rwa [hsum])
  rw [hsum] at h
  exact h

/-- Three bytes, with the loop. -/
theorem memcpy_copies_three :
    CopiesAndReturns bytewiseMemcpy ⟨false, .loop, 0⟩ ⟨true, true, true, false⟩
      (inReg voidPtrTy 4096) (inReg voidPtrTy 8192) 3 := by
  refine (memcpy_copies_iff bytewiseMemcpy ⟨false, .loop, 0⟩ ⟨true, true, true, false⟩
    (inReg voidPtrTy 4096) (inReg voidPtrTy 8192) 3 bytewiseMemcpy_copies (by decide) ?_).2
    (Or.inr (Or.inr ⟨rfl, rfl, rfl⟩))
  intro a hd hs
  unfold InSpan at hd hs
  rw [inReg_val] at hd hs
  bv_omega

/-- Eight bytes, with the loop: the address that is returned is 56 bytes too low. -/
theorem memcpy_eight_returns_another :
    ¬ CopiesAndReturns bytewiseMemcpy ⟨false, .loop, 0⟩ ⟨true, true, true, false⟩
      (inReg voidPtrTy 4096) (inReg voidPtrTy 8192) 8 := by
  have hval : (outMemcpy bytewiseMemcpy ⟨false, .loop, 0⟩ ⟨true, true, true, false⟩
      (inReg voidPtrTy 4096) (inReg voidPtrTy 8192) 8).map (fun e => e.1.store.val) =
        some 4040 := by
    decide
  rintro ⟨v, stores, hv, hret, -⟩
  rw [hv] at hval
  have heq : (inReg voidPtrTy 4096).store.val = 4040 := hret.symm.trans (Option.some.inj hval)
  exact absurd heq (by decide)

end Ucc.Cc1.Out
