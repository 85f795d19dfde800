/-
  Cc1/Pack.lean --- how far `pack_to_align` is exact.

  Source: src/cc1/pack.c.

  `-align` is an `unsigned`: widened to `unsigned long` it has no bits above the 32nd,
  and masks the upper half of the size away.  The form under `SLOW` computes in
  `unsigned long` only.
-/
import Ucc.Cc1.FoldSue

set_option autoImplicit false

namespace Ucc.Cc1

/-- `pack_to_align`, compiled with `SLOW`. -/
def packToAlignSlow (sz align : Nat) : Nat :=
  if sz % align ≠ 0 then (sz + (align - sz % align)) % 2 ^ 64 else sz

theorem packToAlignSlow_eq {sz align : Nat} (ha : 0 < align) (h : sz + align ≤ 2 ^ 64) :
    packToAlignSlow sz align = Lib.roundUp sz align := by
  unfold packToAlignSlow
  split
  · rename_i hmod
    have hlt := Nat.mod_lt sz ha
    have hdvd : align ∣ sz + (align - sz % align) := by
      have hsplit := Nat.div_add_mod sz align
      have hq : sz + (align - sz % align) = align * (sz / align + 1) := by
        rw [Nat.mul_add, Nat.mul_one]
        omega
      exact Dvd.intro _ hq.symm
    rw [Nat.mod_eq_of_lt (by omega)]
    exact (Lib.roundUp_eq ha (by omega) hdvd (by omega)).symm
  · rename_i hmod
    exact (Lib.roundUp_eq_self ha (Nat.dvd_of_mod_eq_zero (by omega))).symm

/-- What the callers of `pack_to_align` and `pack_next` rely on. -/
structure PacksExactly (sz align : Nat) : Prop where
  least : IsLeast {q | align ∣ q ∧ sz ≤ q} (packToAlign sz align)
  slow : packToAlign sz align = packToAlignSlow sz align
  /-- the size of what is placed is an `unsigned` -/
  next : ∀ n < 2 ^ 32, align ∣ (packNext sz n align).1 ∧ sz + n ≤ (packNext sz n align).2

theorem two_pow_dvd {k n : Nat} (h : k ≤ n) : 2 ^ k ∣ 2 ^ n := pow_dvd_pow 2 h

/-- The rounding is exact up to the last multiple of the alignment that an `unsigned` has. -/
theorem pack_to_align_exact_iff {sz k : Nat} (hsz : sz < 2 ^ 63) (hk : k < 31) :
    PacksExactly sz (2 ^ k) ↔ sz ≤ 2 ^ 32 - 2 ^ k := by
  have hpos : 0 < 2 ^ k := Nat.two_pow_pos k
  have hpow : 2 ^ k ≤ 2 ^ 30 := Nat.pow_le_pow_right (by omega) (by omega)
  have hdvd : 2 ^ k ∣ 2 ^ 32 := two_pow_dvd (by omega)
  have heq := packToAlign_eq hsz (by omega : k ≤ 31)
  constructor
  · intro h
    have hle : sz ≤ packToAlign sz (2 ^ k) := h.least.1.2
    have hlt : packToAlign sz (2 ^ k) < 2 ^ 32 := by
      rw [heq]
      exact Nat.mod_lt _ (by decide)
    -- two multiples of the alignment are at least the alignment apart
    have hgap : 2 ^ k ≤ 2 ^ 32 - packToAlign sz (2 ^ k) :=
      Nat.le_of_dvd (by omega) (Nat.dvd_sub hdvd h.least.1.1)
    omega
  · intro h
    have hround : Lib.roundUp sz (2 ^ k) ≤ 2 ^ 32 - 2 ^ k :=
      Lib.roundUp_le hpos h (Nat.dvd_sub hdvd dvd_rfl)
    have hfull : packToAlign sz (2 ^ k) = Lib.roundUp sz (2 ^ k) := by
      rw [heq]
      exact Nat.mod_eq_of_lt (by omega)
    refine ⟨?_, ?_, fun n hn => ?_⟩
    · rw [hfull]
      exact Lib.isLeast_roundUp hpos sz
    · rw [hfull, packToAlignSlow_eq hpos (by omega)]
    · have hstart : (packNext sz n (2 ^ k)).1 = Lib.roundUp sz (2 ^ k) := hfull
      have hend : (packNext sz n (2 ^ k)).2 = (Lib.roundUp sz (2 ^ k) + n) % 2 ^ 64 :=
        congrArg (fun start => (start + n) % 2 ^ 64) hfull
      have hge := Lib.le_roundUp hpos sz
      rw [hstart, hend, Nat.mod_eq_of_lt (by omega)]
      exact ⟨Lib.dvd_roundUp _ _, by omega⟩

/-- 37 bytes, in words. -/
theorem pack_to_align_exact_word : PacksExactly 37 (2 ^ 3) :=
  (pack_to_align_exact_iff (by decide) (by decide)).mpr (by decide)

/-- At 4 GiB everything is masked away. -/
theorem pack_to_align_four_gib : ¬ PacksExactly (2 ^ 32) (2 ^ 3) := by
  intro h
  have hle : 2 ^ 32 ≤ packToAlign (2 ^ 32) (2 ^ 3) := h.least.1.2
  revert hle
  decide

end Ucc.Cc1
