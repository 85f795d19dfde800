/-
  Cc1/Overlap.lean --- when the members of a struct do not overlap.

  Source: src/cc1/fold_sue.c.

  `fold_sue` reserves storage for a unit of bit-fields when it meets the first
  of them, from that field's width alone and rounded down to the size of an
  integer type.  The bit-fields that join the unit do not make it larger.  Only
  padding can then keep what follows off the unit's bits: `int a:20; char c;`
  reserves two bytes for `a`, and `c` lies on its last four bits.

  `Fits` states the storage side of this in unbounded arithmetic: a unit ends
  before the storage after it starts.  The main theorem is that a struct is free
  of overlap exactly when its storage fits and its size is a 32-bit number.
-/
import Ucc.Cc1.Storage

set_option autoImplicit false

namespace Ucc.Cc1

open Ucc.Lib

/-! ## Storage in unbounded arithmetic -/

/-- The offset after an action. -/
def Act.next (o : Nat) : Act → Nat
  | .none => o
  | .extend _ fill => roundUp o fill
  | .unit before reserve _ fill => roundUp (roundUp (roundUp o before) reserve + reserve) fill
  | .member align size => roundUp o align + size

/-- The offset after a list of actions. -/
def endOf (o : Nat) (as : List Act) : Nat := as.foldl Act.next o

/-- Storage starts only where the bits before it have ended.  `top` is the end of
the bits used so far, and `size` gives the size of the struct from its last
offset. -/
def Fits (size : Nat → Nat) : Nat → Nat → List Act → Prop
  | o, top, [] => top ≤ 8 * size o
  | o, top, .none :: as => Fits size o top as
  | o, top, .extend bits fill :: as => Fits size (roundUp o fill) (top + bits) as
  | o, top, .unit before reserve bits fill :: as =>
      let start := roundUp (roundUp o before) reserve
      top ≤ 8 * start ∧ Fits size (roundUp (start + reserve) fill) (8 * start + bits) as
  | o, top, .member align bytes :: as =>
      let start := roundUp o align
      if bytes = 0 then Fits size start top as
      else top ≤ 8 * start ∧ Fits size (start + bytes) (8 * (start + bytes)) as

/-- The size of a struct that ends at `o`, from the alignment of its members and
its own. -/
def sizeAt (align align' o : Nat) : Nat := roundUp (roundUp o align) align'

/-! ## Machine arithmetic and unbounded arithmetic -/

/-- A power of two up to `2 ^ n`. -/
def IsPow (n a : Nat) : Prop := ∃ k ≤ n, a = 2 ^ k

theorem IsPow.pos {n a : Nat} (h : IsPow n a) : 0 < a := by
  obtain ⟨k, -, rfl⟩ := h
  exact Nat.two_pow_pos k

theorem IsPow.mono {m n a : Nat} (h : IsPow m a) (hmn : m ≤ n) : IsPow n a := by
  obtain ⟨k, hk, rfl⟩ := h
  exact ⟨k, hk.trans hmn, rfl⟩

theorem IsPow.one (n : Nat) : IsPow n 1 := ⟨0, Nat.zero_le n, rfl⟩

theorem IsPow.dvd {a : Nat} (h : IsPow 30 a) : a ∣ 2 ^ 32 := by
  obtain ⟨k, hk, rfl⟩ := h
  exact Nat.pow_dvd_pow 2 (by omega)

theorem IsPow.le {n a : Nat} (h : IsPow n a) : a ≤ 2 ^ n := by
  obtain ⟨k, hk, rfl⟩ := h
  exact Nat.pow_le_pow_right (by omega) hk

theorem IsPow.max {n a b : Nat} (ha : IsPow n a) (hb : b = 0 ∨ IsPow n b) :
    IsPow n (max a b) := by
  rcases hb with rfl | hb
  · simpa using ha
  · rcases le_total a b with h | h
    · rwa [max_eq_right h]
    · rwa [max_eq_left h]

theorem Align.isPow (a : Align) : IsPow 30 a.bytes := ⟨a.log, a.le, rfl⟩

theorem BfType.size_isPow (ty : BfType) : IsPow 3 ty.size := ⟨ty.sizeLog, ty.le, rfl⟩

/-- Up to the end of the 32-bit range, rounding stays within it. -/
theorem IsPow.roundUp_le {a o : Nat} (ha : IsPow 30 a) (ho : o ≤ 2 ^ 32) :
    roundUp o a ≤ 2 ^ 32 :=
  Lib.roundUp_le ha.pos ho ha.dvd

/-- The next multiple after one below `2 ^ 32`. -/
theorem add_le_of_dvd {s a : Nat} (hs : s < 2 ^ 32) (hsa : a ∣ s) (ha : a ∣ 2 ^ 32) :
    s + a ≤ 2 ^ 32 := by
  have hdvd : a ∣ 2 ^ 32 - s := Nat.dvd_sub ha hsa
  have hle := Nat.le_of_dvd (by omega) hdvd
  omega

theorem packToAlign_isPow {o a : Nat} (ho : o < 2 ^ 33) (ha : IsPow 30 a) :
    packToAlign o a = roundUp o a % 2 ^ 32 := by
  obtain ⟨k, hk, rfl⟩ := ha
  exact packToAlign_eq (by omega) (by omega)

theorem finishTo_eq {o m : Nat} (ho : o ≤ 2 ^ 33) (hm : IsPow 3 m) :
    finishTo o m = roundUp o m := by
  have hpos := hm.pos
  have hle := hm.le
  have hlt := Nat.mod_lt o hpos
  unfold finishTo
  split
  · rename_i hmod
    rw [Nat.mod_eq_of_lt (by omega)]
    refine (roundUp_eq hpos (by omega) ?_ (by omega)).symm
    have hdiv := Nat.div_add_mod o m
    refine ⟨o / m + 1, ?_⟩
    rw [Nat.mul_add, Nat.mul_one]
    omega
  · rename_i hmod
    exact (roundUp_eq_self hpos (Nat.dvd_of_mod_eq_zero (not_not.mp hmod))).symm

/-- The actions of members round to powers of two. -/
def Act.Pow : Act → Prop
  | .none => True
  | .extend _ fill => IsPow 3 fill
  | .unit before reserve _ fill => IsPow 3 before ∧ IsPow 3 reserve ∧ IsPow 3 fill
  | .member align size => IsPow 30 align ∧ size < 2 ^ 32

theorem effectiveAlign_isPow (packed : Bool) (a : Align) :
    IsPow 30 (effectiveAlign packed a.bytes) := by
  cases packed with
  | true => exact IsPow.one 30
  | false => exact a.isPow

theorem Ctl.masterSize_isPow (c : Ctl) : IsPow 3 c.masterSize := by
  unfold Ctl.masterSize
  split
  · exact IsPow.one 3
  · exact BfType.size_isPow _

theorem Ctl.act_pow (arch : Arch) (packed : Bool) (c : Ctl) (m : Member) :
    (c.act arch packed m).Pow := by
  unfold Ctl.act
  split
  · rename_i size align lt _
    exact ⟨effectiveAlign_isPow _ align, lt⟩
  · rename_i align _
    exact ⟨effectiveAlign_isPow _ align, by decide⟩
  · rename_i ty bits le _
    split
    · trivial
    · split
      · refine ⟨?_, reserved_pow arch bits, ?_⟩
        · split
          · exact c.masterSize_isPow
          · exact IsPow.one 3
        · split
          · exact ty.size_isPow
          · exact IsPow.one 3
      · show IsPow 3 _
        split
        · exact c.masterSize_isPow
        · exact IsPow.one 3

theorem Ctl.Ok.next {c : Ctl} (h : c.Ok) (m : Member) : (c.next m).Ok := by
  obtain ⟨hoff, hlimit⟩ := h
  unfold Ctl.next
  split
  · exact ⟨.inl rfl, hlimit⟩
  · exact ⟨.inl rfl, hlimit⟩
  · rename_i ty bits le _
    split
    · exact ⟨hoff, hlimit⟩
    · split
      · refine ⟨?_, rfl⟩
        dsimp only
        split
        · exact .inl rfl
        · exact .inr (by omega)
      · rename_i hopen
        simp only [Ctl.opens, Bool.or_eq_true, decide_eq_true_eq, not_or, not_lt,
          beq_iff_eq] at hopen
        refine ⟨?_, hlimit⟩
        dsimp only
        split
        · exact .inl rfl
        · exact .inr (by omega)

theorem foldGetMaxAlignAttribute_isPow (aligned : Option Align) {a : Nat} (ha : IsPow 30 a) :
    IsPow 30 (foldGetMaxAlignAttribute aligned a) := by
  cases aligned with
  | none => exact ha
  | some b => exact ha.max (.inr b.isPow)

theorem le_sizeAt {a a' o : Nat} (ha : 0 < a) (ha' : 0 < a') : o ≤ sizeAt a a' o :=
  (le_roundUp ha o).trans (le_roundUp ha' _)

/-- Rounding in 32 bits: right, or 0 when the result does not fit. -/
theorem roundUp_mod {a o : Nat} (ha : IsPow 30 a) (ho : o ≤ 2 ^ 32) :
    roundUp o a % 2 ^ 32 = if roundUp o a < 2 ^ 32 then roundUp o a else 0 := by
  have hle := ha.roundUp_le ho
  split
  · rename_i hlt
    exact Nat.mod_eq_of_lt hlt
  · rename_i hge
    obtain heq : roundUp o a = 2 ^ 32 := by omega
    rw [heq, Nat.mod_self]

/-- The size that `fold_sue` gives to a struct that ends at `n`, or to a union whose
largest member has `n` bytes. -/
theorem foldSueFinish_size {sue : Sue} {st : LayoutState} {n : Nat}
    (hn : (if sue.prim = .struct_ then st.offset else st.szMax) = n)
    (hle : n ≤ 2 ^ 32) (ha : IsPow 30 st.alignMax) :
    (foldSueFinish sue st).1 =
      if sizeAt st.alignMax (foldGetMaxAlignAttribute sue.aligned st.alignMax) n < 2 ^ 32
      then sizeAt st.alignMax (foldGetMaxAlignAttribute sue.aligned st.alignMax) n
      else 0 := by
  have ha' := foldGetMaxAlignAttribute_isPow sue.aligned ha
  generalize hal : foldGetMaxAlignAttribute sue.aligned st.alignMax = a' at ha' ⊢
  have hround := ha.roundUp_le hle
  have hfirst : packToAlign n st.alignMax % 2 ^ 32 = roundUp n st.alignMax % 2 ^ 32 := by
    rw [packToAlign_isPow (by omega) ha, Nat.mod_mod]
  have hdvd : st.alignMax ∣ roundUp n st.alignMax % 2 ^ 32 :=
    (Nat.dvd_mod_iff ha.dvd).mpr (dvd_roundUp _ _)
  have hsecond : packToAlign (roundUp n st.alignMax % 2 ^ 32) st.alignMax % 2 ^ 32 =
      roundUp n st.alignMax % 2 ^ 32 := by
    rw [packToAlign_isPow (by omega) ha, roundUp_eq_self ha.pos hdvd, Nat.mod_mod, Nat.mod_mod]
  have hsize : (foldSueFinish sue st).1 =
      roundUp (roundUp n st.alignMax % 2 ^ 32) a' % 2 ^ 32 := by
    simp only [foldSueFinish, hn, hal]
    rw [hfirst, hsecond, packToAlign_isPow (by omega) ha', Nat.mod_mod]
  rw [hsize, sizeAt]
  by_cases hlt : roundUp n st.alignMax < 2 ^ 32
  · rw [Nat.mod_eq_of_lt hlt, roundUp_mod ha' hlt.le]
  · obtain heq : roundUp n st.alignMax = 2 ^ 32 := by omega
    rw [heq, Nat.mod_self, roundUp_eq_self ha'.pos (dvd_zero _), roundUp_eq_self ha'.pos ha'.dvd]
    simp

/-! ## The loop -/

theorem foldSueLoop_cons {arch : Arch} {prim : SuePrimitive} {packed : Bool}
    {st st' : LayoutState} {m : Member} {ms : List Member} {ps : List Placement}
    (h : foldSueLoop arch prim packed st (m :: ms) = .ok (ps, st')) :
    ∃ p st₁ ps', foldSueMember arch prim packed ms.isEmpty st m = .ok (p, st₁) ∧
      foldSueLoop arch prim packed st₁ ms = .ok (ps', st') ∧ ps = p :: ps' := by
  unfold foldSueLoop at h
  split at h
  · cases h
  · rename_i p st₁ hm
    split at h
    · cases h
    · rename_i ps' st₂ hl
      cases h
      exact ⟨p, st₁, ps', hm, hl, rfl⟩

/-- The bits of the members, in order. -/
def intervals (ps : List Placement) (ms : List Member) : List Interval :=
  List.zipWith Placement.interval ps ms

/-- At an offset that wraps to 0, no further member can follow the bits already
used, and the size comes out as 0. -/
theorem not_chain_of_wrapped {arch : Arch} {sue : Sue} (hs : sue.prim = .struct_)
    {stF : LayoutState} (haF : IsPow 30 stF.alignMax) (ms : List Member) (st : LayoutState)
    (ps : List Placement) (top : Nat) (hok : st.ctl.Ok)
    (ho : st.offset = 0 ∨ st.offset = 2 ^ 32) (htop : 0 < top)
    (h : foldSueLoop arch .struct_ sue.packed st ms = .ok (ps, stF)) :
    ¬ Chain (8 * (foldSueFinish sue stF).1) top (intervals ps ms) := by
  have hround : ∀ {o a : Nat}, o = 0 ∨ o = 2 ^ 32 → IsPow 30 a → roundUp o a = o := by
    rintro o a (rfl | rfl) ha
    · exact roundUp_eq_self ha.pos (dvd_zero _)
    · exact roundUp_eq_self ha.pos ha.dvd
  have hpack : ∀ {o a : Nat}, o = 0 ∨ o = 2 ^ 32 → IsPow 30 a → packToAlign o a = 0 := by
    intro o a ho ha
    rw [packToAlign_isPow (by omega) ha, hround ho ha]
    omega
  induction ms generalizing st ps top with
  | nil =>
    cases h
    have hsize : (foldSueFinish sue stF).1 = 0 := by
      rw [foldSueFinish_size (if_pos hs) (by omega) haF, sizeAt, hround ho haF,
        hround ho (foldGetMaxAlignAttribute_isPow _ haF)]
      split <;> omega
    simp only [intervals, List.zipWith_nil_left, Chain, hsize]
    omega
  | cons m ms ih =>
    obtain ⟨p, st₁, ps', hm, hl, rfl⟩ := foldSueLoop_cons h
    obtain ⟨hctl, -, hruns⟩ := foldSueMember_spec hok hm
    have hok₁ : st₁.ctl.Ok := by rw [hctl]; exact hok.next m
    have hpow := st.ctl.act_pow arch sue.packed m
    have hcons : intervals (p :: ps') (m :: ms) = p.interval m :: intervals ps' ms := rfl
    rw [hcons]
    intro hchain
    unfold Chain at hchain
    cases hact : st.ctl.act arch sue.packed m with
    | none =>
      rw [hact] at hruns
      obtain ⟨hw, hoff, -⟩ := hruns
      rw [if_pos (show (p.interval m).width = 0 from hw)] at hchain
      exact ih st₁ ps' top hok₁ (by rw [hoff]; exact ho) htop hl hchain
    | extend bits fill =>
      rw [hact] at hruns hpow
      obtain ⟨hint, hbits, -, hoff, -⟩ := hruns
      rw [hint, if_neg hbits] at hchain
      have hoff₁ : st₁.offset = st.offset := by
        rw [hoff, finishTo_eq (by omega) hpow, hround ho (hpow.mono (by omega))]
      exact ih st₁ ps' _ hok₁ (by rw [hoff₁]; exact ho) (by omega) hl hchain.2
    | unit before reserve bits fill =>
      rw [hact] at hruns hpow
      obtain ⟨hbefore, hreserve, -⟩ := hpow
      obtain ⟨hint, hbits, -⟩ := hruns
      have hstart : packToAlign (finishTo st.offset before) reserve = 0 := by
        rw [finishTo_eq (by omega) hbefore, hround ho (hbefore.mono (by omega))]
        exact hpack ho (hreserve.mono (by omega))
      rw [hint, hstart, if_neg hbits] at hchain
      have hzero := hchain.1
      simp only [Nat.zero_mod, Nat.mul_zero] at hzero
      omega
    | member align size =>
      rw [hact] at hruns hpow
      obtain ⟨halign, hsize⟩ := hpow
      obtain ⟨hint, hoff, -⟩ := hruns
      rw [hint, hpack ho halign] at hchain
      rw [hpack ho halign] at hoff
      by_cases hz : size = 0
      · subst hz
        rw [if_pos rfl] at hchain
        exact ih st₁ ps' top hok₁ (.inl hoff) htop hl hchain
      · rw [if_neg (by show 8 * size ≠ 0; omega)] at hchain
        have hzero := hchain.1
        simp only [Nat.zero_mod, Nat.mul_zero] at hzero
        omega

theorem Act.le_next {a : Act} (ha : a.Pow) (o : Nat) : o ≤ a.next o := by
  cases a with
  | none => exact le_rfl
  | extend bits fill => exact le_roundUp (IsPow.pos ha) o
  | unit before reserve bits fill =>
    obtain ⟨hbefore, hreserve, hfill⟩ := ha
    calc o ≤ roundUp o before := le_roundUp hbefore.pos o
      _ ≤ roundUp (roundUp o before) reserve := le_roundUp hreserve.pos _
      _ ≤ roundUp (roundUp o before) reserve + reserve := Nat.le_add_right _ _
      _ ≤ _ := le_roundUp hfill.pos _
  | member align size =>
    have hle := le_roundUp ha.1.pos o
    simp only [Act.next]
    omega

theorem le_endOf {as : List Act} (has : ∀ a ∈ as, a.Pow) (o : Nat) : o ≤ endOf o as := by
  induction as generalizing o with
  | nil => exact le_rfl
  | cons a as ih =>
    have hstep := Act.le_next (has a List.mem_cons_self) o
    exact hstep.trans (ih (fun b hb => has b (List.mem_cons_of_mem _ hb)) _)

theorem Ctl.acts_pow (arch : Arch) (packed : Bool) (c : Ctl) (ms : List Member) :
    ∀ a ∈ c.acts arch packed ms, a.Pow := by
  induction ms generalizing c with
  | nil => exact fun a ha => nomatch ha
  | cons m ms ih =>
    intro a ha
    rcases List.mem_cons.mp ha with rfl | ha
    · exact c.act_pow arch packed m
    · exact ih (c.next m) a ha

/-- Between two members: `top` is the end of the bits used so far. -/
structure LoopInv (st : LayoutState) (top : Nat) : Prop where
  ok : st.ctl.Ok
  lt : st.offset < 2 ^ 32
  pos : st.offset = 0 ∨ 0 < top
  opened : st.currentOff ≠ 0 → top = 8 * st.firstOff + st.currentOff

theorem foldSueFinish_lt (sue : Sue) (st : LayoutState) : (foldSueFinish sue st).1 < 2 ^ 32 :=
  Nat.mod_lt _ (by decide)

section Turns

variable {arch : Arch} {sue : Sue} {stF : LayoutState} {size : Nat → Nat}

/-- From a point of the loop on, the members lie one after the other exactly when their
storage fits. -/
def ChainFits (arch : Arch) (sue : Sue) (stF : LayoutState) (size : Nat → Nat) (ms : List Member)
    (st : LayoutState) (ps : List Placement) (top : Nat) : Prop :=
  Chain (8 * (foldSueFinish sue stF).1) top (intervals ps ms) ↔
    Fits size st.offset top (st.ctl.acts arch sue.packed ms) ∧
      size (endOf st.offset (st.ctl.acts arch sue.packed ms)) < 2 ^ 32

/-- A turn that comes to `st₁`, with the members `ms` to follow. -/
structure Turn (arch : Arch) (sue : Sue) (stF : LayoutState) (size : Nat → Nat)
    (ms : List Member) (st₁ : LayoutState) (ps : List Placement) : Prop where
  isStruct : sue.prim = .struct_
  alignMax : IsPow 30 stF.alignMax
  grow : ∀ o, o ≤ size o
  ok : st₁.ctl.Ok
  loop : foldSueLoop arch .struct_ sue.packed st₁ ms = .ok (ps, stF)
  rest : ∀ top, LoopInv st₁ top → ChainFits arch sue stF size ms st₁ ps top

/-- What a turn has to show, for the action it takes. -/
def TurnFits (arch : Arch) (sue : Sue) (stF : LayoutState) (size : Nat → Nat) (ms : List Member)
    (st st₁ : LayoutState) (ps : List Placement) (top : Nat) (i : Interval) (a : Act) : Prop :=
  Chain (8 * (foldSueFinish sue stF).1) top (i :: intervals ps ms) ↔
    Fits size st.offset top (a :: st₁.ctl.acts arch sue.packed ms) ∧
      size (endOf st.offset (a :: st₁.ctl.acts arch sue.packed ms)) < 2 ^ 32

variable {m : Member} {ms : List Member} {st st₁ : LayoutState} {ps : List Placement} {top : Nat}
  {p : Placement}

/-- Once the offset leaves the 32-bit range, the size does too. -/
theorem Turn.over (t : Turn arch sue stF size ms st₁ ps) {a : Act}
    (h : 2 ^ 32 ≤ a.next st.offset) :
    ¬ size (endOf st.offset (a :: st₁.ctl.acts arch sue.packed ms)) < 2 ^ 32 := by
  have hend := (le_endOf (st₁.ctl.acts_pow arch sue.packed ms) (a.next st.offset)).trans (t.grow _)
  show ¬ size (endOf (a.next st.offset) _) < 2 ^ 32
  omega

/-- The rest, at the offset that the turn comes to. -/
theorem Turn.rest_at (t : Turn arch sue stF size ms st₁ ps) {o : Nat} (ho : st₁.offset = o)
    (hinv : LoopInv st₁ top) :
    Chain (8 * (foldSueFinish sue stF).1) top (intervals ps ms) ↔
      Fits size o top (st₁.ctl.acts arch sue.packed ms) ∧
        size (endOf o (st₁.ctl.acts arch sue.packed ms)) < 2 ^ 32 := by
  subst ho
  exact t.rest top hinv

/-- The rest, when the offset wraps to 0. -/
theorem Turn.not_chain (t : Turn arch sue stF size ms st₁ ps)
    (ho : st₁.offset = 0 ∨ st₁.offset = 2 ^ 32) (htop : 0 < top) :
    ¬ Chain (8 * (foldSueFinish sue stF).1) top (intervals ps ms) :=
  not_chain_of_wrapped t.isStruct t.alignMax ms st₁ ps top t.ok ho htop t.loop

theorem Turn.fits_none (t : Turn arch sue stF size ms st₁ ps) (hinv : LoopInv st top)
    (hruns : Act.none.Runs st m p st₁) :
    TurnFits arch sue stF size ms st st₁ ps top (p.interval m) .none := by
  obtain ⟨hw, hoff, hfirst, hcur⟩ := hruns
  have hinv₁ : LoopInv st₁ top :=
    ⟨t.ok, by rw [hoff]; exact hinv.lt, by rw [hoff]; exact hinv.pos,
      by rw [hcur, hfirst]; exact hinv.opened⟩
  unfold TurnFits Chain
  rw [if_pos (show (p.interval m).width = 0 from hw)]
  exact t.rest_at hoff hinv₁

theorem Turn.fits_extend (t : Turn arch sue stF size ms st₁ ps) (hinv : LoopInv st top)
    {bits fill : Nat} (hfill : IsPow 3 fill) (hruns : (Act.extend bits fill).Runs st m p st₁) :
    TurnFits arch sue stF size ms st st₁ ps top (p.interval m) (.extend bits fill) := by
  obtain ⟨hint, hbits, hopen, hoff, hfirst, hcur⟩ := hruns
  have htop := hinv.opened hopen
  rw [finishTo_eq (by have := hinv.lt; omega) hfill] at hoff
  have hle : roundUp st.offset fill ≤ 2 ^ 32 :=
    (hfill.mono (by omega)).roundUp_le hinv.lt.le
  unfold TurnFits Chain
  rw [hint, if_neg hbits]
  simp only [← htop, le_refl, true_and]
  by_cases hlt : roundUp st.offset fill < 2 ^ 32
  · have hinv₁ : LoopInv st₁ (top + bits) := by
      refine ⟨t.ok, by rw [hoff]; exact hlt, .inr (by omega), fun hne => ?_⟩
      rw [hfirst]
      omega
    exact t.rest_at hoff hinv₁
  · exact iff_of_false (t.not_chain (.inr (by omega)) (by omega)) fun hfit =>
      t.over (a := .extend bits fill) (not_lt.mp hlt) hfit.2

/-- A unit that would start at the end of the 32-bit range starts at 0. -/
theorem Turn.fits_unit_wrapped (t : Turn arch sue stF size ms st₁ ps) (hinv : LoopInv st top)
    {before reserve bits fill : Nat} (hbefore : IsPow 3 before) (hreserve : IsPow 3 reserve)
    (hfill : IsPow 3 fill) (hint : p.interval m = ⟨0, bits⟩) (hbits : bits ≠ 0)
    (heq : roundUp (roundUp st.offset before) reserve = 2 ^ 32) :
    TurnFits arch sue stF size ms st st₁ ps top (p.interval m)
      (.unit before reserve bits fill) := by
  have htop : 0 < top := hinv.pos.resolve_left fun hzero => by
    rw [hzero, roundUp_eq_self hbefore.pos (dvd_zero _),
      roundUp_eq_self hreserve.pos (dvd_zero _)] at heq
    omega
  unfold TurnFits Chain
  rw [hint, if_neg hbits]
  refine iff_of_false (fun hchain => ?_) fun hfit => t.over ?_ hfit.2
  · have hzero := hchain.1
    simp only at hzero
    omega
  · have hnext := le_roundUp hfill.pos (roundUp (roundUp st.offset before) reserve + reserve)
    simp only [Act.next]
    omega

theorem Turn.fits_unit (t : Turn arch sue stF size ms st₁ ps) (hinv : LoopInv st top)
    {before reserve bits fill : Nat} (hpow : (Act.unit before reserve bits fill).Pow)
    (hruns : (Act.unit before reserve bits fill).Runs st m p st₁) :
    TurnFits arch sue stF size ms st st₁ ps top (p.interval m)
      (.unit before reserve bits fill) := by
  obtain ⟨hbefore, hreserve, hfill⟩ := hpow
  obtain ⟨hint, hbits, hoff, hfirst, hcur⟩ := hruns
  have hle₁ := (hbefore.mono (n := 30) (by omega)).roundUp_le hinv.lt.le
  have hle₂ := (hreserve.mono (n := 30) (by omega)).roundUp_le hle₁
  rw [finishTo_eq (by have := hinv.lt; omega) hbefore,
    packToAlign_isPow (by omega) (hreserve.mono (by omega))] at hoff hfirst hint
  by_cases hlt : roundUp (roundUp st.offset before) reserve < 2 ^ 32
  · rw [Nat.mod_mod, Nat.mod_eq_of_lt hlt] at hfirst hint
    rw [Nat.mod_eq_of_lt hlt] at hoff
    have hend := add_le_of_dvd hlt (dvd_roundUp _ reserve)
      (hreserve.mono (n := 30) (by omega)).dvd
    rw [Nat.mod_eq_of_lt (by omega), finishTo_eq (by omega) hfill] at hoff
    have hle := (hfill.mono (n := 30) (by omega)).roundUp_le hend
    unfold TurnFits Chain
    rw [hint, if_neg hbits]
    simp only [Fits]
    rw [and_assoc]
    refine and_congr_right fun _ => ?_
    by_cases hlt' : roundUp (roundUp (roundUp st.offset before) reserve + reserve) fill < 2 ^ 32
    · have hinv₁ : LoopInv st₁ (8 * roundUp (roundUp st.offset before) reserve + bits) := by
        refine ⟨t.ok, by rw [hoff]; exact hlt', .inr (by omega), fun hne => ?_⟩
        rw [hfirst]
        omega
      exact t.rest_at hoff hinv₁
    · exact iff_of_false (t.not_chain (.inr (by omega)) (by omega)) fun hfit =>
        t.over (a := .unit before reserve bits fill) (not_lt.mp hlt') hfit.2
  · obtain heq : roundUp (roundUp st.offset before) reserve = 2 ^ 32 := by omega
    rw [heq, Nat.mod_self, Nat.zero_mod] at hint
    exact t.fits_unit_wrapped hinv hbefore hreserve hfill hint hbits heq

/-- A member that would start at the end of the 32-bit range starts at 0. -/
theorem Turn.fits_member_wrapped (t : Turn arch sue stF size ms st₁ ps)
    (hinv : LoopInv st top) {align bytes : Nat} (halign : IsPow 30 align) (hbytes : bytes < 2 ^ 32)
    (hint : p.interval m = ⟨0, 8 * bytes⟩) (hoff : st₁.offset = bytes % 2 ^ 64)
    (heq : roundUp st.offset align = 2 ^ 32) :
    TurnFits arch sue stF size ms st st₁ ps top (p.interval m) (.member align bytes) := by
  have htop : 0 < top := hinv.pos.resolve_left fun hzero => by
    rw [hzero, roundUp_eq_self halign.pos (dvd_zero _)] at heq
    omega
  unfold TurnFits Chain
  rw [hint]
  refine iff_of_false (fun hchain => ?_) fun hfit => t.over (a := .member align bytes) ?_ hfit.2
  · split at hchain
    · rename_i hz
      have hz' : 8 * bytes = 0 := hz
      refine t.not_chain (.inl ?_) htop hchain
      rw [hoff]
      omega
    · have hzero := hchain.1
      simp only at hzero
      omega
  · simp only [Act.next]
    omega

theorem Turn.fits_member (t : Turn arch sue stF size ms st₁ ps) (hinv : LoopInv st top)
    {align bytes : Nat} (hpow : (Act.member align bytes).Pow)
    (hruns : (Act.member align bytes).Runs st m p st₁) :
    TurnFits arch sue stF size ms st st₁ ps top (p.interval m) (.member align bytes) := by
  obtain ⟨halign, hbytes⟩ := hpow
  obtain ⟨hint, hoff, hcur⟩ := hruns
  have hle := halign.roundUp_le hinv.lt.le
  rw [packToAlign_isPow (by have := hinv.lt; omega) halign] at hoff hint
  by_cases hlt : roundUp st.offset align < 2 ^ 32
  · rw [Nat.mod_mod, Nat.mod_eq_of_lt hlt] at hint
    rw [Nat.mod_eq_of_lt hlt, Nat.mod_eq_of_lt (by omega)] at hoff
    unfold TurnFits Chain
    rw [hint]
    simp only [Fits]
    by_cases hz : bytes = 0
    · subst hz
      rw [if_pos rfl, if_pos rfl]
      have hinv₁ : LoopInv st₁ top := by
        refine ⟨t.ok, by rw [hoff]; exact hlt, ?_, fun hne => absurd hcur hne⟩
        rcases hinv.pos with hzero | hpos
        · refine .inl ?_
          rw [hoff, hzero, roundUp_eq_self halign.pos (dvd_zero _)]
        · exact .inr hpos
      exact t.rest_at hoff hinv₁
    · rw [if_neg (show 8 * bytes ≠ 0 by omega), if_neg hz, and_assoc]
      refine and_congr_right fun _ => ?_
      rw [← Nat.mul_add]
      by_cases hlt' : roundUp st.offset align + bytes < 2 ^ 32
      · have hinv₁ : LoopInv st₁ (8 * (roundUp st.offset align + bytes)) :=
          ⟨t.ok, by rw [hoff]; exact hlt', .inr (by omega), fun hne => absurd hcur hne⟩
        exact t.rest_at hoff hinv₁
      · refine iff_of_false (fun hchain => ?_) fun hfit =>
          t.over (a := .member align bytes) (not_lt.mp hlt') hfit.2
        have hlim := hchain.le_lim
        have hfin := foldSueFinish_lt sue stF
        omega
  · obtain heq : roundUp st.offset align = 2 ^ 32 := by omega
    rw [heq, Nat.mod_self, Nat.zero_add] at hoff
    rw [heq, Nat.mod_self, Nat.zero_mod] at hint
    exact t.fits_member_wrapped hinv halign hbytes hint hoff heq

theorem Turn.fits (t : Turn arch sue stF size ms st₁ ps) (hinv : LoopInv st top) {a : Act}
    (hpow : a.Pow) (hruns : a.Runs st m p st₁) :
    TurnFits arch sue stF size ms st st₁ ps top (p.interval m) a := by
  cases a with
  | none => exact t.fits_none hinv hruns
  | extend bits fill => exact t.fits_extend hinv hpow hruns
  | unit before reserve bits fill => exact t.fits_unit hinv hpow hruns
  | member align bytes => exact t.fits_member hinv hpow hruns

/-- At the end of the members. -/
theorem chainFits_nil (hs : sue.prim = .struct_) (haF : IsPow 30 stF.alignMax)
    (hsize : size = sizeAt stF.alignMax (foldGetMaxAlignAttribute sue.aligned stF.alignMax))
    (hinv : LoopInv stF top) : ChainFits arch sue stF size [] stF [] top := by
  have haF' := foldGetMaxAlignAttribute_isPow sue.aligned haF
  have hfin := foldSueFinish_size (if_pos hs) hinv.lt.le haF
  rw [← hsize] at hfin
  simp only [ChainFits, intervals, List.zipWith_nil_left, Chain, Ctl.acts, Fits, endOf,
    List.foldl_nil]
  rw [hfin]
  split
  · rename_i hlt
    exact ⟨fun htop => ⟨htop, hlt⟩, fun hfit => hfit.1⟩
  · rename_i hge
    constructor
    · intro htop
      rcases hinv.pos with hzero | hpos
      · rw [hzero, hsize, sizeAt, roundUp_eq_self haF.pos (dvd_zero _),
          roundUp_eq_self haF'.pos (dvd_zero _)] at hge
        omega
      · omega
    · exact fun hfit => absurd hfit.2 hge

/-- From any point of the loop, the members that follow lie one after the other
exactly when their storage fits. -/
theorem chain_iff_fits (hs : sue.prim = .struct_) (haF : IsPow 30 stF.alignMax)
    (hsize : size = sizeAt stF.alignMax (foldGetMaxAlignAttribute sue.aligned stF.alignMax))
    (ms : List Member) (st : LayoutState) (ps : List Placement) (top : Nat)
    (hinv : LoopInv st top)
    (h : foldSueLoop arch .struct_ sue.packed st ms = .ok (ps, stF)) :
    ChainFits arch sue stF size ms st ps top := by
  have haF' := foldGetMaxAlignAttribute_isPow sue.aligned haF
  have hgrow : ∀ o, o ≤ size o := fun o => by
    rw [hsize]
    exact le_sizeAt haF.pos haF'.pos
  induction ms generalizing st ps top with
  | nil =>
    cases h
    exact chainFits_nil hs haF hsize hinv
  | cons m ms ih =>
    obtain ⟨p, st₁, ps', hm, hl, rfl⟩ := foldSueLoop_cons h
    obtain ⟨hctl, -, hruns⟩ := foldSueMember_spec hinv.ok hm
    have hok₁ : st₁.ctl.Ok := by rw [hctl]; exact hinv.ok.next m
    have hturn : Turn arch sue stF size ms st₁ ps' :=
      ⟨hs, haF, hgrow, hok₁, hl, fun top hinv₁ => ih st₁ ps' top hinv₁ hl⟩
    have hacts : st.ctl.acts arch sue.packed (m :: ms) =
        st.ctl.act arch sue.packed m :: st₁.ctl.acts arch sue.packed ms := by
      rw [hctl]
      rfl
    unfold ChainFits
    rw [hacts]
    exact hturn.fits hinv (st.ctl.act_pow arch sue.packed m) hruns

end Turns

/-! ## The alignment of the struct -/

theorem Ctl.alignOf_isPow (packed : Bool) (c : Ctl) (m : Member) :
    c.alignOf packed m = 0 ∨ IsPow 30 (c.alignOf packed m) := by
  unfold Ctl.alignOf
  split
  · rename_i size align lt _
    exact .inr (effectiveAlign_isPow _ align)
  · rename_i align _
    exact .inr (effectiveAlign_isPow _ align)
  · rename_i ty bits le _
    split
    · exact .inr (effectiveAlign_isPow _ ty.align)
    · unfold effectiveAlign
      split
      · exact .inr (IsPow.one 30)
      · exact .inl rfl

theorem foldSueLoop_alignMax {arch : Arch} {packed : Bool} (ms : List Member)
    (st stF : LayoutState) (ps : List Placement) (hok : st.ctl.Ok)
    (ha : IsPow 30 st.alignMax)
    (h : foldSueLoop arch .struct_ packed st ms = .ok (ps, stF)) :
    stF.alignMax = st.ctl.alignMax packed st.alignMax ms ∧ IsPow 30 stF.alignMax := by
  induction ms generalizing st ps with
  | nil =>
    cases h
    exact ⟨rfl, ha⟩
  | cons m ms ih =>
    obtain ⟨p, st₁, ps', hm, hl, rfl⟩ := foldSueLoop_cons h
    obtain ⟨hctl, hal, -⟩ := foldSueMember_spec hok hm
    have hok₁ : st₁.ctl.Ok := by rw [hctl]; exact hok.next m
    have ha₁ : IsPow 30 st₁.alignMax := by
      rw [hal]
      exact ha.max (st.ctl.alignOf_isPow packed m)
    obtain ⟨heq, hpow⟩ := ih st₁ ps' hok₁ ha₁ hl
    rw [hctl, hal] at heq
    exact ⟨heq, hpow⟩

/-! ## Overlap -/

/-- What the members of a struct do to its storage. -/
def Sue.acts (arch : Arch) (sue : Sue) : List Act :=
  Ctl.init.acts arch sue.packed sue.members

/-- The size of a struct whose last member ends at `o`. -/
def Sue.sizeAt (sue : Sue) (o : Nat) : Nat :=
  let align := Ctl.init.alignMax sue.packed 1 sue.members
  Cc1.sizeAt align (foldGetMaxAlignAttribute sue.aligned align) o

/-- Every unit of bit-fields ends before the storage that follows it, and the
struct ends below `2 ^ 32`. -/
def Sue.StorageFits (arch : Arch) (sue : Sue) : Prop :=
  Fits sue.sizeAt 0 0 (sue.acts arch) ∧ sue.sizeAt (endOf 0 (sue.acts arch)) < 2 ^ 32

/-- The bits of the members are disjoint, in the order of declaration, and inside
the struct. -/
def Layout.OverlapFree (l : Layout) (ms : List Member) : Prop :=
  InOrder (8 * l.size) (intervals l.placements ms)

/-- A struct is free of overlap exactly when its storage fits. -/
theorem overlapFree_iff_storageFits {arch : Arch} {sue : Sue} {l : Layout}
    (hs : sue.prim = .struct_) (hl : foldSue arch sue = .ok l) :
    l.OverlapFree sue.members ↔ sue.StorageFits arch := by
  unfold foldSue at hl
  rw [hs] at hl
  split at hl
  · cases hl
  · rename_i ps stF hloop
    cases hl
    obtain ⟨hal, haF⟩ := foldSueLoop_alignMax sue.members .init stF ps Ctl.init_ok
      (IsPow.one 30) hloop
    have hsize : sue.sizeAt =
        Cc1.sizeAt stF.alignMax (foldGetMaxAlignAttribute sue.aligned stF.alignMax) := by
      rw [hal]
      rfl
    have hinv : LoopInv .init 0 :=
      ⟨Ctl.init_ok, by decide, .inl rfl, fun h => absurd rfl h⟩
    rw [Layout.OverlapFree, ← chain_zero_iff]
    exact chain_iff_fits hs haF hsize sue.members .init ps 0 hinv hloop

/-- `int`. -/
def intType : BfType := ⟨2, by decide, intAlign⟩

/-- `struct { int a:20; char c; }`. -/
def twentyBits : Sue :=
  ⟨.struct_, false, none,
    [⟨.bitfield intType 20 (by decide), false⟩, ⟨charKind, false⟩]⟩

/-- `struct { int a:16; char c; }`. -/
def sixteenBits : Sue :=
  ⟨.struct_, false, none,
    [⟨.bitfield intType 16 (by decide), false⟩, ⟨charKind, false⟩]⟩

theorem overlapFree_iff_storageFits_sixteenBits :
    ∃ l, foldSue .bits64 sixteenBits = .ok l ∧
      (l.OverlapFree sixteenBits.members ↔ sixteenBits.StorageFits .bits64) := by
  refine ⟨⟨[⟨0, 0, true, some intType⟩, ⟨2, 0, false, none⟩], 4, 4⟩, by decide, ?_⟩
  exact overlapFree_iff_storageFits rfl (by decide)

/-- The last four bits of `a` lie under `c`. -/
theorem twentyBits_overlap :
    ¬ ∀ (arch : Arch) (sue : Sue) (l : Layout), sue.prim = .struct_ →
      foldSue arch sue = .ok l → l.OverlapFree sue.members := by
  intro hall
  have hfree := hall .bits64 twentyBits
    ⟨[⟨0, 0, true, some intType⟩, ⟨2, 0, false, none⟩], 4, 4⟩ rfl (by decide)
  obtain ⟨hpair, -⟩ := hfree
  have hfirst := (List.pairwise_cons.mp hpair).1 ⟨16, 8⟩ (by decide) 16 (by decide) 16 (by decide)
  exact lt_irrefl _ hfirst

end Ucc.Cc1
