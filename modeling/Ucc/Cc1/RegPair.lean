/-
  Cc1/RegPair.lean --- the registers in which a struct is returned.

  Source: x86_overlay_regpair, x86_overlay_regpair_1 and x86_stret in
  src/cc1/out/x86_64.c.

  A type is given as it is after it was laid out, with the size of each struct and
  the offset of each member; nothing is assumed about them.  `x86_overlay_regpair`
  does not look at offsets: it cuts the members into runs that end where 64 bits
  are reached, and takes a register for each run.
-/
import Ucc.Cc1.Call
import Ucc.Cc1.Stack

set_option autoImplicit false

namespace Ucc.Cc1

open Ucc.Cc1.Stack (VReg)

/-! ## Types -/

mutual

/-- The types that a struct can have inside; a scalar is an integer, a pointer, a
`float` or a `double`. -/
inductive RetType where
  | scalar (size : Nat) (floating : Bool)
  | array (elem : RetType) (count : Nat)
  | su (size : Nat) (members : List RetMember)

/-- `decl`, as a member: with `struct_offset` in bytes, and `struct_offset_bitfield`
and `field_width` in bits. -/
inductive RetMember where
  | mk (ref : RetType) (structOffset : Nat) (bitfield : Option (Nat × Nat))

end

/-- `type_size` -/
def RetType.size : RetType → Nat
  | .scalar size _ => size
  | .array elem count => elem.size * count
  | .su size _ => size

/-- `type_is_floating` -/
def RetType.isFloating : RetType → Bool
  | .scalar _ floating => floating
  | .array _ _ => false
  | .su _ _ => false

/-- `mem->ref` -/
def RetMember.ref : RetMember → RetType
  | .mk ref _ _ => ref

/-- The bits that `x86_overlay_regpair` counts for a member: those of a bit-field, or
those of the type. -/
def RetMember.bits : RetMember → Nat
  | .mk _ _ (some (_, width)) => width
  | .mk ref _ none => 8 * ref.size

/-! ## `x86_overlay_regpair` -/

/-- `enum regtype` -/
inductive RegType where
  | none | int | float
  deriving DecidableEq, Repr

/-- `REG_RET_I_1` -/
def regRetI1 : VReg := ⟨0, false⟩

/-- `REG_RET_I_2` -/
def regRetI2 : VReg := ⟨3, false⟩

/-- `REG_RET_F_1` -/
def regRetF1 : VReg := ⟨0, true⟩

/-- `REG_RET_F_2` -/
def regRetF2 : VReg := ⟨1, true⟩

/-- The variables of `x86_overlay_regpair`. -/
structure RegPair where
  regpair : Nat → VReg
  regpairIdx : Nat
  nregs : Nat
  currentSizeBits : Nat
  currentType : RegType

/-- The register that `x86_overlay_regpair_1` takes. -/
def overlayReg (regs : Nat → VReg) (idx : Nat) : RegType → VReg
  | .none | .int => if idx = 0 ∨ (regs 0).isFloat then regRetI1 else regRetI2
  | .float => if idx = 0 ∨ !(regs 0).isFloat then regRetF1 else regRetF2

/-- `x86_overlay_regpair_1`, and `++*nregs` after it. -/
def RegPair.take (st : RegPair) : RegPair :=
  { st with
    regpair := Function.update st.regpair st.regpairIdx
      (overlayReg st.regpair st.regpairIdx st.currentType)
    regpairIdx := st.regpairIdx + 1
    nregs := st.nregs + 1 }

/-- The class of a member. -/
def RetMember.regType (mem : RetMember) : RegType := if mem.ref.isFloating then .float else .int

/-- "floats defer to ints" -/
def RegType.join (current this : RegType) : RegType :=
  if current = .none then this else if this ≠ current then .int else current

/-- The body of the loop; `none` where "too many regpairs" fails. -/
def RegPair.member (st : RegPair) (mem : RetMember) : Option RegPair :=
  let currentType := st.currentType.join mem.regType
  let currentSizeBits := st.currentSizeBits + mem.bits
  -- "hit one eightbyte, decide how we pass this group"
  if 64 ≤ currentSizeBits then
    if st.regpairIdx < 2 then
      let st := RegPair.take { st with currentType }
      some { st with currentType := .none, currentSizeBits := 0 }
    else none
  else some { st with currentType, currentSizeBits }

/-- What follows the loop. -/
def RegPair.finish (st : RegPair) : RegPair := if st.regpairIdx < 2 then st.take else st

/-- `x86_overlay_regpair`; `regpair` is the array of the caller, which has not set it. -/
def x86OverlayRegpair (regpair : Nat → VReg) (members : List RetMember) : Option RegPair :=
  (members.foldlM RegPair.member ⟨regpair, 0, 0, 0, .none⟩).map RegPair.finish

/-! ## The classification of the ABI -/

/-- A scalar inside a type: where it starts, in bits, how long it is, and whether it
is floating. -/
structure RetLeaf where
  start : Nat
  bits : Nat
  floating : Bool
  deriving DecidableEq, Repr

/-- A scalar further behind. -/
def RetLeaf.shift (o : Nat) (l : RetLeaf) : RetLeaf := { l with start := l.start + o }

mutual

/-- The scalars of a type. -/
def RetType.leaves : RetType → List RetLeaf
  | .scalar size floating => [⟨0, 8 * size, floating⟩]
  | .array elem count =>
      (List.range count).flatMap fun i => elem.leaves.map (.shift (8 * elem.size * i))
  | .su _ members => leavesOf members

/-- The scalars of a member; a bit-field is one of its own. -/
def RetMember.leaves : RetMember → List RetLeaf
  | .mk _ structOffset (some (bitOffset, width)) =>
      [⟨8 * structOffset + bitOffset, width, false⟩]
  | .mk ref structOffset none => ref.leaves.map (.shift (8 * structOffset))

/-- The scalars of all members. -/
def leavesOf : List RetMember → List RetLeaf
  | [] => []
  | m :: ms => m.leaves ++ leavesOf ms

end

/-- A scalar has a bit in bytes `8 * k` to `8 * k + 7`. -/
def RetLeaf.Overlaps (l : RetLeaf) (k : Nat) : Prop :=
  0 < l.bits ∧ l.start < 64 * (k + 1) ∧ 64 * k < l.start + l.bits

instance (l : RetLeaf) (k : Nat) : Decidable (l.Overlaps k) :=
  inferInstanceAs (Decidable (_ ∧ _ ∧ _))

/-- Every scalar in an eightbyte is floating. -/
def RetType.Sse (t : RetType) (k : Nat) : Prop := ∀ l ∈ t.leaves, l.Overlaps k → l.floating = true

instance (t : RetType) (k : Nat) : Decidable (t.Sse k) :=
  inferInstanceAs (Decidable (∀ l ∈ t.leaves, l.Overlaps k → l.floating = true))

/-- The number of eightbytes. -/
def RetType.eightbytes (t : RetType) : Nat := (t.size + 7) / 8

/-- The register of an eightbyte, from the classes: the next one of its class. -/
def retReg (sse : Nat → Bool) (k : Nat) : VReg :=
  let first := (List.range k).all fun j => sse j != sse k
  if sse k then if first then regRetF1 else regRetF2
  else if first then regRetI1 else regRetI2

/-- The register in which the ABI returns an eightbyte. -/
def RetType.sysvReg (t : RetType) (k : Nat) : VReg := retReg (fun j => decide (t.Sse j)) k

/-! ## Runs -/

/-- The members up to the one that reaches 64 bits, of which `acc` were there before. -/
def firstRun : Nat → List RetMember → List RetMember
  | _, [] => []
  | acc, m :: ms => m :: if 64 ≤ acc + m.bits then [] else firstRun (acc + m.bits) ms

/-- The members behind them. -/
def afterRun : Nat → List RetMember → List RetMember
  | _, [] => []
  | acc, m :: ms => if 64 ≤ acc + m.bits then ms else afterRun (acc + m.bits) ms

/-- The bits of members. -/
def memberBits (ms : List RetMember) : Nat := (ms.map RetMember.bits).sum

/-- What is left after `k` runs. -/
def afterRuns : Nat → List RetMember → List RetMember
  | 0, ms => ms
  | k + 1, ms => afterRuns k (afterRun 0 ms)

/-- A run of floating scalars; not the empty one. -/
def FloatRun (run : List RetMember) : Prop := run ≠ [] ∧ ∀ m ∈ run, m.ref.isFloating = true

instance (run : List RetMember) : Decidable (FloatRun run) :=
  inferInstanceAs (Decidable (_ ∧ ∀ m ∈ run, _))

/-- The members for which the register `k` is taken. -/
def runOf (ms : List RetMember) (k : Nat) : List RetMember := firstRun 0 (afterRuns k ms)

/-- The registers, by the classes of the runs. -/
def runReg (ms : List RetMember) (k : Nat) : VReg :=
  retReg (fun j => decide (FloatRun (runOf ms j))) k

/-- The class of a run, after some members of it. -/
def joinRun (current : RegType) (run : List RetMember) : RegType :=
  run.foldl (fun c m => c.join m.regType) current

theorem memberBits_nil : memberBits [] = 0 := rfl

theorem memberBits_cons (m : RetMember) (ms : List RetMember) :
    memberBits (m :: ms) = m.bits + memberBits ms := by
  simp [memberBits]

theorem firstRun_of_short {acc : Nat} {ms : List RetMember} (h : acc + memberBits ms < 64) :
    firstRun acc ms = ms := by
  induction ms generalizing acc with
  | nil => rfl
  | cons m ms ih =>
    rw [memberBits_cons] at h
    have hm : ¬ 64 ≤ acc + m.bits := by omega
    rw [firstRun, if_neg hm, ih (by omega)]

theorem afterRun_of_short {acc : Nat} {ms : List RetMember} (h : acc + memberBits ms < 64) :
    afterRun acc ms = [] := by
  induction ms generalizing acc with
  | nil => rfl
  | cons m ms ih =>
    rw [memberBits_cons] at h
    have hm : ¬ 64 ≤ acc + m.bits := by omega
    rw [afterRun, if_neg hm, ih (by omega)]

/-- A run takes 64 bits at least. -/
theorem memberBits_afterRun {acc : Nat} {ms : List RetMember} (hacc : acc < 64)
    (h : 64 ≤ acc + memberBits ms) : 64 + memberBits (afterRun acc ms) ≤ acc + memberBits ms := by
  induction ms generalizing acc with
  | nil =>
    rw [memberBits_nil] at h
    omega
  | cons m ms ih =>
    rw [memberBits_cons] at h ⊢
    rw [afterRun]
    split
    · omega
    · have hrest := @ih (acc + m.bits) (by omega) (by omega)
      omega

/-- So does one that leaves 64 bits. -/
theorem memberBits_of_afterRun {ms : List RetMember} (h : 64 ≤ memberBits (afterRun 0 ms)) :
    64 + memberBits (afterRun 0 ms) ≤ memberBits ms := by
  have hlong : 64 ≤ 0 + memberBits ms := by
    by_contra hlt
    rw [afterRun_of_short (not_le.1 hlt), memberBits_nil] at h
    omega
  simpa using memberBits_afterRun (by omega) hlong

/-- A run is floating if all of its members are. -/
theorem joinRun_float_iff {current : RegType} {run : List RetMember} :
    joinRun current run = .float ↔
      (current = .float ∨ (current = .none ∧ run ≠ [])) ∧ ∀ m ∈ run, m.ref.isFloating = true := by
  induction run generalizing current with
  | nil => simp [joinRun]
  | cons m run ih =>
    have hstep : joinRun current (m :: run) = joinRun (current.join m.regType) run := rfl
    rw [hstep, ih]
    cases hm : m.ref.isFloating <;> cases current <;>
      simp [RegType.join, RetMember.regType, hm]

/-! ## The loop -/

section Loop

variable {st : RegPair} {ms : List RetMember}

/-- Members that do not reach 64 bits. -/
theorem foldlM_short (h : st.currentSizeBits + memberBits ms < 64) :
    ms.foldlM RegPair.member st = some { st with
      currentType := joinRun st.currentType ms
      currentSizeBits := st.currentSizeBits + memberBits ms } := by
  induction ms generalizing st with
  | nil => rfl
  | cons m ms ih =>
    rw [memberBits_cons] at h
    have hm : ¬ 64 ≤ st.currentSizeBits + m.bits := by omega
    rw [List.foldlM_cons]
    simp only [RegPair.member, if_neg hm, Option.bind_eq_bind, Option.bind_some]
    rw [ih (by simp only; omega), memberBits_cons, Nat.add_assoc]
    rfl

/-- Members that reach 64 bits, and what comes after them. -/
theorem foldlM_run (hst : st.currentSizeBits < 64)
    (h : 64 ≤ st.currentSizeBits + memberBits ms) :
    ms.foldlM RegPair.member st =
      if st.regpairIdx < 2 then
        (afterRun st.currentSizeBits ms).foldlM RegPair.member
          { RegPair.take { st with
              currentType := joinRun st.currentType (firstRun st.currentSizeBits ms) } with
            currentType := .none
            currentSizeBits := 0 }
      else none := by
  induction ms generalizing st with
  | nil =>
    rw [memberBits_nil] at h
    omega
  | cons m ms ih =>
    rw [memberBits_cons] at h
    rw [List.foldlM_cons]
    by_cases hm : 64 ≤ st.currentSizeBits + m.bits
    · by_cases hidx : st.regpairIdx < 2
      · simp only [RegPair.member, firstRun, afterRun, if_pos hm, if_pos hidx,
          Option.bind_eq_bind, Option.bind_some]
        rfl
      · simp only [RegPair.member, if_pos hm, if_neg hidx]
        rfl
    · simp only [RegPair.member, if_neg hm, Option.bind_eq_bind, Option.bind_some]
      rw [ih (by simp only; omega) (by simp only; omega)]
      simp only [firstRun, afterRun, if_neg hm]
      rfl

end Loop

/-! ## What is returned -/

theorem retReg_isFloat (sse : Nat → Bool) (k : Nat) : (retReg sse k).isFloat = sse k := by
  unfold retReg
  cases sse k
  · simp only [Bool.false_eq_true, if_false]
    split <;> rfl
  · simp only [if_true]
    split <;> rfl

theorem retReg_congr {sse sse' : Nat → Bool} {k : Nat} (h : ∀ j ≤ k, sse j = sse' j) :
    retReg sse k = retReg sse' k := by
  have hall : (List.range k).all (fun j => sse j != sse' k) =
      (List.range k).all fun j => sse' j != sse' k := by
    rw [Bool.eq_iff_iff, List.all_eq_true, List.all_eq_true]
    refine forall₂_congr fun j hj => ?_
    rw [h j (List.mem_range.1 hj).le]
  simp only [retReg, h k le_rfl, hall]

theorem joinRun_none_iff {run : List RetMember} : joinRun .none run = .float ↔ FloatRun run := by
  rw [joinRun_float_iff, FloatRun]
  simp

section Spec

variable {regpair : Nat → VReg} {ms : List RetMember}

/-- The first register, by the class of the first run. -/
theorem overlayReg_zero (regs : Nat → VReg) :
    overlayReg regs 0 (joinRun .none (runOf ms 0)) = runReg ms 0 := by
  by_cases h : FloatRun (runOf ms 0)
  · rw [joinRun_none_iff.2 h]
    simp [overlayReg, runReg, retReg, h]
  · have hne : joinRun .none (runOf ms 0) ≠ .float := fun hf => h (joinRun_none_iff.1 hf)
    cases hc : joinRun .none (runOf ms 0) <;> simp_all [overlayReg, runReg, retReg]

/-- The second register, by the classes of both. -/
theorem overlayReg_one {regs : Nat → VReg} (h0 : regs 0 = runReg ms 0) :
    overlayReg regs 1 (joinRun .none (runOf ms 1)) = runReg ms 1 := by
  have hfloat : (regs 0).isFloat = decide (FloatRun (runOf ms 0)) := by
    rw [h0]
    exact retReg_isFloat _ 0
  by_cases h : FloatRun (runOf ms 1)
  · rw [joinRun_none_iff.2 h]
    simp [overlayReg, runReg, retReg, h, hfloat]
  · have hne : joinRun .none (runOf ms 1) ≠ .float := fun hf => h (joinRun_none_iff.1 hf)
    cases hc : joinRun .none (runOf ms 1) <;> simp_all [overlayReg, runReg, retReg]

/-- The state after the first run, if 64 bits are reached. -/
def afterFirst (regpair : Nat → VReg) (ms : List RetMember) : RegPair :=
  ⟨Function.update regpair 0 (runReg ms 0), 1, 1, 0, .none⟩

/-- The state after the second. -/
def afterSecond (regpair : Nat → VReg) (ms : List RetMember) : RegPair :=
  ⟨Function.update (Function.update regpair 0 (runReg ms 0)) 1 (runReg ms 1), 2, 2, 0, .none⟩

theorem foldlM_first (h : 64 ≤ memberBits ms) :
    ms.foldlM RegPair.member ⟨regpair, 0, 0, 0, .none⟩ =
      (afterRuns 1 ms).foldlM RegPair.member (afterFirst regpair ms) := by
  rw [foldlM_run (by simp only; omega) (by simpa using h), if_pos (by simp)]
  simp only [RegPair.take, afterFirst, ← overlayReg_zero regpair]
  rfl

theorem foldlM_second (h : 64 ≤ memberBits (afterRuns 1 ms)) :
    (afterRuns 1 ms).foldlM RegPair.member (afterFirst regpair ms) =
      (afterRuns 2 ms).foldlM RegPair.member (afterSecond regpair ms) := by
  have h0 : (afterFirst regpair ms).regpair 0 = runReg ms 0 := by simp [afterFirst]
  rw [foldlM_run (by simp [afterFirst]) (by simpa [afterFirst] using h),
    if_pos (by simp [afterFirst])]
  simp only [RegPair.take, afterSecond, ← overlayReg_one h0]
  rfl

theorem x86OverlayRegpair_of_short (h : memberBits ms < 64) :
    ∃ r, x86OverlayRegpair regpair ms = some r ∧ r.nregs = 1 ∧ r.regpair 0 = runReg ms 0 := by
  have hshort : 0 + memberBits (afterRuns 0 ms) < 64 := by simpa [afterRuns] using h
  have hrun : runOf ms 0 = ms := firstRun_of_short hshort
  refine ⟨_, by rw [x86OverlayRegpair, foldlM_short hshort]; rfl, rfl, ?_⟩
  rw [← overlayReg_zero regpair, hrun]
  simp [RegPair.finish, RegPair.take]

theorem x86OverlayRegpair_of_first (h0 : 64 ≤ memberBits ms)
    (h1 : memberBits (afterRuns 1 ms) < 64) :
    ∃ r, x86OverlayRegpair regpair ms = some r ∧ r.nregs = 2 ∧ r.regpair 0 = runReg ms 0 ∧
      r.regpair 1 = runReg ms 1 := by
  have hshort : 0 + memberBits (afterRuns 1 ms) < 64 := by simpa using h1
  have hrun : runOf ms 1 = afterRuns 1 ms := firstRun_of_short hshort
  have hreg : (afterFirst regpair ms).regpair 0 = runReg ms 0 := by simp [afterFirst]
  refine ⟨_, by rw [x86OverlayRegpair, foldlM_first h0, foldlM_short hshort]; rfl, rfl, ?_, ?_⟩
  · simp [RegPair.finish, RegPair.take, afterFirst]
  · rw [← overlayReg_one hreg, hrun]
    simp [RegPair.finish, RegPair.take, afterFirst]

theorem x86OverlayRegpair_of_second (h0 : 64 ≤ memberBits ms)
    (h1 : 64 ≤ memberBits (afterRuns 1 ms)) (h2 : memberBits (afterRuns 2 ms) < 64) :
    ∃ r, x86OverlayRegpair regpair ms = some r ∧ r.nregs = 2 ∧ r.regpair 0 = runReg ms 0 ∧
      r.regpair 1 = runReg ms 1 := by
  have hshort : 0 + memberBits (afterRuns 2 ms) < 64 := by simpa using h2
  refine ⟨_, by rw [x86OverlayRegpair, foldlM_first h0, foldlM_second h1, foldlM_short hshort]; rfl,
    rfl, ?_, ?_⟩
  · simp [RegPair.finish, afterSecond]
  · simp [RegPair.finish, afterSecond]

/-- The registers are taken by runs. -/
theorem x86OverlayRegpair_some (h : memberBits (afterRuns 2 ms) < 64) :
    ∃ r, x86OverlayRegpair regpair ms = some r ∧
      r.nregs = (if memberBits ms < 64 then 1 else 2) ∧
      ∀ k < r.nregs, r.regpair k = runReg ms k := by
  by_cases h0 : memberBits ms < 64
  · obtain ⟨r, hr, hn, h0'⟩ := @x86OverlayRegpair_of_short regpair ms h0
    refine ⟨r, hr, by rw [hn, if_pos h0], fun k hk => ?_⟩
    obtain rfl : k = 0 := by omega
    exact h0'
  · have htwo : ∃ r, x86OverlayRegpair regpair ms = some r ∧ r.nregs = 2 ∧
        r.regpair 0 = runReg ms 0 ∧ r.regpair 1 = runReg ms 1 := by
      by_cases h1 : memberBits (afterRuns 1 ms) < 64
      · exact x86OverlayRegpair_of_first (not_lt.1 h0) h1
      · exact x86OverlayRegpair_of_second (not_lt.1 h0) (not_lt.1 h1) h
    obtain ⟨r, hr, hn, h0', h1'⟩ := htwo
    refine ⟨r, hr, by rw [hn, if_neg h0], fun k hk => ?_⟩
    obtain rfl | rfl : k = 0 ∨ k = 1 := by omega
    · exact h0'
    · exact h1'

/-- Three runs of 64 bits are too many. -/
theorem x86OverlayRegpair_none (h : 64 ≤ memberBits (afterRuns 2 ms)) :
    x86OverlayRegpair regpair ms = none := by
  have h1 : 64 ≤ memberBits (afterRuns 1 ms) := le_of_add_le_left (memberBits_of_afterRun h)
  have h0 : 64 ≤ memberBits ms := le_of_add_le_left (memberBits_of_afterRun h1)
  rw [x86OverlayRegpair, foldlM_first h0, foldlM_second h1,
    foldlM_run (by simp [afterSecond]) (by simpa [afterSecond] using h)]
  simp [afterSecond]

end Spec

/-- Members that do not overlap never have three runs: a struct is no larger than 16
bytes here. -/
theorem memberBits_afterRuns_two {ms : List RetMember} (h : memberBits ms ≤ 128) :
    memberBits (afterRuns 2 ms) < 64 := by
  by_contra hge
  have h2 : 64 + memberBits (afterRuns 2 ms) ≤ memberBits (afterRuns 1 ms) :=
    memberBits_of_afterRun (not_lt.1 hge)
  have h1 : 64 + memberBits (afterRuns 1 ms) ≤ memberBits ms :=
    memberBits_of_afterRun (le_of_add_le_left h2)
  omega

/-! ## Against the ABI -/

/-- The registers are those of the ABI. -/
def ReturnsLikeSysV (regpair : Nat → VReg) (size : Nat) (members : List RetMember) : Prop :=
  ∃ r, x86OverlayRegpair regpair members = some r ∧
    r.nregs = (RetType.su size members).eightbytes ∧
    ∀ k < (RetType.su size members).eightbytes, r.regpair k = (RetType.su size members).sysvReg k

/-- The runs stand for the eightbytes. -/
structure RunsMatch (size : Nat) (members : List RetMember) : Prop where
  /-- there are as many: 8 bytes without padding make a second run, and padding can
  keep 16 bytes within one -/
  count : size ≤ 8 ↔ memberBits members < 64
  /-- 64 bits are not reached three times, as they can be in a union -/
  two : memberBits (afterRuns 2 members) < 64
  /-- the run of a floating eightbyte has no aggregate, and no integer from behind the
  padding, and is not empty -/
  floating : ∀ k < (RetType.su size members).eightbytes,
    (RetType.su size members).Sse k → FloatRun (runOf members k)
  /-- no integer that an earlier run has counted is in the eightbyte of a floating run -/
  integer : ∀ k < (RetType.su size members).eightbytes,
    FloatRun (runOf members k) → (RetType.su size members).Sse k

/-- `x86_overlay_regpair` gives a struct or union of up to 16 bytes the registers of the
ABI exactly if its runs stand for the eightbytes. -/
theorem overlay_regpair_sysv_iff (regpair : Nat → VReg) (size : Nat) (members : List RetMember)
    (hpos : 1 ≤ size) (hsize : size ≤ 16) :
    ReturnsLikeSysV regpair size members ↔ RunsMatch size members := by
  have hcount : (RetType.su size members).eightbytes = (size + 7) / 8 := rfl
  constructor
  · rintro ⟨r, hr, hn, hregs⟩
    have htwo : memberBits (afterRuns 2 members) < 64 := by
      by_contra hge
      rw [x86OverlayRegpair_none (not_lt.1 hge)] at hr
      cases hr
    obtain ⟨r', hr', hn', hruns⟩ := @x86OverlayRegpair_some regpair members htwo
    obtain rfl : r' = r := Option.some.inj (hr'.symm.trans hr)
    have hclass : ∀ k < (RetType.su size members).eightbytes,
        ((RetType.su size members).Sse k ↔ FloatRun (runOf members k)) := by
      intro k hk
      have hfloat : (runReg members k).isFloat = ((RetType.su size members).sysvReg k).isFloat := by
        rw [← hruns k (hn ▸ hk), hregs k hk]
      rw [runReg, RetType.sysvReg, retReg_isFloat, retReg_isFloat] at hfloat
      exact (decide_eq_decide.1 hfloat).symm
    refine ⟨?_, htwo, fun k hk => (hclass k hk).1, fun k hk => (hclass k hk).2⟩
    rw [hn, hcount] at hn'
    split at hn'
    · omega
    · omega
  · rintro ⟨hcnt, htwo, hfloat, hint⟩
    obtain ⟨r, hr, hn, hruns⟩ := @x86OverlayRegpair_some regpair members htwo
    have hn' : r.nregs = (RetType.su size members).eightbytes := by
      rw [hn, hcount]
      split
      · omega
      · omega
    refine ⟨r, hr, hn', fun k hk => ?_⟩
    rw [hruns k (hn' ▸ hk)]
    exact retReg_congr fun j hj => decide_eq_decide.2 ⟨hint j (by omega), hfloat j (by omega)⟩

/-- `struct { double d; float f; }` is returned in `xmm0` and `xmm1`. -/
theorem overlay_regpair_sysv_double_float :
    ReturnsLikeSysV (fun _ => regRetI1) 16
      [.mk (.scalar 8 true) 0 none, .mk (.scalar 4 true) 8 none] := by
  refine (overlay_regpair_sysv_iff _ 16 _ (by decide) (by decide)).2 ⟨?_, ?_, ?_, ?_⟩
  · decide
  · exact memberBits_afterRuns_two (by decide)
  · decide
  · decide

/-- `struct { int i; double d; }` is returned in `rax` and `rdx`, although the second
eightbyte holds a `double` only. -/
theorem overlay_regpair_int_double :
    (x86OverlayRegpair (fun _ => regRetI1)
      [.mk (.scalar 4 false) 0 none, .mk (.scalar 8 true) 8 none]).map
        (fun r => (r.nregs, r.regpair 0, r.regpair 1)) = some (2, regRetI1, regRetI2) ∧
    (RetType.su 16 [.mk (.scalar 4 false) 0 none, .mk (.scalar 8 true) 8 none]).sysvReg 1 =
      regRetF1 ∧
    ¬ ReturnsLikeSysV (fun _ => regRetI1) 16
      [.mk (.scalar 4 false) 0 none, .mk (.scalar 8 true) 8 none] := by
  have hcode : (x86OverlayRegpair (fun _ => regRetI1)
      [.mk (.scalar 4 false) 0 none, .mk (.scalar 8 true) 8 none]).map
        (fun r => (r.nregs, r.regpair 0, r.regpair 1)) = some (2, regRetI1, regRetI2) := by
    decide
  have habi : (RetType.su 16
      [.mk (.scalar 4 false) 0 none, .mk (.scalar 8 true) 8 none]).sysvReg 1 = regRetF1 := by
    decide
  refine ⟨hcode, habi, ?_⟩
  rintro ⟨r, hr, -, hregs⟩
  rw [hr] at hcode
  have h1 : r.regpair 1 = regRetI2 := congrArg (fun x => x.2.2) (Option.some.inj hcode)
  rw [hregs 1 (by decide), habi] at h1
  exact absurd h1 (by decide)

end Ucc.Cc1
