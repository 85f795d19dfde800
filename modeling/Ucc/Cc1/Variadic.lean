/-
  Cc1/Variadic.lean --- reading the extra arguments of a variadic function.

  Source: src/cc1/out/x86_64.c (impl_func_prologue_save_variadic, impl_call),
  src/cc1/ops/__builtin_va.c (fold_va_start, va_arg_gen_read).

  An argument is known by its index in the call.  What a register or a word of
  memory holds is the index of the argument that was put there, or nothing that
  is an argument.
-/
import Ucc.Cc1.Call

set_option autoImplicit false

namespace Ucc.Cc1

/-- A call of a variadic function. -/
structure VaCall where
  fn : FnTy
  extra : List ArgClass
  deriving DecidableEq, Repr

namespace VaCall

variable (c : VaCall)

/-- All arguments of the call. -/
def args : List ArgClass := c.fn.params ++ c.extra

/-- The argument that `impl_call` puts in a place. -/
def held (p : CallerPlace) : Option Nat :=
  (implCall c.fn.stret c.args).findIdx? (· == p)

/-- `%al` at the call: the number of arguments in SSE registers. -/
def al : Nat := min (fpArgs c.args) nCallRegsF

/-- What `impl_func_prologue_save_variadic` writes to the register save area:
the offset, and the register. -/
def saved : List (Nat × CallerPlace) :=
  ((List.range nCallRegsI).filter fun i => intArgs c.fn.params ≤ i).map
      (fun i => (i * wordSize, .reg i)) ++
    if c.al = 0 then []
    else (List.range nCallRegsF).map fun i => ((i * 2 + nCallRegsI) * wordSize, .sse i)

/-- What is read from the register save area. -/
def readSaved (off : Nat) : Option Nat := (c.saved.lookup off).bind c.held

/-- What is read from above the frame pointer. -/
def readAbove (off : Nat) : Option Nat := c.held (.sp (off - 2 * wordSize))

end VaCall

/-- `va_list`, without the pointer to the register save area;
`overflow_arg_area` is an offset from the frame pointer. -/
structure VaList where
  gpOffset : Nat
  fpOffset : Nat
  overflowArgArea : Nat
  deriving DecidableEq, Repr

/-- `fold_va_start` -/
def vaStart (fn : FnTy) : VaList where
  gpOffset := intArgs fn.params * wordSize
  fpOffset := (6 + fpArgs fn.params) * wordSize
  overflowArgArea := wordSize * 2

/-- `va_arg_gen_read`: the argument, and the list after it. -/
def vaArg (c : VaCall) (va : VaList) : ArgClass → Option Nat × VaList
  | .int =>
      if va.gpOffset < 6 * 8 then
        (c.readSaved va.gpOffset, { va with gpOffset := va.gpOffset + wordSize })
      else
        (c.readAbove va.overflowArgArea,
          { va with overflowArgArea := va.overflowArgArea + wordSize })
  | .float =>
      if va.fpOffset < 6 * 8 + 16 * 16 then
        (c.readSaved va.fpOffset, { va with fpOffset := va.fpOffset + 2 * wordSize })
      else
        (c.readAbove va.overflowArgArea,
          { va with overflowArgArea := va.overflowArgArea + wordSize })

/-- A sequence of reads. -/
def vaArgs (c : VaCall) : VaList → List ArgClass → List (Option Nat)
  | _, [] => []
  | va, t :: ts => (vaArg c va t).1 :: vaArgs c (vaArg c va t).2 ts

/-- The list after a sequence of reads. -/
def vaAfter (c : VaCall) : VaList → List ArgClass → VaList
  | va, [] => va
  | va, t :: ts => vaAfter c (vaArg c va t).2 ts

/-- The extra arguments are read back in order. -/
def ReadsBack (c : VaCall) : Prop :=
  vaArgs c (vaStart c.fn) c.extra =
    (List.range' c.fn.params.length c.extra.length).map some

/-! ## One read at a time -/

theorem vaArgs_eq_iff (c : VaCall) (va : VaList) (n : Nat) (ts : List ArgClass) :
    vaArgs c va ts = (List.range' n ts.length).map some ↔
      ∀ pre t post, ts = pre ++ t :: post →
        (vaArg c (vaAfter c va pre) t).1 = some (n + pre.length) := by
  induction ts generalizing va n with
  | nil => simp [vaArgs]
  | cons t ts ih =>
    rw [vaArgs, List.length_cons, List.range'_succ, List.map_cons, List.cons.injEq, ih]
    constructor
    · rintro ⟨hhead, htail⟩ pre t' post hsplit
      cases pre with
      | nil =>
        obtain ⟨rfl, -⟩ := List.cons.inj hsplit
        exact hhead
      | cons u pre =>
        obtain ⟨rfl, hrest⟩ := List.cons.inj hsplit
        rw [vaAfter, htail pre t' post hrest, List.length_cons]
        congr 1
        omega
    · intro h
      refine ⟨h [] t ts rfl, ?_⟩
      intro pre t' post hsplit
      have hread := h (t :: pre) t' post (by rw [hsplit]; rfl)
      rw [vaAfter, List.length_cons] at hread
      rw [hread]
      congr 1
      omega

/-! ## Where an argument is -/

/-- The offset that the first pass has reached after `ni` integers and `nf`
floats. -/
def stackOff (ni nf : Nat) : Nat := (ni - nCallRegsI + (nf - nCallRegsF)) * wordSize

/-- The place of an argument that comes after `ni` integers and `nf` floats. -/
def placeAfter (hidden ni nf : Nat) : ArgClass → CallerPlace
  | .int =>
      if hidden + ni < nCallRegsI then .reg (hidden + ni)
      else if nCallRegsI ≤ ni then .sp (stackOff ni nf)
      else .nowhere
  | .float => if nf < nCallRegsF then .sse nf else .sp (stackOff ni nf)

@[simp] theorem intArgs_append (a b : List ArgClass) :
    intArgs (a ++ b) = intArgs a + intArgs b := List.count_append

@[simp] theorem fpArgs_append (a b : List ArgClass) :
    fpArgs (a ++ b) = fpArgs a + fpArgs b := List.count_append

/-- The two passes, from the counters they have reached. -/
theorem passes_cons (hidden ni nf : Nat) (t : ArgClass) (args : List ArgClass) :
    List.zipWith finalPlace (stackPass ni nf (stackOff ni nf) (t :: args))
        (regPass (hidden + ni) nf (t :: args)) =
      placeAfter hidden ni nf t ::
        List.zipWith finalPlace
          (stackPass (ni + intArgs [t]) (nf + fpArgs [t])
            (stackOff (ni + intArgs [t]) (nf + fpArgs [t])) args)
          (regPass (hidden + (ni + intArgs [t])) (nf + fpArgs [t]) args) := by
  cases t with
  | int =>
    rw [stackPass, regPass, intArgs_int, fpArgs_int, intArgs_nil, fpArgs_nil]
    unfold placeAfter
    by_cases hstk : nCallRegsI ≤ ni
    · have hoff : stackOff ni nf + wordSize = stackOff (ni + 1) nf := by
        unfold stackOff
        rw [← Nat.succ_mul]
        congr 1
        omega
      rw [if_pos hstk, if_neg (by omega), if_neg (by omega), if_pos hstk, hoff]
      rfl
    · have hoff : stackOff ni nf = stackOff (ni + 1) nf := by
        unfold stackOff
        congr 1
        omega
      rw [if_neg hstk, if_neg hstk, hoff]
      split
      · rfl
      · rfl
  | float =>
    rw [stackPass, regPass, intArgs_float, fpArgs_float, intArgs_nil, fpArgs_nil]
    unfold placeAfter
    by_cases hreg : nf < nCallRegsF
    · have hoff : stackOff ni nf = stackOff ni (nf + 1) := by
        unfold stackOff
        congr 1
        omega
      rw [if_neg (by omega), if_pos hreg, if_pos hreg, hoff]
      rfl
    · have hoff : stackOff ni nf + wordSize = stackOff ni (nf + 1) := by
        unfold stackOff
        rw [← Nat.succ_mul]
        congr 1
        omega
      rw [if_pos (by omega), if_neg hreg, if_neg hreg, hoff]
      rfl

theorem passes_get (hidden ni nf : Nat) (pre : List ArgClass) (t : ArgClass)
    (post : List ArgClass) :
    (List.zipWith finalPlace (stackPass ni nf (stackOff ni nf) (pre ++ t :: post))
      (regPass (hidden + ni) nf (pre ++ t :: post)))[pre.length]? =
      some (placeAfter hidden (ni + intArgs pre) (nf + fpArgs pre) t) := by
  induction pre generalizing ni nf with
  | nil =>
    rw [List.nil_append, passes_cons]
    rfl
  | cons u pre ih =>
    rw [List.cons_append, passes_cons, List.length_cons, List.getElem?_cons_succ, ih]
    have hi : ni + intArgs [u] + intArgs pre = ni + intArgs (u :: pre) := by
      rw [Nat.add_assoc, ← intArgs_append, List.singleton_append]
    have hf : nf + fpArgs [u] + fpArgs pre = nf + fpArgs (u :: pre) := by
      rw [Nat.add_assoc, ← fpArgs_append, List.singleton_append]
    rw [hi, hf]

theorem implCall_get (stret : Stret) (pre : List ArgClass) (t : ArgClass) (post : List ArgClass) :
    (implCall stret (pre ++ t :: post))[pre.length]? =
      some (placeAfter stret.hidden (intArgs pre) (fpArgs pre) t) := by
  rw [implCall_eq]
  have h := passes_get stret.hidden 0 0 pre t post
  simpa [stackOff] using h

theorem implCall_length (stret : Stret) (args : List ArgClass) :
    (implCall stret args).length = args.length := by
  have hstk : ∀ (args : List ArgClass) (ni nf off : Nat),
      (stackPass ni nf off args).length = args.length := by
    intro args
    induction args with
    | nil => intros; rfl
    | cons t args ih =>
      intro ni nf off
      cases t <;> (rw [stackPass]; split <;> simp [ih])
  have hreg : ∀ (args : List ArgClass) (ni nf : Nat),
      (regPass ni nf args).length = args.length := by
    intro args
    induction args with
    | nil => intros; rfl
    | cons t args ih =>
      intro ni nf
      cases t <;> simp [regPass, ih]
  rw [implCall_eq, List.length_zipWith, hstk, hreg, Nat.min_self]

/-- No two arguments are put in one place. -/
theorem placeAfter_inj {hidden ni nf ni' nf' : Nat} {t t' : ArgClass}
    (h : placeAfter hidden ni nf t = placeAfter hidden ni' nf' t')
    (hput : placeAfter hidden ni nf t ≠ .nowhere)
    (hle : ni + intArgs [t] ≤ ni' ∧ nf + fpArgs [t] ≤ nf') : False := by
  have hword : 0 < wordSize := by decide
  cases t with
  | int =>
    rw [intArgs_int, intArgs_nil] at hle
    cases t' with
    | int =>
      unfold placeAfter at h hput
      by_cases h1 : hidden + ni < nCallRegsI <;> by_cases h2 : hidden + ni' < nCallRegsI <;>
        by_cases h3 : nCallRegsI ≤ ni <;> by_cases h4 : nCallRegsI ≤ ni' <;>
        simp [h1, h2, h3, h4] at h hput <;> try omega
      unfold stackOff at h
      have := Nat.eq_of_mul_eq_mul_right hword h
      omega
    | float =>
      unfold placeAfter at h hput
      by_cases h1 : hidden + ni < nCallRegsI <;> by_cases h3 : nCallRegsI ≤ ni <;>
        by_cases h4 : nf' < nCallRegsF <;> simp [h1, h3, h4] at h hput
      unfold stackOff at h
      have := Nat.eq_of_mul_eq_mul_right hword h
      omega
  | float =>
    rw [fpArgs_float, fpArgs_nil] at hle
    cases t' with
    | int =>
      unfold placeAfter at h hput
      by_cases h1 : hidden + ni' < nCallRegsI <;> by_cases h3 : nCallRegsI ≤ ni' <;>
        by_cases h4 : nf < nCallRegsF <;> simp [h1, h3, h4] at h
      unfold stackOff at h
      have := Nat.eq_of_mul_eq_mul_right hword h
      omega
    | float =>
      unfold placeAfter at h hput
      by_cases h1 : nf < nCallRegsF <;> by_cases h2 : nf' < nCallRegsF <;>
        simp [h1, h2] at h <;> try omega
      unfold stackOff at h
      have := Nat.eq_of_mul_eq_mul_right hword h
      omega

/-! ## What a place holds -/

section

variable {c : VaCall} {pre post : List ArgClass} {t : ArgClass}

/-- The place of an extra argument. -/
def VaCall.placeOf (c : VaCall) (pre : List ArgClass) (t : ArgClass) : CallerPlace :=
  placeAfter c.fn.stret.hidden (intArgs c.fn.params + intArgs pre)
    (fpArgs c.fn.params + fpArgs pre) t

theorem VaCall.get_extra (h : c.extra = pre ++ t :: post) :
    (implCall c.fn.stret c.args)[c.fn.params.length + pre.length]? = some (c.placeOf pre t) := by
  have hget := implCall_get c.fn.stret (c.fn.params ++ pre) t post
  rw [List.append_assoc, List.length_append, intArgs_append, fpArgs_append] at hget
  unfold VaCall.args
  rw [h]
  exact hget

/-- A place holds an extra argument if and only if it is that argument's. -/
theorem VaCall.held_iff (h : c.extra = pre ++ t :: post) {p : CallerPlace} (hp : p ≠ .nowhere) :
    c.held p = some (c.fn.params.length + pre.length) ↔ p = c.placeOf pre t := by
  have hextra := VaCall.get_extra h
  unfold VaCall.held
  constructor
  · intro hheld
    obtain ⟨hlt, hbeq, -⟩ := List.findIdx?_eq_some_iff_getElem.1 hheld
    rw [List.getElem?_eq_getElem hlt, Option.some.injEq] at hextra
    rw [← hextra]
    exact (eq_of_beq hbeq).symm
  · rintro rfl
    have hlt := (List.getElem?_eq_some_iff.1 hextra).1
    rw [List.findIdx?_eq_some_iff_getElem]
    refine ⟨hlt, ?_, ?_⟩
    · rw [List.getElem?_eq_getElem hlt, Option.some.injEq] at hextra
      rw [hextra]
      exact beq_self_eq_true _
    -- an earlier argument has other counts before it
    intro j hj hsame
    have hjlen : j < c.args.length := by
      rw [← implCall_length c.fn.stret]
      omega
    obtain ⟨pre', t', post', hsplit, hlen⟩ :
        ∃ pre' t' post', c.args = pre' ++ t' :: post' ∧ pre'.length = j :=
      ⟨c.args.take j, c.args[j], c.args.drop (j + 1), by simp,
        List.length_take_of_le (by omega)⟩
    have hget := implCall_get c.fn.stret pre' t' post'
    rw [← hsplit, hlen, List.getElem?_eq_getElem (by omega), Option.some.injEq] at hget
    rw [hget] at hsame
    have heq := eq_of_beq hsame
    have hpre' : pre' ++ [t'] <+: c.args := ⟨post', by simp [hsplit]⟩
    have hpre : c.fn.params ++ pre <+: c.args := ⟨t :: post, by simp [VaCall.args, h]⟩
    have hle : (pre' ++ [t']).length ≤ (c.fn.params ++ pre).length := by
      rw [List.length_append, List.length_append, List.length_singleton, hlen]
      omega
    obtain ⟨rest, hrest⟩ := List.prefix_of_prefix_length_le hpre' hpre hle
    have hi := congrArg intArgs hrest
    have hf := congrArg fpArgs hrest
    simp only [intArgs_append, fpArgs_append] at hi hf
    exact placeAfter_inj heq (by rw [heq]; exact hp) ⟨by omega, by omega⟩

theorem VaCall.mem_saved {off : Nat} {p : CallerPlace} :
    (off, p) ∈ c.saved ↔
      (∃ i < nCallRegsI, intArgs c.fn.params ≤ i ∧ off = i * wordSize ∧ p = .reg i) ∨
      (c.al ≠ 0 ∧ ∃ i < nCallRegsF, off = (i * 2 + nCallRegsI) * wordSize ∧ p = .sse i) := by
  unfold VaCall.saved
  rw [List.mem_append, List.mem_map]
  refine or_congr ?_ ?_
  · simp only [List.mem_filter, List.mem_range, decide_eq_true_eq, Prod.mk.injEq]
    constructor
    · rintro ⟨i, ⟨hi, hni⟩, rfl, rfl⟩
      exact ⟨i, hi, hni, rfl, rfl⟩
    · rintro ⟨i, hi, hni, rfl, rfl⟩
      exact ⟨i, ⟨hi, hni⟩, rfl, rfl⟩
  · split
    · next hal => simp [hal]
    · next hal =>
      simp only [List.mem_map, List.mem_range, Prod.mk.injEq]
      constructor
      · rintro ⟨i, hi, rfl, rfl⟩
        exact ⟨hal, i, hi, rfl, rfl⟩
      · rintro ⟨-, i, hi, rfl, rfl⟩
        exact ⟨i, hi, rfl, rfl⟩

/-- Each offset of the save area is written at most once. -/
theorem VaCall.lookup_saved {off : Nat} {p : CallerPlace} :
    c.saved.lookup off = some p ↔ (off, p) ∈ c.saved := by
  have hmem : ∀ q, c.saved.lookup off = some q → (off, q) ∈ c.saved := by
    intro q hq
    obtain ⟨l₁, l₂, hl, -⟩ := List.lookup_eq_some_iff.1 hq
    rw [hl]
    simp
  refine ⟨hmem p, ?_⟩
  intro hp
  cases hq : c.saved.lookup off with
  | none =>
    have hne := List.lookup_eq_none_iff.1 hq _ hp
    simp at hne
  | some q =>
    have hq := hmem q hq
    rw [VaCall.mem_saved] at hp hq
    unfold nCallRegsI wordSize at hp hq
    rcases hp with ⟨i, hi, -, hoff, rfl⟩ | ⟨-, i, hi, hoff, rfl⟩ <;>
      rcases hq with ⟨j, hj, -, hoff', rfl⟩ | ⟨-, j, hj, hoff', rfl⟩
    · have : i = j := by omega
      rw [this]
    · omega
    · omega
    · have : i = j := by omega
      rw [this]

end

/-! ## The state of the list -/

/-- The list after `ei` integers and `ef` floats, as long as no float has been
read from the stack. -/
def VaCall.listAfter (c : VaCall) (ei ef : Nat) : VaList where
  gpOffset := max (8 * intArgs c.fn.params) (min 48 (8 * (intArgs c.fn.params + ei)))
  fpOffset := 48 + 8 * fpArgs c.fn.params + 16 * ef
  overflowArgArea := 16 + 8 * (ei - (6 - intArgs c.fn.params))

theorem VaCall.listAfter_zero (c : VaCall) : c.listAfter 0 0 = vaStart c.fn := by
  unfold VaCall.listAfter vaStart wordSize
  congr 1 <;> omega

theorem vaArg_int_list (c : VaCall) (ei ef : Nat) :
    (vaArg c (c.listAfter ei ef) .int).2 = c.listAfter (ei + 1) ef := by
  unfold vaArg VaCall.listAfter wordSize
  dsimp only
  split
  · rw [VaList.mk.injEq]
    omega
  · rw [VaList.mk.injEq]
    omega

theorem vaArg_float_list (c : VaCall) (ei ef : Nat)
    (h : 8 * fpArgs c.fn.params + 16 * ef < 256) :
    (vaArg c (c.listAfter ei ef) .float).2 = c.listAfter ei (ef + 1) := by
  unfold vaArg VaCall.listAfter wordSize
  dsimp only
  rw [if_pos (by omega)]
  rfl

theorem vaAfter_list (c : VaCall) (pre : List ArgClass) (ei ef : Nat)
    (h : fpArgs pre = 0 ∨ fpArgs c.fn.params = 0 ∧ ef + fpArgs pre ≤ 8) :
    vaAfter c (c.listAfter ei ef) pre = c.listAfter (ei + intArgs pre) (ef + fpArgs pre) := by
  induction pre generalizing ei ef with
  | nil => rfl
  | cons t pre ih =>
    cases t with
    | int =>
      rw [fpArgs_int] at h ⊢
      rw [vaAfter, vaArg_int_list, ih _ _ h, intArgs_int]
      congr 1
      omega
    | float =>
      rw [fpArgs_float] at h ⊢
      rw [vaAfter, vaArg_float_list c ei ef (by omega), ih _ _ (by omega), intArgs_float]
      congr 1
      omega

/-- The list before an extra argument. -/
theorem vaAfter_start (c : VaCall) (pre : List ArgClass)
    (h : fpArgs pre = 0 ∨ fpArgs c.fn.params = 0 ∧ fpArgs pre ≤ 8) :
    vaAfter c (vaStart c.fn) pre = c.listAfter (intArgs pre) (fpArgs pre) := by
  rw [← VaCall.listAfter_zero, vaAfter_list c pre 0 0 (by omega), Nat.zero_add, Nat.zero_add]

/-! ## Reading one argument -/

section

variable {c : VaCall} {pre post : List ArgClass}

/-- An integer that is read from the save area. -/
theorem readInt_saved (h : c.extra = pre ++ .int :: post)
    (hreg : intArgs c.fn.params + intArgs pre < 6) (ef : Nat) :
    (vaArg c (c.listAfter (intArgs pre) ef) .int).1 =
        some (c.fn.params.length + pre.length) ↔ c.fn.stret.hidden = 0 := by
  have hoff : (c.listAfter (intArgs pre) ef).gpOffset =
      (intArgs c.fn.params + intArgs pre) * wordSize := by
    unfold VaCall.listAfter wordSize
    dsimp only
    omega
  have hsaved : c.saved.lookup ((intArgs c.fn.params + intArgs pre) * wordSize) =
      some (.reg (intArgs c.fn.params + intArgs pre)) :=
    VaCall.lookup_saved.2 (VaCall.mem_saved.2
      (.inl ⟨_, hreg, Nat.le_add_right _ _, rfl, rfl⟩))
  unfold vaArg
  simp only [hoff]
  rw [if_pos (by unfold wordSize; omega)]
  unfold VaCall.readSaved
  rw [hsaved, Option.bind_some, VaCall.held_iff h CallerPlace.noConfusion]
  have hsix : nCallRegsI = 6 := rfl
  simp only [VaCall.placeOf, placeAfter]
  by_cases hfull : c.fn.stret.hidden + (intArgs c.fn.params + intArgs pre) < nCallRegsI
  · rw [if_pos hfull, CallerPlace.reg.injEq]
    omega
  · rw [if_neg hfull, if_neg (by omega)]
    refine iff_of_false CallerPlace.noConfusion ?_
    omega

/-- An integer that is read from the stack. -/
theorem readInt_above (h : c.extra = pre ++ .int :: post)
    (hstk : 6 ≤ intArgs c.fn.params + intArgs pre) (ef : Nat) :
    (vaArg c (c.listAfter (intArgs pre) ef) .int).1 =
        some (c.fn.params.length + pre.length) ↔
      intArgs c.fn.params ≤ 6 ∧ fpArgs c.fn.params + fpArgs pre ≤ 8 := by
  have hoff : ¬ (c.listAfter (intArgs pre) ef).gpOffset < 6 * 8 := by
    unfold VaCall.listAfter
    dsimp only
    omega
  unfold vaArg
  rw [if_neg hoff]
  unfold VaCall.readAbove
  rw [VaCall.held_iff h CallerPlace.noConfusion]
  unfold VaCall.placeOf placeAfter nCallRegsI
  rw [if_neg (by omega), if_pos hstk, CallerPlace.sp.injEq]
  unfold VaCall.listAfter stackOff nCallRegsI nCallRegsF wordSize
  dsimp only
  omega

/-- The first float, when there are named ones. -/
theorem readFloat_named (h : c.extra = pre ++ .float :: post) (hpre : fpArgs pre = 0)
    (hread : (vaArg c (c.listAfter (intArgs pre) 0) .float).1 =
      some (c.fn.params.length + pre.length)) : fpArgs c.fn.params = 0 := by
  simp only [vaArg] at hread
  by_cases hover : (c.listAfter (intArgs pre) 0).fpOffset < 6 * 8 + 16 * 16
  · rw [if_pos hover] at hread
    unfold VaCall.readSaved at hread
    obtain ⟨p, hsaved, hheld⟩ := Option.bind_eq_some_iff.1 hread
    rw [VaCall.lookup_saved, VaCall.mem_saved] at hsaved
    unfold VaCall.listAfter nCallRegsI wordSize at hsaved
    dsimp only at hsaved
    rcases hsaved with ⟨i, hi, -, hoff, -⟩ | ⟨-, i, hi, hoff, rfl⟩
    · omega
    · rw [VaCall.held_iff h CallerPlace.noConfusion] at hheld
      simp only [VaCall.placeOf, placeAfter] at hheld
      by_cases hfull : fpArgs c.fn.params + fpArgs pre < nCallRegsF
      · rw [if_pos hfull, CallerPlace.sse.injEq] at hheld
        omega
      · rw [if_neg hfull] at hheld
        cases hheld
  · rw [if_neg hover] at hread
    unfold VaCall.readAbove at hread
    rw [VaCall.held_iff h CallerPlace.noConfusion] at hread
    unfold VaCall.listAfter at hover hread
    unfold VaCall.placeOf placeAfter stackOff nCallRegsF nCallRegsI wordSize at hread
    dsimp only at hover hread
    rw [if_neg (by omega), CallerPlace.sp.injEq] at hread
    omega

/-- A float after floats only. -/
theorem readFloat_extra (h : c.extra = pre ++ .float :: post) (hnamed : fpArgs c.fn.params = 0)
    (hpre : fpArgs pre ≤ 8) (ei : Nat) :
    (vaArg c (c.listAfter ei (fpArgs pre)) .float).1 =
        some (c.fn.params.length + pre.length) ↔ fpArgs pre < 8 := by
  have hoff : (c.listAfter ei (fpArgs pre)).fpOffset = (fpArgs pre * 2 + 6) * wordSize := by
    unfold VaCall.listAfter wordSize
    dsimp only
    omega
  unfold vaArg
  simp only [hoff]
  rw [if_pos (by unfold wordSize; omega)]
  unfold VaCall.readSaved
  by_cases hlast : fpArgs pre < 8
  · have hal : c.al ≠ 0 := by
      unfold VaCall.al VaCall.args nCallRegsF
      rw [h, fpArgs_append, fpArgs_append, fpArgs_float]
      omega
    have hsaved : c.saved.lookup ((fpArgs pre * 2 + 6) * wordSize) = some (.sse (fpArgs pre)) :=
      VaCall.lookup_saved.2 (VaCall.mem_saved.2 (.inr ⟨hal, _, hlast, rfl, rfl⟩))
    rw [hsaved, Option.bind_some, VaCall.held_iff h CallerPlace.noConfusion]
    unfold VaCall.placeOf placeAfter nCallRegsF
    rw [hnamed, Nat.zero_add, if_pos hlast]
    simp [hlast]
  · simp only [hlast, iff_false]
    intro hread
    obtain ⟨p, hsaved, -⟩ := Option.bind_eq_some_iff.1 hread
    rw [VaCall.lookup_saved, VaCall.mem_saved] at hsaved
    unfold nCallRegsI nCallRegsF wordSize at hsaved
    rcases hsaved with ⟨i, hi, -, hoff, -⟩ | ⟨-, i, hi, hoff, -⟩
    · omega
    · omega

end

/-! ## Reading all of them -/

/-- The extra integers are where they are looked for: there are none, or the
integer registers are counted right and, if they do not suffice, no named
argument is on the stack. -/
def IntsReadBack (c : VaCall) : Prop :=
  intArgs c.extra = 0 ∨
  (c.fn.stret.hidden = 0 ∧
    (intArgs c.fn.params + intArgs c.extra ≤ 6 ∨
      intArgs c.fn.params ≤ 6 ∧ fpArgs c.fn.params ≤ 8)) ∨
  (c.fn.stret.hidden = 1 ∧ intArgs c.fn.params = 6 ∧ fpArgs c.fn.params ≤ 8)

/-- The extra floats are where they are looked for. -/
def FloatsReadBack (c : VaCall) : Prop :=
  fpArgs c.extra = 0 ∨ fpArgs c.fn.params = 0 ∧ fpArgs c.extra ≤ 8

/-- An argument of a class, with `n` of that class before it. -/
theorem split_int {args : List ArgClass} {n : Nat} (h : n < intArgs args) :
    ∃ pre post, args = pre ++ .int :: post ∧ intArgs pre = n := by
  induction args generalizing n with
  | nil => simp at h
  | cons t args ih =>
    cases t with
    | int =>
      cases n with
      | zero => exact ⟨[], args, rfl, rfl⟩
      | succ n =>
        rw [intArgs_int] at h
        obtain ⟨pre, post, rfl, hpre⟩ := ih (Nat.lt_of_succ_lt_succ h)
        exact ⟨.int :: pre, post, rfl, by rw [intArgs_int, hpre]⟩
    | float =>
      rw [intArgs_float] at h
      obtain ⟨pre, post, rfl, hpre⟩ := ih h
      exact ⟨.float :: pre, post, rfl, by rw [intArgs_float, hpre]⟩

theorem split_float {args : List ArgClass} {n : Nat} (h : n < fpArgs args) :
    ∃ pre post, args = pre ++ .float :: post ∧ fpArgs pre = n := by
  induction args generalizing n with
  | nil => simp at h
  | cons t args ih =>
    cases t with
    | float =>
      cases n with
      | zero => exact ⟨[], args, rfl, rfl⟩
      | succ n =>
        rw [fpArgs_float] at h
        obtain ⟨pre, post, rfl, hpre⟩ := ih (Nat.lt_of_succ_lt_succ h)
        exact ⟨.float :: pre, post, rfl, by rw [fpArgs_float, hpre]⟩
    | int =>
      rw [fpArgs_int] at h
      obtain ⟨pre, post, rfl, hpre⟩ := ih h
      exact ⟨.int :: pre, post, rfl, by rw [fpArgs_int, hpre]⟩

section

variable {c : VaCall}

theorem ReadsBack.read (h : ReadsBack c) {pre post : List ArgClass} {t : ArgClass}
    (hsplit : c.extra = pre ++ t :: post) :
    (vaArg c (vaAfter c (vaStart c.fn) pre) t).1 = some (c.fn.params.length + pre.length) :=
  (vaArgs_eq_iff c _ _ _).1 h pre t post hsplit

theorem ReadsBack.floats (h : ReadsBack c) : FloatsReadBack c := by
  by_cases hnone : fpArgs c.extra = 0
  · exact .inl hnone
  · obtain ⟨pre, post, hsplit, hpre⟩ := split_float (n := 0) (by omega : 0 < fpArgs c.extra)
    have hread := h.read hsplit
    rw [vaAfter_start c pre (.inl hpre), hpre] at hread
    have hnamed := readFloat_named hsplit hpre hread
    refine .inr ⟨hnamed, ?_⟩
    by_contra hmany
    obtain ⟨pre, post, hsplit, hpre⟩ := split_float (n := 8) (by omega : 8 < fpArgs c.extra)
    have hread := h.read hsplit
    rw [vaAfter_start c pre (.inr ⟨hnamed, by omega⟩), readFloat_extra hsplit hnamed (by omega)]
      at hread
    omega

/-- Where the floats are read back, they leave the list in a known state. -/
theorem FloatsReadBack.after (h : FloatsReadBack c) {pre post : List ArgClass} {t : ArgClass}
    (hsplit : c.extra = pre ++ t :: post) :
    vaAfter c (vaStart c.fn) pre = c.listAfter (intArgs pre) (fpArgs pre) ∧
      (fpArgs pre = 0 ∨ fpArgs c.fn.params = 0 ∧ fpArgs pre ≤ 8) := by
  have hle : fpArgs c.extra = fpArgs pre + fpArgs (t :: post) := by
    rw [hsplit, fpArgs_append]
  unfold FloatsReadBack at h
  have hpre : fpArgs pre = 0 ∨ fpArgs c.fn.params = 0 ∧ fpArgs pre ≤ 8 := by omega
  exact ⟨vaAfter_start c pre hpre, hpre⟩

theorem Stret.hidden_le (s : Stret) : s.hidden ≤ 1 := by
  cases s <;> decide

theorem ReadsBack.ints (h : ReadsBack c) : IntsReadBack c := by
  have hhidden := c.fn.stret.hidden_le
  have hfloats := h.floats
  unfold IntsReadBack
  by_cases hnone : intArgs c.extra = 0
  · exact .inl hnone
  · obtain ⟨pre, post, hsplit, hpre⟩ := split_int (n := 0) (by omega : 0 < intArgs c.extra)
    obtain ⟨hafter, hfew⟩ := hfloats.after hsplit
    have hread := h.read hsplit
    rw [hafter] at hread
    by_cases hreg : intArgs c.fn.params < 6
    · rw [readInt_saved hsplit (by omega)] at hread
      refine .inr (.inl ⟨hread, ?_⟩)
      by_contra hmany
      -- the first integer that the registers do not take
      obtain ⟨pre, post, hsplit, hpre⟩ :=
        split_int (by omega : 6 - intArgs c.fn.params < intArgs c.extra)
      obtain ⟨hafter, hfew⟩ := hfloats.after hsplit
      have hread := h.read hsplit
      rw [hafter, readInt_above hsplit (by omega)] at hread
      omega
    · rw [readInt_above hsplit (by omega)] at hread
      omega

theorem readsBack_of (hi : IntsReadBack c) (hf : FloatsReadBack c) : ReadsBack c := by
  unfold ReadsBack
  rw [vaArgs_eq_iff]
  intro pre t post hsplit
  obtain ⟨hafter, hfew⟩ := hf.after hsplit
  rw [hafter]
  have hints : intArgs c.extra = intArgs pre + intArgs (t :: post) := by
    rw [hsplit, intArgs_append]
  have hfps : fpArgs c.extra = fpArgs pre + fpArgs (t :: post) := by
    rw [hsplit, fpArgs_append]
  unfold IntsReadBack at hi
  unfold FloatsReadBack at hf
  cases t with
  | int =>
    rw [intArgs_int] at hints
    by_cases hreg : intArgs c.fn.params + intArgs pre < 6
    · rw [readInt_saved hsplit hreg]
      omega
    · rw [readInt_above hsplit (by omega)]
      omega
  | float =>
    rw [fpArgs_float] at hfps
    rw [readFloat_extra hsplit (by omega) (by omega)]
    omega

end

/-- The extra arguments of a variadic call are read back in order, if and only
if both classes of them are where they are looked for. -/
theorem readsBack_iff (c : VaCall) : ReadsBack c ↔ IntsReadBack c ∧ FloatsReadBack c :=
  ⟨fun h => ⟨h.ints, h.floats⟩, fun h => readsBack_of h.1 h.2⟩

/-- A named float and an extra one. -/
theorem not_readsBack_float : ¬ ∀ c : VaCall, ReadsBack c := by
  intro h
  have hc := h ⟨⟨none, [.float], false⟩, [.float]⟩
  revert hc
  unfold ReadsBack
  decide

end Ucc.Cc1
