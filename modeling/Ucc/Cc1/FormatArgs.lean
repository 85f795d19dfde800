/-
  Cc1/FormatArgs.lean --- the arguments that a printf format is checked with.

  Source: format_check_printf_str and the end of format_check_printf in
  src/cc1/format_chk.c.

  The conversion of a directive is read once more by the loop, so that every percent sign
  begins a directive, also one that a directive ends with.
-/
import Ucc.Cc1.FormatChk

set_option autoImplicit false

namespace Ucc.Cc1.Printf

/-! ## One step of the loop -/

section Loop

variable {α : Type} {sys : Sys} {fmt : List Char} {len i : Nat} {varIdx : Int} {args : List α}

theorem checkLoop_end (hi : ¬ i < len) :
    checkLoop sys fmt len varIdx i args = finish fmt len varIdx i args := by
  rw [checkLoop, dif_neg hi]

theorem checkLoop_nul (hi : i < len) (hc : fmt[i]? = some nul) :
    checkLoop sys fmt len varIdx i args = finish fmt len varIdx i args := by
  rw [checkLoop, dif_pos hi, hc]
  exact if_pos rfl

theorem checkLoop_ordinary {c : Char} (hi : i < len) (hc : fmt[i]? = some c) (hnul : c ≠ nul)
    (hne : c ≠ '%') :
    checkLoop sys fmt len varIdx i args = checkLoop sys fmt len varIdx (i + 1) args := by
  rw [checkLoop, dif_pos hi, hc]
  dsimp only
  rw [if_neg hnul, if_pos hne]

theorem checkLoop_last (hi : i < len) (hc : fmt[i]? = some '%') (hlast : i + 1 = len) :
    checkLoop sys fmt len varIdx i args =
      some ⟨[], some ("incomplete format specifier", i + 2), none⟩ := by
  rw [checkLoop, dif_pos hi, hc]
  dsimp only
  rw [if_neg (by decide), if_neg (by decide), if_pos hlast]

section Percent

variable (hi : i < len) (hc : fmt[i]? = some '%') (hlast : i + 1 ≠ len)

include hi hc hlast

theorem checkLoop_past (harg : parseFormatArg sys fmt len (i + 1) = none) :
    checkLoop sys fmt len varIdx i args = none := by
  rw [checkLoop, dif_pos hi, hc]
  dsimp only
  rw [if_neg (by decide), if_neg (by decide), if_neg hlast]
  split <;> rename_i heq <;> rw [harg] at heq <;> first | rfl | cases heq

theorem checkLoop_error {err : String} {j : Nat}
    (harg : parseFormatArg sys fmt len (i + 1) = some (.error err, j)) :
    checkLoop sys fmt len varIdx i args = some ⟨[], some (err, j + 1), none⟩ := by
  rw [checkLoop, dif_pos hi, hc]
  dsimp only
  rw [if_neg (by decide), if_neg (by decide), if_neg hlast]
  split <;> rename_i heq <;> rw [harg] at heq <;> cases heq
  rfl

theorem checkLoop_directive {arg : FormatArg} {j : Nat}
    (harg : parseFormatArg sys fmt len (i + 1) = some (.ok arg, j)) :
    checkLoop sys fmt len varIdx i args =
      if varIdx = -1 then checkLoop sys fmt len varIdx j args
      else (checkLoop sys fmt len varIdx j (checkDirective i j arg args).2).map
        (Outcome.after (checkDirective i j arg args).1) := by
  rw [checkLoop, dif_pos hi, hc]
  dsimp only
  rw [if_neg (by decide), if_neg (by decide), if_neg hlast]
  split <;> rename_i heq <;> rw [harg] at heq <;> cases heq
  rfl

end Percent

end Loop

/-! ## More memory

What is read does not depend on what comes after it. -/

/-- There may be more in `fmt'`. -/
def Within (fmt fmt' : List Char) : Prop :=
  ∀ (i : Nat) (c : Char), fmt[i]? = some c → fmt'[i]? = some c

theorem within_append (fmt more : List Char) : Within fmt (fmt ++ more) := by
  intro i c h
  rw [List.getElem?_append_left (List.getElem?_eq_some_iff.mp h).1, h]

theorem andThen_within {α β : Type} {s s' : Scan α} {k k' : α → Nat → Scan β}
    {r : Except String β × Nat} (hs : ∀ r, s = some r → s' = some r)
    (hk : ∀ a j r, k a j = some r → k' a j = some r) (h : s.andThen k = some r) :
    s'.andThen k' = some r := by
  unfold Scan.andThen at h
  split at h
  · cases h
  · rename_i e j
    rw [hs _ rfl]
    exact h
  · rename_i a j
    rw [hs _ rfl]
    exact hk a j r h

section Within

variable {fmt fmt' : List Char} (hw : Within fmt fmt') {len i : Nat}

include hw

theorem skipFlags_within {r : Except String Unit × Nat} (h : skipFlags fmt len i = some r) :
    skipFlags fmt' len i = some r := by
  fun_induction skipFlags fmt len i with
  | case1 => cases h
  | case2 i c hc hflag hlt ih =>
    rw [skipFlags, hw i c hc]
    simp only [hflag, hlt, if_true]
    exact ih h
  | case3 i c hc hflag hlt =>
    rw [skipFlags, hw i c hc]
    simpa only [hflag, hlt, if_true, if_false] using h
  | case4 i c hc hflag =>
    rw [skipFlags, hw i c hc]
    simpa [hflag] using h

theorem skipDigits_within {r : Bool × Nat} (h : skipDigits fmt len i = some r) :
    skipDigits fmt' len i = some r := by
  fun_induction skipDigits fmt len i with
  | case1 => cases h
  | case2 i c hc hdigit hlt ih =>
    rw [skipDigits, hw i c hc]
    simp only [hdigit, hlt, if_true]
    exact ih h
  | case3 i c hc hdigit hlt =>
    rw [skipDigits, hw i c hc]
    simpa only [hdigit, hlt, if_true, if_false] using h
  | case4 i c hc hdigit =>
    rw [skipDigits, hw i c hc]
    simpa [hdigit] using h

theorem parseField_within {err : String} {r : Except String Bool × Nat}
    (h : parseField err fmt len i = some r) : parseField err fmt' len i = some r := by
  obtain ⟨d, hd, hr⟩ := Option.map_eq_some_iff.mp h
  refine Option.map_eq_some_iff.mpr ⟨d, ?_, hr⟩
  unfold parseDigit at hd ⊢
  split at hd
  · cases hd
  · rename_i c hc
    rw [hw i c hc]
    dsimp only
    split at hd
    · rename_i hstar
      rw [if_pos hstar]
      exact hd
    · rename_i hstar
      obtain ⟨d', hd', hr'⟩ := Option.map_eq_some_iff.mp hd
      rw [if_neg hstar, skipDigits_within hw hd']
      exact congrArg some hr'

theorem parsePrecision_within {r : Except String Bool × Nat}
    (h : parsePrecision fmt len i = some r) : parsePrecision fmt' len i = some r := by
  unfold parsePrecision at h ⊢
  split at h
  · cases h
  · rename_i c hc
    rw [hw i c hc]
    dsimp only
    split at h
    · rename_i hdot
      rw [if_pos hdot]
      split at h
      · rename_i hlt
        rw [if_pos hlt]
        exact parseField_within hw h
      · rename_i hlt
        rw [if_neg hlt]
        exact h
    · rename_i hdot
      rw [if_neg hdot]
      exact h

theorem parseTwice_within {c : Char} {once twice : LengthMod} {r : LengthMod × Nat}
    (h : parseTwice fmt len i c once twice = some r) :
    parseTwice fmt' len i c once twice = some r := by
  unfold parseTwice at h ⊢
  split at h
  · rename_i hlt
    obtain ⟨c', hc', hr⟩ := Option.map_eq_some_iff.mp h
    rw [if_pos hlt, hw _ c' hc']
    exact congrArg some hr
  · rename_i hlt
    rw [if_neg hlt]
    exact h

theorem parseLength_within {r : Except String LengthMod × Nat}
    (h : parseLength fmt len i = some r) : parseLength fmt' len i = some r := by
  obtain ⟨l, hl, hr⟩ := Option.map_eq_some_iff.mp h
  refine Option.map_eq_some_iff.mpr ⟨l, ?_, hr⟩
  obtain ⟨c, hc⟩ : ∃ c, fmt[i]? = some c := by
    cases hread : fmt[i]? with
    | none =>
      rw [lengthSwitch, hread] at hl
      cases hl
    | some c => exact ⟨c, rfl⟩
  rw [lengthSwitch, hc] at hl
  rw [lengthSwitch, hw i c hc]
  split at hl
  · cases ‹none = some _›
  · exact parseTwice_within hw hl
  · exact parseTwice_within hw hl
  all_goals exact hl

theorem parseFormatArg_within {sys : Sys} {r : Except String FormatArg × Nat}
    (h : parseFormatArg sys fmt len i = some r) : parseFormatArg sys fmt' len i = some r := by
  refine andThen_within (fun _ => skipFlags_within hw) (fun _ _ _ h1 => ?_) h
  refine andThen_within (fun _ => parseField_within hw) (fun _ _ _ h2 => ?_) h1
  refine andThen_within (fun _ => parsePrecision_within hw) (fun _ _ _ h3 => ?_) h2
  refine andThen_within (fun _ => parseLength_within hw) (fun _ j _ h4 => ?_) h3
  obtain ⟨c, hc, hr⟩ := Option.map_eq_some_iff.mp h4
  rw [hw j c hc]
  exact congrArg some hr

theorem finish_within {α : Type} {varIdx : Int} {args : List α} {r : Outcome α}
    (h : finish fmt len varIdx i args = some r) : finish fmt' len varIdx i args = some r := by
  unfold finish at h ⊢
  dsimp only at h ⊢
  split at h
  · rename_i hvar
    obtain ⟨c, hc, hr⟩ := Option.map_eq_some_iff.mp h
    rw [if_pos hvar, hw _ c hc]
    exact congrArg some hr
  · rename_i hvar
    rw [if_neg hvar]
    exact h

theorem checkLoop_within {α : Type} {sys : Sys} {varIdx : Int} {args : List α} {r : Outcome α}
    (h : checkLoop sys fmt len varIdx i args = some r) :
    checkLoop sys fmt' len varIdx i args = some r := by
  fun_induction checkLoop sys fmt len varIdx i args generalizing r with
  | case1 => cases h
  | case2 i args hi hc => rw [checkLoop_nul hi (hw i _ hc), finish_within hw h]
  | case3 i args hi c hc hnul hne ih =>
    rw [checkLoop_ordinary hi (hw i c hc) hnul hne]
    exact ih h
  | case4 i args hi c hc hnul hpercent hlast =>
    obtain rfl := not_ne_iff.mp hpercent
    rw [checkLoop_last hi (hw i _ hc) hlast]
    exact h
  | case5 => cases h
  | case6 i args hi c hc hnul hpercent hlast err j harg =>
    obtain rfl := not_ne_iff.mp hpercent
    rw [checkLoop_error hi (hw i _ hc) hlast (parseFormatArg_within hw harg)]
    exact h
  | case7 i args hi c hc hnul hpercent hlast arg j harg hvar ih =>
    obtain rfl := not_ne_iff.mp hpercent
    rw [checkLoop_directive hi (hw i _ hc) hlast (parseFormatArg_within hw harg), if_pos hvar]
    exact ih h
  | case8 i args hi c hc hnul hpercent hlast arg j harg hvar checked =>
    rename_i ih
    obtain rfl := not_ne_iff.mp hpercent
    obtain ⟨r', hr', hr⟩ := Option.map_eq_some_iff.mp h
    rw [checkLoop_directive hi (hw i _ hc) hlast (parseFormatArg_within hw harg), if_neg hvar,
      ih hr']
    exact congrArg some hr
  | case9 i args hi => rw [checkLoop_end hi, finish_within hw h]

end Within

/-! ## Percent signs -/

section Percents

variable {sys : Sys} {c : Char} {cs text : List Char} {d : Directive}

/-- Every percent sign begins a directive. -/
def Reads (sys : Sys) (text : List Char) : Prop := ∀ cs, '%' :: cs <:+ text → Starts sys cs

/-- The text ends in a percent sign and flags, and all others begin a directive. -/
def Dangles (sys : Sys) (text : List Char) : Prop :=
  ∃ flags, '%' :: flags <:+ text ∧ (∀ f ∈ flags, f ∈ flagChars) ∧
    ∀ cs, '%' :: cs <:+ text → cs = flags ∨ Starts sys cs

theorem suffix_ordinary (hc : c ≠ '%') : '%' :: cs <:+ c :: text ↔ '%' :: cs <:+ text := by
  rw [List.suffix_cons_iff, List.cons.injEq]
  exact or_iff_right fun h => hc h.1.symm

theorem suffix_percent : '%' :: cs <:+ '%' :: text ↔ cs = text ∨ '%' :: cs <:+ text := by
  rw [List.suffix_cons_iff, List.cons.injEq, and_iff_right rfl]

theorem suffix_body (hd : d.Valid sys) (rest : List Char) :
    '%' :: cs <:+ d.text ++ rest ↔ '%' :: cs <:+ d.conv :: rest := by
  have hbody : ∀ body : List Char, (∀ c ∈ body, c ≠ '%') → ∀ rest,
      '%' :: cs <:+ body ++ rest ↔ '%' :: cs <:+ rest := by
    intro body h rest
    induction body with
    | nil => rfl
    | cons c body ih =>
      rw [List.forall_mem_cons] at h
      rw [List.cons_append, suffix_ordinary h.1, ih h.2]
  rw [Directive.text, List.append_assoc, hbody _ fun c => hd.body_ne]
  rfl

theorem reads_nil : Reads sys [] := fun _ hcs => nomatch List.suffix_nil.mp hcs

theorem reads_ordinary (hc : c ≠ '%') : Reads sys (c :: text) ↔ Reads sys text :=
  forall_congr' fun _ => by rw [suffix_ordinary hc]

theorem reads_directive (hd : d.Valid sys) (rest : List Char) :
    Reads sys ('%' :: (d.text ++ rest)) ↔ Reads sys (d.conv :: rest) := by
  constructor
  · intro h cs hcs
    exact h cs (suffix_percent.mpr (.inr ((suffix_body hd rest).mpr hcs)))
  · intro h cs hcs
    rcases suffix_percent.mp hcs with rfl | hcs
    · exact ⟨d, rest, hd, rfl⟩
    · exact h cs ((suffix_body hd rest).mp hcs)

theorem not_reads (h : ¬ Starts sys cs) : ¬ Reads sys ('%' :: cs) :=
  fun hreads => h (hreads cs List.suffix_rfl)

theorem not_dangles_nil : ¬ Dangles sys [] := by
  rintro ⟨flags, hsuffix, -⟩
  cases List.suffix_nil.mp hsuffix

theorem dangles_ordinary (hc : c ≠ '%') : Dangles sys (c :: text) ↔ Dangles sys text := by
  unfold Dangles
  simp only [suffix_ordinary hc]

theorem dangles_directive (hd : d.Valid sys) (rest : List Char) :
    Dangles sys ('%' :: (d.text ++ rest)) ↔ Dangles sys (d.conv :: rest) := by
  have hstarts : Starts sys (d.text ++ rest) := ⟨d, rest, hd, rfl⟩
  constructor
  · rintro ⟨flags, hsuffix, hflags, hothers⟩
    rcases suffix_percent.mp hsuffix with rfl | hsuffix
    · exact absurd hstarts (not_starts_of_flags hflags)
    · exact ⟨flags, (suffix_body hd rest).mp hsuffix, hflags, fun cs hcs =>
        hothers cs (suffix_percent.mpr (.inr ((suffix_body hd rest).mpr hcs)))⟩
  · rintro ⟨flags, hsuffix, hflags, hothers⟩
    refine ⟨flags, suffix_percent.mpr (.inr ((suffix_body hd rest).mpr hsuffix)), hflags,
      fun cs hcs => ?_⟩
    rcases suffix_percent.mp hcs with rfl | hcs
    · exact .inr hstarts
    · exact hothers cs ((suffix_body hd rest).mp hcs)

theorem dangles_of_not_starts (h : ¬ Starts sys cs) :
    Dangles sys ('%' :: cs) ↔ ∀ f ∈ cs, f ∈ flagChars := by
  constructor
  · rintro ⟨flags, -, hflags, hothers⟩
    rcases hothers cs List.suffix_rfl with rfl | hstarts
    · exact hflags
    · exact absurd hstarts h
  · intro hflags
    refine ⟨cs, List.suffix_rfl, hflags, fun cs' hcs' => ?_⟩
    rcases suffix_percent.mp hcs' with rfl | hcs'
    · exact .inl rfl
    · exact absurd (hflags '%' (hcs'.subset (List.mem_cons_self ..))) (by decide)

/-- Induction over a text as the loop goes through it. -/
theorem loop_induction (sys : Sys) {motive : List Char → Prop} (nil : motive [])
    (ordinary : ∀ c cs, c ≠ '%' → motive cs → motive (c :: cs))
    (directive : ∀ d rest, Directive.Valid sys d → motive (d.conv :: rest) →
      motive ('%' :: (d.text ++ rest)))
    (stop : ∀ cs, ¬ Starts sys cs → motive ('%' :: cs)) : ∀ cs, motive cs := by
  intro cs
  induction hn : cs.length using Nat.strong_induction_on generalizing cs with
  | _ n ih =>
    subst hn
    cases cs with
    | nil => exact nil
    | cons c cs =>
      by_cases hc : c = '%'
      · subst hc
        by_cases hstarts : Starts sys cs
        · obtain ⟨d, rest, hd, rfl⟩ := hstarts
          refine directive d rest hd (ih _ ?_ _ rfl)
          simp only [Directive.text, List.length_append, List.length_cons, List.length_nil]
          omega
        · exact stop cs hstarts
      · exact ordinary c cs hc (ih _ (Nat.lt_succ_self _) cs rfl)

end Percents

/-! ## What the loop does with a text -/

/-- The arguments that the loop asks for: it reads the conversion of a directive again. -/
inductive Rereads (sys : Sys) : List Char → List (Desc × Ty) → Prop
  | nil : Rereads sys [] []
  | ordinary {c : Char} {cs : List Char} {as : List (Desc × Ty)} (hc : c ≠ '%')
      (h : Rereads sys cs as) : Rereads sys (c :: cs) as
  | directive {d : Directive} {cs : List Char} {as : List (Desc × Ty)} (hd : d.Valid sys)
      (h : Rereads sys (d.conv :: cs) as) :
      Rereads sys ('%' :: (d.text ++ cs)) (d.args sys ++ as)

section Text

variable {α : Type} {sys : Sys} {fmt cs : List Char} {len i : Nat} {varIdx : Int} {args : List α}

theorem finish_nul (h : Ends fmt i []) (hi : i ≤ len) :
    finish fmt len varIdx i args =
      some ⟨[], none, if varIdx ≠ -1 then args.head? else none⟩ := by
  rw [finish, if_neg (Nat.not_lt.mpr hi), h.atNul]
  split <;> simp

theorem checkLoop_of_nil (h : Ends fmt i []) (hi : i ≤ len) :
    checkLoop sys fmt len varIdx i args =
      some ⟨[], none, if varIdx ≠ -1 then args.head? else none⟩ := by
  rw [← finish_nul h hi]
  by_cases hlt : i < len
  · exact checkLoop_nul hlt h.atNul
  · exact checkLoop_end hlt

theorem Directive.not_mem_conv {d : Directive} {rest : List Char}
    (h : nul ∉ '%' :: (d.text ++ rest)) : nul ∉ d.conv :: rest := by
  intro hmem
  refine h (List.mem_cons_of_mem _ ?_)
  rw [Directive.text, List.append_assoc]
  exact List.mem_append_right _ hmem

/-- A percent sign that no directive follows. -/
theorem checkLoop_of_not_starts (varIdx : Int) (args : List α) (hnul : nul ∉ '%' :: cs)
    (h : Ends fmt i ('%' :: cs)) {m : Nat} (hm : i + ('%' :: cs).length = m) (hlen : m ≤ len)
    (hnot : ¬ Starts sys cs) :
    (checkLoop sys fmt len varIdx i args = none ∧ (∀ f ∈ cs, f ∈ flagChars) ∧ m + 1 < len) ∨
    (((∀ f ∈ cs, f ∈ flagChars) → len ≤ m + 1) ∧
      ∃ err j, checkLoop sys fmt len varIdx i args = some ⟨[], some (err, j), none⟩) := by
  have hm' : i + 1 + cs.length = m := by
    rw [List.length_cons] at hm
    omega
  have hi : i < len := by omega
  have hnul' : nul ∉ cs := fun hmem => hnul (List.mem_cons_of_mem _ hmem)
  by_cases hlast : i + 1 = len
  · exact .inr ⟨fun _ => by omega, _, _, checkLoop_last hi h.head hlast⟩
  · by_cases hpast : (∀ f ∈ cs, f ∈ flagChars) ∧ m + 1 < len
    · exact .inl ⟨checkLoop_past hi h.head hlast
        (parseFormatArg_past hpast.1 h.tail (by omega) (by omega)), hpast⟩
    · have hle : (∀ f ∈ cs, f ∈ flagChars) → len ≤ m + 1 := fun hflags =>
        Nat.not_lt.mp fun hlt => hpast ⟨hflags, hlt⟩
      obtain ⟨err, j, herr⟩ := parseFormatArg_of_not_starts hnul' h.tail (by omega)
        (hm'.le.trans hlen) hnot fun hflags => hm' ▸ hle hflags
      exact .inr ⟨hle, err, j + 1, checkLoop_error hi h.head hlast herr⟩

/-- A directive, whose conversion is read again. -/
theorem checkLoop_of_valid (varIdx : Int) {d : Directive} {rest : List Char} (hd : d.Valid sys)
    (h : Ends fmt i ('%' :: (d.text ++ rest))) {m : Nat}
    (hm : i + ('%' :: (d.text ++ rest)).length = m) (hlen : m ≤ len) :
    ∃ arg j, argsOf arg.expectedFieldWidth arg.expectedPrecision arg.expectedType = d.args sys ∧
      Ends fmt j (d.conv :: rest) ∧ j + (d.conv :: rest).length = m ∧
      ∀ args : List α, checkLoop sys fmt len varIdx i args =
        if varIdx = -1 then checkLoop sys fmt len varIdx j args
        else (checkLoop sys fmt len varIdx j (checkDirective i j arg args).2).map
          (Outcome.after (checkDirective i j arg args).1) := by
  have hsize : (d.text ++ rest).length = d.body.length + (rest.length + 1) := by
    simp only [Directive.text, List.length_append, List.length_singleton]
    omega
  rw [List.length_cons] at hm
  have hfits : i + 1 + (d.text ++ rest).length ≤ len := by omega
  obtain ⟨arg, harg, hargs⟩ := parseFormatArg_of_valid hd h.tail hfits
  refine ⟨arg, i + 1 + d.body.length, hargs, ?_, by rw [List.length_cons]; omega,
    fun args => checkLoop_directive (by omega) h.head (by omega) harg⟩
  have htail := h.tail
  rw [Directive.text, List.append_assoc] at htail
  exact htail.append

/-- The loop reads on after the zero exactly where the text dangles. -/
theorem checkLoop_eq_none_iff (hnul : nul ∉ cs) (h : Ends fmt i cs) {m : Nat}
    (hm : i + cs.length = m) (hlen : m ≤ len) (args : List α) :
    checkLoop sys fmt len varIdx i args = none ↔ Dangles sys cs ∧ m + 1 < len := by
  induction cs using loop_induction sys generalizing i args with
  | nil =>
    rw [checkLoop_of_nil h (hm.le.trans hlen)]
    exact ⟨nofun, fun hdangles => absurd hdangles.1 not_dangles_nil⟩
  | ordinary c cs hc ih =>
    rw [List.mem_cons, not_or] at hnul
    rw [List.length_cons] at hm
    rw [checkLoop_ordinary (by omega) h.head (Ne.symm hnul.1) hc, dangles_ordinary hc,
      ih hnul.2 h.tail (by omega)]
  | directive d rest hd ih =>
    obtain ⟨arg, j, -, hends, hm', hstep⟩ := checkLoop_of_valid varIdx hd h hm hlen
    have hrest := ih (Directive.not_mem_conv hnul) hends hm'
    rw [hstep, dangles_directive hd]
    split
    · exact hrest args
    · rw [Option.map_eq_none_iff]
      exact hrest _
  | stop cs hnot =>
    rw [dangles_of_not_starts hnot]
    rcases checkLoop_of_not_starts varIdx args hnul h hm hlen hnot with
      ⟨hnone, hpast⟩ | ⟨hle, err, j, herr⟩
    · exact ⟨fun _ => hpast, fun _ => hnone⟩
    · rw [herr]
      exact ⟨nofun, fun hpast => absurd hpast.2 (Nat.not_lt.mpr (hle hpast.1))⟩

/-- It goes through the whole text exactly where every percent sign begins a directive. -/
theorem checkLoop_stop_iff (hnul : nul ∉ cs) (h : Ends fmt i cs) {m : Nat}
    (hm : i + cs.length = m) (hlen : m ≤ len) {args : List α} {r : Outcome α}
    (hr : checkLoop sys fmt len varIdx i args = some r) : r.stop = none ↔ Reads sys cs := by
  induction cs using loop_induction sys generalizing i args r with
  | nil =>
    rw [checkLoop_of_nil h (hm.le.trans hlen)] at hr
    cases hr
    exact ⟨fun _ => reads_nil, fun _ => rfl⟩
  | ordinary c cs hc ih =>
    rw [List.mem_cons, not_or] at hnul
    rw [List.length_cons] at hm
    rw [checkLoop_ordinary (by omega) h.head (Ne.symm hnul.1) hc] at hr
    rw [reads_ordinary hc, ih hnul.2 h.tail (by omega) hr]
  | directive d rest hd ih =>
    obtain ⟨arg, j, -, hends, hm', hstep⟩ := checkLoop_of_valid varIdx hd h hm hlen
    rw [hstep] at hr
    rw [reads_directive hd]
    split at hr
    · exact ih (Directive.not_mem_conv hnul) hends hm' hr
    · obtain ⟨r', hr', rfl⟩ := Option.map_eq_some_iff.mp hr
      have hrest := ih (Directive.not_mem_conv hnul) hends hm' hr'
      exact hrest
  | stop cs hnot =>
    rcases checkLoop_of_not_starts varIdx args hnul h hm hlen hnot with
      ⟨hnone, -⟩ | ⟨-, err, j, herr⟩
    · rw [hnone] at hr
      cases hr
    · rw [herr] at hr
      cases hr
      exact ⟨nofun, fun hreads => absurd hreads (not_reads hnot)⟩

end Text

/-! ## The arguments -/

section Supply

variable {α : Type}

/-- Each argument that is asked for, and the one that is given for it. -/
def supply : List (Desc × Ty) → List α → List ((Desc × Ty) × Option α)
  | [], _ => []
  | a :: as, args => (a, args.head?) :: supply as args.tail

theorem supply_append (as bs : List (Desc × Ty)) (args : List α) :
    supply (as ++ bs) args = supply as args ++ supply bs (args.drop as.length) := by
  induction as generalizing args with
  | nil => rfl
  | cons a as ih =>
    rw [List.cons_append, supply, supply, ih, List.drop_tail]
    rfl

/-- None is given for some that is asked for if there are too few. -/
theorem none_mem_supply (as : List (Desc × Ty)) (args : List α) :
    (∃ p ∈ supply as args, p.2 = none) ↔ args.length < as.length := by
  induction as generalizing args with
  | nil => simp [supply]
  | cons a as ih =>
    cases args with
    | nil => simp [supply]
    | cons e args => simp [supply, ih]

def Check.asked (c : Check α) : (Desc × Ty) × Option α := ((c.desc, c.type), c.arg)

theorem formatCheckPrintfArg_supply (fmtbegin fmtlen strloc : Nat) (args : List α)
    (ty : Option Ty) (desc : Desc) :
    (formatCheckPrintfArg fmtbegin fmtlen strloc args ty desc).1.map Check.asked =
      supply (ty.toList.map fun ty => (desc, ty)) args ∧
    (formatCheckPrintfArg fmtbegin fmtlen strloc args ty desc).2 =
      args.drop (ty.toList.map fun ty => (desc, ty)).length := by
  cases ty with
  | none => exact ⟨rfl, rfl⟩
  | some ty => exact ⟨rfl, List.drop_one.symm⟩

theorem checkDirective_supply (fmtbegin i : Nat) (arg : FormatArg) (args : List α) :
    (checkDirective fmtbegin i arg args).1.map Check.asked = supply
      (argsOf arg.expectedFieldWidth arg.expectedPrecision arg.expectedType) args ∧
    (checkDirective fmtbegin i arg args).2 = args.drop
      (argsOf arg.expectedFieldWidth arg.expectedPrecision arg.expectedType).length := by
  have hif : ∀ (b : Bool) (desc : Desc), (if b then [(desc, prim .int)] else []) =
      (if b then some (prim .int) else none).toList.map fun ty => (desc, ty) := by
    intro b desc
    cases b <;> rfl
  have hsupply := formatCheckPrintfArg_supply (α := α) fmtbegin (i - fmtbegin + 1) (i + 1)
  simp only [checkDirective, argsOf, hif, List.map_append, List.append_assoc, supply_append,
    List.length_append, ← List.drop_drop]
  simp only [hsupply, and_self]

/-- Every argument that the loop asks for, and what is left at the end. -/
theorem checkLoop_supply {sys : Sys} {fmt cs : List Char} {len i : Nat} {varIdx : Int}
    (hvar : varIdx ≠ -1) (hnul : nul ∉ cs) (h : Ends fmt i cs) {m : Nat}
    (hm : i + cs.length = m) (hlen : m ≤ len) {args : List α} {r : Outcome α}
    (hr : checkLoop sys fmt len varIdx i args = some r) (hstop : r.stop = none) :
    ∃ as, Rereads sys cs as ∧ r.checks.map Check.asked = supply as args ∧
      r.tooMany = (args.drop as.length).head? := by
  induction cs using loop_induction sys generalizing i args r with
  | nil =>
    rw [checkLoop_of_nil h (hm.le.trans hlen), if_pos hvar] at hr
    cases hr
    exact ⟨[], .nil, rfl, rfl⟩
  | ordinary c cs hc ih =>
    rw [List.mem_cons, not_or] at hnul
    rw [List.length_cons] at hm
    rw [checkLoop_ordinary (by omega) h.head (Ne.symm hnul.1) hc] at hr
    obtain ⟨as, has, hrest⟩ := ih hnul.2 h.tail (by omega) hr hstop
    exact ⟨as, .ordinary hc has, hrest⟩
  | directive d rest hd ih =>
    obtain ⟨arg, j, hargs, hends, hm', hstep⟩ := checkLoop_of_valid varIdx hd h hm hlen
    rw [hstep, if_neg hvar] at hr
    obtain ⟨r', hr', rfl⟩ := Option.map_eq_some_iff.mp hr
    obtain ⟨hchecks, hleft⟩ := checkDirective_supply i j arg args
    rw [hargs] at hchecks hleft
    rw [hleft] at hr'
    obtain ⟨as, has, hasked, hmany⟩ := ih (Directive.not_mem_conv hnul) hends hm' hr' hstop
    refine ⟨d.args sys ++ as, .directive hd has, ?_, ?_⟩
    · rw [supply_append, ← hchecks, ← hasked, Outcome.after, List.map_append]
    · rw [List.length_append, ← List.drop_drop]
      exact hmany
  | stop cs hnot =>
    have hreads := (checkLoop_stop_iff hnul h hm hlen hr).mp hstop
    exact absurd hreads (not_reads hnot)

end Supply

/-! ## The grammar and the loop -/

section Grammar

variable {sys : Sys} {d d' : Directive} {cs pre tail : List Char} {as bs : List (Desc × Ty)}

/-- A text begins with one directive at most. -/
theorem Directive.Valid.text_inj (hd : d.Valid sys) (hd' : d'.Valid sys) {cs' : List Char}
    (h : d.text ++ cs = d'.text ++ cs') :
    d.text = d'.text ∧ cs = cs' ∧ d.args sys = d'.args sys := by
  have hends : Ends (d.text ++ cs ++ [nul]) 0 (d.text ++ cs) := .zero _
  have hends' : Ends (d.text ++ cs ++ [nul]) 0 (d'.text ++ cs') := h ▸ hends
  have hlen : 0 + (d.text ++ cs).length ≤ (d.text ++ cs).length := (Nat.zero_add _).le
  have hlen' : 0 + (d'.text ++ cs').length ≤ (d.text ++ cs).length := by rwa [← h]
  obtain ⟨arg, hparse, hargs⟩ := parseFormatArg_of_valid hd hends hlen
  obtain ⟨arg', hparse', hargs'⟩ := parseFormatArg_of_valid hd' hends' hlen'
  rw [hparse, Option.some.injEq, Prod.mk.injEq, Except.ok.injEq] at hparse'
  obtain ⟨rfl, hlength⟩ := hparse'
  have htext : d.text.length = d'.text.length := by
    simp only [Directive.text, List.length_append, List.length_singleton]
    omega
  obtain ⟨heq, hrest⟩ := List.append_inj h htext
  exact ⟨heq, hrest, hargs.symm.trans hargs'⟩

theorem Directive.conv_of_text (h : d.text = d'.text) : d.conv = d'.conv := by
  have hlast := congrArg List.getLast? h
  simpa [Directive.text] using hlast

theorem Takes.ordinary_inv {c : Char} (hc : c ≠ '%') (h : Takes sys (c :: cs) as) :
    Takes sys cs as := by
  cases h with
  | ordinary _ h => exact h
  | directive => exact absurd rfl hc

theorem Takes.directive_inv (hd : d.Valid sys) (h : Takes sys ('%' :: (d.text ++ cs)) as) :
    ∃ as', as = d.args sys ++ as' ∧ Takes sys cs as' := by
  generalize htext : '%' :: (d.text ++ cs) = text at h
  cases h with
  | nil => cases htext
  | ordinary hc _ => exact absurd (List.cons.inj htext).1.symm hc
  | directive hd' h =>
    obtain ⟨-, rfl, hargs⟩ := hd.text_inj hd' (List.cons.inj htext).2
    exact ⟨_, by rw [hargs], h⟩

theorem Rereads.ordinary_inv {c : Char} (hc : c ≠ '%') (h : Rereads sys (c :: cs) as) :
    Rereads sys cs as := by
  cases h with
  | ordinary _ h => exact h
  | directive => exact absurd rfl hc

theorem Rereads.starts (h : Rereads sys ('%' :: cs) as) : Starts sys cs := by
  cases h with
  | ordinary hc _ => exact absurd rfl hc
  | directive hd _ => exact ⟨_, _, hd, rfl⟩

theorem Rereads.directive_inv (hd : d.Valid sys) (h : Rereads sys ('%' :: (d.text ++ cs)) as) :
    ∃ as', as = d.args sys ++ as' ∧ Rereads sys (d.conv :: cs) as' := by
  generalize htext : '%' :: (d.text ++ cs) = text at h
  cases h with
  | nil => cases htext
  | ordinary hc _ => exact absurd (List.cons.inj htext).1.symm hc
  | directive hd' h =>
    obtain ⟨heq, rfl, hargs⟩ := hd.text_inj hd' (List.cons.inj htext).2
    exact ⟨_, by rw [hargs], Directive.conv_of_text heq ▸ h⟩

theorem Rereads.ordinaries (hpre : ∀ c ∈ pre, c ≠ '%') (h : Rereads sys cs as) :
    Rereads sys (pre ++ cs) as := by
  induction pre with
  | nil => exact h
  | cons c pre ih =>
    rw [List.forall_mem_cons] at hpre
    exact .ordinary hpre.1 (ih hpre.2)

/-- What comes later is asked for later. -/
theorem Rereads.drop (pre : List Char) (h : Rereads sys (pre ++ cs) bs) :
    ∃ xs bs', bs = xs ++ bs' ∧ Rereads sys cs bs' := by
  induction pre generalizing bs with
  | nil => exact ⟨[], bs, rfl, h⟩
  | cons c pre ih =>
    by_cases hc : c = '%'
    · subst hc
      obtain ⟨d, rest, hd, htext⟩ := h.starts
      have htext' : pre ++ cs = d.text ++ rest := htext
      rw [List.cons_append, htext'] at h
      obtain ⟨bs', rfl, hconv⟩ := h.directive_inv hd
      have hbody : Rereads sys (pre ++ cs) bs' := by
        rw [htext', Directive.text, List.append_assoc]
        exact hconv.ordinaries fun _ => hd.body_ne
      obtain ⟨xs, bs'', rfl, htail⟩ := ih hbody
      exact ⟨d.args sys ++ xs, bs'', (List.append_assoc ..).symm, htail⟩
    · exact ih (h.ordinary_inv hc)

/-- After a directive for a percent sign, nothing that takes arguments follows at once. -/
def PlainPercents (sys : Sys) (text : List Char) : Prop :=
  ∀ (pre : List Char) (as : List (Desc × Ty)) (d d' : Directive) (rest : List Char),
    Takes sys pre as → d.Valid sys → d'.Valid sys → d.conv = '%' →
    text = pre ++ '%' :: (d.text ++ (d'.text ++ rest)) → d'.args sys = []

theorem takes_of_rereads (h : PlainPercents sys (pre ++ cs)) (hpre : Takes sys pre as)
    (hcs : Rereads sys cs bs) : Takes sys cs bs := by
  induction hn : cs.length using Nat.strong_induction_on generalizing pre cs as bs with
  | _ n ih =>
    subst hn
    cases hcs with
    | nil => exact .nil
    | @ordinary c cs _ hc hcs =>
      rw [← List.singleton_append, ← List.append_assoc] at h
      exact .ordinary hc (ih cs.length (Nat.lt_succ_self _) h (hpre.append (.ordinary hc .nil))
        hcs rfl)
    | @directive d cs bs hd hcs =>
      refine .directive hd ?_
      by_cases hc : d.conv = '%'
      · rw [hc] at hcs
        obtain ⟨d', rest, hd', rfl⟩ := hcs.starts
        obtain ⟨bs', rfl, hcs'⟩ := hcs.directive_inv hd'
        -- the second of the two signs is read again, and asks for nothing
        rw [h pre as d d' rest hpre hd hd' hc rfl, List.nil_append]
        have hbody : ∀ c ∈ d'.body, c ≠ '%' := fun _ => hd'.body_ne
        have htext : '%' :: (d.text ++ (d'.text ++ rest)) =
            '%' :: (d.text ++ []) ++ d'.body ++ d'.conv :: rest := by
          simp [Directive.text]
        rw [htext, List.append_assoc, ← List.append_assoc pre, ← List.append_assoc] at h
        have hrest := ih (d'.conv :: rest).length
          (by simp [Directive.text]; omega) h
          ((hpre.append (.directive hd .nil)).append (.ordinaries hbody)) hcs' rfl
        rw [Directive.text, List.append_assoc]
        have happend := (Takes.ordinaries hbody).append hrest
        exact happend
      · have htext : '%' :: (d.text ++ cs) = '%' :: (d.text ++ []) ++ cs := by simp
        rw [htext, ← List.append_assoc] at h
        exact ih cs.length (by simp [Directive.text]; omega) h
          (hpre.append (.directive hd .nil)) (hcs.ordinary_inv hc) rfl

/-- What the loop has asked for is not less than what the grammar does. -/
theorem Takes.length_le {as' : List (Desc × Ty)} (hpre : Takes sys pre as') (tail : List Char)
    (htakes : Takes sys (pre ++ tail) as) (hrereads : Rereads sys (pre ++ tail) bs) :
    ∃ as2 bs1 bs2, as = as' ++ as2 ∧ bs = bs1 ++ bs2 ∧ Takes sys tail as2 ∧
      Rereads sys tail bs2 ∧ as'.length ≤ bs1.length := by
  induction hpre generalizing as bs with
  | nil => exact ⟨as, [], bs, rfl, rfl, htakes, hrereads, le_rfl⟩
  | ordinary hc _ ih => exact ih (htakes.ordinary_inv hc) (hrereads.ordinary_inv hc)
  | @directive d pre as' hd _ ih =>
    rw [List.cons_append, List.append_assoc] at htakes hrereads
    obtain ⟨as, rfl, htail⟩ := htakes.directive_inv hd
    obtain ⟨bs, rfl, hconv⟩ := hrereads.directive_inv hd
    obtain ⟨xs, bs, rfl, hrest⟩ := Rereads.drop [d.conv] hconv
    obtain ⟨as2, bs1, bs2, rfl, rfl, h1, h2, hle⟩ := ih htail hrest
    refine ⟨as2, d.args sys ++ (xs ++ bs1), bs2, by simp, by simp, h1, h2, ?_⟩
    simp only [List.length_append]
    omega

/-- The loop asks for what the grammar does only where no directive is read again that
takes arguments. -/
theorem plainPercents_of_takes (htakes : Takes sys cs as) (hrereads : Rereads sys cs as) :
    PlainPercents sys cs := by
  rintro pre as' d d' rest hpre hd hd' hc rfl
  obtain ⟨as2, bs1, bs2, rfl, heq, htakes1, hrereads1, hle⟩ := hpre.length_le _ htakes hrereads
  obtain ⟨as3, rfl, htakes2⟩ := htakes1.directive_inv hd
  obtain ⟨bs3, rfl, hrereads2⟩ := hrereads1.directive_inv hd
  rw [hc] at hrereads2
  obtain ⟨bs4, rfl, hrereads3⟩ := hrereads2.directive_inv hd'
  have hagain : Rereads sys (d'.text ++ rest) bs4 := by
    rw [Directive.text, List.append_assoc]
    exact hrereads3.ordinaries fun _ => hd'.body_ne
  obtain ⟨as4, bs5, bs6, -, rfl, -, -, hle'⟩ := htakes2.length_le []
    (by rwa [List.append_nil]) (by rwa [List.append_nil])
  have hlength := congrArg List.length heq
  simp only [List.length_append] at hlength
  exact List.length_eq_zero_iff.mp (by omega)

end Grammar

/-! ## Literal formats -/

/-- A narrow string literal and an offset into it, which `format_check_printf` tests. -/
structure Literal where
  chars : List Char
  offset : Nat
  offset_lt : offset < chars.length

namespace Literal

/-- What `fmt` points to; `len` is not made less by the offset. -/
def fmt (l : Literal) : List Char := l.chars.drop l.offset ++ [nul]

/-- The format, up to its zero. -/
def text (l : Literal) : List Char := (l.chars.drop l.offset).takeWhile fun c => c ≠ nul

theorem fmt_eq (l : Literal) : ∃ after, l.fmt = l.text ++ nul :: after := by
  rw [fmt, text]
  generalize l.chars.drop l.offset = cs
  induction cs with
  | nil => exact ⟨[], rfl⟩
  | cons c cs ih =>
    by_cases hc : c = nul
    · exact ⟨cs ++ [nul], by simp [hc]⟩
    · obtain ⟨after, hafter⟩ := ih
      refine ⟨after, ?_⟩
      rw [List.takeWhile_cons_of_pos (by simpa using hc), List.cons_append, hafter,
        List.cons_append]

theorem nul_notMem_text (l : Literal) : nul ∉ l.text := by
  intro hmem
  have hne := List.all_eq_true.mp List.all_takeWhile nul hmem
  simp at hne

theorem length_text_le (l : Literal) : l.text.length ≤ l.chars.length := by
  have hdrop : (l.chars.drop l.offset).length ≤ l.chars.length := by
    rw [List.length_drop]
    exact Nat.sub_le _ _
  exact (List.takeWhile_prefix _).length_le.trans hdrop

end Literal

section Main

variable {α : Type} {sys : Sys} {l : Literal} {args : List α} {varIdx : Int}

/-- The arguments from `var_idx` on. -/
def given (args : List α) (varIdx : Int) : List α := args.drop (varIdx % 2 ^ 64).toNat

/-- What is reported about a format that is read to its end: the arguments that the
grammar has, each with the one given for it, and those that are missing or too many. -/
structure Reported (sys : Sys) (l : Literal) (args : List α) (varIdx : Int) (r : Outcome α)
    (as : List (Desc × Ty)) : Prop where
  takes : Takes sys l.text as
  asked : r.checks.map Check.asked = supply as (given args varIdx)
  tooFew : (∃ c ∈ r.checks, c.arg = none) ↔ (given args varIdx).length < as.length
  tooMany : r.tooMany ≠ none ↔ as.length < (given args varIdx).length

/-- The check of a literal has a result, which does not depend on what comes after the
zero; unless it stops at an error, or there is no argument list, it is what it should be. -/
def ChecksFormat (sys : Sys) (l : Literal) (args : List α) (varIdx : Int) : Prop :=
  ∃ r, formatCheckPrintfStr sys args l.fmt l.chars.length varIdx = some r ∧
    (∀ after, formatCheckPrintfStr sys args (l.text ++ nul :: after) l.chars.length varIdx =
      some r) ∧
    (r.stop = none → varIdx ≠ -1 → ∃ as, Reported sys l args varIdx r as)

theorem formatCheckPrintfStr_eq_none_iff (sys : Sys) (l : Literal) (args : List α) (varIdx : Int) :
    formatCheckPrintfStr sys args (l.text ++ [nul]) l.chars.length varIdx = none ↔
      Dangles sys l.text ∧ l.text.length + 1 < l.chars.length :=
  checkLoop_eq_none_iff l.nul_notMem_text (.zero _) (Nat.zero_add _) l.length_text_le _

theorem ChecksFormat.not_past (h : ChecksFormat sys l args varIdx) :
    ¬ (Dangles sys l.text ∧ l.text.length + 1 < l.chars.length) := by
  obtain ⟨r, -, hr, -⟩ := h
  intro hpast
  have hnone := (formatCheckPrintfStr_eq_none_iff sys l args varIdx).mpr hpast
  rw [hr []] at hnone
  cases hnone

theorem supply_fst (as : List (Desc × Ty)) (args : List α) :
    (supply as args).map Prod.fst = as := by
  induction as generalizing args with
  | nil => rfl
  | cons a as ih => rw [supply, List.map_cons, ih]

theorem ChecksFormat.plainPercents (h : ChecksFormat sys l args varIdx) (hvar : varIdx ≠ -1)
    (hreads : Reads sys l.text) : PlainPercents sys l.text := by
  obtain ⟨r, -, hr, hreported⟩ := h
  have hstop := (checkLoop_stop_iff l.nul_notMem_text (.zero _) (Nat.zero_add _)
    l.length_text_le (hr [])).mpr hreads
  obtain ⟨as, htakes, hasked, -⟩ := hreported hstop hvar
  obtain ⟨as', hrereads, hasked', -⟩ := checkLoop_supply hvar l.nul_notMem_text (.zero _)
    (Nat.zero_add _) l.length_text_le (hr []) hstop
  have heq : as = as' := by
    rw [← supply_fst as (given args varIdx), ← hasked, hasked', supply_fst]
  exact plainPercents_of_takes htakes (heq ▸ hrereads)

theorem reported_of_rereads {r : Outcome α} {as : List (Desc × Ty)} (htakes : Takes sys l.text as)
    (hasked : r.checks.map Check.asked = supply as (given args varIdx))
    (hmany : r.tooMany = ((given args varIdx).drop as.length).head?) :
    Reported sys l args varIdx r as := by
  refine ⟨htakes, hasked, ?_, ?_⟩
  · rw [← none_mem_supply as (given args varIdx), ← hasked]
    simp [Check.asked]
  · rw [hmany, Ne, List.head?_eq_none_iff, List.drop_eq_nil_iff]
    exact Nat.not_le

end Main

/-! ## Two formats that are not -/

section Failing

/-- A directive that is one character. -/
def plain (conv : Char) : Directive := ⟨[], .digits [], none, .none, conv⟩

theorem plain_valid {sys : Sys} {conv : Char} (h : ∃ ty, ownType sys .none conv = some ty) :
    (plain conv).Valid sys :=
  ⟨by simp [plain], by simp [plain, Field.Valid], by simp [plain], h⟩

/-- `"%%d"` -/
def twice : Literal := ⟨['%', '%', 'd'], 0, by decide⟩

/-- `"ab%" + 2` -/
def tail : Literal := ⟨['a', 'b', '%'], 2, by decide⟩

end Failing

end Ucc.Cc1.Printf
