/-
  Cpp/Stringise.lean --- the literal that the `#` operator makes of an argument.

  Source: str_trim and str_quote in src/cpp2/str.c, str_quotefin2 in src/util/str.c
  and their use in eval_func_macro of src/cpp2/eval.c.

  `str_trim` works in place, so it is a function on the argument's block.  Its
  second loop wants to walk back over the white space at the end, but starts at
  the terminator, which is no white space.
-/
import Mathlib.Data.List.DropRight
import Ucc.Cpp.Text
import Ucc.Lib.Block

set_option autoImplicit false

namespace Ucc.Cpp

open Ucc.Lib

/-! ## `str_trim` on a block -/

/-- `while(s > str && isspace(*s)) s--;` -/
def trimBack (b : Buf) : Nat → Nat
  | 0 => 0
  | s + 1 => if (b[s + 1]?).any isSpace then trimBack b s else s + 1

/-- `str_trim` -/
def strTrimBlock (str : Buf) : Option Buf := do
  let s := (str.takeWhile isSpace).length
  let str ← memmove str 0 s ((cstr (str.drop s)).length + 1)
  let s := (cstr str).length
  store str (trimBack str s) nul

/-- The walk back ends where it starts. -/
theorem trimBack_end (s : Text) (rest : Buf) : trimBack (s ++ nul :: rest) s.length = s.length := by
  cases s with
  | nil => rfl
  | cons c s => simp [trimBack, isSpace_nul]

/-- White space at the front of a block is that of its string. -/
theorem takeWhile_isSpace (s : Text) (rest : Buf) :
    (s ++ nul :: rest).takeWhile isSpace = s.takeWhile isSpace := by
  induction s with
  | nil => simp [isSpace_nul]
  | cons c s ih => simp only [List.cons_append, List.takeWhile_cons, ih]

/-- Only the white space in front goes. -/
theorem strTrimBlock_eq {s : Text} (hs : nul ∉ s) (rest : Buf) :
    ∃ rest', strTrimBlock (s ++ nul :: rest) = some (strTrim s ++ nul :: rest') := by
  have hsplit : s.takeWhile isSpace ++ strTrim s = s := List.takeWhile_append_dropWhile
  have htrim : nul ∉ strTrim s := fun h => hs (hsplit ▸ List.mem_append_right _ h)
  have hdrop : (s ++ nul :: rest).drop (s.takeWhile isSpace).length = strTrim s ++ nul :: rest := by
    have hfront : s ++ nul :: rest = s.takeWhile isSpace ++ (strTrim s ++ nul :: rest) := by
      rw [← List.append_assoc, hsplit]
    rw [hfront, List.drop_left]
  have hmove : memmove (s ++ nul :: rest) 0 (s.takeWhile isSpace).length
      ((strTrim s).length + 1) =
      some (strTrim s ++ nul :: (s ++ nul :: rest).drop ((strTrim s).length + 1)) := by
    have hlen : (strTrim s).length ≤ s.length := List.length_dropWhile_le _ _
    have hfront : (s.takeWhile isSpace).length ≤ s.length := (List.takeWhile_sublist _).length_le
    have htake : (strTrim s ++ nul :: rest).take ((strTrim s).length + 1) = strTrim s ++ [nul] := by
      rw [List.take_length_add_append]
      rfl
    unfold memmove memcpy
    rw [if_pos (by simp; omega), hdrop, if_pos (by simp; omega), htake, Nat.zero_add]
    simp
  refine ⟨(s ++ nul :: rest).drop ((strTrim s).length + 1), ?_⟩
  unfold strTrimBlock
  simp only [takeWhile_isSpace, hdrop, cstr_append_nul htrim, hmove, Option.bind_eq_bind,
    Option.bind_some, trimBack_end]
  exact store_eq rfl rfl

/-! ## `str_quote` -/

/-- A character of the argument in the literal's body. -/
def escapeChar (c : Char) : Text := if c == '"' || c == '\\' then ['\\', c] else [c]

theorem strQuote_eq (s : Text) : strQuote s = '"' :: (s.flatMap escapeChar ++ ['"']) := rfl

/-- The size of the literal with its terminator, as the first loop counts it. -/
def quoteLen (s : Text) : Nat := s.foldl (fun len c => len + (escapeChar c).length) 3

/-- The literal fills its block. -/
theorem strQuote_length (s : Text) : (alloc (strQuote s)).length = quoteLen s := by
  have hloop : ∀ (s : Text) (len : Nat),
      s.foldl (fun len c => len + (escapeChar c).length) len =
        len + (s.flatMap escapeChar).length := by
    intro s
    induction s with
    | nil => simp
    | cons c s ih =>
      intro len
      rw [List.foldl_cons, ih, List.flatMap_cons, List.length_append, Nat.add_assoc]
  unfold quoteLen
  rw [hloop, strQuote_eq]
  simp [alloc]
  omega

/-- One level of backslash escapes removed; a lone backslash escapes nothing. -/
def unescape : Text → Option Text
  | [] => some []
  | ['\\'] => none
  | '\\' :: c :: s => (unescape s).map (c :: ·)
  | c :: s => (unescape s).map (c :: ·)

theorem unescape_flatMap (s : Text) : unescape (s.flatMap escapeChar) = some s := by
  induction s with
  | nil => rfl
  | cons c s ih =>
    rw [List.flatMap_cons]
    by_cases hc : (c == '"' || c == '\\') = true
    · rw [escapeChar, if_pos hc]
      simp [unescape, ih]
    · have hback : c ≠ '\\' := by rintro rfl; simp at hc
      rw [escapeChar, if_neg hc]
      simp [unescape, hback, ih]

/-- The scan for the closing quote runs over the body. -/
theorem strQuotefin_flatMap {s : Text} (hs : nul ∉ s) :
    strQuotefin (s.flatMap escapeChar ++ ['"']) = some ['"'] := by
  unfold strQuotefin
  induction s with
  | nil => rfl
  | cons c s ih =>
    have ih := ih fun h => hs (List.mem_cons_of_mem _ h)
    have hnul : c ≠ nul := fun h => hs (h ▸ List.mem_cons_self)
    rw [List.flatMap_cons, List.append_assoc]
    by_cases hc : (c == '"' || c == '\\') = true
    · rw [escapeChar, if_pos hc]
      simpa [strQuotefin2, nul] using ih
    · obtain ⟨hquote, hback⟩ : c ≠ '"' ∧ c ≠ '\\' := by simpa using hc
      obtain ⟨d, rest, hrest⟩ : ∃ d rest, s.flatMap escapeChar ++ ['"'] = d :: rest :=
        List.exists_cons_of_ne_nil (by simp)
      rw [escapeChar, if_neg hc]
      rw [hrest] at ih ⊢
      simpa [strQuotefin2, hnul, hquote, hback] using ih

/-! ## The round trip -/

/-- `s` without its leading and trailing white space -/
def trimmed (s : Text) : Text := (s.dropWhile isSpace).rdropWhile isSpace

/-- `lit` is a literal that ends at its closing quote, and it spells `s`. -/
def Spells (lit s : Text) : Prop :=
  ∃ body, lit = '"' :: (body ++ ['"']) ∧ strQuotefin (body ++ ['"']) = some ['"'] ∧
    unescape body = some s

theorem spells_strQuote {s : Text} (hs : nul ∉ s) (t : Text) : Spells (strQuote s) t ↔ s = t := by
  constructor
  · rintro ⟨body, hlit, -, hbody⟩
    obtain ⟨-, hcons⟩ := List.cons.inj (strQuote_eq s ▸ hlit)
    rw [← List.append_cancel_right hcons, unescape_flatMap] at hbody
    exact Option.some.inj hbody
  · rintro rfl
    exact ⟨_, strQuote_eq s, strQuotefin_flatMap hs, unescape_flatMap s⟩

/-- Nothing is left to trim at the end. -/
def EndsTrimmed (s : Text) : Prop :=
  (∀ c ∈ s, isSpace c) ∨ ∀ h : s ≠ [], ¬ isSpace (s.getLast h)

theorem strTrim_eq_trimmed (s : Text) : strTrim s = trimmed s ↔ EndsTrimmed s := by
  have hnil : strTrim s = [] ↔ ∀ c ∈ s, isSpace c := List.dropWhile_eq_nil_iff
  have hlast : ∀ h : strTrim s ≠ [], ∃ hs : s ≠ [], (strTrim s).getLast h = s.getLast hs :=
    fun h => ⟨_, (List.dropWhile_suffix _).getLast h⟩
  have hiff : strTrim s = trimmed s ↔ ∀ h : strTrim s ≠ [], ¬ isSpace ((strTrim s).getLast h) :=
    eq_comm.trans List.rdropWhile_eq_self_iff
  rw [hiff]
  constructor
  · intro h
    by_cases hempty : strTrim s = []
    · exact Or.inl (hnil.mp hempty)
    · obtain ⟨_, hsame⟩ := hlast hempty
      exact Or.inr fun _ => hsame ▸ h hempty
  · rintro (hall | hend) h
    · exact absurd (hnil.mpr hall) h
    · obtain ⟨hne, hsame⟩ := hlast h
      rw [hsame]
      exact hend hne

/-- The literal that `str_trim` and `str_quote` make of an argument's block. -/
def Stringises (b : Buf) (t : Text) : Prop :=
  ∃ b', strTrimBlock b = some b' ∧ Spells (strQuote (cstr b')) t

/-- The literal spells the trimmed argument when there is nothing to trim at its end. -/
theorem stringise_round_trip_iff (s : Text) (rest : Buf) (hs : nul ∉ s) :
    Stringises (s ++ nul :: rest) (trimmed s) ↔ EndsTrimmed s := by
  obtain ⟨rest', htrim⟩ := strTrimBlock_eq hs rest
  have hnul : nul ∉ strTrim s := fun h => hs ((List.dropWhile_suffix _).subset h)
  unfold Stringises
  rw [← strTrim_eq_trimmed, htrim]
  simp only [Option.some.injEq, exists_eq_left', cstr_append_nul hnul, spells_strQuote hnul]

theorem stringise_round_trip_iff_quoted :
    Stringises (" a\"".toList ++ [nul]) (trimmed " a\"".toList) ↔ EndsTrimmed " a\"".toList :=
  stringise_round_trip_iff " a\"".toList [] (by decide)

/-- The blank behind the `a` stays. -/
theorem stringise_trailing_space : ¬ Stringises ("a ".toList ++ [nul]) (trimmed "a ".toList) := by
  rintro ⟨b, hb, hspells⟩
  have htrim : strTrimBlock ("a ".toList ++ [nul]) = some ("a ".toList ++ [nul]) := by decide
  cases htrim.symm.trans hb
  have htext := (spells_strQuote (by decide) _).mp hspells
  revert htext
  decide

end Ucc.Cpp
