/-
  Cc1/StrAppend.lean --- string literals one after the other.

  Source: cstring_widen and cstring_append in src/cc1/str.c; the parts are those that
  read_string of src/cc1/tokenise.c leaves, with a zero at the end of each.

  A buffer is a list of as many elements as were allocated, some of them with no value
  yet.  A read or a write outside of it gives `none`, and so does a failed assertion or a
  test of an element with no value.

  `char` is signed here, so a narrow character from 128 on becomes a negative `int` when
  its string is widened.
-/
import Mathlib.Data.UInt
import Mathlib.Tactic
import Ucc.Util.Escape

set_option autoImplicit false

namespace Ucc.Cc1.Str

open Ucc.Util (ofChar)

/-! ## Buffers -/

section Buffers

variable {α : Type}

/-- `urealloc1`, to `n` elements. -/
def urealloc1 (buf : List (Option α)) (n : Nat) : List (Option α) :=
  buf.take n ++ List.replicate (n - buf.length) none

/-- `memcpy` of `n` elements to the offset `off`. -/
def memcpy (dst : List (Option α)) (off : Nat) (src : List (Option α)) (n : Nat) :
    Option (List (Option α)) :=
  if n ≤ src.length ∧ off + n ≤ dst.length then
    some (dst.take off ++ src.take n ++ dst.drop (off + n))
  else none

theorem length_urealloc1 (buf : List (Option α)) (n : Nat) : (urealloc1 buf n).length = n := by
  rw [urealloc1, List.length_append, List.length_take, List.length_replicate]
  omega

theorem take_urealloc1 {buf : List (Option α)} {n k : Nat} (hn : k ≤ n) (hbuf : k ≤ buf.length) :
    (urealloc1 buf n).take k = buf.take k := by
  have hlen : k ≤ (buf.take n).length := by
    rw [List.length_take]
    omega
  rw [urealloc1, List.take_append_of_le_length hlen, List.take_take, min_eq_left hn]

/-- The element that is tested for being a zero. -/
def isNulAt [DecidableEq α] [Zero α] (buf : List (Option α)) : Nat → Option Bool
  | 0 => none
  | n + 1 => (buf[n]?).join.map fun c => decide (c = 0)

end Buffers

/-! ## Strings -/

/-- `struct cstring`; `raw` is the type `CSTRING_RAW`. -/
inductive CString where
  | narrow (raw : Bool) (ascii : List (Option UInt8)) (count : Nat)
  | wide (wides : List (Option UInt32)) (count : Nat)

/-- `cstring_widen` -/
def cstringWiden : CString → Option CString
  | .narrow _ ascii count =>
      if count + 1 ≤ ascii.length then
        some (.wide ((ascii.take (count + 1)).map (Option.map ofChar)) count)
      else none
  -- the assertion
  | .wide _ _ => none

/-- `last_is_nul` -/
def lastIsNul : CString → Option Bool
  | .narrow _ ascii count => isNulAt ascii count
  | .wide wides count => isNulAt wides count

/-- The buffer that `cstring_append` copies to. -/
def appendBuf {α : Type} (buf : List (Option α)) (count : Nat) (add : List (Option α))
    (addCount : Nat) (nul : Bool) : Option (List (Option α)) :=
  let newCount := count + addCount
  memcpy (urealloc1 buf (newCount + 1)) (newCount - addCount - nul.toNat) add (addCount + 1)

/-- `cstring_append`: what is left in `out`. -/
def cstringAppend (out addend : CString) : Option CString := do
  let nul ← lastIsNul out
  match out, addend with
  | .narrow raw buf n, .narrow raw' add m =>
      -- the assertion
      if raw = raw' then
        let buf ← appendBuf buf n add m nul
        some (.narrow raw buf (n + m - nul.toNat))
      else none
  | .wide buf n, .wide add m =>
      let buf ← appendBuf buf n add m nul
      some (.wide buf (n + m - nul.toNat))
  | .narrow raw buf n, .wide add m =>
      match ← cstringWiden (.narrow raw buf n) with
      | .wide buf n =>
          let buf ← appendBuf buf n add m nul
          some (.wide buf (n + m - nul.toNat))
      | .narrow _ _ _ => none
  | .wide buf n, .narrow raw add m =>
      match ← cstringWiden (.narrow raw add m) with
      | .wide add m =>
          let buf ← appendBuf buf n add m nul
          some (.wide buf (n + m - nul.toNat))
      | .narrow _ _ _ => none

/-! ## Strings as lists of characters -/

/-- The characters of a string, without the zero at its end. -/
inductive Chars where
  | narrow (s : List UInt8)
  | wide (s : List UInt32)
  deriving DecidableEq

namespace Chars

/-- The characters as wide ones, a narrow one by `f`. -/
def toWide (f : UInt8 → UInt32) : Chars → List UInt32
  | .narrow s => s.map f
  | .wide s => s

/-- One string after the other. -/
def append (f : UInt8 → UInt32) : Chars → Chars → Chars
  | .narrow s, .narrow t => .narrow (s ++ t)
  | .narrow s, .wide t => .wide (s.map f ++ t)
  | .wide s, .narrow t => .wide (s ++ t.map f)
  | .wide s, .wide t => .wide (s ++ t)

def isWide : Chars → Bool
  | .narrow _ => false
  | .wide _ => true

/-- The narrow characters. -/
def narrows : Chars → List UInt8
  | .narrow s => s
  | .wide _ => []

/-- All the characters of a list of strings: wide ones if one string is wide. -/
def concat (f : UInt8 → UInt32) (parts : List Chars) : Chars :=
  if parts.any isWide then .wide (parts.flatMap (toWide f)) else .narrow (parts.flatMap narrows)

end Chars

/-- A buffer that holds characters, then a zero, and has room for more. -/
def Holds {α : Type} [Zero α] (buf : List (Option α)) (count : Nat) (s : List α) : Prop :=
  count = s.length + 1 ∧ ∃ rest, rest ≠ [] ∧ buf = (s ++ [0]).map some ++ rest

/-- A string that holds characters, then a zero. -/
inductive HoldsChars : CString → Chars → Prop
  | narrow {buf : List (Option UInt8)} {n : Nat} {s : List UInt8} (h : Holds buf n s) :
      HoldsChars (.narrow false buf n) (.narrow s)
  | wide {buf : List (Option UInt32)} {n : Nat} {s : List UInt32} (h : Holds buf n s) :
      HoldsChars (.wide buf n) (.wide s)

section Holds

variable {α : Type} [Zero α]

theorem Holds.isNulAt [DecidableEq α] {buf : List (Option α)} {n : Nat} {s : List α}
    (h : Holds buf n s) : isNulAt buf n = some true := by
  obtain ⟨rfl, rest, -, rfl⟩ := h
  simp [Str.isNulAt]

/-- What comes out of the copy. -/
theorem Holds.appendBuf {buf add : List (Option α)} {n m : Nat} {s t : List α}
    (h : Holds buf n s) (h' : Holds add m t) :
    ∃ b, appendBuf buf n add m true = some b ∧ Holds b (n + m - 1) (s ++ t) := by
  obtain ⟨rfl, rest, hrest, rfl⟩ := h
  obtain ⟨rfl, rest', hrest', rfl⟩ := h'
  obtain ⟨r, rest', rfl⟩ := List.exists_cons_of_ne_nil hrest'
  have hoff : s.length + 1 + (t.length + 1) - (t.length + 1) - true.toNat = s.length := by
    rw [Bool.toNat_true]
    omega
  have hadd : ((t ++ [0]).map some ++ r :: rest').take (t.length + 1 + 1) =
      (t ++ [0]).map some ++ [r] := by
    rw [List.append_cons]
    exact List.take_left' (by simp)
  have hout : (urealloc1 ((s ++ [0]).map some ++ rest) (s.length + 1 + (t.length + 1) + 1)).take
      s.length = s.map some := by
    rw [take_urealloc1 (by omega) (by simp)]
    simp
  have hroom : t.length + 1 + 1 ≤ ((t ++ [0]).map some ++ r :: rest').length ∧
      s.length + (t.length + 1 + 1) ≤ (urealloc1 ((s ++ [0]).map some ++ rest)
        (s.length + 1 + (t.length + 1) + 1)).length := by
    rw [length_urealloc1, List.length_append, List.length_map, List.length_append,
      List.length_singleton, List.length_cons]
    omega
  rw [Str.appendBuf, hoff, memcpy, if_pos hroom, hadd, hout]
  refine ⟨_, rfl, ?_, r :: (urealloc1 ((s ++ [0]).map some ++ rest)
    (s.length + 1 + (t.length + 1) + 1)).drop (s.length + (t.length + 1 + 1)), by simp, ?_⟩
  · rw [List.length_append]
    omega
  · simp

end Holds

theorem Holds.widen {buf : List (Option UInt8)} {n : Nat} {s : List UInt8} (raw : Bool)
    (h : Holds buf n s) :
    ∃ b, cstringWiden (.narrow raw buf n) = some (.wide b n) ∧ Holds b n (s.map ofChar) := by
  obtain ⟨rfl, rest, hrest, rfl⟩ := h
  obtain ⟨r, rest, rfl⟩ := List.exists_cons_of_ne_nil hrest
  have htake : ((s ++ [0]).map some ++ r :: rest).take (s.length + 1 + 1) =
      (s ++ [0]).map some ++ [r] := by
    rw [List.append_cons]
    exact List.take_left' (by simp)
  have hroom : s.length + 1 + 1 ≤ ((s ++ [0]).map some ++ r :: rest).length := by simp
  rw [cstringWiden, if_pos hroom, htake]
  refine ⟨_, rfl, by simp, [r.map ofChar], by simp, ?_⟩
  have hzero : ofChar 0 = 0 := by decide
  simp [hzero]

theorem HoldsChars.lastIsNul {c : CString} {s : Chars} (h : HoldsChars c s) :
    lastIsNul c = some true := by
  cases h with
  | narrow h => exact h.isNulAt
  | wide h => exact h.isNulAt

/-- `cstring_append` puts the characters one after the other, and stays in the buffers. -/
theorem HoldsChars.append {out add : CString} {s t : Chars} (h : HoldsChars out s)
    (h' : HoldsChars add t) :
    ∃ c, cstringAppend out add = some c ∧ HoldsChars c (s.append ofChar t) := by
  have hnul := h.lastIsNul
  cases h with
  | narrow h =>
    cases h' with
    | narrow h' =>
      obtain ⟨b, hb, hholds⟩ := h.appendBuf h'
      exact ⟨_, by simp [cstringAppend, hnul, hb], .narrow hholds⟩
    | wide h' =>
      obtain ⟨w, hw, hwide⟩ := h.widen false
      obtain ⟨b, hb, hholds⟩ := hwide.appendBuf h'
      exact ⟨_, by simp [cstringAppend, hnul, hw, hb], .wide hholds⟩
  | wide h =>
    cases h' with
    | narrow h' =>
      obtain ⟨w, hw, hwide⟩ := h'.widen false
      obtain ⟨b, hb, hholds⟩ := h.appendBuf hwide
      exact ⟨_, by simp [cstringAppend, hnul, hw, hb], .wide hholds⟩
    | wide h' =>
      obtain ⟨b, hb, hholds⟩ := h.appendBuf h'
      exact ⟨_, by simp [cstringAppend, hnul, hb], .wide hholds⟩

/-! ## Lists of parts -/

/-- A part of a literal: its characters, and what is in its buffer after the zero. -/
inductive Part where
  | narrow (s : List UInt8) (spare : List (Option UInt8)) (spare_ne : spare ≠ [])
  | wide (s : List UInt32) (spare : List (Option UInt32)) (spare_ne : spare ≠ [])

namespace Part

def chars : Part → Chars
  | .narrow s _ _ => .narrow s
  | .wide s _ _ => .wide s

/-- The string that `read_string` makes of it. -/
def cstring : Part → CString
  | .narrow s spare _ => .narrow false ((s ++ [0]).map some ++ spare) (s.length + 1)
  | .wide s spare _ => .wide ((s ++ [0]).map some ++ spare) (s.length + 1)

theorem holdsChars (p : Part) : HoldsChars p.cstring p.chars := by
  cases p with
  | narrow s spare hspare => exact .narrow ⟨rfl, spare, hspare, rfl⟩
  | wide s spare hspare => exact .wide ⟨rfl, spare, hspare, rfl⟩

end Part

/-- The loop of `read_string_multiple`, over the parts that are read. -/
def appendAll (first : CString) (parts : List Part) : Option CString :=
  parts.foldl (fun out p => out.bind (cstringAppend · p.cstring)) (some first)

/-- The induction is on the parts, and `out` is what was put together before. -/
theorem HoldsChars.appendAll {out : CString} {s : Chars} (h : HoldsChars out s)
    (parts : List Part) :
    ∃ c, appendAll out parts = some c ∧
      HoldsChars c ((parts.map Part.chars).foldl (Chars.append ofChar) s) := by
  induction parts generalizing out s with
  | nil => exact ⟨out, rfl, h⟩
  | cons p parts ih =>
    obtain ⟨c, hc, hholds⟩ := h.append p.holdsChars
    obtain ⟨c', hc', hholds'⟩ := ih hholds
    refine ⟨c', ?_, hholds'⟩
    rw [← hc', Str.appendAll, List.foldl_cons, Option.bind_some, hc]
    rfl

namespace Chars

variable (f : UInt8 → UInt32)

theorem concat_singleton (s : Chars) : concat f [s] = s := by
  cases s <;> simp [concat, isWide, toWide, narrows]

/-- The concatenation may start with two parts put together. -/
theorem concat_append (s t : Chars) (parts : List Chars) :
    concat f (s.append f t :: parts) = concat f (s :: t :: parts) := by
  cases s <;> cases t <;>
    simp [concat, append, isWide, toWide, narrows, List.append_assoc]

theorem foldl_append (s : Chars) (parts : List Chars) :
    parts.foldl (append f) s = concat f (s :: parts) := by
  induction parts generalizing s with
  | nil => exact (concat_singleton f s).symm
  | cons t parts ih => rw [List.foldl_cons, ih, concat_append]

end Chars

/-! ## Widening -/

/-- A wide character has the value of the byte if that is less than 128. -/
theorem ofChar_eq_iff (c : UInt8) : ofChar c = c.toUInt32 ↔ c < 128 := by
  have h : ∀ n : Fin 256, ofChar (UInt8.ofNat n) = (UInt8.ofNat n).toUInt32 ↔
      UInt8.ofNat n < 128 := by decide +kernel
  simpa using h c.toFin

theorem toWide_eq_iff (p : Chars) :
    p.toWide ofChar = p.toWide UInt8.toUInt32 ↔ ∀ c ∈ p.narrows, c < 128 := by
  cases p with
  | narrow s =>
    rw [Chars.toWide, Chars.toWide, Chars.narrows, List.map_inj_left]
    exact forall₂_congr fun c _ => ofChar_eq_iff c
  | wide s => simp [Chars.toWide, Chars.narrows]

theorem length_toWide (f g : UInt8 → UInt32) (p : Chars) :
    (p.toWide f).length = (p.toWide g).length := by
  cases p <;> simp [Chars.toWide]

theorem flatMap_toWide_eq_iff (parts : List Chars) :
    parts.flatMap (Chars.toWide ofChar) = parts.flatMap (Chars.toWide UInt8.toUInt32) ↔
      ∀ p ∈ parts, ∀ c ∈ p.narrows, c < 128 := by
  induction parts with
  | nil => simp
  | cons p parts ih =>
    rw [List.flatMap_cons, List.flatMap_cons, List.forall_mem_cons, ← toWide_eq_iff, ← ih]
    constructor
    · exact fun h => List.append_inj h (length_toWide _ _ p)
    · rintro ⟨hp, hparts⟩
      rw [hp, hparts]

/-- The parts are put together: their characters one after the other, wide ones if one
part is wide, and a zero at the end. -/
def Concatenates (first : Part) (parts : List Part) : Prop :=
  ∃ out, appendAll first.cstring parts = some out ∧
    HoldsChars out (Chars.concat UInt8.toUInt32 ((first :: parts).map Part.chars))

theorem Holds.unique {α : Type} [Zero α] {buf : List (Option α)} {n m : Nat} {s t : List α}
    (h : Holds buf n s) (h' : Holds buf m t) (hnm : n = m) : s = t := by
  obtain ⟨hn, rest, -, heq⟩ := h
  obtain ⟨hm, rest', -, heq'⟩ := h'
  have hlen : ((s ++ [0]).map some).length = ((t ++ [0]).map some).length := by
    simp only [List.length_map, List.length_append, List.length_singleton]
    omega
  have hmap := (List.append_inj (heq.symm.trans heq') hlen).1
  exact List.append_cancel_right (List.map_injective_iff.mpr (Option.some_injective α) hmap)

theorem HoldsChars.unique {c : CString} {s t : Chars} (h : HoldsChars c s)
    (h' : HoldsChars c t) : s = t := by
  cases h with
  | narrow h =>
    cases h' with
    | narrow h' => rw [h.unique h' rfl]
  | wide h =>
    cases h' with
    | wide h' => rw [h.unique h' rfl]

/-- What comes out, with `char` as it is. -/
theorem appendAll_spec (first : Part) (parts : List Part) :
    ∃ out, appendAll first.cstring parts = some out ∧
      HoldsChars out (Chars.concat ofChar ((first :: parts).map Part.chars)) := by
  obtain ⟨out, hout, hholds⟩ := first.holdsChars.appendAll parts
  rw [Chars.foldl_append] at hholds
  exact ⟨out, hout, hholds⟩

theorem concat_eq_iff (parts : List Chars) :
    Chars.concat ofChar parts = Chars.concat UInt8.toUInt32 parts ↔
      parts.any Chars.isWide = false ∨ ∀ p ∈ parts, ∀ c ∈ p.narrows, c < 128 := by
  rw [Chars.concat, Chars.concat]
  cases parts.any Chars.isWide with
  | false => simp
  | true => simp [flatMap_toWide_eq_iff]

/-- The parts of a literal are put together right if none of them is wide, or if every
narrow character is less than 128. -/
theorem cstring_append_concat_iff (first : Part) (parts : List Part) :
    Concatenates first parts ↔
      (∀ p ∈ first :: parts, p.chars.isWide = false) ∨
        ∀ p ∈ first :: parts, ∀ c ∈ p.chars.narrows, c < 128 := by
  obtain ⟨out, hout, hholds⟩ := appendAll_spec first parts
  have hconcat : Concatenates first parts ↔
      Chars.concat ofChar ((first :: parts).map Part.chars) =
        Chars.concat UInt8.toUInt32 ((first :: parts).map Part.chars) := by
    constructor
    · rintro ⟨out', hout', hholds'⟩
      obtain rfl : out = out' := Option.some.inj (hout.symm.trans hout')
      exact hholds.unique hholds'
    · intro heq
      exact ⟨out, hout, heq ▸ hholds⟩
  rw [hconcat, concat_eq_iff, List.any_map, List.any_eq_false, List.forall_mem_map]
  simp

/-- `"\xff" L"a"` -/
theorem cstring_append_negative :
    ¬ Concatenates (.narrow [0xff] [none] (by simp)) [.wide [0x61] [none] (by simp)] := by
  rintro ⟨out, hout, hholds⟩
  obtain ⟨out', hout', hholds'⟩ := appendAll_spec (.narrow [0xff] [none] (by simp))
    [.wide [0x61] [none] (by simp)]
  obtain rfl : out = out' := Option.some.inj (hout.symm.trans hout')
  have heq := hholds.unique hholds'
  revert heq
  decide

end Ucc.Cc1.Str
