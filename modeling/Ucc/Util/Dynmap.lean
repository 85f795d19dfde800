/-
  Util/Dynmap.lean --- the hash table.

  Source: src/util/dynmap.c.

  A bucket is a chain of cells of which the first one is embedded in the table;
  an empty bucket is a first cell without a key.  A `pair *` is a place in the
  chain of its bucket.
-/
import Ucc.Lib.Keyed

set_option autoImplicit false

namespace Ucc.Util

open Ucc.Lib

/-! ## The table -/

/-- The keys of a table: `cmp`, or identity where it is null, and `hash`. -/
structure Keys (K : Type) extends KeyTest K where
  hash : K → UInt32
  hash_same : ∀ {a b}, same a b = true → hash a = hash b

/-- `struct pair`, without `next`. -/
structure Cell (K V : Type) where
  key : Option K
  value : Option V
  deriving DecidableEq, Repr

/-- A cell that is all zeros. -/
def Cell.zero {K V : Type} : Cell K V := ⟨none, none⟩

/-- A bucket: the embedded cell, and the cells that follow from it. -/
structure Bucket (K V : Type) where
  first : Cell K V
  next : List (Cell K V)
  deriving DecidableEq, Repr

/-- The chain of a bucket. -/
def Bucket.cells {K V : Type} (b : Bucket K V) : List (Cell K V) := b.first :: b.next

/-- `struct dynmap`, without the functions. -/
structure Dynmap (K V : Type) where
  pairs : Fin 256 → Bucket K V

/-- `dynmap_nochk_new` -/
def dynmapNew {K V : Type} : Dynmap K V := ⟨fun _ => ⟨Cell.zero, []⟩⟩

theorem squash_lt {hash : Nat} (h : ¬ hash < 256) : (hash >>> 8) ^^^ (hash &&& 255) < hash := by
  have hlog : 2 ^ hash.log2 ≤ hash := Nat.log2_self_le (by omega)
  have hpow : 2 ^ 8 ≤ 2 ^ hash.log2 := by
    apply Nat.pow_le_pow_right (by omega)
    rw [Nat.le_log2 (by omega)]
    omega
  have hand : hash &&& 255 = hash % 256 := Nat.and_two_pow_sub_one_eq_mod hash 8
  have hshift : hash >>> 8 = hash / 256 := Nat.shiftRight_eq_div_pow hash 8
  have htop : hash < 2 ^ (hash.log2 + 1) := Nat.lt_log2_self
  calc (hash >>> 8) ^^^ (hash &&& 255) < 2 ^ hash.log2 := by
        apply Nat.xor_lt_two_pow
        · rw [hshift]
          omega
        · rw [hand]
          omega
    _ ≤ hash := hlog

/-- The loop of `dynmap_first_pair`: squash all the bits together. -/
def squash (hash : Nat) : Nat :=
  if hash < 256 then hash else squash ((hash >>> 8) ^^^ (hash &&& 255))
termination_by hash
decreasing_by exact squash_lt (by assumption)

theorem squash_lt_size (hash : Nat) : squash hash < 256 := by
  fun_induction squash hash with
  | case1 hash h => exact h
  | case2 hash h ih => exact ih

variable {K V : Type} (T : Keys K)

/-- `dynmap_first_pair`: the bucket of a key. -/
def slot (key : K) : Fin 256 := ⟨squash (T.hash key).toNat, squash_lt_size _⟩

/-- The loop of `dynmap_nochk_pair`, from a cell on: the place of the key. -/
def findPair (key : K) : List (Cell K V) → Option Nat
  | [] => none
  | c :: cs =>
      match c.key with
      | none => none
      | some k => if T.same k key then some 0 else (findPair key cs).map (· + 1)

/-- `dynmap_nochk_pair` -/
def dynmapPair (map : Dynmap K V) (key : K) : Option Nat :=
  findPair T key (map.pairs (slot T key)).cells

/-- `p->value`, for a place in the bucket of a key. -/
def valueAt (map : Dynmap K V) (key : K) (p : Nat) : Option V :=
  ((map.pairs (slot T key)).cells[p]?).bind Cell.value

/-- `dynmap_nochk_get` -/
def dynmapGet (map : Option (Dynmap K V)) (key : K) : Option V :=
  match map with
  | none => none
  | some map =>
      match dynmapPair T map key with
      | some p => valueAt T map key p
      | none => none

/-- `dynmap_nochk_exists` -/
def dynmapExists (map : Option (Dynmap K V)) (key : K) : Bool :=
  match map with
  | none => false
  | some map => (dynmapPair T map key).isSome

/-- Write through a pointer to a bucket. -/
def Dynmap.write (map : Dynmap K V) (i : Fin 256) (b : Bucket K V) : Dynmap K V :=
  ⟨Function.update map.pairs i b⟩

/-- `p->value = val` -/
def Bucket.setValue (b : Bucket K V) (p : Nat) (val : Option V) : Bucket K V :=
  match p with
  | 0 => { b with first := { b.first with value := val } }
  | p + 1 => { b with next := b.next.modify p fun c => { c with value := val } }

/-- A new key goes into the embedded cell if that is free, else into a new cell
at the end of the chain. -/
def Bucket.insert (b : Bucket K V) (key : K) (val : Option V) : Bucket K V :=
  match b.first.key with
  | some _ => { b with next := b.next ++ [⟨some key, val⟩] }
  | none => { b with first := ⟨some key, val⟩ }

/-- `dynmap_nochk_set`: the table, and the old value. -/
def dynmapSet (map : Dynmap K V) (key : K) (val : Option V) : Dynmap K V × Option V :=
  match dynmapPair T map key with
  | some p =>
      (map.write (slot T key) ((map.pairs (slot T key)).setValue p val), valueAt T map key p)
  | none => (map.write (slot T key) ((map.pairs (slot T key)).insert key val), none)

/-- Unlink a cell.  The embedded cell cannot go: the next one is copied over
it, or it is cleared. -/
def Bucket.unlink (b : Bucket K V) (p : Nat) : Bucket K V :=
  match p with
  | 0 =>
      match b.next with
      | c :: cs => ⟨c, cs⟩
      | [] => ⟨Cell.zero, []⟩
  | p + 1 => { b with next := b.next.eraseIdx p }

/-- `dynmap_nochk_rm`: the table, and the value removed. -/
def dynmapRm (map : Dynmap K V) (key : K) : Dynmap K V × Option V :=
  match dynmapPair T map key with
  | none => (map, none)
  | some p => (map.write (slot T key) ((map.pairs (slot T key)).unlink p), valueAt T map key p)

/-- The inner loop of `dynmap_nochk_idx`: the cell, or what is left to skip. -/
def idxCells : List (Cell K V) → Nat → Nat ⊕ Cell K V
  | [], n => .inl n
  | c :: cs, n =>
      match c.key, n with
      | none, n => idxCells cs n
      | some _, 0 => .inr c
      | some _, n + 1 => idxCells cs n

/-- The outer loop of `dynmap_nochk_idx`. -/
def idxBuckets : List (Bucket K V) → Nat → Option (Cell K V)
  | [], _ => none
  | b :: bs, n =>
      match idxCells b.cells n with
      | .inr c => some c
      | .inl n => idxBuckets bs n

/-- `dynmap_nochk_idx` -/
def dynmapIdx (map : Option (Dynmap K V)) (i : Nat) : Option (Cell K V) :=
  match map with
  | none => none
  | some map => idxBuckets ((List.finRange 256).map map.pairs) i

/-- `dynmap_nochk_key` -/
def dynmapKey (map : Option (Dynmap K V)) (i : Nat) : Option K :=
  (dynmapIdx map i).bind Cell.key

/-- `dynmap_nochk_value` -/
def dynmapValue (map : Option (Dynmap K V)) (i : Nat) : Option V :=
  (dynmapIdx map i).bind Cell.value

/-! ## Entries -/

/-- The entry in a cell. -/
def Cell.entry (c : Cell K V) : Option (K × Option V) := c.key.map fun k => (k, c.value)

/-- The cell of an entry. -/
def Cell.ofEntry (e : K × Option V) : Cell K V := ⟨some e.1, e.2⟩

/-- The entries of a bucket. -/
def Bucket.entries (b : Bucket K V) : List (K × Option V) := b.cells.filterMap Cell.entry

/-- The bucket of some entries. -/
def Bucket.ofEntries : List (K × Option V) → Bucket K V
  | [] => ⟨Cell.zero, []⟩
  | e :: es => ⟨Cell.ofEntry e, es.map Cell.ofEntry⟩

@[simp] theorem filterMap_ofEntry (l : List (K × Option V)) :
    (l.map Cell.ofEntry).filterMap Cell.entry = l := by
  induction l with
  | nil => rfl
  | cons e l ih =>
    rw [List.map_cons, List.filterMap_cons]
    simp only [Cell.entry, Cell.ofEntry, Option.map_some]
    exact congrArg (_ :: ·) ih

theorem Bucket.cells_ofEntries_cons (e : K × Option V) (l : List (K × Option V)) :
    (Bucket.ofEntries (e :: l)).cells = (e :: l).map Cell.ofEntry := rfl

@[simp] theorem Bucket.entries_ofEntries (l : List (K × Option V)) :
    (Bucket.ofEntries l).entries = l := by
  cases l with
  | nil => rfl
  | cons e l => exact filterMap_ofEntry (e :: l)

/-- The search finds the first entry with the key. -/
theorem findPair_ofEntries (key : K) (l : List (K × Option V)) :
    findPair T key (Bucket.ofEntries l).cells = l.findIdx? fun e => T.same e.1 key := by
  have hmap : ∀ l : List (K × Option V),
      findPair T key (l.map Cell.ofEntry) = l.findIdx? fun e => T.same e.1 key := by
    intro l
    induction l with
    | nil => rfl
    | cons e l ih => simp [findPair, Cell.ofEntry, List.findIdx?_cons, ih]
  cases l with
  | nil => rfl
  | cons e l => exact hmap (e :: l)

/-- The three ways of writing to a bucket, on its entries. -/
theorem Bucket.setValue_ofEntries (l : List (K × Option V)) {p : Nat} (hp : p < l.length)
    (val : Option V) :
    (Bucket.ofEntries l).setValue p val = Bucket.ofEntries (l.modify p fun e => (e.1, val)) := by
  have hmap : ∀ (l : List (K × Option V)) (p : Nat),
      (l.map Cell.ofEntry).modify p (fun c => { c with value := val }) =
        (l.modify p fun e => (e.1, val)).map Cell.ofEntry := by
    intro l
    induction l with
    | nil => simp
    | cons e l ih =>
      intro p
      cases p with
      | zero => rfl
      | succ p => simp [ih p]
  cases l with
  | nil => simp at hp
  | cons e l =>
    cases p with
    | zero => rfl
    | succ p => simp [Bucket.setValue, Bucket.ofEntries, hmap]

theorem Bucket.insert_ofEntries (l : List (K × Option V)) (key : K) (val : Option V) :
    (Bucket.ofEntries l).insert key val = Bucket.ofEntries (l ++ [(key, val)]) := by
  cases l with
  | nil => rfl
  | cons e l => simp [Bucket.insert, Bucket.ofEntries, Cell.ofEntry]

theorem Bucket.unlink_ofEntries (l : List (K × Option V)) {p : Nat} (hp : p < l.length) :
    (Bucket.ofEntries l).unlink p = Bucket.ofEntries (l.eraseIdx p) := by
  cases l with
  | nil => simp at hp
  | cons e l =>
    cases p with
    | zero => cases l <;> rfl
    | succ p => simp [Bucket.unlink, Bucket.ofEntries, List.eraseIdx_map]

/-- The entries of a table, in the order of their indices. -/
def Dynmap.entries (map : Dynmap K V) : List (K × Option V) :=
  ((List.finRange 256).map map.pairs).flatMap Bucket.entries

/-- A bucket holds its entries one after the other, and no key twice. -/
structure Bucket.Wf (b : Bucket K V) : Prop where
  full : b = Bucket.ofEntries b.entries
  distinct : Distinct T.toKeyTest b.entries

/-- Every bucket is well-formed, and has the keys that belong there. -/
structure Dynmap.Wf (map : Dynmap K V) : Prop where
  bucket : ∀ i, (map.pairs i).Wf T
  home : ∀ i, ∀ e ∈ (map.pairs i).entries, slot T e.1 = i

variable {T}

theorem Bucket.wf_ofEntries {l : List (K × Option V)} (h : Distinct T.toKeyTest l) :
    (Bucket.ofEntries l).Wf T := by
  refine ⟨?_, ?_⟩
  · rw [Bucket.entries_ofEntries]
  · rw [Bucket.entries_ofEntries]
    exact h

theorem slot_congr {a b : K} (h : T.same a b = true) : slot T a = slot T b := by
  apply Fin.ext
  exact congrArg (fun n : UInt32 => squash n.toNat) (T.hash_same h)

/-- The value under a key, as the table has it. -/
def Dynmap.abs (T : Keys K) (map : Dynmap K V) (key : K) : Option (Option V) :=
  lookup T.toKeyTest (map.pairs (slot T key)).entries key

/-- What a search in a well-formed table finds. -/
inductive Found (T : Keys K) (map : Dynmap K V) (key : K) : Option Nat → Prop where
  | absent (h : ∀ e ∈ (map.pairs (slot T key)).entries, T.same e.1 key = false) :
      Found T map key none
  | present (pre : List (K × Option V)) (k : K) (w : Option V) (post : List (K × Option V))
      (split : (map.pairs (slot T key)).entries = pre ++ (k, w) :: post)
      (same : T.same k key = true) : Found T map key (some pre.length)

theorem dynmapPair_found {map : Dynmap K V} (h : map.Wf T) (key : K) :
    Found T map key (dynmapPair T map key) := by
  unfold dynmapPair
  rw [(h.bucket (slot T key)).full, findPair_ofEntries]
  generalize hl : (map.pairs (slot T key)).entries = l
  cases hidx : l.findIdx? fun e => T.same e.1 key with
  | none =>
    refine .absent ?_
    rw [hl]
    simpa using hidx
  | some p =>
    obtain ⟨hp, hsame, -⟩ := List.findIdx?_eq_some_iff_getElem.1 hidx
    have hlen : (l.take p).length = p := List.length_take_of_le hp.le
    have hsplit : (map.pairs (slot T key)).entries =
        l.take p ++ (l[p].1, l[p].2) :: l.drop (p + 1) := by
      rw [hl]
      simp
    have hfound : Found T map key (some (l.take p).length) := .present _ _ _ _ hsplit hsame
    rwa [hlen] at hfound

theorem Dynmap.Wf.distinct {map : Dynmap K V} (h : map.Wf T) (i : Fin 256) :
    Distinct T.toKeyTest (map.pairs i).entries :=
  (h.bucket i).distinct

theorem Dynmap.Wf.cells {map : Dynmap K V} (h : map.Wf T) {i : Fin 256} {p : Nat}
    (hp : p < (map.pairs i).entries.length) :
    (map.pairs i).cells[p]? = ((map.pairs i).entries[p]?).map Cell.ofEntry := by
  rw [(h.bucket i).full, Bucket.entries_ofEntries]
  cases hl : (map.pairs i).entries with
  | nil =>
    rw [hl] at hp
    simp at hp
  | cons e l => rw [Bucket.cells_ofEntries_cons, List.getElem?_map]

theorem Found.abs_absent {map : Dynmap K V} {key : K} (h : Found T map key none) :
    map.abs T key = none := by
  cases h with
  | absent h => exact (lookup_eq_none T.toKeyTest).2 h

theorem Dynmap.Wf.abs_present {map : Dynmap K V} (h : map.Wf T) {key k : K} {w : Option V}
    {pre post : List (K × Option V)}
    (hsplit : (map.pairs (slot T key)).entries = pre ++ (k, w) :: post)
    (hsame : T.same k key = true) : map.abs T key = some w := by
  have hmem : (k, w) ∈ (map.pairs (slot T key)).entries := by simp [hsplit]
  unfold Dynmap.abs
  rw [← lookup_congr T.toKeyTest hsame]
  exact lookup_of_mem T.toKeyTest (h.distinct _) hmem

theorem Dynmap.Wf.valueAt_present {map : Dynmap K V} (h : map.Wf T) {key k : K} {w : Option V}
    {pre post : List (K × Option V)}
    (hsplit : (map.pairs (slot T key)).entries = pre ++ (k, w) :: post) :
    valueAt T map key pre.length = w := by
  unfold valueAt
  rw [h.cells (by simp [hsplit]), hsplit]
  simp [Cell.ofEntry]

/-! ## Writing a bucket -/

theorem Dynmap.Wf.write {map : Dynmap K V} (h : map.Wf T) {i : Fin 256}
    {l : List (K × Option V)} (hl : Distinct T.toKeyTest l) (hhome : ∀ e ∈ l, slot T e.1 = i) :
    (map.write i (Bucket.ofEntries l)).Wf T := by
  refine ⟨?_, ?_⟩
  · intro j
    by_cases hj : j = i
    · subst hj
      simpa [Dynmap.write] using Bucket.wf_ofEntries hl
    · simpa [Dynmap.write, hj] using h.bucket j
  · intro j
    by_cases hj : j = i
    · subst hj
      simpa [Dynmap.write] using hhome
    · simpa [Dynmap.write, hj] using h.home j

/-- Writing a bucket changes what is found under its own keys only. -/
theorem Dynmap.abs_write (map : Dynmap K V) (i : Fin 256) (l : List (K × Option V)) (q : K) :
    (map.write i (Bucket.ofEntries l)).abs T q =
      if slot T q = i then lookup T.toKeyTest l q else map.abs T q := by
  unfold Dynmap.abs Dynmap.write
  by_cases hq : slot T q = i
  · simp [hq]
  · simp [hq]

/-- If a bucket's new entries answer as the old ones did, but for one key, so
does the table. -/
theorem Dynmap.abs_write_key (map : Dynmap K V) {key : K} {l : List (K × Option V)}
    {new : Option (Option V)}
    (hl : ∀ q, lookup T.toKeyTest l q =
      if T.same key q then new else lookup T.toKeyTest (map.pairs (slot T key)).entries q) :
    (map.write (slot T key) (Bucket.ofEntries l)).abs T =
      fun q => if T.same key q then new else map.abs T q := by
  funext q
  rw [Dynmap.abs_write, hl]
  by_cases hq : slot T q = slot T key
  · simp only [hq, if_true, Dynmap.abs]
  · have hsame : T.same key q = false := by
      rw [Bool.eq_false_iff]
      intro hsame
      exact hq (slot_congr hsame).symm
    simp [hq, hsame]

/-! ## The operations -/

theorem dynmapGet_eq {map : Dynmap K V} (h : map.Wf T) (key : K) :
    dynmapGet T (some map) key = (map.abs T key).join := by
  have hfound := dynmapPair_found h key
  cases hpair : dynmapPair T map key with
  | none =>
    rw [hpair] at hfound
    simp [dynmapGet, hpair, hfound.abs_absent]
  | some p =>
    rw [hpair] at hfound
    cases hfound with
    | present pre k w post hsplit hsame =>
      simp [dynmapGet, hpair, h.abs_present hsplit hsame, h.valueAt_present hsplit]

theorem dynmapExists_eq {map : Dynmap K V} (h : map.Wf T) (key : K) :
    dynmapExists T (some map) key = (map.abs T key).isSome := by
  have hfound := dynmapPair_found h key
  cases hpair : dynmapPair T map key with
  | none =>
    rw [hpair] at hfound
    simp [dynmapExists, hpair, hfound.abs_absent]
  | some p =>
    rw [hpair] at hfound
    cases hfound with
    | present pre k w post hsplit hsame =>
      simp [dynmapExists, hpair, h.abs_present hsplit hsame]

/-- What `dynmap_set` does to the table, and what it returns. -/
theorem dynmapSet_spec {map : Dynmap K V} (h : map.Wf T) (key : K) (val : Option V) :
    (dynmapSet T map key val).1.Wf T ∧
    (dynmapSet T map key val).1.abs T =
      (fun q => if T.same key q then some val else map.abs T q) ∧
    (dynmapSet T map key val).2 = (map.abs T key).join := by
  have hfound := dynmapPair_found h key
  have hfull := (h.bucket (slot T key)).full
  have hhome := h.home (slot T key)
  unfold dynmapSet
  cases hpair : dynmapPair T map key with
  | none =>
    rw [hpair] at hfound
    have hnone := hfound.abs_absent
    cases hfound with
    | absent habs =>
      dsimp only
      rw [hfull, Bucket.insert_ofEntries]
      refine ⟨h.write ((h.distinct _).concat habs) ?_, ?_, ?_⟩
      · intro e he
        rcases List.mem_append.1 he with he | he
        · exact hhome e he
        · rw [List.mem_singleton.1 he]
      · apply Dynmap.abs_write_key
        intro q
        have hend : lookup T.toKeyTest (_ ++ (key, val) :: []) q = _ :=
          lookup_middle T.toKeyTest habs q
        rwa [List.append_nil] at hend
      · rw [hnone]
        rfl
  | some p =>
    rw [hpair] at hfound
    cases hfound with
    | present pre k w post hsplit hsame =>
      have hdist := h.distinct (slot T key)
      rw [hsplit] at hdist hhome
      have hpre : ∀ e ∈ pre, T.same e.1 k = false := by
        intro e he
        exact hdist.around e (List.mem_append_left post he)
      dsimp only
      rw [hfull, Bucket.setValue_ofEntries _ (by simp [hsplit]), hsplit]
      rw [List.modify, ← Nat.add_zero pre.length, List.modifyTailIdx_add]
      change (map.write (slot T key) (Bucket.ofEntries (pre ++ (k, val) :: post))).Wf T ∧
        (map.write (slot T key) (Bucket.ofEntries (pre ++ (k, val) :: post))).abs T = _ ∧ _
      refine ⟨h.write hdist.update ?_, ?_, ?_⟩
      · intro e he
        rcases List.mem_append.1 he with he | he
        · exact hhome e (List.mem_append_left _ he)
        · rcases List.mem_cons.1 he with rfl | he
          · exact hhome (k, w) (by simp)
          · exact hhome e (by simp [he])
      · apply Dynmap.abs_write_key
        intro q
        rw [hsplit, lookup_middle T.toKeyTest hpre, lookup_middle T.toKeyTest hpre,
          T.congr_left hsame]
        split <;> rfl
      · rw [h.abs_present hsplit hsame]
        exact h.valueAt_present hsplit

/-- What `dynmap_rm` does to the table, and what it returns. -/
theorem dynmapRm_spec {map : Dynmap K V} (h : map.Wf T) (key : K) :
    (dynmapRm T map key).1.Wf T ∧
    (dynmapRm T map key).1.abs T = (fun q => if T.same key q then none else map.abs T q) ∧
    (dynmapRm T map key).2 = (map.abs T key).join := by
  have hfound := dynmapPair_found h key
  have hfull := (h.bucket (slot T key)).full
  have hhome := h.home (slot T key)
  unfold dynmapRm
  cases hpair : dynmapPair T map key with
  | none =>
    rw [hpair] at hfound
    have hnone := hfound.abs_absent
    refine ⟨h, ?_, by simp [hnone]⟩
    funext q
    dsimp only
    split
    · next hsame =>
      rw [← hnone]
      unfold Dynmap.abs
      rw [slot_congr hsame, lookup_congr T.toKeyTest hsame]
    · rfl
  | some p =>
    rw [hpair] at hfound
    cases hfound with
    | present pre k w post hsplit hsame =>
      have hdist := h.distinct (slot T key)
      rw [hsplit] at hdist hhome
      have hpre : ∀ e ∈ pre, T.same e.1 k = false := by
        intro e he
        exact hdist.around e (List.mem_append_left post he)
      dsimp only
      rw [hfull, Bucket.unlink_ofEntries _ (by simp [hsplit]), hsplit,
        List.eraseIdx_append_of_length_le (Nat.le_refl _), Nat.sub_self, List.eraseIdx_cons_zero]
      refine ⟨h.write hdist.remove ?_, ?_, ?_⟩
      · intro e he
        rcases List.mem_append.1 he with he | he
        · exact hhome e (List.mem_append_left _ he)
        · exact hhome e (by simp [he])
      · apply Dynmap.abs_write_key
        intro q
        rw [hsplit, lookup_middle T.toKeyTest hpre, T.congr_left hsame]
        split
        · next hq =>
          rw [lookup_eq_none]
          intro e he
          rw [← T.congr_right (T.trans hsame hq)]
          exact hdist.around e he
        · rfl
      · rw [h.abs_present hsplit hsame]
        exact h.valueAt_present hsplit

/-! ## Indices -/

/-- Skipping in a chain counts its entries. -/
theorem idxCells_eq (cs : List (Cell K V)) (n : Nat) :
    idxCells cs n =
      match (cs.filterMap Cell.entry)[n]? with
      | some e => .inr (Cell.ofEntry e)
      | none => .inl (n - (cs.filterMap Cell.entry).length) := by
  fun_induction idxCells cs n with
  | case1 n => simp
  | case2 c cs n hkey ih => simp [Cell.entry, hkey, ih]
  | case3 c cs k hkey =>
    obtain ⟨key, value⟩ := c
    subst hkey
    simp [Cell.entry, Cell.ofEntry]
  | case4 c cs k n hkey ih => simp [Cell.entry, hkey, ih]

theorem idxBuckets_eq (bs : List (Bucket K V)) (n : Nat) :
    idxBuckets bs n = ((bs.flatMap Bucket.entries)[n]?).map Cell.ofEntry := by
  induction bs generalizing n with
  | nil => simp [idxBuckets]
  | cons b bs ih =>
    have hcells := idxCells_eq b.cells n
    rw [show b.cells.filterMap Cell.entry = b.entries from rfl] at hcells
    unfold idxBuckets
    rw [hcells, List.flatMap_cons, List.getElem?_append]
    by_cases hn : n < b.entries.length
    · simp [hn]
    · simp [hn, ih]

theorem dynmapKey_eq (map : Dynmap K V) (i : Nat) :
    dynmapKey (some map) i = (map.entries[i]?).map Prod.fst := by
  simp only [dynmapKey, dynmapIdx, idxBuckets_eq, Dynmap.entries]
  cases (((List.finRange 256).map map.pairs).flatMap Bucket.entries)[i]? <;> rfl

theorem dynmapValue_eq (map : Dynmap K V) (i : Nat) :
    dynmapValue (some map) i = (map.entries[i]?).bind Prod.snd := by
  simp only [dynmapValue, dynmapIdx, idxBuckets_eq, Dynmap.entries]
  cases (((List.finRange 256).map map.pairs).flatMap Bucket.entries)[i]? <;> rfl

theorem Dynmap.mem_entries {map : Dynmap K V} {e : K × Option V} :
    e ∈ map.entries ↔ ∃ i, e ∈ (map.pairs i).entries := by
  simp [Dynmap.entries, List.mem_flatMap]

/-- No key is enumerated twice. -/
theorem Dynmap.Wf.distinct_entries {map : Dynmap K V} (h : map.Wf T) :
    Distinct T.toKeyTest map.entries := by
  unfold Distinct Dynmap.entries
  rw [List.flatMap_map, List.pairwise_flatMap]
  refine ⟨fun i _ => h.distinct i, ?_⟩
  refine (List.nodup_finRange 256).imp ?_
  intro i j hij a ha b hb
  rw [Bool.eq_false_iff]
  intro hsame
  apply hij
  rw [← h.home i a ha, ← h.home j b hb]
  exact slot_congr hsame

/-- The entries are what the table has under its keys. -/
theorem Dynmap.Wf.abs_of_mem {map : Dynmap K V} (h : map.Wf T) {e : K × Option V}
    (he : e ∈ map.entries) : map.abs T e.1 = some e.2 := by
  obtain ⟨i, he⟩ := Dynmap.mem_entries.1 he
  unfold Dynmap.abs
  rw [h.home i e he]
  exact lookup_of_mem T.toKeyTest (h.distinct i) he

theorem Dynmap.Wf.abs_isSome {map : Dynmap K V} (h : map.Wf T) (k : K) :
    (map.abs T k).isSome = true ↔ ∃ e ∈ map.entries, T.same e.1 k = true := by
  unfold Dynmap.abs
  rw [lookup_isSome]
  constructor
  · rintro ⟨e, he, hsame⟩
    exact ⟨e, Dynmap.mem_entries.2 ⟨_, he⟩, hsame⟩
  · rintro ⟨e, he, hsame⟩
    obtain ⟨i, he⟩ := Dynmap.mem_entries.1 he
    refine ⟨e, ?_, hsame⟩
    rw [← slot_congr hsame, h.home i e he]
    exact he

/-! ## Runs -/

/-- The operations on a table. -/
inductive Op (K V : Type) where
  | set (key : K) (val : Option V)
  | get (key : K)
  | exists (key : K)
  | rm (key : K)
  | key (i : Nat)
  | value (i : Nat)

/-- The table after an operation. -/
def step (T : Keys K) (map : Dynmap K V) : Op K V → Dynmap K V
  | .set key val => (dynmapSet T map key val).1
  | .rm key => (dynmapRm T map key).1
  | .get _ | .exists _ | .key _ | .value _ => map

/-- The table after some operations on a new one. -/
def run (T : Keys K) (ops : List (Op K V)) : Dynmap K V := ops.foldl (step T) dynmapNew

/-- A finite map: what is under each key, if anything; a value may be null. -/
abbrev FMap (K V : Type) := K → Option (Option V)

/-- An operation on a finite map. -/
def FMap.step (T : Keys K) (m : FMap K V) : Op K V → FMap K V
  | .set key val => fun k => if T.same key k then some val else m k
  | .rm key => fun k => if T.same key k then none else m k
  | .get _ | .exists _ | .key _ | .value _ => m

/-- The finite map after some operations on the empty one. -/
def FMap.run (T : Keys K) (ops : List (Op K V)) : FMap K V := ops.foldl (FMap.step T) fun _ => none

theorem dynmapNew_wf : (dynmapNew : Dynmap K V).Wf T where
  bucket _ := Bucket.wf_ofEntries List.Pairwise.nil
  home := by simp [dynmapNew, Bucket.entries, Bucket.cells, Cell.entry, Cell.zero]

theorem step_spec {map : Dynmap K V} (h : map.Wf T) (op : Op K V) :
    (step T map op).Wf T ∧ (step T map op).abs T = FMap.step T (map.abs T) op := by
  cases op with
  | set key val =>
    obtain ⟨hwf, habs, -⟩ := dynmapSet_spec h key val
    exact ⟨hwf, habs⟩
  | rm key =>
    obtain ⟨hwf, habs, -⟩ := dynmapRm_spec h key
    exact ⟨hwf, habs⟩
  | get key => exact ⟨h, rfl⟩
  | «exists» key => exact ⟨h, rfl⟩
  | key i => exact ⟨h, rfl⟩
  | value i => exact ⟨h, rfl⟩

theorem foldl_step_spec {map : Dynmap K V} (h : map.Wf T) (ops : List (Op K V)) :
    (ops.foldl (step T) map).Wf T ∧
      (ops.foldl (step T) map).abs T = ops.foldl (FMap.step T) (map.abs T) := by
  induction ops generalizing map with
  | nil => exact ⟨h, rfl⟩
  | cons op ops ih =>
    obtain ⟨hwf, habs⟩ := step_spec h op
    have hrest := ih hwf
    rw [habs] at hrest
    exact hrest

theorem dynmapNew_abs : (dynmapNew : Dynmap K V).abs T = fun _ => none := by
  funext k
  rfl

/-- The table is well-formed after any operations, and is the finite map. -/
theorem run_spec (T : Keys K) (ops : List (Op K V)) :
    (run T ops).Wf T ∧ (run T ops).abs T = FMap.run T ops := by
  have h := foldl_step_spec (T := T) (dynmapNew_wf (V := V)) ops
  rw [dynmapNew_abs] at h
  exact h

/-- After any operations, what each operation returns is what the finite map
says, and the indices enumerate its keys. -/
theorem dynmap_refines (T : Keys K) (ops : List (Op K V)) :
    (∀ k, dynmapGet T (some (run T ops)) k = (FMap.run T ops k).join) ∧
    (∀ k, dynmapExists T (some (run T ops)) k = (FMap.run T ops k).isSome) ∧
    (∀ k v, (dynmapSet T (run T ops) k v).2 = (FMap.run T ops k).join) ∧
    (∀ k, (dynmapRm T (run T ops) k).2 = (FMap.run T ops k).join) ∧
    ∃ ks : List K,
      (∀ i, dynmapKey (some (run T ops)) i = ks[i]?) ∧
      (∀ i, dynmapValue (some (run T ops)) i =
        (ks[i]?).bind fun k => (FMap.run T ops k).join) ∧
      ks.Pairwise (fun a b => T.same a b = false) ∧
      ∀ k, (FMap.run T ops k).isSome = true ↔ ∃ k' ∈ ks, T.same k' k = true := by
  obtain ⟨hwf, habs⟩ := run_spec T ops
  rw [← habs]
  refine ⟨dynmapGet_eq hwf, dynmapExists_eq hwf, fun k v => (dynmapSet_spec hwf k v).2.2,
    fun k => (dynmapRm_spec hwf k).2.2, (run T ops).entries.map Prod.fst, ?_, ?_, ?_, ?_⟩
  · intro i
    rw [dynmapKey_eq, List.getElem?_map]
  · intro i
    rw [dynmapValue_eq, List.getElem?_map]
    cases hi : (run T ops).entries[i]? with
    | none => rfl
    | some e =>
      have hmem : e ∈ (run T ops).entries := List.mem_of_getElem? hi
      simp [hwf.abs_of_mem hmem]
  · rw [List.pairwise_map]
    exact hwf.distinct_entries
  · intro k
    rw [hwf.abs_isSome]
    simp

end Ucc.Util
