/-
  Util/Path.lean --- `canonicalise_path`.

  Source: src/util/path.c.

  A path is a block of characters: its string, the terminator and whatever
  follows.  A `char *` into it is an index, and a write outside of the block has
  no result.  The entries are a dynarray of such indices, whose NULL is the empty
  list.
-/
import Ucc.Cpp.Text
import Ucc.Lib.Block
import Ucc.Lib.Resolve

set_option autoImplicit false

namespace Ucc.Util.Path

open Ucc.Lib
open Ucc.Cpp (Text Buf nul cstr alloc cstr_append_nul)

/-! ## The program -/

/-- The string at an index. -/
def strAt (b : Buf) (i : Nat) : Text := cstr (b.drop i)

/-- `canon_add` -/
def canonAdd (b : Buf) (pents : List Nat) (ent : Nat) : List Nat :=
  if strAt b ent = ['.'] then pents
  else if strAt b ent = ['.', '.'] then
    match pents.getLast? with
    | some last => if strAt b last = ['.', '.'] then pents ++ [ent] else pents.dropLast
    | none => pents ++ [ent]
  else pents ++ [ent]

/-- `for(p = path; *p; p++)`, which ends slashes; `n` bounds the characters left. -/
def splitLoop : Nat → Buf → Nat → Nat → List Nat → Option (Buf × Nat × Nat × List Nat)
  | 0, _, _, _, _ => none
  | n + 1, b, p, last, ents =>
      match b[p]? with
      | none => none
      | some c =>
          if c = nul then some (b, p, last, ents)
          else if c = '/' then
            match store b p nul with
            | none => none
            | some b =>
                splitLoop n b (p + 1) (p + 1) (if p > last then canonAdd b ents last else ents)
          else splitLoop n b (p + 1) last ents

/-- `for(i = ents; i && *i; i++)` -/
def writeLoop : List Nat → Buf → Nat → Option (Buf × Nat)
  | [], b, dest => some (b, dest)
  | i :: ents, b, dest => do
      let len := (strAt b i).length
      let b ← memmove b dest i len
      let b ← store b (dest + len) '/'
      writeLoop ents b (dest + len + 1)

/-- `dest = path; if(begin_slash) *dest++ = '/';` -/
def startDest (beginSlash : Bool) (b : Buf) : Option (Buf × Nat) :=
  if beginSlash then (store b 0 '/').map (·, 1) else some (b, 0)

/-- `dest[off] = '\0'` -/
def storeAt (b : Buf) (i : Int) (c : Char) : Option Buf := if i < 0 then none else store b i.toNat c

/-- `canonicalise_path` -/
def canonicalisePath (path : Buf) : Option Buf := do
  let beginSlash := path[0]? == some '/'
  let (b, p, last, ents) ← splitLoop (path.length + 1) path 0 0 []
  let (ents, trailingSlash) := if p > last then (canonAdd b ents last, false) else (ents, true)
  let (b, dest) ← startDest beginSlash b
  let (b, dest) ← writeLoop ents b dest
  storeAt b ((dest : Int) + if trailingSlash then 0 else -1) nul

example : (canonicalisePath (alloc "./a//b/../c".toList)).map cstr = some "a/c".toList := by decide

/-! ## The entries in the block -/

/-- The strings at the entries, in the part of the block from `off` on. -/
inductive Layout : Nat → Buf → List Nat → List Text → Prop where
  | nil (off : Nat) (b : Buf) : Layout off b [] []
  | cons {off : Nat} {gap name rest : Buf} {ents : List Nat} {names : List Text} :
      nul ∉ name → Layout (off + gap.length + name.length + 1) rest ents names →
      Layout off (gap ++ (name ++ nul :: rest)) ((off + gap.length) :: ents) (name :: names)

theorem strAt_eq {front name : Buf} (hname : nul ∉ name) (rest : Buf) :
    strAt (front ++ (name ++ nul :: rest)) front.length = name := by
  unfold strAt
  rw [List.drop_left]
  exact cstr_append_nul hname

theorem Layout.append {off : Nat} {b : Buf} {ents : List Nat} {names : List Text}
    (h : Layout off b ents names) (tail : Buf) : Layout off (b ++ tail) ents names := by
  induction h with
  | nil off b => exact .nil off _
  | cons hname _ ih =>
    rw [List.append_assoc, List.append_assoc]
    exact .cons hname ih

theorem Layout.snoc {off : Nat} {b : Buf} {ents : List Nat} {names : List Text}
    (h : Layout off b ents names) {name : Text} (hname : nul ∉ name) :
    Layout off (b ++ (name ++ [nul])) (ents ++ [off + b.length]) (names ++ [name]) := by
  induction h with
  | nil off b => exact .cons hname (.nil _ _)
  | @cons off gap first rest ents names hfirst _ ih =>
    have hlen : off + (gap ++ (first ++ nul :: rest)).length =
        off + gap.length + first.length + 1 + rest.length := by
      simp
      omega
    rw [hlen, List.append_assoc, List.append_assoc]
    exact .cons hfirst ih

theorem Layout.dropLast {off : Nat} {b : Buf} {ents : List Nat} {names : List Text}
    (h : Layout off b ents names) : Layout off b ents.dropLast names.dropLast := by
  induction h with
  | nil off b => exact .nil off b
  | @cons off gap first rest ents names hfirst hrest ih =>
    cases hrest with
    | nil => exact .nil _ _
    | cons hname hmore => exact .cons hfirst ih

/-- The last entry and the last name. -/
theorem Layout.last {off : Nat} {b : Buf} {ents : List Nat} {names : List Text}
    (h : Layout off b ents names) {pre : Buf} (hpre : pre.length = off) (tail : Buf) :
    names.getLast? = ents.getLast?.map (strAt (pre ++ (b ++ tail))) := by
  induction h generalizing pre with
  | nil off b => rfl
  | @cons off gap first rest ents names hfirst hrest ih =>
    have hblock : pre ++ (gap ++ (first ++ nul :: rest) ++ tail) =
        (pre ++ gap ++ first ++ [nul]) ++ (rest ++ tail) := by simp
    have hih := @ih (pre ++ gap ++ first ++ [nul]) (by simp [hpre]; omega)
    rw [← hblock] at hih
    cases hrest with
    | nil =>
      have hfront : pre ++ (gap ++ (first ++ nul :: rest) ++ tail) =
          (pre ++ gap) ++ (first ++ nul :: (rest ++ tail)) := by simp
      have hoff : off + gap.length = (pre ++ gap).length := by simp [hpre]
      simp only [List.getLast?_singleton, Option.map_some, hfront, hoff, strAt_eq hfirst]
    | cons hname hmore =>
      rw [List.getLast?_cons_cons, List.getLast?_cons_cons]
      exact hih

/-- `canon_add` is a step of the resolution. -/
theorem canonAdd_layout {pre b name : Buf} {ents : List Nat} {names : List Text}
    (h : Layout pre.length b ents names) (hname : nul ∉ name) (tail : Buf) :
    Layout pre.length (b ++ (name ++ [nul]))
      (canonAdd (pre ++ (b ++ (name ++ nul :: tail))) ents (pre.length + b.length))
      (resolveStep ['.'] ['.', '.'] names name) := by
  have hent : strAt (pre ++ (b ++ (name ++ nul :: tail))) (pre.length + b.length) = name := by
    rw [← List.append_assoc, ← List.length_append]
    exact strAt_eq hname tail
  have hlast := h.last rfl (name ++ nul :: tail)
  have hkeep := h.append (name ++ [nul])
  unfold canonAdd resolveStep
  rw [hent]
  by_cases hdot : name = ['.']
  · rw [if_pos hdot, if_pos hdot]
    exact hkeep
  rw [if_neg hdot, if_neg hdot]
  by_cases hup : name = ['.', '.']
  · rw [if_pos hup, if_pos hup]
    cases hents : ents.getLast? with
    | none =>
      rw [hlast, hents]
      exact hup ▸ h.snoc hname
    | some last =>
      rw [hlast, hents]
      dsimp only [Option.map_some]
      split
      · exact hup ▸ h.snoc hname
      · exact hkeep.dropLast
  · rw [if_neg hup, if_neg hup]
    exact h.snoc hname

/-! ## The components of a path -/

/-- What stands between the slashes. -/
def components (s : Text) : List Text := (s.splitOn '/').filter (· ≠ [])

/-- The path ends after a slash, or at once. -/
def Trailing (s : Text) : Prop := s = [] ∨ s.getLast? = some '/'

instance (s : Text) : Decidable (Trailing s) := inferInstanceAs (Decidable (_ ∨ _))

/-- A path is a piece without slashes, or such a piece, a slash and another path. -/
theorem slash_induction {motive : Text → Prop} (piece : ∀ c, '/' ∉ c → motive c)
    (slash : ∀ c t, '/' ∉ c → motive t → motive (c ++ '/' :: t)) (s : Text) : motive s := by
  induction hlen : s.length using Nat.strong_induction_on generalizing s with
  | _ n ih =>
    by_cases hmem : '/' ∈ s
    · obtain ⟨c, t, rfl, hc⟩ := List.eq_append_cons_of_mem hmem
      exact slash c t hc (ih t.length (by simp at hlen; omega) t rfl)
    · exact piece s hmem

theorem components_slash {c : Text} (hc : '/' ∉ c) (t : Text) :
    components (c ++ '/' :: t) = (if c = [] then [] else [c]) ++ components t := by
  unfold components
  rw [List.splitOn_append_cons_self_of_not_mem hc]
  split <;> simp [*]

theorem components_piece {c : Text} (hc : '/' ∉ c) :
    components c = if c = [] then [] else [c] := by
  unfold components
  rw [List.splitOn_eq_singleton hc]
  split <;> simp [*]

theorem trailing_slash (c t : Text) : Trailing (c ++ '/' :: t) ↔ Trailing t := by
  unfold Trailing
  rcases List.eq_nil_or_concat t with rfl | ⟨t, d, rfl⟩
  · simp
  · have hlast : (c ++ '/' :: (t ++ [d])).getLast? = some d := by
      rw [← List.cons_append, ← List.append_assoc, List.getLast?_append]
      simp
    simp [hlast]

theorem trailing_piece {c : Text} (hc : '/' ∉ c) : Trailing c ↔ c = [] := by
  unfold Trailing
  constructor
  · rintro (h | h)
    · exact h
    · exact absurd (List.mem_of_getLast? h) hc
  · exact Or.inl

/-! ## Taking the path apart -/

/-- The loop passes over a piece. -/
theorem splitLoop_piece {c : Text} (hnul : nul ∉ c) (hslash : '/' ∉ c) (n : Nat) (front back : Buf)
    (last : Nat) (ents : List Nat) :
    splitLoop (c.length + n) (front ++ (c ++ back)) front.length last ents =
      splitLoop n (front ++ (c ++ back)) (front.length + c.length) last ents := by
  induction c generalizing front with
  | nil => simp
  | cons d c ih =>
    have hd : d ≠ nul ∧ d ≠ '/' := by
      constructor
      · rintro rfl
        exact hnul List.mem_cons_self
      · rintro rfl
        exact hslash List.mem_cons_self
    have hrest := ih (fun h => hnul (List.mem_cons_of_mem _ h))
      (fun h => hslash (List.mem_cons_of_mem _ h)) (front ++ [d])
    rw [List.length_cons, Nat.add_right_comm, splitLoop]
    simp only [List.cons_append, List.length_append, List.length_cons, List.length_nil,
      List.append_assoc, List.nil_append, Nat.zero_add, List.getElem?_append_right le_rfl,
      Nat.sub_self, List.getElem?_cons_zero, if_neg hd.1, if_neg hd.2] at hrest ⊢
    rw [hrest, Nat.add_assoc, Nat.add_comm 1]

/-- The state at the end of a piece. -/
theorem splitLoop_end {c : Text} (hnul : nul ∉ c) (hslash : '/' ∉ c) (n : Nat)
    (front back : Buf) (ents : List Nat) :
    splitLoop (c.length + (n + 1)) (front ++ (c ++ nul :: back)) front.length front.length ents =
      some (front ++ (c ++ nul :: back), front.length + c.length, front.length, ents) := by
  have hat : (front ++ (c ++ nul :: back))[front.length + c.length]? = some nul := by
    rw [← List.append_assoc, ← List.length_append, List.getElem?_append_right le_rfl, Nat.sub_self]
    rfl
  rw [splitLoop_piece hnul hslash, splitLoop, hat]
  exact if_pos rfl

/-- A piece and its slash become an entry, which an empty piece does not. -/
theorem splitLoop_slash {c : Text} (hnul : nul ∉ c) (hslash : '/' ∉ c) (n : Nat)
    (front back : Buf) (ents : List Nat) :
    splitLoop (c.length + (n + 1)) (front ++ (c ++ '/' :: back)) front.length front.length ents =
      splitLoop n (front ++ (c ++ nul :: back)) (front.length + c.length + 1)
        (front.length + c.length + 1)
        (if c = [] then ents else canonAdd (front ++ (c ++ nul :: back)) ents front.length) := by
  have hblock : front ++ (c ++ '/' :: back) = (front ++ c) ++ '/' :: back := by simp
  have hat : (front ++ (c ++ '/' :: back))[front.length + c.length]? = some '/' := by
    rw [hblock, ← List.length_append, List.getElem?_append_right le_rfl, Nat.sub_self]
    rfl
  have hstore : store (front ++ (c ++ '/' :: back)) (front.length + c.length) nul =
      some (front ++ (c ++ nul :: back)) := by
    rw [store_eq hblock (by simp), List.append_assoc]
  rw [splitLoop_piece hnul hslash, splitLoop, hat]
  simp only [hstore, if_neg (by decide : '/' ≠ nul), if_true]
  by_cases hc : c = []
  · rw [if_neg (by simp [hc]), if_pos hc]
  · rw [if_pos (Nat.lt_add_of_pos_right (List.length_pos_iff.mpr hc)), if_neg hc]

/-- The loop ends at the terminator.  The piece before it is not an entry yet. -/
theorem splitLoop_spec {pre : Buf} (tail : Buf) (t : Text) (ht : nul ∉ t) {b : Buf}
    {ents : List Nat} {names : List Text} (h : Layout pre.length b ents names) {n : Nat}
    (hn : t.length < n) :
    ∃ region piece ents' names',
      splitLoop n (pre ++ (b ++ (t ++ nul :: tail))) (pre.length + b.length)
          (pre.length + b.length) ents =
        some (pre ++ (region ++ (piece ++ nul :: tail)), pre.length + region.length + piece.length,
          pre.length + region.length, ents') ∧
      region.length + piece.length = b.length + t.length ∧
      Layout pre.length region ents' names' ∧ nul ∉ piece ∧ (piece = [] ↔ Trailing t) ∧
      (components t).foldl (resolveStep ['.'] ['.', '.']) names =
        if piece = [] then names' else resolveStep ['.'] ['.', '.'] names' piece := by
  induction t using slash_induction generalizing b ents names n with
  | piece c hc =>
    obtain ⟨k, rfl⟩ : ∃ k, n = c.length + (k + 1) := ⟨n - c.length - 1, by omega⟩
    refine ⟨b, c, ents, names, ?_, rfl, h, ht, (trailing_piece hc).symm, ?_⟩
    · have hend := splitLoop_end ht hc k (pre ++ b) tail ents
      rwa [List.append_assoc, List.length_append] at hend
    · rw [components_piece hc]
      split <;> rfl
  | slash c t hc ih =>
    obtain ⟨k, rfl⟩ : ∃ k, n = c.length + (k + 1) :=
      ⟨n - c.length - 1, by simp at hn; omega⟩
    have hcnul : nul ∉ c := fun h => ht (List.mem_append_left _ h)
    have htnul : nul ∉ t := fun h => ht (List.mem_append_right _ (List.mem_cons_of_mem _ h))
    have hslash := splitLoop_slash hcnul hc k (pre ++ b) (t ++ nul :: tail) ents
    have hnext : ∃ ents' names', Layout pre.length (b ++ (c ++ [nul])) ents' names' ∧
        (if c = [] then ents else canonAdd (pre ++ b ++ (c ++ nul :: (t ++ nul :: tail))) ents
          (pre ++ b).length) = ents' ∧
        (if c = [] then [] else [c]).foldl (resolveStep ['.'] ['.', '.']) names = names' := by
      by_cases hempty : c = []
      · exact ⟨ents, names, h.append _, if_pos hempty, by rw [if_pos hempty]; rfl⟩
      · refine ⟨_, _, canonAdd_layout h hcnul (t ++ nul :: tail), ?_, by rw [if_neg hempty]; rfl⟩
        rw [if_neg hempty, List.append_assoc, List.length_append]
    obtain ⟨ents₁, names₁, hlayout, hents, hnames⟩ := hnext
    obtain ⟨region, piece, ents', names', hrun, hlen, hdone, hpiece, htrail, hfold⟩ :=
      ih htnul hlayout (n := k) (by simp at hn; omega)
    refine ⟨region, piece, ents', names', ?_, ?_, hdone, hpiece,
      htrail.trans (trailing_slash c t).symm, ?_⟩
    · rw [hents] at hslash
      simp only [List.append_assoc, List.length_append, List.length_singleton, List.cons_append,
        List.nil_append, ← Nat.add_assoc] at hslash hrun ⊢
      rw [hslash, hrun]
    · simp at hlen ⊢
      omega
    · rw [components_slash hc, List.foldl_append, hnames, hfold]

/-! ## Putting it together again -/

/-- Each name and a slash. -/
def slashed (names : List Text) : Text := names.flatMap (· ++ ['/'])

/-- An entry moves down; its slash stays below the entries that follow. -/
theorem writeStep_eq (done junk name : Buf) (rest : Buf) :
    ∃ junk', (memmove (done ++ (junk ++ (name ++ nul :: rest))) done.length
          (done.length + junk.length) name.length).bind
        (store · (done.length + name.length) '/') =
      some (done ++ (name ++ ['/']) ++ (junk' ++ rest)) ∧ junk'.length = junk.length := by
  have hsrc : (done ++ (junk ++ (name ++ nul :: rest))).drop (done.length + junk.length) =
      name ++ nul :: rest := by
    rw [← List.append_assoc, ← List.length_append, List.drop_left]
  -- the bytes that the name does not cover, and the terminator
  obtain ⟨c, left, hleft⟩ : ∃ c left, (junk ++ name).drop name.length ++ [nul] = c :: left :=
    List.exists_cons_of_ne_nil (by simp)
  have hlen : left.length = junk.length := by
    have hcount := congrArg List.length hleft
    simp at hcount
    omega
  have hblock : done ++ (junk ++ (name ++ nul :: rest)) =
      done ++ (junk ++ name).take name.length ++ (c :: (left ++ rest)) := by
    rw [← List.cons_append, ← hleft]
    simp only [List.append_assoc, List.singleton_append]
    rw [← List.append_assoc ((junk ++ name).take _), List.take_append_drop, List.append_assoc]
  have hmove : memmove (done ++ (junk ++ (name ++ nul :: rest))) done.length
      (done.length + junk.length) name.length = some (done ++ name ++ (c :: (left ++ rest))) := by
    unfold memmove
    rw [if_pos (by simp), hsrc, memcpy_eq hblock rfl (by simp) (by simp)]
    simp
  refine ⟨left, ?_, hlen⟩
  rw [hmove, Option.bind_some, store_eq rfl (by simp)]
  simp

theorem writeLoop_cons (i : Nat) (ents : List Nat) (b : Buf) (dest : Nat) {name : Text}
    (hname : strAt b i = name) :
    writeLoop (i :: ents) b dest =
      ((memmove b dest i name.length).bind (store · (dest + name.length) '/')).bind
        (writeLoop ents · (dest + name.length + 1)) := by
  rw [writeLoop, hname, Option.bind_assoc]
  rfl

theorem writeLoop_spec {off : Nat} {b : Buf} {ents : List Nat} {names : List Text}
    (h : Layout off b ents names) (done junk back : Buf) (hoff : off = done.length + junk.length) :
    ∃ junk', writeLoop ents (done ++ (junk ++ (b ++ back))) done.length =
        some (done ++ slashed names ++ (junk' ++ back), (done ++ slashed names).length) ∧
      (slashed names).length + junk'.length = junk.length + b.length := by
  induction h generalizing done junk with
  | nil off b => exact ⟨junk ++ b, by simp [writeLoop, slashed], by simp [slashed]⟩
  | @cons off gap name rest ents names hname _ ih =>
    subst hoff
    obtain ⟨junk₁, hstep, hlen₁⟩ := writeStep_eq done (junk ++ gap) name (rest ++ back)
    obtain ⟨junk₂, hrest, hlen₂⟩ := ih (done ++ (name ++ ['/'])) junk₁ (by simp [hlen₁]; omega)
    have hat : strAt (done ++ (junk ++ (gap ++ (name ++ nul :: rest) ++ back)))
        (done.length + junk.length + gap.length) = name := by
      have hblock : done ++ (junk ++ (gap ++ (name ++ nul :: rest) ++ back)) =
          (done ++ junk ++ gap) ++ (name ++ nul :: (rest ++ back)) := by simp
      have hindex : done.length + junk.length + gap.length = (done ++ junk ++ gap).length := by
        simp [Nat.add_assoc]
      rw [hblock, hindex, strAt_eq hname]
    refine ⟨junk₂, ?_, ?_⟩
    · rw [writeLoop_cons _ _ _ _ hat]
      simp only [List.append_assoc, List.cons_append, List.nil_append, List.length_append,
        List.length_singleton, ← Nat.add_assoc] at hstep hrest ⊢
      rw [hstep, Option.bind_some, hrest]
      simp [slashed, Nat.add_assoc]
    · simp [slashed] at hlen₁ hlen₂ ⊢
      omega

/-! ## The whole function -/

/-- The slash in front, if there is one. -/
def root (s : Text) : Text := if s.head? = some '/' then ['/'] else []

/-- The names that are left. -/
def resolved (s : Text) : List Text := resolve ['.'] ['.', '.'] (components s)

/-- The leading slash is apart from the rest of the path. -/
theorem start_eq (s : Text) (hs : nul ∉ s) (tail : Buf) :
    ∃ pre t n,
      splitLoop ((s ++ nul :: tail).length + 1) (s ++ nul :: tail) 0 0 [] =
        splitLoop n (pre ++ ([] ++ (t ++ nul :: tail))) (pre.length + 0) (pre.length + 0) [] ∧
      t.length < n ∧ nul ∉ t ∧ pre.length = (root s).length ∧
      s.length = pre.length + t.length ∧ components s = components t ∧
      (Trailing s ↔ Trailing t) ∧
      ∀ b, startDest ((s ++ nul :: tail)[0]? == some '/') (pre ++ b) =
        some (root s ++ b, (root s).length) := by
  by_cases hroot : s.head? = some '/'
  · obtain ⟨t, rfl⟩ : ∃ t, s = '/' :: t := by
      cases s with
      | nil => simp at hroot
      | cons c t => exact ⟨t, by simpa using hroot⟩
    refine ⟨[nul], t, ('/' :: t ++ nul :: tail).length, ?_, by simp,
      fun h => hs (List.mem_cons_of_mem _ h), by simp [root], by simp [Nat.add_comm], ?_, ?_,
      fun b => by simp [root, store, startDest]⟩
    · have hslash := splitLoop_slash (c := []) (by simp) (by simp)
        ('/' :: t ++ nul :: tail).length [] (t ++ nul :: tail) []
      simpa [Nat.add_comm] using hslash
    · simpa using components_slash (c := []) (by simp) t
    · simpa using trailing_slash [] t
  · have hhead : ((s ++ nul :: tail)[0]? == some '/') = false := by
      cases s with
      | nil => simp [nul]
      | cons c t => simpa using hroot
    exact ⟨[], s, (s ++ nul :: tail).length + 1, by simp, by simp, hs, by simp [root, hroot],
      by simp, rfl, Iff.rfl, fun b => by rw [hhead]; simp [root, hroot, startDest]⟩

/-- Everything but the last store. -/
theorem canonicalisePath_eq (s : Text) (hs : nul ∉ s) (tail : Buf) :
    ∃ junk, (root s ++ slashed (resolved s)).length + junk.length =
        s.length + (if Trailing s then 0 else 1) ∧
      canonicalisePath (s ++ nul :: tail) =
        storeAt (root s ++ slashed (resolved s) ++
            (junk ++ if Trailing s then nul :: tail else tail))
          ((root s ++ slashed (resolved s)).length + if Trailing s then 0 else -1) nul := by
  obtain ⟨pre, t, n, hsplit, hn, ht, hpre, hlen, hcomps, htrail, hroot⟩ := start_eq s hs tail
  obtain ⟨region, piece, ents, names, hrun, hcount, hlayout, hpiece, hend, hfold⟩ :=
    splitLoop_spec tail t ht (.nil pre.length []) hn
  have hrun := hsplit.trans hrun
  have hresolved : resolved s = if piece = [] then names
      else resolveStep ['.'] ['.', '.'] names piece := by
    rw [← hfold]
    unfold resolved
    rw [hcomps]
    rfl
  by_cases hempty : piece = []
  · have htrailing : Trailing s := htrail.mpr (hend.mp hempty)
    rw [if_pos hempty] at hresolved
    rw [hpre] at hlayout
    obtain ⟨junk, hwrite, hjunk⟩ := writeLoop_spec hlayout (root s) [] (nul :: tail) rfl
    refine ⟨junk, ?_, ?_⟩
    · simp [hresolved, htrailing, hempty] at hcount hjunk ⊢
      omega
    · have hstay : ¬ pre.length + region.length + piece.length > pre.length + region.length := by
        simp [hempty]
      unfold canonicalisePath
      rw [hrun, Option.bind_eq_bind, Option.bind_some]
      simp only [if_neg hstay, hroot, if_pos htrailing]
      rw [hempty, List.nil_append, Option.bind_eq_bind, Option.bind_some]
      rw [List.nil_append] at hwrite
      simp only [hwrite, hresolved, Option.bind_some]
      rfl
  · have htrailing : ¬ Trailing s := fun h => hempty (hend.mpr (htrail.mp h))
    have hadd := canonAdd_layout hlayout hpiece tail
    rw [if_neg hempty] at hresolved
    rw [← hresolved, hpre] at hadd
    obtain ⟨junk, hwrite, hjunk⟩ := writeLoop_spec hadd (root s) [] tail rfl
    refine ⟨junk, ?_, ?_⟩
    · simp [htrailing] at hcount hjunk ⊢
      omega
    · have hmove : pre.length + region.length + piece.length > pre.length + region.length :=
        Nat.lt_add_of_pos_right (List.length_pos_iff.mpr hempty)
      unfold canonicalisePath
      rw [hrun, Option.bind_eq_bind, Option.bind_some]
      simp only [if_pos hmove, hroot, if_neg htrailing]
      rw [Option.bind_eq_bind, Option.bind_some]
      simp only [List.append_assoc, List.nil_append, List.cons_append, hpre] at hwrite ⊢
      simp only [hwrite, Option.bind_some]
      rfl

/-- Something is left, or the path needs no slash to be taken away. -/
def Ends (s : Text) : Prop := Trailing s ∨ resolved s ≠ []

/-- The path that is written. -/
def canonical (s : Text) : Text :=
  root s ++ if Trailing s then slashed (resolved s) else (slashed (resolved s)).dropLast

theorem storeAt_natCast (b : Buf) (i : Nat) (c : Char) : storeAt b i c = store b i c := by
  simp [storeAt]

theorem slashed_ne_nil {names : List Text} (h : names ≠ []) :
    slashed names = (slashed names).dropLast ++ ['/'] := by
  rcases List.eq_nil_or_concat names with rfl | ⟨front, name, rfl⟩
  · exact absurd rfl h
  · have hlast : slashed (front ++ [name]) = (slashed front ++ name) ++ ['/'] := by simp [slashed]
    rw [List.concat_eq_append, hlast, List.dropLast_concat]

theorem canonicalisePath_ends {s : Text} (hs : nul ∉ s) (tail : Buf) (h : Ends s) :
    ∃ junk, (canonical s).length + junk.length = s.length ∧
      canonicalisePath (s ++ nul :: tail) = some (canonical s ++ nul :: (junk ++ tail)) := by
  obtain ⟨junk, hlen, hrun⟩ := canonicalisePath_eq s hs tail
  by_cases htrailing : Trailing s
  · -- the terminator goes behind the last slash
    have htext : canonical s = root s ++ slashed (resolved s) := by rw [canonical, if_pos htrailing]
    obtain ⟨c, left, hleft⟩ : ∃ c left, junk ++ [nul] = c :: left :=
      List.exists_cons_of_ne_nil (by simp)
    have hcount := congrArg List.length hleft
    have hback : junk ++ nul :: tail = c :: (left ++ tail) := by
      rw [← List.cons_append, ← hleft, List.append_assoc]
      rfl
    rw [if_pos htrailing] at hlen hrun
    refine ⟨left, by rw [htext]; simp at hcount; omega, ?_⟩
    rw [hrun, if_pos htrailing, Int.add_zero, storeAt_natCast, hback, htext]
    exact store_eq rfl rfl
  · -- the terminator takes the place of the last slash
    have hslash := slashed_ne_nil (h.resolve_left htrailing)
    have htext : canonical s = root s ++ (slashed (resolved s)).dropLast := by
      rw [canonical, if_neg htrailing]
    have hfull : root s ++ slashed (resolved s) = canonical s ++ ['/'] := by
      rw [htext, List.append_assoc, ← hslash]
    rw [if_neg htrailing, hfull] at hlen hrun
    have hindex : ((canonical s ++ ['/']).length : Int) + -1 = ((canonical s).length : Nat) := by
      simp
    refine ⟨junk, by simp at hlen; omega, ?_⟩
    rw [hrun, if_neg htrailing, hindex, storeAt_natCast, List.append_assoc]
    exact store_eq rfl rfl

/-- With nothing left, the terminator is written one place too far in front. -/
theorem canonicalisePath_not_ends {s : Text} (hs : nul ∉ s) (tail : Buf) (h : ¬ Ends s) :
    (s.head? ≠ some '/' → canonicalisePath (s ++ nul :: tail) = none) ∧
      (s.head? = some '/' → ∃ rest, canonicalisePath (s ++ nul :: tail) = some (nul :: rest)) := by
  obtain ⟨htrailing, hnone⟩ := not_or.mp h
  obtain ⟨junk, -, hrun⟩ := canonicalisePath_eq s hs tail
  rw [if_neg htrailing, if_neg htrailing, not_not.mp hnone] at hrun
  constructor
  · intro hhead
    rw [hrun, root, if_neg hhead]
    rfl
  · intro hhead
    refine ⟨junk ++ tail, ?_⟩
    rw [hrun, root, if_pos hhead]
    exact (storeAt_natCast _ 0 _).trans (by simp [store, slashed])

/-! ## The path that is written -/

theorem subset_of_cancels {l r : List Text} (h : Cancels ['.'] ['.', '.'] l r) : r ⊆ l := by
  induction h with
  | refl => exact List.Subset.refl _
  | tail _ hstep ih =>
    refine List.Subset.trans ?_ ih
    cases hstep <;> intro x hx <;> simp at hx ⊢ <;> tauto

theorem mem_components {s c : Text} (h : c ∈ components s) : c ≠ [] ∧ '/' ∉ c ∧ ∀ x ∈ c, x ∈ s := by
  induction s using slash_induction with
  | piece d hd =>
    rw [components_piece hd] at h
    split at h
    · simp at h
    · obtain rfl := List.mem_singleton.mp h
      exact ⟨‹_›, hd, fun x hx => hx⟩
  | slash d t hd ih =>
    rw [components_slash hd, List.mem_append] at h
    rcases h with h | h
    · split at h
      · simp at h
      · obtain rfl := List.mem_singleton.mp h
        exact ⟨‹_›, hd, fun x hx => List.mem_append_left _ hx⟩
    · obtain ⟨hne, hslash, hsub⟩ := ih h
      exact ⟨hne, hslash, fun x hx => by simp [hsub x hx]⟩

theorem mem_resolved {s c : Text} (h : c ∈ resolved s) : c ≠ [] ∧ '/' ∉ c ∧ ∀ x ∈ c, x ∈ s :=
  mem_components (subset_of_cancels (cancels_resolve (by decide) _) h)

theorem resolved_names (s : Text) : ∀ c ∈ resolved s, c ≠ [] ∧ '/' ∉ c := by
  intro c hc
  obtain ⟨hne, hslash, -⟩ := mem_resolved hc
  exact ⟨hne, hslash⟩

theorem components_slashed {names : List Text} (h : ∀ c ∈ names, c ≠ [] ∧ '/' ∉ c) (t : Text) :
    components (slashed names ++ t) = names ++ components t := by
  induction names with
  | nil => rfl
  | cons c names ih =>
    obtain ⟨hne, hslash⟩ := h c List.mem_cons_self
    have hrest := ih fun d hd => h d (List.mem_cons_of_mem _ hd)
    have htext : slashed (c :: names) ++ t = c ++ '/' :: (slashed names ++ t) := by simp [slashed]
    rw [htext, components_slash hslash, if_neg hne, hrest]
    rfl

theorem components_dropLast {names : List Text} (h : ∀ c ∈ names, c ≠ [] ∧ '/' ∉ c) :
    components (slashed names).dropLast = names := by
  rcases List.eq_nil_or_concat names with rfl | ⟨front, name, rfl⟩
  · rfl
  · rw [List.concat_eq_append] at h ⊢
    obtain ⟨hne, hslash⟩ := h name (by simp)
    have htext : slashed (front ++ [name]) = (slashed front ++ name) ++ ['/'] := by simp [slashed]
    rw [htext, List.dropLast_concat, components_slashed fun c hc => h c (by simp [hc]),
      components_piece hslash, if_neg hne]

theorem components_root (s t : Text) : components (root s ++ t) = components t := by
  unfold root
  split
  · exact components_slash List.not_mem_nil t
  · rfl

theorem components_canonical (s : Text) : components (canonical s) = resolved s := by
  unfold canonical
  rw [components_root]
  split
  · have hall := components_slashed (resolved_names s) []
    rw [List.append_nil] at hall
    exact hall.trans (List.append_nil _)
  · exact components_dropLast (resolved_names s)

theorem resolved_canonical (s : Text) : resolved (canonical s) = resolved s := by
  unfold resolved
  rw [components_canonical]
  exact resolve_resolve (by decide) _

/-- No name starts with a slash. -/
theorem head_ne_slash {names : List Text} (h : ∀ c ∈ names, c ≠ [] ∧ '/' ∉ c) {t : Text}
    (ht : t <+: slashed names) : t.head? ≠ some '/' := by
  intro hhead
  obtain ⟨t, rfl⟩ : ∃ t', t = '/' :: t' := by
    cases t with
    | nil => simp at hhead
    | cons x t => exact ⟨t, by simpa using hhead⟩
  obtain ⟨rest, hrest⟩ := ht
  cases names with
  | nil => simp [slashed] at hrest
  | cons c names =>
    obtain ⟨hne, hslash⟩ := h c List.mem_cons_self
    cases c with
    | nil => exact hne rfl
    | cons x c =>
      have hx : '/' = x := by
        simp [slashed] at hrest
        exact hrest.1
      exact hslash (hx ▸ List.mem_cons_self)

theorem head_canonical (s : Text) : (canonical s).head? = some '/' ↔ s.head? = some '/' := by
  by_cases hhead : s.head? = some '/'
  · simp [canonical, root, hhead]
  · refine iff_of_false ?_ hhead
    simp only [canonical, root, if_neg hhead, List.nil_append]
    split
    · exact head_ne_slash (resolved_names s) List.prefix_rfl
    · exact head_ne_slash (resolved_names s) (List.dropLast_prefix _)

theorem root_canonical (s : Text) : root (canonical s) = root s := by
  unfold root
  rw [if_congr (head_canonical s) rfl rfl]

theorem trailing_root (s : Text) : Trailing (root s) := by
  unfold root Trailing
  split <;> simp

/-- A slash at the end is kept, and none is added. -/
theorem trailing_canonical {s : Text} (h : Ends s) : Trailing (canonical s) ↔ Trailing s := by
  by_cases htrailing : Trailing s
  · refine iff_of_true ?_ htrailing
    simp only [canonical, if_pos htrailing]
    rcases List.eq_nil_or_concat (resolved s) with hnil | ⟨front, name, hlast⟩
    · rw [hnil]
      simpa [slashed] using trailing_root s
    · right
      rw [hlast, List.concat_eq_append]
      simp [slashed]
  · refine iff_of_false ?_ htrailing
    simp only [canonical, if_neg htrailing]
    rcases List.eq_nil_or_concat (resolved s) with hnil | ⟨front, name, hlast⟩
    · exact absurd hnil (h.resolve_left htrailing)
    · rw [List.concat_eq_append] at hlast
      have hmem : name ∈ resolved s := hlast ▸ List.mem_append_right _ (List.mem_singleton.mpr rfl)
      obtain ⟨hne, hslash, -⟩ := mem_resolved hmem
      have htext : slashed (front ++ [name]) = (slashed front ++ name) ++ ['/'] := by simp [slashed]
      rw [hlast, htext, List.dropLast_concat]
      rintro (hnil | hend)
      · simp [hne] at hnil
      · rw [← List.append_assoc, List.getLast?_append_of_ne_nil _ hne] at hend
        exact hslash (List.mem_of_getLast? hend)

theorem canonical_canonical {s : Text} (h : Ends s) : canonical (canonical s) = canonical s := by
  have hagain : canonical (canonical s) = root s ++
      if Trailing s then slashed (resolved s) else (slashed (resolved s)).dropLast := by
    rw [canonical, root_canonical, resolved_canonical, if_congr (trailing_canonical h) rfl rfl]
  exact hagain

theorem ends_canonical {s : Text} (h : Ends s) : Ends (canonical s) := by
  unfold Ends
  rwa [trailing_canonical h, resolved_canonical]

theorem nul_notMem_canonical {s : Text} (hs : nul ∉ s) : nul ∉ canonical s := by
  have hslashed : nul ∉ slashed (resolved s) := by
    intro hmem
    obtain ⟨c, hc, hin⟩ := List.mem_flatMap.mp hmem
    rcases List.mem_append.mp hin with hin | hin
    · exact hs ((mem_resolved hc).2.2 _ hin)
    · simp [nul] at hin
  have hroot : nul ∉ root s := by
    unfold root
    split <;> simp [nul]
  unfold canonical
  intro hmem
  rcases List.mem_append.mp hmem with hmem | hmem
  · exact hroot hmem
  · split at hmem
    · exact hslashed hmem
    · exact hslashed ((List.dropLast_sublist _).subset hmem)

/-! ## The result -/

/-- The function stays inside of the path's block.  The path that it leaves there names the
same place, has nothing left to resolve, and stays as it is the next time. -/
def Canonicalises (s : Text) : Prop :=
  ∃ b, canonicalisePath (alloc s) = some b ∧
    ((cstr b).head? = some '/' ↔ s.head? = some '/') ∧
    Cancels ['.'] ['.', '.'] (components s) (components (cstr b)) ∧
    Resolved ['.'] ['.', '.'] (components (cstr b)) ∧
    canonicalisePath b = some b

theorem canonicalise_path_iff (s : Text) (hs : nul ∉ s) :
    Canonicalises s ↔
      s = [] ∨ s.getLast? = some '/' ∨ ¬ Cancels ['.'] ['.', '.'] (components s) [] := by
  have hends : (s = [] ∨ s.getLast? = some '/' ∨ ¬ Cancels ['.'] ['.', '.'] (components s) []) ↔
      Ends s := by
    rw [cancels_nil_iff (by decide), ← or_assoc]
    rfl
  rw [hends]
  constructor
  · rintro ⟨b, hb, hhead, -, -, -⟩
    by_contra hbad
    obtain ⟨hrel, habs⟩ := canonicalisePath_not_ends hs [] hbad
    by_cases hslash : s.head? = some '/'
    · obtain ⟨rest, hrest⟩ := habs hslash
      cases hb.symm.trans hrest
      simpa [cstr] using hhead.mpr hslash
    · cases hb.symm.trans (hrel hslash)
  · intro hok
    obtain ⟨junk, -, hrun⟩ := canonicalisePath_ends hs [] hok
    obtain ⟨junk', hlen, hagain⟩ :=
      canonicalisePath_ends (nul_notMem_canonical hs) (junk ++ []) (ends_canonical hok)
    rw [canonical_canonical hok] at hlen hagain
    have hjunk : junk' = [] := List.length_eq_zero_iff.mp (by omega)
    rw [hjunk] at hagain
    refine ⟨_, hrun, ?_⟩
    rw [cstr_append_nul (nul_notMem_canonical hs), components_canonical]
    exact ⟨head_canonical s, cancels_resolve (by decide) _, resolved_resolve (by decide) _, hagain⟩

theorem canonicalise_path_iff_file :
    Canonicalises "./a//b/../c".toList ↔ "./a//b/../c".toList = [] ∨
      "./a//b/../c".toList.getLast? = some '/' ∨
      ¬ Cancels ['.'] ['.', '.'] (components "./a//b/../c".toList) [] :=
  canonicalise_path_iff _ (by decide)

/-- The terminator is written in front of the block. -/
theorem canonicalise_path_cancelled : ¬ Canonicalises "a/..".toList := by
  rintro ⟨b, hb, -⟩
  have hnone : canonicalisePath (alloc "a/..".toList) = none := by decide
  cases hb.symm.trans hnone

end Ucc.Util.Path
