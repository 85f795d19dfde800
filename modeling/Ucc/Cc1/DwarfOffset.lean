/-
  Cc1/DwarfOffset.lean --- where the DIEs are, and where they are said to be.

  The two passes over the tree are folds over the list of what they meet, the
  DIEs and the ends of their children.  They always agree with each other.  What
  the assembler places can be less: an escape of a string counts for each of its
  characters.
-/
import Mathlib.Tactic
import Ucc.Cc1.Dwarf

set_option autoImplicit false

namespace Ucc.Cc1.Dwarf

open Ucc.Util

/-! ## LEB128 -/

theorem lebOutSigned_spec (sv : BitVec 64) (len : Nat) :
    (lebOutSigned sv len).2 = lebLengthSigned sv len ∧
      (lebOutSigned sv len).2 + 1 = len + (lebOutSigned sv len).1.length := by
  fun_induction lebOutSigned sv len with
  | case1 sv len hdone =>
    rw [lebLengthSigned, if_pos hdone]
    simp
  | case2 sv len hdone bytes n hrec ih =>
    rw [lebLengthSigned, if_neg hdone]
    rw [hrec] at ih
    refine ⟨ih.1, ?_⟩
    have := ih.2
    simp only [List.length_cons] at this ⊢
    omega

theorem lebOutUnsigned_spec (v : BitVec 64) (len : Nat) :
    (lebOutUnsigned v len).2 = lebLengthUnsigned v len ∧
      (lebOutUnsigned v len).2 + 1 = len + (lebOutUnsigned v len).1.length := by
  fun_induction lebOutUnsigned v len with
  | case1 v len hdone =>
    rw [lebLengthUnsigned, if_pos hdone]
    simp
  | case2 v len hdone bytes n hrec ih =>
    rw [lebLengthUnsigned, if_neg hdone]
    rw [hrec] at ih
    refine ⟨ih.1, ?_⟩
    have := ih.2
    simp only [List.length_cons] at this ⊢
    omega

/-- The length that `leb128_out` returns is `leb128_length`. -/
theorem leb128Out_snd (v : BitVec 64) (sig : Bool) : (leb128Out v sig).2 = leb128Length v sig := by
  cases sig with
  | true => exact (lebOutSigned_spec v 1).1
  | false => exact (lebOutUnsigned_spec v 1).1

/-- So many bytes are printed. -/
theorem leb128Out_length (v : BitVec 64) (sig : Bool) :
    (leb128Out v sig).1.length = leb128Length v sig := by
  rw [← leb128Out_snd]
  cases sig with
  | true =>
    have := (lebOutSigned_spec v 1).2
    simp only [leb128Out, if_true]
    omega
  | false =>
    have := (lebOutUnsigned_spec v 1).2
    simp only [leb128Out, Bool.false_eq_true, if_false]
    omega

theorem leb128Length_pos (v : BitVec 64) (sig : Bool) : 0 < leb128Length v sig := by
  rw [← leb128Out_length]
  unfold leb128Out
  split
  · rw [lebOutSigned]
    split <;> simp
  · rw [lebOutUnsigned]
    split <;> simp

/-! ## Strings -/

/-- A byte that `str_add_escape` writes as itself. -/
def plain (v : UInt8) : Bool := isprint v && v != ascii '\\' && v != ascii '"'

theorem addEscape_plain {v : UInt8} (h : plain v = true) : addEscape v = [v] := by
  simp only [plain, Bool.and_eq_true, bne_iff_ne] at h
  simp [addEscape, h.1.1, h.1.2, h.2]

theorem addEscape_length_pos (v : UInt8) : 1 ≤ (addEscape v).length := by
  unfold addEscape
  split
  · simp
  · split
    · simp [octal]
    · simp

theorem addEscape_length_iff (v : UInt8) : (addEscape v).length = 1 ↔ plain v = true := by
  constructor
  · intro h
    unfold addEscape at h
    split at h
    · simp at h
    · next hq =>
      split at h
      · simp [octal] at h
      · next hp =>
        rw [Bool.or_eq_true, not_or] at hq
        simp only [plain, Bool.and_eq_true, bne_iff_ne]
        simp only [beq_iff_eq] at hq
        exact ⟨⟨by simpa using hp, hq.1⟩, hq.2⟩
  · intro h
    rw [addEscape_plain h]
    rfl

theorem length_le_strAddEscape (s : List UInt8) : s.length ≤ (strAddEscape s).length := by
  induction s with
  | nil => exact Nat.le_refl 0
  | cons v s ih =>
    have := addEscape_length_pos v
    unfold strAddEscape at ih ⊢
    rw [List.flatMap_cons, List.length_append, List.length_cons]
    omega

/-- Nothing is written for an escape exactly when every byte stands for itself. -/
theorem strAddEscape_length_iff (s : List UInt8) :
    (strAddEscape s).length = s.length ↔ ∀ v ∈ s, plain v = true := by
  induction s with
  | nil => simp [strAddEscape]
  | cons v s ih =>
    have hv := addEscape_length_pos v
    have hs := length_le_strAddEscape s
    rw [List.forall_mem_cons, ← ih, ← addEscape_length_iff]
    unfold strAddEscape at hs ⊢
    rw [List.flatMap_cons, List.length_append, List.length_cons]
    omega

/-- The digits of an octal escape, read by the assembler. -/
theorem digitsValue_octal (v : UInt8) :
    digitsValue 8 (octal v).tail = v ∧ (octal v).tail.all isodigit = true := by
  have h : ∀ n : Fin 256, digitsValue 8 (octal (UInt8.ofNat n)).tail = UInt8.ofNat n ∧
      (octal (UInt8.ofNat n)).tail.all isodigit = true := by
    decide +kernel
  simpa using h v.toFin

theorem asUnescape_octal (v : UInt8) (rest : List UInt8) :
    asUnescape (octal v ++ rest) = v :: asUnescape rest := by
  obtain ⟨hvalue, hdigits⟩ := digitsValue_octal v
  simp only [octal, List.tail_cons, List.all_cons, List.all_nil, Bool.and_true,
    Bool.and_eq_true] at hvalue hdigits
  obtain ⟨h1, h2, h3⟩ := hdigits
  change asUnescape (ascii '\\' :: _ :: _ :: _ :: rest) = _
  rw [asUnescape]
  simp [h1, h2, h3, hvalue]

/-- One character, written and read by the assembler. -/
theorem asUnescape_addEscape (v : UInt8) (rest : List UInt8) :
    asUnescape (addEscape v ++ rest) = v :: asUnescape rest := by
  unfold addEscape
  split
  · next hq =>
    have hread : isodigit v = false ∧ (v == ascii 'x') = false ∧
        (asEscapes.find? fun p => ascii p.1 == v) = none := by
      rw [Bool.or_eq_true, beq_iff_eq, beq_iff_eq] at hq
      rcases hq with rfl | rfl <;> decide
    change asUnescape (ascii '\\' :: v :: rest) = _
    rw [asUnescape]
    simp [hread]
  · next hq =>
    split
    · exact asUnescape_octal v rest
    · rw [Bool.or_eq_true, not_or] at hq
      rw [List.singleton_append, asUnescape.eq_def]
      simp [hq.1]

/-- The assembler reads a string as it was before it was escaped. -/
theorem asUnescape_strAddEscape (s : List UInt8) : asUnescape (strAddEscape s) = s := by
  induction s with
  | nil => simp [strAddEscape, asUnescape]
  | cons v s ih =>
    unfold strAddEscape at ih ⊢
    rw [List.flatMap_cons, asUnescape_addEscape, ih]

/-! ## Both passes as folds -/

/-- What the passes meet. -/
inductive Item where
  | die (d : DIE)
  | endOfChildren

mutual

/-- The DIEs of a tree and the ends of children, in the order of both passes. -/
def DIE.items : DIE → List Item
  | .mk ptr tag attrs children =>
      .die (.mk ptr tag attrs children) ::
        if children.isEmpty then [] else childItems children ++ [.endOfChildren]

/-- Those of a list of trees. -/
def childItems : List DIE → List Item
  | [] => []
  | d :: ds => d.items ++ childItems ds

end

/-- One item in `dwarf_offset_die`. -/
def offsetItem (p : Offsets × Nat) : Item → Option (Offsets × Nat)
  | .die d =>
      if p.1.locn d.ptr ≠ 0 then none
      else some (p.1.place d.ptr p.2, p.2 + ownOffset (p.1.codes + 1) d.attrs)
  | .endOfChildren => some (p.1, p.2 + 1)

/-- One item in `dwarf_flush_die`. -/
def flushItem (arch : Arch) (s : Offsets) (state : DIEFlush) : Item → Option DIEFlush
  | .die d => dwarfFlushDie1 arch s d state
  | .endOfChildren => some (endOfChildren state)

theorem map_eq_foldlM {α β : Type} {step : α → β → Option α} {b : β} {f : α → α} {x : Option α}
    (h : ∀ a, step a b = some (f a)) : x.map f = x >>= fun a => [b].foldlM step a := by
  cases x with
  | none => rfl
  | some a =>
    simp [h]

mutual

theorem dwarfOffsetDie_eq : ∀ (d : DIE) (p : Offsets × Nat),
    dwarfOffsetDie d p = d.items.foldlM offsetItem p
  | .mk ptr tag attrs children, (s, off) => by
    rw [dwarfOffsetDie, DIE.items, List.foldlM_cons]
    by_cases hset : s.locn ptr ≠ 0
    · have hitem : offsetItem (s, off) (.die (.mk ptr tag attrs children)) = none := if_pos hset
      rw [hitem, if_pos hset]
      rfl
    · have hitem : offsetItem (s, off) (.die (.mk ptr tag attrs children)) =
          some (s.place ptr off, off + ownOffset (s.codes + 1) attrs) := if_neg hset
      rw [hitem, if_neg hset, Option.bind_eq_bind, Option.bind_some]
      split
      · rfl
      · dsimp only
        rw [dwarfOffsetChildren_eq, List.foldlM_append]
        exact map_eq_foldlM fun _ => rfl

theorem dwarfOffsetChildren_eq : ∀ (ds : List DIE) (p : Offsets × Nat),
    dwarfOffsetChildren ds p = (childItems ds).foldlM offsetItem p
  | [], p => rfl
  | d :: ds, p => by
    rw [dwarfOffsetChildren, childItems, List.foldlM_append, dwarfOffsetDie_eq d p]
    congr 1
    funext p'
    exact dwarfOffsetChildren_eq ds p'

end

mutual

theorem dwarfFlushDie_eq (arch : Arch) (s : Offsets) : ∀ (d : DIE) (state : DIEFlush),
    dwarfFlushDie arch s d state = d.items.foldlM (flushItem arch s) state
  | .mk ptr tag attrs children, state => by
    rw [dwarfFlushDie, DIE.items, List.foldlM_cons]
    simp only [flushItem]
    congr 1
    funext state'
    split
    · rfl
    · rw [dwarfFlushDieChildren_eq, List.foldlM_append]
      exact map_eq_foldlM fun _ => rfl

theorem dwarfFlushDieChildren_eq (arch : Arch) (s : Offsets) :
    ∀ (ds : List DIE) (state : DIEFlush),
      dwarfFlushDieChildren arch s ds state = (childItems ds).foldlM (flushItem arch s) state
  | [], state => rfl
  | d :: ds, state => by
    rw [dwarfFlushDieChildren, childItems, List.foldlM_append, dwarfFlushDie_eq arch s d state]
    congr 1
    funext state'
    exact dwarfFlushDieChildren_eq arch s ds state'

end

/-! ## The first pass -/

@[simp] theorem place_locn_self (s : Offsets) (ptr off : Nat) :
    (s.place ptr off).locn ptr = off := Function.update_self ..

@[simp] theorem place_abbrevCode_self (s : Offsets) (ptr off : Nat) :
    (s.place ptr off).abbrevCode ptr = s.codes + 1 := Function.update_self ..

theorem place_locn_of_ne (s : Offsets) {ptr p : Nat} (off : Nat) (h : p ≠ ptr) :
    (s.place ptr off).locn p = s.locn p := Function.update_of_ne h ..

theorem place_abbrevCode_of_ne (s : Offsets) {ptr p : Nat} (off : Nat) (h : p ≠ ptr) :
    (s.place ptr off).abbrevCode p = s.abbrevCode p := Function.update_of_ne h ..

/-- The DIE that an item is. -/
def Item.die? : Item → Option DIE
  | .die d => some d
  | .endOfChildren => none

/-- The DIEs among the items. -/
def diesOf (its : List Item) : List DIE := its.filterMap Item.die?

/-- The DIEs of a tree, each before its children. -/
def DIE.dies (d : DIE) : List DIE := diesOf d.items

@[simp] theorem diesOf_nil : diesOf [] = [] := rfl

@[simp] theorem diesOf_die (d : DIE) (its : List Item) :
    diesOf (.die d :: its) = d :: diesOf its := rfl

@[simp] theorem diesOf_endOfChildren (its : List Item) :
    diesOf (.endOfChildren :: its) = diesOf its := rfl

@[simp] theorem diesOf_append (its its' : List Item) :
    diesOf (its ++ its') = diesOf its ++ diesOf its' := List.filterMap_append

/-- The bytes of items, where a form takes `size` bytes and `n` codes are in use
before them. -/
def itemsSize (size : Form → Nat) : Nat → List Item → Nat
  | _, [] => 0
  | n, .die d :: its =>
      leb128Length (BitVec.ofNat 64 (n + 1)) false + (d.attrs.map fun a => size a.form).sum +
        itemsSize size (n + 1) its
  | n, .endOfChildren :: its => 1 + itemsSize size n its

/-- The items have been given consecutive codes after `n`, and locations from `off`
on. -/
def Placed (s : Offsets) : Nat → Nat → List Item → Prop
  | _, _, [] => True
  | n, off, .die d :: its =>
      s.locn d.ptr = off ∧ s.abbrevCode d.ptr = n + 1 ∧
        Placed s (n + 1) (off + ownOffset (n + 1) d.attrs) its
  | n, off, .endOfChildren :: its => Placed s n (off + 1) its

theorem Placed.at {s : Offsets} {n off : Nat} {before after : List Item} {d : DIE}
    (h : Placed s n off (before ++ .die d :: after)) :
    s.locn d.ptr = off + itemsSize Form.offset n before ∧
      s.abbrevCode d.ptr = n + (diesOf before).length + 1 := by
  induction before generalizing n off with
  | nil => exact ⟨h.1, h.2.1⟩
  | cons it before ih =>
    cases it with
    | die e =>
      obtain ⟨hlocn, hcode⟩ := ih h.2.2
      rw [hlocn, hcode]
      simp only [itemsSize, ownOffset, diesOf_die, List.length_cons]
      omega
    | endOfChildren =>
      obtain ⟨hlocn, hcode⟩ := ih h
      rw [hlocn, hcode]
      exact ⟨Nat.add_assoc .., rfl⟩

/-- The first pass over items whose DIEs are distinct and have no location yet. -/
theorem foldlM_offsetItem (its : List Item) (s : Offsets) (off : Nat)
    (hfresh : ∀ d ∈ diesOf its, s.locn d.ptr = 0)
    (hnodup : ((diesOf its).map DIE.ptr).Nodup) :
    ∃ s', its.foldlM offsetItem (s, off) =
        some (s', off + itemsSize Form.offset s.codes its) ∧
      Placed s' s.codes off its ∧
      ∀ p, p ∉ (diesOf its).map DIE.ptr →
        s'.locn p = s.locn p ∧ s'.abbrevCode p = s.abbrevCode p := by
  induction its generalizing s off with
  | nil => exact ⟨s, rfl, trivial, fun _ _ => ⟨rfl, rfl⟩⟩
  | cons it its ih =>
    cases it with
    | die d =>
      rw [diesOf_die, List.map_cons, List.nodup_cons] at hnodup
      have hd : s.locn d.ptr = 0 := hfresh d (List.mem_cons_self ..)
      have hne : ∀ e ∈ diesOf its, e.ptr ≠ d.ptr := fun e he h =>
        hnodup.1 (h ▸ List.mem_map_of_mem he)
      have hfresh' : ∀ e ∈ diesOf its, (s.place d.ptr off).locn e.ptr = 0 := by
        intro e he
        rw [place_locn_of_ne s off (hne e he)]
        exact hfresh e (List.mem_cons_of_mem _ he)
      obtain ⟨s', hrun, hplaced, hother⟩ :=
        ih (s.place d.ptr off) (off + ownOffset (s.codes + 1) d.attrs) hfresh' hnodup.2
      obtain ⟨hlocn, hcode⟩ := hother d.ptr hnodup.1
      refine ⟨s', ?_, ⟨?_, ?_, hplaced⟩, ?_⟩
      · rw [List.foldlM_cons, offsetItem, if_neg (not_not.2 hd)]
        refine hrun.trans ?_
        simp only [itemsSize, ownOffset, Offsets.place]
        congr 2
        omega
      · rw [hlocn, place_locn_self]
      · rw [hcode, place_abbrevCode_self]
      · intro p hp
        rw [diesOf_die, List.map_cons, List.mem_cons, not_or] at hp
        obtain ⟨hlocn, hcode⟩ := hother p hp.2
        rw [hlocn, hcode]
        exact ⟨place_locn_of_ne s off hp.1, place_abbrevCode_of_ne s off hp.1⟩
    | endOfChildren =>
      obtain ⟨s', hrun, hplaced, hother⟩ := ih s (off + 1) hfresh hnodup
      refine ⟨s', ?_, hplaced, hother⟩
      refine hrun.trans ?_
      simp only [itemsSize]
      congr 2
      omega

/-! ## The second pass -/

/-- The bytes that the assembler places for a form. -/
def Form.assembled : Form → Nat
  | .string str => (asUnescape str).length + 1
  | form => form.offset

/-- The bytes that the assembler places for a list of directives. -/
def assembledSize (ds : List Directive) : Nat := (ds.map Directive.assembled).sum

/-- The file `f'` is `f` after directives that start no DIE, which were counted as
`cnt` bytes and are `size` bytes. -/
def Adds (f f' : DIEFlushFile) (cnt size : Nat) : Prop :=
  ∃ ds, f' = ⟨f.out ++ ds, f.byteCnt + cnt⟩ ∧ assembledSize ds = size ∧
    ∀ d ∈ ds, ∀ code, d.starts code = false

theorem Adds.refl (f : DIEFlushFile) : Adds f f 0 0 := ⟨[], by simp, rfl, by simp⟩

theorem Adds.trans {f f' f'' : DIEFlushFile} {cnt cnt' size size' : Nat}
    (h : Adds f f' cnt size) (h' : Adds f' f'' cnt' size') :
    Adds f f'' (cnt + cnt') (size + size') := by
  obtain ⟨ds, rfl, rfl, hds⟩ := h
  obtain ⟨ds', rfl, rfl, hds'⟩ := h'
  refine ⟨ds ++ ds', ?_, ?_, ?_⟩
  · simp [Nat.add_assoc]
  · simp [assembledSize]
  · intro d hd
    rcases List.mem_append.1 hd with hd | hd
    · exact hds d hd
    · exact hds' d hd

theorem adds_print {d : Directive} (f : DIEFlushFile) (cnt : Nat)
    (hd : ∀ code, d.starts code = false) : Adds f (f.print d cnt) cnt d.assembled :=
  ⟨[d], rfl, by simp [assembledSize], by simpa using hd⟩

theorem adds_dwarfPrintf (f : DIEFlushFile) (sz : FlushType) (operand : Operand) :
    Adds f (dwarfPrintf f sz operand) sz.size sz.size :=
  adds_print f sz.size fun _ => rfl

theorem adds_dwarfLebPrintf (f : DIEFlushFile) (uleb : BitVec 64) (isSig : Bool) :
    Adds f (dwarfLebPrintf f uleb isSig none) (leb128Length uleb isSig)
      (leb128Length uleb isSig) := by
  have h := @adds_print (.leb (leb128Out uleb isSig).1 none) f (leb128Out uleb isSig).2
    fun _ => rfl
  rw [Directive.assembled, leb128Out_length, leb128Out_snd] at h
  rw [← leb128Out_snd]
  rwa [← leb128Out_snd] at h

/-- A fold of steps that each add. -/
theorem adds_foldl {β : Type} {step : DIEFlushFile → β → DIEFlushFile} {cnt size : β → Nat}
    (h : ∀ f b, Adds f (step f b) (cnt b) (size b)) (bs : List β) (f : DIEFlushFile) :
    Adds f (bs.foldl step f) (bs.map cnt).sum (bs.map size).sum := by
  induction bs generalizing f with
  | nil => exact Adds.refl f
  | cons b bs ih => exact (h f b).trans (ih (step f b))

theorem adds_dwarfFlushDieBlock (f : DIEFlushFile) (e : BlockEnt) :
    Adds f (dwarfFlushDieBlock f e) e.offset e.offset := by
  cases e with
  | header v => exact adds_dwarfPrintf f .byte _
  | leb128S v => exact adds_dwarfLebPrintf f v true
  | leb128U v => exact adds_dwarfLebPrintf f v false
  | addrStr str => exact adds_dwarfPrintf f .quad _

theorem BlockEnt.len_pos (arch : Arch) (e : BlockEnt) : 0 < e.len arch := by
  cases e with
  | header v => exact Nat.one_pos
  | leb128S v => exact leb128Length_pos v true
  | leb128U v => exact leb128Length_pos v false
  | addrStr str => cases arch <;> simp [BlockEnt.len, platformWordSize]

/-- What the assertions of the second pass ask of a form in the DIE at `self`. -/
def Form.Sound (s : Offsets) (self : Nat) : Form → Prop
  | .ref4 dieXref => s.locn dieXref ≠ 0 ∧ s.locn dieXref ≠ s.locn self
  | .block1 blk => blk ≠ []
  | _ => True

/-- A reference is written as the location of its target. -/
theorem flushForm_ref4 (arch : Arch) {s : Offsets} {self dieXref : Nat} (f : DIEFlushFile)
    (hsound : (Form.ref4 dieXref).Sound s self) :
    flushForm arch s self f (.ref4 dieXref) =
      some (dwarfPrintf f .long (.num (s.locn dieXref))) := by
  rw [flushForm, if_neg hsound.1, if_neg hsound.2]

/-- A form that is not left out. -/
theorem flushForm_adds (arch : Arch) {s : Offsets} {self : Nat} (f : DIEFlushFile) {form : Form}
    (hsound : form.Sound s self) (hemit : ∀ lbl, form = .addrLbl lbl → lbl.emitted = true) :
    ∃ f', flushForm arch s self f form = some f' ∧ Adds f f' form.offset form.assembled := by
  cases form with
  | addr str => exact ⟨_, rfl, adds_dwarfPrintf f .quad _⟩
  | addrLbl lbl =>
    have hlbl := hemit lbl rfl
    refine ⟨_, if_pos hlbl, ?_⟩
    simp only [Form.offset, Form.assembled, hlbl, if_true]
    exact adds_dwarfPrintf f .quad _
  | data1 value => exact ⟨_, rfl, adds_dwarfPrintf f .byte _⟩
  | data2 value => exact ⟨_, rfl, adds_dwarfPrintf f .word _⟩
  | data4 value => exact ⟨_, rfl, adds_dwarfPrintf f .long _⟩
  | data8 value => exact ⟨_, rfl, adds_dwarfPrintf f .quad _⟩
  | uleb value => exact ⟨_, rfl, adds_dwarfLebPrintf f value false⟩
  | addr4 str => exact ⟨_, rfl, adds_dwarfPrintf f .long _⟩
  | string str =>
    have htext := @adds_print (.ascii str) f str.length fun _ => rfl
    exact ⟨_, rfl, htext.trans (adds_dwarfPrintf _ .byte _)⟩
  | ref4 dieXref =>
    exact ⟨_, flushForm_ref4 arch f hsound, adds_dwarfPrintf f .long _⟩
  | flag value => exact ⟨_, rfl, adds_dwarfPrintf f .byte _⟩
  | block1 blk =>
    have hlen : (blk.map (BlockEnt.len arch)).sum ≠ 0 := by
      obtain ⟨e, es, rfl⟩ := List.exists_cons_of_ne_nil hsound
      have := BlockEnt.len_pos arch e
      rw [List.map_cons, List.sum_cons]
      omega
    refine ⟨_, if_neg hlen, ?_⟩
    exact (adds_dwarfPrintf f .byte _).trans (adds_foldl adds_dwarfFlushDieBlock blk _)

theorem flushAttr_adds (arch : Arch) {s : Offsets} {self : Nat} (state : DIEFlush) {a : DIEAttr}
    (hsound : a.form.Sound s self) :
    ∃ state', flushAttr arch s self state a = some state' ∧
      Adds state.info state'.info a.form.offset a.form.assembled := by
  by_cases hlbl : ∃ lbl, a.form = .addrLbl lbl ∧ lbl.emitted = false
  · obtain ⟨lbl, hform, hemit⟩ := hlbl
    refine ⟨state, ?_, ?_⟩
    · simp [flushAttr, hform, hemit]
    · simp only [hform, Form.offset, Form.assembled, hemit]
      exact Adds.refl _
  · have hemit : ∀ lbl, a.form = .addrLbl lbl → lbl.emitted = true := by
      intro lbl hform
      cases he : lbl.emitted with
      | true => rfl
      | false => exact absurd ⟨lbl, hform, he⟩ hlbl
    obtain ⟨f', hf, hadds⟩ := flushForm_adds arch state.info hsound hemit
    refine ⟨⟨dwarfPrintf (dwarfPrintf state.abbrevs .byte (.num a.attr.value)) .byte
      (.num a.form.value), f'⟩, ?_, hadds⟩
    unfold flushAttr
    rw [hf]
    split
    · next lbl hform =>
      rw [hemit lbl hform]
      rfl
    · rfl

theorem foldlM_flushAttr (arch : Arch) {s : Offsets} {self : Nat} (attrs : List DIEAttr)
    (state : DIEFlush) (hsound : ∀ a ∈ attrs, a.form.Sound s self) :
    ∃ state', attrs.foldlM (flushAttr arch s self) state = some state' ∧
      Adds state.info state'.info (attrs.map fun a => a.form.offset).sum
        (attrs.map fun a => a.form.assembled).sum := by
  induction attrs generalizing state with
  | nil => exact ⟨state, rfl, Adds.refl _⟩
  | cons a attrs ih =>
    obtain ⟨state₁, h₁, hadds₁⟩ := flushAttr_adds arch state (hsound a (List.mem_cons_self ..))
    obtain ⟨state₂, h₂, hadds₂⟩ := ih state₁ fun b hb => hsound b (List.mem_cons_of_mem _ hb)
    refine ⟨state₂, ?_, hadds₁.trans hadds₂⟩
    rw [List.foldlM_cons, h₁]
    exact h₂

/-- The directives written for items, with `n` codes in use before them. -/
def Laid : Nat → List Item → List Directive → Prop
  | _, [], ds => ds = []
  | n, .die d :: its, ds =>
      ∃ bytes own rest, ds = .leb bytes (some (n + 1)) :: (own ++ rest) ∧
        bytes.length = leb128Length (BitVec.ofNat 64 (n + 1)) false ∧
        assembledSize own = (d.attrs.map fun a => a.form.assembled).sum ∧
        (∀ o ∈ own, ∀ code, o.starts code = false) ∧ Laid (n + 1) its rest
  | n, .endOfChildren :: its, ds =>
      ∃ rest, ds = .data .byte (.num 0) :: rest ∧ Laid n its rest

/-- The second pass over a DIE, at the place that the first gave it. -/
theorem dwarfFlushDie1_adds (arch : Arch) {s : Offsets} {d : DIE} (state : DIEFlush)
    (hlocn : s.locn d.ptr = state.info.byteCnt)
    (hsound : ∀ a ∈ d.attrs, a.form.Sound s d.ptr) :
    ∃ state' own, dwarfFlushDie1 arch s d state = some state' ∧
      state'.info.byteCnt = state.info.byteCnt + ownOffset (s.abbrevCode d.ptr) d.attrs ∧
      state'.info.out = state.info.out ++
        .leb (leb128Out (BitVec.ofNat 64 (s.abbrevCode d.ptr)) false).1
          (some (s.abbrevCode d.ptr)) :: own ∧
      assembledSize own = (d.attrs.map fun a => a.form.assembled).sum ∧
      ∀ o ∈ own, ∀ code, o.starts code = false := by
  let code := s.abbrevCode d.ptr
  let abbrevs := dwarfPrintf (dwarfPrintf
    (dwarfLebPrintf state.abbrevs (BitVec.ofNat 64 code) false (some code)) .byte
    (.num d.tag.value)) .byte (.num (if d.children.isEmpty then 0 else 1))
  let info := dwarfLebPrintf state.info (BitVec.ofNat 64 code) false (some code)
  obtain ⟨state', hrun, own, hinfo, hsize, hstarts⟩ :=
    foldlM_flushAttr arch d.attrs ⟨abbrevs, info⟩ hsound
  refine ⟨{ state' with abbrevs := state'.abbrevs.print (.leb [0, 0] none) 2 }, own, ?_, ?_, ?_,
    hsize, hstarts⟩
  · rw [dwarfFlushDie1, if_neg (not_not.2 hlocn)]
    exact congrArg (Option.map _) hrun
  · simp only [hinfo, info, dwarfLebPrintf, DIEFlushFile.print, leb128Out_snd, ownOffset, code]
    omega
  · simp only [hinfo, info, dwarfLebPrintf, DIEFlushFile.print, code]
    rw [List.append_assoc, List.singleton_append]

/-- The second pass over items that the first has placed: no assertion fails. -/
theorem foldlM_flushItem (arch : Arch) {s : Offsets} (its : List Item) {n : Nat}
    (state : DIEFlush) (hplaced : Placed s n state.info.byteCnt its)
    (hsound : ∀ d ∈ diesOf its, ∀ a ∈ d.attrs, a.form.Sound s d.ptr) :
    ∃ state' ds, its.foldlM (flushItem arch s) state = some state' ∧
      state'.info.out = state.info.out ++ ds ∧ Laid n its ds := by
  induction its generalizing n state with
  | nil => exact ⟨state, [], rfl, by simp, rfl⟩
  | cons it its ih =>
    cases it with
    | die d =>
      obtain ⟨hlocn, hcode, hrest⟩ := hplaced
      obtain ⟨state₁, own, h₁, hcnt, hout, hsize, hstarts⟩ :=
        dwarfFlushDie1_adds arch state hlocn (hsound d (List.mem_cons_self ..))
      rw [hcode] at hcnt hout
      rw [← hcnt] at hrest
      obtain ⟨state₂, ds, h₂, hout₂, hlaid⟩ :=
        ih state₁ hrest fun e he => hsound e (List.mem_cons_of_mem _ he)
      refine ⟨state₂, _, ?_, ?_, _, own, ds, rfl, leb128Out_length .., hsize, hstarts, hlaid⟩
      · rw [List.foldlM_cons]
        simp only [flushItem, h₁]
        exact h₂
      · rw [hout₂, hout]
        simp
    | endOfChildren =>
      obtain ⟨state₂, ds, h₂, hout₂, hlaid⟩ := ih (endOfChildren state) hplaced hsound
      refine ⟨state₂, _, h₂, ?_, ds, rfl, hlaid⟩
      rw [hout₂]
      simp [endOfChildren, dwarfPrintf, DIEFlushFile.print]

/-! ## Where a DIE is -/

theorem startOf_append {code : Nat} {ds : List Directive} (h : ∀ d ∈ ds, d.starts code = false)
    (rest : List Directive) :
    startOf code (ds ++ rest) = (startOf code rest).map (assembledSize ds + ·) := by
  induction ds with
  | nil => simp [assembledSize]
  | cons d ds ih =>
    rw [List.cons_append, startOf, h d (List.mem_cons_self ..),
      ih fun e he => h e (List.mem_cons_of_mem _ he)]
    simp [assembledSize, Function.comp_def, Nat.add_assoc]

/-- Before the DIE come the bytes of the items before it. -/
theorem startOf_laid {n : Nat} {before after : List Item} {d : DIE} {ds : List Directive}
    (h : Laid n (before ++ .die d :: after) ds) :
    startOf (n + (diesOf before).length + 1) ds = some (itemsSize Form.assembled n before) := by
  induction before generalizing n ds with
  | nil =>
    obtain ⟨bytes, own, rest, rfl, -⟩ := h
    simp [startOf, Directive.starts, itemsSize]
  | cons it before ih =>
    cases it with
    | die e =>
      obtain ⟨bytes, own, rest, rfl, hbytes, hown, hstarts, hrest⟩ := h
      have hcode : n + (diesOf (.die e :: before)).length + 1 =
          n + 1 + (diesOf before).length + 1 := by
        simp only [diesOf_die, List.length_cons]
        omega
      have hne : (n + 1 == n + 1 + (diesOf before).length + 1) = false := by
        rw [beq_eq_false_iff_ne]
        omega
      rw [hcode, startOf, Directive.starts, hne,
        startOf_append fun o ho => hstarts o ho _, ih hrest, hown]
      simp only [Bool.false_eq_true, if_false, Option.map_some, Directive.assembled, hbytes,
        itemsSize]
      congr 1
      omega
    | endOfChildren =>
      obtain ⟨rest, rfl, hrest⟩ := h
      rw [diesOf_endOfChildren, startOf, ih hrest]
      rfl

/-! ## Compile units -/

/-- The tree of a compile unit, as `dwarf_child` builds it: no DIE has two parents.
A reference is to another DIE of the tree, and a block has an entry. -/
structure CompileUnit where
  die : DIE
  nodup : (die.dies.map DIE.ptr).Nodup
  refs : ∀ d ∈ die.dies, ∀ a ∈ d.attrs, ∀ x, a.form = .ref4 x →
    x ≠ d.ptr ∧ x ∈ die.dies.map DIE.ptr
  blocks : ∀ d ∈ die.dies, ∀ a ∈ d.attrs, ∀ blk, a.form = .block1 blk → blk ≠ []

theorem ownOffset_pos (code : Nat) (attrs : List DIEAttr) : 0 < ownOffset code attrs := by
  have := leb128Length_pos (BitVec.ofNat 64 code) false
  unfold ownOffset
  omega

theorem Placed.le {s : Offsets} {n off : Nat} {its : List Item} (h : Placed s n off its) :
    ∀ d ∈ diesOf its, off ≤ s.locn d.ptr := by
  induction its generalizing n off with
  | nil => simp
  | cons it its ih =>
    cases it with
    | die e =>
      intro d hd
      rcases List.mem_cons.1 hd with rfl | hd
      · exact h.1.ge
      · exact (Nat.le_add_right ..).trans (ih h.2.2 d hd)
    | endOfChildren =>
      intro d hd
      exact (Nat.le_add_right ..).trans (ih h d hd)

/-- Every DIE takes some bytes, so that locations differ. -/
theorem Placed.pairwise {s : Offsets} {n off : Nat} {its : List Item} (h : Placed s n off its) :
    (diesOf its).Pairwise fun d e => s.locn d.ptr < s.locn e.ptr := by
  induction its generalizing n off with
  | nil => exact List.Pairwise.nil
  | cons it its ih =>
    cases it with
    | die e =>
      refine List.Pairwise.cons ?_ (ih h.2.2)
      intro d hd
      have hle := h.2.2.le d hd
      have hpos := ownOffset_pos (n + 1) e.attrs
      rw [h.1]
      omega
    | endOfChildren => exact ih h

theorem Placed.locn_ne {s : Offsets} {n off : Nat} {its : List Item} (h : Placed s n off its)
    {d e : DIE} (hd : d ∈ diesOf its) (he : e ∈ diesOf its) (hne : d.ptr ≠ e.ptr) :
    s.locn d.ptr ≠ s.locn e.ptr := by
  have hpair : (diesOf its).Pairwise fun d e => s.locn d.ptr ≠ s.locn e.ptr :=
    h.pairwise.imp Nat.ne_of_lt
  have : Std.Symm fun d e : DIE => s.locn d.ptr ≠ s.locn e.ptr := ⟨fun _ _ => Ne.symm⟩
  exact hpair.forall hd he fun hde => hne (congrArg DIE.ptr hde)

/-- What the trees of compile units have meets the assertions. -/
theorem CompileUnit.sound (cu : CompileUnit) {s : Offsets} {n off : Nat} (hoff : 0 < off)
    (h : Placed s n off cu.die.items) :
    ∀ d ∈ cu.die.dies, ∀ a ∈ d.attrs, a.form.Sound s d.ptr := by
  intro d hd a ha
  cases hform : a.form with
  | ref4 x =>
    obtain ⟨hne, hx⟩ := cu.refs d hd a ha x hform
    obtain ⟨t, ht, rfl⟩ := List.mem_map.1 hx
    have hle := h.le t ht
    exact ⟨by omega, h.locn_ne ht hd hne⟩
  | block1 blk => exact cu.blocks d hd a ha blk hform
  | _ => trivial

theorem startOf_dwarfInfoHeader (arch : Arch) (code : Nat) (ds : List Directive) :
    startOf code ((dwarfInfoHeader arch).1 ++ ds) =
      (startOf code ds).map ((dwarfInfoHeader arch).2 + ·) := by
  rw [startOf_append]
  · rfl
  · simp [dwarfInfoHeader, Directive.starts]

/-- Both passes over a compile unit: they complete, the first gives each DIE the
place that the second counts, and the DIE is after what is assembled before it. -/
theorem outDbgEnd_spec (arch : Arch) (cu : CompileUnit) :
    ∃ s state, outDbgEnd arch cu.die = some (s, state) ∧
      (∀ d ∈ cu.die.dies, ∀ a ∈ d.attrs, a.form.Sound s d.ptr) ∧
      ∀ before d after, cu.die.items = before ++ .die d :: after →
        s.locn d.ptr = (dwarfInfoHeader arch).2 + itemsSize Form.offset 0 before ∧
        startOf (s.abbrevCode d.ptr) state.info.out =
          some ((dwarfInfoHeader arch).2 + itemsSize Form.assembled 0 before) := by
  obtain ⟨s, hoffset, hplaced, -⟩ :=
    foldlM_offsetItem cu.die.items .unset (dwarfInfoHeader arch).2 (fun _ _ => rfl) cu.nodup
  have hsound := cu.sound (Nat.succ_pos _) hplaced
  obtain ⟨state, ds, hflush, hout, hlaid⟩ := foldlM_flushItem arch cu.die.items
    ⟨⟨[], 0⟩, ⟨(dwarfInfoHeader arch).1, (dwarfInfoHeader arch).2⟩⟩ hplaced hsound
  refine ⟨s, { state with abbrevs := state.abbrevs.print (.data .byte (.num 0)) 0 }, ?_, hsound,
    ?_⟩
  · change (dwarfOffsetDie cu.die (.unset, (dwarfInfoHeader arch).2)).bind _ = _
    rw [dwarfOffsetDie_eq, hoffset, Option.bind_some]
    rw [← dwarfFlushDie_eq] at hflush
    exact congrArg (Option.map _) hflush
  · intro before d after hitems
    rw [hitems] at hplaced hlaid
    obtain ⟨hlocn, hcode⟩ := hplaced.at
    refine ⟨hlocn, ?_⟩
    rw [hout, startOf_dwarfInfoHeader, hcode]
    exact congrArg (Option.map _) (startOf_laid hlaid)

/-! ## Which locations are right -/

/-- Each DIE is where its location says, and each reference is written as the place
of its target. -/
def Accurate (arch : Arch) (die : DIE) (s : Offsets) (state : DIEFlush) : Prop :=
  (∀ d ∈ die.dies, startOf (s.abbrevCode d.ptr) state.info.out = some (s.locn d.ptr)) ∧
  ∀ d ∈ die.dies, ∀ a ∈ d.attrs, ∀ t ∈ die.dies, a.form = .ref4 t.ptr →
    ∃ n : Nat, startOf (s.abbrevCode t.ptr) state.info.out = some n ∧
      ∀ f, flushForm arch s d.ptr f a.form = some (dwarfPrintf f .long (.num n))

/-- An attribute whose text, if it is a string, has no byte that is escaped. -/
def DIEAttr.Plain (a : DIEAttr) : Prop := ∀ str, a.data = .string str → ∀ v ∈ str, plain v = true

/-- The strings of all DIEs but the last are written without an escape. -/
def CompileUnit.PlainBeforeLast (cu : CompileUnit) : Prop :=
  ∀ d ∈ cu.die.dies.dropLast, ∀ a ∈ d.attrs, a.Plain

/-- Only a string is kept as a string. -/
theorem DIEAttr.form_of_string {a : DIEAttr} {str : List UInt8} (h : a.form = .string str) :
    ∃ s, a.data = .string s ∧ str = strAddEscape s := by
  have hmade := a.made
  rw [h] at hmade
  cases hdata : a.data with
  | string s =>
    rw [hdata] at hmade
    simp only [dwarfAttr, Option.some.injEq, Form.string.injEq] at hmade
    exact ⟨s, rfl, hmade.symm⟩
  | uleb value =>
    rw [hdata] at hmade
    simp only [dwarfAttr] at hmade
    split at hmade
    · cases hmade
    · split at hmade
      · cases hmade
      · split at hmade
        · cases hmade
        · split at hmade <;> cases hmade
  | _ =>
    rw [hdata] at hmade
    cases hmade

theorem DIEAttr.form_eq_of_string {a : DIEAttr} {s : List UInt8} (h : a.data = .string s) :
    a.form = .string (strAddEscape s) := by
  have hmade := a.made
  rw [h] at hmade
  simpa [dwarfAttr] using hmade.symm

theorem DIEAttr.assembled_le (a : DIEAttr) : a.form.assembled ≤ a.form.offset := by
  cases hform : a.form with
  | string str =>
    obtain ⟨s, -, rfl⟩ := a.form_of_string hform
    simp only [Form.assembled, Form.offset, asUnescape_strAddEscape]
    exact Nat.succ_le_succ (length_le_strAddEscape s)
  | _ => exact Nat.le_refl _

/-- An attribute takes the bytes that it is counted for if and only if its text
needs no escape. -/
theorem DIEAttr.assembled_eq_iff (a : DIEAttr) :
    a.form.assembled = a.form.offset ↔ a.Plain := by
  constructor
  · intro h s hdata
    rw [a.form_eq_of_string hdata] at h
    simp only [Form.assembled, Form.offset, asUnescape_strAddEscape] at h
    exact (strAddEscape_length_iff s).1 (by omega)
  · intro h
    cases hform : a.form with
    | string str =>
      obtain ⟨s, hdata, rfl⟩ := a.form_of_string hform
      simp only [Form.assembled, Form.offset, asUnescape_strAddEscape]
      rw [(strAddEscape_length_iff s).2 (h s hdata)]
    | _ => rfl

/-- Sums of which no term of the one exceeds that of the other. -/
theorem sum_map_eq_iff {α : Type} {f g : α → Nat} (h : ∀ a, f a ≤ g a) (l : List α) :
    (l.map f).sum ≤ (l.map g).sum ∧
      ((l.map f).sum = (l.map g).sum ↔ ∀ a ∈ l, f a = g a) := by
  induction l with
  | nil => simp
  | cons a l ih =>
    have ha := h a
    rw [List.map_cons, List.map_cons, List.sum_cons, List.sum_cons, List.forall_mem_cons,
      ← ih.2]
    omega

/-- The items take the bytes that they are counted for if and only if none of their
strings needs an escape. -/
theorem itemsSize_eq_iff (n : Nat) (its : List Item) :
    itemsSize Form.assembled n its ≤ itemsSize Form.offset n its ∧
      (itemsSize Form.assembled n its = itemsSize Form.offset n its ↔
        ∀ d ∈ diesOf its, ∀ a ∈ d.attrs, a.Plain) := by
  induction its generalizing n with
  | nil => simp [itemsSize]
  | cons it its ih =>
    cases it with
    | die d =>
      obtain ⟨hle, heq⟩ := sum_map_eq_iff DIEAttr.assembled_le d.attrs
      obtain ⟨hle', heq'⟩ := ih (n + 1)
      have hplain : (∀ a ∈ d.attrs, a.Plain) ↔
          ∀ a ∈ d.attrs, a.form.assembled = a.form.offset :=
        forall₂_congr fun a _ => a.assembled_eq_iff.symm
      rw [diesOf_die, List.forall_mem_cons, ← heq', hplain, ← heq]
      simp only [itemsSize]
      omega
    | endOfChildren =>
      obtain ⟨hle, heq⟩ := ih n
      rw [diesOf_endOfChildren, ← heq]
      simp only [itemsSize]
      omega

/-- A DIE stands before another if and only if it is not the last. -/
theorem forall_before_iff (its : List Item) (p : DIE → Prop) :
    (∀ before d after, its = before ++ .die d :: after → ∀ e ∈ diesOf before, p e) ↔
      ∀ e ∈ (diesOf its).dropLast, p e := by
  constructor
  · intro h e he
    have hne : diesOf its ≠ [] := by
      intro hnil
      simp [hnil] at he
    have hdies : diesOf its = (diesOf its).dropLast ++ [(diesOf its).getLast hne] :=
      (List.dropLast_append_getLast hne).symm
    obtain ⟨before, rest, rfl, hbefore, hrest⟩ := List.filterMap_eq_append_iff.1 hdies
    obtain ⟨ends, it, after, rfl, hends, hit, -⟩ := List.filterMap_eq_cons_iff.1 hrest
    cases it with
    | die d =>
      refine h (before ++ ends) d after (by simp) e ?_
      rw [diesOf_append, List.mem_append]
      left
      rw [diesOf, hbefore]
      exact he
    | endOfChildren => cases hit
  · rintro h before d after rfl e he
    refine h e ?_
    rw [diesOf_append, diesOf_die, List.dropLast_append_of_ne_nil (List.cons_ne_nil _ _)]
    exact List.mem_append_left _ he

theorem mem_diesOf {its : List Item} {d : DIE} (h : d ∈ diesOf its) :
    ∃ before after, its = before ++ .die d :: after := by
  obtain ⟨it, hit, hd⟩ := List.mem_filterMap.1 h
  cases it with
  | die e =>
    obtain rfl : e = d := by simpa [Item.die?] using hd
    exact List.append_of_mem hit
  | endOfChildren => cases hd

/-- For every compile unit both passes complete, and the locations are accurate if
and only if the strings of all DIEs but the last are written without an escape. -/
theorem locations_accurate_iff (arch : Arch) (cu : CompileUnit) :
    ∃ s state, outDbgEnd arch cu.die = some (s, state) ∧
      (Accurate arch cu.die s state ↔ cu.PlainBeforeLast) := by
  obtain ⟨s, state, hrun, hsound, hspec⟩ := outDbgEnd_spec arch cu
  refine ⟨s, state, hrun, ?_⟩
  rw [CompileUnit.PlainBeforeLast, DIE.dies, ← forall_before_iff]
  constructor
  · rintro ⟨hlocn, -⟩ before d after hitems
    obtain ⟨hd, hstart⟩ := hspec before d after hitems
    have hmem : d ∈ cu.die.dies := by
      rw [DIE.dies, hitems]
      simp
    have heq := hlocn d hmem
    rw [hstart, hd, Option.some.injEq] at heq
    exact (itemsSize_eq_iff 0 before).2.1 (by omega)
  · intro h
    have hlocn : ∀ d ∈ cu.die.dies,
        startOf (s.abbrevCode d.ptr) state.info.out = some (s.locn d.ptr) := by
      intro d hd
      obtain ⟨before, after, hitems⟩ := mem_diesOf hd
      obtain ⟨hlocn, hstart⟩ := hspec before d after hitems
      rw [hstart, hlocn, (itemsSize_eq_iff 0 before).2.2 (h before d after hitems)]
    refine ⟨hlocn, ?_⟩
    intro d hd a ha t ht hform
    refine ⟨s.locn t.ptr, hlocn t ht, ?_⟩
    intro f
    have hsound := hsound d hd a ha
    rw [hform] at hsound ⊢
    exact flushForm_ref4 arch f hsound

/-- The unit of a source file `a"b.c` that declares an `int`. -/
def quotedUnit : CompileUnit where
  die := .mk 0 .compileUnit [⟨.name, .string ("a\"b.c".toList.map ascii), _, rfl⟩]
    [.mk 1 .baseType [⟨.name, .string ("int".toList.map ascii), _, rfl⟩,
      ⟨.encoding, .data1 5, _, rfl⟩, ⟨.byteSize, .data4 4, _, rfl⟩] []]
  nodup := by decide
  refs := by simp [DIE.dies, diesOf, DIE.items, childItems, Item.die?, DIE.attrs]
  blocks := by simp [DIE.dies, diesOf, DIE.items, childItems, Item.die?, DIE.attrs]

/-- There the type is one byte before where its location says. -/
theorem quotedUnit_not_accurate :
    ¬ ∀ arch (cu : CompileUnit), ∃ s state, outDbgEnd arch cu.die = some (s, state) ∧
      Accurate arch cu.die s state := by
  intro h
  obtain ⟨s, state, hrun, hlocn, -⟩ := h .x86_64 quotedUnit
  obtain ⟨s', state', hrun', -, hspec⟩ := outDbgEnd_spec .x86_64 quotedUnit
  rw [hrun, Option.some.injEq, Prod.mk.injEq] at hrun'
  obtain ⟨rfl, rfl⟩ := hrun'
  obtain ⟨hloc, hstart⟩ := hspec [_] _ [_] rfl
  have hint := hlocn _ (List.mem_cons_of_mem _ (List.mem_cons_self ..))
  rw [hstart, hloc, Option.some.injEq, Nat.add_left_cancel_iff] at hint
  simp only [itemsSize, DIE.attrs, List.map_cons, List.map_nil, List.sum_cons, List.sum_nil,
    Form.assembled, Form.offset, asUnescape_strAddEscape] at hint
  have hlen : (strAddEscape ("a\"b.c".toList.map ascii)).length =
      ("a\"b.c".toList.map ascii).length + 1 := by decide
  omega

end Ucc.Cc1.Dwarf
