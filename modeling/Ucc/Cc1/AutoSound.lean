/-
  Cc1/AutoSound.lean --- an object on the stack is initialised as its static data is.

  Source: decl_init_create_assignments_base and decl_init_create_assignment_from_copy in
  src/cc1/decl_init.c, asm_declare_init in src/cc1/out/asm.c.

  The assignments go through the object from its start, so what has been assigned lies in
  front of what is next.  That keeps the members before, and the first instances that
  later elements of a range are copied from.
-/
import Ucc.Cc1.AutoImage

set_option autoImplicit false

namespace Ucc.Cc1.Data

open Ucc.Lib

variable {arch : Arch} {symbols : String → Integral} {store : Nat → Option (ObjType × Init)}
  {m m' m'' : Bits} {lo hi : Nat}

/-! ## Memory -/

theorem Bits.put_in {pos width k : Nat} {v : Nat → Bool} (hlo : pos ≤ k) (hhi : k < pos + width) :
    m.put pos width v k = v (k - pos) := if_pos ⟨hlo, hhi⟩

theorem Bits.put_out {pos width k : Nat} {v : Nat → Bool} (h : k < pos ∨ pos + width ≤ k) :
    m.put pos width v k = m k := if_neg (by omega)

/-- Only bits from `lo` up to `hi` are changed. -/
def Frame (m m' : Bits) (lo hi : Nat) : Prop := ∀ k, k < lo ∨ hi ≤ k → m' k = m k

theorem Frame.refl (m : Bits) (lo hi : Nat) : Frame m m lo hi := fun _ _ => rfl

theorem Frame.mono {lo' hi' : Nat} (h : Frame m m' lo hi) (hlo : lo' ≤ lo) (hhi : hi ≤ hi') :
    Frame m m' lo' hi' := fun k hk => h k (by omega)

theorem Frame.trans (h : Frame m m' lo hi) (h' : Frame m' m'' lo hi) : Frame m m'' lo hi :=
  fun k hk => (h' k hk).trans (h k hk)

theorem frame_put {pos width : Nat} {v : Nat → Bool} :
    Frame m (m.put pos width v) pos (pos + width) := fun _ hk => Bits.put_out hk

theorem exec_zero (addr size : Nat) : (Assign.zero addr size).exec arch symbols m =
    m.put (8 * addr) (8 * size) fun _ => false := rfl

theorem exec_scalar (addr : Nat) (ty : ScalarType) (k : Constant) :
    (Assign.scalar addr ty k).exec arch symbols m =
      m.put (8 * addr) (8 * ty.size arch) fun i => (k.value symbols ty).getLsbD i := rfl

theorem exec_bitfield (pos width : Nat) (k : Constant) :
    (Assign.bitfield pos width k).exec arch symbols m =
      m.put pos width fun i => (k.bits symbols).getLsbD i := rfl

theorem exec_copy (dst src size : Nat) : (Assign.copy dst src size).exec arch symbols m =
    m.put (8 * dst) (8 * size) fun i => m (8 * src + i) := rfl

@[simp] theorem execAll_nil : execAll arch symbols m [] = m := rfl

theorem execAll_append (as bs : List Assign) :
    execAll arch symbols m (as ++ bs) =
      execAll arch symbols (execAll arch symbols m as) bs := List.foldl_append

theorem ObjType.Has.frame {t : ObjType} {init : Option Init} {addr : Nat}
    (h : t.Has arch symbols init m addr) (hframe : Frame m m' lo hi)
    (hend : 8 * (addr + t.size arch) ≤ lo) : t.Has arch symbols init m' addr := by
  intro k hk v hv
  rw [hframe _ (.inl (by omega))]
  exact h k hk v hv

/-! ## First instances -/

/-- The first instance of each range that has been left has the values of its
initialiser, in front of bit `front`. -/
def Kept (arch : Arch) (symbols : String → Integral) (store : Nat → Option (ObjType × Init))
    (active : List Nat) (firsts : Firsts) (m : Bits) (front : Nat) : Prop :=
  ∀ cpy last, firsts cpy = some last → cpy ∉ active →
    ∃ elem rangeInit, store cpy = some (elem, rangeInit) ∧
      8 * (last + elem.size arch) ≤ front ∧ elem.Has arch symbols (some rangeInit) m last

variable {active : List Nat} {firsts : Firsts}

theorem Kept.step {front front' : Nat} (h : Kept arch symbols store active firsts m front)
    (hframe : Frame m m' lo hi) (hlo : front ≤ lo) (hfront : front ≤ front') :
    Kept arch symbols store active firsts m' front' := by
  intro cpy last hfirst hactive
  obtain ⟨elem, rangeInit, hstore, hend, hhas⟩ := h cpy last hfirst hactive
  exact ⟨elem, rangeInit, hstore, hend.trans hfront, hhas.frame hframe (hend.trans hlo)⟩

theorem Kept.mono {front front' : Nat} (h : Kept arch symbols store active firsts m front)
    (hfront : front ≤ front') : Kept arch symbols store active firsts m front' :=
  h.step (Frame.refl m front front) le_rfl hfront

/-- There are assignments.  They change bits from `lo` up to `hi`, after them memory is
right, and first instances are kept in front of bit `stop`. -/
def Makes (arch : Arch) (symbols : String → Integral) (store : Nat → Option (ObjType × Init))
    (active : List Nat) (x : Assigned) (firsts : Firsts) (m : Bits) (lo hi stop : Nat)
    (right : Bits → Prop) : Prop :=
  ∃ as firsts', x = .ok (as, firsts') ∧ Frame m (execAll arch symbols m as) lo hi ∧
    right (execAll arch symbols m as) ∧
    (∀ cpy last, firsts cpy = some last → firsts' cpy = some last) ∧
    Kept arch symbols store active firsts' (execAll arch symbols m as) stop

theorem Makes.one {a : Assign} {stop : Nat} {right : Bits → Prop}
    (hkept : Kept arch symbols store active firsts m lo)
    (hframe : Frame m (a.exec arch symbols m) lo hi) (hstop : lo ≤ stop)
    (hright : right (a.exec arch symbols m)) :
    Makes arch symbols store active (.ok ([a], firsts)) firsts m lo hi stop right :=
  ⟨[a], firsts, rfl, hframe, hright, fun _ _ h => h, hkept.step hframe le_rfl hstop⟩

theorem Makes.mono {x : Assigned} {lo' hi' stop stop' : Nat} {right right' : Bits → Prop}
    (h : Makes arch symbols store active x firsts m lo hi stop right) (hlo : lo' ≤ lo)
    (hhi : hi ≤ hi') (hstop : stop ≤ stop') (hright : ∀ m', right m' → right' m') :
    Makes arch symbols store active x firsts m lo' hi' stop' right' := by
  obtain ⟨as, firsts', hx, hframe, hr, hext, hkept⟩ := h
  exact ⟨as, firsts', hx, hframe.mono hlo hhi, hright _ hr, hext, hkept.mono hstop⟩

/-- Further assignments from bit `mid` on. -/
theorem Makes.bind {x : Assigned} {next : Firsts → Assigned} {mid stop : Nat}
    {right right' both : Bits → Prop}
    (h : Makes arch symbols store active x firsts m lo hi mid right) (hlo : lo ≤ mid)
    (hnext : ∀ firsts₁ m₁, Kept arch symbols store active firsts₁ m₁ mid →
      Makes arch symbols store active (next firsts₁) firsts₁ m₁ mid hi stop right')
    (hboth : ∀ m₁ m₂, Frame m₁ m₂ mid hi → right m₁ → right' m₂ → both m₂) :
    Makes arch symbols store active
      (x >>= fun r => next r.2 >>= fun s => .ok (r.1 ++ s.1, s.2)) firsts m lo hi stop both := by
  obtain ⟨as, firsts₁, rfl, hframe, hr, hext, hkept⟩ := h
  obtain ⟨bs, firsts₂, hy, hframe', hr', hext', hkept'⟩ := hnext firsts₁ _ hkept
  refine ⟨as ++ bs, firsts₂, ?_, ?_, ?_, fun cpy last hc => hext' _ _ (hext _ _ hc), ?_⟩
  · show (next firsts₁ >>= fun s => Except.ok (as ++ s.1, s.2)) = _
    rw [hy]
    rfl
  · rw [execAll_append]
    exact hframe.trans (hframe'.mono hlo le_rfl)
  · rw [execAll_append]
    exact hboth _ _ hframe' hr hr'
  · rw [execAll_append]
    exact hkept'

/-! ## Objects -/

/-- The object is assigned right, wherever it is. -/
def ObjType.Auto (arch : Arch) (symbols : String → Integral)
    (store : Nat → Option (ObjType × Init)) (t : ObjType) (init : Option Init)
    (active : List Nat) : Prop :=
  ∀ addr firsts m, Kept arch symbols store active firsts m (8 * addr) →
    Makes arch symbols store active (t.createAssignments arch init addr firsts) firsts m (8 * addr)
      (8 * (addr + t.size arch)) (8 * (addr + t.size arch))
      fun m' => t.Has arch symbols init m' addr

/-- An object that is cleared. -/
theorem makes_zero {t : ObjType} {init : Option Init} {addr : Nat} (hlaid : t.Laid arch)
    (hnormal : t.Normal init) (hassign : t.Assignable arch store init active)
    (hzero : zeroInit init = true) (hkept : Kept arch symbols store active firsts m (8 * addr)) :
    Makes arch symbols store active (.ok ([.zero addr (t.size arch)], firsts)) firsts m (8 * addr)
      (8 * (addr + t.size arch)) (8 * (addr + t.size arch))
      fun m' => t.Has arch symbols init m' addr := by
  have hframe : Frame m ((Assign.zero addr (t.size arch)).exec arch symbols m) (8 * addr)
      (8 * (addr + t.size arch)) := by
    rw [exec_zero, Nat.mul_add]
    exact frame_put
  refine Makes.one hkept hframe (by omega) fun k hk v hv => ?_
  rw [t.bit_zero init active hlaid hnormal hassign hzero k hk v hv, exec_zero,
    Bits.put_in (by omega) (by omega)]

theorem makes_scalar {s : ScalarType} {c : Constant} {addr : Nat}
    (hkept : Kept arch symbols store active firsts m (8 * addr)) :
    Makes arch symbols store active (.ok ([.scalar addr s c], firsts)) firsts m (8 * addr)
      (8 * (addr + s.size arch)) (8 * (addr + s.size arch))
      fun m' => (ObjType.scalar s).Has arch symbols (some (.scalar c)) m' addr := by
  have hframe : Frame m ((Assign.scalar addr s c).exec arch symbols m) (8 * addr)
      (8 * (addr + s.size arch)) := by
    rw [exec_scalar, Nat.mul_add]
    exact frame_put
  refine Makes.one hkept hframe (by omega) fun k hk v hv => ?_
  have hk' : k < 8 * s.size arch := hk
  rw [exec_scalar, Bits.put_in (by omega) (by omega), Nat.add_sub_cancel_left,
    ← Option.some.inj hv]

/-! ## Arrays -/

/-- An entry of an array, which may be an instance of a range. -/
def EntryAuto (arch : Arch) (symbols : String → Integral)
    (store : Nat → Option (ObjType × Init)) (elem : ObjType) (active : List Nat) :
    Option Init → Prop
  | some (.copy cpy rangeInit) =>
      store cpy = some (elem, rangeInit) ∧ cpy ∉ active ∧
        elem.Auto arch symbols store (some rangeInit) (cpy :: active)
  | di => elem.Auto arch symbols store di active

/-- The first instance of a range. -/
theorem makes_first {elem : ObjType} {cpy : Nat} {rangeInit : Init} {addr : Nat}
    (hstore : store cpy = some (elem, rangeInit)) (hnone : firsts cpy = none)
    (hauto : elem.Auto arch symbols store (some rangeInit) (cpy :: active))
    (hkept : Kept arch symbols store active firsts m (8 * addr)) :
    Makes arch symbols store active
      (elem.createAssignments arch (some rangeInit) addr (Function.update firsts cpy (some addr)))
      firsts m (8 * addr) (8 * (addr + elem.size arch)) (8 * (addr + elem.size arch))
      fun m' => elem.Has arch symbols (some rangeInit) m' addr := by
  have hinside : Kept arch symbols store (cpy :: active)
      (Function.update firsts cpy (some addr)) m (8 * addr) := by
    intro c last hfirst hactive
    have hne : c ≠ cpy := List.ne_of_not_mem_cons hactive
    rw [Function.update_of_ne hne] at hfirst
    exact hkept c last hfirst (List.not_mem_of_not_mem_cons hactive)
  obtain ⟨as, firsts', hx, hframe, hhas, hext, hkept'⟩ := hauto addr _ m hinside
  refine ⟨as, firsts', hx, hframe, hhas, fun c last hfirst => ?_, fun c last hfirst hactive => ?_⟩
  · refine hext c last ?_
    rw [Function.update_of_ne]
    · exact hfirst
    · rintro rfl
      rw [hnone] at hfirst
      cases hfirst
  · by_cases hc : c = cpy
    · subst hc
      have hself := hext c addr (Function.update_self c (some addr) firsts)
      obtain rfl : addr = last := Option.some.inj (hself.symm.trans hfirst)
      exact ⟨elem, rangeInit, hstore, le_rfl, hhas⟩
    · exact hkept' c last hfirst (List.not_mem_cons_of_ne_of_not_mem hc hactive)

/-- A later instance is copied from the first. -/
theorem makes_copy {elem : ObjType} {cpy : Nat} {rangeInit : Init} {addr last : Nat}
    (hstore : store cpy = some (elem, rangeInit)) (hfirst : firsts cpy = some last)
    (hactive : cpy ∉ active) (hkept : Kept arch symbols store active firsts m (8 * addr)) :
    Makes arch symbols store active (.ok ([.copy addr last (elem.size arch)], firsts)) firsts m
      (8 * addr) (8 * (addr + elem.size arch)) (8 * (addr + elem.size arch))
      fun m' => elem.Has arch symbols (some rangeInit) m' addr := by
  obtain ⟨elem', rangeInit', hstore', -, hhas⟩ := hkept cpy last hfirst hactive
  obtain ⟨rfl, rfl⟩ := Prod.mk.inj (Option.some.inj (hstore.symm.trans hstore'))
  have hframe : Frame m ((Assign.copy addr last (elem.size arch)).exec arch symbols m) (8 * addr)
      (8 * (addr + elem.size arch)) := by
    rw [exec_copy, Nat.mul_add]
    exact frame_put
  refine Makes.one hkept hframe (by omega) fun k hk v hv => ?_
  rw [← hhas k hk v hv, exec_copy, Bits.put_in (by omega) (by omega), Nat.add_sub_cancel_left]

/-- The elements of an array, one after the other. -/
theorem assignElems_makes {elem : ObjType} (n : Nat) :
    ∀ (inits : List (Option Init)) (addr : Nat) (firsts : Firsts) (m : Bits),
      (∀ i < n, EntryAuto arch symbols store elem active (inits.getD i none)) →
      Kept arch symbols store active firsts m (8 * addr) →
      Makes arch symbols store active
        (assignElems (elem.createAssignments arch) (elem.size arch) n inits addr firsts) firsts m
        (8 * addr) (8 * (addr + n * elem.size arch)) (8 * (addr + n * elem.size arch))
        fun m' => ∀ i < n, elem.Has arch symbols (Init.resolve (inits.getD i none)) m'
          (addr + i * elem.size arch) := by
  induction n with
  | zero =>
    intro inits addr firsts m _ hkept
    refine ⟨[], firsts, rfl, Frame.refl _ _ _, fun i hi => absurd hi (Nat.not_lt_zero i),
      fun _ _ h => h, hkept.mono (by omega)⟩
  | succ n ih =>
    intro inits addr firsts m hentries hkept
    have hhead : inits.headD none = inits.getD 0 none := by
      cases inits <;> rfl
    have htail : ∀ i, inits.tail.getD i none = inits.getD (i + 1) none := by
      intro i
      cases inits <;> rfl
    have hsucc : (n + 1) * elem.size arch = n * elem.size arch + elem.size arch := Nat.succ_mul _ _
    have hthis : Makes arch symbols store active
        (assignEntry (elem.createAssignments arch) (elem.size arch) (inits.headD none) addr firsts)
        firsts m (8 * addr) (8 * (addr + elem.size arch)) (8 * (addr + elem.size arch))
        fun m' => elem.Has arch symbols (Init.resolve (inits.headD none)) m' addr := by
      have hentry := hentries 0 (Nat.succ_pos n)
      rw [← hhead] at hentry
      generalize inits.headD none = di at hentry
      cases di with
      | none => exact hentry addr firsts m hkept
      | some init =>
        cases init with
        | scalar c => exact hentry addr firsts m hkept
        | brace inits => exact hentry addr firsts m hkept
        | lit inits => exact hentry addr firsts m hkept
        | copy cpy rangeInit =>
          obtain ⟨hstore, hactive, hauto⟩ := hentry
          simp only [assignEntry]
          cases hfirst : firsts cpy with
          | none => exact makes_first hstore hfirst hauto hkept
          | some last => exact makes_copy hstore hfirst hactive hkept
    have hmore : ∀ firsts₁ m₁,
        Kept arch symbols store active firsts₁ m₁ (8 * (addr + elem.size arch)) →
        Makes arch symbols store active
          (assignElems (elem.createAssignments arch) (elem.size arch) n inits.tail
            (addr + elem.size arch) firsts₁) firsts₁ m₁ (8 * (addr + elem.size arch))
          (8 * (addr + (n + 1) * elem.size arch)) (8 * (addr + (n + 1) * elem.size arch))
          fun m' => ∀ i < n, elem.Has arch symbols (Init.resolve (inits.tail.getD i none)) m'
            (addr + elem.size arch + i * elem.size arch) := by
      intro firsts₁ m₁ hkept₁
      have hend : addr + elem.size arch + n * elem.size arch =
          addr + (n + 1) * elem.size arch := by omega
      rw [← hend]
      refine ih inits.tail _ firsts₁ m₁ (fun i hi => ?_) hkept₁
      rw [htail]
      exact hentries (i + 1) (Nat.succ_lt_succ hi)
    have hboth : ∀ m₁ m₂,
        Frame m₁ m₂ (8 * (addr + elem.size arch)) (8 * (addr + (n + 1) * elem.size arch)) →
        elem.Has arch symbols (Init.resolve (inits.headD none)) m₁ addr →
        (∀ i < n, elem.Has arch symbols (Init.resolve (inits.tail.getD i none)) m₂
          (addr + elem.size arch + i * elem.size arch)) →
        ∀ i < n + 1, elem.Has arch symbols (Init.resolve (inits.getD i none)) m₂
          (addr + i * elem.size arch) := by
      intro m₁ m₂ hframe hfirst hmore i hi
      cases i with
      | zero =>
        rw [Nat.zero_mul, Nat.add_zero, ← hhead]
        exact hfirst.frame hframe le_rfl
      | succ i =>
        have hi' := hmore i (Nat.lt_of_succ_lt_succ hi)
        rw [htail] at hi'
        rwa [Nat.succ_mul, Nat.add_comm (i * _) _, ← Nat.add_assoc]
    exact (hthis.mono le_rfl (by omega) le_rfl fun _ h => h).bind (by omega) hmore hboth

/-- The elements of an array are its bits. -/
theorem array_makes {elem : ObjType} {len addr : Nat} {inits : List (Option Init)} {x : Assigned}
    (hlt : len * elem.size arch < 2 ^ 32)
    (h : Makes arch symbols store active x firsts m (8 * addr)
      (8 * (addr + len * elem.size arch)) (8 * (addr + len * elem.size arch))
      fun m' => ∀ i < len, elem.Has arch symbols (Init.resolve (inits.getD i none)) m'
        (addr + i * elem.size arch)) :
    Makes arch symbols store active x firsts m (8 * addr)
      (8 * (addr + (ObjType.array elem len).size arch))
      (8 * (addr + (ObjType.array elem len).size arch))
      fun m' => (ObjType.array elem len).Has arch symbols (some (.brace inits)) m' addr := by
  rw [ObjType.size, Nat.mod_eq_of_lt hlt]
  refine h.mono le_rfl le_rfl le_rfl fun m' helems k hk v hv => ?_
  rw [ObjType.size, Nat.mod_eq_of_lt hlt] at hk
  obtain ⟨hi, hlt⟩ := elem_of_bit hk
  have hbit := helems _ hi _ hlt v hv
  rwa [Nat.mul_add, Nat.mul_left_comm, Nat.add_assoc, Nat.mul_comm (k / _) _,
    Nat.div_add_mod] at hbit

/-! ## Bit-fields -/

/-- Bit `k` of a struct at `addr` is bit `k` of a bit-field. -/
def BitfieldDecl.Has (b : BitfieldDecl) (init : Option Init) (m : Bits) (addr : Nat) : Prop :=
  b.named = true → ∀ k, b.Covers k → m (8 * addr + k) = b.bit init k

theorem BitfieldDecl.covers_iff {b : BitfieldDecl} {k : Nat} :
    b.Covers k ↔ b.start ≤ k ∧ k < b.start + b.width := Iff.rfl

/-- A bit-field that is not zero. -/
theorem bitfield_makes {b : BitfieldDecl} {init : Option Init} {addr : Nat}
    (hnormal : b.Normal init) (hzero : zeroInit init = false)
    (hkept : Kept arch symbols store active firsts m (8 * addr + b.start)) :
    b.named = true ∧ ∃ a, b.assign init addr = .ok [a] ∧
      Makes arch symbols store active (.ok ([a], firsts)) firsts m (8 * addr + b.start)
        (8 * addr + (b.start + b.width)) (8 * addr + (b.start + b.width)) (b.Has init · addr) := by
  rcases hnormal with rfl | ⟨hnamed, v, rfl⟩
  · cases hzero
  have hpos : 8 * (addr + b.place.structOffset) + b.place.structOffsetBitfield =
      8 * addr + b.start := by
    rw [BitfieldDecl.start, Nat.mul_add, Nat.add_assoc]
  refine ⟨hnamed, .bitfield (8 * addr + b.start) b.width (.num v), ?_, ?_⟩
  · rw [BitfieldDecl.assign, hzero, ← hpos]
    rfl
  · have hframe : Frame m ((Assign.bitfield (8 * addr + b.start) b.width (.num v)).exec arch
        symbols m) (8 * addr + b.start) (8 * addr + (b.start + b.width)) := by
      rw [← Nat.add_assoc]
      exact frame_put
    refine Makes.one hkept hframe (by omega) fun _ k hk => ?_
    obtain ⟨hlo, hhi⟩ := BitfieldDecl.covers_iff.mp hk
    rw [exec_bitfield, Bits.put_in (by omega) (by omega), Nat.add_sub_add_left]
    rfl

/-- A bit-field that is cleared. -/
theorem bitfield_clears {b : BitfieldDecl} {init : Option Init} {addr front size : Nat}
    (hnormal : b.Normal init) (hzero : zeroInit init = true) (hclears : b.Clears front size)
    (hkept : Kept arch symbols store active firsts m (8 * addr + front)) :
    ∃ a, b.assign init addr = .ok [a] ∧
      Makes arch symbols store active (.ok ([a], firsts)) firsts m (8 * addr + front)
        (8 * (addr + size)) (8 * addr + front) (b.Has init · addr) := by
  obtain ⟨hfront, hsize, hin⟩ := hclears
  refine ⟨.zero (addr + b.place.structOffset) b.ty.size, ?_, ?_⟩
  · simp only [BitfieldDecl.assign, hzero, if_true]
  · have hframe : Frame m ((Assign.zero (addr + b.place.structOffset) b.ty.size).exec arch
        symbols m) (8 * addr + front) (8 * (addr + size)) := by
      rw [exec_zero]
      exact frame_put.mono (by omega) (by omega)
    refine Makes.one hkept hframe le_rfl fun _ k hk => ?_
    obtain ⟨hlo, hhi⟩ := hk
    rw [BitfieldDecl.bit_zero hnormal hzero k, exec_zero, Bits.put_in (by omega) (by omega)]

/-! ## Structs -/

/-- Assignments to the members of a struct, from the one that starts behind `front` on. -/
def ObjMembers.AutoStruct (arch : Arch) (symbols : String → Integral)
    (store : Nat → Option (ObjType × Init)) (ms : ObjMembers) (size front : Nat)
    (inits : List (Option Init)) (active : List Nat) : Prop :=
  ∀ addr firsts m, Kept arch symbols store active firsts m (8 * addr + front) →
    Makes arch symbols store active (ms.assignStruct arch inits addr firsts) firsts m
      (8 * addr + front) (8 * (addr + size)) (8 * (addr + size))
      fun m' => ∀ k v, ms.bitStruct arch symbols inits k = some v → m' (8 * addr + k) = v

theorem autoStruct_nil {size front : Nat} {inits : List (Option Init)}
    (hle : front ≤ 8 * size) :
    ObjMembers.nil.AutoStruct arch symbols store size front inits active :=
  fun addr firsts m hkept => ⟨[], firsts, rfl, Frame.refl _ _ _,
    fun _ _ hv => (by cases hv), fun _ _ h => h, hkept.mono (by omega)⟩

theorem autoStruct_decl {d : MemberDecl} {ref : ObjType} {rest : ObjMembers} {size front : Nat}
    {inits : List (Option Init)}
    (hspread : (ObjMembers.decl d ref rest).Spread arch (8 * size) front)
    (hthis : ref.Auto arch symbols store (inits.headD none) active)
    (hrest : rest.AutoStruct arch symbols store size
      (8 * (d.place.structOffset + ref.size arch)) inits.tail active) :
    (ObjMembers.decl d ref rest).AutoStruct arch symbols store size front inits active := by
  intro addr firsts m hkept
  obtain ⟨hfront, hspread⟩ := hspread
  have hlimit := hspread.le_limit
  have hmember : Makes arch symbols store active
      (ref.createAssignments arch (inits.headD none) (addr + d.place.structOffset) firsts) firsts m
      (8 * addr + front) (8 * (addr + size))
      (8 * addr + 8 * (d.place.structOffset + ref.size arch))
      fun m' => ref.Has arch symbols (inits.headD none) m' (addr + d.place.structOffset) :=
    (hthis (addr + d.place.structOffset) firsts m (hkept.mono (by omega))).mono (by omega)
      (by omega) (by omega) fun _ h => h
  have hboth : ∀ m₁ m₂,
      Frame m₁ m₂ (8 * addr + 8 * (d.place.structOffset + ref.size arch)) (8 * (addr + size)) →
      ref.Has arch symbols (inits.headD none) m₁ (addr + d.place.structOffset) →
      (∀ k v, rest.bitStruct arch symbols inits.tail k = some v → m₂ (8 * addr + k) = v) →
      ∀ k v, (ObjMembers.decl d ref rest).bitStruct arch symbols inits k = some v →
        m₂ (8 * addr + k) = v := by
    intro m₁ m₂ hframe hhas hmore k v hv
    simp only [ObjMembers.bitStruct] at hv
    split at hv
    · rename_i hin
      obtain ⟨hlt, hpos⟩ := covers_sub addr hin
      have hhi := hin.2
      rw [hframe _ (.inl (by omega)), ← hpos]
      exact hhas _ hlt v hv
    · exact hmore k v hv
  exact hmember.bind (by omega) (fun firsts₁ m₁ hkept₁ => hrest addr firsts₁ m₁ hkept₁) hboth

/-- A bit-field and the members behind it. -/
theorem autoStruct_bitfield {b : BitfieldDecl} {rest : ObjMembers} {size front front' : Nat}
    {inits : List (Option Init)} {a : Assign} {addr : Nat} 
    (hwidth : b.width ≠ 0) (hassign : b.assign (inits.headD none) addr = .ok [a])
    (hthis : Makes arch symbols store active (.ok ([a], firsts)) firsts m (8 * addr + front)
      (8 * (addr + size)) (8 * addr + front') (b.Has (inits.headD none) · addr))
    (hfront : front ≤ front') (hend : b.named = true → b.start + b.width ≤ front')
    (hrest : rest.AutoStruct arch symbols store size front' inits.tail active) :
    Makes arch symbols store active
      ((ObjMembers.bitfield b rest).assignStruct arch inits addr firsts) firsts m
      (8 * addr + front) (8 * (addr + size)) (8 * (addr + size))
      fun m' => ∀ k v, (ObjMembers.bitfield b rest).bitStruct arch symbols inits k = some v →
        m' (8 * addr + k) = v := by
  have hnot : (!b.named && b.width == 0) = false := by
    rw [beq_eq_false_iff_ne.mpr hwidth, Bool.and_false]
  have hboth : ∀ m₁ m₂, Frame m₁ m₂ (8 * addr + front') (8 * (addr + size)) →
      b.Has (inits.headD none) m₁ addr →
      (∀ k v, rest.bitStruct arch symbols inits.tail k = some v → m₂ (8 * addr + k) = v) →
      ∀ k v, (ObjMembers.bitfield b rest).bitStruct arch symbols inits k = some v →
        m₂ (8 * addr + k) = v := by
    intro m₁ m₂ hframe hhas hmore k v hv
    simp only [ObjMembers.bitStruct] at hv
    split at hv
    · rename_i hin
      have hstop := hend hin.1
      have hlt := (BitfieldDecl.covers_iff.mp hin.2).2
      rw [hframe _ (.inl (by omega)), ← Option.some.inj hv]
      exact hhas hin.1 k hin.2
    · exact hmore k v hv
  simp only [ObjMembers.assignStruct, hnot, hassign]
  exact hthis.bind (by omega) (fun firsts₁ m₁ hkept₁ => hrest addr firsts₁ m₁ hkept₁) hboth

/-! ## Unions -/

/-- Assignments to the member of a union that has an entry. -/
def ObjMembers.AutoUnion (arch : Arch) (symbols : String → Integral)
    (store : Nat → Option (ObjType × Init)) (ms : ObjMembers) (size : Nat)
    (inits : List (Option Init)) (active : List Nat) : Prop :=
  ∀ addr firsts m, Kept arch symbols store active firsts m (8 * addr) →
    Makes arch symbols store active (ms.assignUnion arch size inits addr firsts) firsts m
      (8 * addr) (8 * (addr + size)) (8 * (addr + size))
      fun m' => ∀ k v, ms.bitUnion arch symbols inits k = some v → m' (8 * addr + k) = v

theorem autoUnion_decl {d : MemberDecl} {ref : ObjType} {rest : ObjMembers} {size : Nat}
    {init : Init} (hoff : d.place.structOffset = 0) (hle : ref.size arch ≤ size)
    (hauto : ref.Auto arch symbols store (some init) active) :
    (ObjMembers.decl d ref rest).AutoUnion arch symbols store size [some init] active := by
  intro addr firsts m hkept
  have hthis := hauto (addr + d.place.structOffset) firsts m (hkept.mono (by omega))
  refine hthis.mono (by omega) (by omega) (by omega) fun m' hhas k v hv => ?_
  simp only [ObjMembers.bitUnion] at hv
  split at hv
  · rename_i hin
    obtain ⟨hlt, hpos⟩ := covers_sub addr hin
    rw [← hpos]
    exact hhas _ hlt v hv
  · cases hv

theorem autoUnion_bitfield {b : BitfieldDecl} {rest : ObjMembers} {size : Nat} {init : Init}
    (hlaid : b.named = true → b.start = 0 ∧ b.width ≤ 8 * size) (hnormal : b.Normal (some init))
    (hzero : init.isZero = false) :
    (ObjMembers.bitfield b rest).AutoUnion arch symbols store size [some init] active := by
  intro addr firsts m hkept
  have hnamed : b.named = true := by
    rcases hnormal with h | ⟨h, -⟩
    · cases h
    · exact h
  obtain ⟨hstart, hwidth⟩ := hlaid hnamed
  obtain ⟨-, a, hassign, hthis⟩ :=
    bitfield_makes hnormal hzero (hkept.mono (Nat.le_add_right _ b.start))
  have hbits : ∀ m', b.Has (some init) m' addr → ∀ k v,
      (ObjMembers.bitfield b rest).bitUnion arch symbols [some init] k = some v →
        m' (8 * addr + k) = v := by
    intro m' hhas k v hv
    simp only [ObjMembers.bitUnion] at hv
    split at hv
    · rename_i hin
      rw [← Option.some.inj hv]
      exact hhas hnamed k hin
    · cases hv
  simp only [ObjMembers.assignUnion, hnamed, Bool.not_true, Bool.false_and, Bool.false_eq_true,
    if_false, hassign]
  exact hthis.mono (by omega) (by omega) (by omega) hbits

/-! ## Any object -/

/-- What is shown of the members of a struct and of a union. -/
def ObjMembers.PartsAuto (arch : Arch) (symbols : String → Integral)
    (store : Nat → Option (ObjType × Init)) (ms : ObjMembers) : Prop :=
  (∀ size inits front active, ms.LaidStruct arch → ms.Spread arch (8 * size) front →
    ms.NormalStruct inits → ms.AssignableStruct arch store size false inits front active →
    ms.AutoStruct arch symbols store size front inits active) ∧
    ∀ size inits active, ms.LaidUnion arch size → ms.NormalUnion inits →
      ms.AssignableUnion arch store inits active → initsZero inits = false →
      ms.AutoUnion arch symbols store size inits active

theorem autoStruct_pad {b : BitfieldDecl} {rest : ObjMembers} {size front : Nat}
    {inits : List (Option Init)} (hnamed : b.named = false) (hwidth : b.width = 0)
    (hrest : rest.AutoStruct arch symbols store size front inits.tail active) :
    (ObjMembers.bitfield b rest).AutoStruct arch symbols store size front inits active := by
  intro addr firsts m hkept
  obtain ⟨as, firsts', hx, h⟩ := hrest addr firsts m hkept
  refine ⟨as, firsts', ?_, ?_⟩
  · simp only [ObjMembers.assignStruct, hnamed, hwidth, hx]
    rfl
  · simpa only [ObjMembers.bitStruct, hnamed, Bool.false_eq_true, false_and, if_false] using h

theorem autoStruct_named {b : BitfieldDecl} {rest : ObjMembers} {size front : Nat}
    {inits : List (Option Init)} (hnamed : b.named = true) (hfront : front ≤ b.start)
    (hspread : rest.Spread arch (8 * size) (b.start + b.width))
    (hnormal : b.Normal (inits.headD none))
    (hclears : zeroInit (inits.headD none) = true → b.Clears front size)
    (hrest : rest.AutoStruct arch symbols store size (b.start + b.width) inits.tail active) :
    (ObjMembers.bitfield b rest).AutoStruct arch symbols store size front inits active := by
  intro addr firsts m hkept
  have hlimit := hspread.le_limit
  cases hzero : zeroInit (inits.headD none) with
  | false =>
    obtain ⟨-, a, hassign, hthis⟩ := bitfield_makes hnormal hzero
      (hkept.mono (Nat.add_le_add_left hfront (8 * addr)))
    exact autoStruct_bitfield (b.pos hnamed) hassign
      (hthis.mono (by omega) (by omega) le_rfl fun _ h => h) (by omega) (fun _ => le_rfl) hrest
  | true =>
    obtain ⟨a, hassign, hthis⟩ := bitfield_clears hnormal hzero (hclears hzero) hkept
    exact autoStruct_bitfield (b.pos hnamed) hassign
      (hthis.mono le_rfl le_rfl (by omega) fun _ h => h) (by omega) (fun _ => le_rfl) hrest

theorem autoStruct_unnamed {b : BitfieldDecl} {rest : ObjMembers} {size front : Nat}
    {inits : List (Option Init)} (hnamed : b.named = false) (hwidth : b.width ≠ 0)
    (hnormal : b.Normal (inits.headD none))
    (hclears : zeroInit (inits.headD none) = true → b.Clears front size)
    (hrest : rest.AutoStruct arch symbols store size front inits.tail active) :
    (ObjMembers.bitfield b rest).AutoStruct arch symbols store size front inits active := by
  intro addr firsts m hkept
  have hzero : zeroInit (inits.headD none) = true := by
    rcases hnormal with h | ⟨h, -⟩
    · rw [h]
      rfl
    · rw [hnamed] at h
      cases h
  obtain ⟨a, hassign, hthis⟩ := bitfield_clears hnormal hzero (hclears hzero) hkept
  refine autoStruct_bitfield hwidth hassign hthis le_rfl (fun h => ?_) hrest
  rw [hnamed] at h
  cases h

/-- A bit-field of a struct. -/
theorem partsAuto_bitfield {b : BitfieldDecl} {rest : ObjMembers}
    (hrest : rest.PartsAuto arch symbols store) :
    (ObjMembers.bitfield b rest).PartsAuto arch symbols store := by
  constructor
  · intro size inits front active hlaid hspread hnormal hassign
    obtain ⟨hclears, hassign⟩ := hassign
    cases hnamed : b.named with
    | true =>
      simp only [ObjMembers.Spread, hnamed, if_true] at hspread hassign
      exact autoStruct_named hnamed hspread.1 hspread.2 hnormal.1 (hclears rfl (b.pos hnamed))
        (hrest.1 size inits.tail _ active hlaid hspread.2 hnormal.2 hassign)
    | false =>
      simp only [ObjMembers.Spread, hnamed, Bool.false_eq_true, if_false] at hspread hassign
      have hauto := hrest.1 size inits.tail front active hlaid hspread hnormal.2 hassign
      by_cases hwidth : b.width = 0
      · exact autoStruct_pad hnamed hwidth hauto
      · exact autoStruct_unnamed hnamed hwidth hnormal.1 (hclears rfl hwidth) hauto
  · intro size inits active hlaid hnormal hassign hzero
    cases inits with
    | nil => exact hnormal.elim
    | cons e inits =>
      cases e with
      | none => exact hrest.2 size inits active hlaid.2 hnormal hassign hzero
      | some init =>
        obtain ⟨rfl, hnormal⟩ := hnormal
        simp only [initsZero, Bool.and_true] at hzero
        exact autoUnion_bitfield hlaid.1 hnormal hzero

/-- An ordinary member. -/
theorem partsAuto_decl {d : MemberDecl} {ref : ObjType} {rest : ObjMembers}
    (href : ∀ init active, ref.Laid arch → ref.Normal init →
      ref.Assignable arch store init active → ref.Auto arch symbols store init active)
    (hrest : rest.PartsAuto arch symbols store) :
    (ObjMembers.decl d ref rest).PartsAuto arch symbols store := by
  constructor
  · intro size inits front active hlaid hspread hnormal hassign
    exact autoStruct_decl hspread (href _ active hlaid.1 hnormal.1 hassign.1)
      (hrest.1 size inits.tail _ active hlaid.2 hspread.2 hnormal.2 hassign.2)
  · intro size inits active hlaid hnormal hassign hzero
    obtain ⟨hoff, hle, hlaid, hlaids⟩ := hlaid
    cases inits with
    | nil => exact hnormal.elim
    | cons e inits =>
      cases e with
      | none => exact hrest.2 size inits active hlaids hnormal hassign hzero
      | some init =>
        obtain ⟨rfl, hnormal⟩ := hnormal
        exact autoUnion_decl hoff hle (href _ active hlaid hnormal hassign)

/-- Every object. -/
theorem ObjType.auto (t : ObjType) :
    ∀ init active, t.Laid arch → t.Normal init → t.Assignable arch store init active →
      t.Auto arch symbols store init active := by
  induction t using ObjType.induct (Q := ObjMembers.PartsAuto arch symbols store) with
  | scalar s =>
    intro init active hlaid hnormal hassign addr firsts m hkept
    cases hzero : zeroInit init with
    | true =>
      simp only [ObjType.createAssignments, hzero, if_true]
      exact makes_zero hlaid hnormal hassign hzero hkept
    | false =>
      cases init with
      | none => cases hzero
      | some init =>
        cases init with
        | brace inits => exact hnormal.elim
        | lit inits => exact hnormal.elim
        | copy cpy rangeInit => exact hnormal.elim
        | scalar c =>
          simp only [ObjType.createAssignments, hzero, Bool.false_eq_true, if_false]
          exact makes_scalar hkept
  | array elem len ih =>
    intro init active hlaid hnormal hassign addr firsts m hkept
    cases hzero : zeroInit init with
    | true =>
      simp only [ObjType.createAssignments, hzero, if_true]
      exact makes_zero hlaid hnormal hassign hzero hkept
    | false =>
      cases init with
      | none => cases hzero
      | some init =>
        cases init with
        | scalar c => exact hnormal.elim
        | lit inits => exact hnormal.elim
        | copy cpy rangeInit => exact hnormal.elim
        | brace inits =>
          simp only [ObjType.createAssignments, hzero, Bool.false_eq_true, if_false]
          refine array_makes hlaid.2 (assignElems_makes len inits addr firsts m (fun i hi => ?_) hkept)
          have hentry := hassign i hi
          have hnormal' := hnormal.2.2 i hi
          have hlaid' := hlaid.1 (Nat.ne_zero_of_lt hi)
          generalize inits.getD i none = di at hentry hnormal'
          cases di with
          | none => exact ih _ active hlaid' hnormal' hentry
          | some init =>
            cases init with
            | copy cpy rangeInit =>
              exact ⟨hentry.1, hentry.2.1, ih _ _ hlaid' hnormal' hentry.2.2⟩
            | scalar c => exact ih _ active hlaid' hnormal' hentry
            | brace inits => exact ih _ active hlaid' hnormal' hentry
            | lit inits => exact ih _ active hlaid' hnormal' hentry
  | sue su ms ih =>
    intro init active hlaid hnormal hassign addr firsts m hkept
    obtain ⟨hstruct, hunion⟩ := ih
    cases hzero : zeroInit init with
    | true =>
      simp only [ObjType.createAssignments, hzero, if_true]
      exact makes_zero hlaid hnormal hassign hzero hkept
    | false =>
      cases init with
      | none => cases hzero
      | some init =>
        cases init with
        | scalar c => exact hnormal.elim
        | lit inits => exact hassign.elim
        | copy cpy rangeInit => exact hnormal.elim
        | brace inits =>
          have hinits : initsZero inits = false := hzero
          cases hprim : su.prim with
          | struct_ =>
            simp only [ObjType.Laid, ObjType.Normal, ObjType.Assignable, hprim, hinits]
              at hlaid hnormal hassign
            simp only [ObjType.createAssignments, hzero, Bool.false_eq_true, if_false, hprim]
            refine (hstruct su.size inits 0 active hlaid.2 hlaid.1 hnormal hassign addr firsts m
              hkept).mono le_rfl le_rfl le_rfl fun m' hbits k _ v hv => ?_
            simp only [ObjType.bit, hprim] at hv
            exact hbits k v hv
          | union_ =>
            simp only [ObjType.Laid, ObjType.Normal, ObjType.Assignable, hprim]
              at hlaid hnormal hassign
            simp only [ObjType.createAssignments, hzero, Bool.false_eq_true, if_false, hprim]
            have hsome : inits.all Option.isNone = false := by
              by_contra hall
              rw [initsZero_of_none (by simpa using hall)] at hinits
              cases hinits
            have hnormal' : ms.NormalUnion inits := by
              rcases hnormal with rfl | h | ⟨rfl, -⟩
              · cases hinits
              · exact h
              · cases hinits
            refine (hunion su.size inits active hlaid hnormal' hassign hinits addr firsts m
              hkept).mono le_rfl le_rfl le_rfl fun m' hbits k _ v hv => ?_
            simp only [ObjType.bit, hprim, hsome, Bool.false_eq_true, if_false] at hv
            exact hbits k v hv
  | nil =>
    refine ⟨fun size inits front active _ hspread _ _ => autoStruct_nil hspread,
      fun _ _ _ _ h => h.elim⟩
  | decl d ref rest href hrest => exact partsAuto_decl href hrest
  | bitfield b rest hrest => exact partsAuto_bitfield hrest

/-! ## Static data -/

/-- What is shown of the members of a struct and of a union. -/
def ObjMembers.PartsPlain (arch : Arch) (store : Nat → Option (ObjType × Init))
    (ms : ObjMembers) : Prop :=
  (∀ size zero inits front active, ms.AssignableStruct arch store size zero inits front active →
    ¬ ms.UnionLitStruct inits) ∧
    ∀ inits active, ms.AssignableUnion arch store inits active → ¬ ms.UnionLitUnion inits

theorem ObjType.not_unionLit (t : ObjType) :
    ∀ init active, t.Assignable arch store init active → ¬ t.UnionLit init := by
  induction t using ObjType.induct (Q := ObjMembers.PartsPlain arch store) with
  | scalar s => exact fun _ _ _ => id
  | array elem len ih =>
    intro init active hassign hlit
    cases init with
    | none => exact hlit
    | some init =>
      cases init with
      | scalar c => exact hlit
      | lit inits => exact hlit
      | copy cpy rangeInit => exact hlit
      | brace inits =>
        obtain ⟨i, hi, hlit⟩ := hlit
        have hentry := hassign i hi
        generalize inits.getD i none = di at hentry hlit
        cases di with
        | none => exact ih _ active hentry hlit
        | some init =>
          cases init with
          | copy cpy rangeInit => exact ih _ _ hentry.2.2 hlit
          | scalar c => exact ih _ active hentry hlit
          | brace inits => exact ih _ active hentry hlit
          | lit inits => exact ih _ active hentry hlit
  | sue su ms ih =>
    intro init active hassign hlit
    cases init with
    | none => exact hlit
    | some init =>
      cases init with
      | scalar c => exact hlit
      | lit inits => exact hassign
      | copy cpy rangeInit => exact hlit
      | brace inits =>
        cases hprim : su.prim with
        | struct_ =>
          simp only [ObjType.Assignable, ObjType.UnionLit, hprim] at hassign hlit
          exact ih.1 _ _ _ _ _ hassign hlit
        | union_ =>
          simp only [ObjType.Assignable, ObjType.UnionLit, hprim] at hassign hlit
          exact ih.2 _ _ hassign hlit
  | nil => exact ⟨fun _ _ _ _ _ _ => id, fun _ _ _ => id⟩
  | decl d ref rest href hrest =>
    refine ⟨fun size zero inits front active hassign hlit => ?_, fun inits active hassign hlit => ?_⟩
    · rcases hlit with hlit | hlit
      · exact href _ _ hassign.1 hlit
      · exact hrest.1 _ _ _ _ _ hassign.2 hlit
    · cases inits with
      | nil => exact hlit
      | cons e inits =>
        cases e with
        | none => exact hrest.2 _ _ hassign hlit
        | some init => exact href _ _ hassign hlit
  | bitfield b rest hrest =>
    refine ⟨fun size zero inits front active hassign => hrest.1 _ _ _ _ _ hassign.2,
      fun inits active hassign hlit => ?_⟩
    cases inits with
    | nil => exact hlit
    | cons e inits =>
      cases e with
      | none => exact hrest.2 _ _ hassign hlit
      | some init => exact hlit

/-- `{ 0xabc, 5, 0, { [0 ... 1] = 7 }, { .c = 7 } }` -/
def rangedInit : Option Init :=
  some (.brace [numInit 0xabc, numInit 5, numInit 0,
    some (.brace [some (.copy 0 (.scalar (.num 7))), some (.copy 0 (.scalar (.num 7)))]),
    some (.brace [none, numInit 7])])

/-- Its range. -/
def rangedStore (cpy : Nat) : Option (ObjType × Init) :=
  if cpy = 0 then some (charScalar, .scalar (.num 7)) else none

/-- A bit-field that is zero clears the others of its unit, here in `{ 1, 0 }`. -/
example : (mixedStruct.createAssignments .bits64 (some (.brace [numInit 1, numInit 0])) 0
      fun _ => none).map (fun r => execAll .bits64 (fun _ => 0) (fun _ => true) r.1 0) = .ok false ∧
    mixedStruct.bit .bits64 (fun _ => 0) (some (.brace [numInit 1, numInit 0])) 0 = some true :=
  ⟨rfl, rfl⟩

end Ucc.Cc1.Data
