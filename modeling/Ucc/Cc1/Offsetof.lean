/-
  Cc1/Offsetof.lean --- folding __builtin_offsetof.

  Source: const_offsetof and parse_offsetof in src/cc1/ops/__builtin.c;
  fold_expr_struct and fold_const_expr_struct in src/cc1/ops/expr_struct.c;
  const_expr_deref in src/cc1/ops/expr_deref.c; const_op_num_int in
  src/cc1/ops/expr_op.c; type_size in src/cc1/type.c.

  The designators become member accesses and additions on a null pointer.  Offsets
  of members and sizes of elements are `unsigned` on the way, so the folder drops
  what they have above 4 GiB.
-/
import Ucc.Cc1.ConstOp
import Ucc.Cc1.Members

set_option autoImplicit false

namespace Ucc.Cc1.Offsetof

open Ucc.Cc1.Members

/-! ## Types -/

/-- The type of a member that is no struct or union by itself. -/
inductive DType where
  | other (size : BitVec 32)
  /-- `bits.array.size` is a constant of 64 bits. -/
  | array (ref : DType) (size : Integral)
  /-- A struct or union, under an array, by its definition. -/
  | sue (id : Nat)
  deriving DecidableEq, Repr

/-- `struct_union_enum_st`: the members as they are parsed, and `sue_size`. -/
structure SueDef where
  members : List (Member DType)
  size : BitVec 32

/-- The definitions of a program. -/
abbrev Defs := Nat → SueDef

/-- `type_size` -/
def typeSize (defs : Defs) : DType → BitVec 32
  | .other size => size
  | .array ref size => (size * (typeSize defs ref).setWidth 64).setWidth 32
  | .sue id => (defs id).size

/-- How large a type is. -/
def sizeOf (defs : Defs) : DType → Nat
  | .other size => size.toNat
  | .array ref size => size.toNat * sizeOf defs ref
  | .sue id => (defs id).size.toNat

/-- `tree_type` of a part of the expression. -/
inductive Tree where
  | ty (t : DType)
  | sue (members : List (Member DType))
  | ptrTo (members : List (Member DType))

/-- `type_is_array`, or what `CONST_ADDR_OR_NEED_TYPE` asks. -/
def Tree.isArray : Tree → Bool
  | .ty (.array _ _) => true
  | _ => false

/-- The element type of an array. -/
def Tree.elem : Tree → Option DType
  | .ty (.array ref _) => some ref
  | _ => none

/-- `type_is_s_or_u`, with the members left by `fold_sue`. -/
def Tree.members (defs : Defs) : Tree → Option (List (Member DType))
  | .ty (.sue id) => some (folded (defs id).members)
  | .sue members => some members
  | _ => none

/-- `d->ref` -/
def treeOf : Member DType → Tree
  | .plain _ ref _ => .ty ref
  | .sue _ _ _ members _ => .sue members

/-! ## The expression -/

/-- What `parse_offsetof` builds. -/
inductive Expr where
  /-- `(T *)0`, by the members of `T` -/
  | null (members : List (Member DType))
  | struct (lhs : Expr) (isStDot : Bool) (spel : String)
  /-- `*(base + idx)`; the index is already cast to `intptr_t`. -/
  | arrayIdx (base : Expr) (idx : Integral)

/-- What stands after the first member. -/
inductive Designator where
  | dot (spel : String)
  | index (idx : Integral)
  deriving DecidableEq, Repr

/-- The body of the loop of `parse_offsetof`. -/
def Expr.designate (e : Expr) : Designator → Expr
  | .dot spel => .struct e true spel
  | .index idx => .arrayIdx e idx

/-- `parse_offsetof` -/
def parseOffsetof (members : List (Member DType)) (spel : String) (rest : List Designator) :
    Expr :=
  rest.foldl Expr.designate (.struct (.null members) false spel)

section Folding

variable (defs : Defs)

/-- The struct or union that `fold_expr_struct` finds, and in it `struct_mem`: the
member and `extra_off`. -/
def structMem (lhs : Tree) (isStDot : Bool) (spel : String) :
    Option (Member DType × BitVec 32) := do
  let members ← match isStDot, lhs with
    | true, t => t.members defs
    | false, .ptrTo members => some members
    | false, t => t.elem.bind fun ref => (Tree.ty ref).members defs
  match (sueMemberFind off spel members 0).decl with
  | some (.member d) => some (d, (sueMemberFind off spel members 0).extraOff)
  | _ => none

/-- `tree_type`; there is none after an error. -/
def treeType : Expr → Option Tree
  | .null members => some (.ptrTo members)
  | .struct lhs isStDot spel => do
      let mem ← structMem defs (← treeType lhs) isStDot spel
      some (treeOf mem.1)
  | .arrayIdx base _ => do some (.ty (← (← treeType base).elem))

/-- `CONST_ADDR_OR_NEED_TYPE` -/
def constAddrOrNeed (t : Tree) (a : Addr) : Bits :=
  if t.isArray then .addr a else .needAddr a

/-- `fold_const_expr_struct`, on what the left operand folds to. -/
def foldConstExprStruct (k : Consty) (isStDot : Bool) (mem : Member DType × BitVec 32) :
    Option Consty :=
  let moved (a : Addr) : Consty :=
    { k with
      bits := constAddrOrNeed (treeOf mem.1) a
      offset := k.offset + (structOffset mem.1 mem.2).setWidth 64 }
  match k.bits with
  | .no | .strk _ => some constFoldNo
  -- "a.b wants a CONST_NEED_ADDR, a->b wants a CONST_ADDR"
  | .needAddr a => some (if isStDot then moved a else { k with bits := .no })
  | .addr a => some (if isStDot then { k with bits := .no } else moved a)
  | .num _ _ => none

/-- `const_expr_deref`, on what the pointer folds to; it is never a string here. -/
def constExprDeref (k : Consty) (t : Tree) : Consty :=
  match k.bits with
  | .needAddr _ | .strk _ => constFoldNo
  | .num num _ => { bits := constAddrOrNeed t (.memaddr num) }
  | .addr a => { k with bits := constAddrOrNeed t a }
  | .no => k

/-- `const_fold` -/
def constFold : Expr → Option Consty
  -- the zero of the cast, through `const_memify`
  | .null _ => some { bits := .addr (.memaddr 0) }
  | .struct lhs isStDot spel => do
      let k ← constFold lhs
      match structMem defs (← treeType defs lhs) isStDot spel with
      | none => some constFoldNo
      | some mem => foldConstExprStruct k isStDot mem
  | .arrayIdx base idx => do
      let k ← constFold base
      let ref ← (← treeType defs base).elem
      let ptr : CTy := .ptr (typeSize defs ref).toNat
      let sum ← foldConstExprOp ⟨.plus, ⟨ptr, k⟩, some ⟨.long, constNum idx⟩, ptr⟩
      some (constExprDeref sum (.ty ref))

/-- The `switch` of `const_offsetof`, past the check for arrays. -/
def addrToNum (a : Addr) (offset : Integral) : Consty :=
  match a with
  | .memaddr m => constNum (m + offset)
  | .lblTrue _ | .lblWeak _ => constFoldNo

/-- `const_offsetof` -/
def constOffsetof (lhs : Expr) : Option Consty := do
  let k ← constFold defs lhs
  match k.bits with
  | .addr a =>
      if (← treeType defs lhs).isArray then some (addrToNum a k.offset) else some constFoldNo
  | .needAddr a => some (addrToNum a k.offset)
  | _ => some constFoldNo

/-! ## What is designated -/

/-- A part of an object: its type, where it starts, and, of the offsets of the members
and the sizes of the elements on the way, what they have in 4 GiB. -/
structure Part where
  tree : Tree
  offset : Int
  above : Int

/-- The member of that name, through anonymous structs and unions. -/
def Part.dot (p : Part) (spel : String) : Option Part := do
  let members ← p.tree.members defs
  let m ← (reach members).find? fun m => m.1.spel = some spel
  some ⟨treeOf m.1, p.offset + m.2, p.above + (m.2 / 2 ^ 32 : Nat)⟩

/-- The element of that index. -/
def Part.index (p : Part) (idx : Integral) : Option Part := do
  let ref ← p.tree.elem
  some ⟨.ty ref, p.offset + idx.toInt * sizeOf defs ref,
    p.above + idx.toInt * (sizeOf defs ref / 2 ^ 32 : Nat)⟩

/-- One designator more. -/
def Part.designate (p : Part) : Designator → Option Part
  | .dot spel => p.dot defs spel
  | .index idx => p.index defs idx

/-- What a chain of designators says. -/
def designated (members : List (Member DType)) (spel : String) (rest : List Designator) :
    Option Part := do
  let p ← Part.dot defs ⟨.sue members, 0, 0⟩ spel
  rest.foldlM (Part.designate defs) p

end Folding

/-! ## The members of members -/

/-- A list of members that `fold_sue` has been over. -/
def Folded (ms : List (Member DType)) : Prop := ∃ parsed, ms = folded parsed

/-- The members of a type have been folded. -/
def Tree.Folded (defs : Defs) (t : Tree) : Prop := ∀ ms, t.members defs = some ms → Offsetof.Folded ms

mutual

theorem reach_folded_member : ∀ m : Member DType, ∀ p ∈ reach (m.foldUnnamed off),
    ∀ ms, treeOf p.1 = .sue ms → Folded ms
  | .plain (some sp) ref place => by simp [Member.foldUnnamed, reach, Member.reach, treeOf]
  | .plain none ref place => by simp [Member.foldUnnamed, reach, Member.reach]
  | .sue (some sp) tdef anon ms place => by
    simp only [Member.foldUnnamed, reach, Member.reach, List.append_nil, List.mem_singleton,
      forall_eq, treeOf, Tree.sue.injEq]
    rintro _ rfl
    exact ⟨ms, rfl⟩
  | .sue none tdef anon ms place => by
    rw [foldUnnamed_off]
    split
    · rename_i hanon
      obtain ⟨rfl, rfl⟩ := hanon
      simp only [reach, Member.reach, List.append_nil, and_self, if_true]
      intro p hp
      obtain ⟨q, hq, rfl⟩ := List.mem_map.mp hp
      exact reach_folded ms q hq
    · simp [reach]

/-- What is reached in a folded list is folded. -/
theorem reach_folded : ∀ parsed : List (Member DType), ∀ p ∈ reach (folded parsed),
    ∀ ms, treeOf p.1 = .sue ms → Folded ms
  | [] => by simp [folded, foldSueMembers, reach]
  | m :: parsed => by
    intro p hp
    rw [folded_cons, reach_append, List.mem_append] at hp
    rcases hp with hp | hp
    · exact reach_folded_member m p hp
    · exact reach_folded parsed p hp

end

theorem folded_ty (defs : Defs) (t : DType) : (Tree.ty t).Folded defs := by
  intro ms hms
  cases t with
  | sue id => exact ⟨(defs id).members, (Option.some.inj hms).symm⟩
  | other size | array ref size => cases hms

theorem folded_treeOf {parsed : List (Member DType)} {p : Member DType × Nat} (defs : Defs)
    (hp : p ∈ reach (folded parsed)) : (treeOf p.1).Folded defs := by
  intro ms hms
  cases ht : treeOf p.1 with
  | ty t => exact folded_ty defs t ms (ht ▸ hms)
  | sue members =>
    rw [ht] at hms
    obtain rfl := Option.some.inj hms
    exact reach_folded parsed p hp members ht
  | ptrTo members =>
    rw [ht] at hms
    cases hms

/-! ## One designator -/

/-- What `type_size` keeps. -/
theorem toNat_typeSize (defs : Defs) (t : DType) :
    (typeSize defs t).toNat = sizeOf defs t % 2 ^ 32 := by
  induction t with
  | other size => exact (Nat.mod_eq_of_lt size.isLt).symm
  | sue id => exact (Nat.mod_eq_of_lt (defs id).size.isLt).symm
  | array ref size ih =>
    have hdvd : (2 : Nat) ^ 32 ∣ 2 ^ 64 := by decide
    rw [typeSize, BitVec.toNat_setWidth, BitVec.toNat_mul, Nat.mod_mod_of_dvd _ hdvd,
      BitVec.toNat_setWidth, Nat.mod_eq_of_lt (lt_trans (BitVec.isLt _) (by decide)), ih, sizeOf,
      Nat.mul_mod_mod]

/-- The word of an offset, without what is above 4 GiB in its summands. -/
def Part.word (p : Part) : Integral := BitVec.ofInt 64 (p.offset - 2 ^ 32 * p.above)

/-- An expression that folds to the address of a part. -/
structure Places (defs : Defs) (e : Expr) (p : Part) : Prop where
  treeType : treeType defs e = some p.tree
  folded : p.tree.Folded defs
  constFold : ∃ a o, constFold defs e = some
    { bits := constAddrOrNeed p.tree (.memaddr a), offset := o } ∧ a + o = p.word

theorem word_add (p : Part) (t : Tree) (d : Int) (n : Nat) :
    Part.word ⟨t, p.offset + d * n, p.above + d * (n / 2 ^ 32 : Nat)⟩ =
      p.word + BitVec.ofInt 64 d * BitVec.ofNat 64 (n % 2 ^ 32) := by
  have hsplit : (n : Int) = 2 ^ 32 * (n / 2 ^ 32 : Nat) + (n % 2 ^ 32 : Nat) := by
    exact_mod_cast (Nat.div_add_mod n (2 ^ 32)).symm
  have hsum : p.offset + d * n - 2 ^ 32 * (p.above + d * (n / 2 ^ 32 : Nat)) =
      p.offset - 2 ^ 32 * p.above + d * (n % 2 ^ 32 : Nat) := by
    linear_combination d * hsplit
  rw [Part.word, Part.word, hsum, BitVec.ofInt_add, BitVec.ofInt_mul, BitVec.ofInt_natCast]

variable {defs : Defs} {e : Expr} {p q : Part} {members : List (Member DType)} {spel : String}

variable (defs) in
/-- The member of that name is found, with what is left of its offset. -/
theorem exists_structMem {m : Member DType × Nat} {t : Tree} (isStDot : Bool)
    (hmembers : structMem defs t isStDot spel = match (sueMemberFind off spel members 0).decl with
      | some (.member d) => some (d, (sueMemberFind off spel members 0).extraOff)
      | _ => none)
    (hfolded : Folded members)
    (hfind : (reach members).find? (fun m => m.1.spel = some spel) = some m) :
    ∃ extraOff, structMem defs t isStDot spel = some (m.1, extraOff) ∧
      (structOffset m.1 extraOff).setWidth 64 = BitVec.ofNat 64 (m.2 % 2 ^ 32) := by
  obtain ⟨parsed, rfl⟩ := hfolded
  have hfound : reachNamed parsed spel = some m := hfind
  refine ⟨(sueMemberFind off spel (folded parsed) 0).extraOff, ?_, ?_⟩
  · rw [hmembers, (find_some_of_reachNamed hfound 0).1]
  · apply BitVec.eq_of_toNat_eq
    rw [BitVec.toNat_setWidth, structOffset_toNat hfound, BitVec.toNat_ofNat]

theorem Part.dot_eq_some (h : p.dot defs spel = some q) :
    ∃ members m, p.tree.members defs = some members ∧
      (reach members).find? (fun m => m.1.spel = some spel) = some m ∧
      q = ⟨treeOf m.1, p.offset + m.2, p.above + (m.2 / 2 ^ 32 : Nat)⟩ := by
  unfold Part.dot at h
  obtain ⟨members, hmembers, h⟩ := Option.bind_eq_some_iff.mp h
  obtain ⟨m, hm, h⟩ := Option.bind_eq_some_iff.mp h
  exact ⟨members, m, hmembers, hm, (Option.some.inj h).symm⟩

theorem Part.index_eq_some {idx : Integral} (h : p.index defs idx = some q) :
    ∃ ref, p.tree.elem = some ref ∧ q = ⟨.ty ref, p.offset + idx.toInt * sizeOf defs ref,
      p.above + idx.toInt * (sizeOf defs ref / 2 ^ 32 : Nat)⟩ := by
  unfold Part.index at h
  obtain ⟨ref, href, h⟩ := Option.bind_eq_some_iff.mp h
  exact ⟨ref, href, (Option.some.inj h).symm⟩

theorem isArray_of_members {t : Tree} (h : t.members defs = some members) : t.isArray = false := by
  cases t with
  | ty t =>
    cases t with
    | array ref size => cases h
    | other size | sue id => rfl
  | sue ms | ptrTo ms => rfl

theorem isArray_of_elem {t : Tree} {ref : DType} (h : t.elem = some ref) : t.isArray = true := by
  cases t with
  | ty t =>
    cases t with
    | array ref size => rfl
    | other size | sue id => cases h
  | sue ms | ptrTo ms => cases h

/-- The member that is moved to, and its part of the word. -/
theorem places_member {m : Member DType × Nat} {extraOff : BitVec 32} {a o : Integral}
    (hword : a + o = p.word)
    (hoff : (structOffset m.1 extraOff).setWidth 64 = BitVec.ofNat 64 (m.2 % 2 ^ 32)) :
    a + (o + (structOffset m.1 extraOff).setWidth 64) =
      Part.word ⟨treeOf m.1, p.offset + m.2, p.above + (m.2 / 2 ^ 32 : Nat)⟩ := by
  have h := word_add p (treeOf m.1) 1 m.2
  rw [one_mul, one_mul] at h
  rw [h, ← BitVec.add_assoc, hword, hoff]
  congr 1
  exact (BitVec.one_mul _).symm

/-- The first member, through the null pointer. -/
theorem places_first (hfolded : Folded members)
    (h : Part.dot defs ⟨.sue members, 0, 0⟩ spel = some q) :
    Places defs (.struct (.null members) false spel) q := by
  obtain ⟨_, m, hmembers, hfind, rfl⟩ := Part.dot_eq_some h
  obtain rfl := Option.some.inj hmembers
  obtain ⟨extraOff, hmem, hoff⟩ := exists_structMem defs (t := .ptrTo members) false
    rfl hfolded hfind
  obtain ⟨parsed, rfl⟩ := hfolded
  refine ⟨by simp [treeType, hmem], folded_treeOf defs (List.mem_of_find?_eq_some hfind), ?_⟩
  refine ⟨0, 0 + (structOffset m.1 extraOff).setWidth 64, ?_,
    places_member (p := ⟨.sue (folded parsed), 0, 0⟩) rfl hoff⟩
  simp [constFold, treeType, hmem, foldConstExprStruct]

theorem Places.dot (h : Places defs e p) (hq : p.dot defs spel = some q) :
    Places defs (.struct e true spel) q := by
  obtain ⟨members, m, hmembers, hfind, rfl⟩ := Part.dot_eq_some hq
  have hfolded := h.folded members hmembers
  obtain ⟨extraOff, hmem, hoff⟩ := exists_structMem defs (t := p.tree) true
    (by simp [structMem, hmembers]) hfolded hfind
  obtain ⟨a, o, hk, hword⟩ := h.constFold
  obtain ⟨parsed, rfl⟩ := hfolded
  refine ⟨by simp [Offsetof.treeType, h.treeType, hmem],
    folded_treeOf defs (List.mem_of_find?_eq_some hfind), ?_⟩
  refine ⟨a, o + (structOffset m.1 extraOff).setWidth 64, ?_, places_member hword hoff⟩
  -- a struct or union is no array, so its address is needed
  simp [Offsetof.constFold, hk, h.treeType, hmem, foldConstExprStruct, constAddrOrNeed,
    isArray_of_members hmembers]

/-- An array, moved on by an index. -/
theorem fold_plus (step : Nat) (a o idx : Integral) :
    foldConstExprOp ⟨.plus, ⟨.ptr step, { bits := .addr (.memaddr a), offset := o }⟩,
        some ⟨.long, constNum idx⟩, .ptr step⟩ =
      some { bits := .num (a + o + idx * BitVec.ofNat 64 step) {} } := by
  simp [foldConstExprOp, Consty.atCompileTime, OpExpr.rhsConst, constNum, constOpNumInt,
    collapseConst, applyStep, labels, CTy.isPtr, opIsShortcircuit, foldNumbers, constOpExec,
    binaryExec, wrapAround, CTy.isSigned, numSuffix, Except.map]

theorem Places.index {idx : Integral} (h : Places defs e p) (hq : p.index defs idx = some q) :
    Places defs (.arrayIdx e idx) q := by
  obtain ⟨ref, href, rfl⟩ := Part.index_eq_some hq
  obtain ⟨a, o, hk, hword⟩ := h.constFold
  refine ⟨by simp [Offsetof.treeType, h.treeType, href], folded_ty defs ref, ?_⟩
  refine ⟨a + o + idx * BitVec.ofNat 64 (typeSize defs ref).toNat, 0, ?_, ?_⟩
  · simp [Offsetof.constFold, hk, h.treeType, href, constAddrOrNeed, isArray_of_elem href,
      fold_plus, constExprDeref]
  · rw [word_add, hword, toNat_typeSize, BitVec.ofInt_toInt]
    exact BitVec.add_zero _

theorem Places.designate {d : Designator} (h : Places defs e p)
    (hq : p.designate defs d = some q) : Places defs (e.designate d) q := by
  cases d with
  | dot spel => exact h.dot hq
  | index idx => exact h.index hq

/-- A chain of designators, from the left. -/
theorem Places.foldl (rest : List Designator) (h : Places defs e p)
    (hq : rest.foldlM (Part.designate defs) p = some q) :
    Places defs (rest.foldl Expr.designate e) q := by
  induction rest generalizing e p with
  | nil =>
    obtain rfl := Option.some.inj hq
    exact h
  | cons d rest ih =>
    rw [List.foldlM_cons] at hq
    obtain ⟨r, hr, hq⟩ := Option.bind_eq_some_iff.mp hq
    exact ih (h.designate hr) hq

/-! ## offsetof -/

theorem Places.constOffsetof (h : Places defs e p) :
    constOffsetof defs e = some (constNum p.word) := by
  obtain ⟨a, o, hk, hword⟩ := h.constFold
  unfold Offsetof.constOffsetof constAddrOrNeed at *
  cases harr : p.tree.isArray <;> simp [hk, h.treeType, harr, addrToNum, hword]

theorem ofInt_eq_iff {x y : Int} :
    BitVec.ofInt 64 x = BitVec.ofInt 64 y ↔ (2 : Int) ^ 64 ∣ x - y := by
  rw [← BitVec.toInt_inj, BitVec.toInt_ofInt, BitVec.toInt_ofInt,
    Int.bmod_eq_bmod_iff_bmod_sub_eq_zero, ← Int.dvd_iff_bmod_eq_zero]
  norm_num

/-- `__builtin_offsetof` is where the part is, as an `unsigned long`, exactly where
what is dropped of the offsets and the sizes does not matter to such a number. -/
theorem offsetof_folds_iff (defs : Defs) (parsed : List (Member DType)) (spel : String)
    (rest : List Designator) (p : Part)
    (h : designated defs (folded parsed) spel rest = some p) :
    constOffsetof defs (parseOffsetof (folded parsed) spel rest) =
        some (constNum (BitVec.ofInt 64 p.offset)) ↔
      2 ^ 32 ∣ p.above := by
  obtain ⟨first, hfirst, hrest⟩ := Option.bind_eq_some_iff.mp h
  have hplaces : Places defs (parseOffsetof (folded parsed) spel rest) p :=
    (places_first ⟨parsed, rfl⟩ hfirst).foldl rest hrest
  rw [hplaces.constOffsetof, Option.some_inj]
  have hnum : ∀ x y : Integral, constNum x = constNum y ↔ x = y := fun x y =>
    ⟨fun h => by simpa [constNum] using h, fun h => h ▸ rfl⟩
  rw [hnum, Part.word, ofInt_eq_iff]
  have hdrop : p.offset - 2 ^ 32 * p.above - p.offset = -(2 ^ 32 * p.above) := by ring
  have hsplit : (2 : Int) ^ 64 = 2 ^ 32 * 2 ^ 32 := by norm_num
  rw [hdrop, dvd_neg, hsplit, mul_dvd_mul_iff_left (by norm_num)]

/-- `struct { long n; struct { char tag; struct { short a[3]; } b[2]; }; }` -/
def sample : List (Member DType) :=
  [.plain (some "n") (.other 8) 0,
    .sue none none true
      [.plain (some "tag") (.other 1) 0, .plain (some "b") (.array (.sue 0) 2) 2] 8]

/-- `struct { short a[3]; }` -/
def sampleDefs : Defs := fun _ => ⟨[.plain (some "a") (.array (.other 2) 3) 0], 6⟩

/-- `b[1].a[2]` -/
theorem offsetof_folds_sample :
    constOffsetof sampleDefs (parseOffsetof (folded sample) "b" [.index 1, .dot "a", .index 2]) =
      some (constNum (BitVec.ofInt 64 20)) :=
  (offsetof_folds_iff sampleDefs sample "b" [.index 1, .dot "a", .index 2]
    ⟨.ty (.other 2), 20, 0⟩ rfl).2 (dvd_zero _)

/-- `struct { char a[3 << 30]; struct { char b[2 << 30]; int c; }; }` -/
def huge : List (Member DType) :=
  [.plain (some "a") (.array (.other 1) 0xc0000000) 0,
    .sue none none true
      [.plain (some "b") (.array (.other 1) 0x80000000) 0,
        .plain (some "c") (.other 4) 0x80000000#32] 0xc0000000#32]

/-- The offset of `c` is 5 GiB, and it folds to 1 GiB. -/
theorem offsetof_huge_wraps :
    (designated sampleDefs (folded huge) "c" []).map Part.offset = some 0x140000000 ∧
      constOffsetof sampleDefs (parseOffsetof (folded huge) "c" []) =
        some (constNum 0x40000000) ∧
      constNum 0x40000000 ≠ constNum (BitVec.ofInt 64 0x140000000) := by
  refine ⟨rfl, ?_, by decide⟩
  exact (places_first (q := ⟨.ty (.other 4), 0x140000000, 1⟩) ⟨huge, rfl⟩ rfl).constOffsetof

end Ucc.Cc1.Offsetof
