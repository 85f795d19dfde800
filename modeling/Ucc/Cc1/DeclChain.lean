/-
  Cc1/DeclChain.lean --- the declarations of one function or variable.

  Source: decl_align1, decl_align, decl_linkage, decl_alias, decl_proto, decl_impl,
  decl_with_init, decl_is_pure_inline, decl_should_emit_code and
  decl_unused_and_internal in src/cc1/decl.c, attribute_present in
  src/cc1/attribute.c; link_to_previous_decl of src/cc1/parse_type.c for the
  pointers, fold_decl_add_sym of src/cc1/fold.c for the symbols.

  `proto` leads to the declaration before and `impl` to the one after.  An attribute
  is looked for on the declarations before only, everything else on all of them.
-/
import Ucc.Cc1.ScopeLeave
import Ucc.Lib.Links

set_option autoImplicit false

namespace Ucc.Cc1.Chain

open Ucc.Lib
open Scope (DeclStorage)

/-! ## Declarations -/

/-- The attributes that are asked for here; `alias` leads to a declaration. -/
inductive Attr (n : Nat) where
  | used
  | alias (target : Fin n)
  | other (name : String)
  deriving DecidableEq, Repr

/-- `enum sym_type` -/
inductive SymType where
  | global | local_ | arg
  deriving DecidableEq, Repr

/-- `dinit`, and `compiler_generated`. -/
inductive DInit where
  | explicit | generated
  deriving DecidableEq, Repr

/-- The type of a variable: whether it is an array, and whether it is complete. -/
structure VarTy where
  isArray : Bool
  complete : Bool
  deriving DecidableEq, Repr

/-- `bits`: `func.code`, or `var` with `align.resolved` and `init.dinit`. -/
inductive DeclBits where
  | func (code : Bool)
  | var (ty : VarTy) (alignResolved : Nat) (dinit : Option DInit)
  deriving DecidableEq, Repr

/-- `struct decl`, among `n` of them.  `store` is under `STORE_MASK_STORE`, `inline`
beside it; `used` is `DECL_FLAGS_USED`; `typeAlign` and `typeAttr` are what
`type_align` and `type_attr_present` find. -/
structure Decl (n : Nat) where
  spel : Option String
  store : DeclStorage
  inline : Bool
  used : Bool
  attr : List (Attr n)
  typeAttr : List (Attr n)
  typeAlign : Nat
  bits : DeclBits
  sym : Option SymType
  proto : Option (Fin n)
  impl : Option (Fin n)
  protoFlag : Bool
  deriving DecidableEq, Repr

/-- The declarations, by address. -/
abbrev Decls (n : Nat) := Fin n → Decl n

variable {n : Nat}

/-- `type_is(d->ref, type_func)` -/
def Decl.isFunc (d : Decl n) : Bool :=
  match d.bits with
  | .func _ => true
  | .var _ _ _ => false

/-- `bits.func.code` -/
def Decl.code (d : Decl n) : Bool :=
  match d.bits with
  | .func code => code
  | .var _ _ _ => false

/-- `bits.var.init.dinit` -/
def Decl.dinit (d : Decl n) : Option DInit :=
  match d.bits with
  | .func _ => none
  | .var _ _ dinit => dinit

/-- `for(i = d; i; i = i->proto)` -/
def protos (ds : Decls n) (d : Fin n) : List (Fin n) := follow (fun i => (ds i).proto) n (some d)

/-- `for(i = d; i; i = i->impl)` -/
def impls (ds : Decls n) (d : Fin n) : List (Fin n) := follow (fun i => (ds i).impl) n (some d)

/-! ## `decl.c` -/

/-- `attr_present`, and `type_attr_present` -/
def Decl.attrHere (d : Decl n) (t : Attr n → Bool) : Option (Attr n) :=
  (d.attr.find? t).or (d.typeAttr.find? t)

/-- `attribute_present` -/
def attributePresent (ds : Decls n) (d : Fin n) (t : Attr n → Bool) : Option (Attr n) :=
  (protos ds d).findSome? fun i => (ds i).attrHere t

/-- `decl_align1` -/
def declAlign1 (d : Decl n) : Nat :=
  match d.bits with
  | .func _ => d.typeAlign
  | .var _ alignResolved _ => if alignResolved ≠ 0 then alignResolved else d.typeAlign

/-- `decl_proto` -/
def declProto (ds : Decls n) (d : Fin n) : Fin n := (protos ds d).getLast?.getD d

/-- `decl_align` -/
def declAlign (ds : Decls n) (d : Fin n) : Nat :=
  (impls ds (declProto ds d)).foldl (fun max i => if declAlign1 (ds i) > max then declAlign1 (ds i)
    else max) 0

/-- `enum linkage` -/
inductive Linkage where
  | none | internal | external
  deriving DecidableEq, Repr

/-- `decl_linkage` -/
def declLinkage (ds : Decls n) (d : Fin n) : Linkage :=
  match (ds (declProto ds d)).store with
  | .storeExtern => .external
  | .storeStatic => .internal
  | .storeRegister | .storeAuto | .storeTypedef => .none
  -- "either global non-static or local"
  | .storeDefault => if (ds d).sym = some .global then .external else .none

/-- `decl_alias` -/
def declAlias (ds : Decls n) (d fallback : Fin n) : Fin n :=
  match attributePresent ds d (fun a => a matches .alias _) with
  | some (.alias target) => target
  | _ => fallback

/-- `decl_impl`, and `decl_with_init` with `has` for what is looked for. -/
def declWith (has : Decl n → Bool) (ds : Decls n) (includeAlias : Bool) (d : Fin n) : Fin n :=
  match (protos ds d).find? fun i => has (ds i) with
  | some i => i
  | none =>
      match (impls ds d).find? fun i => has (ds i) with
      | some i => i
      | none =>
          let target := declAlias ds d d
          if includeAlias ∧ has (ds target) then target else d

/-- `decl_impl` -/
def declImpl (ds : Decls n) (includeAlias : Bool) (d : Fin n) : Fin n :=
  declWith Decl.code ds includeAlias d

/-- `decl_with_init` -/
def declWithInit (ds : Decls n) (includeAlias : Bool) (d : Fin n) : Fin n :=
  declWith (fun d => d.dinit.isSome) ds includeAlias d

/-- `CHECK_INLINE`, where it does not return. -/
def Decl.plainInline (d : Decl n) : Bool := d.inline && d.store = .storeDefault

/-- `decl_is_pure_inline` -/
def declIsPureInline (ds : Decls n) (d : Fin n) : Bool :=
  (protos ds d).all (fun i => (ds i).plainInline) && (impls ds d).all fun i => (ds i).plainInline

/-- `decl_unused_and_internal` -/
def declUnusedAndInternal (ds : Decls n) (d : Fin n) : Bool :=
  if (attributePresent ds d (· = .used)).isSome then false
  else
    let used := (protos ds d).any (fun i => (ds i).used) || (impls ds d).any fun i => (ds i).used
    !used && declLinkage ds d ≠ .external

/-- `decl_should_emit_code` -/
def declShouldEmitCode (ds : Decls n) (d : Fin n) : Bool :=
  if !(ds d).code then false
  else if declIsPureInline ds d then false
  else if declUnusedAndInternal ds d then false
  else true

/-! ## Chains -/

/-- The file-scope declarations of one function or of one variable, the oldest
first. -/
structure DeclChain (ds : Decls n) (ids : List (Fin n)) : Prop where
  impl : Linked (fun i => (ds i).impl) ids
  proto : Linked (fun i => (ds i).proto) ids.reverse
  nodup : ids.Nodup
  global : ∀ i ∈ ids, (ds i).sym = some .global
  sameKind : ∀ i ∈ ids, ∀ j ∈ ids, (ds i).isFunc = (ds j).isFunc

/-- A question has one answer. -/
def Agree {β : Type} (ids : List (Fin n)) (query : Fin n → β) : Prop :=
  ∀ d ∈ ids, ∀ e ∈ ids, query d = query e

/-- `attr_used` on a declaration, or on its type. -/
def Decl.markedUsed (d : Decl n) : Prop := .used ∈ d.attr ∨ .used ∈ d.typeAttr

/-- The questions do not depend on the declaration that is asked, and a body is
emitted where C wants it. -/
structure QueriesAgree (ds : Decls n) (ids : List (Fin n)) : Prop where
  linkage : Agree ids (declLinkage ds)
  align : Agree ids (declAlign ds)
  pureInline : Agree ids (declIsPureInline ds)
  unusedAndInternal : Agree ids (declUnusedAndInternal ds)
  body : ∀ flags, (∃ i ∈ ids, (ds i).code = true) → Agree ids (declImpl ds flags)
  init : ∀ flags, (∃ i ∈ ids, (ds i).dinit.isSome = true) → Agree ids (declWithInit ds flags)
  emitted : ∀ d ∈ ids, (ds d).code = true →
    (declShouldEmitCode ds d = true ↔ (¬ ∀ i ∈ ids, (ds i).plainInline = true) ∧
      (declLinkage ds d = .external ∨ ∃ i ∈ ids, (ds i).used = true ∨ (ds i).markedUsed))

/-- At most one declaration has what is looked for. -/
def AtMostOne (ids : List (Fin n)) (has : Fin n → Bool) : Prop :=
  ∀ d ∈ ids, ∀ e ∈ ids, has d = true → has e = true → d = e

/-- There is one body or initialiser at most; and where nothing else keeps the
function or variable, the oldest declaration is marked used or none is. -/
structure MarkedFromTheStart (ds : Decls n) (ids : List (Fin n)) : Prop where
  oneBody : AtMostOne ids fun i => (ds i).code
  oneInit : AtMostOne ids fun i => (ds i).dinit.isSome
  marked : (∃ o, ids.head? = some o ∧ (declLinkage ds o = .external ∨ (ds o).markedUsed)) ∨
    (∃ i ∈ ids, (ds i).used = true) ∨ ∀ i ∈ ids, ¬ (ds i).markedUsed

section Walks

variable {ds : Decls n} {ids pre post : List (Fin n)} {d : Fin n}

theorem DeclChain.length_le (h : DeclChain ds ids) : ids.length ≤ n := by
  have hcard := h.nodup.length_le_card
  rwa [Fintype.card_fin] at hcard

theorem DeclChain.impls_eq (h : DeclChain ds ids) (hsplit : ids = pre ++ d :: post) :
    impls ds d = d :: post := by
  have hle := h.length_le
  have hlink := h.impl
  rw [hsplit] at hlink hle
  refine follow_of_split hlink ?_
  rw [List.length_append] at hle
  omega

/-- The loop ends within as many turns as there are declarations. -/
theorem protos_of_linked (hlink : Linked (fun i => (ds i).proto) (d :: post))
    (hnodup : (d :: post).Nodup) : protos ds d = d :: post := by
  have hcard := hnodup.length_le_card
  rw [Fintype.card_fin] at hcard
  exact follow_linked hlink hcard

theorem DeclChain.protos_eq (h : DeclChain ds ids) (hsplit : ids = pre ++ d :: post) :
    protos ds d = d :: pre.reverse := by
  have hlink := h.proto
  have hnodup := List.nodup_reverse.mpr h.nodup
  rw [hsplit, List.reverse_append, List.reverse_cons, List.append_assoc] at hlink hnodup
  exact protos_of_linked hlink.suffix (List.nodup_append.mp hnodup).2.1

/-- Every declaration leads back to the oldest one. -/
theorem DeclChain.declProto_eq {o : Fin n} (h : DeclChain ds (o :: ids)) (hd : d ∈ o :: ids) :
    declProto ds d = o := by
  obtain ⟨pre, post, hsplit⟩ := List.append_of_mem hd
  rw [declProto, h.protos_eq hsplit]
  cases pre with
  | nil =>
    obtain ⟨rfl, -⟩ := List.cons.inj hsplit
    rfl
  | cons b pre =>
    obtain ⟨rfl, -⟩ := List.cons.inj hsplit
    rw [List.reverse_cons, ← List.cons_append, List.getLast?_append]
    rfl

/-- The two walks from a declaration see the whole chain. -/
theorem DeclChain.mem_walks (h : DeclChain ds ids) (hd : d ∈ ids) (i : Fin n) :
    i ∈ protos ds d ∨ i ∈ impls ds d ↔ i ∈ ids := by
  obtain ⟨pre, post, hsplit⟩ := List.append_of_mem hd
  rw [h.protos_eq hsplit, h.impls_eq hsplit, hsplit]
  simp only [List.mem_cons, List.mem_reverse, List.mem_append]
  tauto

theorem DeclChain.forall_walks (h : DeclChain ds ids) (hd : d ∈ ids) (P : Fin n → Prop) :
    (∀ i ∈ protos ds d, P i) ∧ (∀ i ∈ impls ds d, P i) ↔ ∀ i ∈ ids, P i := by
  constructor
  · rintro ⟨hback, hforth⟩ i hi
    rcases (h.mem_walks hd i).mpr hi with hi | hi
    · exact hback i hi
    · exact hforth i hi
  · intro hall
    exact ⟨fun i hi => hall i ((h.mem_walks hd i).mp (Or.inl hi)),
      fun i hi => hall i ((h.mem_walks hd i).mp (Or.inr hi))⟩

/-- The last declaration leads back to all of them. -/
theorem DeclChain.exists_last (h : DeclChain ds ids) (hne : ids ≠ []) :
    ∃ last ∈ ids, ∀ i ∈ ids, i ∈ protos ds last := by
  have hsplit := (List.dropLast_append_getLast hne).symm
  refine ⟨_, List.getLast_mem hne, fun i hi => ?_⟩
  rw [h.protos_eq hsplit]
  rw [hsplit] at hi
  simpa [or_comm] using hi

end Walks

/-! ## The questions -/

section Queries

variable {ds : Decls n} {ids : List (Fin n)} {o : Fin n}

theorem DeclChain.agree_linkage (h : DeclChain ds (o :: ids)) :
    Agree (o :: ids) (declLinkage ds) := by
  intro d hd e he
  unfold declLinkage
  rw [h.declProto_eq hd, h.declProto_eq he, h.global d hd, h.global e he]

theorem DeclChain.agree_align (h : DeclChain ds (o :: ids)) : Agree (o :: ids) (declAlign ds) := by
  intro d hd e he
  unfold declAlign
  rw [h.declProto_eq hd, h.declProto_eq he]

theorem DeclChain.declIsPureInline_iff (h : DeclChain ds ids) {d : Fin n} (hd : d ∈ ids) :
    declIsPureInline ds d = true ↔ ∀ i ∈ ids, (ds i).plainInline = true := by
  simp only [declIsPureInline, Bool.and_eq_true, List.all_eq_true]
  exact h.forall_walks hd _

theorem DeclChain.agree_pureInline (h : DeclChain ds ids) : Agree ids (declIsPureInline ds) := by
  intro d hd e he
  rw [Bool.eq_iff_iff, h.declIsPureInline_iff hd, h.declIsPureInline_iff he]

theorem attrHere_used_iff (d : Decl n) :
    (d.attrHere (· = .used)).isSome = true ↔ d.markedUsed := by
  simp [Decl.attrHere, Decl.markedUsed, Option.isSome_or]

theorem attributePresent_used_iff (d : Fin n) :
    (attributePresent ds d (· = .used)).isSome = true ↔ ∃ i ∈ protos ds d, (ds i).markedUsed := by
  simp only [attributePresent, List.findSome?_isSome_iff, attrHere_used_iff]

/-- The attribute is only seen on the declarations before. -/
theorem DeclChain.declUnusedAndInternal_iff (h : DeclChain ds ids) {d : Fin n} (hd : d ∈ ids) :
    declUnusedAndInternal ds d = true ↔ (∀ i ∈ protos ds d, ¬ (ds i).markedUsed) ∧
      (∀ i ∈ ids, (ds i).used = false) ∧ declLinkage ds d ≠ .external := by
  have hused : ((protos ds d).any (fun i => (ds i).used) ||
      (impls ds d).any fun i => (ds i).used) = false ↔ ∀ i ∈ ids, (ds i).used = false := by
    simp only [Bool.or_eq_false_iff, List.any_eq_false, Bool.not_eq_true]
    exact h.forall_walks hd _
  unfold declUnusedAndInternal
  split
  · rename_i hattr
    obtain ⟨i, hi, hmarked⟩ := (attributePresent_used_iff d).mp hattr
    exact iff_of_false Bool.false_ne_true fun hall => hall.1 i hi hmarked
  · rename_i hattr
    have hnone : ∀ i ∈ protos ds d, ¬ (ds i).markedUsed := fun i hi hmarked =>
      hattr ((attributePresent_used_iff d).mpr ⟨i, hi, hmarked⟩)
    rw [and_iff_right hnone]
    simp only [Bool.and_eq_true, Bool.not_eq_true', hused, decide_eq_true_eq]

/-! ## Bodies and initialisers -/

theorem DeclChain.declWith_spec (h : DeclChain ds ids) (has : Decl n → Bool) (flags : Bool)
    {d : Fin n} (hd : d ∈ ids) (hex : ∃ i ∈ ids, has (ds i) = true) :
    declWith has ds flags d ∈ ids ∧ has (ds (declWith has ds flags d)) = true := by
  unfold declWith
  split
  · rename_i i hi
    exact ⟨(h.mem_walks hd i).mp (Or.inl (List.mem_of_find?_eq_some hi)),
      List.find?_some (p := fun i => has (ds i)) hi⟩
  · rename_i hback
    split
    · rename_i i hi
      exact ⟨(h.mem_walks hd i).mp (Or.inr (List.mem_of_find?_eq_some hi)),
        List.find?_some (p := fun i => has (ds i)) hi⟩
    · rename_i hforth
      obtain ⟨i, hi, hhas⟩ := hex
      rw [List.find?_eq_none] at hback hforth
      rcases (h.mem_walks hd i).mpr hi with hw | hw
      · exact absurd hhas (hback i hw)
      · exact absurd hhas (hforth i hw)

/-- A declaration that has it is the first one that is looked at. -/
theorem DeclChain.declWith_self (h : DeclChain ds ids) (has : Decl n → Bool) (flags : Bool)
    {d : Fin n} (hd : d ∈ ids) (hhas : has (ds d) = true) : declWith has ds flags d = d := by
  obtain ⟨pre, post, hsplit⟩ := List.append_of_mem hd
  rw [declWith, h.protos_eq hsplit, List.find?_cons_of_pos (p := fun i => has (ds i)) hhas]

theorem DeclChain.agree_declWith_iff (h : DeclChain ds ids) (has : Decl n → Bool) :
    (∀ flags, (∃ i ∈ ids, has (ds i) = true) → Agree ids (declWith has ds flags)) ↔
      AtMostOne ids fun i => has (ds i) := by
  constructor
  · intro hagree d hd e he hhasd hhase
    have heq := hagree false ⟨d, hd, hhasd⟩ d hd e he
    rwa [h.declWith_self has false hd hhasd, h.declWith_self has false he hhase] at heq
  · intro hone flags hex d hd e he
    obtain ⟨hmemd, hhasd⟩ := h.declWith_spec has flags hd hex
    obtain ⟨hmeme, hhase⟩ := h.declWith_spec has flags he hex
    exact hone _ hmemd _ hmeme hhasd hhase

/-! ## Marked declarations -/

theorem DeclChain.mem_protos (h : DeclChain ds ids) {d i : Fin n} (hd : d ∈ ids)
    (hi : i ∈ protos ds d) : i ∈ ids :=
  (h.mem_walks hd i).mp (Or.inl hi)

theorem DeclChain.protos_oldest (h : DeclChain ds (o :: ids)) : protos ds o = [o] :=
  h.protos_eq (show o :: ids = [] ++ o :: ids from rfl)

theorem DeclChain.oldest_mem_protos (h : DeclChain ds (o :: ids)) {d : Fin n}
    (hd : d ∈ o :: ids) : o ∈ protos ds d := by
  have hproto := h.declProto_eq hd
  unfold declProto at hproto
  obtain ⟨pre, post, hsplit⟩ := List.append_of_mem hd
  rw [h.protos_eq hsplit] at hproto ⊢
  rw [← hproto, List.getLast?_eq_some_getLast (List.cons_ne_nil _ _), Option.getD_some]
  exact List.getLast_mem _

/-- Asked of the last declaration, no mark is missed; asked of the oldest one, only its
own is seen. -/
theorem DeclChain.agree_unusedAndInternal_iff (h : DeclChain ds (o :: ids)) :
    Agree (o :: ids) (declUnusedAndInternal ds) ↔
      (declLinkage ds o = .external ∨ (ds o).markedUsed) ∨
        (∃ i ∈ o :: ids, (ds i).used = true) ∨ ∀ i ∈ o :: ids, ¬ (ds i).markedUsed := by
  have ho : o ∈ o :: ids := List.mem_cons_self
  constructor
  · intro hagree
    by_contra hno
    push Not at hno
    obtain ⟨⟨hext, hmark⟩, hused, i, hi, hmarked⟩ := hno
    have hnotused : ∀ j ∈ o :: ids, (ds j).used = false := fun j hj => by
      simpa using hused j hj
    have hold : declUnusedAndInternal ds o = true := by
      rw [h.declUnusedAndInternal_iff ho, h.protos_oldest]
      refine ⟨?_, hnotused, hext⟩
      intro j hj
      rwa [List.mem_singleton.mp hj]
    obtain ⟨last, hmem, hlast⟩ := h.exists_last (List.cons_ne_nil o ids)
    rw [hagree o ho last hmem, h.declUnusedAndInternal_iff hmem] at hold
    exact hold.1 i (hlast i hi) hmarked
  · intro hcond d hd e he
    have hsame : declUnusedAndInternal ds d = true ↔ declUnusedAndInternal ds e = true := by
      rw [h.declUnusedAndInternal_iff hd, h.declUnusedAndInternal_iff he,
        h.agree_linkage d hd o ho, h.agree_linkage e he o ho]
      rcases hcond with (hext | hmark) | hused | hnone
      · exact iff_of_false (fun hd => hd.2.2 hext) fun he => he.2.2 hext
      · exact iff_of_false (fun hall => hall.1 o (h.oldest_mem_protos hd) hmark)
          fun hall => hall.1 o (h.oldest_mem_protos he) hmark
      · obtain ⟨i, hi, hui⟩ := hused
        refine iff_of_false (fun hall => ?_) fun hall => ?_
        · rw [hall.2.1 i hi] at hui
          cases hui
        · rw [hall.2.1 i hi] at hui
          cases hui
      · have hd' : ∀ i ∈ protos ds d, ¬ (ds i).markedUsed := fun i hi =>
          hnone i (h.mem_protos hd hi)
        have he' : ∀ i ∈ protos ds e, ¬ (ds i).markedUsed := fun i hi =>
          hnone i (h.mem_protos he hi)
        rw [and_iff_right hd', and_iff_right he']
    exact Bool.eq_iff_iff.mpr hsame

theorem DeclChain.declShouldEmitCode_iff (h : DeclChain ds ids) {d : Fin n} (hd : d ∈ ids)
    (hcode : (ds d).code = true) :
    declShouldEmitCode ds d = true ↔
      (¬ ∀ i ∈ ids, (ds i).plainInline = true) ∧ declUnusedAndInternal ds d = false := by
  have hinline := h.declIsPureInline_iff hd
  unfold declShouldEmitCode
  rw [hcode, Bool.not_true, if_neg Bool.false_ne_true]
  split
  · rename_i hpure
    exact iff_of_false Bool.false_ne_true fun hall => hall.1 (hinline.mp hpure)
  · rename_i hpure
    rw [and_iff_right (fun hall => hpure (hinline.mpr hall))]
    cases declUnusedAndInternal ds d with
    | true => exact iff_of_false Bool.false_ne_true Bool.noConfusion
    | false => exact iff_of_true rfl rfl

/-- A body is emitted where it should be, if one answer is given to whether it is used. -/
theorem DeclChain.emitted_of_agree (h : DeclChain ds (o :: ids))
    (hagree : Agree (o :: ids) (declUnusedAndInternal ds)) {d : Fin n} (hd : d ∈ o :: ids)
    (hcode : (ds d).code = true) :
    declShouldEmitCode ds d = true ↔ (¬ ∀ i ∈ o :: ids, (ds i).plainInline = true) ∧
      (declLinkage ds d = .external ∨
        ∃ i ∈ o :: ids, (ds i).used = true ∨ (ds i).markedUsed) := by
  obtain ⟨last, hmem, hlast⟩ := h.exists_last (List.cons_ne_nil o ids)
  rw [h.declShouldEmitCode_iff hd hcode, hagree d hd last hmem, ← Bool.not_eq_true,
    h.declUnusedAndInternal_iff hmem, h.agree_linkage last hmem d hd]
  refine and_congr_right fun _ => ?_
  constructor
  · intro hneg
    by_contra hno
    push Not at hno
    refine hneg ⟨fun i hi => (hno.2 i (h.mem_protos hmem hi)).2, fun i hi => ?_, hno.1⟩
    simpa using (hno.2 i hi).1
  · rintro (hext | ⟨i, hi, hused | hmarked⟩) hall
    · exact hall.2.2 hext
    · rw [hall.2.1 i hi] at hused
      cases hused
    · exact hall.1 i (hlast i hi) hmarked

/-- The questions have one answer each exactly where the mark does not come late. -/
theorem queries_agree_iff (h : DeclChain ds ids) (hne : ids ≠ []) :
    QueriesAgree ds ids ↔ MarkedFromTheStart ds ids := by
  obtain ⟨o, rest, rfl⟩ := List.exists_cons_of_ne_nil hne
  have hmarked : (∃ o', (o :: rest).head? = some o' ∧
      (declLinkage ds o' = .external ∨ (ds o').markedUsed)) ↔
      (declLinkage ds o = .external ∨ (ds o).markedUsed) := by
    simp
  constructor
  · intro hq
    exact ⟨(h.agree_declWith_iff _).mp hq.body, (h.agree_declWith_iff fun d => d.dinit.isSome).mp hq.init,
      (or_congr_left hmarked).mpr (h.agree_unusedAndInternal_iff.mp hq.unusedAndInternal)⟩
  · intro hm
    have hunused := h.agree_unusedAndInternal_iff.mpr ((or_congr_left hmarked).mp hm.marked)
    exact ⟨h.agree_linkage, h.agree_align, h.agree_pureInline, hunused,
      (h.agree_declWith_iff _).mpr hm.oneBody, (h.agree_declWith_iff fun d => d.dinit.isSome).mpr hm.oneInit,
      fun d hd hcode => h.emitted_of_agree hunused hd hcode⟩

end Queries

/-! ## A mark that comes late -/

def firstDecl : Fin 2 := 0

def secondDecl : Fin 2 := 1

/-- Two declarations. -/
def twoDecls (first second : Decl 2) : Decls 2
  | 0 => first
  | 1 => second

/-- `static void f(void) { ... }` and `static void f(void);`, with
`__attribute__((used))` on one of them. -/
def twoStatic (first second : List (Attr 2)) : Decls 2 :=
  twoDecls
    ⟨some "f", .storeStatic, false, false, first, [], 1, .func true, some .global, none,
      some secondDecl, false⟩
    ⟨some "f", .storeStatic, false, false, second, [], 1, .func false, some .global,
      some firstDecl, none, false⟩

theorem twoStatic_chain (first second : List (Attr 2)) :
    DeclChain (twoStatic first second) [0, 1] where
  impl := ⟨rfl, rfl, trivial⟩
  proto := ⟨rfl, rfl, trivial⟩
  nodup := by decide
  global := by
    intro i hi
    fin_cases i
    · rfl
    · rfl
  sameKind := by
    intro i hi j hj
    fin_cases i
    · fin_cases j
      · rfl
      · rfl
    · fin_cases j
      · rfl
      · rfl

theorem twoStatic_oneBody (first second : List (Attr 2)) :
    AtMostOne [0, 1] fun i => (twoStatic first second i).code := by
  intro d _ e _ hd he
  fin_cases d
  · fin_cases e
    · rfl
    · cases he
  · cases hd

/-- Marked on the definition, every question has one answer. -/
theorem queries_agree_marked_first : QueriesAgree (twoStatic [.used] []) [0, 1] :=
  (queries_agree_iff (twoStatic_chain [.used] []) (List.cons_ne_nil _ _)).mpr
    ⟨twoStatic_oneBody _ _, by unfold AtMostOne; decide,
      Or.inl ⟨0, rfl, Or.inr (Or.inl List.mem_cons_self)⟩⟩

/-- Marked on the declaration after it, the body is not emitted. -/
theorem marked_later_not_emitted :
    declUnusedAndInternal (twoStatic [] [.used]) 0 = true ∧
      declUnusedAndInternal (twoStatic [] [.used]) 1 = false ∧
      declShouldEmitCode (twoStatic [] [.used]) 0 = false ∧
      ¬ QueriesAgree (twoStatic [] [.used]) [0, 1] := by
  refine ⟨by decide, by decide, by decide, fun hq => ?_⟩
  have hsame := hq.unusedAndInternal 0 (by decide) 1 (by decide)
  revert hsame
  decide

end Ucc.Cc1.Chain
