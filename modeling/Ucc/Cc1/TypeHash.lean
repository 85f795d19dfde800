/-
  Cc1/TypeHash.lean --- the hash of a type, and its equality.

  Source: type_eq_nontdef, sue_hash, type_hash2 and type_hash_skip_nontdefs_consts
  in src/cc1/type.c; type_skip_non_tdefs_consts in src/cc1/type_is.c;
  dynmap_strhash in src/util/dynmap.c.

  The hash looks at the first node of a type that is no attribute and no location.
  Behind a pointer, a qualifier or an array it reads nothing, but it does read what
  the comparison does not: what a pointer decayed from, the type of an array's size
  expression, the type that a typedef stands for where the other has none.
-/
import Ucc.Cc1.TypeAgree

set_option autoImplicit false

namespace Ucc.Cc1

/-! ## Types -/

/-- `struct type`, with what the hash reads of it.  A typedef has its declaration and
what that refers to, if it is none of `typeof`, and the type of its expression; an
array has its size expression and the type of that. -/
inductive HashTy where
  | btype (b : BType)
  | tdef (decl : Option (Nat × HashTy)) (attrs : List AttributeType) (typeOf : HashTy)
  | ptr (decayedFrom : Option HashTy) (ref : HashTy)
  | block (ref : HashTy)
  | func (args : Nat) (argsVoid variadic : Bool) (arglist : List HashTy) (ref : HashTy)
  | array (size : Option (SizeExpr × HashTy)) (isStatic : Bool) (vlaKind : VlaKind)
      (ref : HashTy)
  | cast (qual : TypeQual) (ref : HashTy)
  | attr (attrs : List AttributeType) (ref : HashTy)
  | whereAt (ref : HashTy)

namespace HashTy

mutual

/-- What the comparison sees: `type_next_1` goes on from a typedef with its
declaration. -/
def toTy : HashTy → Ty
  | .btype b => .btype b
  | .tdef none attrs typeOf => .tdef none attrs typeOf.toTy
  | .tdef (some (decl, ref)) attrs _ => .tdef (some decl) attrs ref.toTy
  | .ptr _ ref => .ptr ref.toTy
  | .block ref => .block ref.toTy
  | .func args argsVoid variadic arglist ref =>
      .func args argsVoid variadic (toTys arglist) ref.toTy
  | .array size _ vlaKind ref => .array (size.map Prod.fst) vlaKind ref.toTy
  | .cast qual ref => .cast qual ref.toTy
  | .attr attrs ref => .attr attrs ref.toTy
  | .whereAt ref => .whereAt ref.toTy
termination_by structural t => t

def toTys : List HashTy → List Ty
  | [] => []
  | t :: ts => t.toTy :: toTys ts
termination_by structural ts => ts

end

/-- `type_skip_non_tdefs_consts` -/
def skip : HashTy → HashTy
  | .attr _ ref => ref.skip
  | .whereAt ref => ref.skip
  | t => t

end HashTy

/-- `type_eq_nontdef`: the types are equal, and no typedef stands in for one of
them. -/
def typeEqNontdef (E : TypeEnv) (a b : HashTy) : Option Bool :=
  (typeCmp E false a.toTy b.toTy).map fun cmp => cmp = .equal

/-! ## The hash -/

/-- The value of a primitive. -/
def TypePrimitive.code : TypePrimitive → UInt32
  | .void => 0
  | .bool => 1
  | .nchar => 2
  | .schar => 3
  | .uchar => 4
  | .int => 5
  | .uint => 6
  | .short => 7
  | .ushort => 8
  | .long => 9
  | .ulong => 10
  | .llong => 11
  | .ullong => 12
  | .float => 13
  | .double => 14
  | .ldouble => 15

def SuePrim.code : SuePrim → UInt32
  | .struct => 16
  | .union => 17
  | .enum => 18

/-- `btype.primitive` -/
def BType.code : BType → UInt32
  | .prim p _ => p.code
  | .sue s => s.primitive.code

/-- The value of the qualifiers. -/
def TypeQual.code (q : TypeQual) : UInt32 :=
  (if q.const then 1 else 0) ||| (if q.volatile then 2 else 0) ||| (if q.restrict then 4 else 0)

def VlaKind.code : VlaKind → UInt32
  | .no => 0
  | .vla => 1
  | .star => 2

/-- `dynmap_strhash`: a `char` has a sign. -/
def dynmapStrhash (s : List UInt8) : UInt32 :=
  s.foldl (fun hash c =>
    ((hash <<< 5) + hash) + (if c < 128 then c.toUInt32 else c.toUInt32 - 256)) 5381

section Hash

-- the name of each struct, union and enum
variable (spel : SueRef → List UInt8)

/-- `sue_hash` -/
def sueHash : Option SueRef → UInt32
  | none => 5
  | some s => s.primitive.code ^^^ dynmapStrhash (spel s)

namespace HashTy

mutual

/-- `type_hash_skip_nontdefs_consts`: `type_hash2` of what the type skips to. -/
def hash : HashTy → UInt32
  | .btype b => (0 : UInt32) <<< 20 ^^^ ((b.code <<< 1) ^^^ sueHash spel b.sueOf)
  | .tdef _ _ typeOf => (1 : UInt32) <<< 20 ^^^ typeOf.hash ^^^ (1 : UInt32) <<< 3
  | .ptr decayedFrom _ => (2 : UInt32) <<< 20 ^^^ hashFrom decayedFrom
  | .block _ => (3 : UInt32) <<< 20
  | .func _ _ _ arglist _ => hashArgs arglist 0 ((4 : UInt32) <<< 20)
  | .array size isStatic vlaKind _ =>
      (5 : UInt32) <<< 20 ^^^ hashSize size ^^^ (1 : UInt32) <<< (if isStatic then 1 else 0) ^^^
        (1 : UInt32) <<< vlaKind.code
  | .cast qual _ => (7 : UInt32) <<< 20 ^^^ qual.code
  | .attr _ ref => ref.hash
  | .whereAt ref => ref.hash
termination_by structural t => t

/-- What is added for `decayed_from`. -/
def hashFrom : Option HashTy → UInt32
  | none => 0
  | some t => t.hash
termination_by structural t => t

/-- What is added for the size of an array. -/
def hashSize : Option (SizeExpr × HashTy) → UInt32
  | none => 0
  | some (_, t) => t.hash
termination_by structural size => size

/-- The loop over the parameters. -/
def hashArgs : List HashTy → Nat → UInt32 → UInt32
  | [], _, h => h
  | t :: ts, i, h => hashArgs ts (i + 1) (h ^^^ (t.hash <<< UInt32.ofNat (i % 8)))
termination_by structural ts => ts

end

theorem hash_skip : ∀ t : HashTy, t.skip.hash spel = t.hash spel
  | .attr _ ref => hash_skip ref
  | .whereAt ref => hash_skip ref
  | .btype _ => rfl
  | .tdef _ _ _ => rfl
  | .ptr _ _ => rfl
  | .block _ => rfl
  | .func _ _ _ _ _ => rfl
  | .array _ _ _ _ => rfl
  | .cast _ _ => rfl

end HashTy

end Hash

/-! ## What the hash reads -/

namespace HashTy

mutual

/-- What the hash reads of the two types is the same. -/
def SameRead : HashTy → HashTy → Prop
  | .attr _ a, b => a.SameRead b
  | .whereAt a, b => a.SameRead b
  | .btype x, b => match b.skip with
    | .btype y => x.code = y.code ∧ x.sueOf = y.sueOf
    | _ => False
  | .tdef _ _ a, b => match b.skip with
    | .tdef _ _ b => a.SameRead b
    | _ => False
  | .ptr d _, b => match b.skip with
    | .ptr d' _ => SameFrom d d'
    | _ => False
  | .block _, b => match b.skip with
    | .block _ => True
    | _ => False
  | .func _ _ _ as _, b => match b.skip with
    | .func _ _ _ bs _ => SameArgs as bs
    | _ => False
  | .array size isStatic vlaKind _, b => match b.skip with
    | .array size' isStatic' vlaKind' _ =>
        SameSize size size' ∧ isStatic = isStatic' ∧ vlaKind = vlaKind'
    | _ => False
  | .cast qual _, b => match b.skip with
    | .cast qual' _ => qual = qual'
    | _ => False
termination_by structural a => a

/-- Of what two pointers decayed from. -/
def SameFrom : Option HashTy → Option HashTy → Prop
  | none, none => True
  | some a, some b => a.SameRead b
  | _, _ => False
termination_by structural d => d

/-- Of the sizes of two arrays. -/
def SameSize : Option (SizeExpr × HashTy) → Option (SizeExpr × HashTy) → Prop
  | none, none => True
  | some (_, a), some (_, b) => a.SameRead b
  | _, _ => False
termination_by structural size => size

/-- Of two parameter lists. -/
def SameArgs : List HashTy → List HashTy → Prop
  | [], [] => True
  | a :: as, b :: bs => a.SameRead b ∧ SameArgs as bs
  | _, _ => False
termination_by structural as => as

end

variable (spel : SueRef → List UInt8)

mutual

theorem hash_eq_of_sameRead : ∀ {a b : HashTy}, a.SameRead b → a.hash spel = b.hash spel
  | .attr _ a, b, h => hash_eq_of_sameRead (a := a) h
  | .whereAt a, b, h => hash_eq_of_sameRead (a := a) h
  | .btype x, b, h => by
      rw [← hash_skip spel b]
      rw [SameRead] at h
      cases hb : b.skip <;> rw [hb] at h <;> try exact absurd h id
      rw [hash, hash, h.1, h.2]
  | .tdef _ _ t, b, h => by
      rw [← hash_skip spel b]
      rw [SameRead] at h
      cases hb : b.skip <;> rw [hb] at h <;> try exact absurd h id
      rw [hash, hash, hash_eq_of_sameRead h]
  | .ptr d _, b, h => by
      rw [← hash_skip spel b]
      rw [SameRead] at h
      cases hb : b.skip <;> rw [hb] at h <;> try exact absurd h id
      rw [hash, hash, hashFrom_eq_of_sameFrom h]
  | .block _, b, h => by
      rw [← hash_skip spel b]
      rw [SameRead] at h
      cases hb : b.skip <;> rw [hb] at h <;> try exact absurd h id
      rfl
  | .func _ _ _ as _, b, h => by
      rw [← hash_skip spel b]
      rw [SameRead] at h
      cases hb : b.skip <;> rw [hb] at h <;> try exact absurd h id
      rw [hash, hash, hashArgs_eq_of_sameArgs h]
  | .array size isStatic vlaKind _, b, h => by
      rw [← hash_skip spel b]
      rw [SameRead] at h
      cases hb : b.skip <;> rw [hb] at h <;> try exact absurd h id
      rw [hash, hash, hashSize_eq_of_sameSize h.1, h.2.1, h.2.2]
  | .cast qual _, b, h => by
      rw [← hash_skip spel b]
      rw [SameRead] at h
      cases hb : b.skip <;> rw [hb] at h <;> try exact absurd h id
      rw [hash, hash, h]

theorem hashFrom_eq_of_sameFrom : ∀ {d d' : Option HashTy}, SameFrom d d' →
    hashFrom spel d = hashFrom spel d'
  | none, none, _ => rfl
  | some _, some _, h => hash_eq_of_sameRead h
  | none, some _, h => absurd h id
  | some _, none, h => absurd h id

theorem hashSize_eq_of_sameSize : ∀ {size size' : Option (SizeExpr × HashTy)},
    SameSize size size' → hashSize spel size = hashSize spel size'
  | none, none, _ => rfl
  | some (_, _), some (_, _), h => hash_eq_of_sameRead h
  | none, some _, h => absurd h id
  | some _, none, h => absurd h id

theorem hashArgs_eq_of_sameArgs : ∀ {as bs : List HashTy} {i : Nat} {h : UInt32},
    SameArgs as bs → hashArgs spel as i h = hashArgs spel bs i h
  | [], [], _, _, _ => rfl
  | a :: as, b :: bs, _, _, h => by
      rw [hashArgs, hashArgs, hash_eq_of_sameRead h.1, hashArgs_eq_of_sameArgs h.2]
  | [], _ :: _, _, _, h => absurd h id
  | _ :: _, [], _, _, h => absurd h id

end

theorem toTy_skip : ∀ t : HashTy, t.skip.toTy.skipAll = t.toTy.skipAll
  | .attr _ ref => toTy_skip ref
  | .whereAt ref => toTy_skip ref
  | .btype _ => rfl
  | .tdef _ _ _ => rfl
  | .ptr _ _ => rfl
  | .block _ => rfl
  | .func _ _ _ _ _ => rfl
  | .array _ _ _ _ => rfl
  | .cast _ _ => rfl

/-- What the hash reads of the two types is the same, beside the primitive of a base
type: that is settled if the types are equal. -/
def ReadAlike (a b : HashTy) : Prop :=
  match a.skip, b.skip with
  | .btype x, .btype y => x.sueOf = y.sueOf
  | a, b => a.SameRead b

end HashTy

theorem BType.Same.code {x y : BType} (h : x.Same y) (hsue : x.sueOf = y.sueOf) :
    x.code = y.code := by
  cases x <;> cases y <;> simp_all [BType.Same, BType.sueOf, BType.code]

theorem likeTypes_of_eqNontdef {E : TypeEnv} {a b : HashTy}
    (h : typeEqNontdef E a b = some true) : LikeTypes E false a.toTy b.toTy := by
  obtain ⟨cmp, hcmp, hequal⟩ := Option.map_eq_some_iff.mp h
  obtain rfl := of_decide_eq_true hequal
  obtain ⟨c, hc, hconv⟩ := Option.map_eq_some_iff.mp hcmp
  refine ⟨c, hc, ?_⟩
  rw [← coarse_sameParam, ← coarse_voidPtrConversion a.toTy b.toTy, hconv]
  rfl

/-- Equal types of which the hash reads the same have one hash. -/
theorem hash_eq_of_eqNontdef {E : TypeEnv} (spel : SueRef → List UInt8) {a b : HashTy}
    (h : typeEqNontdef E a b = some true) (halike : a.ReadAlike b) :
    a.hash spel = b.hash spel := by
  rw [← HashTy.hash_skip spel a, ← HashTy.hash_skip spel b]
  by_cases hbase : ∃ x y, a.skip = .btype x ∧ b.skip = .btype y
  · obtain ⟨x, y, hx, hy⟩ := hbase
    rw [HashTy.ReadAlike, hx, hy] at halike
    have hax : a.toTy.skipAll = .btype x := by rw [← HashTy.toTy_skip, hx]; rfl
    have hby : b.toTy.skipAll = .btype y := by rw [← HashTy.toTy_skip, hy]; rfl
    have hsame := ((likeTypes_btype hax hby).mp (likeTypes_of_eqNontdef h)).1
    rw [hx, hy, HashTy.hash, HashTy.hash, hsame.code halike, halike]
  · refine HashTy.hash_eq_of_sameRead spel ?_
    unfold HashTy.ReadAlike at halike
    split at halike
    · rename_i x y hx hy
      exact absurd ⟨x, y, hx, hy⟩ hbase
    · exact halike

end Ucc.Cc1
