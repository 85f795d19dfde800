/-
  Cc1/Dwarf.lean --- debugging information: the tree of DIEs, the pass that
  gives each its location, and the pass that writes it.

  Source: dwarf_attr, dwarf_offset_die, dwarf_flush and out_dbg_end in
  src/cc1/out/dbg.c, and src/cc1/out/leb.c.

  A C string is the list of the bytes before its terminator.  A DIE is named by
  its address, `ptr`; what the first pass writes into the DIEs is a table from
  addresses.  Counters of bytes and of DIEs are natural numbers, and the values
  of attributes are 64 bits wide.
-/
import Mathlib.Tactic
import Ucc.Util.Escape

set_option autoImplicit false

namespace Ucc.Cc1.Dwarf

open Ucc.Util

/-! ## LEB128 -/

/-- The test that ends the signed loops, on the value before its shift. -/
def lebDone (sv : BitVec 64) : Bool :=
  (sv.sshiftRight 7 == 0 && !sv.getLsbD 6) || (sv.sshiftRight 7 == -1 && sv.getLsbD 6)

theorem natAbs_sshiftRight_lt {sv : BitVec 64} (h : ¬ lebDone sv = true) :
    (sv.sshiftRight 7).toInt.natAbs < sv.toInt.natAbs := by
  have hshift : (sv.sshiftRight 7).toInt = sv.toInt / 128 := by
    rw [BitVec.toInt_sshiftRight, Int.shiftRight_eq_div_pow]
    rfl
  have hzero : sv.toInt ≠ 0 := by
    intro h0
    have : sv = 0 := BitVec.eq_of_toInt_eq (by rw [h0]; rfl)
    rw [this] at h
    exact h (by decide)
  have hone : sv.toInt ≠ -1 := by
    intro h1
    have : sv = -1 := BitVec.eq_of_toInt_eq (by rw [h1]; rfl)
    rw [this] at h
    exact h (by decide)
  rw [hshift]
  omega

theorem ushiftRight_lt {v : BitVec 64} (h : ¬ v >>> 7 = 0) : (v >>> 7).toNat < v.toNat := by
  have hshift : (v >>> 7).toNat = v.toNat / 128 := by
    rw [BitVec.toNat_ushiftRight, Nat.shiftRight_eq_div_pow]
  have hne : (v >>> 7).toNat ≠ 0 := by
    intro h0
    exact h (BitVec.eq_of_toNat_eq (by rw [h0]; rfl))
  rw [hshift] at hne ⊢
  omega

/-- The signed loop of `leb128_length`. -/
def lebLengthSigned (sv : BitVec 64) (len : Nat) : Nat :=
  if lebDone sv then len else lebLengthSigned (sv.sshiftRight 7) (len + 1)
termination_by sv.toInt.natAbs
decreasing_by exact natAbs_sshiftRight_lt ‹_›

/-- The unsigned loop of `leb128_length`. -/
def lebLengthUnsigned (value : BitVec 64) (len : Nat) : Nat :=
  if value >>> 7 = 0 then len else lebLengthUnsigned (value >>> 7) (len + 1)
termination_by value.toNat
decreasing_by exact ushiftRight_lt ‹_›

/-- `leb128_length` -/
def leb128Length (value : BitVec 64) (isSigned : Bool) : Nat :=
  if isSigned then lebLengthSigned value 1 else lebLengthUnsigned value 1

/-- `v & 0x7f` -/
def lebByte (v : BitVec 64) : UInt8 := (UInt8.ofNat v.toNat) &&& 0x7f

/-- The signed loop of `leb128_out`: the bytes it prints, and `len`. -/
def lebOutSigned (sv : BitVec 64) (len : Nat) : List UInt8 × Nat :=
  if lebDone sv then ([lebByte sv], len)
  else
    let (bytes, n) := lebOutSigned (sv.sshiftRight 7) (len + 1)
    ((lebByte sv ||| 0x80) :: bytes, n)
termination_by sv.toInt.natAbs
decreasing_by exact natAbs_sshiftRight_lt ‹_›

/-- The unsigned loop of `leb128_out`. -/
def lebOutUnsigned (v : BitVec 64) (len : Nat) : List UInt8 × Nat :=
  if v >>> 7 = 0 then ([lebByte v], len)
  else
    let (bytes, n) := lebOutUnsigned (v >>> 7) (len + 1)
    ((lebByte v ||| 0x80) :: bytes, n)
termination_by v.toNat
decreasing_by exact ushiftRight_lt ‹_›

/-- `leb128_out`: the bytes it prints, and the length it returns. -/
def leb128Out (v : BitVec 64) (sig : Bool) : List UInt8 × Nat :=
  if sig then lebOutSigned v 1 else lebOutUnsigned v 1

/-! ## DIEs -/

/-- `enum dwarf_tag` -/
inductive DwarfTag where
  | compileUnit | subprogram | baseType | typedef | pointerType | arrayType | subrangeType
  | constType | volatileType | restrictType | subroutineType | enumerationType | enumerator
  | structureType | unionType | variable | formalParameter | unspecifiedParameters | member
  | lexicalBlock | inlinedSubroutine
  deriving DecidableEq, Repr

def DwarfTag.value : DwarfTag → Nat
  | .compileUnit => 0x11 | .subprogram => 0x2e | .baseType => 0x24 | .typedef => 0x16
  | .pointerType => 0xf | .arrayType => 0x1 | .subrangeType => 0x21 | .constType => 0x26
  | .volatileType => 0x35 | .restrictType => 0x37 | .subroutineType => 0x15
  | .enumerationType => 0x4 | .enumerator => 0x28 | .structureType => 0x13 | .unionType => 0x17
  | .variable => 0x34 | .formalParameter => 0x5 | .unspecifiedParameters => 0x18
  | .member => 0xd | .lexicalBlock => 0x0b | .inlinedSubroutine => 0x1d

/-- `enum dwarf_attribute` -/
inductive DwarfAttribute where
  | dataMemberLocation | external | byteSize | encoding | bitOffset | bitSize | declFile
  | declLine | stmtList | name | language | lowPc | highPc | producer | compDir | type | sibling
  | lowerBound | upperBound | prototyped | location | constValue | accessibility | specification
  | inline | abstractOrigin | callFile | callLine
  deriving DecidableEq, Repr

def DwarfAttribute.value : DwarfAttribute → Nat
  | .dataMemberLocation => 0x38 | .external => 0x3f | .byteSize => 0xb | .encoding => 0x3e
  | .bitOffset => 0xc | .bitSize => 0xd | .declFile => 0x3a | .declLine => 0x3b
  | .stmtList => 0x10 | .name => 0x3 | .language => 0x13 | .lowPc => 0x11 | .highPc => 0x12
  | .producer => 0x25 | .compDir => 0x1b | .type => 0x49 | .sibling => 0x1
  | .lowerBound => 0x22 | .upperBound => 0x2f | .prototyped => 0x27 | .location => 0x2
  | .constValue => 0x1c | .accessibility => 0x32 | .specification => 0x2b0 | .inline => 0x20
  | .abstractOrigin => 0x31 | .callFile => 0x58 | .callLine => 0x59

/-- `struct out_dbg_lbl` -/
structure DbgLbl where
  lbl : List UInt8
  emitted : Bool
  deriving DecidableEq, Repr

/-- `struct dwarf_block_ent` -/
inductive BlockEnt where
  | header (v : BitVec 64)
  | leb128S (v : BitVec 64)
  | leb128U (v : BitVec 64)
  | addrStr (str : List UInt8)
  deriving DecidableEq, Repr

/-- `enum dwarf_attr_encoding`, with the member of `bits` that goes with it. -/
inductive Form where
  | addr (str : Option (List UInt8))
  | addrLbl (lbl : DbgLbl)
  | data1 (value : BitVec 64)
  | data2 (value : BitVec 64)
  | data4 (value : BitVec 64)
  | data8 (value : BitVec 64)
  | uleb (value : BitVec 64)
  | addr4 (str : Option (List UInt8))
  | string (str : List UInt8)
  | ref4 (dieXref : Nat)
  | flag (value : BitVec 64)
  | block1 (blk : List BlockEnt)
  deriving DecidableEq, Repr

/-- The value of a form in the abbreviations, after the filter for the synthetic
ones. -/
def Form.value : Form → Nat
  | .addr _ => 0x1 | .addrLbl _ => 0x1 | .data1 _ => 0xb | .data2 _ => 0x5 | .data4 _ => 0x6
  | .data8 _ => 0x7 | .uleb _ => 0x2 | .addr4 _ => 0x6 | .string _ => 0x8 | .ref4 _ => 0x13
  | .flag _ => 0xc | .block1 _ => 0xa

/-- What `dwarf_attr` stores for a form and its data; `none` where it reaches
`ucc_unreach`. -/
def dwarfAttr : Form → Option Form
  | .uleb value =>
      let len := leb128Length value false
      if len ≤ 1 then some (.data1 value)
      else if len ≤ 2 then some (.data2 value)
      else if len ≤ 4 then some (.data4 value)
      else if len ≤ 8 then some (.data8 value)
      else none
  | .string s => some (.string (strAddEscape s))
  | form => some form

/-- `struct DIE_attr`, with the data that it was made from. -/
structure DIEAttr where
  attr : DwarfAttribute
  data : Form
  form : Form
  made : dwarfAttr data = some form

/-- `struct DIE`.  The array of children is null exactly when it is empty. -/
inductive DIE where
  | mk (ptr : Nat) (tag : DwarfTag) (attrs : List DIEAttr) (children : List DIE)

def DIE.ptr : DIE → Nat
  | mk ptr _ _ _ => ptr

def DIE.tag : DIE → DwarfTag
  | mk _ tag _ _ => tag

def DIE.attrs : DIE → List DIEAttr
  | mk _ _ attrs _ => attrs

def DIE.children : DIE → List DIE
  | mk _ _ _ children => children

/-! ## Locations -/

/-- `enum flush_type` -/
inductive FlushType where
  | byte | word | long | quad
  deriving DecidableEq, Repr

def FlushType.size : FlushType → Nat
  | .byte => 1
  | .word => 2
  | .long => 4
  | .quad => 8

/-- What `dwarf_offset_die` adds for an entry of a block. -/
def BlockEnt.offset : BlockEnt → Nat
  | .header _ => 1
  | .leb128S v => leb128Length v true
  | .leb128U v => leb128Length v false
  | .addrStr _ => FlushType.quad.size

/-- What `dwarf_offset_die` adds for an attribute. -/
def Form.offset : Form → Nat
  | .addrLbl lbl => if lbl.emitted then FlushType.quad.size else 0
  | .addr _ => FlushType.quad.size
  | .addr4 _ => FlushType.long.size
  | .data1 _ => FlushType.byte.size
  | .data2 _ => FlushType.word.size
  | .data4 _ => FlushType.long.size
  | .data8 _ => FlushType.quad.size
  | .uleb value => leb128Length value false
  | .string str => str.length + 1
  | .ref4 _ => FlushType.long.size
  | .flag _ => 1
  | .block1 blk => 1 + (blk.map BlockEnt.offset).sum

/-- The fields `locn` and `abbrev_code` of every DIE, and the counter of codes. -/
structure Offsets where
  locn : Nat → Nat
  abbrevCode : Nat → Nat
  codes : Nat

/-- Before the first pass. -/
def Offsets.unset : Offsets := ⟨fun _ => 0, fun _ => 0, 0⟩

/-- The DIE's own location and code. -/
def Offsets.place (s : Offsets) (ptr off : Nat) : Offsets :=
  { locn := Function.update s.locn ptr off
    abbrevCode := Function.update s.abbrevCode ptr (s.codes + 1)
    codes := s.codes + 1 }

/-- The bytes of a DIE before its children. -/
def ownOffset (code : Nat) (attrs : List DIEAttr) : Nat :=
  leb128Length (BitVec.ofNat 64 code) false + (attrs.map fun a => a.form.offset).sum

mutual

/-- `dwarf_offset_die`; `none` where its assertion fails. -/
def dwarfOffsetDie : DIE → Offsets × Nat → Option (Offsets × Nat)
  | .mk ptr _ attrs children, (s, off) =>
      if s.locn ptr ≠ 0 then none
      else
        let s := s.place ptr off
        let off := off + ownOffset s.codes attrs
        if children.isEmpty then some (s, off)
        else (dwarfOffsetChildren children (s, off)).map fun (s, off) => (s, off + 1)

/-- Its loop over the children. -/
def dwarfOffsetChildren : List DIE → Offsets × Nat → Option (Offsets × Nat)
  | [], p => some p
  | d :: ds, p => (dwarfOffsetDie d p).bind (dwarfOffsetChildren ds)

end

/-! ## Writing -/

/-- What a directive is given. -/
inductive Operand where
  | num (v : Int)
  | sym (s : List UInt8)
  /-- the bytes of the section after its first four -/
  | infoLength
  /-- the start of the abbreviations, or 0 -/
  | abbrevOffset
  deriving DecidableEq, Repr

/-- A directive in a section of the output. -/
inductive Directive where
  /-- `.byte`, `.word`, `.long` or `.quad` -/
  | data (sz : FlushType) (operand : Operand)
  /-- `.byte` with the bytes of a LEB128, and the code that its comment names where
  a DIE starts -/
  | leb (bytes : List UInt8) (abbrevCode : Option Nat)
  /-- `.ascii` -/
  | ascii (text : List UInt8)
  deriving DecidableEq, Repr

/-- `struct DIE_flush_file` -/
structure DIEFlushFile where
  out : List Directive
  byteCnt : Nat
  deriving DecidableEq, Repr

/-- `struct DIE_flush` -/
structure DIEFlush where
  abbrevs : DIEFlushFile
  info : DIEFlushFile
  deriving DecidableEq, Repr

/-- `asm_out_section`, of one directive. -/
def DIEFlushFile.print (f : DIEFlushFile) (d : Directive) (cnt : Nat) : DIEFlushFile :=
  ⟨f.out ++ [d], f.byteCnt + cnt⟩

/-- `dwarf_printf` -/
def dwarfPrintf (f : DIEFlushFile) (sz : FlushType) (operand : Operand) : DIEFlushFile :=
  f.print (.data sz operand) sz.size

/-- `dwarf_leb_printf` -/
def dwarfLebPrintf (f : DIEFlushFile) (uleb : BitVec 64) (isSig : Bool)
    (abbrevCode : Option Nat) : DIEFlushFile :=
  let (bytes, n) := leb128Out uleb isSig
  f.print (.leb bytes abbrevCode) n

/-- `dwarf_flush_die_block` -/
def dwarfFlushDieBlock (f : DIEFlushFile) : BlockEnt → DIEFlushFile
  | .header v => dwarfPrintf f .byte (.num v.toInt)
  | .leb128S v => dwarfLebPrintf f v true none
  | .leb128U v => dwarfLebPrintf f v false none
  | .addrStr str => dwarfPrintf f .quad (.sym str)

/-- `enum arch` -/
inductive Arch where
  | i386 | x86_64
  deriving DecidableEq, Repr

/-- `platform_word_size` -/
def platformWordSize : Arch → Nat
  | .i386 => 4
  | .x86_64 => 8

/-- What an entry adds to the count that a block starts with. -/
def BlockEnt.len (arch : Arch) : BlockEnt → Nat
  | .header _ => 1
  | .leb128S v => leb128Length v true
  | .leb128U v => leb128Length v false
  | .addrStr _ => platformWordSize arch

/-- The digit 0, for an address that is null. -/
def strOrZero (str : Option (List UInt8)) : List UInt8 := str.getD [ascii '0']

/-- The attribute in `.debug_info`, in the DIE at `self`; `none` where an assertion
fails. -/
def flushForm (arch : Arch) (s : Offsets) (self : Nat) (f : DIEFlushFile) :
    Form → Option DIEFlushFile
  | .data1 value => some (dwarfPrintf f .byte (.num value.toInt))
  | .data2 value => some (dwarfPrintf f .word (.num value.toInt))
  | .data4 value => some (dwarfPrintf f .long (.num value.toInt))
  | .data8 value => some (dwarfPrintf f .quad (.num value.toInt))
  | .uleb value => some (dwarfLebPrintf f value false none)
  | .addr4 str => some (dwarfPrintf f .long (.sym (strOrZero str)))
  | .addr str => some (dwarfPrintf f .quad (.sym (strOrZero str)))
  | .addrLbl lbl => if lbl.emitted then some (dwarfPrintf f .quad (.sym lbl.lbl)) else none
  | .string str => some (dwarfPrintf (f.print (.ascii str) str.length) .byte (.num 0))
  | .ref4 dieXref =>
      if s.locn dieXref = 0 then none
      else if s.locn dieXref = s.locn self then none
      else some (dwarfPrintf f .long (.num (s.locn dieXref)))
  | .flag value => some (dwarfPrintf f .byte (.num (value.setWidth 32).toInt))
  | .block1 blk =>
      let len := (blk.map (BlockEnt.len arch)).sum
      if len = 0 then none
      else some (blk.foldl dwarfFlushDieBlock (dwarfPrintf f .byte (.num len)))

/-- The body of the loop of `dwarf_flush_die_1` over the attributes. -/
def flushAttr (arch : Arch) (s : Offsets) (self : Nat) (state : DIEFlush) (a : DIEAttr) :
    Option DIEFlush :=
  let filtered := match a.form with
    | .addrLbl lbl => !lbl.emitted
    | _ => false
  if filtered then some state
  else
    let abbrevs := dwarfPrintf state.abbrevs .byte (.num a.attr.value)
    let abbrevs := dwarfPrintf abbrevs .byte (.num a.form.value)
    (flushForm arch s self state.info a.form).map fun info => ⟨abbrevs, info⟩

/-- `dwarf_flush_die_1` -/
def dwarfFlushDie1 (arch : Arch) (s : Offsets) (die : DIE) (state : DIEFlush) :
    Option DIEFlush :=
  if s.locn die.ptr ≠ state.info.byteCnt then none
  else
    let code := s.abbrevCode die.ptr
    let abbrevs := dwarfLebPrintf state.abbrevs (BitVec.ofNat 64 code) false (some code)
    let info := dwarfLebPrintf state.info (BitVec.ofNat 64 code) false (some code)
    let abbrevs := dwarfPrintf abbrevs .byte (.num die.tag.value)
    let abbrevs := dwarfPrintf abbrevs .byte (.num (if die.children.isEmpty then 0 else 1))
    (die.attrs.foldlM (flushAttr arch s die.ptr) ⟨abbrevs, info⟩).map fun state =>
      { state with abbrevs := state.abbrevs.print (.leb [0, 0] none) 2 }

/-- The mark after the children of a DIE. -/
def endOfChildren (state : DIEFlush) : DIEFlush :=
  { state with info := dwarfPrintf state.info .byte (.num 0) }

mutual

/-- `dwarf_flush_die` -/
def dwarfFlushDie (arch : Arch) (s : Offsets) : DIE → DIEFlush → Option DIEFlush
  | .mk ptr tag attrs children, state =>
      (dwarfFlushDie1 arch s (.mk ptr tag attrs children) state).bind fun state =>
        if children.isEmpty then some state
        else (dwarfFlushDieChildren arch s children state).map endOfChildren

/-- The loop of `dwarf_flush_die_children`. -/
def dwarfFlushDieChildren (arch : Arch) (s : Offsets) : List DIE → DIEFlush → Option DIEFlush
  | [], state => some state
  | d :: ds, state => (dwarfFlushDie arch s d state).bind (dwarfFlushDieChildren arch s ds)

end

/-- `dwarf_info_header`: what it writes, and the offset it returns. -/
def dwarfInfoHeader (arch : Arch) : List Directive × Nat :=
  ([.data .long .infoLength, .data .word (.num 2), .data .long .abbrevOffset,
    .data .byte (.num (platformWordSize arch))], 4 + 2 + 4 + 1)

/-- The two passes of `out_dbg_end` and the tables and sections they leave. -/
def outDbgEnd (arch : Arch) (die : DIE) : Option (Offsets × DIEFlush) :=
  let (header, infoOffset) := dwarfInfoHeader arch
  (dwarfOffsetDie die (.unset, infoOffset)).bind fun (s, _) =>
    (dwarfFlushDie arch s die ⟨⟨[], 0⟩, ⟨header, infoOffset⟩⟩).map fun state =>
      (s, { state with
        abbrevs := state.abbrevs.print (.data .byte (.num 0)) 0 })

/-! ## Assembling -/

/-- The characters for which an escape of the assembler is not the character
itself. -/
def asEscapes : List (Char × UInt8) := [('b', 8), ('f', 12), ('n', 10), ('r', 13), ('t', 9)]

/-- The byte that digits write. -/
def digitsValue (base : UInt8) (digits : List UInt8) : UInt8 :=
  digits.foldl (fun n d => n * base + (digitValue d).toUInt8) 0

/-- The contents of a string as the assembler reads it: up to three octal digits
are one byte, so are the hexadecimal digits after an x, and any other escape. -/
def asUnescape : List UInt8 → List UInt8
  | [] => []
  | c :: s =>
      if c == ascii '\\' then
        match s with
        | [] => []
        | e :: s =>
            if isodigit e then
              let digits := e :: (s.take 2).takeWhile isodigit
              digitsValue 8 digits :: asUnescape (s.drop (digits.length - 1))
            else if e == ascii 'x' then
              let digits := s.takeWhile isxdigit
              digitsValue 16 digits :: asUnescape (s.drop digits.length)
            else ((asEscapes.find? fun p => ascii p.1 == e).elim e Prod.snd) :: asUnescape s
      else c :: asUnescape s
termination_by s => s.length
decreasing_by all_goals simp only [List.length_cons, List.length_drop]; omega

/-- The bytes that the assembler places for a directive. -/
def Directive.assembled : Directive → Nat
  | .data sz _ => sz.size
  | .leb bytes _ => bytes.length
  | .ascii text => (asUnescape text).length

/-- Whether the directive starts the DIE with this code. -/
def Directive.starts (code : Nat) : Directive → Bool
  | .leb _ (some c) => c == code
  | _ => false

/-- The bytes placed in a section before the DIE with this code; `none` where it is
not there. -/
def startOf (code : Nat) : List Directive → Option Nat
  | [] => none
  | d :: ds => if d.starts code then some 0 else (startOf code ds).map (d.assembled + ·)

end Ucc.Cc1.Dwarf
