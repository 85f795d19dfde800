/-
  Lib/Leb.lean --- LEB128 numbers.

  A number is written in base 128 with the low digits first, and the top bit of a
  byte says that another one follows.  The last byte of a signed number is read as
  seven bits in two's complement.
-/
import Mathlib.Tactic

set_option autoImplicit false

namespace Ucc.Lib

/-! ## The decoders -/

/-- The unsigned number that the bytes start with, and the bytes behind it. -/
def decodeUleb : List UInt8 → Option (Nat × List UInt8)
  | [] => none
  | b :: bs =>
      if b.toNat < 128 then some (b.toNat, bs)
      else (decodeUleb bs).map fun r => (b.toNat - 128 + 128 * r.1, r.2)

/-- The signed number that the bytes start with, and the bytes behind it. -/
def decodeSleb : List UInt8 → Option (Int × List UInt8)
  | [] => none
  | b :: bs =>
      if b.toNat < 64 then some (b.toNat, bs)
      else if b.toNat < 128 then some (b.toNat - 128, bs)
      else (decodeSleb bs).map fun r => (b.toNat - 128 + 128 * r.1, r.2)

/-! ## One byte -/

section
variable {b : UInt8} {bs rest : List UInt8}

theorem decodeUleb_last (h : b.toNat < 128) : decodeUleb (b :: bs) = some (b.toNat, bs) := by
  rw [decodeUleb, if_pos h]

theorem decodeUleb_more {d n : Nat} (hb : b.toNat = d + 128) (hn : decodeUleb bs = some (n, rest)) :
    decodeUleb (b :: bs) = some (d + 128 * n, rest) := by
  rw [decodeUleb, if_neg (by omega), hn, hb]
  simp

theorem decodeSleb_last {z : Int} (hb : (b.toNat : Int) = z % 128) (hlo : -64 ≤ z) (hhi : z < 64) :
    decodeSleb (b :: bs) = some (z, bs) := by
  rw [decodeSleb]
  by_cases hneg : z < 0
  · rw [if_neg (by omega), if_pos (by omega)]
    congr 2
    omega
  · rw [if_pos (by omega)]
    congr 2
    omega

theorem decodeSleb_more {d : Nat} {z : Int} (hb : b.toNat = d + 128)
    (hz : decodeSleb bs = some (z, rest)) :
    decodeSleb (b :: bs) = some (d + 128 * z, rest) := by
  rw [decodeSleb, if_neg (by omega), if_neg (by omega), hz, hb]
  simp

end

end Ucc.Lib
