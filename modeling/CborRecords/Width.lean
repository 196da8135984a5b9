/-!
# Widths of integers

* `Width` : one, two, four or eight bytes, with the limits of the integers that fit;
* `IntType` : an integer type, a width with or without a sign.
-/

namespace CborRecords

/-- The number of bytes of an integer. -/
inductive Width
  | w8
  | w16
  | w32
  | w64
  deriving DecidableEq, Repr

namespace Width

/-- The number of bytes of a width. -/
def bytes : Width → Nat
  | .w8 => 1
  | .w16 => 2
  | .w32 => 4
  | .w64 => 8

/-- The largest integer without a sign. -/
def maxUnsigned : Width → Nat
  | .w8 => 0xFF
  | .w16 => 0xFFFF
  | .w32 => 0xFFFFFFFF
  | .w64 => 0xFFFFFFFFFFFFFFFF

/-- The largest integer with a sign. -/
def maxSigned : Width → Int
  | .w8 => 0x7F
  | .w16 => 0x7FFF
  | .w32 => 0x7FFFFFFF
  | .w64 => 0x7FFFFFFFFFFFFFFF

/-- The least integer with a sign. -/
def minSigned (w : Width) : Int :=
  -w.maxSigned - 1

end Width

/-- An integer type. -/
structure IntType where
  signed : Bool
  width : Width
  deriving DecidableEq, Repr

namespace IntType

/-- The least value of the type. -/
def min (t : IntType) : Int :=
  if t.signed then t.width.minSigned else 0

/-- The largest value of the type. -/
def max (t : IntType) : Int :=
  if t.signed then t.width.maxSigned else t.width.maxUnsigned

/-- The integer is a value of the type. -/
def contains (t : IntType) (n : Int) : Bool :=
  t.min ≤ n && n ≤ t.max

end IntType

end CborRecords
