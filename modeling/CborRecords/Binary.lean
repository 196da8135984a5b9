/-!
# Binary floating-point numbers

* `Format` : how many bits hold the exponent and the fraction (`Format.half`, `Format.single`,
  `Format.double`);
* `Binary` : a number by its exact value, or an infinity, or not a number; `Format.decode` reads it
  off its bits, `Binary.fits` says whether a format holds it exactly;
* `Double` : a number held in 64 bits, `Double.ofBinary` for one that fits, `Double.nearest` for a
  quotient, `Double.mul` and `Double.div` for the rounded operations.
-/

namespace CborRecords

/-- A binary interchange format: the bits of the exponent and of the fraction. -/
structure Format where
  exponentBits : Nat
  fractionBits : Nat
  deriving DecidableEq, Repr

namespace Format

/-- The formats of two, four and eight bytes. -/
def half : Format := ⟨5, 10⟩
def single : Format := ⟨8, 23⟩
def double : Format := ⟨11, 52⟩

/-- What is added to an exponent to store it. -/
def bias (f : Format) : Nat :=
  Nat.pow 2 (f.exponentBits - 1) - 1

/-- The exponent of the last place of the smallest numbers. -/
def leastExponent (f : Format) : Int :=
  1 - (f.bias : Int) - f.fractionBits

end Format

/-- The size of a number: `significand * 2 ^ exponent`, or infinite, or no number at all. -/
inductive Magnitude
  | finite (significand : Nat) (exponent : Int)
  | infinite
  | notANumber
  deriving DecidableEq, Repr

/-- A number with its sign. -/
structure Binary where
  negative : Bool
  magnitude : Magnitude
  deriving DecidableEq, Repr

/-- The number that the bits stand for, by the one rule that all formats have. -/
def Format.decode (f : Format) (bits : Nat) : Binary :=
  let fraction := bits % Nat.pow 2 f.fractionBits
  let exponent := bits / Nat.pow 2 f.fractionBits % Nat.pow 2 f.exponentBits
  let negative := bits / Nat.pow 2 (f.fractionBits + f.exponentBits) % 2 = 1
  let magnitude :=
    if exponent = Nat.pow 2 f.exponentBits - 1 then
      if fraction = 0 then .infinite else .notANumber
    else if exponent = 0 then .finite fraction f.leastExponent
    else .finite (Nat.pow 2 f.fractionBits + fraction) (f.leastExponent + (exponent - 1 : Nat))
  ⟨negative, magnitude⟩

/-- Moves factors of two from the significand to the exponent. -/
def stripTwos (significand : Nat) (exponent : Int) : Nat × Int :=
  if h : significand ≠ 0 ∧ significand % 2 = 0 then
    stripTwos (significand / 2) (exponent + 1)
  else (significand, exponent)
termination_by significand
decreasing_by omega

namespace Binary

/-- The format holds the number exactly. Only a number can be held. -/
def fits (f : Format) (x : Binary) : Bool :=
  match x.magnitude with
  | .notANumber => false
  | .infinite => true
  | .finite significand exponent =>
    let (odd, low) := stripTwos significand exponent
    odd = 0 || (odd < Nat.pow 2 (f.fractionBits + 1) && f.leastExponent ≤ low
      && low + odd.log2 ≤ (f.bias : Int))

def isNotANumber (x : Binary) : Bool :=
  x.magnitude = .notANumber

end Binary

/-- A double-precision number, by its bits. -/
structure Double where
  bits : UInt64
  deriving DecidableEq, Repr

namespace Double

/-- The exact value. -/
def value (x : Double) : Binary :=
  Format.double.decode x.bits.toNat

def isNotANumber (x : Double) : Bool :=
  x.value.isNotANumber

/-- The bits of `significand * 2 ^ exponent`, for a significand below `2 ^ 53` and an exponent not
below that of the last place. -/
def finiteBits (significand : Nat) (exponent : Int) : Nat :=
  let shift := (exponent - Format.double.leastExponent).toNat
  let low := significand.log2
  if significand = 0 then 0
  else if low + shift < 52 then significand * Nat.pow 2 shift
  else significand * Nat.pow 2 (52 - low) - Nat.pow 2 52 + (low + shift - 51) * Nat.pow 2 52

/-- The double with this sign and these bits of exponent and fraction. -/
def ofParts (negative : Bool) (bits : Nat) : Double :=
  ⟨UInt64.ofNat ((if negative then Nat.pow 2 63 else 0) + bits)⟩

/-- The double equal to a number that a double holds exactly. Of a NaN only the sign is kept: a
payload is dropped, since no `Binary` has one. -/
def ofBinary (x : Binary) : Double :=
  ofParts x.negative <|
    match x.magnitude with
    | .notANumber => 0x7FF8000000000000
    | .infinite => 0x7FF0000000000000
    | .finite significand exponent => finiteBits significand exponent

/-- The power of two not above `num / den`, for positive numbers. -/
def topExponent (num den : Nat) : Int :=
  let guess : Int := (num.log2 : Int) - den.log2
  let holds :=
    if 0 ≤ guess then den * Nat.pow 2 guess.toNat ≤ num else den ≤ num * Nat.pow 2 (-guess).toNat
  if holds then guess else guess - 1

/-- The double nearest to `num / den`, the even one of two; infinite past the largest. -/
def nearest (negative : Bool) (num den : Nat) : Double :=
  if num = 0 then ofParts negative 0
  else
    let exponent := max (topExponent num den - 52) Format.double.leastExponent
    let num := if exponent < 0 then num * Nat.pow 2 (-exponent).toNat else num
    let den := if exponent < 0 then den else den * Nat.pow 2 exponent.toNat
    let quotient := num / den
    let twice := 2 * (num % den)
    let up := den < twice || (twice = den && quotient % 2 = 1)
    let rounded := if up then quotient + 1 else quotient
    if (1024 : Int) ≤ exponent + rounded.log2 then ofBinary ⟨negative, .infinite⟩
    else if rounded = Nat.pow 2 53 then ofParts negative (finiteBits (Nat.pow 2 52) (exponent + 1))
    else ofParts negative (finiteBits rounded exponent)

def isInfinite (x : Double) : Bool :=
  x.value.magnitude = .infinite

/-- A power of two as a quotient. -/
def powerOfTwo (exponent : Int) : Nat × Nat :=
  if exponent < 0 then (1, Nat.pow 2 (-exponent).toNat) else (Nat.pow 2 exponent.toNat, 1)

/-- The magnitude of a finite double as a quotient. -/
def ratio (x : Double) : Nat × Nat :=
  match x.value.magnitude with
  | .finite significand exponent =>
    let (num, den) := powerOfTwo exponent
    (significand * num, den)
  | _ => (0, 1)

/-- The product of two finite magnitudes, rounded once. -/
def mul (x y : Double) : Double :=
  nearest false (x.ratio.1 * y.ratio.1) (x.ratio.2 * y.ratio.2)

/-- The quotient of two finite magnitudes, rounded once. -/
def div (x y : Double) : Double :=
  nearest false (x.ratio.1 * y.ratio.2) (x.ratio.2 * y.ratio.1)

end Double

end CborRecords
