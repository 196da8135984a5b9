import CborRecords.Binary

/-!
# Decimal text of floating-point numbers

* `Decimal` : digits `d₁ d₂ …` and an exponent, standing for `d₁.d₂… * 10 ^ exponent`;
* `Decimal.shortest` : the fewest digits that round back to a double, the nearest of those;
* `Layout` : where positional notation ends and how an exponent is written; `Layout.write` : the
  text of a finite double;
* `Double.plainText` : the text of any double, positional at any size.
-/

namespace CborRecords

/-- A positive decimal number: its digits, the first one before the point, and its exponent. -/
structure Decimal where
  digits : List Nat
  exponent : Int
  deriving DecidableEq, Repr

namespace Decimal

/-- The decimal digits of a number, first one first. -/
def digitsOf (n : Nat) : List Nat :=
  (Nat.toDigits 10 n).map (fun c => c.toNat - 48)

/-- The exponent of the first digit of `num / den`, for positive numbers. -/
def leadingExponent (num den : Nat) : Int :=
  if den ≤ num then (digitsOf (num / den)).length - 1
  else
    let places := (digitsOf (den / num)).length - 1
    if den ≤ num * Nat.pow 10 places then -places else -(places + 1 : Nat)

/-- The reals that round to a double, scaled to whole numbers: the lower end, the double itself and
the upper end over one denominator, and whether the ends belong to it. -/
structure Interval where
  low : Nat
  value : Nat
  high : Nat
  den : Nat
  closed : Bool

/-- The interval of `significand * 2 ^ exponent`. The gap below a power of two is half as wide. -/
def Interval.of (significand : Nat) (exponent : Int) : Interval :=
  let (num, den) := Double.powerOfTwo (exponent - 2)
  let narrow := significand = Nat.pow 2 52 && Format.double.leastExponent < exponent
  ⟨(4 * significand - if narrow then 1 else 2) * num, 4 * significand * num,
    (4 * significand + 2) * num, den, significand % 2 = 0⟩

/-- The multiple `n * unit` lies in the interval; `unit` is the quotient `num / den`. -/
def Interval.holds (i : Interval) (n num den : Nat) : Bool :=
  let point := n * num * i.den
  if i.closed then i.low * den ≤ point && point ≤ i.high * den
  else i.low * den < point && point < i.high * den

/-- The multiple of ten to the power `place` in the interval that is nearest to its double, the
upper one of two as near. -/
def Interval.onGrid? (i : Interval) (place : Int) : Option Nat :=
  let num := Nat.pow 10 place.toNat
  let den := Nat.pow 10 (-place).toNat
  let below := i.value * den / (num * i.den)
  let gap := i.value * den - below * num * i.den
  let nearBelow := gap < num * i.den - gap
  match i.holds below num den && below != 0, i.holds (below + 1) num den with
  | true, true => some (if nearBelow then below else below + 1)
  | true, false => some below
  | false, true => some (below + 1)
  | false, false => none

/-- Digits without the zeros at their end. -/
def trim (digits : List Nat) : List Nat :=
  (digits.reverse.dropWhile (· = 0)).reverse

/-- The first of the grids with `count`, `count + 1`, … digits that has a point in the interval. -/
def search (i : Interval) (leading : Int) : (tries count : Nat) → Decimal
  | 0, _ => ⟨[], 0⟩
  | tries + 1, count =>
    match i.onGrid? (leading + 1 - count) with
    | some n =>
      let digits := digitsOf n
      ⟨trim digits, leading + (digits.length - count : Nat)⟩
    | none => search i leading tries (count + 1)

/-- The fewest digits that round back to `significand * 2 ^ exponent`, which seventeen always do. -/
def shortest (significand : Nat) (exponent : Int) : Decimal :=
  let i := Interval.of significand exponent
  search i (leadingExponent i.value i.den) 17 1

end Decimal

/-- How a finite number is laid out: the exponents that are written positionally, and the mark in
front of an exponent that is not negative. -/
structure Layout where
  least : Int
  most : Int
  positiveMark : String

namespace Layout

def digitText (digits : List Nat) : String :=
  String.ofList (digits.map (fun d => Char.ofNat (48 + d)))

/-- The digits before the point, at least one, and those after it. -/
def split (x : Decimal) : List Nat × List Nat :=
  if x.exponent < 0 then ([0], List.replicate ((-x.exponent).toNat - 1) 0 ++ x.digits)
  else
    let whole := x.exponent.toNat + 1
    (x.digits.take whole ++ List.replicate (whole - x.digits.length) 0, x.digits.drop whole)

/-- Positional notation, with at least one place after the point. -/
def positional (x : Decimal) : String :=
  let (whole, places) := split x
  digitText whole ++ "." ++ (if places.isEmpty then "0" else digitText places)

/-- Positional notation, the point only before further digits. -/
def plain (x : Decimal) : String :=
  let (whole, places) := split x
  digitText whole ++ (if places.isEmpty then "" else "." ++ digitText places)

/-- Scientific notation, the point only before further digits. -/
def scientific (layout : Layout) (x : Decimal) : String :=
  let places := x.digits.drop 1
  let mark := if x.exponent < 0 then "e" else layout.positiveMark
  digitText (x.digits.take 1) ++ (if places.isEmpty then "" else "." ++ digitText places)
    ++ mark ++ toString x.exponent

/-- The text of a positive number. -/
def positive (layout : Layout) (x : Decimal) : String :=
  if layout.least ≤ x.exponent ∧ x.exponent ≤ layout.most then positional x
  else layout.scientific x

/-- The text of `significand * 2 ^ exponent` with its sign; zero is positional. -/
def write (layout : Layout) (negative : Bool) (significand : Nat) (exponent : Int) : String :=
  (if negative then "-" else "")
    ++ if significand = 0 then "0.0" else layout.positive (Decimal.shortest significand exponent)

end Layout

/-- The text of a double, positional at any size. -/
def Double.plainText (x : Double) : String :=
  let sign := if x.value.negative then "-" else ""
  match x.value.magnitude with
  | .notANumber => "NaN"
  | .infinite => sign ++ "inf"
  | .finite significand exponent =>
    sign ++ if significand = 0 then "0" else Layout.plain (Decimal.shortest significand exponent)

end CborRecords
