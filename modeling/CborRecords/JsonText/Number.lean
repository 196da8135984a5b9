import CborRecords.JsonText.Scan
import CborRecords.Decimal

/-!
# Numbers of JSON text

* `JsonText.Number` : an integer of 64 bits, or a double;
* `Scan.number` : a number after its sign. Digits are gathered in 64 bits; those that do not fit only
  move the point; the rest is one multiplication or division by a power of ten;
* `Scan.passNumber` : the same without its value;
* `JsonText.float` : how a double is written.
-/

namespace CborRecords.JsonText

/-- A number that was read. -/
inductive Number
  | int (n : Int)
  | float (x : Double)
  deriving DecidableEq, Repr

/-- Numbers from `10 ^ -5` up to `10 ^ 16` are positional, and an exponent has its sign. -/
def float : Layout := ⟨-5, 15, "e+"⟩

/-- The text of a finite double. -/
def floatText (x : Double) : String :=
  match x.value with
  | ⟨negative, .finite significand exponent⟩ => float.write negative significand exponent
  | _ => ""

/-- Adds digits to a number of 64 bits until one does not fit: the number, and how many were added. -/
def gather : (significand : Nat) → (digits : Bytes) → Nat × Nat
  | significand, [] => (significand, 0)
  | significand, d :: rest =>
    let next := significand * 10 + (d.toNat - 48)
    if next < 0x10000000000000000 then
      let (total, added) := gather next rest
      (total, added + 1)
    else (significand, 0)

/-- A power of ten as a double. -/
def powerOfTen (n : Nat) : Double :=
  Double.nearest false (Nat.pow 10 n) 1

/-- Scales by a power of ten, at most `10 ^ 308` at a time; nothing when the result has no double.
Two divisions leave nothing of a number of 64 bits. -/
def scale : (tries : Nat) → (x : Double) → (exponent : Int) → Option Double
  | 0, _, _ => some (Double.nearest false 0 1)
  | tries + 1, x, exponent =>
    if exponent.natAbs ≤ 308 then
      if 0 ≤ exponent then
        let product := x.mul (powerOfTen exponent.toNat)
        if product.isInfinite then none else some product
      else some (x.div (powerOfTen exponent.natAbs))
    else if x.bits = 0 then some x
    else if 0 ≤ exponent then none
    else scale tries (x.div (powerOfTen 308)) (exponent + 308)

/-- A double with another sign. -/
def signed (positive : Bool) (x : Double) : Double :=
  if positive then x else ⟨x.bits ||| 0x8000000000000000⟩

namespace Scan

/-- A decimal digit. -/
def isDigit (b : UInt8) : Bool :=
  0x30 ≤ b && b ≤ 0x39

/-- The digits that follow. -/
def digits (s : Scan) : Bytes :=
  s.rest.takeWhile isDigit

/-- The letter of an exponent. -/
def isExponentMark (b : Option UInt8) : Bool :=
  b = some 0x65 || b = some 0x45

/-- The double of a significand and an exponent. -/
def double (positive : Bool) (significand : Nat) (exponent : Int) (s : Scan) :
    Except Fault (Number × Scan) :=
  match scale 3 (Double.nearest false significand 1) exponent with
  | some x => .ok (.float (signed positive x), s)
  | none => s.here .numberOutOfRange

/-- The value of an exponent's digits, or how many were read before it grew past 32 bits. -/
def exponentValue (value read : Nat) : Bytes → Except Nat Nat
  | [] => .ok value
  | d :: rest =>
    let next := value * 10 + (d.toNat - 48)
    if next < 0x80000000 then exponentValue next (read + 1) rest else .error (read + 1)

/-- Passes the sign of an exponent; whether it is positive. -/
def exponentSign (s : Scan) : Bool × Scan :=
  if s.peek? = some 0x2B then (true, s.pass 1)
  else if s.peek? = some 0x2D then (false, s.pass 1)
  else (true, s)

/-- What follows the letter of an exponent. An exponent past 32 bits leaves zero or nothing. -/
def exponent (positive : Bool) (significand : Nat) (start : Int) (s : Scan) :
    Except Fault (Number × Scan) :=
  let (up, s) := s.exponentSign
  match s.peek? with
  | none => s.here .endInValue
  | some b =>
    if isDigit b then
      let digits := s.digits
      match exponentValue 0 0 digits with
      | .error read =>
        if significand ≠ 0 ∧ up then (s.pass read).here .numberOutOfRange
        else .ok (.float (signed positive (Double.nearest false 0 1)), s.pass digits.length)
      | .ok value =>
        double positive significand (if up then start + value else start - value)
          (s.pass digits.length)
    else (s.pass 1).here .invalidNumber

/-- What follows a decimal point, at least one digit. -/
def decimals (positive : Bool) (significand : Nat) (start : Int) (s : Scan) :
    Except Fault (Number × Scan) :=
  let digits := s.digits
  if digits.isEmpty then
    if s.rest.isEmpty then s.ahead .endInValue else s.ahead .invalidNumber
  else
    let (significand, added) := gather significand digits
    let s := s.pass digits.length
    if isExponentMark s.peek? then exponent positive significand (start - added) (s.pass 1)
    else double positive significand (start - added) s

/-- What follows the whole digits, of which `dropped` did not fit. Zero with a minus sign is a double,
and so is what a signed integer of 64 bits cannot hold. -/
def afterWhole (positive : Bool) (significand dropped : Nat) (s : Scan) :
    Except Fault (Number × Scan) :=
  if s.peek? = some 0x2E then decimals positive significand dropped (s.pass 1)
  else if isExponentMark s.peek? then exponent positive significand dropped (s.pass 1)
  else if 0 < dropped then double positive significand dropped s
  else if positive then .ok (.int significand, s)
  else if 0 < significand ∧ significand ≤ 0x8000000000000000 then .ok (.int (-significand), s)
  else .ok (.float (signed false (Double.nearest false significand 1)), s)

/-- A number after its sign. -/
def number (positive : Bool) (s : Scan) : Except Fault (Number × Scan) :=
  match s.peek? with
  | none => s.here .endInValue
  | some b =>
    if b = 0x30 then
      let s := s.pass 1
      if s.digits.isEmpty then afterWhole positive 0 0 s else s.ahead .invalidNumber
    else if isDigit b then
      let digits := s.digits
      let (significand, added) := gather 0 digits
      afterWhole positive significand (digits.length - added) (s.pass digits.length)
    else (s.pass 1).here .invalidNumber

/-- Passes an exponent after its letter. -/
def passExponent (s : Scan) : Except Fault Scan :=
  let (_, s) := s.exponentSign
  if s.digits.isEmpty then (s.pass 1).here .invalidNumber else .ok (s.pass s.digits.length)

/-- Passes what follows a decimal point. -/
def passDecimals (s : Scan) : Except Fault Scan :=
  if s.digits.isEmpty then s.ahead .invalidNumber
  else
    let s := s.pass s.digits.length
    if isExponentMark s.peek? then passExponent (s.pass 1) else .ok s

/-- Passes a number after its sign. -/
def passNumber (s : Scan) : Except Fault Scan := do
  let s ←
    match s.peek? with
    | none => s.here .invalidNumber
    | some b =>
      if b = 0x30 then
        if (s.pass 1).digits.isEmpty then .ok (s.pass 1) else (s.pass 1).ahead .invalidNumber
      else if isDigit b then .ok (s.pass s.digits.length)
      else (s.pass 1).here .invalidNumber
  if s.peek? = some 0x2E then passDecimals (s.pass 1)
  else if isExponentMark s.peek? then passExponent (s.pass 1)
  else .ok s

end Scan

end CborRecords.JsonText
