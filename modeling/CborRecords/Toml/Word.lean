import CborRecords.Toml.Value

/-!
# Words of TOML text

A value without quotes is a number, a boolean or a moment.

* `Toml.integer` : integers of four bases, with underscores between their digits;
* `Toml.float` : numbers with a point or an exponent, infinite ones, and what is no number;
* `Toml.word` : the value of a word.
-/

namespace CborRecords.Toml
open Quoted (apostrophe)

/-- Why a word is no value: a string without its quotes, or without the first of them. -/
def noValue (p : Piece) : Fault :=
  let marks := [List.replicate 3 apostrophe, List.replicate 3 '"', [apostrophe], ['"']]
  match marks.find? (·.isSuffixOf p.chars) with
  | some mark => ⟨.unopenedString (String.ofList mark), p.span.before⟩
  | none => ⟨.unquoted, p.span⟩

/-! ## Digits -/

/-- The characters without underscores, each of which must stand between digits. `skipped` bytes of the
piece stand before them. The first and the last character are looked at first. -/
def joined (p : Piece) (skipped : Nat) (isDigit : Char → Bool) (chars : List Char) :
    Except Fault (List Char) :=
  let refused (place : Nat) : Except Fault (List Char) :=
    .error ⟨.underscore, p.within (skipped + place) (skipped + place + 1)⟩
  let rec gap? (place : Nat) (before : Char) : List Char → Option Nat
    | [] => none
    | c :: rest =>
      if c = '_' ∧ ¬ (isDigit before && (rest.head?.map isDigit).getD false) then some place
      else gap? (place + c.utf8Size) c rest
  if chars.head? = some '_' then refused 0
  else if chars.getLast? = some '_' then refused (width chars - 1)
  else
    match gap? 0 '_' chars with
    | some place => refused place
    | none => .ok (chars.filter (· ≠ '_'))

/-- A digit of any base. -/
def isAnyDigit (c : Char) : Bool :=
  (hexValue? c).isSome

/-- The digit belongs to a base. -/
def Base.holds (base : Base) (c : Char) : Bool :=
  match hexValue? c with
  | some d => d < base.value
  | none => false

/-! ## Integers -/

/-- The integer of digits, perhaps with a sign. -/
def integer? (base : Base) (chars : List Char) : Option Int :=
  let unsigned (digits : List Char) : Option Int :=
    if digits.isEmpty ∨ ¬ digits.all base.holds then none
    else some (Int.ofNat ((digits.filterMap hexValue?).foldl (fun n d => n * base.value + d) 0))
  match chars with
  | '+' :: digits => unsigned digits
  | '-' :: digits => (unsigned digits).map fun n => -n
  | digits => unsigned digits

/-- The value of an integer, which has 64 bits. -/
def integerValue (p : Piece) (n : Option Int) : Value :=
  let beyond (cause : Cause) : Value := .beyond "integer" ⟨cause, p.span⟩
  match n with
  | none => beyond .integerOverflow
  | some n =>
    if -0x8000000000000000 ≤ n ∧ n < 0x8000000000000000 then .integer n
    else if 0 ≤ n ∧ n < 0x10000000000000000 then beyond .largeInteger
    else if -0x80000000000000000000000000000000 ≤ n ∧ n < 0x100000000000000000000000000000000 then
      beyond (.wideInteger n)
    else beyond .integerOverflow

/-- A decimal integer that takes the whole piece. Its digits stand after `skipped` bytes, and zero is
not the first of several. -/
def decimal (p : Piece) (skipped : Nat) (digits : List Char) : Except Fault Value := do
  if digits.head? = some '0' then throw ⟨.leadingZero, p.within skipped (skipped + 1)⟩
  let chars ← joined p 0 isAnyDigit p.chars
  return integerValue p (integer? .ten chars)

/-- An integer after its base, a zero and a letter. -/
def integer (p : Piece) (base : Base) (capital : Bool) (skipped : Nat) (digits : List Char) :
    Except Fault Value := do
  if 0 < skipped then throw ⟨.signedBase, p.within 0 skipped⟩
  if capital then throw ⟨.capitalBase base, p.within skipped (skipped + 2)⟩
  let good := digits.takeWhile fun c => base.holds c || c = '_'
  let place := skipped + 2 + width good
  if good.length < digits.length then throw ⟨.badDigit base, p.within place place⟩
  let chars ← joined p (skipped + 2) isAnyDigit digits
  return integerValue p (integer? base chars)

/-! ## Numbers with a point or an exponent -/

/-- What follows the digits of a part, at least one, and where it stands. Zero may be the first of
several only after a point or in an exponent. -/
def partFrom (p : Piece) (part : FloatPart) (place : Nat) (chars : List Char) :
    Except Fault (Nat × List Char) :=
  let taken := chars.takeWhile fun c => c.isDigit || c = '_'
  let count := (taken.filter Char.isDigit).length
  if count = 0 then .error ⟨.missingDigits part, p.within place place⟩
  else if part = .mantissa ∧ 1 < count ∧ chars.head? = some '0' then
    .error ⟨.leadingZero, p.within place (place + 1)⟩
  else .ok (place + taken.length, chars.drop taken.length)

/-- The characters after a sign, and where they stand. -/
def passSign (place : Nat) : List Char → Nat × List Char
  | '+' :: rest | '-' :: rest => (place + 1, rest)
  | chars => (place, chars)

/-- A number is a mantissa, perhaps a point with a fraction, and perhaps an exponent. -/
def checkFloat (p : Piece) (skipped : Nat) (chars : List Char) : Except Fault Unit := do
  let (place, chars) ← partFrom p .mantissa skipped chars
  let (place, chars) ←
    match chars with
    | '.' :: rest => partFrom p .fraction (place + 1) rest
    | _ => pure (place, chars)
  let (place, chars) ←
    match chars with
    | 'e' :: rest | 'E' :: rest =>
      let (place, rest) := passSign (place + 1) rest
      partFrom p .exponent place rest
    | _ => pure (place, chars)
  if ¬ chars.isEmpty then throw ⟨.badFloat, p.within place (place + width chars)⟩

/-- The number of decimal digits. -/
def digitsValue (digits : List Char) : Nat :=
  digits.foldl (fun n d => n * 10 + (d.toNat - 48)) 0

/-- The double nearest to a number in digits with a point and an exponent. Past `10 ^ 400` and below
`10 ^ -400` only its sign is left. -/
def nearestDouble (chars : List Char) : Double :=
  let negative := chars.head? = some '-'
  let (_, unsigned) := passSign 0 chars
  let whole := unsigned.takeWhile Char.isDigit
  let afterWhole := unsigned.dropWhile Char.isDigit
  let fraction := (Moment.after? '.' afterWhole).getD [] |>.takeWhile Char.isDigit
  let mark := afterWhole.dropWhile fun c => c ≠ 'e' && c ≠ 'E'
  let (_, exponent) := passSign 0 (mark.drop 1)
  let power : Int := if (mark.drop 1).head? = some '-' then -digitsValue exponent else digitsValue exponent
  let digits := (whole ++ fraction).dropWhile (· = '0')
  let last : Int := power - fraction.length
  if digits.isEmpty ∨ last + digits.length < -400 then Double.nearest negative 0 1
  else if 400 < last + digits.length then Double.ofBinary ⟨negative, .infinite⟩
  else if 0 ≤ last then Double.nearest negative (digitsValue digits * Nat.pow 10 last.toNat) 1
  else Double.nearest negative (digitsValue digits) (Nat.pow 10 last.natAbs)

/-- A number with a point or an exponent that takes the whole piece. -/
def float (p : Piece) (skipped : Nat) (digits : List Char) : Except Fault Value := do
  checkFloat p skipped digits
  let chars ← joined p 0 Char.isDigit p.chars
  let x := nearestDouble chars
  return if x.isInfinite then .beyond "float" ⟨.floatOverflow, p.span⟩ else .float x

/-! ## Words -/

/-- The value of a piece that is to be one word. A piece of several words is no value. -/
def fixed (p : Piece) (type word : String) (v : Value) : Except Fault Value :=
  if p.chars = word.toList then .ok v
  else if p.chars.contains ' ' then .error (noValue p)
  else .error ⟨.notTheWord type word, p.span⟩

/-- A double that is infinite, or no number. -/
def special (negative : Bool) (magnitude : Magnitude) : Value :=
  .float (Double.ofBinary ⟨negative, magnitude⟩)

/-- A word that starts with a digit or an underscore after its sign. -/
def digitWord (p : Piece) (skipped : Nat) (chars : List Char) : Except Fault Value :=
  let rest := chars.dropWhile Char.isDigit
  match rest with
  | [] => decimal p skipped chars
  | c :: _ =>
    if c = '-' ∨ c = ':' then
      match Moment.parse p.chars with
      | .ok m => .ok (.moment m)
      | .error fault => .error ⟨.moment fault.message, p.span⟩
    else if rest.contains ' ' then .error (noValue p)
    else if rest.any fun c => c = '.' || c = 'e' || c = 'E' then float p skipped chars
    else if c = '_' then decimal p skipped chars
    else .error (noValue p)

/-- A word that starts with a zero after its sign. -/
def zeroWord (p : Piece) (skipped : Nat) (rest : List Char) : Except Fault Value :=
  match rest with
  | [] => .ok (.integer 0)
  | 'x' :: digits => integer p .sixteen false skipped digits
  | 'X' :: digits => integer p .sixteen true skipped digits
  | 'o' :: digits => integer p .eight false skipped digits
  | 'O' :: digits => integer p .eight true skipped digits
  | 'b' :: digits => integer p .two false skipped digits
  | 'B' :: digits => integer p .two true skipped digits
  | c :: _ =>
    if c = 'd' ∨ c = 'D' then
      if 0 < skipped then .error ⟨.signedBase, p.within 0 skipped⟩
      else .error ⟨.decimalLead, p.within skipped (skipped + 2)⟩
    else digitWord p skipped ('0' :: rest)

/-- A word after its sign. -/
def signedWord (p : Piece) (negative : Bool) : List Char → Except Fault Value
  | [] => .error (noValue p)
  | c :: rest =>
    let whole (word : String) (v : Value) : Except Fault Value :=
      if c :: rest = word.toList then .ok v
      else .error ⟨.notTheWord "float" word, p.within 1 (width p.chars)⟩
    if c = '+' ∨ c = '-' then .error ⟨.secondSign, p.within 1 2⟩
    else if c = '0' then zeroWord p 1 rest
    else if c.isDigit ∨ c = '_' then digitWord p 1 (c :: rest)
    else if c = '.' then float p 1 (c :: rest)
    else if c = 'i' ∨ c = 'I' then whole "inf" (special negative .infinite)
    else if c = 'n' ∨ c = 'N' then whole "nan" (special negative .notANumber)
    else .error (noValue p)

/-- The value of a word. -/
def word (p : Piece) : Except Fault Value :=
  match p.chars with
  | [] => .error (noValue p)
  | c :: rest =>
    if c = '+' ∨ c = '-' then signedWord p (c = '-') rest
    else if c = '0' then zeroWord p 0 rest
    else if c.isDigit ∨ c = '_' then digitWord p 0 p.chars
    else if c = '.' then float p 0 p.chars
    else if c = 't' ∨ c = 'T' then fixed p "boolean" "true" (.boolean true)
    else if c = 'f' ∨ c = 'F' then fixed p "boolean" "false" (.boolean false)
    else if c = 'i' ∨ c = 'I' then fixed p "float" "inf" (special false .infinite)
    else if c = 'n' ∨ c = 'N' then fixed p "float" "nan" (special false .notANumber)
    else .error (noValue p)

end CborRecords.Toml
