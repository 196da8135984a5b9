import CborRecords.Blank
import CborRecords.Quoted
import CborRecords.Utf8

/-!
# Hexadecimal text

* `Hex.encode` : two lower-case digits a byte;
* `Hex.decode` : pairs of digits of either case; an odd length is refused first, then the first
  byte of the text that is no digit (`Hex.Fault`, `Hex.Fault.message`);
* `HexCodec` : any way to write bytes as digits and to read them, `Hex.codec` : this one;
  `HexCodec.ReadsBack`, `HexCodec.Unspaced`, `HexCodec.Unquoted` : it reads what it writes, and writes neither
  blanks nor apostrophes.
-/

namespace CborRecords

namespace Hex

/-- The lower-case digit for a number below sixteen. -/
def digit (n : Nat) : Char :=
  if n < 10 then Char.ofNat (48 + n) else Char.ofNat (87 + n)

/-- The two digits of a byte. -/
def ofByte (b : UInt8) : List Char :=
  [digit (b.toNat / 16), digit (b.toNat % 16)]

/-- Two lower-case digits a byte, in order. -/
def encode (bytes : Bytes) : String :=
  String.ofList (bytes.flatMap ofByte)

/-- The number a digit stands for, in either case; the digit is a byte of the text. -/
def value? (b : UInt8) : Option Nat :=
  let n := b.toNat
  if 48 ≤ n ∧ n ≤ 57 then some (n - 48)
  else if 97 ≤ n ∧ n ≤ 102 then some (n - 87)
  else if 65 ≤ n ∧ n ≤ 70 then some (n - 55)
  else none

/-- Why a text is not hexadecimal. -/
inductive Fault
  | oddLength
  | invalidDigit (byte : UInt8) (index : Nat)
  deriving DecidableEq, Repr

/-- The wording of a fault; an invalid byte is shown as the character of its number. -/
def Fault.message : Fault → String
  | .oddLength => "Odd number of digits"
  | .invalidDigit byte index =>
    "Invalid character " ++ Quoted.character (Char.ofNat byte.toNat) ++ " at position " ++ toString index

/-- The digit at `index`. -/
def digitAt (index : Nat) (b : UInt8) : Except Fault Nat :=
  match value? b with
  | some n => .ok n
  | none => .error (.invalidDigit b index)

/-- The bytes that pairs of digits stand for, the first digit standing at `index`. -/
def decodePairs (index : Nat) : Bytes → Except Fault Bytes
  | high :: low :: rest => do
    let h ← digitAt index high
    let l ← digitAt (index + 1) low
    let bytes ← decodePairs (index + 2) rest
    pure (UInt8.ofNat (h * 16 + l) :: bytes)
  | _ => .ok []

/-- The bytes a text of digits stands for. -/
def decode (text : Bytes) : Except Fault Bytes :=
  if text.length % 2 = 1 then .error .oddLength else decodePairs 0 text

end Hex

/-- A way to write bytes as digits, and to read them. -/
structure HexCodec where
  encode : Bytes → String
  decode : Bytes → Except Hex.Fault Bytes

namespace HexCodec

/-- What is written is read back. -/
def ReadsBack (codec : HexCodec) : Prop :=
  ∀ bytes, codec.decode (Utf8.encode (codec.encode bytes)) = .ok bytes

/-- No white space is written. -/
def Unspaced (codec : HexCodec) : Prop :=
  ∀ bytes, ∀ c ∈ (codec.encode bytes).toList, isBlank c = false

/-- No apostrophe is written. -/
def Unquoted (codec : HexCodec) : Prop :=
  ∀ bytes, Quoted.apostrophe ∉ (codec.encode bytes).toList

end HexCodec

/-- Digits as they are written and read here. -/
def Hex.codec : HexCodec :=
  ⟨encode, decode⟩

end CborRecords
