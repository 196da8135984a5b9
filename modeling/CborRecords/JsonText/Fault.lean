import CborRecords.Bytes

/-!
# Faults of JSON text

* `JsonText.Cause` : why a text cannot be read, with its wording and its class (`Cause.message`,
  `Cause.category`);
* `JsonText.Fault` : a cause and the number of bytes read up to it; `Fault.located` : its wording with
  the line and column.
-/

namespace CborRecords.JsonText

/-- Why a JSON text cannot be read. -/
inductive Cause
  | endInList
  | endInObject
  | endInString
  | endInValue
  | expectedColon
  | expectedListCommaOrEnd
  | expectedObjectCommaOrEnd
  | expectedIdent
  | expectedValue
  | invalidEscape
  | invalidNumber
  | numberOutOfRange
  | invalidCodePoint
  | controlCharacter
  | keyNotText
  | loneSurrogate
  | trailingComma
  | trailingCharacters
  | endOfHexEscape
  /-- Well-formed text that is not what was asked for. -/
  | data (message : String)
  deriving DecidableEq, Repr

/-- The class of a cause. -/
inductive Category
  | syntactic
  | tooShort
  | data
  deriving DecidableEq, Repr

namespace Cause

/-- The class of a cause: what ends the text too soon is a class of its own. -/
def category : Cause → Category
  | .endInList | .endInObject | .endInString | .endInValue => .tooShort
  | .data _ => .data
  | _ => .syntactic

/-- The wording of a cause. -/
def message : Cause → String
  | .endInList => "EOF while parsing a list"
  | .endInObject => "EOF while parsing an object"
  | .endInString => "EOF while parsing a string"
  | .endInValue => "EOF while parsing a value"
  | .expectedColon => "expected `:`"
  | .expectedListCommaOrEnd => "expected `,` or `]`"
  | .expectedObjectCommaOrEnd => "expected `,` or `\x7d`"
  | .expectedIdent => "expected ident"
  | .expectedValue => "expected value"
  | .invalidEscape => "invalid escape"
  | .invalidNumber => "invalid number"
  | .numberOutOfRange => "number out of range"
  | .invalidCodePoint => "invalid unicode code point"
  | .controlCharacter => "control character (\\u0000-\\u001F) found while parsing a string"
  | .keyNotText => "key must be a string"
  | .loneSurrogate => "lone leading surrogate in hex escape"
  | .trailingComma => "trailing comma"
  | .trailingCharacters => "trailing characters"
  | .endOfHexEscape => "unexpected end of hex escape"
  | .data message => message

end Cause

/-- A cause and the number of bytes of the text up to and with the one that shows it. -/
structure Fault where
  cause : Cause
  offset : Nat
  deriving DecidableEq, Repr

/-- The wording of a fault in a text, with the line, from one, and the column it was met at. -/
def Fault.located (text : Bytes) (fault : Fault) : String :=
  let before := text.take fault.offset
  let line := before.count 10 + 1
  let column := (before.reverse.takeWhile (· ≠ 10)).length
  fault.cause.message ++ " at line " ++ toString line ++ " column " ++ toString column

end CborRecords.JsonText
