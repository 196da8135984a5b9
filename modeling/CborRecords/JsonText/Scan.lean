import CborRecords.JsonText.Fault
import CborRecords.Utf8
import CborRecords.Hex

/-!
# Scanning JSON text

* `JsonText.Scan` : the bytes still to be read and the number read before them;
* `Scan.here`, `Scan.ahead` : a fault at the place reached, or at the byte that was looked at;
* `Scan.word` : the rest of a word such as `null`;
* `Scan.text` : a string after its opening quote; `Scan.passText` : the same without its value, so that
  escapes need not make characters.
-/

namespace CborRecords.JsonText

/-- A place in a text. -/
structure Scan where
  rest : Bytes
  offset : Nat
  deriving DecidableEq, Repr

namespace Scan

/-- The start of a text. -/
def ofText (text : Bytes) : Scan :=
  ⟨text, 0⟩

/-- Passes `n` bytes, or all that there are. -/
def pass (n : Nat) (s : Scan) : Scan :=
  ⟨s.rest.drop n, s.offset + (s.rest.take n).length⟩

/-- A fault at the place reached. -/
def here {α : Type} (s : Scan) (cause : Cause) : Except Fault α :=
  .error ⟨cause, s.offset⟩

/-- A fault at the next byte, if there is one. -/
def ahead {α : Type} (s : Scan) (cause : Cause) : Except Fault α :=
  (s.pass 1).here cause

/-- A space, tab, line feed or carriage return. -/
def isBlank (b : UInt8) : Bool :=
  b = 0x20 || b = 0x09 || b = 0x0A || b = 0x0D

/-- Passes blanks. -/
def blank (s : Scan) : Scan :=
  s.pass (s.rest.takeWhile isBlank).length

/-- The next byte. -/
def peek? (s : Scan) : Option UInt8 :=
  s.rest.head?

/-- The rest of a word whose first letter has been passed. -/
def word (letters : Bytes) (s : Scan) : Except Fault Scan :=
  match letters with
  | [] => .ok s
  | letter :: more =>
    match s.peek? with
    | none => s.here .endInValue
    | some b => if b = letter then word more (s.pass 1) else (s.pass 1).here .expectedIdent

/-- Four hexadecimal digits. -/
def hexEscape (s : Scan) : Except Fault (Nat × Scan) :=
  match Bytes.split? 4 s.rest with
  | none => (s.pass 4).here .endInString
  | some (digits, _) =>
    match digits.mapM Hex.value? with
    | none => (s.pass 4).here .invalidEscape
    | some values => .ok (values.foldl (fun n d => n * 16 + d) 0, s.pass 4)

/-- The bytes of the character of a code point. -/
def character (code : Nat) : Bytes :=
  String.utf8EncodeChar (Char.ofNat code)

/-- A byte that must follow inside a pair of surrogates. -/
def expectInPair (b : UInt8) (s : Scan) : Except Fault Scan :=
  match s.peek? with
  | none => s.here .endInString
  | some found => if found = b then .ok (s.pass 1) else (s.pass 1).here .endOfHexEscape

/-- The character of an escape by code point; a leading surrogate must be followed by a trailing one. -/
def numberedCharacter (s : Scan) : Except Fault (Bytes × Scan) := do
  let (code, s) ← s.hexEscape
  if 0xDC00 ≤ code ∧ code ≤ 0xDFFF then s.here .loneSurrogate
  else if code < 0xD800 ∨ 0xDBFF < code then .ok (character code, s)
  else do
    let s ← s.expectInPair 0x5C
    let s ← s.expectInPair 0x75
    let (low, s) ← s.hexEscape
    if low < 0xDC00 ∨ 0xDFFF < low then s.here .loneSurrogate
    else .ok (character ((code - 0xD800) * 0x400 + (low - 0xDC00) + 0x10000), s)

/-- The byte that a short escape stands for. -/
def shortEscape? (b : UInt8) : Option UInt8 :=
  if b = 0x22 ∨ b = 0x5C ∨ b = 0x2F then some b
  else if b = 0x62 then some 0x08
  else if b = 0x66 then some 0x0C
  else if b = 0x6E then some 0x0A
  else if b = 0x72 then some 0x0D
  else if b = 0x74 then some 0x09
  else none

/-- What follows a backslash; `numbered` reads an escape by code point. -/
def escape (numbered : Scan → Except Fault (Bytes × Scan)) (s : Scan) :
    Except Fault (Bytes × Scan) :=
  match s.peek? with
  | none => s.here .endInString
  | some b =>
    if b = 0x75 then numbered (s.pass 1)
    else
      match shortEscape? b with
      | some value => .ok ([value], s.pass 1)
      | none => (s.pass 1).here .invalidEscape

/-- The bytes of a string up to and with its closing quote; `back` are those already read, last one
first. Each step passes a byte. -/
def textFrom : (limit : Nat) → (back : Bytes) → Scan → Except Fault (Bytes × Scan)
  | 0, _, s => s.here .endInString
  | limit + 1, back, s =>
    match s.peek? with
    | none => s.here .endInString
    | some b =>
      if b = 0x22 then .ok (back.reverse, s.pass 1)
      else if b = 0x5C then do
        let (bytes, s) ← (s.pass 1).escape numberedCharacter
        textFrom limit (bytes.reverse ++ back) s
      else if b < 0x20 then (s.pass 1).here .controlCharacter
      else textFrom limit (b :: back) (s.pass 1)

/-- A string after its opening quote. -/
def text (s : Scan) : Except Fault (String × Scan) := do
  let (bytes, s) ← textFrom (s.rest.length + 1) [] s
  match Utf8.decode bytes with
  | .ok value => .ok (value, s)
  | .error _ => s.here .invalidCodePoint

/-- Passes a string up to and with its closing quote. Each step passes a byte. -/
def passTextFrom : (limit : Nat) → Scan → Except Fault Scan
  | 0, s => s.here .endInString
  | limit + 1, s =>
    match s.peek? with
    | none => s.here .endInString
    | some b =>
      if b = 0x22 then .ok (s.pass 1)
      else if b = 0x5C then do
        let numbered (s : Scan) : Except Fault (Bytes × Scan) := do
          let (_, s) ← s.hexEscape
          .ok ([], s)
        let (_, s) ← (s.pass 1).escape numbered
        passTextFrom limit s
      else if b < 0x20 then s.here .controlCharacter
      else passTextFrom limit (s.pass 1)

/-- Passes a string after its opening quote. -/
def passText (s : Scan) : Except Fault Scan :=
  passTextFrom (s.rest.length + 1) s

end Scan

end CborRecords.JsonText
