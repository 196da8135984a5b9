import CborRecords.JsonText.Number
import CborRecords.Quoted

/-!
# Values of JSON text

* `Scan.refuse` : the fault of a value that is not of the type asked for;
* `Scan.passValue` : passes a value of any type;
* `JsonText.quote` : a text as a JSON string.
-/

namespace CborRecords.JsonText

namespace Scan

/-- How a fault names a number. -/
def numberName : Number → String
  | .int n => "integer `" ++ toString n ++ "`"
  | .float x => "floating point `" ++ floatText x ++ "`"

/-- The fault that something of a type was found where something else was expected. -/
def invalidType {α : Type} (found expected : String) (s : Scan) : Except Fault α :=
  s.here (.data ("invalid type: " ++ found ++ ", expected " ++ expected))

/-- The fault of the value that follows, which is not what was expected. A scalar is read first, and
may have a fault of its own. -/
def refuse {α : Type} (expected : String) (s : Scan) : Except Fault α :=
  match s.peek? with
  | none => s.ahead .expectedValue
  | some b =>
    let s' := s.pass 1
    if b = 0x6E then do
      let s ← s'.word [0x75, 0x6C, 0x6C]
      s.invalidType "null" expected
    else if b = 0x74 then do
      let s ← s'.word [0x72, 0x75, 0x65]
      s.invalidType "boolean `true`" expected
    else if b = 0x66 then do
      let s ← s'.word [0x61, 0x6C, 0x73, 0x65]
      s.invalidType "boolean `false`" expected
    else if b = 0x2D then do
      let (n, s) ← s'.number false
      s.invalidType (numberName n) expected
    else if isDigit b then do
      let (n, s) ← s.number true
      s.invalidType (numberName n) expected
    else if b = 0x22 then do
      let (value, s) ← s'.text
      s.invalidType ("string " ++ Quoted.text value) expected
    else if b = 0x5B then s.invalidType "sequence" expected
    else if b = 0x7B then s.invalidType "map" expected
    else s.ahead .expectedValue

/-- What encloses a value that is passed. -/
inductive Frame
  | list
  | object
  deriving DecidableEq, Repr

namespace Frame

/-- The bracket that closes. -/
def closing : Frame → UInt8
  | .list => 0x5D
  | .object => 0x7D

/-- The text ended inside. -/
def ended : Frame → Cause
  | .list => .endInList
  | .object => .endInObject

/-- Neither a comma nor the end. -/
def expectedCommaOrEnd : Frame → Cause
  | .list => .expectedListCommaOrEnd
  | .object => .expectedObjectCommaOrEnd

end Frame

/-- Passes a key and its colon. -/
def passKey (s : Scan) : Except Fault Scan := do
  let s := s.blank
  let s ←
    match s.peek? with
    | none => s.ahead .endInObject
    | some b => if b = 0x22 then (s.pass 1).passText else s.ahead .keyNotText
  let s := s.blank
  match s.peek? with
  | none => s.ahead .endInObject
  | some b => if b = 0x3A then .ok (s.pass 1) else s.ahead .expectedColon

/-- Passes a scalar whose first byte is `b`. -/
def passScalar (b : UInt8) (s : Scan) : Except Fault Scan :=
  if b = 0x6E then (s.pass 1).word [0x75, 0x6C, 0x6C]
  else if b = 0x74 then (s.pass 1).word [0x72, 0x75, 0x65]
  else if b = 0x66 then (s.pass 1).word [0x61, 0x6C, 0x73, 0x65]
  else if b = 0x2D then (s.pass 1).passNumber
  else if isDigit b then s.passNumber
  else if b = 0x22 then (s.pass 1).passText
  else s.ahead .expectedValue

/-- Where the passing of a value stands: before a value, after one, or after an opening bracket. -/
inductive Stage
  | before
  | after
  | opened
  deriving DecidableEq, Repr

/-- Passes values and what encloses them until nothing does. Two steps pass a byte at least. -/
def passFrom : (limit : Nat) → Stage → List Frame → Scan → Except Fault Scan
  | 0, _, _, s => s.here .endInValue
  | limit + 1, .before, frames, s =>
    let s := s.blank
    match s.peek? with
    | none => s.ahead .endInValue
    | some b =>
      if b = 0x5B then passFrom limit .opened (.list :: frames) (s.pass 1)
      else if b = 0x7B then passFrom limit .opened (.object :: frames) (s.pass 1)
      else do
        let s ← s.passScalar b
        passFrom limit .after frames s
  | _ + 1, _, [], s => .ok s
  | limit + 1, stage, frame :: frames, s =>
    let s := s.blank
    let inside (s : Scan) : Except Fault Scan := do
      let s ← if frame = .object then s.passKey else .ok s
      passFrom limit .before (frame :: frames) s
    match s.peek? with
    | none => s.ahead frame.ended
    | some b =>
      if b = frame.closing then passFrom limit .after frames (s.pass 1)
      else if stage = .opened then inside s
      else if b = 0x2C then inside (s.pass 1)
      else s.ahead frame.expectedCommaOrEnd

/-- Passes a value of any type. -/
def passValue (s : Scan) : Except Fault Scan :=
  passFrom (2 * s.rest.length + 2) .before [] s

end Scan

/-- A character inside a JSON string. -/
def escape (c : Char) : List Char :=
  if c = '"' then ['\\', '"']
  else if c = '\\' then ['\\', '\\']
  else if c = '\n' then ['\\', 'n']
  else if c = '\r' then ['\\', 'r']
  else if c = '\t' then ['\\', 't']
  else if c.toNat = 0x08 then ['\\', 'b']
  else if c.toNat = 0x0C then ['\\', 'f']
  else if c.toNat < 0x20 then
    ['\\', 'u', '0', '0', Hex.digit (c.toNat / 16), Hex.digit (c.toNat % 16)]
  else [c]

/-- A text as a JSON string. -/
def quote (text : String) : String :=
  String.ofList ('"' :: text.toList.flatMap escape ++ ['"'])

end CborRecords.JsonText
