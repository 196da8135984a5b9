import CborRecords.Person.Json
import CborRecords.JsonText.Value

/-!
# The JSON text of persons

* `Person.writeMembers` : an object with a name and an id, on one line or indented;
* `Person.readMembers` : the name and the id of an object, or of a list of the two. The text is read once, and
  the first fault met is the result;
* `Person.jsonCodec` : both together; `Person.json`, `Person.jsonPretty`, `Person.ofJson` : persons by it.
-/

namespace CborRecords

namespace Person
open JsonText

/-- An object with a name and an id. -/
def writeMembers (style : JsonStyle) (name : String) (id : UInt8) : String :=
  match style with
  | .compact => "\x7b\"name\":" ++ quote name ++ ",\"id\":" ++ toString id.toNat ++ "\x7d"
  | .pretty => "\x7b\n  \"name\": " ++ quote name ++ ",\n  \"id\": " ++ toString id.toNat ++ "\n\x7d"

/-! ## Reading -/

/-- A name: any string, cut as a name is. -/
def readName (s : Scan) : Except Fault (String × Scan) :=
  let s := s.blank
  match s.peek? with
  | none => s.ahead .endInValue
  | some b =>
    if b = 0x22 then (s.pass 1).text
    else s.refuse ("a name of at most " ++ toString nameLength ++ " bytes")

/-- An id: a number below 256. -/
def readId (s : Scan) : Except Fault (UInt8 × Scan) :=
  let s := s.blank
  let accept : Number × Scan → Except Fault (UInt8 × Scan)
    | (.float x, s) => s.invalidType (Scan.numberName (.float x)) "u8"
    | (.int n, s) =>
      if 0 ≤ n ∧ n < 256 then .ok (UInt8.ofNat n.toNat, s)
      else s.here (.data ("invalid value: integer `" ++ toString n ++ "`, expected u8"))
  match s.peek? with
  | none => s.ahead .endInValue
  | some b =>
    if b = 0x2D then (s.pass 1).number false >>= accept
    else if Scan.isDigit b then s.number true >>= accept
    else s.refuse "u8"

/-- Whether an element follows in a list, and the place of it. -/
def nextElement (first : Bool) (s : Scan) : Except Fault (Bool × Scan) :=
  let s := s.blank
  match s.peek? with
  | none => s.ahead .endInList
  | some b =>
    if b = 0x5D then .ok (false, s)
    else if first then .ok (true, s)
    else if b = 0x2C then
      let s := (s.pass 1).blank
      match s.peek? with
      | none => s.ahead .endInValue
      | some b => if b = 0x5D then s.ahead .trailingComma else .ok (true, s)
    else s.ahead .expectedListCommaOrEnd

/-- The end of a list. -/
def endList (s : Scan) : Except Fault Scan :=
  let s := s.blank
  match s.peek? with
  | none => s.ahead .endInList
  | some b =>
    if b = 0x5D then .ok (s.pass 1)
    else if b = 0x2C then
      let s := (s.pass 1).blank
      if s.peek? = some 0x5D then s.ahead .trailingComma else s.ahead .trailingCharacters
    else s.ahead .trailingCharacters

/-- The fault of a list of too few elements, which has been read to its end. -/
def tooFew {α : Type} (count : Nat) (s : Scan) : Except Fault α :=
  (s.pass 1).here
    (.data ("invalid length " ++ toString count ++ ", expected struct Person with 2 elements"))

/-- A person as a list, after its opening bracket. -/
def readList (s : Scan) : Except Fault ((String × UInt8) × Scan) := do
  let (more, s) ← nextElement true s
  if !more then tooFew 0 s
  else do
    let (name, s) ← readName s
    let (more, s) ← nextElement false s
    if !more then tooFew 1 s
    else do
      let (id, s) ← readId s
      let s ← endList s
      .ok ((name, id), s)

/-- Whether a key follows in an object, and the place after its opening quote. -/
def nextKey (first : Bool) (s : Scan) : Except Fault (Bool × Scan) :=
  let s := s.blank
  match s.peek? with
  | none => s.ahead .endInObject
  | some b =>
    if b = 0x7D then .ok (false, s)
    else if first then if b = 0x22 then .ok (true, s.pass 1) else s.ahead .keyNotText
    else if b = 0x2C then
      let s := (s.pass 1).blank
      match s.peek? with
      | none => s.ahead .endInValue
      | some b =>
        if b = 0x22 then .ok (true, s.pass 1)
        else if b = 0x7D then s.ahead .trailingComma
        else s.ahead .keyNotText
    else s.ahead .expectedObjectCommaOrEnd

/-- The colon after a key. -/
def colon (s : Scan) : Except Fault Scan :=
  let s := s.blank
  match s.peek? with
  | none => s.ahead .endInObject
  | some b => if b = 0x3A then .ok (s.pass 1) else s.ahead .expectedColon

/-- The fault of an entry that is there twice. It is met after the key. -/
def duplicate {α : Type} (key : String) (s : Scan) : Except Fault α :=
  let s := s.blank
  let s := if s.peek? = some 0x7D then s.pass 1 else s
  s.here (.data ("duplicate field `" ++ key ++ "`"))

/-- The fault of an entry that is not there. -/
def missing {α : Type} (key : String) (s : Scan) : Except Fault α :=
  (s.pass 1).here (.data ("missing field `" ++ key ++ "`"))

/-- The entries of an object from here on, in any order; unknown ones are passed. Each takes a byte. -/
def readEntries : (limit : Nat) → (first : Bool) → (name : Option String) → (id : Option UInt8) →
    Scan → Except Fault ((String × UInt8) × Scan)
  | 0, _, _, _, s => s.here .endInObject
  | limit + 1, first, name, id, s => do
    let (more, s) ← nextKey first s
    if more then
      let (key, s) ← s.text
      if key = "name" then
        if name.isSome then duplicate key s
        else
          let (value, s) ← readName (← colon s)
          readEntries limit false (some value) id s
      else if key = "id" then
        if id.isSome then duplicate key s
        else
          let (value, s) ← readId (← colon s)
          readEntries limit false name (some value) s
      else
        let s ← (← colon s).passValue
        readEntries limit false name id s
    else
      match name, id with
      | some name, some id => .ok ((name, id), s.pass 1)
      | none, _ => missing "name" s
      | some _, none => missing "id" s

/-- The members of a person at the place of a scan. -/
def read (s : Scan) : Except Fault ((String × UInt8) × Scan) :=
  let s := s.blank
  match s.peek? with
  | none => s.ahead .endInValue
  | some b =>
    if b = 0x5B then readList (s.pass 1)
    else if b = 0x7B then readEntries (s.rest.length + 1) true none none (s.pass 1)
    else s.refuse "struct Person"

/-- The members of the person that a text stands for. -/
def readMembers (text : Bytes) : Except Fault (String × UInt8) := do
  let (members, s) ← read (.ofText text)
  let s := s.blank
  if s.rest.isEmpty then .ok members else s.ahead .trailingCharacters

/-! ## The codec -/

/-- Objects as they are written and read here. -/
def jsonCodec : JsonCodec Fault :=
  ⟨writeMembers, readMembers⟩

/-- A person as an object on one line. -/
def json (p : Person) : Except Utf8.Fault String :=
  jsonCodec.ofPerson .compact p

/-- A person as an object with a line for each member. -/
def jsonPretty (p : Person) : Except Utf8.Fault String :=
  jsonCodec.ofPerson .pretty p

/-- The person that a text stands for. -/
def ofJson (text : Bytes) : Except Fault Person :=
  jsonCodec.toPerson text

end Person

end CborRecords
