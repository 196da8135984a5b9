import CborRecords.Command.Failure
import CborRecords.Command.Invocation
import CborRecords.Log
import CborRecords.JsonText.Person

/-!
# Conversions of the command

* `personNamed` : the person of a name and an id, with a warning if the name is truncated;
* `encoded` : the record of a person;
* `decoded` : the person of a record;
* `Codecs` : how JSON and hexadecimal text are written and read, `Codecs.Lawful` : what is asked of them;
* `ofHexText` : the bytes of hexadecimal text with blanks anywhere;
* `view` : a person as text.
-/

namespace CborRecords.Command

/-- The person of a name and an id. A name that is truncated is worth a warning. -/
def personNamed (name : String) (id : UInt8) : Person × List LogLine :=
  let p := Person.ofText name id
  if p.nameBytes.length < Utf8.size name then
    (p, [⟨.warn, [], "Name '" ++ name ++ "' clipped to " ++ toString Person.nameLength ++ " bytes"⟩])
  else (p, [])

/-- The record of a person, in a buffer of its length. -/
def encoded (p : Person) : Except RecordError Bytes :=
  match Record.encode p (List.replicate (Record.encodedLength p) 0) with
  | (.error e, _) => .error e
  | (.ok length, buffer) => .ok (buffer.take length)

/-- The person of a record. A failure is logged with its error code. -/
def decoded (data : Bytes) : Except Failure Person × List LogLine :=
  match Record.decodeDiagnosed Person data with
  | .ok p => (.ok p, [])
  | .error d => (.error (.record d), [⟨.debug, [("code", toString d.code)], "Decode failed"⟩])

/-- What the command takes from elsewhere to write and read texts. -/
structure Codecs where
  json : JsonCodec JsonText.Fault
  hex : HexCodec

/-- The codecs read back what they write; objects also as lines of their own, and digits without any white space
between them. -/
structure Codecs.Lawful (codecs : Codecs) : Prop where
  json : codecs.json.ReadsBack
  lines : codecs.json.ReadsLines
  hex : codecs.hex.ReadsBack
  unspaced : codecs.hex.Unspaced

/-- The codecs of the command as it runs. -/
def Codecs.standard : Codecs :=
  ⟨Person.jsonCodec, Hex.codec⟩

/-- The bytes that hexadecimal text stands for; blanks in it do not count. -/
def ofHexText (hex : HexCodec) (data : Bytes) : Except Failure Bytes :=
  match Utf8.decode data with
  | .error fault => .error (.text fault)
  | .ok text =>
    match hex.decode (Utf8.encode (String.ofList (text.toList.filter fun c => !isBlank c))) with
    | .error fault => .error (.hex fault)
    | .ok bytes => .ok bytes

/-- A person by its parts, on one line. -/
def debugLine (p : Person) : String :=
  "Person \x7b name: [" ++ ", ".intercalate (p.name.map fun b => toString b.toNat) ++ "], id: "
    ++ toString p.id.toNat ++ " \x7d"

/-- A person by its parts, one a line. -/
def debugView (p : Person) : String :=
  "Person \x7b\n    name: [\n"
    ++ String.join (p.name.map fun b => "        " ++ toString b.toNat ++ ",\n")
    ++ "    ],\n    id: " ++ toString p.id.toNat ++ ",\n\x7d"

/-- A person as text. -/
def view (json : JsonCodec JsonText.Fault) (format : ViewFormat) (p : Person) : Except Failure String :=
  match format with
  | .debug => .ok (debugView p)
  | .json =>
    match json.ofPerson .pretty p with
    | .ok text => .ok text
    | .error fault => .error (.name fault)

end CborRecords.Command
