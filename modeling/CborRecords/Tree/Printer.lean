import CborRecords.Tree.Notation

/-!
# Printing items

The notation of a byte string is written while its items are read. A text grows behind what was written
before, and nothing else is kept of an item.

* `Printer.writeItems`, `Printer.writeEntries` : the items of an array, and the keys and values of a map, all
  at one cursor;
* `Printer.writeContent`, `Printer.writeItem` : an item, between its tags;
* `Printer.writeLines` : the items of a byte string, a line each;
* `Notation.formatWith` : the notation of a byte string, `Notation.format` : with the digits used here.
-/

namespace CborRecords

namespace Printer
open Notation

/-- Writes a text in quotes, a character at a time. -/
def writeText (content out : String) : String :=
  (content.toList.foldl (fun out c => out ++ String.ofList (escape c)) (out.push '"')).push '"'

/-- Writes a byte string in hexadecimal. -/
def writeBytes (hex : HexCodec) (content : Bytes) (out : String) : String :=
  out ++ String.ofList (hexadecimal hex content)

/-- Writes a chunk of text, which is read once more. -/
def writeTextChunk (chunk : Bytes) (out : String) : Except DecodeError String :=
  match Utf8.decode chunk with
  | .error fault => .error (.invalidUtf8 fault)
  | .ok content => .ok (writeText content out)

/-- Writes the chunks from the one numbered `index` on, with a comma in front of all but the first. -/
def writeChunks (write : Bytes → String → Except DecodeError String) :
    (index : Nat) → List Bytes → String → Except DecodeError String
  | _, [], out => .ok out
  | index, chunk :: rest, out =>
    match write chunk (if 0 < index then out ++ ", " else out) with
    | .error e => .error e
    | .ok out => writeChunks write (index + 1) rest out

/-- Writes the items of an array, at most `limit` of them and one more. There is a comma in front of all but
the first. -/
def writeItems (write : Item → String → Except DecodeError (String × Nat)) :
    (limit : Nat) → (first : Bool) → Cursor → String → Except DecodeError (String × Cursor)
  | limit, first, c, out =>
    match c.next? fun item => write item (out ++ if first then "" else ", ") with
    | (.error e, _) => .error e
    | (.ok none, c) => .ok (out, c)
    | (.ok (some (out, _)), c) =>
      match limit with
      | 0 => .error .notEnoughData
      | limit + 1 => writeItems write limit false c out

/-- Writes the entries of a map, at most `limit` of them and one more. Only a key may be missing, where the
map ends; a value is required behind each key. -/
def writeEntries (write : Item → String → Except DecodeError (String × Nat)) :
    (limit : Nat) → (first : Bool) → Cursor → String → Except DecodeError (String × Cursor)
  | limit, first, c, out =>
    match c.next? fun item => write item (out ++ if first then "" else ", ") with
    | (.error e, _) => .error e
    | (.ok none, c) => .ok (out, c)
    | (.ok (some (out, _)), c) =>
      match c.next fun item => write item (out ++ ": ") with
      | (.error e, _) => .error e
      | (.ok (out, _), c) =>
        match limit with
        | 0 => .error .notEnoughData
        | limit + 1 => writeEntries write limit false c out

/-- Writes the brackets of a container and what is in it, as the cursor passes over it. -/
def writeContainer (write : Item → String → Except DecodeError (String × Nat)) (c : Cursor) (out : String) :
    Except DecodeError (String × Cursor) :=
  match c.kind with
  | .array =>
    match writeItems write c.rest.length true c (out ++ if c.isDefinite then "[" else "[_ ") with
    | .error e => .error e
    | .ok (out, c) => .ok (out.push ']', c)
  | .map =>
    match writeEntries write c.rest.length true c (out ++ if c.isDefinite then "\x7b" else "\x7b_ ") with
    | .error e => .error e
    | .ok (out, c) => .ok (out.push (Char.ofNat 0x7D), c)

/-- Writes the content of an item, and gives the content as it is left. -/
def writeContent (hex : HexCodec) (write : Item → String → Except DecodeError (String × Nat))
    (content : Content) (out : String) : Except DecodeError (String × Content) :=
  match content with
  | .unsigned n => .ok (out ++ toString n.toNat, content)
  | .negative n => .ok (out ++ toString (-1 - (n.toNat : Int)), content)
  | .bytes b => .ok (writeBytes hex b out, content)
  | .byteChunks chunks =>
    match writeChunks (fun chunk out => .ok (writeBytes hex chunk out)) 0 chunks.toList (out ++ "(_ ") with
    | .error e => .error e
    | .ok out => .ok (out.push ')', content)
  | .text s => .ok (writeText s out, content)
  | .textChunks chunks =>
    match writeChunks writeTextChunk 0 chunks.toList (out ++ "(_ ") with
    | .error e => .error e
    | .ok out => .ok (out.push ')', content)
  | .container c =>
    match writeContainer write c out with
    | .error e => .error e
    | .ok (out, c) => .ok (out, .container c)
  | .bool false => .ok (out ++ "false", content)
  | .bool true => .ok (out ++ "true", content)
  | .null => .ok (out ++ "null", content)
  | .undefined => .ok (out ++ "undefined", content)
  | .simple value => .ok (out ++ "simple(" ++ toString value.toNat ++ ")", content)
  | .float x => .ok (out ++ String.ofList (number x), content)

/-- Writes tag numbers, each with a parenthesis behind it, and counts the parentheses. -/
def openTags : List UInt64 → (opened : Nat) → String → String × Nat
  | [], opened, out => (out, opened)
  | n :: rest, opened, out => openTags rest (opened + 1) (out ++ toString n.toNat ++ "(")

/-- Closes parentheses. -/
def closeTags : (opened : Nat) → String → String
  | 0, out => out
  | opened + 1, out => closeTags opened (out.push ')')

/-- Writes an item with all that is nested in it, at most `room` levels, and gives its length. -/
def writeItem (hex : HexCodec) : (room : Nat) → Item → String → Except DecodeError (String × Nat)
  | 0, _, _ => .error .maxRecursion
  | room + 1, item, out =>
    let (out, opened) := openTags item.tags.toList 0 out
    match writeContent hex (writeItem hex room) item.content out with
    | .error e => .error e
    | .ok (out, after) =>
      match item.close after with
      | .error e => .error e
      | .ok length => .ok (closeTags opened out, length)

/-- Writes the items of a byte string from `offset` on, at most `limit` of them and one more. A line ends in
front of all but the first. -/
def writeLines (hex : HexCodec) (data : Bytes) : (limit offset : Nat) → String → Except DecodeError String
  | limit, offset, out =>
    if offset < data.length then
      match Item.open? (data.drop offset) with
      | .error e => .error e
      | .ok none => .error .notEnoughData
      | .ok (some item) =>
        match writeItem hex maxHeight item (if 0 < offset then out.push '\n' else out) with
        | .error e => .error e
        | .ok (out, length) =>
          match limit with
          | 0 => .error .notEnoughData
          | limit + 1 => writeLines hex data limit (offset + length) out
    else .ok out

end Printer

/-- The notation of the items of a byte string, a line each. Every item takes a byte, so that there are no
more of them than bytes. -/
def Notation.formatWith (hex : HexCodec) (data : Bytes) : Except DecodeError String :=
  Printer.writeLines hex data data.length 0 ""

/-- The notation with two lower-case digits for each byte of a byte string. -/
def Notation.format (data : Bytes) : Except DecodeError String :=
  formatWith Hex.codec data

end CborRecords
