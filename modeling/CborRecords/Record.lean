import CborRecords.Schema
import CborRecords.Cursor
import CborRecords.Record.Diagnostic

/-!
# Records

A record is encoded as an array of a definite length: the id of its key, and its fields in the
order of its schema.

* `Record` : a type of records, by its schema and its fields;
* `Record.encode`, `Record.encodedLength` : to bytes;
* `Record.decodePrefix`, `Record.decode`, `Record.decodeDiagnosed` : from bytes. Every failure is
  attributed to the field where it was met;
* `Row` : a record that holds a list of field values as they are.
-/

namespace CborRecords

/-- A type of records: their layout, the record that fields are set in, and its fields by index. -/
class Record (ρ : Type) where
  schema : Schema
  blank : ρ
  field : ρ → Nat → FieldValue
  setField : ρ → Nat → FieldValue → Except Mismatch ρ

/-! ## Encoding -/

namespace Record
variable {ρ : Type} [Record ρ]

/-- The record as a value: the id of its key, then its fields. -/
def value (record : ρ) : Value :=
  let s := schema ρ
  .container .array (some (UInt64.ofNat s.itemCount))
    (.unsigned s.key.id.toUInt64 ::
      (List.range s.fields.length).map fun index => (field record index).value)

/-- The number of bytes of an encoded record. -/
def encodedLength (record : ρ) : Nat :=
  ((value record).emit (.counter 0)).2.position

/-- Writes a record to the start of a buffer. The result has the number of bytes written and the
buffer. -/
def encode (record : ρ) (buffer : Bytes) : Except RecordError Nat × Bytes :=
  match (value record).encode buffer with
  | (.ok length, buffer) => (.ok length, buffer)
  | (.error stop, buffer) => (.error (.ofStop stop), buffer)

end Record

/-! ## Decoding -/

/-- An integer with a sign in a field of a width; the integer as it was written is in the mismatch. -/
def FieldKind.acceptInt (width : Width) (n : Int) : Except Mismatch FieldValue :=
  if width.minSigned ≤ n ∧ n ≤ width.maxSigned then .ok (.int (Int64.ofInt n))
  else .error (.intRange width.minSigned width.maxSigned n)

/-- The value that content stands for in a field of a kind. -/
def FieldKind.accept (kind : FieldKind) (content : Content) : Except Mismatch FieldValue :=
  match kind, content with
  | .uint width, .unsigned n =>
    if width.maxUnsigned < n.toNat then .error (.range width.maxUnsigned n.toNat)
    else .ok (.uint n)
  | .int width, .unsigned n => acceptInt width n.toNat
  | .int width, .negative n => acceptInt width (-1 - n.toNat)
  | .bool, .bool b => .ok (.bool b)
  | .bytes size, .bytes b =>
    if b.length = size then .ok (.bytes b) else .error (.width size b.length)
  | .text most, .text s =>
    if most < Utf8.size s then .error (.tooLong most (Utf8.size s)) else .ok (.text s)
  | .bytes _, .byteChunks _ => .error .indefinite
  | .text _, .textChunks _ => .error .indefinite
  | kind, content => .error (.type kind.typeName content.typeName)

namespace Record

/-- How deep the containers in a field are followed. No field holds one, but one is read to its end,
so that input that ends inside it is reported as such. -/
def maxNesting : Nat := 16

/-- Reads an item for a field: its value or how it differs, and its length. Its type is named as it
stood before it was read through. -/
def visitField (kind : FieldKind) (item : Item) :
    Except DecodeError (Except Mismatch FieldValue × Nat) :=
  match item.content.skip maxNesting with
  | .error e => .error e
  | .ok after =>
    match item.close after with
    | .error e => .error e
    | .ok length =>
      let verdict :=
        if item.tags.isEmpty then
          match item.content with
          | .container _ => .error (.type kind.typeName item.typeName)
          | content => kind.accept content
        else .error .tagged
      .ok (verdict, length)

/-- Reads the field at the cursor. -/
def readField (name : String) (kind : FieldKind) (c : Cursor) : Except RecordError (FieldValue × Cursor) :=
  match c.next (visitField kind) with
  | (.error e, _) => .error (.ofDecode name e)
  | (.ok (.error reason, _), _) => .error (.schemaMismatch name reason)
  | (.ok (.ok value, _), c) => .ok (value, c)

/-- Reads the key of the record. -/
def readKey (key : Key) (c : Cursor) : Except RecordError Cursor :=
  match readField "key" (.uint .w64) c with
  | .error e => .error e
  | .ok (.uint found, c) =>
    if found.toNat = key.id.toNat then .ok c
    else .error (.schemaMismatch "key" (.key key.id.toNat found.toNat))
  | .ok (value, _) => .error (.schemaMismatch "key" (.type "Unsigned Integer" value.typeName))

variable {ρ : Type} [Record ρ]

/-- Reads fields from the one numbered `index` on and sets them in a record. -/
def readFields (index : Nat) (fields : List Field) (record : ρ) (c : Cursor) :
    Except RecordError (ρ × Cursor) :=
  match fields with
  | [] => .ok (record, c)
  | f :: rest =>
    match readField f.name f.kind c with
    | .error e => .error e
    | .ok (value, c) =>
      match setField record index value with
      | .error reason => .error (.schemaMismatch f.name reason)
      | .ok record => readFields (index + 1) rest record c

/-- Reads the items of a record's array. -/
def readItems (c : Cursor) : Except RecordError (ρ × Cursor) :=
  match readKey (schema ρ).key c with
  | .error e => .error e
  | .ok c => readFields 0 (schema ρ).fields blank c

/-- The array that an item must be to hold a record of a schema. -/
def openArray (schema : Schema) (item : Item) : Except RecordError Cursor :=
  let mismatch (reason : Mismatch) : Except RecordError Cursor :=
    .error (.schemaMismatch schema.name reason)
  if item.tags.isEmpty then
    match item.content with
    | .container ⟨.array, count, rest, offset, parsed⟩ =>
      match count with
      | none => mismatch .indefinite
      | some found =>
        if found = schema.itemCount then .ok ⟨.array, count, rest, offset, parsed⟩
        else mismatch (.fieldCount schema.itemCount found)
    | content => mismatch (.type "Definite-length Array" content.typeName)
  else mismatch .tagged

variable (ρ)

/-- The record at the front of a byte string, and its length. -/
def decodePrefix (data : Bytes) : Except RecordError (ρ × Nat) :=
  match Item.open? data with
  | .error e => .error (.ofDecode RecordError.header e)
  | .ok none => .error (.truncated RecordError.header)
  | .ok (some item) =>
    match openArray (schema ρ) item with
    | .error e => .error e
    | .ok c =>
      match readItems c with
      | .error e => .error e
      | .ok (record, c) =>
        match c.close with
        | .error e => .error (.ofDecode RecordError.header e)
        | .ok length => .ok (record, length)

/-- The record that a byte string is. -/
def decode (data : Bytes) : Except RecordError ρ :=
  match decodePrefix ρ data with
  | .error e => .error e
  | .ok (record, length) =>
    if length < data.length then .error (.trailingData (data.length - length)) else .ok record

/-- The record that a byte string is, or a diagnostic. -/
def decodeDiagnosed (data : Bytes) : Except Diagnostic ρ :=
  match decode ρ data with
  | .error e => .error (.ofError e)
  | .ok record => .ok record

end Record

/-! ## Rows -/

/-- A record of a schema that holds field values as they are. -/
structure Row (schema : Schema) where
  values : List FieldValue
  deriving DecidableEq, Repr

instance (s : Schema) : Record (Row s) where
  schema := s
  blank := ⟨[]⟩
  field row index := row.values.getD index (.uint 0)
  setField row index value := .ok ⟨row.values.take index ++ value :: row.values.drop (index + 1)⟩

end CborRecords
