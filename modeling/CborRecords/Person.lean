import CborRecords.Record

/-!
# Persons

* `Person` : a name of eight bytes, padded with NUL, and an id;
* `Person.ofText` : a person of a given name, cut at a character to eight bytes;
* `Person.nameBytes`, `Person.nameText` : the name up to the first NUL;
* the layout of a person's record;
* `AnyRecord` : a record of any kind.
-/

namespace CborRecords

/-- A person: a name in eight bytes and an id. -/
structure Person where
  name : Bytes
  id : UInt8
  length_name : name.length = 8

namespace Person

/-- The number of bytes of a name. -/
def nameLength : Nat := 8

/-- The first eight bytes, padded with NUL up to eight. -/
def pad (bytes : Bytes) : Bytes :=
  bytes.take 8 ++ List.replicate (8 - bytes.length) 0

theorem length_pad (bytes : Bytes) : (pad bytes).length = 8 := by
  simp [pad]
  omega

/-- A person without a name. -/
def nobody : Person :=
  ⟨pad [], 0, length_pad []⟩

/-- The same person under another name, cut at a character to eight bytes. -/
def setName (p : Person) (name : String) : Person :=
  let bytes := Utf8.encode (Utf8.clip nameLength name)
  { p with name := pad bytes, length_name := length_pad bytes }

/-- The person of a name and an id. -/
def ofText (name : String) (id : UInt8) : Person :=
  { nobody with id := id }.setName name

/-- The name up to its first NUL. -/
def nameBytes (p : Person) : Bytes :=
  p.name.takeWhile (· ≠ 0)

/-- The name as text, if it is text. -/
def nameText (p : Person) : Except Utf8.Fault String :=
  Utf8.decode p.nameBytes

/-- The fields of a person's record. -/
def fields : List Field :=
  [⟨"name", .bytes nameLength⟩, ⟨"id", .uint .w8⟩]

/-- The layout of a person's record. -/
def schema : Schema :=
  ⟨"person", .person, fields⟩

/-- The field at an index; every index after the first is that of the id. -/
def field (p : Person) : Nat → FieldValue
  | 0 => .bytes p.name
  | _ => .uint p.id.toUInt64

/-- Sets a field, if the value is one for it. -/
def setField (p : Person) (index : Nat) (value : FieldValue) : Except Mismatch Person :=
  match index, value with
  | 0, .bytes b =>
    if h : b.length = 8 then .ok { p with name := b, length_name := h }
    else .error (.width nameLength b.length)
  | 1, .uint n =>
    if n.toNat < 256 then .ok { p with id := n.toUInt8 } else .error (.range 255 n.toNat)
  | index, value =>
    .error (.type ((fields[index]?.map fun f => f.kind.typeName).getD "nothing") value.typeName)

instance : Record Person where
  schema := schema
  blank := nobody
  field := field
  setField := setField

end Person

/-- A record of any kind. -/
inductive AnyRecord
  | person (p : Person)

namespace AnyRecord

/-- The kind of a record. -/
def key : AnyRecord → Key
  | .person _ => .person

/-- The number of bytes of an encoded record. -/
def encodedLength : AnyRecord → Nat
  | .person p => Record.encodedLength p

/-- Writes a record to the start of a buffer. -/
def encode (record : AnyRecord) (buffer : Bytes) : Except RecordError Nat × Bytes :=
  match record with
  | .person p => Record.encode p buffer

end AnyRecord

end CborRecords
