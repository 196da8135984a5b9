import CborRecords.Value

/-!
# Schemas of records

* `Key` : the kinds of records, each with an id and a name;
* `FieldKind`, `Field`, `Schema` : the fields of a record in the order they are encoded;
* `FieldValue` : a value of a field, `FieldValue.value` : how it is encoded.
-/

namespace CborRecords

/-- A kind of record. -/
inductive Key
  | person
  deriving DecidableEq, Repr

namespace Key

/-- All kinds. -/
def all : List Key := [.person]

/-- The id of a key. -/
def id : Key → UInt32
  | .person => 0

/-- The name of a kind. -/
def name : Key → String
  | .person => "person"

end Key

/-- What a field may hold: an integer of a width, a boolean, bytes of an exact number, or text of at
most so many bytes. -/
inductive FieldKind
  | uint (width : Width)
  | int (width : Width)
  | bool
  | bytes (size : Nat)
  | text (most : Nat)
  deriving DecidableEq, Repr

/-- The name of the type that a kind of field asks for. -/
def FieldKind.typeName : FieldKind → String
  | .uint _ => "Unsigned Integer"
  | .int _ => "Integer"
  | .bool => "Boolean"
  | .bytes _ => "Definite-length Byte String"
  | .text _ => "Definite-length Text String"

/-- A field of a record. -/
structure Field where
  name : String
  kind : FieldKind
  deriving DecidableEq, Repr

/-- The layout of a record: a name for messages, its kind, and its fields in order. -/
structure Schema where
  name : String
  key : Key
  fields : List Field
  deriving DecidableEq, Repr

/-- The version of the layouts. -/
def Schema.version : Nat := 2

/-- The number of items of an encoded record: the key and the fields. -/
def Schema.itemCount (schema : Schema) : Nat :=
  schema.fields.length + 1

/-- A value of a field. -/
inductive FieldValue
  | uint (n : UInt64)
  | int (n : Int64)
  | bool (b : Bool)
  | bytes (content : Bytes)
  | text (content : String)
  deriving DecidableEq, Repr

namespace FieldValue

/-- The name of a value's type. -/
def typeName : FieldValue → String
  | .uint _ => "Unsigned Integer"
  | .int _ => "Integer"
  | .bool _ => "Boolean"
  | .bytes _ => "Definite-length Byte String"
  | .text _ => "Definite-length Text String"

/-- How a field's value is encoded. -/
def value : FieldValue → Value
  | .uint n => .unsigned n
  | .int n => .signed n
  | .bool b => .bool b
  | .bytes content => .bytes content
  | .text content => .text content

end FieldValue

end CborRecords
