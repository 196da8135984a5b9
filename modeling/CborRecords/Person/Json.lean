import CborRecords.Person

/-!
# Persons as JSON

A person is shown as a JSON object of two members, a string `name` and a number `id`. How such an object is
written and read is left to a codec. What is done here is what stands between the object and the person: the
name must be text up to its first NUL, and a name that was read is cut as every name is.

* `JsonCodec` : a writer and a reader of such objects; `JsonCodec.ReadsBack`, `JsonCodec.ReadsLines` : it reads
  what it writes, also with the end of a line behind it;
* `JsonCodec.ofPerson`, `JsonCodec.toPerson` : the object of a person, and the person of an object.
-/

namespace CborRecords

/-- An object on one line, or with a line for each member. -/
inductive JsonStyle
  | compact
  | pretty
  deriving DecidableEq, Repr

/-- A way to write objects of a name and an id, and to read them. -/
structure JsonCodec (ε : Type) where
  write : JsonStyle → (name : String) → (id : UInt8) → String
  read : Bytes → Except ε (String × UInt8)

namespace JsonCodec
variable {ε : Type}

/-- What is written is read back. -/
def ReadsBack (codec : JsonCodec ε) : Prop :=
  ∀ style name id, codec.read (Utf8.encode (codec.write style name id)) = .ok (name, id)

/-- What is written is read back from a line of its own. -/
def ReadsLines (codec : JsonCodec ε) : Prop :=
  ∀ style name id, codec.read (Utf8.encode (codec.write style name id ++ "\n")) = .ok (name, id)

/-- The object of a person. Its name up to the first NUL must be text. -/
def ofPerson (codec : JsonCodec ε) (style : JsonStyle) (p : Person) : Except Utf8.Fault String :=
  match p.nameText with
  | .error fault => .error fault
  | .ok name => .ok (codec.write style name p.id)

/-- The person of an object. Only the name is made anew from its text. -/
def toPerson (codec : JsonCodec ε) (text : Bytes) : Except ε Person :=
  match codec.read text with
  | .error e => .error e
  | .ok (name, id) => .ok { Person.ofText name 0 with id := id }

end JsonCodec

end CborRecords
