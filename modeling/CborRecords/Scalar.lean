import CborRecords.Cursor
import CborRecords.Width

/-!
# Scalars read as a type

* `ScalarType` : an integer type, floats or booleans; `Scalar` : a value of one of them;
* `Item.scalar` : an item's value as a type;
* `ScalarType.read?` : the scalar at the front of a byte string, whether its whole form is the
  shortest, and its length; `ScalarType.read` : the same, with an item required;
* `Cursor.scalar?`, `Cursor.scalar` : the scalar at a cursor.
-/

namespace CborRecords

/-- A type of scalars. -/
inductive ScalarType
  | int (t : IntType)
  | float
  | bool
  deriving DecidableEq, Repr

/-- A scalar that was read. -/
inductive Scalar
  | int (n : Int)
  | float (x : Double)
  | bool (b : Bool)
  deriving DecidableEq, Repr

namespace Item

/-- An integer without a sign, of at most 64 bits. -/
def unsigned64 (item : Item) : Except DecodeError Int :=
  match item.content with
  | .unsigned n => .ok n.toNat
  | _ => .error (.incorrectType "Unsigned Integer" item.typeName)

/-- An integer with a sign, of at most 64 bits. -/
def signed64 (item : Item) : Except DecodeError Int :=
  match item.content with
  | .unsigned n => if n.toNat < 0x8000000000000000 then .ok n.toNat else .error .integerOverflow
  | .negative n => if n.toNat < 0x8000000000000000 then .ok (-1 - n.toNat) else .error .integerOverflow
  | _ => .error (.incorrectType "Integer" item.typeName)

/-- An integer of a type. -/
def integer (t : IntType) (item : Item) : Except DecodeError Int :=
  match if t.signed then item.signed64 else item.unsigned64 with
  | .error e => .error e
  | .ok n => if t.contains n then .ok n else .error .integerOverflow

/-- The item's value as a type. -/
def scalar (t : ScalarType) (item : Item) : Except DecodeError Scalar :=
  match t with
  | .int t =>
    match item.integer t with
    | .error e => .error e
    | .ok n => .ok (.int n)
  | .float =>
    match item.content with
    | .float x => .ok (.float x)
    | _ => .error (.incorrectType "Float" item.typeName)
  | .bool =>
    match item.content with
    | .bool b => .ok (.bool b)
    | _ => .error (.incorrectType "Boolean" item.typeName)

end Item

namespace ScalarType

/-- The scalar at the front of a byte string, whether it has the shortest form and no tags, and its
length; nothing when the string is empty. -/
def read? (t : ScalarType) (data : Bytes) : Except DecodeError (Option (Scalar × Bool × Nat)) :=
  match Item.open? data with
  | .error e => .error e
  | .ok none => .ok none
  | .ok (some item) =>
    match item.scalar t with
    | .error e => .error e
    | .ok value => .ok (some (value, item.shortest && item.tags.isEmpty, item.size))

/-- The scalar at the front of a byte string that is not empty. -/
def read (t : ScalarType) (data : Bytes) : Except DecodeError (Scalar × Bool × Nat) :=
  Cursor.require (t.read? data)

end ScalarType

namespace Cursor

/-- The scalar at the cursor; nothing at the end. -/
def scalar? (t : ScalarType) (c : Cursor) : Except DecodeError (Option Scalar) × Cursor :=
  let visit (item : Item) : Except DecodeError (Scalar × Nat) :=
    match item.scalar t with
    | .error e => .error e
    | .ok value => .ok (value, item.size)
  match c.next? visit with
  | (.error e, c) => (.error e, c)
  | (.ok none, c) => (.ok none, c)
  | (.ok (some (value, _)), c) => (.ok (some value), c)

/-- The scalar at the cursor. -/
def scalar (t : ScalarType) (c : Cursor) : Except DecodeError Scalar × Cursor :=
  let (result, c) := c.scalar? t
  (require result, c)

end Cursor

/-! ## Heads of containers -/

/-- The head of a container alone: the number of entries, if definite, and the length of the head. -/
def Container.readHead (kind : Container) (data : Bytes) : Except DecodeError (Option UInt64 × Nat) :=
  match data with
  | [] => .error .notEnoughData
  | initial :: rest =>
    if Head.major initial ≠ kind.major then
      .error (.incorrectType kind.name (Head.major initial).name)
    else if Head.info initial = 31 then .ok (none, 1)
    else
      match Argument.read (Head.info initial) rest with
      | .error e => .error e
      | .ok argument => .ok (some argument.value, 1 + argument.size)

end CborRecords
