import CborRecords.Boundary.Region
import CborRecords.Person

/-!
# Records across the boundary

* `recordLength`, `encodeRecord` : a record by the id of its key;
* `encodePerson` : a person;
* `decodePerson` : a person in place of the one at an address, which a failure leaves as it is;
* `explainPerson` : the same, with the message of a failure in memory of the caller.
-/

namespace CborRecords.Boundary

/-- The person in a region, to be put in place of another, and the length of the region. -/
def readPerson (place : Option Person) (src : Region) : Except RecordError (Person × Nat) :=
  match place with
  | none => .error (.nullPointer "dst")
  | some _ =>
    match src.window "bytes" with
    | .error e => .error e
    | .ok data =>
      match Record.decode Person data with
      | .error e => .error e
      | .ok p => .ok (p, data.length)

/-- Decodes a person from a region to an address. -/
def decodePerson (place : Option Person) (src : Region) : Reply (Option Person) :=
  let operation := "decode_person"
  match readPerson place src with
  | .error e => .record operation (.error e) place
  | .ok (p, length) => .record operation (.ok length) (some p)

/-- What a call that explains its failures leaves behind. -/
structure Explained where
  place : Option Person
  message : Option Bytes
  length : Nat

/-- Decodes a person from a region to an address. The start of the message of a failure that fits goes
to the region `dst`, and its length to where that of `dst` stood, which must have an address. -/
def explainPerson (place : Option Person) (dst : Region) (hasLength : Bool) (src : Region) :
    Reply Explained :=
  let operation := "decode_person_w_errmsg"
  if hasLength then
    match readPerson place src with
    | .ok (p, length) => .record operation (.ok length) ⟨some p, dst.memory, 0⟩
    | .error e =>
      match dst.window "errmsg" with
      | .error _ => .record operation (.error e) ⟨place, dst.memory, 0⟩
      | .ok window =>
        let (length, window) := (Diagnostic.ofError e).copyTo window
        .record operation (.error e) ⟨place, dst.update window, length⟩
  else .record operation (.error (.nullPointer "errmsg_len")) ⟨place, dst.memory, dst.length⟩

end CborRecords.Boundary
