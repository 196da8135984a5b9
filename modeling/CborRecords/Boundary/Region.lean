import CborRecords.Record.Error
import CborRecords.Log

/-!
# Memory of a caller

Callers outside hand over memory by address and length, and take back a return code.

* `Region` : bytes at an address that may be missing, and the length that the caller states;
* `Region.window` : the bytes that may be read or written; `Region.update` : the memory after they
  were written;
* `Reply` : the return code, the log lines, and what the memory holds afterwards;
* `Reply.record`, `Reply.item` : the number for a result, with its log line. A call on records has the
  number of its error; a call on items has only one.
-/

namespace CborRecords.Boundary

/-- Memory that a caller hands over: what is at the address, if there is one, and a length. -/
structure Region where
  memory : Option Bytes
  length : Nat
  deriving DecidableEq, Repr

namespace Region

/-- The bytes of a region, which is called `what` if its address is missing. An empty region needs no
address. -/
def window (what : String) (region : Region) : Except RecordError Bytes :=
  if region.length = 0 then .ok []
  else
    match region.memory with
    | none => .error (.nullPointer what)
    | some bytes => .ok (bytes.take region.length)

/-- The memory after the bytes of the region were replaced by as many others. -/
def update (bytes : Bytes) (region : Region) : Option Bytes :=
  region.memory.map fun memory => bytes ++ memory.drop bytes.length

end Region

/-- What a caller gets: a return code, the log lines, and what its memory holds. -/
structure Reply (α : Type) where
  code : Int
  log : List LogLine
  output : α

/-- The greatest return code. -/
def maxCode : Nat := 0x7FFFFFFF

/-- The greatest length that a call returns. -/
def maxLength : Nat := 0xFFFFFFFF

namespace Reply
variable {α : Type}

/-- A call on records: the length or the error code. Either is in the log, under the name of
the operation. -/
def record (operation : String) (result : Except RecordError Nat) (output : α) : Reply α :=
  match result with
  | .ok length =>
    ⟨Nat.min length maxCode, [⟨.trace, [("op", operation), ("len", toString length)], "ok"⟩], output⟩
  | .error e =>
    ⟨e.code, [⟨.debug, [("op", operation), ("code", toString e.code)], e.message⟩], output⟩

/-- A call that failed in a way that has only a message. -/
def failed (message : String) (output : α) : Reply α :=
  ⟨-1, [⟨.debug, [], message⟩], output⟩

/-- A call on items: the length, or minus one with the error in the log. -/
def item (result : Except RecordError Nat) (output : α) : Reply α :=
  match result with
  | .ok length => ⟨Nat.min length maxCode, [], output⟩
  | .error e => failed e.message output

end Reply

end CborRecords.Boundary
