/-!
# Errors of encoding

* `EncodeError` : why a value was not written, with its wording (`EncodeError.pieces`,
  `EncodeError.message`);
* `Misuse` : a definite array or map that was given another number of items than announced, which
  ends everything; `Misuse.message` : its wording;
* `Stop` : either of them.
-/

namespace CborRecords

/-- Why a value was not written. -/
inductive EncodeError
  /-- The buffer ends before what is to be written does. -/
  | bufferTooSmall (needed available : Nat)
  /-- A simple value that is a boolean, null, undefined, or reserved. -/
  | invalidSimpleValue (value : UInt8)
  deriving DecidableEq, Repr

namespace EncodeError

/-- The wording of an error, fixed parts and inserted values apart. -/
def pieces : EncodeError → List String
  | .bufferTooSmall needed available =>
    ["Buffer too small for encoded value: need ", toString needed, " bytes, have ",
      toString available]
  | .invalidSimpleValue value =>
    ["Invalid simple value ", toString value.toNat, ", use bool, Null or Undefined"]

/-- The wording of an error. -/
def message (e : EncodeError) : String :=
  String.join e.pieces

end EncodeError

/-- A definite array or map with another number of items than announced, counted in items, two for
each pair of a map. -/
inductive Misuse
  | tooManyItems
  | missingItems (found expected : Nat)
  deriving DecidableEq, Repr

/-- The wording of a misuse. -/
def Misuse.message : Misuse → String
  | .tooManyItems => "Too many items added to definite length sequence"
  | .missingItems found expected =>
    "Definite length sequence is short of items: " ++ toString found ++ ", expected "
      ++ toString expected

/-- What ends the writing of a value: an error, after which its caller may go on, or a misuse. -/
inductive Stop
  | error (e : EncodeError)
  | misuse (m : Misuse)
  deriving DecidableEq, Repr

end CborRecords
