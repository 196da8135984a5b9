import CborRecords.Utf8

/-!
# Errors of decoding

* `DecodeError` : why bytes are not the item that was asked for;
* `DecodeError.pieces` : the wording, fixed parts and inserted values apart, in order;
  `DecodeError.message` : the pieces joined.
-/

namespace CborRecords

/-- Why bytes cannot be decoded. -/
inductive DecodeError
  /-- The bytes end before the item does. -/
  | notEnoughData
  /-- A head with additional information that announces no argument. -/
  | invalidMinorValue (info : UInt8)
  /-- Tags and then nothing. -/
  | justTags
  /-- An item of another type. -/
  | incorrectType (expected found : String)
  /-- A chunk of another type than its string, or one that is itself in chunks. -/
  | invalidChunk
  /-- A simple value that has no meaning, or must be written in one byte. -/
  | invalidSimpleType (value : UInt8)
  /-- An integer outside the range that was asked for. -/
  | integerOverflow
  /-- A container that was left before its end. -/
  | additionalItems
  /-- A map that ends after a key. -/
  | partialMap
  /-- Containers nested too deep. -/
  | maxRecursion
  /-- Text that is not UTF-8. -/
  | invalidUtf8 (fault : Utf8.Fault)
  deriving DecidableEq, Repr

namespace DecodeError

/-- The wording of an error, fixed parts and inserted values apart. -/
def pieces : DecodeError → List String
  | .notEnoughData => ["Not enough data for encoded value"]
  | .invalidMinorValue info => ["Invalid minor-type value ", toString info.toNat]
  | .justTags => ["Tags with no following value"]
  | .incorrectType expected found => ["Incorrect type, expected ", expected, ", found ", found]
  | .invalidChunk => ["Chunked string contains an invalid chunk"]
  | .invalidSimpleType value => ["Invalid simple type ", toString value.toNat]
  | .integerOverflow => ["Integer does not fit the target type"]
  | .additionalItems => ["Array or map has additional items"]
  | .partialMap => ["Map has a key with no value"]
  | .maxRecursion => ["Maximum recursion depth reached"]
  | .invalidUtf8 fault => [fault.message]

/-- The wording of an error. -/
def message (e : DecodeError) : String :=
  String.join e.pieces

end DecodeError

end CborRecords
