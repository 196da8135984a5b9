import CborRecords.Decode.Error
import CborRecords.Encode.Error

/-!
# Errors of records

* `Mismatch` : how an item differs from what a schema asks for;
* `RecordError` : why a record was not encoded or decoded, with a negative error code for callers
  across the boundary (`RecordError.code`);
* `pieces`, `message` : the wording of both, fixed parts and inserted values apart, and joined;
* `RecordError.ofDecode`, `RecordError.ofStop` : the error that a failure of the item decoder in a
  field, or of the encoder, amounts to.
-/

namespace CborRecords

/-- How an item differs from what was asked for. -/
inductive Mismatch
  | key (expected found : Nat)
  | fieldCount (expected found : Nat)
  | type (expected found : String)
  | width (expected found : Nat)
  | tooLong (max found : Nat)
  | range (max found : Nat)
  | intRange (min max found : Int)
  | tagged
  | indefinite
  | utf8
  /-- Not a well-formed item at all. -/
  | malformed (cause : DecodeError)
  deriving DecidableEq, Repr

namespace Mismatch

/-- The wording of a mismatch, fixed parts and inserted values apart. -/
def pieces : Mismatch → List String
  | .key expected found => ["expected key ", toString expected, ", found ", toString found]
  | .fieldCount expected found =>
    ["expected an array of ", toString expected, " items, found ", toString found]
  | .type expected found => ["expected ", expected, ", found ", found]
  | .width expected found => ["expected ", toString expected, " bytes, found ", toString found]
  | .tooLong max found => ["expected at most ", toString max, " bytes, found ", toString found]
  | .range max found => ["value ", toString found, " exceeds maximum ", toString max]
  | .intRange min max found =>
    ["value ", toString found, " outside ", toString min, "..=", toString max]
  | .tagged => ["tagged items are not permitted"]
  | .indefinite => ["indefinite-length items are not permitted"]
  | .utf8 => ["text is not valid UTF-8"]
  | .malformed cause => cause.pieces

/-- The wording of a mismatch. -/
def message (m : Mismatch) : String :=
  String.join m.pieces

end Mismatch

/-- Why a record was not encoded or decoded. -/
inductive RecordError
  /-- The buffer is too small. -/
  | capacity (needed available : Nat)
  /-- The input ends inside a field. -/
  | truncated (field : String)
  /-- An item is not what the schema asks for. -/
  | schemaMismatch (field : String) (reason : Mismatch)
  /-- Bytes follow the record. -/
  | trailingData (count : Nat)
  /-- An id that is of no key. -/
  | invalidKey (n : Nat)
  /-- An address is missing. -/
  | nullPointer (what : String)
  /-- A value has no encoding. -/
  | unencodable (cause : Stop)
  deriving DecidableEq, Repr

/-- The wording of what ended an encoding, fixed parts and inserted values apart. -/
def Stop.pieces : Stop → List String
  | .error e => e.pieces
  | .misuse m => [m.message]

namespace RecordError

/-- The wording of an error, fixed parts and inserted values apart. -/
def pieces : RecordError → List String
  | .capacity needed available =>
    ["Buffer too small: need ", toString needed, " bytes, have ", toString available]
  | .truncated field => ["Input truncated while reading ", field]
  | .schemaMismatch field reason => ["Schema mismatch in ", field, ": "] ++ reason.pieces
  | .trailingData count => [toString count, " bytes of trailing data after record"]
  | .invalidKey n => ["Invalid record key ", toString n]
  | .nullPointer what => ["Null ", what, " pointer"]
  | .unencodable cause => "Record is not encodable: " :: cause.pieces

/-- The wording of an error. -/
def message (e : RecordError) : String :=
  String.join e.pieces

/-- The error code of a buffer that is too small. -/
def capacityCode : Int := -1

/-- The error code of truncated input. -/
def truncatedCode : Int := -2

/-- The error code of a schema mismatch. -/
def schemaCode : Int := -3

/-- The error code of trailing data. -/
def trailingCode : Int := -4

/-- The error code of an invalid argument. -/
def argumentCode : Int := -5

/-- The error code of an error. -/
def code : RecordError → Int
  | .capacity _ _ => capacityCode
  | .truncated _ => truncatedCode
  | .schemaMismatch _ _ => schemaCode
  | .trailingData _ => trailingCode
  | .invalidKey _ => argumentCode
  | .nullPointer _ => argumentCode
  | .unencodable _ => argumentCode

/-- What a failure of the item decoder inside a field amounts to. -/
def ofDecode (field : String) : DecodeError → RecordError
  | .notEnoughData => .truncated field
  | .invalidUtf8 _ => .schemaMismatch field .utf8
  | e => .schemaMismatch field (.malformed e)

/-- The name under which failures outside any field are reported. -/
def header : String := "header"

/-- What a failure of the encoder amounts to. -/
def ofStop : Stop → RecordError
  | .error (.bufferTooSmall needed available) => .capacity needed available
  | stop => .unencodable stop

end RecordError

end CborRecords
