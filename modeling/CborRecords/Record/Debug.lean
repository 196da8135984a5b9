import CborRecords.Record.Diagnostic
import CborRecords.Quoted

/-!
# Structure of errors as text

The structural text of an error names the case it is and the values in it, nested as they are:
`SchemaMismatch`, then its field and its reason in braces.

* `Debug.fields`, `Debug.tuple` : a case with named values, and one with values by position;
* `debug` of `Utf8.Fault`, `DecodeError`, `Stop`, `Mismatch`, `RecordError` and `Diagnostic`.
-/

namespace CborRecords

namespace Debug

/-- A case with named values. -/
def fields (name : String) (values : List (String × String)) : String :=
  name ++ " \x7b " ++ ", ".intercalate (values.map fun (key, value) => key ++ ": " ++ value) ++ " \x7d"

/-- A case with values by position. -/
def tuple (name : String) (values : List String) : String :=
  name ++ "(" ++ ", ".intercalate values ++ ")"

end Debug

open Debug

/-- Where valid text ends, and how much of a bad character follows, if more could not mend it. -/
def Utf8.Fault.debug (fault : Utf8.Fault) : String :=
  let badLength :=
    match fault.badLength with
    | some n => tuple "Some" [toString n]
    | none => "None"
  fields "Utf8Error" [("valid_up_to", toString fault.validUpTo), ("error_len", badLength)]

/-- The structure of a decoding error. -/
def DecodeError.debug : DecodeError → String
  | .notEnoughData => "NotEnoughData"
  | .invalidMinorValue info => tuple "InvalidMinorValue" [toString info.toNat]
  | .justTags => "JustTags"
  | .incorrectType expected found =>
    tuple "IncorrectType" [Quoted.text expected, Quoted.text found]
  | .invalidChunk => "InvalidChunk"
  | .invalidSimpleType value => tuple "InvalidSimpleType" [toString value.toNat]
  | .integerOverflow => "IntegerOverflow"
  | .additionalItems => "AdditionalItems"
  | .partialMap => "PartialMap"
  | .maxRecursion => "MaxRecursion"
  | .invalidUtf8 fault => tuple "InvalidUtf8" [fault.debug]

/-- The structure of an encoding error. -/
def EncodeError.debug : EncodeError → String
  | .bufferTooSmall needed available =>
    fields "BufferTooSmall" [("needed", toString needed), ("available", toString available)]
  | .invalidSimpleValue value => tuple "InvalidSimpleValue" [toString value.toNat]

/-- The structure of what ended an encoding; a misuse has only its wording. -/
def Stop.debug : Stop → String
  | .error e => e.debug
  | .misuse m => Quoted.text m.message

/-- The structure of a mismatch. -/
def Mismatch.debug : Mismatch → String
  | .key expected found =>
    fields "Key" [("expected", toString expected), ("found", toString found)]
  | .fieldCount expected found =>
    fields "FieldCount" [("expected", toString expected), ("found", toString found)]
  | .type expected found =>
    fields "Type" [("expected", Quoted.text expected), ("found", Quoted.text found)]
  | .width expected found =>
    fields "Width" [("expected", toString expected), ("found", toString found)]
  | .tooLong max found => fields "TooLong" [("max", toString max), ("found", toString found)]
  | .range max found => fields "Range" [("max", toString max), ("found", toString found)]
  | .intRange min max found =>
    fields "IntRange" [("min", toString min), ("max", toString max), ("found", toString found)]
  | .tagged => "Tagged"
  | .indefinite => "Indefinite"
  | .utf8 => "Utf8"
  | .malformed cause => tuple "Malformed" [cause.debug]

/-- The structure of a record error. -/
def RecordError.debug : RecordError → String
  | .capacity needed available =>
    fields "Capacity" [("needed", toString needed), ("available", toString available)]
  | .truncated field => fields "Truncated" [("field", Quoted.text field)]
  | .schemaMismatch field reason =>
    fields "SchemaMismatch" [("field", Quoted.text field), ("reason", reason.debug)]
  | .trailingData count => tuple "TrailingData" [toString count]
  | .invalidKey n => tuple "InvalidKey" [toString n]
  | .nullPointer what => tuple "NullPointer" [Quoted.text what]
  | .unencodable cause => tuple "Unencodable" [cause.debug]

/-- The structure of a diagnostic: the error, and the text it was cut to. -/
def Diagnostic.debug (d : Diagnostic) : String :=
  fields "Diagnostic" [("error", d.error.debug), ("message", Quoted.text d.text)]

end CborRecords
