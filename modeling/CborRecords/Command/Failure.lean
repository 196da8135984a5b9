import CborRecords.Hex
import CborRecords.JsonText.Fault
import CborRecords.Record.Diagnostic
import CborRecords.Toml.Fault

/-!
# Failures of the command

* `FileError` : why a file was not read or written;
* `Failure` : why the command did not finish, with its wording (`Failure.message`) and what it came
  from (`Failure.cause?`);
* `Failure.report` : both as the command prints them; `Failure.line` : both on one line.
-/

namespace CborRecords.Command

/-- Why a file was not read or written. -/
inductive FileError
  | notFound
  | notDirectory
  | isDirectory
  | nameTooLong
  /-- Any other reason, in the system's words. -/
  | other (message : String)
  deriving DecidableEq, Repr

/-- The wording of a file error. -/
def FileError.message : FileError → String
  | .notFound => "No such file or directory (os error 2)"
  | .notDirectory => "Not a directory (os error 20)"
  | .isDirectory => "Is a directory (os error 21)"
  | .nameTooLong => "File name too long (os error 36)"
  | .other message => message

/-- Why the command did not finish. -/
inductive Failure
  | file (e : FileError)
  /-- The input is to be hexadecimal text, but is no text. -/
  | text (fault : Utf8.Fault)
  | hex (fault : Hex.Fault)
  /-- The text is no person. -/
  | json (source : Bytes) (fault : JsonText.Fault)
  | unencodable (e : RecordError)
  /-- The input is no person's record. -/
  | record (d : Diagnostic)
  /-- A name cannot be shown as text. -/
  | name (fault : Utf8.Fault)
  | items (e : DecodeError)
  /-- No settings at the place asked for. -/
  | noSettings (path : String)
  /-- The settings at a path cannot be read. -/
  | badSettings (path source : String) (fault : Toml.Fault)
  /-- A word that is no format. -/
  | unknownFormat (word : String)
  /-- A format that is no word. -/
  | noFormat
  | logLevel (word : String)
  /-- A log level that is a list, perhaps from a file. -/
  | logLevelList (path : Option String)
  | logLevelTable
  deriving DecidableEq, Repr

namespace Failure

/-- The wording of a failure. -/
def message : Failure → String
  | .file e => e.message
  | .text fault => fault.message
  | .hex fault => fault.message
  | .json source fault => fault.located source
  | .unencodable e => e.message
  | .record _ => "Invalid person record"
  | .name _ => "Name is not valid UTF-8, try '--format debug'"
  | .items e => e.message
  | .noSettings _ | .badSettings _ _ _ => "Failed to load configuration"
  | .unknownFormat _ | .noFormat | .logLevelList _ | .logLevelTable => "Invalid configuration"
  | .logLevel word => "Invalid 'log_level' value '" ++ word ++ "'"

/-- The wording of what a failure came from, if that is another matter. -/
def cause? : Failure → Option String
  | .record d => some d.text
  | .name fault => some fault.message
  | .noSettings path => some ("configuration file \"" ++ path ++ "\" not found")
  | .badSettings path source fault => some (fault.report source ++ " in " ++ path)
  | .unknownFormat word =>
    some ("enum Format does not have variant constructor " ++ word ++ " for key `output_format`")
  | .noFormat =>
    some ("value of enum Format should be represented by either string or table with exactly one key"
      ++ " for key `output_format`")
  | .logLevelList path =>
    some ("invalid type: sequence, expected a string for key `log_level`"
      ++ ((path.map fun path => " in " ++ path).getD ""))
  | .logLevelTable => some "invalid type: map, expected a string for key `log_level`"
  | .logLevel _ =>
    some ("error parsing level filter: expected one of \"off\", \"error\", \"warn\", \"info\", "
      ++ "\"debug\", \"trace\", or a number 0-5")
  | _ => none

/-- A text with each of its lines indented. -/
def indent (text : String) : String :=
  String.ofList ("    ".toList ++ text.toList.flatMap fun c =>
    if c = '\n' then "\n    ".toList else [c])

/-- A failure as the command prints it. -/
def report (f : Failure) : String :=
  match f.cause? with
  | none => "Error: " ++ f.message
  | some cause => "Error: " ++ f.message ++ "\n\nCaused by:\n" ++ indent cause

/-- A failure on one line. -/
def line (f : Failure) : String :=
  match f.cause? with
  | none => f.message
  | some cause => f.message ++ ": " ++ cause

end Failure

end CborRecords.Command
