import CborRecords.Command.Failure
import CborRecords.Command.Invocation
import CborRecords.Decimal
import CborRecords.Log
import CborRecords.Toml.Document

/-!
# Settings

* `LogFilter` : which log lines are printed, by a number, a word or nothing;
* `Setting` : what is known of a value that was set;
* `Address` : where a value is to be set: a name, and steps into the value that it has;
* `Register` : settings by their names; `Register.addFile` and `Register.addVariables` set what a file
  and what variables say;
* `Settings` : the filter, and the form in which encoded persons are written; `Register.settings` : those
  of a register.
-/

namespace CborRecords.Command

/-- Which log lines are printed: none, or those that matter as much as a level or more. -/
inductive LogFilter
  | off
  | atLeast (level : LogLevel)
  deriving DecidableEq, Repr

namespace LogFilter

/-- The filter of a number. -/
def ofNat? : Nat → Option LogFilter
  | 0 => some .off
  | 1 => some (.atLeast .error)
  | 2 => some (.atLeast .warn)
  | 3 => some (.atLeast .info)
  | 4 => some (.atLeast .debug)
  | 5 => some (.atLeast .trace)
  | _ => none

/-- The filter of a word, in small letters. -/
def ofName? : String → Option LogFilter
  | "" => some (.atLeast .error)
  | "off" => some .off
  | "error" => some (.atLeast .error)
  | "warn" => some (.atLeast .warn)
  | "info" => some (.atLeast .info)
  | "debug" => some (.atLeast .debug)
  | "trace" => some (.atLeast .trace)
  | _ => none

/-- A number in decimal digits, perhaps with a plus sign. -/
def number? (word : String) : Option Nat :=
  match word.toList with
  | '+' :: digits => digits? digits
  | digits => digits? digits

/-- The filter of a number, or of a word in letters of either case. -/
def parse? (word : String) : Option LogFilter :=
  match (number? word).bind ofNat? with
  | some filter => some filter
  | none => ofName? (word.map Char.toLower)

/-- Whether a line of a level is printed. -/
def admits : LogFilter → LogLevel → Bool
  | .off, _ => false
  | .atLeast least, level => least.rank ≤ level.rank

end LogFilter

/-! ## Values that are set -/

/-- What is known of a value that was set. -/
inductive Setting
  | word (text : String)
  /-- A number or a boolean, by its text. -/
  | plain (text : String)
  /-- A list, and the file it stands in. -/
  | list (path : Option String)
  /-- A table, by the names in it. -/
  | table (names : List String)
  deriving DecidableEq, Repr

namespace Setting

/-- The setting of a value in a file. -/
def ofValue (path : String) : Toml.Value → Setting
  | .text content => .word content
  | .moment m => .word m.text
  | .integer n => .plain (toString n)
  | .float x => .plain x.plainText
  | .boolean b => .plain (if b then "true" else "false")
  | .beyond type _ => .plain type
  | .list _ _ => .list (some path)
  | .table _ entries => .table (entries.map (·.1))

/-- The names of a table; no other setting has any. -/
def names : Option Setting → List String
  | some (.table names) => names
  | _ => []

/-- Names with others, each of which stands once. -/
def union (names others : List String) : List String :=
  names ++ others.filter fun name => !names.contains name

end Setting

/-! ## Addresses -/

/-- A step into a value: to a name in a table, or to a place in a list. -/
inductive Step
  | key (name : String)
  | index
  deriving DecidableEq, Repr

/-- Where a value is to be set. -/
structure Address where
  name : String
  steps : List Step
  deriving DecidableEq, Repr

namespace Address

/-- The character may stand in a name. -/
def isNameChar (c : Char) : Bool :=
  c.isAlphanum || c = '_' || c = '-'

/-- A place in a list fits a signed integer of 64 bits. -/
def isIndex (chars : List Char) : Bool :=
  let isSpace (c : Char) : Bool := c = ' ' || c = '\t'
  let inside := chars.dropWhile isSpace
  let text := (inside.reverse.dropWhile isSpace).reverse
  let (negative, digits) :=
    match text with
    | '-' :: digits => (true, digits)
    | digits => (false, digits)
  let n := digits.foldl (fun n d => n * 10 + (d.toNat - 48)) 0
  !digits.isEmpty && digits.all Char.isDigit
    && n ≤ 0x7FFFFFFFFFFFFFFF + (if negative then 1 else 0)

/-- The steps of a text: a dot and a name, or a place in brackets. Each takes a character. -/
def stepsFrom : (limit : Nat) → List Char → Option (List Step)
  | _, [] => some []
  | 0, _ => none
  | limit + 1, '.' :: rest =>
    let name := rest.takeWhile isNameChar
    if name.isEmpty then none
    else (stepsFrom limit (rest.dropWhile isNameChar)).map (.key (String.ofList name) :: ·)
  | limit + 1, '[' :: rest =>
    match rest.dropWhile (· ≠ ']') with
    | _ :: after =>
      if isIndex (rest.takeWhile (· ≠ ']')) then (stepsFrom limit after).map (.index :: ·) else none
    | [] => none
  | _, _ => none

/-- The address of a text. A text that is none stands for a name as a whole. -/
def ofText (text : String) : Address :=
  let name := text.toList.takeWhile isNameChar
  match stepsFrom text.length (text.toList.dropWhile isNameChar) with
  | some steps => if name.isEmpty then ⟨text, []⟩ else ⟨String.ofList name, steps⟩
  | none => ⟨text, []⟩

end Address

/-! ## Registers -/

/-- Settings by their names. -/
abbrev Register := List (String × Setting)

namespace Register

/-- Sets a value: a table joins the table that is there, and any other value takes its place. Of a step
into a value, only the first shows: the value becomes the table or the list that the step needs. -/
def set (r : Register) (address : Address) (value : Setting) : Register :=
  let old := r.lookup address.name
  let new : Setting :=
    match address.steps, value, old with
    | .key name :: _, _, _ => .table (Setting.union (Setting.names old) [name])
    | .index :: _, _, some (.list path) => .list path
    | .index :: _, _, _ => .list none
    | [], .table names, _ => .table (Setting.union (Setting.names old) names)
    | [], _, _ => value
  (address.name, new) :: r.filter fun (name, _) => name ≠ address.name

/-- Sets what the entries of a file say. -/
def addFile (path : String) (entries : Toml.Entries) (r : Register) : Register :=
  entries.foldl (fun r (key, v) => r.set (.ofText key) (.ofValue path v)) r

/-- The beginning of the names of the command's variables, in letters of either case. -/
def variableStart : String := "mcbor_"

/-- The setting's name in the name of a variable. -/
def variableName? (name : String) : Option String :=
  let small := (name.map Char.toLower).toList
  if variableStart.toList.isPrefixOf small then some (String.ofList (small.drop variableStart.length))
  else none

/-- Sets what variables say. -/
def addVariables (environment : List (String × String)) (r : Register) : Register :=
  environment.foldl (fun r (name, word) =>
    match variableName? name with
    | some key => r.set (.ofText key) (.word word)
    | none => r) r

end Register

/-! ## Settings -/

/-- The settings. -/
structure Settings where
  filter : LogFilter
  format : WireFormat
  deriving DecidableEq, Repr

namespace Settings

/-- The format of a name. -/
def formatNamed (name : String) : Except Failure WireFormat :=
  match WireFormat.ofName? name with
  | some format => .ok format
  | none => .error (.unknownFormat name)

/-- The format of a setting, a word or a table with one name; without a setting it is binary. -/
def formatOf : Option Setting → Except Failure WireFormat
  | none => .ok .binary
  | some (.word name) | some (.table [name]) => formatNamed name
  | some _ => .error .noFormat

/-- The filter of a setting; without one warnings are printed. -/
def filterOf (setting : Option Setting) : Except Failure LogFilter :=
  let parse (word : String) : Except Failure LogFilter :=
    match LogFilter.parse? word with
    | some filter => .ok filter
    | none => .error (.logLevel word)
  match setting with
  | none => parse "warn"
  | some (.word text) | some (.plain text) => parse text
  | some (.list path) => .error (.logLevelList path)
  | some (.table _) => .error .logLevelTable

end Settings

/-- The settings of a register. The format is checked first. -/
def Register.settings (r : Register) : Except Failure Settings :=
  match Settings.formatOf (r.lookup "output_format") with
  | .error f => .error f
  | .ok format =>
    match Settings.filterOf (r.lookup "log_level") with
    | .error f => .error f
    | .ok filter => .ok ⟨filter, format⟩

end CborRecords.Command
