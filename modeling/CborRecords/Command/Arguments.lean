/-!
# Arguments

Arguments are options with or without a value, and values on their own.

* `Flag` : an option, by its long name and perhaps a letter;
* `Grammar` : the options of a command and how many values it takes on its own;
* `UsageFault` : why arguments are refused;
* `Grammar.scan` : reads arguments up to the first value that the grammar has no place for.
  `--name value`, `--name=value`, `-nvalue`, `-n value` and `-n=value` give an option its value; after
  `--` all are values on their own. No option may be given twice, and no value that follows its option
  as an argument may look like an option.
-/

namespace CborRecords.Command

/-- An option. -/
structure Flag where
  name : String
  letter : Option Char
  /-- The values it admits; an option without a value has none. -/
  admits : Option (String → Bool)

/-- Why arguments are refused. -/
inductive UsageFault
  | unexpected (argument : String)
  | missingValue (name : String)
  | unexpectedValue (name : String)
  | invalidValue (name value : String)
  | repeated (name : String)
  | missing (name : String)
  | conflict (name other : String)
  deriving DecidableEq, Repr

/-- The wording of a fault. -/
def UsageFault.message : UsageFault → String
  | .unexpected argument => "unexpected argument '" ++ argument ++ "' found"
  | .missingValue name => "a value is required for '--" ++ name ++ "' but none was supplied"
  | .unexpectedValue name => "unexpected value for '--" ++ name ++ "' found"
  | .invalidValue name value => "invalid value '" ++ value ++ "' for '--" ++ name ++ "'"
  | .repeated name => "the argument '--" ++ name ++ "' cannot be used multiple times"
  | .missing name => "the following required arguments were not provided: " ++ name
  | .conflict name other => "the argument '--" ++ name ++ "' cannot be used with '--" ++ other ++ "'"

/-- The options of a command, those that end the reading of arguments at once, and the number of
values it takes on its own. -/
structure Grammar where
  flags : List Flag
  stops : List Flag
  places : Nat

/-- What was read: the options with their values, the values on their own, and the arguments left. -/
structure Scanned where
  options : List (String × String)
  values : List String
  rest : List String
  deriving DecidableEq, Repr

namespace Scanned

/-- The value of an option; that of an option without a value is empty. -/
def get? (s : Scanned) (name : String) : Option String :=
  s.options.lookup name

/-- The option was given. -/
def has (s : Scanned) (name : String) : Bool :=
  (s.get? name).isSome

end Scanned

namespace Grammar

/-- What the reading comes to: all is read, or an option was met that ends it. -/
inductive Result
  | read (s : Scanned)
  | stopped (name : String)

/-- Where the reading stands: at an option or value, at the value of an option, or after `--`. -/
inductive Stage
  | open
  | valueOf (flag : Flag)
  | valuesOnly

/-- Adds an option. -/
def give (flag : Flag) (value : String) (s : Scanned) : Except UsageFault Scanned :=
  if s.has flag.name then .error (.repeated flag.name)
  else if (flag.admits.map fun admits => admits value).getD true then
    .ok { s with options := s.options ++ [(flag.name, value)] }
  else .error (.invalidValue flag.name value)

/-- What an argument leads to. -/
inductive Next
  | go (stage : Stage) (s : Scanned)
  | stop (name : String)

/-- An option by its long name, perhaps with a value. -/
def long (g : Grammar) (argument name : String) (value : Option String) (s : Scanned) :
    Except UsageFault Next :=
  match g.stops.find? (·.name = name), g.flags.find? (·.name = name) with
  | some _, _ => if value.isSome then .error (.unexpectedValue name) else .ok (.stop name)
  | none, none => .error (.unexpected argument)
  | none, some flag =>
    match flag.admits, value with
    | some _, none =>
      if s.has flag.name then .error (.repeated flag.name) else .ok (.go (.valueOf flag) s)
    | none, some _ => .error (.unexpectedValue name)
    | _, value => (give flag (value.getD "") s).map (.go .open)

/-- Options by their letters; the first that takes a value takes all letters after it, or the next
argument. -/
def letters (g : Grammar) (argument : String) (s : Scanned) : List Char → Except UsageFault Next
  | [] => .ok (.go .open s)
  | c :: rest =>
    match g.stops.find? (·.letter = some c), g.flags.find? (·.letter = some c) with
    | some flag, _ => .ok (.stop flag.name)
    | none, none => .error (.unexpected argument)
    | none, some flag =>
      match flag.admits, rest with
      | none, rest =>
        match give flag "" s with
        | .error fault => .error fault
        | .ok s => letters g argument s rest
      | some _, [] =>
        if s.has flag.name then .error (.repeated flag.name) else .ok (.go (.valueOf flag) s)
      | some _, '=' :: value => (give flag (String.ofList value) s).map (.go .open)
      | some _, value => (give flag (String.ofList value) s).map (.go .open)

/-- An argument that is not to be read as a value. -/
def option (g : Grammar) (argument : String) (s : Scanned) : Except UsageFault Next :=
  match argument.toList with
  | '-' :: '-' :: [] => .ok (.go .valuesOnly s)
  | '-' :: '-' :: body =>
    let name := String.ofList (body.takeWhile (· ≠ '='))
    match body.dropWhile (· ≠ '=') with
    | [] => g.long argument name none s
    | _ :: value => g.long argument name (some (String.ofList value)) s
  | _ :: body => g.letters argument s body
  | [] => .error (.unexpected argument)

/-- The argument looks like an option: it starts with a dash and is longer. -/
def looksLikeOption (argument : String) : Bool :=
  match argument.toList with
  | '-' :: _ :: _ => true
  | _ => false

/-- Reads arguments from a stage on. -/
def scanFrom (g : Grammar) : Stage → Scanned → List String → Except UsageFault Result
  | .valueOf flag, _, [] => .error (.missingValue flag.name)
  | _, s, [] => .ok (.read s)
  | .valueOf flag, s, argument :: rest =>
    if looksLikeOption argument then .error (.missingValue flag.name)
    else
      match give flag argument s with
      | .error fault => .error fault
      | .ok s => scanFrom g .open s rest
  | .open, s, argument :: rest =>
    if looksLikeOption argument then
      match g.option argument s with
      | .error fault => .error fault
      | .ok (.stop name) => .ok (.stopped name)
      | .ok (.go stage s) => scanFrom g stage s rest
    else if s.values.length < g.places then
      scanFrom g .open { s with values := s.values ++ [argument] } rest
    else .ok (.read { s with rest := argument :: rest })
  | .valuesOnly, s, argument :: rest =>
    if s.values.length < g.places then
      scanFrom g .valuesOnly { s with values := s.values ++ [argument] } rest
    else .error (.unexpected argument)

/-- Reads arguments. -/
def scan (g : Grammar) (arguments : List String) : Except UsageFault Result :=
  scanFrom g .open ⟨[], [], []⟩ arguments

end Grammar

end CborRecords.Command
