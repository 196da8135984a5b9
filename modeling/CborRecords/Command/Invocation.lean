import CborRecords.Command.Arguments

/-!
# Invocations

* `Input`, `Output` : a file or a standard stream;
* `Task` : what the command is asked to do; `Invocation` : a task and where its settings are;
* `Invocation.parse` : the request that arguments make.
-/

namespace CborRecords.Command

/-- Where bytes come from. -/
inductive Input
  | standard
  | file (path : String)
  deriving DecidableEq, Repr

/-- A dash is the standard input. -/
def Input.ofArgument (argument : String) : Input :=
  if argument = "-" then .standard else .file argument

/-- Where bytes go. -/
inductive Output
  | standard
  | file (path : String)
  deriving DecidableEq, Repr

/-- A dash, or nothing, is the standard output. -/
def Output.ofArgument (argument : String) : Output :=
  if argument.isEmpty ∨ argument = "-" then .standard else .file argument

/-- The form in which an encoded person is written. -/
inductive WireFormat
  | binary
  | hex
  deriving DecidableEq, Repr

/-- The form of a name. -/
def WireFormat.ofName? : String → Option WireFormat
  | "binary" => some .binary
  | "hex" => some .hex
  | _ => none

/-- The form in which a decoded person is written. -/
inductive ViewFormat
  | json
  | debug
  deriving DecidableEq, Repr

/-- The form of a name. -/
def ViewFormat.ofName? : String → Option ViewFormat
  | "json" => some .json
  | "debug" => some .debug
  | _ => none

/-- The person to be encoded: by name and id, or as JSON. -/
inductive Subject
  | named (name : String) (id : UInt8)
  | json (input : Input)
  deriving DecidableEq, Repr

/-- What the command is asked to do. -/
inductive Task
  | encode (subject : Subject) (format : Option WireFormat) (output : Output)
  | decode (format : ViewFormat) (hex : Bool) (input : Input) (output : Output)
  | length (name : String) (id : UInt8)
  | inspect (hex : Bool) (input : Input) (output : Output)
  deriving DecidableEq, Repr

/-- A task, and the settings file named with it. -/
structure Invocation where
  settings : Option String
  task : Task
  deriving DecidableEq, Repr

/-- What arguments ask for. -/
inductive Request
  | run (invocation : Invocation)
  | version
  | help
  deriving DecidableEq, Repr

/-! ## Values of options -/

/-- The number of decimal digits, of which there must be one. -/
def digits? (digits : List Char) : Option Nat :=
  if digits.isEmpty ∨ ¬ digits.all Char.isDigit then none
  else some (digits.foldl (fun n d => n * 10 + (d.toNat - 48)) 0)

/-- A number with a sign or zeros in front; with a minus sign it must be zero. -/
def signed? (text : String) : Option Nat :=
  match text.toList with
  | '+' :: digits => digits? digits
  | '-' :: digits => (digits? digits).filter (· = 0)
  | digits => digits? digits

/-- A number below 256, with a sign or zeros in front. -/
def number? (text : String) : Option UInt8 :=
  match signed? text with
  | some n => if n < 256 then some (UInt8.ofNat n) else none
  | none => none

/-! ## The grammars -/

def configFlag : Flag := ⟨"config", some 'c', some fun path => !path.isEmpty⟩
def helpFlag : Flag := ⟨"help", some 'h', none⟩
def versionFlag : Flag := ⟨"version", some 'V', none⟩
def nameFlag : Flag := ⟨"name", none, some fun _ => true⟩
def idFlag : Flag := ⟨"id", none, some fun text => (number? text).isSome⟩
def jsonFlag : Flag := ⟨"json", none, some fun _ => true⟩
def wireFlag : Flag := ⟨"format", none, some fun name => (WireFormat.ofName? name).isSome⟩
def viewFlag : Flag := ⟨"format", none, some fun name => (ViewFormat.ofName? name).isSome⟩
def hexFlag : Flag := ⟨"hex", none, none⟩
def outputFlag : Flag := ⟨"output", some 'o', some fun _ => true⟩

/-- The arguments in front of the name of a task. -/
def outerGrammar : Grammar := ⟨[configFlag], [helpFlag, versionFlag], 0⟩

/-- The arguments after the name of a task. -/
def taskGrammar (flags : List Flag) (places : Nat) : Grammar :=
  ⟨configFlag :: flags, [helpFlag], places⟩

/-! ## Tasks -/

/-- Where the result goes. -/
def outputOf (s : Scanned) : Output :=
  ((s.get? "output").map Output.ofArgument).getD .standard

/-- The id of the person, zero by default. -/
def idOf (s : Scanned) : UInt8 :=
  ((s.get? "id").bind number?).getD 0

/-- The input that must be there. -/
def inputOf (s : Scanned) : Except UsageFault Input :=
  match s.values with
  | value :: _ => .ok (.ofArgument value)
  | [] => .error (.missing "<INPUT>")

/-- A name or JSON, and not both. -/
def encodeTask (s : Scanned) : Except UsageFault Task :=
  let format := (s.get? "format").bind WireFormat.ofName?
  match s.get? "name", s.get? "json" with
  | some _, some _ => .error (.conflict "name" "json")
  | none, none => .error (.missing "--name <NAME>")
  | some name, none => .ok (.encode (.named name (idOf s)) format (outputOf s))
  | none, some path =>
    if s.has "id" then .error (.conflict "id" "json")
    else .ok (.encode (.json (.ofArgument path)) format (outputOf s))

/-- A record to be shown as JSON, unless another form is given. -/
def decodeTask (s : Scanned) : Except UsageFault Task :=
  let format := ((s.get? "format").bind ViewFormat.ofName?).getD .json
  match inputOf s with
  | .error fault => .error fault
  | .ok input => .ok (.decode format (s.has "hex") input (outputOf s))

/-- A name, which may be missing, and an id. -/
def lengthTask (s : Scanned) : Except UsageFault Task :=
  .ok (.length ((s.get? "name").getD "") (idOf s))

/-- Items to be shown. -/
def inspectTask (s : Scanned) : Except UsageFault Task :=
  match inputOf s with
  | .error fault => .error fault
  | .ok input => .ok (.inspect (s.has "hex") input (outputOf s))

/-- The grammar of a task and how it is made, by its name. -/
def task? : String → Option (Grammar × (Scanned → Except UsageFault Task))
  | "encode" => some (taskGrammar [nameFlag, idFlag, jsonFlag, wireFlag, outputFlag] 0, encodeTask)
  | "decode" => some (taskGrammar [viewFlag, hexFlag, outputFlag] 1, decodeTask)
  | "len" => some (taskGrammar [nameFlag, idFlag] 0, lengthTask)
  | "inspect" => some (taskGrammar [hexFlag, outputFlag] 1, inspectTask)
  | _ => none

namespace Invocation

/-- The request of the arguments after the name of a task. Settings named here go before those named
in front of it. -/
def parseTask (outer : Option String) (g : Grammar) (make : Scanned → Except UsageFault Task)
    (arguments : List String) : Except UsageFault Request :=
  match g.scan arguments with
  | .error fault => .error fault
  | .ok (.stopped _) => .ok .help
  | .ok (.read s) =>
    match s.rest with
    | argument :: _ => .error (.unexpected argument)
    | [] =>
      match make s with
      | .error fault => .error fault
      | .ok task => .ok (.run ⟨(s.get? "config").or outer, task⟩)

/-- The request for help, perhaps on one task. -/
def parseHelp : List String → Except UsageFault Request
  | [] => .ok .help
  | name :: rest =>
    if (task? name).isNone ∧ name ≠ "help" then .error (.unexpected name)
    else
      match rest with
      | [] => .ok .help
      | argument :: _ => .error (.unexpected argument)

/-- The request that arguments make. -/
def parse (arguments : List String) : Except UsageFault Request :=
  match outerGrammar.scan arguments with
  | .error fault => .error fault
  | .ok (.stopped name) => .ok (if name = "version" then .version else .help)
  | .ok (.read s) =>
    match s.rest with
    | [] => .error (.missing "<COMMAND>")
    | name :: rest =>
      match task? name with
      | some (g, make) => parseTask (s.get? "config") g make rest
      | none => if name = "help" then parseHelp rest else .error (.unexpected name)

end Invocation

end CborRecords.Command
