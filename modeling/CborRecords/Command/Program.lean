import CborRecords.Command.Convert
import CborRecords.Command.Plan
import CborRecords.Command.Settings
import CborRecords.Tree.Printer

/-!
# The command

* `loadSettings` : the settings, from the file that the arguments name, the one that a variable names,
  or the one at its usual place, which need not be there;
* `Task.plan` : what a task does, once its arguments and the settings are known, by any codecs;
* `plan` : what an invocation does: settings first, then the task;
* `Plan.execute` : how a plan ends in a world; `run` : the whole command.
-/

namespace CborRecords.Command

/-! ## Settings -/

/-- The file of settings at its usual place. -/
def usualPath : Plan String :=
  .getVariable "XDG_CONFIG_HOME" fun directory =>
    match directory.filter (·.startsWith "/") with
    | some directory => .done (directory ++ "/mcbor/mcbor.config")
    | none =>
      .getVariable "HOME" fun
        | some home => .done (home ++ "/.config/mcbor/mcbor.config")
        | none => .done "./mcbor.config"

/-- The ending of a file of settings. -/
def settingsEnding : String := "toml"

/-- The path and the content of a file of settings, by its path or its path with an ending. -/
def findSettings (path : String) : Plan (Option (String × Bytes)) :=
  .findFile path fun
    | some content => .done (some (path, content))
    | none =>
      match Path.withEnding settingsEnding path with
      | none => .done none
      | some longer => .findFile longer fun content => .done (content.map fun content => (longer, content))

/-- The register of a file of settings. A byte order mark in front does not count, and bytes
that are no text become replacement characters. -/
def readRegister (path : String) (content : Bytes) : Plan Register :=
  let body := if [0xEF, 0xBB, 0xBF].isPrefixOf content then content.drop 3 else content
  let source := Utf8.repair body
  let shown := Path.plain path
  match Toml.read source with
  | .error fault => .fail (.badSettings shown source fault)
  | .ok entries => .done (Register.addFile shown entries [])

/-- The register of a file of settings that must be there. -/
def requiredRegister (path : String) : Plan Register := do
  match ← findSettings path with
  | some (found, content) => readRegister found content
  | none => .fail (.noSettings path)

/-- The register of the settings' file, and which file that is. -/
def fileRegister (named : Option String) : Plan (Register × String) := do
  match named with
  | some path =>
    return (← requiredRegister path, "Using configuration file '" ++ path ++ "' specified on command line")
  | none =>
    match ← Plan.getVariable "MCBOR_CONFIG_FILE" .done with
    | some path =>
      return (← requiredRegister path,
        "Using configuration file '" ++ path ++ "' specified by MCBOR_CONFIG_FILE environment variable")
    | none =>
      let path ← usualPath
      let source := "Using optional configuration file '" ++ path ++ "'"
      match ← findSettings path with
      | some (found, content) => return (← readRegister found content, source)
      | none => return ([], source)

/-- The settings: those of variables go before those of the file. The result has also the source they come
from. -/
def loadSettings (named : Option String) : Plan (Settings × String) := do
  let (register, source) ← fileRegister named
  let environment ← Plan.getVariables .done
  let settings ← Plan.ofExcept (register.addVariables environment).settings
  return (settings, source)

/-! ## Tasks -/

/-- All bytes of an input. -/
def Input.read : Input → Plan Bytes
  | .standard => .readInput .done
  | .file path => .contentOf path

/-- All bytes of an input, which may be hexadecimal text. -/
def Input.readBytes (codecs : Codecs) (hex : Bool) (input : Input) : Plan Bytes := do
  let data ← input.read
  if hex then Plan.ofExcept (ofHexText codecs.hex data) else .done data

/-- Writes bytes as they are. -/
def Output.write (content : Bytes) : Output → Plan Unit
  | .standard => .print content (.done ())
  | .file path => .write path content

/-- Writes a line, which ends only on the standard output. -/
def Output.writeLine (text : String) (output : Output) : Plan Unit :=
  match output with
  | .standard => output.write (Utf8.encode (text ++ "\n"))
  | .file _ => output.write (Utf8.encode text)

/-- Logs the lines that the settings ask for. -/
def Settings.log (settings : Settings) (lines : List LogLine) : Plan Unit :=
  .logAll (lines.filter fun line => settings.filter.admits line.level)

/-- The person that is to be encoded. -/
def Subject.person (codecs : Codecs) (settings : Settings) : Subject → Plan Person
  | .named name id => do
    let (p, lines) := personNamed name id
    settings.log lines
    return p
  | .json input => do
    let text ← input.read
    match codecs.json.toPerson text with
    | .ok p => return p
    | .error fault => .fail (.json text fault)

/-- What a task does. -/
def Task.plan (codecs : Codecs) (settings : Settings) : Task → Plan Unit
  | .encode subject format output => do
    let p ← subject.person codecs settings
    match encoded p with
    | .error e => .fail (.unencodable e)
    | .ok bytes => do
      settings.log [⟨.debug, [], "Encoded " ++ debugLine p ++ " into " ++ toString bytes.length ++ " bytes"⟩]
      match format.getD settings.format with
      | .binary => output.write bytes
      | .hex => output.writeLine (codecs.hex.encode bytes)
  | .decode format hex input output => do
    let data ← input.readBytes codecs hex
    let (result, lines) := decoded data
    settings.log lines
    let p ← Plan.ofExcept result
    let text ← Plan.ofExcept (view codecs.json format p)
    output.writeLine text
  | .length name id => do
    let (p, lines) := personNamed name id
    settings.log lines
    Output.standard.writeLine (toString (Record.encodedLength p))
  | .inspect hex input output => do
    let data ← input.readBytes codecs hex
    match Notation.formatWith codecs.hex data with
    | .error e => .fail (.items e)
    | .ok text => output.writeLine text

/-- The version of the command. -/
def version : String := "0.2.0"

/-- What an invocation does, with the settings it found. -/
def plan (invocation : Invocation) : Plan Unit := do
  let (settings, source) ← loadSettings invocation.settings
  settings.log [⟨.info, [], "mcbor version " ++ version ++ " starting..."⟩, ⟨.info, [], source⟩]
  invocation.task.plan .standard settings

/-! ## The whole command -/

/-- How the command ends. -/
inductive Ending
  | finished
  | failed (failure : Failure)
  | refused (fault : UsageFault)
  deriving DecidableEq, Repr

/-- The exit code of the command. -/
def Ending.code : Ending → Nat
  | .finished => 0
  | .failed _ => 1
  | .refused _ => 2

/-- The name of the command and its version. -/
def versionText : String := "mcbor-tools " ++ version ++ "\n"

/-- How the command is used. -/
def helpText : String :=
  "\n".intercalate
    ["A CLI tool for encoding, decoding and inspecting mcbor records", "",
      "Usage: mcbor [OPTIONS] <COMMAND>", "",
      "Commands:",
      "  encode   Encode a person record",
      "  decode   Decode a person record",
      "  len      Print the encoded length of a person record",
      "  inspect  Display CBOR data in diagnostic notation",
      "  help     Print this message or the help of the given subcommand(s)", "",
      "Options:",
      "  -c, --config <FILE>  Use a custom configuration file",
      "  -h, --help           Print help",
      "  -V, --version        Print version", ""]

/-- What a request does. -/
def Request.plan : Request → Plan Unit
  | .version => .print (Utf8.encode versionText) (.done ())
  | .help => .print (Utf8.encode helpText) (.done ())
  | .run invocation => Command.plan invocation

/-- A plan in a world, with nothing printed or logged before. -/
def Plan.execute (p : Plan Unit) (world : World) : Ending × Run :=
  match p.simulate ⟨world, [], []⟩ with
  | (.ok (), run) => (.finished, run)
  | (.error failure, run) => (.failed failure, run)

/-- The command with some arguments in a world. -/
def run (arguments : List String) (world : World) : Ending × Run :=
  match Invocation.parse arguments with
  | .error fault => (.refused fault, ⟨world, [], []⟩)
  | .ok request => request.plan.execute world

end CborRecords.Command
