import CborRecords.Command.Program

/-!
# The command line

Does what a plan asks for, with the files, streams and variables of the process.
-/

namespace CborRecords.Command

/-- The reason a file was not read or written. The system's error code may be negated. -/
def FileError.ofSystem (e : IO.Error) : FileError :=
  match e with
  | .noFileOrDirectory .. => .notFound
  | .inappropriateType _ code _ | .invalidArgument _ code _ =>
    let number := if code < 0x80000000 then code else 0 - code
    if number = 20 then .notDirectory
    else if number = 21 then .isDirectory
    else if number = 36 then .nameTooLong
    else .other (toString e)
  | _ => .other (toString e)

/-- All that a stream still holds. -/
partial def readAll (stream : IO.FS.Stream) (read : ByteArray) : IO ByteArray := do
  let block ← stream.read 65536
  if block.isEmpty then return read else readAll stream (read ++ block)

/-- The variables of the process, each a name, an equals sign and a value. -/
def variablesOfProcess : IO (List (String × String)) := do
  let content ←
    try IO.FS.readBinFile "/proc/self/environ"
    catch _ => pure .empty
  let entries := (content.toList.splitOn 0).map Utf8.repair
  return entries.map fun entry =>
    (String.ofList (entry.toList.takeWhile (· ≠ '=')),
      String.ofList ((entry.toList.dropWhile (· ≠ '=')).drop 1))

/-- The content of a file. -/
def fileContent (path : String) : IO (Except FileError Bytes) := do
  try
    let content ← IO.FS.readBinFile path
    return .ok content.toList
  catch e => return .error (FileError.ofSystem e)

/-- Does what a plan asks for. -/
def Plan.perform {α : Type} : Plan α → IO (Except Failure α)
  | .done result => return .ok result
  | .fail failure => return .error failure
  | .getVariable name next => do
    perform (next (← IO.getEnv name))
  | .getVariables next => do
    perform (next (← variablesOfProcess))
  | .readFile path next => do
    perform (next (← fileContent path))
  | .findFile path next => do
    if World.devices.contains (World.placeOf path) then perform (next none)
    else perform (next (← fileContent path).toOption)
  | .readInput next => do
    let content ← readAll (← IO.getStdin) .empty
    perform (next content.toList)
  | .writeFile path content next => do
    let answer ←
      try
        IO.FS.writeBinFile path ⟨content.toArray⟩
        pure (.ok ())
      catch e => pure (.error (FileError.ofSystem e))
    perform (next answer)
  | .print content next => do
    let output ← IO.getStdout
    output.write ⟨content.toArray⟩
    output.flush
    perform next
  | .log line next => do
    IO.eprintln line.render
    perform next

/-- Runs the command; the result is its exit code. -/
def perform (arguments : List String) : IO UInt32 := do
  let ending : Ending ←
    match Invocation.parse arguments with
    | .error fault => pure (.refused fault)
    | .ok request =>
      match ← request.plan.perform with
      | .ok () => pure .finished
      | .error failure => pure (.failed failure)
  match ending with
  | .finished => pure ()
  | .failed failure => IO.eprintln failure.report
  | .refused fault => IO.eprintln ("error: " ++ fault.message)
  return UInt32.ofNat ending.code

end CborRecords.Command

/-- The command, with the arguments of the process. -/
def main (arguments : List String) : IO UInt32 :=
  CborRecords.Command.perform arguments
