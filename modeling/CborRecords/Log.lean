/-!
# Log lines

* `LogLine` : a level, values with their names, and a message; `LogLine.render` : the line as text.
-/

namespace CborRecords

/-- How much a log line matters. -/
inductive LogLevel
  | trace
  | debug
  | info
  | warn
  | error
  deriving DecidableEq, Repr

/-- The name of a level. -/
def LogLevel.name : LogLevel → String
  | .trace => "TRACE"
  | .debug => "DEBUG"
  | .info => "INFO"
  | .warn => "WARN"
  | .error => "ERROR"

/-- The order of levels: the greater, the more a line matters. -/
def LogLevel.rank : LogLevel → Nat
  | .trace => 0
  | .debug => 1
  | .info => 2
  | .warn => 3
  | .error => 4

/-- A line of a log. -/
structure LogLine where
  level : LogLevel
  values : List (String × String)
  message : String
  deriving DecidableEq, Repr

/-- The level, the values in order, and the message, with blanks between them. -/
def LogLine.render (line : LogLine) : String :=
  " ".intercalate
    (line.level.name :: line.values.map (fun (name, value) => name ++ "=" ++ value) ++ [line.message])

end CborRecords
