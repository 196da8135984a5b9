/-!
# Paths

A path is a text; the slashes in it divide its parts.

* `Path.parts` : the parts of a path that say something;
* `Path.plain` : a path without parts that lead nowhere;
* `Path.withEnding` : a path whose file name has an ending more.
-/

namespace CborRecords.Command.Path

/-- The texts between slashes, empty ones among them. -/
def segments (path : String) : List String :=
  (path.toList.splitOn '/').map String.ofList

/-- The parts of a path. -/
def parts (path : String) : List String :=
  (segments path).filter fun part => !part.isEmpty

/-- The path goes out from the root. -/
def isAbsolute (path : String) : Bool :=
  path.startsWith "/"

/-- The path without parts that stay where they are. -/
def plain (path : String) : String :=
  (if isAbsolute path then "/" else "") ++ "/".intercalate ((parts path).filter (· ≠ "."))

/-- The segments up to the file name, without slashes and dots after it. -/
def named (path : String) : List String :=
  ((segments path).reverse.dropWhile fun part => part.isEmpty || part = ".").reverse

/-- The file name of a path. A path that leads upward has none. -/
def fileName? (path : String) : Option String :=
  match (named path).getLast? with
  | some name => if name = ".." then none else some name
  | none => none

/-- The file name before its last dot, if there is one after its first character. -/
def stem? (name : String) : Option String :=
  match (name.toList.reverse.dropWhile (· ≠ '.')).drop 1 with
  | [] => none
  | back => some (String.ofList back.reverse)

/-- The path with an ending in place of the one that its file name has. -/
def replaceEnding (ending path : String) : Option String :=
  match fileName? path with
  | none => none
  | some name =>
    some ("/".intercalate ((named path).dropLast ++ [(stem? name).getD name]) ++ "." ++ ending)

/-- The path with an ending more. A path whose file name has an ending is made longer first, so that
this ending stays. -/
def withEnding (ending path : String) : Option String :=
  match (fileName? path).bind stem? with
  | some _ => replaceEnding ending (path ++ ".dummy")
  | none => replaceEnding ending path

end CborRecords.Command.Path
