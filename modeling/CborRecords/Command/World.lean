import CborRecords.Command.Failure
import CborRecords.Command.Path

/-!
# Worlds

A world is what a program meets: files, a standard input and variables.

* `World` : files by their places, and the rest;
* `World.locate` : where a path leads; each name on the way must be a directory;
* `World.read`, `World.find?` and `World.write` : the content at a path, that of a file that is no device,
  and the world after something was written there.
-/

namespace CborRecords.Command

/-- The surroundings of a program. A place is given by the names that lead to it from where the program
is; it starts with names that lead upward, or with the root, if it lies elsewhere. -/
structure World where
  files : List (List String × Bytes)
  input : Bytes
  environment : List (String × String)
  deriving DecidableEq, Repr

namespace World

/-! ## Places -/

/-- The place one name above a place. Nothing is above the root. -/
def above (place : List String) : List String :=
  match place.getLast? with
  | none | some ".." => place ++ [".."]
  | some "/" => place
  | some _ => place.dropLast

/-- The place that the names of a path lead to, whatever is there. -/
def placeOf (path : String) : List String :=
  let step (place : List String) (name : String) : List String :=
    if name = "." then place else if name = ".." then above place else place ++ [name]
  (Path.parts path).foldl step (if Path.isAbsolute path then ["/"] else [])

/-- The directories below the root that every system has. -/
def systemDirectories : List String :=
  ["bin", "dev", "etc", "home", "lib", "opt", "proc", "root", "run", "sbin", "sys", "tmp", "usr", "var"]

/-- Files stand below a place, or it is the place of the program, above it, or a directory of the
system. -/
def isDirectory (w : World) (place : List String) : Bool :=
  place.all (· = "..") || place = ["/"]
    || (systemDirectories.map fun name => ["/", name]).contains place
    || w.files.any fun (file, _) => place.isPrefixOf file && place ≠ file

/-- The devices that can be written to. -/
def devices : List (List String) :=
  [["/", "dev", "null"], ["/", "dev", "stdin"], ["/", "dev", "stdout"], ["/", "dev", "stderr"]]

/-- What can be read at a place: a file, nothing, or the standard input. -/
def content? (w : World) (place : List String) : Option Bytes :=
  if place = ["/", "dev", "null"] then some []
  else if place = ["/", "dev", "stdin"] then some w.input
  else w.files.lookup place

/-! ## Paths -/

/-- How long a name and a path may be, in bytes. -/
def maxName : Nat := 255
def maxPath : Nat := 4095

/-- The directory that a name in a directory leads to. -/
def enter (w : World) (place : List String) (name : String) : Except FileError (List String) :=
  let inner := place ++ [name]
  if name = "." then .ok place
  else if name = ".." then .ok (above place)
  else if maxName < Utf8.size name then .error .nameTooLong
  else if w.isDirectory inner then .ok inner
  else if (w.content? inner).isSome then .error .notDirectory
  else .error .notFound

/-- The directory that a path leads to, and the name in it that is last. A path that ends with a dot, two
dots or the root has no such name. -/
def locate (w : World) (path : String) : Except FileError (List String × Option String) :=
  let start := if Path.isAbsolute path then ["/"] else []
  let names := Path.parts path
  if path.isEmpty then .error .notFound
  else if maxPath < Utf8.size path then .error .nameTooLong
  else
    match names.getLast? with
    | none => .ok (start, none)
    | some last =>
      if last = "." ∨ last = ".." then do
        let place ← names.foldlM w.enter start
        return (place, none)
      else do
        let place ← names.dropLast.foldlM w.enter start
        return (place, some last)

/-- What can be read at a path. A slash at the end asks for a directory. -/
def read (w : World) (path : String) : Except FileError Bytes :=
  match w.locate path with
  | .error e => .error e
  | .ok (_, none) => .error .isDirectory
  | .ok (place, some name) =>
    if maxName < Utf8.size name then .error .nameTooLong
    else
      match w.content? (place ++ [name]) with
      | some content => if path.endsWith "/" then .error .notDirectory else .ok content
      | none => .error (if w.isDirectory (place ++ [name]) then .isDirectory else .notFound)

/-- The content of the file at a path, if that is no device. -/
def find? (w : World) (path : String) : Option Bytes :=
  if devices.contains (placeOf path) then none else (w.read path).toOption

/-- The world after something was written at a path, and what of it is printed. Devices keep nothing. -/
def write (w : World) (path : String) (content : Bytes) : Except FileError (World × Bytes) :=
  match w.locate path with
  | .error e => .error e
  | .ok (_, none) => .error .isDirectory
  | .ok (place, some name) =>
    let file := place ++ [name]
    if path.endsWith "/" then .error .isDirectory
    else if maxName < Utf8.size name then .error .nameTooLong
    else if w.isDirectory file then .error .isDirectory
    else if devices.contains file then
      .ok (w, if file = ["/", "dev", "stdout"] then content else [])
    else
      let others := w.files.filter fun (other, _) => other ≠ file
      .ok ({ w with files := (file, content) :: others }, [])

end World

end CborRecords.Command
