import CborRecords.Toml.Word

/-!
# Documents of TOML text

* `Toml.descend` : a change to the table that a path leads to; tables on the way that are missing are
  made, and a value that is no table cannot be passed;
* `Toml.addEntry` : a table with one more entry, whose key is new;
* `Toml.Document` : the tables so far and the one that is being filled; a table is put in its place when
  the next header is met;
* `Toml.read` : the entries of a source, or its first fault. Faults of lines and brackets anywhere go
  before those of keys and values, and these before numbers that cannot be held.
-/

namespace CborRecords.Toml

/-! ## Tables -/

/-- Changes the table that a path leads to. In braces only tables of these braces are met; a key of
several parts may pass only tables that were not written as such. -/
def descend {α : Type} (braced dotted : Bool)
    (change : Role → Entries → Except Fault (α × Entries)) :
    List Name → Role → Entries → Except Fault (α × Entries)
  | [], role, entries => change role entries
  | name :: path, _, entries =>
    match entries.lookup name.text with
    | none => do
      let role := if braced then .bracedDotted else if dotted then .dotted else .passed
      let (result, inner) ← descend braced dotted change path role []
      return (result, put name.text (.table role inner) entries)
    | some (.table role inner) =>
      if role.isBraced && !braced then .error ⟨.cannotExtend "inline table", name.span⟩
      else if dotted && !role.isImplicit then .error ⟨.duplicateKey, name.span⟩
      else do
        let (result, inner) ← descend braced dotted change path role inner
        return (result, put name.text (.table role inner) entries)
    | some (.list true items) =>
      match items.getLast? with
      | some (.table role inner) => do
        let (result, inner) ← descend braced dotted change path role inner
        return (result, put name.text (.list true (items.dropLast ++ [.table role inner])) entries)
      | _ => .error ⟨.cannotExtend "array", name.span⟩
    | some v => .error ⟨.cannotExtend v.typeName, name.span⟩

/-- A key by the path to its table and its last part. -/
def splitKey (key : List Name) : Except Fault (List Name × Name) :=
  match key.getLast? with
  | some last => .ok (key.dropLast, last)
  | none => .error ⟨.emptyKey, ⟨0, 0⟩⟩

/-- Adds an entry to a table. Tables of keys of several parts and other tables do not mix. -/
def addEntry (braced : Bool) (role : Role) (key : List Name) (v : Value) (entries : Entries) :
    Except Fault Entries := do
  let (path, last) ← splitKey key
  let add (role : Role) (entries : Entries) : Except Fault (Unit × Entries) :=
    if role.isDotted = path.isEmpty ∨ (entries.lookup last.text).isSome then
      .error ⟨.duplicateKey, last.span⟩
    else .ok ((), put last.text v entries)
  let (_, entries) ← descend braced (!path.isEmpty) add path role entries
  return entries

/-! ## Values -/

mutual

/-- Reads a value. -/
def Draft.read : Draft → Except Fault Value
  | .scalar raw =>
    match raw.quoting with
    | some quoting => do
      let text ← Raw.string quoting raw.piece
      return .text text
    | none => word raw.piece
  | .list items => do
    let items ← items.read
    return .list false items
  | .table fields => do
    let entries ← fields.read []
    return .table .braced entries

/-- Reads the values of a list. -/
def Drafts.read : Drafts → Except Fault (List Value)
  | .nil => .ok []
  | .cons item rest => do
    let v ← item.read
    let more ← rest.read
    return v :: more

/-- Reads the entries of a table in braces, after those that were read before. -/
def Fields.read : Fields → Entries → Except Fault Entries
  | .nil, entries => .ok entries
  | .cons key item rest, entries => do
    let key ← names key
    let v ← item.read
    let entries ← addEntry true .braced key v entries
    rest.read entries

end

/-! ## Documents -/

/-- A header: whether its brackets are double, the path to its table and the last part. -/
structure Heading where
  double : Bool
  path : List Name
  last : Name

/-- The tables that are in place, and the table that is being filled with the header it has. -/
structure Document where
  root : Entries
  heading : Option Heading
  table : Entries

namespace Document

def empty : Document := ⟨[], none, []⟩

/-- The entries of a document, with the table that was being filled in its place: at the end of a list
if its header has double brackets. -/
def close (d : Document) : Except Fault Entries :=
  match d.heading with
  | none => .ok d.table
  | some heading => do
    let table := Value.table .header d.table
    let key := heading.last.text
    let place (_ : Role) (entries : Entries) : Except Fault (Unit × Entries) :=
      if heading.double then
        match entries.lookup key with
        | none => .ok ((), put key (.list true [table]) entries)
        | some (.list true items) => .ok ((), put key (.list true (items ++ [table])) entries)
        | some _ => .error ⟨.duplicateKey, heading.last.span⟩
      else .ok ((), put key table entries)
    let (_, root) ← descend false false place heading.path .header d.root
    return root

/-- A new table to be filled. One in single brackets is new, or was only passed before, and then it
goes on with what it holds. -/
def start (root : Entries) (heading : Heading) : Except Fault Document :=
  if heading.double then .ok ⟨root, some heading, []⟩
  else do
    let take (_ : Role) (entries : Entries) : Except Fault (Entries × Entries) :=
      match entries.lookup heading.last.text with
      | none => .ok ([], entries)
      | some (.table .passed inner) => .ok (inner, entries)
      | some _ => .error ⟨.duplicateKey, heading.last.span⟩
    let (table, root) ← descend false false take heading.path .header root
    return ⟨root, some heading, table⟩

/-- A document with one more statement. -/
def add (d : Document) : Statement → Except Fault Document
  | .header double key => do
    let root ← d.close
    let key ← names key
    let (path, last) ← splitKey key
    start root ⟨double, path, last⟩
  | .entry key item => do
    let key ← names key
    let v ← item.read
    let table ← addEntry false .header key v d.table
    return { d with table := table }

end Document

/-- The entries of a source. -/
def read (source : String) : Except Fault Entries := do
  let statements ← outline source
  let document ← statements.foldlM Document.add Document.empty
  let entries ← document.close
  match faultAmong entries with
  | some fault => .error fault
  | none => return entries

end CborRecords.Toml
