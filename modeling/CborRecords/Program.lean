import CborRecords.Scalar

/-!
# Reading programs

A reading program says what is done with the items of a container, one operation after another, and
with the items inside them. What it does next may depend on how the last operation ended, and what it does
with an item on what it sees of the item. It may leave a container with an error of its own, and refuse
a scalar.

* `Query` : an operation that enters no item, `Query.run` : its answer and the cursor after it;
* `Program` : a program, `Program.run` : the events on the way, how it ended, and the cursor;
* `Program.query`, `Program.skip`, `Program.item`, `Program.array` : operations in a fixed order;
* `Entry` : how the first item is met, `Entry.run` : a program run on a byte string.
-/

namespace CborRecords

/-- An operation on a cursor that enters no item. -/
inductive Query
  | length
  | isEmpty
  | isDefinite
  | atEnd
  | skipToEnd (depth : Nat)
  | scalar (t : ScalarType)
  | scalar? (t : ScalarType)
  deriving DecidableEq, Repr

/-- What an operation gives. -/
inductive Answer
  | done
  | absent
  | length (entries : Option Nat)
  | holds (b : Bool)
  | scalar (value : Scalar)
  | passed (length : Nat)
  deriving DecidableEq, Repr

/-- What a step does to the item at the cursor: pass it by skipping, run a program in it if it is a
container, or run one in it as an array that it must be. -/
inductive Entering
  | skip
  | item
  | array
  deriving DecidableEq, Repr

/-- What an event reports on. -/
inductive Operation
  | query (q : Query)
  /-- A visit of the item at the cursor; `required` when there must be one. -/
  | visit (entering : Entering) (required : Bool)
  deriving DecidableEq, Repr

/-- A line of the record that a run leaves. -/
inductive Event
  /-- An item was opened, and is described as it stands. -/
  | entered (depth : Nat) (item : Item)
  /-- An array was opened as one. -/
  | enteredArray (depth : Nat) (item : Item)
  /-- An operation ended with the cursor at `offset`. -/
  | finished (depth : Nat) (operation : Operation) (outcome : Except DecodeError Answer) (offset : Nat)

/-- The line as it is shown to a program: items are shown bare. -/
def Event.bare : Event → Event
  | .entered depth item => .entered depth item.bare
  | .enteredArray depth item => .enteredArray depth item.bare
  | .finished depth operation outcome offset => .finished depth operation outcome offset

/-- What is done with the items of a container. An operation is followed by what `next` chooses for its
outcome, and for the record of what was done inside the item if it visited one. -/
inductive Program
  /-- Leaves the container, with an error or without. -/
  | leave (result : Except DecodeError Unit)
  | ask (q : Query) (next : Except DecodeError Answer → Program)
  /-- Passes the item at the cursor by skipping what is nested in it. -/
  | pass (depth : Nat) (required : Bool) (next : List Event → Except DecodeError Answer → Program)
  /-- Meets the item at the cursor: `scalar` accepts or refuses a scalar, and `inside` is what is done in
  a container. -/
  | meet (scalar : Item → Except DecodeError Unit) (inside : Item → Program) (required : Bool)
      (next : List Event → Except DecodeError Answer → Program)
  /-- Meets the item at the cursor as an array, which it must be. -/
  | meetArray (inside : Item → Program) (required : Bool)
      (next : List Event → Except DecodeError Answer → Program)

namespace Program

/-! ## Operations in a fixed order -/

/-- Leaves the container as it is. -/
def done : Program :=
  .leave (.ok ())

/-- Goes on with `next` after an operation, unless it failed and is strict: then its error ends the
program. -/
def onward (strict : Bool) (next : Program) : Except DecodeError Answer → Program
  | .error e => if strict then .leave (.error e) else next
  | .ok _ => next

/-- A query, and then `next`. -/
def query (q : Query) (strict : Bool) (next : Program) : Program :=
  .ask q (onward strict next)

/-- Passes an item, and then `next`. -/
def skip (depth : Nat) (required strict : Bool) (next : Program) : Program :=
  .pass depth required fun _ => onward strict next

/-- Runs a program in the item at the cursor if it is a container, and then `next`. -/
def item (inside : Program) (required strict : Bool) (next : Program) : Program :=
  .meet (fun _ => .ok ()) (fun _ => inside) required fun _ => onward strict next

/-- Runs a program in the item at the cursor, which must be an array, and then `next`. -/
def array (inside : Program) (required strict : Bool) (next : Program) : Program :=
  .meetArray (fun _ => inside) required fun _ => onward strict next

end Program

/-! ## Runs -/

namespace Query

/-- The answer of a query and the cursor after it. -/
def run (q : Query) (c : Cursor) : Except DecodeError Answer × Cursor :=
  match q with
  | .length => (.ok (.length c.length?), c)
  | .isEmpty => (.ok (.holds c.isEmpty), c)
  | .isDefinite => (.ok (.holds c.isDefinite), c)
  | .atEnd =>
    let (result, c) := c.atEnd
    (result.map .holds, c)
  | .skipToEnd depth =>
    let (result, c) := c.skipToEnd depth
    (result.map fun () => .done, c)
  | .scalar t =>
    let (result, c) := c.scalar t
    (result.map .scalar, c)
  | .scalar? t =>
    let (result, c) := c.scalar? t
    (result.map fun value? => (value?.map .scalar).getD .absent, c)

end Query

namespace Program

/-- A run: its events, how it ended, and the cursor it left. -/
abbrev Run := List Event × Except DecodeError Unit × Cursor

/-- What a visit gives: the item's length, or that there was none. -/
def answer (required : Bool) (result : Except DecodeError (Option Nat)) : Except DecodeError Answer :=
  match result with
  | .error e => .error e
  | .ok (some length) => .ok (.passed length)
  | .ok none => if required then .error .notEnoughData else .ok .absent

/-- Notes how an operation ended and goes on with `next`. -/
def proceed (depth : Nat) (operation : Operation) (outcome : Except DecodeError Answer) (c : Cursor)
    (next : Cursor → Run) : Run :=
  let (events, result) := next c
  (.finished depth operation outcome c.offset :: events, result)

/-- Notes how a visit ended, behind what was noted inside the item, and goes on with `next`. -/
def follow (depth : Nat) (entering : Entering) (required : Bool)
    (visited : List Event × Except DecodeError (Option Nat) × Cursor)
    (next : List Event → Except DecodeError Answer → Cursor → Run) : Run :=
  let (events, result, c) := visited
  let outcome := answer required result
  let (more, result) :=
    proceed depth (.visit entering required) outcome c (next (events.map Event.bare) outcome)
  (events ++ more, result)

/-- Visits the item at the cursor and passes it; nothing at the end. The events of the visit are kept
when it fails. -/
def visit (inside : Item → List Event × Except DecodeError Nat) (c : Cursor) :
    List Event × Except DecodeError (Option Nat) × Cursor :=
  match c.peek with
  | (.error e, c) => ([], .error e, c)
  | (.ok none, c) => ([], .ok none, c)
  | (.ok (some opened), c) =>
    match inside opened with
    | (events, .error e) => (events, .error e, c)
    | (events, .ok length) => (events, .ok (some length), c.advance length)

/-- Passes an item by skipping what is nested in it. -/
def skipping (level depth : Nat) (opened : Item) : List Event × Except DecodeError Nat :=
  ([.entered level opened], opened.skip depth)

/-- Runs a program in an item if it is a container, and decides on it if it is a scalar. -/
def entering (level : Nat) (scalar : Item → Except DecodeError Unit) (inside : Item → Cursor → Run)
    (opened : Item) : List Event × Except DecodeError Nat :=
  match opened.content with
  | .container cursor =>
    match inside opened.bare cursor with
    | (events, .error e, _) => (.entered level opened :: events, .error e)
    | (events, .ok (), cursor) => (.entered level opened :: events, cursor.close)
  | _ => ([.entered level opened], (scalar opened.bare).map fun () => opened.size)

/-- Runs a program in an array; `note` is what opening it leaves. -/
def enteringArray (note : Item → List Event) (inside : Item → Cursor → Run) (opened : Item) :
    List Event × Except DecodeError Nat :=
  match opened.content with
  | .container cursor =>
    if cursor.kind = .array then
      match inside opened.bare cursor with
      | (events, .error e, _) => (note opened ++ events, .error e)
      | (events, .ok (), cursor) => (note opened ++ events, cursor.close)
    else ([], .error (.incorrectType "Array" opened.typeName))
  | _ => ([], .error (.incorrectType "Array" opened.typeName))

/-- Runs a program at a depth, the items of the outermost container being at depth one. -/
def run (program : Program) (depth : Nat) (c : Cursor) : Run :=
  match program with
  | .leave result => ([], result, c)
  | .ask q next =>
    let (outcome, c) := q.run c
    proceed depth (.query q) outcome c ((next outcome).run depth)
  | .pass limit required next =>
    follow depth .skip required (visit (skipping depth limit) c)
      fun events outcome => (next events outcome).run depth
  | .meet scalar inside required next =>
    follow depth .item required
      (visit (entering depth scalar fun opened => (inside opened).run (depth + 1)) c)
      fun events outcome => (next events outcome).run depth
  | .meetArray inside required next =>
    let note (opened : Item) := [Event.enteredArray depth opened]
    follow depth .array required
      (visit (enteringArray note fun opened => (inside opened).run (depth + 1)) c)
      fun events outcome => (next events outcome).run depth

end Program

/-- How the item at the front of a byte string is met. -/
inductive Entry
  | skip (depth : Nat)
  | meet (scalar : Item → Except DecodeError Unit) (inside : Item → Program)
  | meetArray (inside : Item → Program)

namespace Entry

/-- Runs a program in the item if it is a container. -/
def item (inside : Program) : Entry :=
  .meet (fun _ => .ok ()) fun _ => inside

/-- Runs a program in the item, which must be an array. -/
def array (inside : Program) : Entry :=
  .meetArray fun _ => inside

/-- The visit that an entry makes. -/
def visit : Entry → Item → List Event × Except DecodeError Nat
  | .skip depth => Program.skipping 0 depth
  | .meet scalar inside => Program.entering 0 scalar fun opened => (inside opened).run 1
  | .meetArray inside => Program.enteringArray (fun _ => []) fun opened => (inside opened).run 1

/-- Meets the item at the front of a byte string; nothing when the string is empty. -/
def run? (entry : Entry) (data : Bytes) : List Event × Except DecodeError (Option Nat) :=
  match Item.open? data with
  | .error e => ([], .error e)
  | .ok none => ([], .ok none)
  | .ok (some opened) =>
    match entry.visit opened with
    | (events, .error e) => (events, .error e)
    | (events, .ok length) => (events, .ok (some length))

/-- Meets the item at the front of a byte string that must not be empty. -/
def run (entry : Entry) (data : Bytes) : List Event × Except DecodeError Nat :=
  let (events, result) := entry.run? data
  (events, Cursor.require result)

end Entry

end CborRecords
