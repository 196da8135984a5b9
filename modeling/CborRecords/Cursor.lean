import CborRecords.Item

/-!
# Cursors

A cursor passes over the items of one container. Every operation gives its result together with the
cursor after it, since a failed one leaves the cursor in use.

* `Cursor.atEnd` : whether all items have been passed; at the end of an indefinite container this
  passes its last byte and settles the count;
* `Cursor.peek` : opens the item at the cursor, `Cursor.advance` : passes it;
* `Cursor.next?` : both around a visit of the item; `Cursor.next` : the same, with an item required;
* `Cursor.close` : the length of the container's item, which must have been worked through;
* `Cursor.traverse` : visits all remaining items and keeps what is noted on the way;
* `Item.skip`, `Cursor.skipToEnd` : pass items with all that is nested in them;
* `Item.traverseAll` : visits the items of a byte string that stand one after another.
-/

namespace CborRecords

namespace Cursor

/-- The number of entries, if known: items of an array, pairs of a map. -/
def length? (c : Cursor) : Option Nat :=
  c.count.map (· / c.kind.arity)

/-- The container is known to hold nothing. -/
def isEmpty (c : Cursor) : Bool :=
  c.count = some 0

/-- The number of entries is known. -/
def isDefinite (c : Cursor) : Bool :=
  c.count.isSome

/-- Passes the byte that ends an indefinite container; its count is then known. -/
def settle (c : Cursor) : Cursor :=
  { c with rest := c.rest.drop 1, offset := c.offset + 1, count := some c.parsed }

/-- Whether every item has been passed. An indefinite map cannot end after a key. -/
def atEnd (c : Cursor) : Except DecodeError Bool × Cursor :=
  match c.count with
  | some count => (.ok (count ≤ c.parsed), c)
  | none =>
    match c.rest with
    | [] => (.error .notEnoughData, c)
    | b :: _ =>
      if b = Head.stop then
        if c.parsed % c.kind.arity = 0 then (.ok true, c.settle) else (.error .partialMap, c)
      else (.ok false, c)

/-- Opens the item at the cursor without passing it; nothing at the end. -/
def peek (c : Cursor) : Except DecodeError (Option Item) × Cursor :=
  match c.atEnd with
  | (.error e, c) => (.error e, c)
  | (.ok true, c) => (.ok none, c)
  | (.ok false, c) =>
    match Item.open? c.rest with
    | .error e => (.error e, c)
    | .ok none => (.error .notEnoughData, c)
    | .ok (some item) => (.ok (some item), c)

/-- Passes an item of the given length. -/
def advance (c : Cursor) (length : Nat) : Cursor :=
  { c with rest := c.rest.drop length, offset := c.offset + length, parsed := c.parsed + 1 }

/-- Visits the item at the cursor and passes it; nothing at the end. A visit gives a value and the
item's length. -/
def next? {α : Type} (visit : Item → Except DecodeError (α × Nat)) (c : Cursor) :
    Except DecodeError (Option (α × Nat)) × Cursor :=
  match c.peek with
  | (.error e, c) => (.error e, c)
  | (.ok none, c) => (.ok none, c)
  | (.ok (some item), c) =>
    match visit item with
    | .error e => (.error e, c)
    | .ok (a, length) => (.ok (some (a, length)), c.advance length)

/-- Turns the absence of an item into an error. -/
def require {α : Type} : Except DecodeError (Option α) → Except DecodeError α
  | .error e => .error e
  | .ok none => .error .notEnoughData
  | .ok (some a) => .ok a

/-- Visits the item at the cursor and passes it. -/
def next {α : Type} (visit : Item → Except DecodeError (α × Nat)) (c : Cursor) :
    Except DecodeError (α × Nat) × Cursor :=
  let (result, c) := c.next? visit
  (require result, c)

/-- The length of the container's item, which ends where its last item does. -/
def close (c : Cursor) : Except DecodeError Nat :=
  match c.atEnd with
  | (.error e, _) => .error e
  | (.ok false, _) => .error .additionalItems
  | (.ok true, c) => .ok c.offset

/-- Visits the remaining items, at most `limit` of them and one more. -/
def traverseFrom {β : Type} (visit : Item → List β × Except DecodeError Nat) :
    (limit : Nat) → Cursor → List β × Except DecodeError Unit × Cursor
  | limit, c =>
    match c.peek with
    | (.error e, c) => ([], .error e, c)
    | (.ok none, c) => ([], .ok (), c)
    | (.ok (some item), c) =>
      match visit item with
      | (notes, .error e) => (notes, .error e, c)
      | (notes, .ok length) =>
        match limit with
        | 0 => (notes, .error .notEnoughData, c)
        | limit + 1 =>
          let (more, result) := traverseFrom visit limit (c.advance length)
          (notes ++ more, result)

/-- Visits the remaining items in order. A visit gives what it notes and the item's length; the notes
are kept when a visit fails. Every item takes a byte, so that no more can follow than there are
bytes. -/
def traverse {β : Type} (visit : Item → List β × Except DecodeError Nat) (c : Cursor) :
    List β × Except DecodeError Unit × Cursor :=
  traverseFrom visit c.rest.length c

end Cursor

namespace Item

/-- The length of an item whose content is now `after`: a container must have been worked through. -/
def close (item : Item) (after : Content) : Except DecodeError Nat :=
  match after with
  | .container cursor => cursor.close
  | _ => .ok item.size

end Item

/-! ## Skipping -/

/-- Passes all items nested in the content, at most `depth` containers deep. -/
def Content.skip : (depth : Nat) → Content → Except DecodeError Content
  | 0, .container _ => .error .maxRecursion
  | depth + 1, .container cursor =>
    let visit (item : Item) : List Empty × Except DecodeError Nat :=
      match Content.skip depth item.content with
      | .error e => ([], .error e)
      | .ok after => ([], item.close after)
    match cursor.traverse visit with
    | (_, .error e, _) => .error e
    | (_, .ok (), cursor) => .ok (.container cursor)
  | _, content => .ok content

namespace Item

/-- The length of an item whose containers are nested at most `depth` deep. -/
def skip (depth : Nat) (item : Item) : Except DecodeError Nat :=
  match item.content.skip depth with
  | .error e => .error e
  | .ok after => item.close after

end Item

/-- Passes all remaining items, each nested at most `depth` deep. -/
def Cursor.skipToEnd (depth : Nat) (c : Cursor) : Except DecodeError Unit × Cursor :=
  (c.traverse fun item => (([] : List Empty), item.skip depth)).2

namespace Item

/-- Visits the items of a byte string, at most `limit` of them and one more; `passed` bytes stood in
front of it. -/
def traverseAllFrom {β : Type} (visit : Item → List β × Except DecodeError Nat) :
    (limit passed : Nat) → Bytes → List β × Except DecodeError Nat
  | limit, passed, data =>
    match Item.open? data with
    | .error e => ([], .error e)
    | .ok none => ([], .ok passed)
    | .ok (some item) =>
      match visit item with
      | (notes, .error e) => (notes, .error e)
      | (notes, .ok length) =>
        match limit with
        | 0 => (notes, .error .notEnoughData)
        | limit + 1 =>
          let (more, result) := traverseAllFrom visit limit (passed + length) (data.drop length)
          (notes ++ more, result)

/-- Visits the items of a byte string in order until it ends. The result is their whole length. -/
def traverseAll {β : Type} (visit : Item → List β × Except DecodeError Nat) (data : Bytes) :
    List β × Except DecodeError Nat :=
  traverseAllFrom visit data.length 0 data

end Item

end CborRecords
