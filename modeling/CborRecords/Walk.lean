import CborRecords.Cursor

/-!
# Walks

A walk lists the items of a byte string and those nested in them, in the order they are met.

* `Visit` : a line of the list, for an item or for the end of a container;
* `Walk.visit` : one item and what is nested in it, `Walk.run` : a whole byte string.
-/

namespace CborRecords

/-- A line of a walk. -/
inductive Visit
  /-- An item as it was opened, with its length once that is known. -/
  | item (depth : Nat) (item : Item) (length : Option Nat)
  /-- A container after its last item. -/
  | finish (depth : Nat) (cursor : Cursor)

namespace Walk

/-- Lists an item at a depth, and what is nested in it at most `budget` containers deep. -/
def visit : (budget depth : Nat) → Item → List Visit × Except DecodeError Nat
  | budget, depth, item =>
    match item.content with
    | .container cursor =>
      match budget with
      | 0 => ([.item depth item none], .error .maxRecursion)
      | budget + 1 =>
        match cursor.traverse (visit budget (depth + 1)) with
        | (lines, .error e, _) => (.item depth item none :: lines, .error e)
        | (lines, .ok (), cursor) =>
          let lines := lines ++ [.finish depth cursor]
          match cursor.close with
          | .error e => (.item depth item none :: lines, .error e)
          | .ok length => (.item depth item (some length) :: lines, .ok length)
    | _ => ([.item depth item (some item.size)], .ok item.size)

/-- Lists the items of a byte string, containers at most `budget` deep. The result is their whole
length. -/
def run (budget : Nat) (data : Bytes) : List Visit × Except DecodeError Nat :=
  Item.traverseAll (visit budget 0) data

end Walk

end CborRecords
