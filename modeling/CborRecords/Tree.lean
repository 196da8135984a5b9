import CborRecords.Cursor

/-!
# Trees of items

* `Tree` : an item with all that is nested in it, the widths of heads forgotten;
* `Item.tree` : the tree of an item of limited height; a scalar has height one, a container one more
  than the highest of its items;
* `Tree.readAll` : the trees of the items of a byte string.
-/

namespace CborRecords

/-- An item with all that is nested in it. The items of a map are its keys and values in turn. -/
inductive Tree
  | unsigned (n : UInt64)
  /-- The integer `-1 - n`. -/
  | negative (n : UInt64)
  | bytes (content : Bytes)
  | byteChunks (contents : List Bytes)
  | text (content : String)
  | textChunks (contents : List String)
  | container (kind : Container) (definite : Bool) (items : List Tree)
  | bool (b : Bool)
  | null
  | undefined
  | simple (value : UInt8)
  | float (x : Double)
  | tagged (number : UInt64) (inner : Tree)

namespace Tree

/-- A tree with tags in front of it, outermost first. -/
def withTags (tags : List UInt64) (tree : Tree) : Tree :=
  tags.foldr .tagged tree

end Tree

/-- Chunks of text, each read by itself. -/
def Chunks.texts : List Bytes → Except DecodeError (List String)
  | [] => .ok []
  | content :: rest =>
    match Utf8.decode content with
    | .error fault => .error (.invalidUtf8 fault)
    | .ok text =>
      match texts rest with
      | .error e => .error e
      | .ok more => .ok (text :: more)

/-- The tree of content that is not a container. -/
def Content.leaf : Content → Except DecodeError Tree
  | .unsigned n => .ok (.unsigned n)
  | .negative n => .ok (.negative n)
  | .bytes content => .ok (.bytes content)
  | .byteChunks chunks => .ok (.byteChunks chunks.toList)
  | .text content => .ok (.text content)
  | .textChunks chunks =>
    match Chunks.texts chunks.toList with
    | .error e => .error e
    | .ok contents => .ok (.textChunks contents)
  | .container _ => .error .maxRecursion
  | .bool b => .ok (.bool b)
  | .null => .ok .null
  | .undefined => .ok .undefined
  | .simple value => .ok (.simple value)
  | .float x => .ok (.float x)

namespace Item

/-- The tree of an item, at most `height` high, and the item's length. -/
def tree : (height : Nat) → Item → Except DecodeError (Tree × Nat)
  | 0, _ => .error .maxRecursion
  | height + 1, item =>
    match item.content with
    | .container cursor =>
      let visit (inner : Item) : List Tree × Except DecodeError Nat :=
        match tree height inner with
        | .error e => ([], .error e)
        | .ok (t, length) => ([t], .ok length)
      match cursor.traverse visit with
      | (_, .error e, _) => .error e
      | (items, .ok (), after) =>
        match after.close with
        | .error e => .error e
        | .ok length =>
          .ok ((Tree.container cursor.kind cursor.isDefinite items).withTags item.tags.toList, length)
    | content =>
      match content.leaf with
      | .error e => .error e
      | .ok t => .ok (t.withTags item.tags.toList, item.size)

end Item

namespace Tree

/-- The trees of the items of a byte string, each at most `height` high. -/
def readAll (height : Nat) (data : Bytes) : Except DecodeError (List Tree) :=
  let visit (item : Item) : List Tree × Except DecodeError Nat :=
    match item.tree height with
    | .error e => ([], .error e)
    | .ok (t, length) => ([t], .ok length)
  match Item.traverseAll visit data with
  | (_, .error e) => .error e
  | (trees, .ok _) => .ok trees

end Tree

end CborRecords
