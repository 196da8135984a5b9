import CborRecords.Head
import CborRecords.Binary

/-!
# Items

* `Tags`, `Chunks` : the tags in front of an item and the chunks of a string, kept as the bytes that
  were checked and read again one by one (`Tags.next?`, `Chunks.next?`) or all (`Tags.toList`,
  `Chunks.toList`);
* `Container`, `Cursor` : an array or a map and the place reached in it;
* `Content` : what an item holds; `Content.typeName` : the name of its type as it stands now;
* `Item` : an item that has been opened, `Item.open?` : the item at the front of a byte string. A
  container is opened at its first item, all else is read whole.
-/

namespace CborRecords

/-! ## Reading on demand -/

/-- All that a reader gives that is asked for the next value as long as there is one, if each answer leaves
less to read. -/
def collect {σ α : Type} (next? : σ → Option (α × σ)) (size : σ → Nat)
    (hsize : ∀ s a more, next? s = some (a, more) → size more < size s) (s : σ) : List α :=
  match _h : next? s with
  | none => []
  | some (a, more) => a :: collect next? size hsize more
termination_by size s
decreasing_by exact hsize _ _ _ _h

/-! ## Tags -/

/-- The tags in front of an item, as the bytes of their heads. -/
structure Tags where
  raw : Bytes
  deriving DecidableEq, Repr

namespace Tags

/-- The number of bytes at the front that are heads of tags. -/
def measure (data : Bytes) : Except DecodeError Nat :=
  match data with
  | [] => .ok 0
  | initial :: rest =>
    if Head.major initial = .tag then
      match Argument.read (Head.info initial) rest with
      | .error e => .error e
      | .ok argument =>
        match measure (rest.drop argument.size) with
        | .error e => .error e
        | .ok size => .ok (1 + argument.size + size)
    else .ok 0
termination_by data.length
decreasing_by exact Bytes.length_drop_lt _ _ _

/-- The tags at the front of a byte string. -/
def read (data : Bytes) : Except DecodeError Tags :=
  match measure data with
  | .error e => .error e
  | .ok size => .ok ⟨data.take size⟩

/-- The number of bytes of the tags. -/
def size (tags : Tags) : Nat :=
  tags.raw.length

/-- There are no tags. -/
def isEmpty (tags : Tags) : Bool :=
  tags.raw.isEmpty

/-- The first tag number, and the tags after it; nothing at the end, or at bytes that are no head. -/
def next? (tags : Tags) : Option (UInt64 × Tags) :=
  match tags.raw with
  | [] => none
  | initial :: rest =>
    match Argument.read (Head.info initial) rest with
    | .error _ => none
    | .ok argument => some (argument.value, ⟨rest.drop argument.size⟩)

theorem length_next?_lt (tags : Tags) (number : UInt64) (more : Tags) (h : tags.next? = some (number, more)) :
    more.raw.length < tags.raw.length := by
  unfold next? at h
  split at h
  · cases h
  · rename_i initial rest hraw
    split at h
    · cases h
    · cases h
      rw [hraw]
      exact Bytes.length_drop_lt _ _ _

/-- The tag numbers, outermost first. -/
def toList (tags : Tags) : List UInt64 :=
  collect next? (·.raw.length) length_next?_lt tags

end Tags

/-! ## Chunks -/

/-- The chunks of a string of indefinite length, as the bytes after its initial byte up to and with
the byte that ends it. -/
structure Chunks where
  raw : Bytes
  deriving DecidableEq, Repr

namespace Chunks

/-- A chunk of text must be text by itself. -/
def check (m : Major) (content : Bytes) : Except DecodeError Unit :=
  if m = .text then
    match Utf8.decode content with
    | .error fault => .error (.invalidUtf8 fault)
    | .ok _ => .ok ()
  else .ok ()

/-- Checks chunks of a major type up to the byte that ends them. The result has the number of bytes
and whether every chunk's head is the shortest. -/
def measure (m : Major) (data : Bytes) : Except DecodeError (Nat × Bool) :=
  match data with
  | [] => .error .notEnoughData
  | initial :: rest =>
    if initial = Head.stop then .ok (1, true)
    else if Head.major initial ≠ m ∨ Head.info initial = 31 then .error .invalidChunk
    else
      match Head.readString (Head.info initial) rest with
      | .error e => .error e
      | .ok (content, size, shortest) =>
        match check m content with
        | .error e => .error e
        | .ok () =>
          match measure m (rest.drop size) with
          | .error e => .error e
          | .ok (more, allShortest) => .ok (1 + size + more, shortest && allShortest)
termination_by data.length
decreasing_by exact Bytes.length_drop_lt _ _ _

/-- The content of the first chunk, and the chunks after it; nothing at the byte that ends them, or at
bytes that are no chunk. -/
def next? (chunks : Chunks) : Option (Bytes × Chunks) :=
  match chunks.raw with
  | [] => none
  | initial :: rest =>
    if initial = Head.stop then none
    else
      match Head.readString (Head.info initial) rest with
      | .error _ => none
      | .ok (content, size, _) => some (content, ⟨rest.drop size⟩)

theorem length_next?_lt (chunks : Chunks) (content : Bytes) (more : Chunks)
    (h : chunks.next? = some (content, more)) : more.raw.length < chunks.raw.length := by
  unfold next? at h
  split at h
  · cases h
  · rename_i initial rest hraw
    split at h
    · cases h
    · split at h
      · cases h
      · cases h
        rw [hraw]
        exact Bytes.length_drop_lt _ _ _

/-- The contents of the chunks in order. -/
def toList (chunks : Chunks) : List Bytes :=
  collect next? (·.raw.length) length_next?_lt chunks

end Chunks

/-! ## Containers -/

/-- The two kinds of item that hold items. -/
inductive Container
  | array
  | map
  deriving DecidableEq, Repr

namespace Container

/-- The number of items that make up one entry. -/
def arity : Container → Nat
  | .array => 1
  | .map => 2

/-- The major type of a container. -/
def major : Container → Major
  | .array => .array
  | .map => .map

/-- The name of the kind. -/
def name (kind : Container) : String :=
  kind.major.name

end Container

/-- A place among the items of a container. `count` is the number of items, once it is known, two for
each pair of a map; `rest` are the bytes from here on; `offset` is the number of bytes from the start
of the container's item, its tags included; `parsed` is the number of items passed. -/
structure Cursor where
  kind : Container
  count : Option Nat
  rest : Bytes
  offset : Nat
  parsed : Nat
  deriving DecidableEq, Repr

/-- The same place, with other bytes from it on. -/
def Cursor.mapRest (f : Bytes → Bytes) (c : Cursor) : Cursor :=
  { c with rest := f c.rest }

/-! ## Items -/

/-- What an item holds. -/
inductive Content
  | unsigned (n : UInt64)
  /-- The integer `-1 - n`. -/
  | negative (n : UInt64)
  | bytes (content : Bytes)
  | byteChunks (chunks : Chunks)
  | text (content : String)
  | textChunks (chunks : Chunks)
  | container (cursor : Cursor)
  | bool (b : Bool)
  | null
  | undefined
  | simple (value : UInt8)
  | float (x : Double)
  deriving DecidableEq, Repr

/-- The name of a type; a container counts as definite once the number of its items is known. -/
def Content.typeName : Content → String
  | .unsigned _ => "Unsigned Integer"
  | .negative _ => "Negative Integer"
  | .bytes _ => "Definite-length Byte String"
  | .byteChunks _ => "Indefinite-length Byte String"
  | .text _ => "Definite-length Text String"
  | .textChunks _ => "Indefinite-length Text String"
  | .container cursor =>
    (if cursor.count.isSome then "Definite-length " else "Indefinite-length ") ++ cursor.kind.name
  | .bool false => "False"
  | .bool true => "True"
  | .null => "Null"
  | .undefined => "Undefined"
  | .simple _ => "Simple Value"
  | .float _ => "Float"

/-- The same content; the items of a container are in other bytes. -/
def Content.mapRest (f : Bytes → Bytes) : Content → Content
  | .container cursor => .container (cursor.mapRest f)
  | content => content

/-- An item that has been opened: its tags, whether its head is the shortest, what it holds, and the
number of bytes read so far, which for a container end with its head. -/
structure Item where
  tags : Tags
  shortest : Bool
  content : Content
  size : Nat
  deriving DecidableEq, Repr

namespace Item

/-- The name of the type of an item. -/
def typeName (item : Item) : String :=
  item.content.typeName

/-- The same item; the items of a container are in other bytes. -/
def mapRest (f : Bytes → Bytes) (item : Item) : Item :=
  { item with content := item.content.mapRest f }

/-- The item as it is shown to whoever reads it: without the bytes that its cursor stands in front of. -/
def bare (item : Item) : Item :=
  item.mapRest fun _ => []

/-- What follows an initial byte: content, bytes taken after the initial byte, shortest. -/
abbrev Body := Content × Nat × Bool

/-- An integer. -/
def readInteger (make : UInt64 → Content) (info : Nat) (rest : Bytes) : Except DecodeError Body :=
  match Argument.read info rest with
  | .error e => .error e
  | .ok argument => .ok (make argument.value, argument.size, argument.shortest)

/-- A byte string, whole or in chunks. -/
def readBytes (info : Nat) (rest : Bytes) : Except DecodeError Body :=
  if info = 31 then
    match Chunks.measure .bytes rest with
    | .error e => .error e
    | .ok (size, shortest) => .ok (.byteChunks ⟨rest.take size⟩, size, shortest)
  else
    match Head.readString info rest with
    | .error e => .error e
    | .ok (content, size, shortest) => .ok (.bytes content, size, shortest)

/-- A text string, whole or in chunks. -/
def readText (info : Nat) (rest : Bytes) : Except DecodeError Body :=
  if info = 31 then
    match Chunks.measure .text rest with
    | .error e => .error e
    | .ok (size, shortest) => .ok (.textChunks ⟨rest.take size⟩, size, shortest)
  else
    match Head.readString info rest with
    | .error e => .error e
    | .ok (content, size, shortest) =>
      match Utf8.decode content with
      | .error fault => .error (.invalidUtf8 fault)
      | .ok text => .ok (.text text, size, shortest)

/-- The head of an array or map, whose initial byte ends at `start`. The number of items must fit 64
bits. -/
def readContainer (kind : Container) (start info : Nat) (rest : Bytes) : Except DecodeError Body :=
  if info = 31 then .ok (.container ⟨kind, none, rest, start, 0⟩, 0, true)
  else
    match Argument.read info rest with
    | .error e => .error e
    | .ok argument =>
      let count := argument.value.toNat * kind.arity
      if count < 0x10000000000000000 then
        .ok (.container ⟨kind, some count, rest.drop argument.size, start + argument.size, 0⟩,
          argument.size, argument.shortest)
      else .error .notEnoughData

/-- A float in a format; `shortest` says of its exact value whether no narrower format would do. -/
def readFloat (format : Format) (size : Nat) (shortest : Binary → Bool) (rest : Bytes) :
    Except DecodeError Body :=
  match Bytes.split? size rest with
  | some (front, _) =>
    let x := format.decode (Bytes.toNat front)
    .ok (.float (Double.ofBinary x), size, shortest x)
  | none => .error .notEnoughData

/-- A number that the narrower format does not hold. -/
def needsMoreThan (narrower : Format) (x : Binary) : Bool :=
  !x.isNotANumber && !x.fits narrower

/-- Simple values and floats. -/
def readSimple (info : Nat) (rest : Bytes) : Except DecodeError Body :=
  if info < 20 then .ok (.simple (UInt8.ofNat info), 0, true)
  else if info = 20 then .ok (.bool false, 0, true)
  else if info = 21 then .ok (.bool true, 0, true)
  else if info = 22 then .ok (.null, 0, true)
  else if info = 23 then .ok (.undefined, 0, true)
  else if info = 24 then
    match rest with
    | [] => .error .notEnoughData
    | value :: _ =>
      if value < 32 then .error (.invalidSimpleType value) else .ok (.simple value, 1, true)
  else if info = 25 then readFloat .half 2 (fun _ => true) rest
  else if info = 26 then readFloat .single 4 (needsMoreThan .half) rest
  else if info = 27 then readFloat .double 8 (needsMoreThan .single) rest
  else .error (.invalidSimpleType (UInt8.ofNat info))

/-- What follows an initial byte that ends at `start`. No further tag can follow the tags. -/
def readBody (start : Nat) (initial : UInt8) (rest : Bytes) : Except DecodeError Body :=
  let info := Head.info initial
  match Head.major initial with
  | .unsigned => readInteger .unsigned info rest
  | .negative => readInteger .negative info rest
  | .bytes => readBytes info rest
  | .text => readText info rest
  | .array => readContainer .array start info rest
  | .map => readContainer .map start info rest
  | .tag => .error .justTags
  | .simple => readSimple info rest

/-- Opens the item at the front of a byte string; nothing when the string is empty. -/
def open? (data : Bytes) : Except DecodeError (Option Item) :=
  match Tags.read data with
  | .error e => .error e
  | .ok tags =>
    match data.drop tags.size with
    | [] => if tags.isEmpty then .ok none else .error .justTags
    | initial :: rest =>
      match readBody (tags.size + 1) initial rest with
      | .error e => .error e
      | .ok (content, size, shortest) => .ok (some ⟨tags, shortest, content, tags.size + 1 + size⟩)

end Item

end CborRecords
