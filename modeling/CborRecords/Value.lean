import CborRecords.Sink
import CborRecords.Item
import CborRecords.Width

/-!
# Values to be encoded

* `Value` : what can be encoded, arrays and maps with an announced number of entries or none;
* `Value.emit` : writes a value to a sink;
* `Value.encodedLength` : the bytes it would take; `Value.encode` : writes it to a buffer, after
  checking that it fits.
-/

namespace CborRecords

/-- A value to be encoded. The items of a map are its keys and values in turn. -/
inductive Value
  | unsigned (n : UInt64)
  | signed (n : Int64)
  | bool (b : Bool)
  | null
  | undefined
  | simple (value : UInt8)
  | text (content : String)
  | bytes (content : Bytes)
  | container (kind : Container) (count : Option UInt64) (items : List Value)

namespace Value

/-- The value of an integer type. -/
def ofInteger (t : IntType) (n : Int) : Value :=
  if t.signed then .signed (Int64.ofInt n) else .unsigned (UInt64.ofNat n.toNat)

end Value

/-- The head of a container: the number of entries, or that the length is indefinite. -/
def Container.head (kind : Container) : Option UInt64 → Bytes
  | some count => Head.encode kind.major count
  | none => [Head.initial kind.major 31]

/-- The number of items that an announced number of entries stands for. The product is taken in 64 bits,
so that a map of `0x8000000000000000` pairs is taken for an empty one. -/
def Container.limit (kind : Container) (count : Option UInt64) : Option Nat :=
  count.map fun n => n.toNat * kind.arity % 0x10000000000000000

/-- Counts an item in before it is written; more items than announced are a misuse. -/
def Container.nextIndex (limit : Option Nat) (index : Nat) : Except Stop Nat :=
  match limit with
  | some most => if most < index + 1 then .error (.misuse .tooManyItems) else .ok (index + 1)
  | none => .ok (index + 1)

/-- Ends a container after `index` items. -/
def Container.finish (limit : Option Nat) (index : Nat) (sink : Sink) : Except Stop Unit × Sink :=
  match limit with
  | some expected =>
    if index = expected then (.ok (), sink)
    else (.error (.misuse (.missingItems index expected)), sink)
  | none => sink.write [Head.stop]

namespace Value

/-- The head and content of a string, in two writes. -/
def emitString (m : Major) (content : Bytes) (sink : Sink) : Except Stop Unit × Sink :=
  Sink.andThen (sink.write (Head.encode m (UInt64.ofNat content.length))) fun sink =>
    sink.write content

mutual

/-- Writes a value. What was written before an error stays. -/
def emit (value : Value) (sink : Sink) : Except Stop Unit × Sink :=
  match value with
  | .unsigned n => sink.write (Head.encode .unsigned n)
  | .signed n =>
    if 0 ≤ n then sink.write (Head.encode .unsigned n.toUInt64)
    else sink.write (Head.encode .negative (~~~n.toUInt64))
  | .bool b => sink.write [Head.initial .simple (if b then 21 else 20)]
  | .null => sink.write [Head.initial .simple 22]
  | .undefined => sink.write [Head.initial .simple 23]
  | .simple v =>
    if 20 ≤ v ∧ v ≤ 31 then (.error (.error (.invalidSimpleValue v)), sink)
    else sink.write (Head.encode .simple v.toUInt64)
  | .text content => emitString .text (Utf8.encode content) sink
  | .bytes content => emitString .bytes content sink
  | .container kind count items =>
    Sink.andThen (sink.write (kind.head count)) fun sink =>
      emitItems (kind.limit count) 0 items sink

/-- Writes the items of a container from the one numbered `index` on, and ends it. -/
def emitItems (limit : Option Nat) (index : Nat) (items : List Value) (sink : Sink) :
    Except Stop Unit × Sink :=
  match items with
  | [] => Container.finish limit index sink
  | item :: rest =>
    match Container.nextIndex limit index with
    | .error stop => (.error stop, sink)
    | .ok index => Sink.andThen (emit item sink) fun sink => emitItems limit index rest sink

end

/-- The number of bytes a value takes, up to an error of its own. -/
def encodedLength (value : Value) : Except Misuse Nat :=
  match value.emit (.counter 0) with
  | (.error (.misuse m), _) => .error m
  | (_, sink) => .ok sink.position

/-- Writes a value to the start of a buffer, which it leaves alone if the value does not fit. The
result has the number of bytes written and the buffer. -/
def encode (value : Value) (buffer : Bytes) : Except Stop Nat × Bytes :=
  match value.encodedLength with
  | .error m => (.error (.misuse m), buffer)
  | .ok needed =>
    if buffer.length < needed then
      (.error (.error (.bufferTooSmall needed buffer.length)), buffer)
    else
      match value.emit (.ofBuffer buffer) with
      | (.error stop, sink) => (.error stop, sink.contents)
      | (.ok (), sink) => (.ok sink.position, sink.contents)

end Value

end CborRecords
