import CborRecords.Bytes
import CborRecords.Encode.Error

/-!
# Sinks

A sink takes bytes. It takes each write whole or leaves it.

* `Sink.counter` : only counts the bytes; `Sink.buffer` : a buffer in two parts, the bytes written
  and the bytes of it that are still as they were;
* `Sink.write`, `Sink.position`, `Sink.contents`.
-/

namespace CborRecords

/-- Where encoded bytes go. -/
inductive Sink
  | counter (count : Nat)
  | buffer (written free : Bytes)
  deriving DecidableEq, Repr

namespace Sink

/-- A buffer to be written from its start on. -/
def ofBuffer (buffer : Bytes) : Sink :=
  .buffer [] buffer

/-- The number of bytes taken. -/
def position : Sink → Nat
  | .counter count => count
  | .buffer written _ => written.length

/-- The whole buffer; a counter has none. -/
def contents : Sink → Bytes
  | .counter _ => []
  | .buffer written free => written ++ free

/-- Takes all of the bytes, or none of them when they do not fit. -/
def write (bytes : Bytes) (sink : Sink) : Except Stop Unit × Sink :=
  match sink with
  | .counter count => (.ok (), .counter (count + bytes.length))
  | .buffer written free =>
    if bytes.length ≤ free.length then
      (.ok (), .buffer (written ++ bytes) (free.drop bytes.length))
    else
      (.error (.error (.bufferTooSmall (written.length + bytes.length)
        (written.length + free.length))), sink)

/-- Writes `first` and, if that succeeds, goes on with `next`. -/
def andThen (first : Except Stop Unit × Sink) (next : Sink → Except Stop Unit × Sink) :
    Except Stop Unit × Sink :=
  match first with
  | (.ok (), sink) => next sink
  | (.error stop, sink) => (.error stop, sink)

end Sink

end CborRecords
