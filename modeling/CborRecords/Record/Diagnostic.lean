import CborRecords.Record.Error

/-!
# Diagnostics

A diagnostic is a record error with its message in a fixed number of bytes.

* `BoundedText` : a buffer that pieces of text are written to one after another, each cut at a character
  to what is left of it;
* `Diagnostic.ofError` : the message of an error in 128 bytes;
* `Diagnostic.copyTo` : the start of the message that a buffer holds.
-/

namespace CborRecords

/-- A buffer of which the first `length` bytes have been written. -/
structure BoundedText where
  buffer : Bytes
  length : Nat
  deriving DecidableEq, Repr

namespace BoundedText

/-- Zeros, of which none has been written. -/
def blank (capacity : Nat) : BoundedText :=
  ⟨List.replicate capacity 0, 0⟩

/-- What has been written. -/
def contents (b : BoundedText) : Bytes :=
  b.buffer.take b.length

/-- Writes a piece behind what is there, cut at a character if it is longer than the room that is left. -/
def write (b : BoundedText) (piece : String) : BoundedText :=
  let part := Utf8.encode (Utf8.clip (b.buffer.length - b.length) piece)
  let after := b.length + part.length
  ⟨b.buffer.take b.length ++ part ++ b.buffer.drop after, after⟩

/-- Writes pieces in order. A piece that was cut does not keep later ones from being written. -/
def writeAll (b : BoundedText) (pieces : List String) : BoundedText :=
  pieces.foldl write b

/-- What has been written, as a text; nothing if it is none. -/
def text (b : BoundedText) : String :=
  (Utf8.decode b.contents).toOption.getD ""

end BoundedText

/-- An error with its message. -/
structure Diagnostic where
  error : RecordError
  text : String
  deriving DecidableEq, Repr

namespace Diagnostic

/-- The bytes a message may take. -/
def capacity : Nat := 128

/-- The text of pieces that are written one after another into `room` bytes. -/
def fill (room : Nat) (pieces : List String) : String :=
  ((BoundedText.blank room).writeAll pieces).text

/-- The diagnostic of an error. -/
def ofError (error : RecordError) : Diagnostic :=
  ⟨error, fill capacity error.pieces⟩

/-- The error code. -/
def code (d : Diagnostic) : Int :=
  d.error.code

/-- Copies the message into a buffer, cut at a character if it is longer. The result has the number
of bytes copied and the buffer. -/
def copyTo (d : Diagnostic) (out : Bytes) : Nat × Bytes :=
  let bytes := Utf8.encode (Utf8.clip out.length d.text)
  (bytes.length, bytes ++ out.drop bytes.length)

end Diagnostic

end CborRecords
