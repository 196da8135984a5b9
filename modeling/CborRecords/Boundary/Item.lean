import CborRecords.Boundary.Region
import CborRecords.Scalar
import CborRecords.Value

/-!
# Items across the boundary

* `valueLength`, `bytesLength`, `textLength` : lengths of encoded values, zero on failure;
* `encodeValue`, `encodeBytes`, `encodeText`, `encodeHead` : values to a region;
* `decodeScalar`, `decodeSimple`, `decodeNull`, `decodeUndefined` : items from a region;
* `copyBytes`, `copyText` : the content of a string from one region to another;
* `entryCount` : the number of entries of an array or map.

The first item of a region is read; what follows it is left alone.
-/

namespace CborRecords.Boundary

/-! ## Encoding -/

/-- The number of bytes of an encoded value. -/
def valueLength (v : Value) : Reply Unit :=
  ⟨Nat.min (v.emit (.counter 0)).2.position maxLength, [], ()⟩

/-- Encodes a value to a region. -/
def encodeValue (dst : Region) (v : Value) : Reply (Option Bytes) :=
  match dst.window "dst" with
  | .error e => .item (.error e) dst.memory
  | .ok window =>
    match v.encode window with
    | (.ok length, window) => .item (.ok length) (dst.update window)
    | (.error stop, window) => .item (.error (.ofStop stop)) (dst.update window)

/-- Encodes the head of a definite array or map to a region. -/
def encodeHead (dst : Region) (kind : Container) (count : UInt32) : Reply (Option Bytes) :=
  match dst.window "dst" with
  | .error e => .item (.error e) dst.memory
  | .ok window =>
    match (Sink.ofBuffer window).write (kind.head (some count.toUInt64)) with
    | (.ok (), sink) => .item (.ok sink.position) (dst.update sink.contents)
    | (.error stop, sink) => .item (.error (.ofStop stop)) (dst.update sink.contents)

/-- The bytes of a region as a value. -/
def bytesValue (src : Region) : Except RecordError Value :=
  match src.window "src" with
  | .error e => .error e
  | .ok data => .ok (.bytes data)

/-- The text of a region as a value. -/
def textValue (src : Region) : Except RecordError Value :=
  match src.window "src" with
  | .error e => .error e
  | .ok data =>
    match Utf8.decode data with
    | .error _ => .error (.schemaMismatch "src" .utf8)
    | .ok text => .ok (.text text)

/-- The length of a value that a region may hold. -/
def lengthOrZero : Except RecordError Value → Reply Unit
  | .ok v => valueLength v
  | .error _ => ⟨0, [], ()⟩

/-- The length of the bytes of a region, encoded; zero if it has no address. -/
def bytesLength (src : Region) : Reply Unit :=
  lengthOrZero (bytesValue src)

/-- The length of the text of a region, encoded; zero if it has no address or is no text. -/
def textLength (src : Region) : Reply Unit :=
  lengthOrZero (textValue src)

/-- Encodes a value that a region may hold to another. -/
def encodeFrom (dst : Region) : Except RecordError Value → Reply (Option Bytes)
  | .ok v => encodeValue dst v
  | .error e => .item (.error e) dst.memory

/-- Encodes the bytes of a region, which is checked first. -/
def encodeBytes (dst src : Region) : Reply (Option Bytes) :=
  encodeFrom dst (bytesValue src)

/-- Encodes the text of a region, which is checked first. -/
def encodeText (dst src : Region) : Reply (Option Bytes) :=
  encodeFrom dst (textValue src)

/-! ## Decoding -/

/-- What a failure of the item decoder amounts to here. -/
def lift {α : Type} : Except DecodeError α → Except RecordError α
  | .ok a => .ok a
  | .error e => .error (.ofDecode RecordError.header e)

/-- Reads the first item of some bytes. -/
def readItem {α : Type} (visit : Item → Except DecodeError α) (data : Bytes) :
    Except DecodeError (α × Nat) :=
  match Cursor.require (Item.open? data) with
  | .error e => .error e
  | .ok item =>
    match visit item with
    | .error e => .error e
    | .ok a =>
      match item.close item.content with
      | .error e => .error e
      | .ok length => .ok (a, length)

/-- Reads something from a region to an address, which is checked after the region. -/
def readTo {α : Type} (place : Option α) (src : Region)
    (read : Bytes → Except DecodeError (α × Nat)) : Reply (Option α) :=
  match src.window "src" with
  | .error e => .item (.error e) place
  | .ok data =>
    match place with
    | none => .item (.error (.nullPointer "dst")) none
    | some _ =>
      match lift (read data) with
      | .error e => .item (.error e) place
      | .ok (a, length) => .item (.ok length) (some a)

/-- Reads a scalar of a type. -/
def decodeScalar (t : ScalarType) (place : Option Scalar) (src : Region) : Reply (Option Scalar) :=
  readTo place src fun data =>
    match t.read data with
    | .error e => .error e
    | .ok (value, _, length) => .ok (value, length)

/-- Any simple value by its code, with booleans, null and undefined. -/
def simpleNumber (item : Item) : Except DecodeError UInt8 :=
  match item.content with
  | .bool b => .ok (if b then 21 else 20)
  | .null => .ok 22
  | .undefined => .ok 23
  | .simple v => .ok v
  | content => .error (.incorrectType "Simple Value" content.typeName)

/-- Reads a simple value. -/
def decodeSimple (place : Option UInt8) (src : Region) : Reply (Option UInt8) :=
  readTo place src (readItem simpleNumber)

/-- Reads an item that must be one without tags. -/
def decodeUnit (expected : String) (wanted : Content → Bool) (src : Region) : Reply Unit :=
  let visit (item : Item) : Except DecodeError Unit :=
    if item.tags.isEmpty && wanted item.content then .ok ()
    else .error (.incorrectType expected item.typeName)
  match src.window "src" with
  | .error e => .item (.error e) ()
  | .ok data =>
    match lift (readItem visit data) with
    | .error e => .item (.error e) ()
    | .ok (_, length) => .item (.ok length) ()

/-- Reads a null. -/
def decodeNull (src : Region) : Reply Unit :=
  decodeUnit "Null" (fun | .null => true | _ => false) src

/-- Reads an undefined. -/
def decodeUndefined (src : Region) : Reply Unit :=
  decodeUnit "Undefined" (fun | .undefined => true | _ => false) src

/-- Copies the content of a string to a region, whole or not at all. The string is read first. -/
def copyContent (content : Item → Except DecodeError Bytes) (dst src : Region) :
    Reply (Option Bytes) :=
  match src.window "src" with
  | .error e => .item (.error e) dst.memory
  | .ok data =>
    match lift (readItem content data) with
    | .error e => .item (.error e) dst.memory
    | .ok (bytes, _) =>
      match dst.window "dst" with
      | .error e => .item (.error e) dst.memory
      | .ok window =>
        if window.length < bytes.length then
          .item (.error (.capacity bytes.length window.length)) dst.memory
        else .item (.ok bytes.length) (dst.update bytes)

/-- Copies the content of a definite byte string. -/
def copyBytes (dst src : Region) : Reply (Option Bytes) :=
  copyContent (fun item =>
    match item.content with
    | .bytes b => .ok b
    | content => .error (.incorrectType "Byte String" content.typeName)) dst src

/-- Copies the content of a definite text string. -/
def copyText (dst src : Region) : Reply (Option Bytes) :=
  copyContent (fun item =>
    match item.content with
    | .text s => .ok (Utf8.encode s)
    | content => .error (.incorrectType "Text String" content.typeName)) dst src

/-- The number of entries of the array or map in a region, zero if it is indefinite. A number that
cannot be returned is a failure without a message. -/
def entryCount (kind : Container) (src : Region) : Reply Unit :=
  match src.window "src" with
  | .error e => .item (.error e) ()
  | .ok data =>
    match kind.readHead data with
    | .error e => .failed e.message ()
    | .ok (none, _) => ⟨0, [], ()⟩
    | .ok (some count, _) => ⟨if count.toNat ≤ maxCode then count.toNat else -1, [], ()⟩

end CborRecords.Boundary
