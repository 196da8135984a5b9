import CborRecords.Decode.Error

/-!
# Heads of items

An item starts with one byte that gives its major type (the high three bits) and additional
information (the low five), and an argument of up to eight bytes.

* `Major` : the eight major types;
* `Head.major`, `Head.info`, `Head.initial` : the parts of an initial byte and the byte of the parts;
* `Argument.read` : the argument that the additional information announces, with its size and
  whether no shorter form would do;
* `Head.encode` : the shortest head for a major type and an argument;
* `Head.readString` : a string's content after its head.
-/

namespace CborRecords

/-- The major type of an item. -/
inductive Major
  | unsigned
  | negative
  | bytes
  | text
  | array
  | map
  | tag
  | simple
  deriving DecidableEq, Repr

namespace Major

/-- The code of a major type. -/
def code : Major → Nat
  | .unsigned => 0
  | .negative => 1
  | .bytes => 2
  | .text => 3
  | .array => 4
  | .map => 5
  | .tag => 6
  | .simple => 7

/-- The major type of a code; every code from seven on is the last. -/
def ofCode : Nat → Major
  | 0 => .unsigned
  | 1 => .negative
  | 2 => .bytes
  | 3 => .text
  | 4 => .array
  | 5 => .map
  | 6 => .tag
  | _ => .simple

/-- The name of a major type. -/
def name : Major → String
  | .unsigned => "Unsigned Integer"
  | .negative => "Negative Integer"
  | .bytes => "Byte String"
  | .text => "Text String"
  | .array => "Array"
  | .map => "Map"
  | .tag => "Tag"
  | .simple => "Simple Value"

@[simp] theorem ofCode_code (m : Major) : ofCode m.code = m := by
  cases m <;> rfl

theorem code_lt (m : Major) : m.code < 8 := by
  cases m <;> decide

end Major

namespace Head

/-- The major type that an initial byte gives. -/
def major (initial : UInt8) : Major :=
  Major.ofCode (initial.toNat / 32)

/-- The additional information that an initial byte gives, below 32. -/
def info (initial : UInt8) : Nat :=
  initial.toNat % 32

/-- The initial byte of a major type and additional information. -/
def initial (m : Major) (info : Nat) : UInt8 :=
  UInt8.ofNat (m.code * 32 + info)

theorem toNat_initial (m : Major) {i : Nat} (h : i < 32) : (initial m i).toNat = m.code * 32 + i := by
  have := m.code_lt
  simp only [initial, UInt8.toNat_ofNat']
  omega

@[simp] theorem major_initial (m : Major) {i : Nat} (h : i < 32) : major (initial m i) = m := by
  rw [major, toNat_initial m h, show (m.code * 32 + i) / 32 = m.code by omega, Major.ofCode_code]

@[simp] theorem info_initial (m : Major) {i : Nat} (h : i < 32) : info (initial m i) = i := by
  rw [info, toNat_initial m h]
  omega

/-- The byte that ends a string, array or map of indefinite length. -/
def stop : UInt8 := 0xFF

end Head

/-- An argument: its value, the bytes it takes after the initial byte, and whether it could not have
been written in fewer. -/
structure Argument where
  value : UInt64
  size : Nat
  shortest : Bool
  deriving DecidableEq, Repr

namespace Argument

/-- An argument in `size` bytes of its own, which values from `least` on need. -/
def readFixed (size least : Nat) (rest : Bytes) : Except DecodeError Argument :=
  match Bytes.split? size rest with
  | some (front, _) =>
    let n := Bytes.toNat front
    .ok ⟨UInt64.ofNat n, size, least ≤ n⟩
  | none => .error .notEnoughData

/-- The argument that additional information announces, read from the bytes after the initial one. -/
def read (info : Nat) (rest : Bytes) : Except DecodeError Argument :=
  if info < 24 then .ok ⟨UInt64.ofNat info, 0, true⟩
  else if info = 24 then readFixed 1 24 rest
  else if info = 25 then readFixed 2 0x100 rest
  else if info = 26 then readFixed 4 0x10000 rest
  else if info = 27 then readFixed 8 0x100000000 rest
  else .error (.invalidMinorValue (UInt8.ofNat info))

end Argument

namespace Head

/-- The shortest head for a major type and an argument. -/
def encode (m : Major) (argument : UInt64) : Bytes :=
  let n := argument.toNat
  if n < 24 then [initial m n]
  else if n < 0x100 then initial m 24 :: Bytes.ofNat 1 n
  else if n < 0x10000 then initial m 25 :: Bytes.ofNat 2 n
  else if n < 0x100000000 then initial m 26 :: Bytes.ofNat 4 n
  else initial m 27 :: Bytes.ofNat 8 n

/-- A string's content: the argument is its length, and the content follows. The result has the
content, the bytes taken after the initial one, and whether the argument was the shortest. -/
def readString (info : Nat) (rest : Bytes) : Except DecodeError (Bytes × Nat × Bool) :=
  match Argument.read info rest with
  | .error e => .error e
  | .ok argument =>
    match Bytes.split? argument.value.toNat (rest.drop argument.size) with
    | some (content, _) => .ok (content, argument.size + content.length, argument.shortest)
    | none => .error .notEnoughData

end Head

end CborRecords
