import CborRecords.Bytes

/-!
# UTF-8

* `Utf8.encode` : the bytes of a text;
* `Utf8.decode` : the text of bytes, refused at the first byte that no character can hold
  (`Utf8.Fault` : how many bytes are good, and how long the bad start of a character is);
* `Utf8.repair` : the text of bytes, with a replacement character for each part that is no character;
* `Utf8.clip` : the longest start of a text that fits a number of bytes and splits no character.
-/

namespace CborRecords.Utf8

/-- The bytes of a text, character by character. -/
def encode (text : String) : Bytes :=
  text.toList.flatMap String.utf8EncodeChar

/-- The number of bytes of a text. -/
def size (text : String) : Nat :=
  (encode text).length

/-- Why bytes are not UTF-8: the length of the longest good start, and the length of the start of
a character after it that no byte can continue (none when the bytes end inside a character). -/
structure Fault where
  validUpTo : Nat
  badLength : Option Nat
  deriving DecidableEq, Repr

/-- The wording of a fault. -/
def Fault.message (fault : Fault) : String :=
  match fault.badLength with
  | some n =>
    "invalid utf-8 sequence of " ++ toString n ++ " bytes from index " ++ toString fault.validUpTo
  | none => "incomplete utf-8 byte sequence from index " ++ toString fault.validUpTo

/-- What the first byte of a longer character asks of the bytes after it: how many there are, the
range of the first of them, and the bits it gives to the character itself. -/
structure Lead where
  tail : Nat
  low : UInt8
  high : UInt8
  bits : Nat
  deriving Repr

/-- The first byte of a character of two, three or four bytes. The ranges of the second byte shut
out overlong forms, surrogates and code points past the last character. -/
def Lead.ofByte? (b : UInt8) : Option Lead :=
  if 0xC2 ≤ b ∧ b ≤ 0xDF then some ⟨1, 0x80, 0xBF, b.toNat - 0xC0⟩
  else if b = 0xE0 then some ⟨2, 0xA0, 0xBF, 0⟩
  else if b = 0xED then some ⟨2, 0x80, 0x9F, 0xD⟩
  else if 0xE1 ≤ b ∧ b ≤ 0xEF then some ⟨2, 0x80, 0xBF, b.toNat - 0xE0⟩
  else if b = 0xF0 then some ⟨3, 0x90, 0xBF, 0⟩
  else if 0xF1 ≤ b ∧ b ≤ 0xF3 then some ⟨3, 0x80, 0xBF, b.toNat - 0xF0⟩
  else if b = 0xF4 then some ⟨3, 0x80, 0x8F, 4⟩
  else none

/-- The second byte lies in the range the first one leaves. -/
def Lead.admits (lead : Lead) (b : UInt8) : Bool :=
  lead.low ≤ b ∧ b ≤ lead.high

/-- A byte that continues a character. -/
def isTail (b : UInt8) : Bool :=
  0x80 ≤ b ∧ b ≤ 0xBF

/-- The code point so far, with the six bits of one more byte. -/
def extend (code : Nat) (b : UInt8) : Nat :=
  code * 64 + (b.toNat - 0x80)

/-- Reads characters to the end; `valid` bytes were read before, `back` are their characters, last
one first. -/
def decodeFrom (valid : Nat) (back : List Char) : Bytes → Except Fault (List Char)
  | [] => .ok back.reverse
  | a :: afterA =>
    if a < 0x80 then decodeFrom (valid + 1) (Char.ofNat a.toNat :: back) afterA
    else
      match Lead.ofByte? a with
      | none => .error ⟨valid, some 1⟩
      | some lead =>
        match afterA with
        | [] => .error ⟨valid, none⟩
        | b :: afterB =>
          if lead.admits b = false then .error ⟨valid, some 1⟩
          else if lead.tail = 1 then
            decodeFrom (valid + 2) (Char.ofNat (extend lead.bits b) :: back) afterB
          else
            match afterB with
            | [] => .error ⟨valid, none⟩
            | c :: afterC =>
              if isTail c = false then .error ⟨valid, some 2⟩
              else if lead.tail = 2 then
                decodeFrom (valid + 3) (Char.ofNat (extend (extend lead.bits b) c) :: back) afterC
              else
                match afterC with
                | [] => .error ⟨valid, none⟩
                | d :: afterD =>
                  if isTail d = false then .error ⟨valid, some 3⟩
                  else
                    decodeFrom (valid + 4)
                      (Char.ofNat (extend (extend (extend lead.bits b) c) d) :: back) afterD

/-- The text of the bytes. -/
def decode (bytes : Bytes) : Except Fault String :=
  match decodeFrom 0 [] bytes with
  | .ok chars => .ok (String.ofList chars)
  | .error fault => .error fault

/-- The replacement character, for bytes that are no character. -/
def replacement : Char := Char.ofNat 0xFFFD

/-- Reads characters to the end, with a replacement character for each bad start of one. Each step takes a
byte. -/
def repairFrom : (limit : Nat) → Bytes → List Char
  | 0, _ => []
  | limit + 1, bytes =>
    match decodeFrom 0 [] bytes with
    | .ok chars => chars
    | .error fault =>
      let good := (decodeFrom 0 [] (bytes.take fault.validUpTo)).toOption.getD []
      let rest := (fault.badLength.map fun n => bytes.drop (fault.validUpTo + n)).getD []
      good ++ replacement :: repairFrom limit rest

/-- The text of the bytes, with a replacement character for each part that is none. -/
def repair (bytes : Bytes) : String :=
  String.ofList (repairFrom (bytes.length + 1) bytes)

/-- The last place at or before byte `n` of a text where no character is split. -/
def boundary (text : String) : Nat → text.Pos
  | 0 => text.startPos
  | n + 1 => if h : String.Pos.Raw.IsValid text ⟨n + 1⟩ then ⟨⟨n + 1⟩, h⟩ else boundary text n

/-- The longest start of the text that fits `room` bytes and splits no character. -/
def clip (room : Nat) (text : String) : String :=
  (text.sliceTo (boundary text (min room text.utf8ByteSize))).copy

end CborRecords.Utf8
