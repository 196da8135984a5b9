import CborRecords.Tree
import CborRecords.Decimal
import CborRecords.Hex
import CborRecords.Quoted

/-!
# Diagnostic notation

* `Tree.chars` : the notation of a tree: numbers in decimal, byte strings as `h'…'` with the digits of
  a codec, text in quotes, tags as `n(…)`, arrays and maps in brackets, `_` where a length is indefinite;
* `Tree.render` : the same as a text;
* `Notation.maxHeight` : how high an item may be to be shown.
-/

namespace CborRecords

namespace Notation
open Quoted (apostrophe)

/-- Numbers from `0.0001` up to `10 ^ 16` are positional, and an exponent has no plus sign. -/
def float : Layout := ⟨-4, 15, "e"⟩

/-- A control character of the first 256 characters. -/
def isControl (c : Char) : Bool :=
  c.toNat < 0x20 || (0x7F ≤ c.toNat && c.toNat < 0xA0)

/-- A character inside quotes. -/
def escape (c : Char) : List Char :=
  if c = '"' then ['\\', '"']
  else if c = '\\' then ['\\', '\\']
  else if c = '\n' then ['\\', 'n']
  else if c = '\r' then ['\\', 'r']
  else if c = '\t' then ['\\', 't']
  else if isControl c then
    ['\\', 'u', '0', '0', Hex.digit (c.toNat / 16), Hex.digit (c.toNat % 16)]
  else [c]

/-- A text in quotes. -/
def quoted (text : String) : List Char :=
  '"' :: text.toList.flatMap escape ++ ['"']

/-- A byte string in hexadecimal. -/
def hexadecimal (hex : HexCodec) (content : Bytes) : List Char :=
  ['h', apostrophe] ++ (hex.encode content).toList ++ [apostrophe]

/-- Parts with a comma between them. -/
def list (parts : List (List Char)) : List Char :=
  [',', ' '].intercalate parts

/-- Parts two by two, with a colon between the two. -/
def pairs : List (List Char) → List (List Char)
  | key :: value :: rest => (key ++ [':', ' '] ++ value) :: pairs rest
  | rest => rest

/-- A container of the given parts. -/
def container (kind : Container) (definite : Bool) (parts : List (List Char)) : List Char :=
  let mark := if definite then [] else ['_', ' ']
  match kind with
  | .array => '[' :: mark ++ list parts ++ [']']
  | .map => Char.ofNat 0x7B :: mark ++ list (pairs parts) ++ [Char.ofNat 0x7D]

/-- A string in chunks. -/
def chunks (parts : List (List Char)) : List Char :=
  ['(', '_', ' '] ++ list parts ++ [')']

/-- A floating-point number. -/
def number (x : Double) : List Char :=
  match x.value with
  | ⟨_, .notANumber⟩ => "NaN".toList
  | ⟨false, .infinite⟩ => "Infinity".toList
  | ⟨true, .infinite⟩ => "-Infinity".toList
  | ⟨negative, .finite significand exponent⟩ => (float.write negative significand exponent).toList

/-- A natural number in decimal. -/
def decimal (n : Nat) : List Char :=
  Nat.toDigits 10 n

end Notation

namespace Tree
open Notation

mutual

/-- The notation of a tree. -/
def chars (hex : HexCodec) : Tree → List Char
  | .unsigned n => decimal n.toNat
  | .negative n => '-' :: decimal (n.toNat + 1)
  | .bytes content => hexadecimal hex content
  | .byteChunks contents => chunks (contents.map (hexadecimal hex))
  | .text content => quoted content
  | .textChunks contents => chunks (contents.map quoted)
  | .container kind definite items => Notation.container kind definite (charsAll hex items)
  | .bool false => "false".toList
  | .bool true => "true".toList
  | .null => "null".toList
  | .undefined => "undefined".toList
  | .simple value => "simple(".toList ++ decimal value.toNat ++ [')']
  | .float x => number x
  | .tagged n inner => decimal n.toNat ++ '(' :: inner.chars hex ++ [')']

/-- The notations of trees, in order. -/
def charsAll (hex : HexCodec) : List Tree → List (List Char)
  | [] => []
  | tree :: rest => tree.chars hex :: charsAll hex rest

end

/-- The notation of a tree as a text. -/
def render (hex : HexCodec) (tree : Tree) : String :=
  String.ofList (tree.chars hex)

end Tree

namespace Notation

/-- The height that trees may have. -/
def maxHeight : Nat := 16

end Notation

end CborRecords
