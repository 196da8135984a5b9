import CborRecords.Quoted.Hidden

/-!
# Text in quotes

* `Quoted.escape` : a character inside quotes;
* `Quoted.text` : a text in quotes, from which it can be read back: quotes and backslashes are
  escaped, and so is what cannot be seen;
* `Quoted.character` : the same of a character in apostrophes.
-/

namespace CborRecords.Quoted

/-- The character is shown as it is. -/
def isShown (c : Char) : Bool :=
  let n := c.toNat
  if n < 0x7F then 0x20 ≤ n else !hidden.any fun (first, last) => first ≤ n && n ≤ last

/-- The digits of a number in base sixteen. -/
def hexDigits (n : Nat) : List Char :=
  Nat.toDigits 16 n

/-- A character inside quotes. -/
def escape (c : Char) : List Char :=
  if c = '"' then ['\\', '"']
  else if c = '\\' then ['\\', '\\']
  else if c = '\n' then ['\\', 'n']
  else if c = '\r' then ['\\', 'r']
  else if c = '\t' then ['\\', 't']
  else if c.toNat = 0 then ['\\', '0']
  else if isShown c then [c]
  else ['\\', 'u', Char.ofNat 0x7B] ++ hexDigits c.toNat ++ [Char.ofNat 0x7D]

/-- A text in quotes. -/
def text (s : String) : String :=
  String.ofList ('"' :: s.toList.flatMap escape ++ ['"'])

/-- The quote around a character. -/
def apostrophe : Char := Char.ofNat 0x27

/-- A character in apostrophes. A quote needs no escape there, and an apostrophe does. -/
def character (c : Char) : String :=
  let inside :=
    if c = '"' then [c] else if c = apostrophe then ['\\', apostrophe] else escape c
  String.ofList (apostrophe :: inside ++ [apostrophe])

end CborRecords.Quoted
