import CborRecords.Hex
import CborRecords.Toml.Outline

/-!
# Strings and keys of TOML text

* `Raw.string` : the text of a string; strings in quotes have escapes, and those of several lines may
  start with the end of a line, which does not count;
* `Raw.key` : the text of a part of a key;
* `Toml.Name` : the same with its place.
-/

namespace CborRecords.Toml
open Quoted (apostrophe)

/-- The character cannot be seen: it is a control character other than a tab. -/
def isControl (c : Char) : Bool :=
  (c.toNat < 0x20 && c ≠ '\t') || c.toNat = 0x7F

/-! ## Escapes -/

/-- The value of a hexadecimal digit. -/
def hexValue? (c : Char) : Option Nat :=
  if c.toNat < 128 then Hex.value? (UInt8.ofNat c.toNat) else none

/-- The character of a fixed number of hexadecimal digits, and what follows them. -/
def numbered (count place : Nat) (chars : List Char) : Except Fault (Char × List Char) :=
  let digits := (chars.take count).takeWhile fun c => (hexValue? c).isSome
  if digits.length < count then .error ⟨.shortEscape, ⟨place, place⟩⟩
  else
    let code := (digits.filterMap hexValue?).foldl (fun n d => n * 16 + d) 0
    if code.isValidChar then .ok (Char.ofNat code, chars.drop count)
    else .error ⟨.noSuchCharacter, ⟨place, place⟩⟩

/-- The character that an escape stands for, after its backslash, and what follows it. -/
def escaped (place : Nat) : List Char → Except Fault (Char × List Char)
  | 'b' :: rest => .ok (Char.ofNat 0x08, rest)
  | 'e' :: rest => .ok (Char.ofNat 0x1B, rest)
  | 'f' :: rest => .ok (Char.ofNat 0x0C, rest)
  | 'n' :: rest => .ok ('\n', rest)
  | 'r' :: rest => .ok ('\r', rest)
  | 't' :: rest => .ok ('\t', rest)
  | '"' :: rest => .ok ('"', rest)
  | '\\' :: rest => .ok ('\\', rest)
  | 'x' :: rest => numbered 2 (place + 1) rest
  | 'u' :: rest => numbered 4 (place + 1) rest
  | 'U' :: rest => numbered 8 (place + 1) rest
  | _ => .error ⟨.badEscape, ⟨place, place⟩⟩

/-- What follows blanks and ends of lines; a carriage return belongs to an end of a line only before a
newline. -/
def skipLines (place : Nat) : List Char → Except Fault (List Char)
  | [] => .ok []
  | '\r' :: '\n' :: rest => skipLines (place + 2) rest
  | c :: rest =>
    if c = '\r' then .error ⟨.loneReturn, ⟨place + 1, place + 1⟩⟩
    else if isBlank c || c = '\n' then skipLines (place + 1) rest
    else .ok (c :: rest)

/-- What follows a backslash at the end of a line: the line ends, and blanks after it are passed. -/
def escapedLineEnd (place : Nat) (chars : List Char) : Except Fault (List Char) :=
  let blanks := chars.takeWhile isBlank
  let rest := chars.dropWhile isBlank
  if rest.head? = some '\n' ∨ rest.head? = some '\r' then skipLines (place + blanks.length) rest
  else .error ⟨.noLineEnd, ⟨place, place + blanks.length⟩⟩

/-! ## Bodies of strings -/

/-- The characters of a string in quotes, from a byte of the source on. Each step takes a character. -/
def unescape (quoting : Quoting) : (limit place : Nat) → List Char → Except Fault (List Char)
  | 0, _, _ | _, _, [] => .ok []
  | limit + 1, place, c :: rest =>
    let long := quoting = .longBasic
    if c = '\\' then
      if long ∧ (rest.head?.map fun c => isBlank c || c = '\r' || c = '\n') = some true then do
        let after ← escapedLineEnd (place + 1) rest
        unescape quoting limit (place + 1 + (width rest - width after)) after
      else do
        let (d, after) ← escaped (place + 1) rest
        let more ← unescape quoting limit (place + 1 + (width rest - width after)) after
        return d :: more
    else if long ∧ c = '\r' then
      if rest.head? = some '\n' then do
        let more ← unescape quoting limit (place + 1) rest
        return c :: more
      else .error ⟨.loneReturn, ⟨place + 1, place + 1⟩⟩
    else if isControl c && !(long && c = '\n') then
      let run := rest.takeWhile fun c => isControl c && !(long && (c = '\n' || c = '\r'))
      .error ⟨.badCharacter quoting, ⟨place, place + 1 + width run⟩⟩
    else do
      let more ← unescape quoting limit (place + c.utf8Size) rest
      return c :: more

/-- The characters of a string in apostrophes, which has no escapes. -/
def literalBody (quoting : Quoting) (place : Nat) : List Char → Except Fault (List Char)
  | [] => .ok []
  | c :: rest =>
    let long := quoting = .longLiteral
    if long ∧ c = '\r' ∧ rest.head? ≠ some '\n' then .error ⟨.loneReturn, ⟨place, place⟩⟩
    else if isControl c && !(long && (c = '\n' || c = '\r')) then
      .error ⟨.badCharacter quoting, ⟨place, place⟩⟩
    else do
      let more ← literalBody quoting (place + c.utf8Size) rest
      return c :: more

/-- The characters without the end of a line in front. -/
def dropLineEnd : List Char → List Char
  | '\n' :: rest => rest
  | '\r' :: '\n' :: rest => rest
  | chars => chars

namespace Raw

/-- The text of a string. -/
def string (quoting : Quoting) (p : Piece) : Except Fault String :=
  let (marks, long) : List Char × Bool :=
    match quoting with
    | .literal => ([apostrophe], false)
    | .basic => (['"'], false)
    | .longLiteral => (List.replicate 3 apostrophe, true)
    | .longBasic => (List.replicate 3 '"', true)
  let opened := p.chars.drop marks.length
  let body := if long then dropLineEnd opened else opened
  let place := p.span.stop - width body
  if marks.isSuffixOf body then
    let inside := body.take (body.length - marks.length)
    let chars :=
      match quoting with
      | .literal | .longLiteral => literalBody quoting place inside
      | .basic | .longBasic => unescape quoting inside.length place inside
    chars.map String.ofList
  else .error ⟨.unclosedString quoting, p.span.after⟩

/-- The character may stand in a key without quotes. -/
def isKeyChar (c : Char) : Bool :=
  c.isAlphanum || c = '_' || c = '-'

/-- The text of a part of a key. -/
def key (r : Raw) : Except Fault String :=
  match r.quoting with
  | some .literal => string .literal r.piece
  | some .basic => string .basic r.piece
  | some quoting => .error ⟨.longKey quoting, r.piece.span⟩
  | none =>
    let good := width (r.piece.chars.takeWhile isKeyChar)
    if r.piece.chars.isEmpty then .error ⟨.emptyKey, r.piece.span⟩
    else if r.piece.chars.all isKeyChar then .ok (String.ofList r.piece.chars)
    else .error ⟨.badKeyCharacter, r.piece.within good good⟩

end Raw

/-- A part of a key and its place. -/
structure Name where
  text : String
  span : Span
  deriving DecidableEq, Repr

/-- The parts of a key. -/
def names : List Raw → Except Fault (List Name)
  | [] => .ok []
  | raw :: rest => do
    let text ← raw.key
    let more ← names rest
    return ⟨text, raw.piece.span⟩ :: more

end CborRecords.Toml
