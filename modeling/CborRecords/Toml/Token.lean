import CborRecords.Quoted
import CborRecords.Toml.Fault

/-!
# Tokens of TOML text

* `Toml.Piece` : characters of a source and where they stand;
* `Toml.Token` : a piece of some kind: punctuation, a string, a word, a blank, a comment or the end of a line;
* `Toml.tokens` : the tokens of a source, one after the other, and a last one for its end. Any source
  has tokens: strings that are not closed and words that mean nothing are told apart later.
-/

namespace CborRecords.Toml
open Quoted (apostrophe)

/-- The number of bytes of characters. -/
def width (chars : List Char) : Nat :=
  chars.foldl (fun n c => n + c.utf8Size) 0

/-- Characters of a source, and the byte that they start at. -/
structure Piece where
  start : Nat
  chars : List Char
  deriving DecidableEq, Repr

namespace Piece

def span (p : Piece) : Span :=
  ⟨p.start, p.start + width p.chars⟩

/-- The span from one byte of a piece to another. -/
def within (p : Piece) (first last : Nat) : Span :=
  ⟨p.start + first, p.start + last⟩

end Piece

/-- The kinds of tokens. -/
inductive Kind
  | dot
  | equals
  | comma
  | openBracket
  | closeBracket
  | openBrace
  | closeBrace
  | blank
  | comment
  | newline
  | string (quoting : Quoting)
  | word
  | finish
  deriving DecidableEq, Repr

/-- A token. -/
structure Token where
  kind : Kind
  piece : Piece
  deriving DecidableEq, Repr

def Token.span (t : Token) : Span :=
  t.piece.span

/-! ## Strings -/

/-- The rest of a string in apostrophes, and what follows it. It ends with its line at the latest. -/
def closeLiteral : List Char → List Char × List Char
  | [] => ([], [])
  | c :: rest =>
    if c = apostrophe then ([c], rest)
    else if c = '\n' then ([], c :: rest)
    else
      let (more, after) := closeLiteral rest
      (c :: more, after)

/-- The rest of a string in quotes, and what follows it. A quote after a backslash does not close it,
and it ends with its line at the latest. -/
def closeBasic : List Char → List Char × List Char
  | [] => ([], [])
  | '"' :: rest => (['"'], rest)
  | '\n' :: rest => ([], '\n' :: rest)
  | '\\' :: '\\' :: rest =>
    let (more, after) := closeBasic rest
    ('\\' :: '\\' :: more, after)
  | '\\' :: '"' :: rest =>
    let (more, after) := closeBasic rest
    ('\\' :: '"' :: more, after)
  | c :: rest =>
    let (more, after) := closeBasic rest
    (c :: more, after)

/-- Marks that close a string of several lines: three, and up to two more that belong to the string. -/
def closingMarks (mark : Char) (chars : List Char) : Option (List Char) :=
  if chars.take 3 = [mark, mark, mark] then some ((chars.take 5).takeWhile (· = mark)) else none

/-- The rest of a string of several lines in apostrophes, and what follows it. -/
def closeLongLiteral : List Char → List Char × List Char
  | [] => ([], [])
  | c :: rest =>
    match closingMarks apostrophe (c :: rest) with
    | some marks => (marks, (c :: rest).drop marks.length)
    | none =>
      let (more, after) := closeLongLiteral rest
      (c :: more, after)

/-- The rest of a string of several lines in quotes, and what follows it. -/
def closeLongBasic : List Char → List Char × List Char
  | [] => ([], [])
  | '\\' :: '\\' :: rest =>
    let (more, after) := closeLongBasic rest
    ('\\' :: '\\' :: more, after)
  | '\\' :: '"' :: rest =>
    let (more, after) := closeLongBasic rest
    ('\\' :: '"' :: more, after)
  | c :: rest =>
    match closingMarks '"' (c :: rest) with
    | some marks => (marks, (c :: rest).drop marks.length)
    | none =>
      let (more, after) := closeLongBasic rest
      (c :: more, after)

/-- The string at the front of characters that start with its quotes: its kind, its characters and what
follows it. -/
def stringFrom (mark : Char) (chars : List Char) : Quoting × List Char × List Char :=
  let long := chars.take 3 = [mark, mark, mark]
  let opening := chars.take (if long then 3 else 1)
  let body := chars.drop opening.length
  let (quoting, more, after) :=
    match decide (mark = apostrophe), decide long with
    | true, false => (Quoting.literal, closeLiteral body)
    | false, false => (.basic, closeBasic body)
    | true, true => (.longLiteral, closeLongLiteral body)
    | false, true => (.longBasic, closeLongBasic body)
  (quoting, opening ++ more, after)

/-! ## Tokens -/

/-- A space or a tab. -/
def isBlank (c : Char) : Bool :=
  c = ' ' || c = '\t'

/-- The kind of a punctuation character that is a token of its own. -/
def Kind.ofMark? : Char → Option Kind
  | '.' => some .dot
  | '=' => some .equals
  | ',' => some .comma
  | '[' => some .openBracket
  | ']' => some .closeBracket
  | '\x7b' => some .openBrace
  | '\x7d' => some .closeBrace
  | '\n' => some .newline
  | _ => none

/-- The character ends a word. -/
def endsWord (c : Char) : Bool :=
  (Kind.ofMark? c).isSome || isBlank c || c = '#' || c = '\r'

/-- The kind of the token at the front, its characters and what follows it. -/
def next (c : Char) (rest : List Char) : Kind × List Char × List Char :=
  let run (kind : Kind) (belongs : Char → Bool) : Kind × List Char × List Char :=
    (kind, c :: rest.takeWhile belongs, rest.dropWhile belongs)
  match Kind.ofMark? c with
  | some kind => (kind, [c], rest)
  | none =>
    if isBlank c then run .blank isBlank
    else if c = '#' then run .comment fun c => c ≠ '\r' && c ≠ '\n'
    else if c = '\r' then
      match rest with
      | '\n' :: rest => (.newline, [c, '\n'], rest)
      | rest => (.newline, [c], rest)
    else if c = '"' ∨ c = apostrophe then
      let (quoting, chars, after) := stringFrom c (c :: rest)
      (.string quoting, chars, after)
    else run .word fun c => !endsWord c

/-- The tokens of characters that start at a byte. Each takes a character. -/
def tokensFrom : (limit start : Nat) → List Char → List Token
  | 0, start, _ | _, start, [] => [⟨.finish, ⟨start, []⟩⟩]
  | limit + 1, start, c :: rest =>
    let (kind, chars, after) := next c rest
    ⟨kind, ⟨start, chars⟩⟩ :: tokensFrom limit (start + width chars) after

/-- The tokens of a source. A byte order mark in front does not count. -/
def tokens (source : String) : List Token :=
  match source.toList with
  | '\ufeff' :: chars => tokensFrom chars.length 3 chars
  | chars => tokensFrom chars.length 0 chars

end CborRecords.Toml
