import CborRecords.Utf8

/-!
# Faults of TOML text

* `Toml.Span` : bytes of a source;
* `Toml.Quoting` : the four kinds of strings;
* `Toml.Cause` : why a source is refused, with its wording (`Cause.message`), which says what was wrong
  and often what may stand there;
* `Toml.Fault` : a cause and its place; `Fault.report` : both, under the line of the source.
-/

namespace CborRecords.Toml

/-- Bytes of a source: the first of them, and the one after the last. -/
structure Span where
  start : Nat
  stop : Nat
  deriving DecidableEq, Repr

/-- The place in front of a span. -/
def Span.before (s : Span) : Span :=
  ⟨s.start, s.start⟩

/-- The place after a span. -/
def Span.after (s : Span) : Span :=
  ⟨s.stop, s.stop⟩

/-- How a string is written: in apostrophes or quotes, in one or in three of them. -/
inductive Quoting
  | literal
  | basic
  | longLiteral
  | longBasic
  deriving DecidableEq, Repr

namespace Quoting

def name : Quoting → String
  | .literal => "literal string"
  | .basic => "basic string"
  | .longLiteral => "multi-line literal string"
  | .longBasic => "multi-line basic string"

/-- The quotes around a string. -/
def mark : Quoting → String
  | .literal | .longLiteral => "'"
  | .basic | .longBasic => "\""

/-- What may stand in a string. -/
def admitted : Quoting → List String
  | .literal => ["non-single-quote visible characters"]
  | .basic => ["non-double-quote visible characters", "`\\`"]
  | .longLiteral => ["non-single-quote characters"]
  | .longBasic => ["non-double-quote characters", "`\\`"]

end Quoting

/-- How the digits of an integer are to be read. -/
inductive Base
  | ten
  | sixteen
  | eight
  | two
  deriving DecidableEq, Repr

namespace Base

def value : Base → Nat
  | .ten => 10
  | .sixteen => 16
  | .eight => 8
  | .two => 2

def name : Base → String
  | .ten => "integer"
  | .sixteen => "hexadecimal"
  | .eight => "octal"
  | .two => "binary"

/-- The letter in front of the digits. -/
def lead : Base → String
  | .ten => ""
  | .sixteen => "0x"
  | .eight => "0o"
  | .two => "0b"

end Base

/-- The parts of a number with a point or an exponent. -/
inductive FloatPart
  | mantissa
  | fraction
  | exponent
  deriving DecidableEq, Repr

def FloatPart.name : FloatPart → String
  | .mantissa => "mantissa"
  | .fraction => "fraction"
  | .exponent => "exponent"

/-- What a table in braces needs next. -/
inductive Need
  | key
  | equals
  | value
  | comma
  deriving DecidableEq, Repr

def Need.name : Need → String
  | .key => "key"
  | .equals => "`=`"
  | .value => "value"
  | .comma => "`,`"

/-- Why a source is refused. -/
inductive Cause
  -- lines
  | badComment
  | loneReturn
  | unexpectedContent
  | invalidKey
  | noValue
  | extraEquals
  -- headers
  | unopenedHeader
  | unclosedHeader
  /-- A header in double brackets that lacks one bracket, or both. -/
  | unclosedDoubleHeader (lacksBoth : Bool)
  -- lists
  | unopenedList
  | unclosedList
  | extraListComma
  | missingListComma
  | equalsInList
  -- tables in braces
  | unopenedTable
  | unclosedTable
  | extraTableComma (need : Need)
  | missingTableComma
  | extraTableEquals (need : Need)
  | missingTableEquals
  | missingTableKey (need : Need)
  | badTableElement (need : Need)
  | tooDeep
  -- keys
  | emptyKey
  | badKeyCharacter
  | longKey (quoting : Quoting)
  | duplicateKey
  | cannotExtend (type : String)
  -- strings
  | unclosedString (quoting : Quoting)
  | badCharacter (quoting : Quoting)
  | badEscape
  | shortEscape
  | noSuchCharacter
  | noLineEnd
  | unquoted
  | unopenedString (mark : String)
  -- numbers and other words
  | leadingZero
  | underscore
  | secondSign
  | signedBase
  | capitalBase (base : Base)
  | decimalLead
  | badDigit (base : Base)
  | missingDigits (part : FloatPart)
  | badFloat
  | notTheWord (type word : String)
  | moment (message : String)
  | integerOverflow
  | wideInteger (n : Int)
  | largeInteger
  | floatOverflow
  deriving DecidableEq, Repr

namespace Cause

/-- What is wrong. -/
def description : Cause → String
  | .badComment => "invalid comment character"
  | .loneReturn => "carriage return must be followed by newline"
  | .unexpectedContent => "unexpected key or value"
  | .invalidKey => "invalid key"
  | .noValue => "key with no value"
  | .extraEquals => "extra `=`"
  | .unopenedHeader => "missing table open"
  | .unclosedHeader => "unclosed table"
  | .unclosedDoubleHeader _ => "unclosed array table"
  | .unopenedList => "missing array opening"
  | .unclosedList => "unclosed array"
  | .extraListComma => "extra comma in array"
  | .missingListComma => "missing comma between array elements"
  | .equalsInList => "unexpected `=` in array"
  | .unopenedTable => "missing inline table opening"
  | .unclosedTable => "unclosed inline table"
  | .extraTableComma _ => "extra comma in inline table"
  | .missingTableComma => "missing comma between key-value pairs"
  | .extraTableEquals _ => "extra assignment between key-value pairs"
  | .missingTableEquals => "missing assignment between key-value pairs"
  | .missingTableKey _ => "missing key for inline table element"
  | .badTableElement _ => "invalid inline table element"
  | .tooDeep => "cannot recurse further; max recursion depth met"
  | .emptyKey => "unquoted keys cannot be empty"
  | .badKeyCharacter => "invalid unquoted key"
  | .longKey quoting => "keys cannot be " ++ quoting.name ++ "s"
  | .duplicateKey => "duplicate key"
  | .cannotExtend type => "cannot extend value of type " ++ type ++ " with a dotted key"
  | .unclosedString quoting | .badCharacter quoting => "invalid " ++ quoting.name
  | .badEscape => "missing escaped value"
  | .shortEscape => "too few unicode value digits"
  | .noSuchCharacter => "invalid value"
  | .noLineEnd => "invalid multi-line basic string"
  | .unquoted => "string values must be quoted"
  | .unopenedString _ => "missing opening quote"
  | .leadingZero => "unexpected leading zero"
  | .underscore => "`_` may only go between digits"
  | .secondSign => "redundant numeric sign"
  | .signedBase => "integers with a radix cannot be signed"
  | .capitalBase _ => "radix must be lowercase"
  | .decimalLead => "redundant integer number prefix"
  | .badDigit base => "invalid " ++ base.name ++ " number"
  | .missingDigits part => "invalid " ++ part.name
  | .badFloat => "invalid float"
  | .notTheWord type _ => "invalid " ++ type
  | .moment message => message
  | .integerOverflow => "integer number overflowed"
  | .wideInteger n =>
    let type := if n < 0x80000000000000000000000000000000 then "i128" else "u128"
    "invalid type: integer `" ++ toString n ++ "` as " ++ type ++ ", expected any valid TOML value"
  | .largeInteger => "u64 value was too large"
  | .floatOverflow => "floating-point number overflowed"

/-- A text that may stand in a source, as it is named. -/
def quote (text : String) : String :=
  "`" ++ text ++ "`"

/-- What may stand in its place, where that is known. -/
def expected : Cause → Option (List String)
  | .badComment => some ["printable characters"]
  | .loneReturn | .noLineEnd => some ["newline"]
  | .unexpectedContent => some ["newline", "`#`"]
  | .invalidKey => some ["key"]
  | .noValue | .missingTableEquals => some ["`=`"]
  | .unopenedHeader | .unopenedList => some ["`[`"]
  | .unclosedHeader | .unclosedDoubleHeader false | .unclosedList => some ["`]`"]
  | .unclosedDoubleHeader true => some ["`]]`"]
  | .extraListComma => some ["value"]
  | .missingListComma | .missingTableComma => some ["`,`"]
  | .equalsInList => some ["value", "`]`"]
  | .unopenedTable => some ["`\x7b`"]
  | .unclosedTable => some ["`\x7d`"]
  | .extraTableComma need | .extraTableEquals need | .missingTableKey need | .badTableElement need =>
    some [need.name]
  | .emptyKey | .badKeyCharacter => some ["letters", "numbers", "`-`", "`_`"]
  | .longKey _ => some [Quoting.basic.name, Quoting.literal.name]
  | .unclosedString quoting => some [quote quoting.mark]
  | .badCharacter quoting => some quoting.admitted
  | .badEscape => some (["b", "e", "f", "n", "r", "\\", "\"", "x", "u", "U"].map quote)
  | .shortEscape | .noSuchCharacter => some ["unicode hexadecimal value"]
  | .unquoted => some [Quoting.literal.name]
  | .unopenedString mark => some [quote mark]
  | .capitalBase base => some [quote base.lead]
  | .missingDigits _ => some ["digits"]
  | .notTheWord _ word => some [quote word]
  | .extraEquals | .leadingZero | .underscore | .secondSign | .signedBase | .decimalLead | .badFloat =>
    some []
  | .tooDeep | .duplicateKey | .cannotExtend _ | .badDigit _ | .moment _ | .integerOverflow
  | .wideInteger _ | .largeInteger | .floatOverflow => none

/-- The wording of a cause. -/
def message (c : Cause) : String :=
  match c.expected with
  | none => c.description
  | some [] => c.description ++ ", expected nothing"
  | some texts => c.description ++ ", expected " ++ ", ".intercalate texts

end Cause

/-- Why a source is refused, and where. -/
structure Fault where
  cause : Cause
  span : Span
  deriving DecidableEq, Repr

/-- The line and the column of a place, both from zero. Columns are characters, or bytes when the place
is at a character of several bytes; past the end they go on from the last byte. -/
def position (source : Bytes) (index : Nat) : Nat × Nat :=
  let inside := min index (source.length - 1)
  let front := source.take inside
  let start := (front.reverse.takeWhile (· ≠ 0x0A)).reverse
  let column :=
    match Utf8.decode (start ++ (source.drop inside).take 1) with
    | .ok text => text.length - 1
    | .error _ => start.length
  (front.count 0x0A, column + (index - inside))

/-- A fault under its line of the source. -/
def Fault.report (source : String) (f : Fault) : String :=
  let (line, column) := position (Utf8.encode source) f.span.start
  let number := toString (line + 1)
  let content := String.ofList (((source.toList.splitOn '\n').drop line).head?.getD [])
  let length := min (f.span.stop - f.span.start) (Utf8.size content - column)
  let spaces (n : Nat) : String := String.ofList (List.replicate n ' ')
  "TOML parse error at line " ++ number ++ ", column " ++ toString (column + 1) ++ "\n"
    ++ spaces (number.length + 1) ++ "|\n"
    ++ number ++ " | " ++ content ++ "\n"
    ++ spaces (number.length + 1) ++ "|" ++ spaces (column + 1)
    ++ String.ofList (List.replicate (max 1 length) '^') ++ "\n"
    ++ f.cause.message ++ "\n"

end CborRecords.Toml
