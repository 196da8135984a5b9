import CborRecords.Toml.Token

/-!
# Outlines of TOML text

An outline is a source by its lines and brackets, with keys and values as they stand in it.

* `Toml.Raw` : a part of a key, or a value that is no list and no table;
* `Toml.Draft` : a value; `Toml.Statement` : a header or an entry;
* `Toml.outline` : the statements of a source. What is missing where a key or a value should stand is an
  empty word there; any other fault of the brackets, commas and lines is told at once.
-/

namespace CborRecords.Toml

/-- A string or a word as it stands in the source. -/
structure Raw where
  /-- How it is quoted, if it is. -/
  quoting : Option Quoting
  piece : Piece
  deriving DecidableEq, Repr

/-- The empty word in front of a token. -/
def Raw.missing (t : Token) : Raw :=
  ⟨none, ⟨t.span.start, []⟩⟩

mutual
/-- A value whose strings and words are not read yet. -/
inductive Draft
  | scalar (raw : Raw)
  | list (items : Drafts)
  | table (fields : Fields)
/-- The values of a list. -/
inductive Drafts
  | nil
  | cons (value : Draft) (rest : Drafts)
/-- The entries of a table in braces, each with its key by parts. -/
inductive Fields
  | nil
  | cons (key : List Raw) (value : Draft) (rest : Fields)
end

/-- A header, in single or in double brackets, or an entry. -/
inductive Statement
  | header (double : Bool) (key : List Raw)
  | entry (key : List Raw) (value : Draft)

namespace Token

/-- A string or a word by itself. -/
def raw? (t : Token) : Option Raw :=
  match t.kind with
  | .string quoting => some ⟨some quoting, t.piece⟩
  | .word => some ⟨none, t.piece⟩
  | _ => none

/-- The token may stand in a value without quotes. -/
def isWordy (t : Token) : Bool :=
  t.kind = .dot || t.raw?.isSome

/-- The token is a blank, a comment or the end of a line. -/
def isTrivia (t : Token) : Bool :=
  t.kind = .blank || t.kind = .comment || t.kind = .newline

/-- The token ends a line. -/
def endsLine (t : Token) : Bool :=
  t.kind = .comment || t.kind = .newline || t.kind = .finish

/-- The character may stand in a comment. -/
def isPrintable (c : Char) : Bool :=
  c = '\t' || (0x20 ≤ c.toNat && c.toNat ≠ 0x7F)

/-- A comment holds printable characters only, and a carriage return is followed by a newline. -/
def check (t : Token) : Except Fault Unit :=
  if t.kind = .comment then
    match t.piece.chars.dropWhile isPrintable with
    | [] => .ok ()
    | _ =>
      let good := width (t.piece.chars.takeWhile isPrintable)
      .error ⟨.badComment, t.piece.within good good⟩
  else if t.kind = .newline ∧ t.piece.chars = ['\r'] then .error ⟨.loneReturn, t.span.after⟩
  else .ok ()

end Token

/-- The tokens after a blank. -/
def skipBlank (tokens : List Token) : List Token :=
  tokens.dropWhile (·.kind = .blank)

/-- The fault of a cause in front of a token. -/
def faultBefore (cause : Cause) (t : Token) : Fault :=
  ⟨cause, t.span.before⟩

/-! ## Keys and words -/

/-- The parts of a key, with dots and blanks between them, whether the last one is there, and what
follows. A part that is missing between dots is empty. -/
def keyParts (wanted : Bool) : List Token → List Raw × Bool × List Token
  | [] => ([], !wanted, [])
  | t :: rest =>
    if t.kind = .blank then keyParts wanted rest
    else if t.kind = .dot then
      let (more, complete, after) := keyParts true rest
      (if wanted then Raw.missing t :: more else more, complete, after)
    else if wanted then
      match t.raw? with
      | some raw =>
        let (more, complete, after) := keyParts false rest
        (raw :: more, complete, after)
      | none => ([Raw.missing t], false, t :: rest)
    else ([], true, t :: rest)

/-- The characters of a value without quotes after its first token, and what follows. It goes on after a
blank if the line does. -/
def words : List Token → List Char × List Token
  | [] => ([], [])
  | t :: rest =>
    let goesOn := t.isWordy || (t.kind = .blank && (rest.head?.map Token.isWordy).getD false)
    if goesOn then
      let (more, after) := words rest
      (t.piece.chars ++ more, after)
    else ([], t :: rest)

/-- The value that starts with a string or a word, and what follows. -/
def scalar (t : Token) (rest : List Token) : Draft × List Token :=
  match t.kind with
  | .string quoting => (.scalar ⟨some quoting, t.piece⟩, rest)
  | _ =>
    let (more, after) := words rest
    (.scalar ⟨none, ⟨t.piece.start, t.piece.chars ++ more⟩⟩, after)

/-! ## Values -/

/-- How deep lists and tables in braces may be nested. -/
def maxDepth : Nat := 80

/-- Where a table in braces stands; from its key on, with the parts of that key. -/
inductive Stage
  | key
  | equals (key : List Raw)
  | value (key : List Raw)
  | comma

def Stage.need : Stage → Need
  | .key => .key
  | .equals _ => .equals
  | .value _ => .value
  | .comma => .comma

mutual

/-- A value and what follows it. `last` is the last token of the source that is no blank, comment or end
of a line, after which brackets that stay open should have been closed. Each token takes at most two
steps. -/
def value (last : Span) : (limit depth : Nat) → List Token → Except Fault (Draft × List Token)
  | 0, _, _ | _, _, [] => .error ⟨.tooDeep, last⟩
  | limit + 1, depth, t :: rest =>
    match t.kind with
    | .comment | .comma | .newline | .finish | .blank => .ok (.scalar (Raw.missing t), t :: rest)
    | .equals => .error ⟨.extraEquals, t.span⟩
    | .closeBrace => .error (faultBefore .unopenedTable t)
    | .closeBracket => .error (faultBefore .unopenedList t)
    | .openBrace =>
      if depth < maxDepth then do
        let (fields, after) ← fieldsFrom last limit (depth + 1) .key rest
        return (.table fields, after)
      else .error ⟨.tooDeep, t.span⟩
    | .openBracket =>
      if depth < maxDepth then do
        let (items, after) ← itemsFrom last limit (depth + 1) true rest
        return (.list items, after)
      else .error ⟨.tooDeep, t.span⟩
    | .string _ | .word | .dot => .ok (scalar t rest)

/-- The values of a list up to its end, and what follows. -/
def itemsFrom (last : Span) :
    (limit depth : Nat) → (wanted : Bool) → List Token → Except Fault (Drafts × List Token)
  | 0, _, _, _ | _, _, _, [] => .error ⟨.unclosedList, last.after⟩
  | limit + 1, depth, wanted, t :: rest =>
    match t.kind with
    | .finish => .error ⟨.unclosedList, last.after⟩
    | .blank | .comment | .newline => do
      t.check
      itemsFrom last limit depth wanted rest
    | .closeBracket => .ok (.nil, rest)
    | .equals => .error ⟨.equalsInList, t.span⟩
    | .comma =>
      if wanted then .error ⟨.extraListComma, t.span⟩ else itemsFrom last limit depth true rest
    | _ =>
      if wanted then do
        let (item, after) ← value last limit depth (t :: rest)
        let (more, after) ← itemsFrom last limit depth false after
        return (.cons item more, after)
      else .error (faultBefore .missingListComma t)

/-- The entries of a table in braces up to its end, and what follows. -/
def fieldsFrom (last : Span) :
    (limit depth : Nat) → Stage → List Token → Except Fault (Fields × List Token)
  | 0, _, _, _ | _, _, _, [] => .error ⟨.unclosedTable, last.after⟩
  | limit + 1, depth, stage, t :: rest =>
    match t.kind, stage with
    | .finish, _ => .error ⟨.unclosedTable, last.after⟩
    | .blank, _ | .comment, _ | .newline, _ => do
      t.check
      fieldsFrom last limit depth stage rest
    | .closeBrace, .key | .closeBrace, .comma => .ok (.nil, rest)
    | .closeBrace, .equals _ => .error (faultBefore .missingTableEquals t)
    | .closeBrace, .value key => .ok (.cons key (.scalar (Raw.missing t)) .nil, rest)
    | .comma, .comma => fieldsFrom last limit depth .key rest
    | .comma, _ => .error ⟨.extraTableComma stage.need, t.span⟩
    | .equals, .key => fieldsFrom last limit depth (.value [Raw.missing t]) rest
    | .equals, .equals key => fieldsFrom last limit depth (.value key) rest
    | .equals, _ => .error (faultBefore (.extraTableEquals stage.need) t)
    | .closeBracket, .value _ => .error (faultBefore .unopenedList t)
    | .closeBracket, _ => .error (faultBefore (.badTableElement stage.need) t)
    | _, .value key => do
      let (item, after) ← value last limit depth (t :: rest)
      let (more, after) ← fieldsFrom last limit depth .comma after
      return (.cons key item more, after)
    | _, .equals _ => .error (faultBefore .missingTableEquals t)
    | .openBrace, _ | .openBracket, _ => .error (faultBefore (.missingTableKey stage.need) t)
    | _, .comma => .error (faultBefore .missingTableComma t)
    | _, .key =>
      let (key, _, after) := keyParts true (t :: rest)
      fieldsFrom last limit depth (.equals key) after

end

/-! ## Statements -/

/-- Nothing follows on a line but a comment. -/
def lineEnd (tokens : List Token) : Except Fault (List Token) :=
  match skipBlank tokens with
  | [] => .ok []
  | t :: rest => if t.endsLine then .ok (t :: rest) else .error (faultBefore .unexpectedContent t)

/-- The rest of a header after its first bracket, and what follows its line. -/
def header (opening : Token) (tokens : List Token) : Except Fault (Statement × List Token) :=
  let double := (tokens.head?.map (·.kind)) = some .openBracket
  let (key, complete, after) := keyParts true (if double then tokens.drop 1 else tokens)
  let place := ((key.getLast?.map (·.piece.span)).getD opening.span).after
  let statement := Statement.header double key
  match after with
  | t :: rest =>
    if t.kind = .closeBracket then
      if double then
        match rest with
        | u :: rest =>
          if u.kind = .closeBracket then do
            let after ← lineEnd rest
            return (statement, after)
          else .error ⟨.unclosedDoubleHeader false, t.span.after⟩
        | [] => .error ⟨.unclosedDoubleHeader false, t.span.after⟩
      else do
        let after ← lineEnd rest
        return (statement, after)
    else if complete then
      .error ⟨if double then .unclosedDoubleHeader true else .unclosedHeader, place⟩
    else .ok (statement, after.dropWhile fun t => !t.endsLine)
  | [] => .ok (statement, [])

/-- An entry and what follows its line. -/
def entry (last : Span) (limit : Nat) (tokens : List Token) :
    Except Fault (Statement × List Token) :=
  let (key, _, after) := keyParts true tokens
  match after with
  | [] => .error ⟨.noValue, last.after⟩
  | t :: rest =>
    if t.kind = .equals then do
      let (item, after) ← value last limit 0 (skipBlank rest)
      let after ← lineEnd after
      return (.entry key item, after)
    else .error (faultBefore .noValue t)

/-- The statements of tokens. Each takes a token. -/
def statements (last : Span) : (limit : Nat) → List Token → Except Fault (List Statement)
  | 0, _ | _, [] => .ok []
  | limit + 1, t :: rest =>
    match t.kind with
    | .finish => .ok []
    | .blank | .comment | .newline => do
      t.check
      statements last limit rest
    | .closeBracket => .error (faultBefore .unopenedHeader t)
    | .comma | .openBrace | .closeBrace => .error (faultBefore .invalidKey t)
    | .openBracket => do
      let (statement, after) ← header t rest
      let more ← statements last limit after
      return statement :: more
    | .string _ | .word | .dot | .equals => do
      let (statement, after) ← entry last (2 * rest.length + 4) (t :: rest)
      let more ← statements last limit after
      return statement :: more

/-- The statements of a source. -/
def outline (source : String) : Except Fault (List Statement) :=
  let all := tokens source
  let solid := all.filter fun t => !t.isTrivia && t.kind ≠ .finish
  let last := (solid.getLast?.map Token.span).getD ⟨0, 0⟩
  statements last (all.length + 1) all

end CborRecords.Toml
