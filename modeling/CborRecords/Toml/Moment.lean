/-!
# Dates and times

* `Moment` : a date, a time of day, or both, perhaps with the distance from the world's time;
* `Moment.parse` : the moment of a text such as `1979-05-27T07:32:00.5Z`, or what its text lacks
  (`Moment.Fault`);
* `Moment.text` : a moment in its usual form.
-/

namespace CborRecords.Toml

/-- A day of the calendar. -/
structure Date where
  year : Nat
  month : Nat
  day : Nat
  deriving DecidableEq, Repr

/-- A time of day; seconds may be left out. -/
structure TimeOfDay where
  hour : Nat
  minute : Nat
  second : Option Nat
  nanosecond : Option Nat
  deriving DecidableEq, Repr

/-- The distance from the world's time. -/
inductive Offset
  | zero
  | minutes (n : Int)
  deriving DecidableEq, Repr

/-- A date, a time of day, or both. -/
structure Moment where
  date : Option Date
  time : Option TimeOfDay
  offset : Option Offset
  deriving DecidableEq, Repr

namespace Moment

/-! ## Faults -/

/-- What a text was taken for when it failed. -/
inductive Subject
  | moment
  | date
  | time
  | both
  | offset
  deriving DecidableEq, Repr

def Subject.name : Subject → String
  | .moment => "datetime"
  | .date => "date"
  | .time => "time"
  | .both => "date-time"
  | .offset => "offset"

/-- What a text was taken for, and what it lacks. -/
structure Fault where
  subject : Subject
  wanted : Option String
  deriving DecidableEq, Repr

/-- The wording of a fault. -/
def Fault.message (f : Fault) : String :=
  "invalid " ++ f.subject.name ++ ((f.wanted.map fun text => ", expected " ++ text).getD "")

/-- A text lacks something. -/
def lacks {α : Type} (subject : Subject) (wanted : String) : Except Fault α :=
  .error ⟨subject, some wanted⟩

/-! ## Reading -/

/-- The digits in front, at least one, and what follows them. -/
def digits (subject : Subject) (wanted : String) (chars : List Char) :
    Except Fault (List Char × List Char) :=
  let found := chars.takeWhile Char.isDigit
  if found.isEmpty then lacks subject wanted else .ok (found, chars.dropWhile Char.isDigit)

/-- What follows a separator. -/
def mark (c : Char) (subject : Subject) (wanted : String) : List Char → Except Fault (List Char)
  | [] => lacks subject wanted
  | d :: rest => if d = c then .ok rest else lacks subject wanted

/-- Digits are of a given number. -/
def counted (count : Nat) (subject : Subject) (wanted : String) (found : List Char) :
    Except Fault Unit :=
  if found.length = count then .ok () else lacks subject wanted

/-- A number is in a range. -/
def ranged (low high : Nat) (subject : Subject) (wanted : String) (n : Nat) : Except Fault Unit :=
  if low ≤ n ∧ n ≤ high then .ok () else lacks subject wanted

/-- The number of digits. -/
def number (found : List Char) : Nat :=
  found.foldl (fun n d => n * 10 + (d.toNat - 48)) 0

/-- The number of days of a month. -/
def daysOf (year month : Nat) : Nat :=
  if month = 2 then
    if year % 4 = 0 ∧ (year % 100 ≠ 0 ∨ year % 400 = 0) then 29 else 28
  else if month = 4 ∨ month = 6 ∨ month = 9 ∨ month = 11 then 30
  else 31

/-- The rest of a date after its year, and what follows it. -/
def dateFrom (year : List Char) (chars : List Char) : Except Fault (Date × List Char) := do
  let (month, chars) ← digits .date "month" chars
  let chars ← mark '-' .date "`-` (MM-DD)" chars
  let (day, chars) ← digits .date "day" chars
  counted 4 .date "a four-digit year (YYYY)" year
  counted 2 .date "a two-digit month (MM)" month
  counted 2 .date "a two-digit day (DD)" day
  ranged 1 12 .date "month between 01 and 12" (number month)
  let last := daysOf (number year) (number month)
  ranged 1 last .date ("day between 01 and " ++ toString last) (number day)
  return (⟨number year, number month, number day⟩, chars)

/-- The nanoseconds of the digits after the point; digits past the ninth do not count. -/
def nanoseconds (found : List Char) : Nat :=
  number (found.take 9 ++ List.replicate (9 - found.length) '0')

/-- What follows a separator, if that is in front. -/
def after? (c : Char) : List Char → Option (List Char)
  | d :: rest => if d = c then some rest else none
  | [] => none

/-- A time of day, and what follows it. -/
def timeFrom (chars : List Char) : Except Fault (TimeOfDay × List Char) := do
  let (hour, chars) ← digits .time "hour" chars
  let chars ← mark ':' .time "`:` (HH:MM)" chars
  let (minute, chars) ← digits .time "minute" chars
  let (second, chars) ←
    match after? ':' chars with
    | none => pure (none, chars)
    | some chars => do
      let (second, chars) ← digits .time "second" chars
      pure (some second, chars)
  let (part, chars) ←
    match after? '.' chars, second with
    | some chars, some _ => do
      let (part, chars) ← digits .time "nanosecond" chars
      pure (some part, chars)
    | _, _ => pure (none, chars)
  counted 2 .time "a two-digit hour (HH)" hour
  counted 2 .time "a two-digit minute (MM)" minute
  counted 2 .time "a two-digit second (SS)" (second.getD ['0', '0'])
  ranged 0 23 .time "hour between 00 and 23" (number hour)
  ranged 0 59 .time "minute between 00 and 59" (number minute)
  ranged 0 60 .time "second between 00 and 60" (number (second.getD []))
  return (⟨number hour, number minute, second.map number, part.map nanoseconds⟩, chars)

/-- A distance after its sign, and what follows it. -/
def offsetFrom (ahead : Bool) (chars : List Char) : Except Fault (Offset × List Char) := do
  let (hours, chars) ← digits .offset "hour" chars
  let chars ← mark ':' .offset "`:` (HH:MM)" chars
  let (minutes, chars) ← digits .offset "minute" chars
  counted 2 .offset "a two-digit hour (HH)" hours
  counted 2 .offset "a two-digit minute (MM)" minutes
  ranged 0 23 .offset "hours between 00 and 23" (number hours)
  ranged 0 59 .offset "minutes between 00 and 59" (number minutes)
  let total : Int := number hours * 60 + number minutes
  return (.minutes (if ahead then total else -total), chars)

/-- Nothing follows. -/
def ended (m : Moment) (chars : List Char) : Except Fault Moment :=
  if chars.isEmpty then .ok m else .error ⟨.moment, none⟩

/-- The rest of a moment after its date and time. -/
def withOffset (date : Date) (time : TimeOfDay) (chars : List Char) : Except Fault Moment :=
  let signed (ahead : Bool) (rest : List Char) : Except Fault Moment := do
    let (offset, rest) ← offsetFrom ahead rest
    ended ⟨some date, some time, some offset⟩ rest
  match chars with
  | [] => .ok ⟨some date, some time, none⟩
  | 'Z' :: rest | 'z' :: rest => ended ⟨some date, some time, some .zero⟩ rest
  | '+' :: rest => signed true rest
  | '-' :: rest => signed false rest
  | _ => lacks .offset "`Z`, +OFFSET, -OFFSET"

/-- The rest of a moment after its date. -/
def withTime (date : Date) : List Char → Except Fault Moment
  | [] => .ok ⟨some date, none, none⟩
  | c :: rest =>
    if c = 'T' ∨ c = 't' ∨ c = ' ' then do
      let (time, rest) ← timeFrom rest
      withOffset date time rest
    else lacks .both "`T` between date and time"

/-- The moment of a text. -/
def parse (chars : List Char) : Except Fault Moment := do
  let (first, rest) ← digits .moment "year or hour" chars
  match rest with
  | '-' :: rest => do
    let (date, rest) ← dateFrom first rest
    withTime date rest
  | ':' :: _ => do
    let (time, rest) ← timeFrom chars
    ended ⟨none, some time, none⟩ rest
  | _ => lacks .moment "`-` (YYYY-MM) or `:` (HH:MM)"

/-! ## Writing -/

/-- A number with zeros in front up to a number of digits. -/
def padded (count n : Nat) : String :=
  let found := Nat.toDigits 10 n
  String.ofList (List.replicate (count - found.length) '0' ++ found)

def dateText (d : Date) : String :=
  padded 4 d.year ++ "-" ++ padded 2 d.month ++ "-" ++ padded 2 d.day

/-- The digits after the point, without zeros at their end; one zero is left. -/
def fractionText (nanosecond : Nat) : String :=
  let found := ((padded 9 nanosecond).toList.reverse.dropWhile (· = '0')).reverse
  if found.isEmpty then "0" else String.ofList found

def timeText (t : TimeOfDay) : String :=
  padded 2 t.hour ++ ":" ++ padded 2 t.minute
    ++ ((t.second.map fun second => ":" ++ padded 2 second).getD "")
    ++ ((t.nanosecond.map fun part => "." ++ fractionText part).getD "")

def offsetText : Offset → String
  | .zero => "Z"
  | .minutes n =>
    (if n < 0 then "-" else "+") ++ padded 2 (n.natAbs / 60) ++ ":" ++ padded 2 (n.natAbs % 60)

/-- A moment in its usual form, with a `T` between date and time. -/
def text (m : Moment) : String :=
  ((m.date.map dateText).getD "")
    ++ (if m.date.isSome ∧ m.time.isSome then "T" else "")
    ++ ((m.time.map timeText).getD "")
    ++ ((m.offset.map offsetText).getD "")

end Moment

end CborRecords.Toml
