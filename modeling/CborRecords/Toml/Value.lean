import CborRecords.Binary
import CborRecords.Toml.Moment
import CborRecords.Toml.Text

/-!
# Values of TOML text

* `Toml.Role` : how a table came to be, on which it depends what may be added to it;
* `Toml.Value` : a text, number, boolean, moment, list or table;
* `Toml.put` : the entries of a table with one more; they stay in the order of their keys;
* `Value.fault?` : the first number that cannot be held.
-/

namespace CborRecords.Toml

/-- How a table came to be. -/
inductive Role
  /-- By its own header; the whole source is one such table. -/
  | header
  /-- By the header of a table below it. -/
  | passed
  /-- By a key of several parts. -/
  | dotted
  /-- In braces. -/
  | braced
  /-- By a key of several parts in braces. -/
  | bracedDotted
  deriving DecidableEq, Repr

namespace Role

/-- The table was not written as such. -/
def isImplicit : Role → Bool
  | .passed | .dotted | .bracedDotted => true
  | .header | .braced => false

def isDotted : Role → Bool
  | .dotted | .bracedDotted => true
  | .header | .passed | .braced => false

def isBraced : Role → Bool
  | .braced | .bracedDotted => true
  | .header | .passed | .dotted => false

end Role

/-- A value. -/
inductive Value
  | text (content : String)
  | integer (n : Int)
  | float (x : Double)
  | boolean (b : Bool)
  | moment (m : Moment)
  /-- A number that cannot be held. -/
  | beyond (type : String) (fault : Fault)
  /-- A list; one that headers in double brackets make can grow. -/
  | list (grows : Bool) (items : List Value)
  | table (role : Role) (entries : List (String × Value))

/-- The entries of a table. -/
abbrev Entries := List (String × Value)

/-- The name of a value's type. -/
def Value.typeName : Value → String
  | .text _ => "string"
  | .integer _ => "integer"
  | .float _ => "float"
  | .boolean _ => "boolean"
  | .moment _ => "datetime"
  | .beyond type _ => type
  | .list _ _ => "array"
  | .table _ _ => "table"

/-- The entries with one more, or with another value for its key. -/
def put (key : String) (v : Value) : Entries → Entries
  | [] => [(key, v)]
  | (other, w) :: rest =>
    if key = other then (key, v) :: rest
    else if key < other then (key, v) :: (other, w) :: rest
    else (other, w) :: put key v rest

mutual
/-- The first number of a value that cannot be held, in the order of keys. -/
def Value.fault? : Value → Option Fault
  | .beyond _ fault => some fault
  | .list _ items => faultIn items
  | .table _ entries => faultAmong entries
  | _ => none
/-- The first number of values that cannot be held. -/
def faultIn : List Value → Option Fault
  | [] => none
  | v :: rest => v.fault?.or (faultIn rest)
/-- The first number of entries that cannot be held. -/
def faultAmong : List (String × Value) → Option Fault
  | [] => none
  | (_, v) :: rest => v.fault?.or (faultAmong rest)
end

end CborRecords.Toml
