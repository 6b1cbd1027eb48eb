import Elementwise.Text.Quoted

/-!
# Structured data as text

Values of the JSON format, their compact text, and access to the fields of a record. A number is
kept only if it is a natural number of at most 64 bits, and a string only if its escapes form
text: nothing else can be decoded from them.
-/

namespace Elementwise

/-- A JSON value; `none` is a number or string that cannot be decoded as such. -/
inductive Json where
  | null
  | bool (b : Bool)
  | number (n : Option Nat)
  | string (s : Option String)
  | array (items : List Json)
  | object (fields : List (Option String × Json))

namespace Json

/-- One character as it stands in a string. -/
def escapeChar (c : Char) : String :=
  match c with
  | '"' => "\\\""
  | '\\' => "\\\\"
  | '\n' => "\\n"
  | '\r' => "\\r"
  | '\t' => "\\t"
  | '\x08' => "\\b"
  | '\x0c' => "\\f"
  | c =>
    if c.toNat < 16 then "\\u000" ++ Text.hex c.toNat
    else if c.toNat < 32 then "\\u00" ++ Text.hex c.toNat
    else c.toString

/-- A string in quotes. -/
def writeString (s : String) : String :=
  "\"" ++ String.join (s.toList.map escapeChar) ++ "\""

mutual
/-- The compact text of a value. -/
def write : Json → String
  | null => "null"
  | bool b => if b then "true" else "false"
  | number n => Nat.repr (n.getD 0)
  | string s => writeString (s.getD "")
  | array items => "[" ++ String.intercalate "," (writeItems items) ++ "]"
  | object fields => "\x7b" ++ String.intercalate "," (writeFields fields) ++ "\x7d"

/-- The texts of a list of values. -/
def writeItems : List Json → List String
  | [] => []
  | item :: rest => write item :: writeItems rest

/-- The texts of a list of fields. -/
def writeFields : List (Option String × Json) → List String
  | [] => []
  | (name, value) :: rest => (writeString (name.getD "") ++ ":" ++ write value) :: writeFields rest
end

/-- A natural number. -/
def ofNat (n : Nat) : Json := number (some n)

/-- A string. -/
def ofString (s : String) : Json := string (some s)

/-- A record with named fields. -/
def record (fields : List (String × Json)) : Json :=
  object (fields.map fun (name, value) => (some name, value))

/-- A number below a limit. -/
def natBelow? (limit : Nat) : Json → Option Nat
  | number (some n) => if n < limit then some n else none
  | _ => none

/-- A truth value. -/
def bool? : Json → Option Bool
  | bool b => some b
  | _ => none

/-- A string. -/
def string? : Json → Option String
  | string s => s
  | _ => none

/-- The items of an array. -/
def array? : Json → Option (List Json)
  | array items => some items
  | _ => none

/-- The fields of an object, if every name is text. -/
def fields? : Json → Option (List (String × Json))
  | object fields => fields.mapM fun (name, value) => name.map fun n => (n, value)
  | _ => none

/-- The values of the given fields of a record, in that order: by name, where other names are
passed over and none may repeat, or by position. -/
def record? (names : List String) : Json → Option (List Json)
  | array items => if items.length = names.length then some items else none
  | json => do
    let fields ← json.fields?
    names.mapM fun name =>
      match fields.filter fun field => field.1 == name with
      | [(_, value)] => some value
      | _ => none

/-- A named alternative with its content; a bare string is an alternative without content. -/
def variant? : Json → Option (String × Option Json)
  | string (some name) => some (name, none)
  | object [(some name, value)] => some (name, some value)
  | _ => none

/-- Whether the content of an alternative is absent or null. -/
def isUnit : Option Json → Bool
  | none | some null => true
  | _ => false

end Json

end Elementwise
