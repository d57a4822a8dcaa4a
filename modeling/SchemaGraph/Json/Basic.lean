/-!
# JSON

A JSON value is kept as it is written: a number by its literal, a string by what
stands between its quotes, an object by its members in order, repeated names
included. `render` writes a value without any blanks.
-/

namespace SchemaGraph

/-- A JSON value, as it is written. -/
inductive Json where
  | null
  | bool (value : Bool)
  | number (literal : String)
  | string (inner : String)
  | array (items : List Json)
  | object (members : List (String × Json))
deriving BEq, Inhabited

namespace Json

/-- A character as it is written inside a string. -/
def escapeChar (c : Char) : List Char :=
  if c = '"' then ['\\', '"']
  else if c = '\\' then ['\\', '\\']
  else if c = '\x08' then ['\\', 'b']
  else if c = '\x0c' then ['\\', 'f']
  else if c = '\n' then ['\\', 'n']
  else if c = '\r' then ['\\', 'r']
  else if c = '\t' then ['\\', 't']
  else if c.toNat < 0x20 then
    ['\\', 'u', '0', '0', Nat.digitChar (c.toNat / 16), Nat.digitChar (c.toNat % 16)]
  else [c]

/-- A text as it is written inside a string. -/
def escape (s : String) : String := String.ofList (s.toList.flatMap escapeChar)

/-- The string that stands for a text. -/
def text (s : String) : Json := string (escape s)

mutual

/-- A value without any blanks. -/
def render : Json → String
  | null => "null"
  | bool true => "true"
  | bool false => "false"
  | number literal => literal
  | string inner => "\"" ++ inner ++ "\""
  | array items => "[" ++ ",".intercalate (renderItems items) ++ "]"
  | object members => "\x7b" ++ ",".intercalate (renderMembers members) ++ "\x7d"

/-- The items of an array, each without blanks. -/
def renderItems : List Json → List String
  | [] => []
  | item :: items => item.render :: renderItems items

/-- The members of an object, each without blanks. -/
def renderMembers : List (String × Json) → List String
  | [] => []
  | (name, value) :: members =>
    ("\"" ++ name ++ "\":" ++ value.render) :: renderMembers members

end

/-- The object with some values under the names that these texts are. -/
def record (members : List (String × Json)) : Json :=
  object (members.map fun (name, value) => (escape name, value))

end Json

end SchemaGraph
