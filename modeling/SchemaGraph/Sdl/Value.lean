/-!
# Constant values

Values stand as defaults of arguments and input fields, and as arguments of
directives. Numbers keep the text they were written with.
-/

namespace SchemaGraph.Sdl

/-- A constant value. -/
inductive Value where
  | int (text : String)
  | float (text : String)
  | string (value : String)
  | boolean (value : Bool)
  | null
  | enum (name : String)
  | list (items : List Value)
  | object (fields : List (String × Value))
deriving BEq, Inhabited

namespace Value

/-- A hexadecimal digit as an upper-case letter or a number. -/
def upperHexDigit (n : Nat) : Char := (Nat.digitChar n).toUpper

/-- A character of a string as it is written inside quotes. -/
def escapeChar (c : Char) : List Char :=
  if c = '"' then ['\\', '"']
  else if c = '\\' then ['\\', '\\']
  else if c = '\n' then ['\\', 'n']
  else if c = '\r' then ['\\', 'r']
  else if c = '\t' then ['\\', 't']
  else if c.toNat < 0x20 then
    ['\\', 'u', '0', '0', upperHexDigit (c.toNat / 16), upperHexDigit (c.toNat % 16)]
  else [c]

/-- A string as it is written between quotes. -/
def printString (s : String) : String :=
  "\"" ++ String.ofList (s.toList.flatMap escapeChar) ++ "\""

mutual

/-- A value as it is written. -/
def print : Value → String
  | int text => text
  | float text => text
  | string value => printString value
  | boolean true => "true"
  | boolean false => "false"
  | null => "null"
  | enum name => name
  | list items => "[" ++ ", ".intercalate (printItems items) ++ "]"
  | object [] => "\x7b\x7d"
  | object (field :: fields) =>
    "\x7b " ++ ", ".intercalate (printFields (field :: fields)) ++ " \x7d"

/-- The items of a list, each as it is written. -/
def printItems : List Value → List String
  | [] => []
  | item :: items => item.print :: printItems items

/-- The fields of an object, each as it is written. -/
def printFields : List (String × Value) → List String
  | [] => []
  | (name, value) :: fields => (name ++ ": " ++ value.print) :: printFields fields

end

end Value

end SchemaGraph.Sdl
