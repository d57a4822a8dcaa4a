import SchemaGraph.Json.Basic

/-!
# What JSON says

A JSON value without regard to how it is written: strings are the texts that they
stand for, and numbers, of which no others than natural ones are ever written, are
numbers. An object keeps its members in order. `written` is how such a value is
written, and `Json.content?` tells what a written one says.
-/

namespace SchemaGraph

/-- What a JSON value says. -/
inductive JsonValue where
  | null
  | bool (value : Bool)
  | number (n : Nat)
  | text (s : String)
  | array (items : List JsonValue)
  | object (members : List (String × JsonValue))
deriving Inhabited

namespace JsonValue

mutual

/-- The value as it is written. -/
def written : JsonValue → Json
  | null => .null
  | bool value => .bool value
  | number n => .number (toString n)
  | text s => .text s
  | array items => .array (writtenItems items)
  | object members => .record (writtenMembers members)

/-- The items of an array as they are written. -/
def writtenItems : List JsonValue → List Json
  | [] => []
  | item :: items => item.written :: writtenItems items

/-- The members of an object, with their values as they are written. -/
def writtenMembers : List (String × JsonValue) → List (String × Json)
  | [] => []
  | (name, value) :: members => (name, value.written) :: writtenMembers members

end

/-- The array of some items. -/
def arrayOf {α : Type} (f : α → JsonValue) (items : List α) : JsonValue := array (items.map f)

/-- Texts in an array. -/
def texts (items : List String) : JsonValue := arrayOf text items

/-- A value, or null where there is none. -/
def ofOption {α : Type} (f : α → JsonValue) : Option α → JsonValue
  | none => null
  | some a => f a

/-- Entries under their names. -/
def named {α : Type} (name : α → String) (f : α → JsonValue) (entries : List α) : JsonValue :=
  object (entries.map fun a => (name a, f a))

/-- An object of those members that there is a value for. -/
def record (members : List (String × Option JsonValue)) : JsonValue :=
  object (members.filterMap fun (name, value?) => value?.map fun value => (name, value))

/-- A truth value, left out if it would be false. -/
def flag? (value : Bool) : Option JsonValue := if value then some (bool true) else none

/-- A value made of entries, left out if there are none. -/
def list? {α : Type} (f : List α → JsonValue) (entries : List α) : Option JsonValue :=
  if entries.isEmpty then none else some (f entries)

end JsonValue

end SchemaGraph
