import SchemaGraph.Sdl.Definition
import SchemaGraph.Source

/-!
# Schemas

A schema is the list of its types, in order and with all extensions folded in,
and the types that its operations start from. Types refer to each other by name;
a name may still lead nowhere.
-/

namespace SchemaGraph

open Sdl

/-- A type of a schema. One that is built in has no location. -/
abbrev SchemaType := TypeDef (Option Location)

/-- Types, and the roots of the operations. -/
structure Schema where
  types : List SchemaType
  query : String
  mutation : Option String
  subscription : Option String

/-- The scalars that every schema has. -/
def builtinScalars : List String := ["String", "Int", "Float", "Boolean", "ID"]

/-- The type with this name. -/
def lookupType (types : List SchemaType) (name : String) : Option SchemaType :=
  types.find? (·.name == name)

namespace Schema

/-- The type with this name. -/
def type? (s : Schema) (name : String) : Option SchemaType := lookupType s.types name

/-- The types that say they implement the interface with this name, in their order. -/
def implementors (s : Schema) (interface : String) : List String :=
  (s.types.filter (·.body.interfaces.contains interface)).map (·.name)

/-- The types that may stand for a union or an interface. -/
def possibleTypes (s : Schema) (t : SchemaType) : List String :=
  match t.body with
  | .interface .. => s.implementors t.name
  | .union members => members
  | _ => []

/-- Whether a type of this name may stand for a union or an interface. -/
def isPossible? (s : Schema) (t : SchemaType) (name : String) : Option Bool :=
  match t.body with
  | .interface .. => some ((s.possibleTypes t).contains name)
  | .union _ => some ((s.possibleTypes t).contains name)
  | _ => none

end Schema

/-- Whether the name of a type is kept for the language's own description of schemas. -/
def isIntrospective (name : String) : Bool :=
  match name.toList with
  | '_' :: '_' :: _ => true
  | _ => false

/-- The kind of a type. A built-in scalar's name makes a scalar of any definition. -/
def kindOf (t : SchemaType) : TypeKind :=
  if builtinScalars.contains t.name then .scalar else t.body.kind

end SchemaGraph
