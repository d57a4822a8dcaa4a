import SchemaGraph.Schema.Basic

/-!
# Alphabetical order

A schema may be brought into alphabetical order: its types, the members of each,
the arguments of each field, and every list of names. Names are compared
character by character, by code point.
-/

namespace SchemaGraph

open Sdl

variable {μ : Type}

/-- A list in the order of its keys. Entries with one key keep their order. -/
def sortOn {α : Type} (key : α → String) (entries : List α) : List α :=
  entries.mergeSort fun a b => decide (key a ≤ key b)

/-- Names in order. -/
def sortNames (names : List String) : List String := sortOn id names

/-- A field with its arguments in order. -/
def Sdl.FieldDef.sorted (f : FieldDef μ) : FieldDef μ :=
  { f with arguments := sortOn (·.name) f.arguments }

/-- Fields in order, each with its arguments in order. -/
def sortFields (fields : List (FieldDef μ)) : List (FieldDef μ) :=
  sortOn (·.name) (fields.map FieldDef.sorted)

/-- A body with its members in order. -/
def Sdl.TypeBody.sorted : TypeBody μ → TypeBody μ
  | scalar => scalar
  | object interfaces fields => object (sortNames interfaces) (sortFields fields)
  | interface interfaces fields => interface (sortNames interfaces) (sortFields fields)
  | union members => union (sortNames members)
  | enum values => enum (sortOn (·.name) values)
  | input fields => input (sortOn (·.name) fields)

/-- A type with its members in order. -/
def Sdl.TypeDef.sorted (d : TypeDef μ) : TypeDef μ := { d with body := d.body.sorted }

/-- A schema with its types and all their members in order. -/
def Schema.sorted (s : Schema) : Schema :=
  { s with types := sortOn (·.name) (s.types.map TypeDef.sorted) }

end SchemaGraph
