import SchemaGraph.Schema.Build

/-!
# Catalogs

A catalog lists the types of a schema as plain records: every kind of type has
the same parts, those that it cannot have being empty. Type references are taken
apart into wrappers and a bare name, defaults are printed, deprecations are read
off the directives. Names are not resolved yet. Types that describe the language
itself are left out.
-/

namespace SchemaGraph

open Sdl

/--
An argument or an input field. It refers to its type by `ρ`: a name in a
catalog, an identifier in a graph.
-/
structure InputRecord (ρ : Type) where
  name : String
  description : Option String
  type : ρ
  wrappers : List Wrapper
  default : Option String
  deprecation : Option String
  location : Option Location
deriving DecidableEq, Inhabited

/-- A value of an enum type. -/
structure EnumRecord where
  name : String
  description : Option String
  deprecation : Option String
deriving DecidableEq, Inhabited

/-- The record of an enum value. -/
def EnumRecord.ofDef (d : EnumValueDef (Option Location)) : EnumRecord :=
  ⟨d.name, d.description, deprecation? d.directives⟩

namespace Catalog

/-- An argument or an input field of a catalog. -/
abbrev Input := InputRecord String

/-- A field of an object or interface type. -/
structure Field where
  name : String
  description : Option String
  type : String
  wrappers : List Wrapper
  deprecation : Option String
  arguments : List Input
  location : Option Location
deriving DecidableEq, Inhabited

/-- A type. -/
structure Entry where
  name : String
  kind : TypeKind
  description : Option String
  location : Option Location
  fields : List Field
  interfaces : List String
  derivedTypes : List String
  possibleTypes : List String
  enumValues : List EnumRecord
  inputFields : List Input
deriving DecidableEq, Inhabited

end Catalog

/-- The types of a schema, and the roots of its operations. -/
structure Catalog where
  entries : List Catalog.Entry
  query : String
  mutation : Option String
  subscription : Option String
deriving DecidableEq, Inhabited

namespace Catalog

/-- The record of an argument or an input field. -/
def Input.ofDef (d : InputDef (Option Location)) : Input :=
  ⟨d.name, d.description, d.type.bareName, d.type.wrappers, d.default.map Value.print,
    deprecation? d.directives, d.mark⟩

/-- The record of a field. -/
def Field.ofDef (d : FieldDef (Option Location)) : Field :=
  ⟨d.name, d.description, d.type.bareName, d.type.wrappers, deprecation? d.directives,
    d.arguments.map Input.ofDef, d.mark⟩

/-- A type of a kind, without any members. -/
def Entry.bare (t : SchemaType) (kind : TypeKind) : Entry :=
  ⟨t.name, kind, t.description, t.mark, [], [], [], [], [], []⟩

/-- The record of a type. What has a built-in scalar's name loses its members. -/
def Entry.ofType (s : Schema) (t : SchemaType) : Entry :=
  let bare := Entry.bare t (kindOf t)
  if kindOf t = .scalar then bare
  else
    match t.body with
    | .scalar => bare
    | .object interfaces fields =>
      { bare with fields := fields.map Field.ofDef, interfaces := distinct interfaces }
    | .interface interfaces fields =>
      { bare with
        fields := fields.map Field.ofDef
        interfaces := distinct interfaces
        derivedTypes := distinct (s.possibleTypes t) }
    | .union members => { bare with possibleTypes := distinct members }
    | .enum values => { bare with enumValues := values.map EnumRecord.ofDef }
    | .input fields => { bare with inputFields := fields.map Input.ofDef }

/-- The catalog of a schema. -/
def ofSchema (s : Schema) : Catalog :=
  ⟨(s.types.filter (!isIntrospective ·.name)).map (Entry.ofType s), s.query, s.mutation,
    s.subscription⟩

end Catalog

end SchemaGraph
