import SchemaGraph.Catalog
import SchemaGraph.Json.Value

/-!
# Catalogs as JSON

Every part of a catalog is written, empty ones too, in a fixed order. Types,
fields, arguments and input fields are the members of an object, each under its
name, so their order shows in the text.
-/

namespace SchemaGraph

open Sdl

/-- The word for a kind of type. -/
def Sdl.TypeKind.code : TypeKind → String
  | scalar => "SCALAR"
  | object => "OBJECT"
  | interface => "INTERFACE"
  | union => "UNION"
  | enum => "ENUM"
  | input => "INPUT_OBJECT"

/-- The word for a wrapper. -/
def Sdl.Wrapper.code : Wrapper → String
  | list => "LIST"
  | nonNull => "NON_NULL"

namespace JsonValue

/-- The wrappers of a reference, outermost first. -/
def wrappers (ws : List Wrapper) : JsonValue := arrayOf (fun w => text w.code) ws

/-- A location. -/
def location (l : Location) : JsonValue :=
  record [("filepath", some (text l.path)), ("line", some (number l.line)),
    ("column", some (number l.column))]

/-- An enum value. What it does not have is left out. -/
def enumRecord (v : EnumRecord) : JsonValue :=
  record [("name", some (text v.name)), ("description", v.description.map text),
    ("isDeprecated", some (bool v.deprecation.isSome)),
    ("deprecationReason", v.deprecation.map text)]

end JsonValue

namespace Catalog

open JsonValue (record text bool arrayOf ofOption named texts)

/-- An argument or an input field. -/
def Input.content (i : Input) : JsonValue :=
  record [("name", some (text i.name)), ("description", some (ofOption text i.description)),
    ("type", some (text i.type)), ("typeWrappers", some (JsonValue.wrappers i.wrappers)),
    ("defaultValue", some (ofOption text i.default)),
    ("isDeprecated", some (bool i.deprecation.isSome)),
    ("deprecationReason", some (ofOption text i.deprecation)),
    ("location", some (ofOption JsonValue.location i.location))]

/-- A field. -/
def Field.content (f : Field) : JsonValue :=
  record [("name", some (text f.name)), ("description", some (ofOption text f.description)),
    ("type", some (text f.type)), ("typeWrappers", some (JsonValue.wrappers f.wrappers)),
    ("isDeprecated", some (bool f.deprecation.isSome)),
    ("deprecationReason", some (ofOption text f.deprecation)),
    ("args", some (named (·.name) Input.content f.arguments)),
    ("location", some (ofOption JsonValue.location f.location))]

/-- A type. -/
def Entry.content (e : Entry) : JsonValue :=
  record [("name", some (text e.name)), ("kind", some (text e.kind.code)),
    ("description", some (ofOption text e.description)),
    ("location", some (ofOption JsonValue.location e.location)),
    ("fields", some (named (·.name) Field.content e.fields)),
    ("interfaces", some (texts e.interfaces)), ("derivedTypes", some (texts e.derivedTypes)),
    ("possibleTypes", some (texts e.possibleTypes)),
    ("enumValues", some (arrayOf JsonValue.enumRecord e.enumValues)),
    ("inputFields", some (named (·.name) Input.content e.inputFields))]

/-- A catalog. -/
def content (c : Catalog) : JsonValue :=
  record [("types", some (named (·.name) Entry.content c.entries)),
    ("queryType", some (text c.query)), ("mutationType", some (ofOption text c.mutation)),
    ("subscriptionType", some (ofOption text c.subscription))]

/-- A catalog as it is written. -/
def json (c : Catalog) : Json := c.content.written

end Catalog

end SchemaGraph
