import SchemaGraph.Catalog.Json
import SchemaGraph.Graph.Basic

/-!
# Graphs as JSON

Types are the members of an object, each under its identifier; fields, arguments
and input fields likewise under their names. What an entity does not have is
left out, except for the arguments of a field.
-/

namespace SchemaGraph.Graph

open Sdl
open JsonValue (record text bool arrayOf named flag? list?)

/-- A type's identifier. -/
def idContent (id : TypeId) : JsonValue := text id.text

/-- An argument or an input field, with its identifier. -/
def Input.content (id : String) (i : Input) : JsonValue :=
  record [("id", some (text id)), ("name", some (text i.name)),
    ("description", i.description.map text), ("defaultValue", i.default.map text),
    ("type", some (idContent i.type)), ("typeWrappers", some (JsonValue.wrappers i.wrappers)),
    ("isDeprecated", flag? i.deprecation.isSome), ("deprecationReason", i.deprecation.map text),
    ("location", i.location.map JsonValue.location)]

/-- A type with its wrappers. -/
def TypeUse.content (u : TypeUse) : JsonValue :=
  record [("type", some (idContent u.type)),
    ("typeWrappers", some (JsonValue.wrappers u.wrappers))]

/-- Arguments of a field, under their names. -/
def argumentsContent (type field : String) (inputs : List Input) : JsonValue :=
  named (·.name) (fun i => i.content (Id.argument type field i.name)) inputs

/-- A field of the type with this name. -/
def Field.content (type : String) (f : Field) : JsonValue :=
  record [("id", some (text (Id.field type f.name))), ("name", some (text f.name)),
    ("description", f.description.map text), ("type", some (idContent f.type)),
    ("typeWrappers", some (JsonValue.wrappers f.wrappers)),
    ("isDeprecated", some (bool f.deprecation.isSome)),
    ("deprecationReason", f.deprecation.map text),
    ("args", some (argumentsContent type f.name f.arguments)),
    ("relayType", f.relayType.map TypeUse.content),
    ("relayArgs", list? (argumentsContent type f.name) f.relayArguments),
    ("location", f.location.map JsonValue.location)]

/-- The relations to some types, each with its identifier. -/
def relationsContent (relation : String → String) (targets : List TypeId) : JsonValue :=
  arrayOf (fun t => record [("id", some (text (relation t.name))), ("type", some (idContent t))])
    targets

/-- A type. -/
def Node.content (n : Node) : JsonValue :=
  record [("id", some (idContent n.id)), ("name", some (text n.name)),
    ("kind", some (text n.kind.code)), ("description", n.description.map text),
    ("location", n.location.map JsonValue.location), ("isRelayType", flag? n.isRelay),
    ("fields", list? (named (·.name) (Field.content n.name)) n.fields),
    ("interfaces", list? (relationsContent (Id.interface n.name)) n.interfaces),
    ("derivedTypes", list? (relationsContent (Id.derivedType n.name)) n.derivedTypes),
    ("possibleTypes", list? (relationsContent (Id.possibleType n.name)) n.possibleTypes),
    ("enumValues", list? (arrayOf JsonValue.enumRecord) n.enumValues),
    ("inputFields",
      list? (named (·.name) fun i => Input.content (Id.field n.name i.name) i) n.inputFields)]

/-- A graph. -/
def content (g : Graph) : JsonValue :=
  record [("types", some (named (·.id.text) Node.content g.nodes)),
    ("queryType", some (idContent g.query)), ("mutationType", g.mutation.map idContent),
    ("subscriptionType", g.subscription.map idContent)]

/-- A graph as it is written. -/
def json (g : Graph) : Json := g.content.written

/-- The text of a graph. -/
def jsonText (g : Graph) : String := g.json.render

end SchemaGraph.Graph
