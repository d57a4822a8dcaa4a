import SchemaGraph.Catalog
import SchemaGraph.Graph.Id

/-!
# Graphs

The types of a schema as the nodes of a graph. Fields, arguments and relations
refer to types by identifier, and the identifiers of all that belongs to a type
start from its name, so they are not kept but told. A graph lists its types in
order; each part of it is found by its identifier.
-/

namespace SchemaGraph

open Sdl

namespace Graph

/-- An argument or an input field of a graph. -/
abbrev Input := InputRecord TypeId

/-- A type and the wrappers around it. -/
structure TypeUse where
  type : TypeId
  wrappers : List Wrapper
deriving DecidableEq, Inhabited

/--
A field. If its type has been changed because it was part of a Relay connection,
`relayType` keeps what it was and `relayArguments` the arguments that paged
through it.
-/
structure Field where
  name : String
  description : Option String
  type : TypeId
  wrappers : List Wrapper
  deprecation : Option String
  arguments : List Input
  relayType : Option TypeUse
  relayArguments : List Input
  location : Option Location
deriving DecidableEq, Inhabited

/-- A type. -/
structure Node where
  name : String
  kind : TypeKind
  description : Option String
  location : Option Location
  isRelay : Bool
  fields : List Field
  interfaces : List TypeId
  derivedTypes : List TypeId
  possibleTypes : List TypeId
  enumValues : List EnumRecord
  inputFields : List Input
deriving DecidableEq, Inhabited

end Graph

/-- Types, and the roots of the operations. -/
structure Graph where
  nodes : List Graph.Node
  query : TypeId
  mutation : Option TypeId
  subscription : Option TypeId
deriving DecidableEq, Inhabited

namespace Graph

namespace Node

/-- The identifier of a type. -/
def id (n : Node) : TypeId := ⟨n.name⟩

/-- Whether a diagram draws the type as a node of its own. -/
def isDrawn (n : Node) : Bool :=
  n.kind != .scalar && n.kind != .enum && n.kind != .input && !n.isRelay

/-- The field with this name. -/
def field? (n : Node) (name : String) : Option Field := n.fields.find? (·.name == name)

/-- The fields. -/
def fieldsById (n : Node) : List (String × Field) :=
  n.fields.map fun f => (Id.field n.name f.name, f)

/-- The arguments of a field, those that paged through a connection last. -/
def argumentsById (n : Node) (f : Field) : List (String × Input) :=
  (f.arguments ++ f.relayArguments).map fun a => (Id.argument n.name f.name a.name, a)

/-- The arguments of all fields, and the input fields. -/
def inputsById (n : Node) : List (String × Input) :=
  n.fields.flatMap n.argumentsById
    ++ n.inputFields.map fun i => (Id.field n.name i.name, i)

/-- The relations to interfaces, to implementing types, and to members. -/
def relationsById (n : Node) : List (String × TypeId) :=
  n.interfaces.map (fun t => (Id.interface n.name t.name, t))
    ++ n.derivedTypes.map (fun t => (Id.derivedType n.name t.name, t))
    ++ n.possibleTypes.map (fun t => (Id.possibleType n.name t.name, t))

end Node

/-- What an identifier can lead to; what belongs to a type comes with the type's name. -/
inductive Entity where
  | type (node : Node)
  | field (owner : String) (field : Field)
  | input (input : Input)
  | relation (target : TypeId)
deriving DecidableEq

variable (g : Graph)

/-- The type that a reference leads to. -/
def node? (id : TypeId) : Option Node := g.nodes.find? (·.id == id)

/-- The type with this name. -/
def named? (name : String) : Option Node := g.node? ⟨name⟩

/-- The type with this identifier. -/
def type? (id : String) : Option Node := g.nodes.find? (·.id.text == id)

/-- The type that an identifier says it belongs to. -/
def owner? (id : String) : Option Node := (Id.owner? id).bind g.node?

/-- The field with this identifier, and the type it belongs to. -/
def field? (id : String) : Option (Node × Field) :=
  (g.owner? id).bind fun n => (n.fieldsById.lookup id).map fun f => (n, f)

/-- The argument or input field with this identifier. -/
def input? (id : String) : Option Input :=
  (g.owner? id).bind fun n => n.inputsById.lookup id

/-- The type that the relation with this identifier leads to. -/
def relation? (id : String) : Option TypeId :=
  (g.owner? id).bind fun n => n.relationsById.lookup id

/-- What an identifier leads to. -/
def entity? (id : String) : Option Entity :=
  match g.type? id with
  | some n => some (.type n)
  | none =>
    match g.field? id with
    | some (n, f) => some (.field n.name f)
    | none =>
      match g.input? id with
      | some i => some (.input i)
      | none => (g.relation? id).map .relation

/-- Where an entity was declared. A relation is declared nowhere in particular. -/
def Entity.location : Entity → Option Location
  | type n => n.location
  | field _ f => f.location
  | input i => i.location
  | relation _ => none

/-- Where the entity with this identifier was declared. -/
def location? (id : String) : Option Location := (g.entity? id).bind Entity.location

/-- The graph with every type changed by `f`. -/
def mapNodes (f : Node → Node) : Graph := { g with nodes := g.nodes.map f }

/-- The graph with every field changed by `f`. -/
def mapFields (f : Field → Field) : Graph :=
  g.mapNodes fun n => { n with fields := n.fields.map f }

end Graph

end SchemaGraph
