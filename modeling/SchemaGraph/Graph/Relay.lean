import SchemaGraph.Graph.Link

/-!
# Relay connections

Schemas that follow the Relay conventions page through lists by a connection
type, whose edges each hold one node. A diagram is clearer with a plain list, so
a field whose type is such a connection is made to refer to the node type
directly; what it referred to before is kept beside. Types that only serve the
convention are flagged, and root fields that do so are removed.
-/

namespace SchemaGraph

open Sdl

/-- Which fields of the query root are removed. -/
structure RelayOptions where
  plumbingRootFields : List String
  removeSelfReferencingRootFields : Bool
deriving DecidableEq, Inhabited

/-- The fields that refetch nodes by identifier, and those that lead back to the root. -/
def RelayOptions.standard : RelayOptions := ⟨["node", "nodes"], true⟩

namespace Graph

/-- The interface of all types that can be refetched. -/
def nodeInterface : TypeId := ⟨"Node"⟩

/-- The type that describes a page. -/
def pageInfo : TypeId := ⟨"PageInfo"⟩

/-- The arguments that choose a page. -/
def pagingArguments : List String := ["first", "last", "before", "after"]

/-- Whether a type's name ends like a connection's, with something in front. -/
def isConnectionName (name : String) : Bool :=
  name.length > "Connection".length && "Connection".toList.isSuffixOf name.toList

/-- The three types that make up a connection. -/
structure Connection where
  connection : TypeId
  edge : TypeId
  node : TypeId
deriving DecidableEq, Inhabited

variable (g : Graph)

/-- The connection that a type is: an object with edges, which are objects with a node. -/
def connectionOf? (type : TypeId) : Option Connection := do
  let connection ← g.node? type
  guard (isConnectionName connection.name && connection.kind == .object)
  let edges ← connection.field? "edges"
  let edge ← g.node? edges.type
  guard (edge.kind == .object)
  let node ← edge.field? "node"
  return ⟨connection.id, edge.id, node.type⟩

/-- The connections that fields refer to, in the order of the fields. -/
def connections : List Connection :=
  g.nodes.flatMap fun n => n.fields.filterMap fun f => g.connectionOf? f.type

/-- Flags the types with these identifiers. -/
def flagRelay (ids : List TypeId) : Graph :=
  g.mapNodes fun n => if ids.contains n.id then { n with isRelay := true } else n

/-- Takes the interface of refetchable types from all types. -/
def dropNodeInterface : Graph :=
  g.mapNodes fun n => { n with interfaces := n.interfaces.filter (· != nodeInterface) }

/-- A field that referred to a connection, made to refer to a list of its nodes. -/
def Field.collapse (c : Connection) (f : Field) : Field :=
  { f with
    type := c.node
    wrappers := [.list]
    relayType := some ⟨f.type, f.wrappers⟩
    arguments := f.arguments.filter fun a => !pagingArguments.contains a.name
    relayArguments := f.arguments.filter fun a => pagingArguments.contains a.name }

/-- Makes every field that refers to a connection refer to a list of its nodes. -/
def collapseConnections : Graph :=
  g.mapFields fun f =>
    match g.connectionOf? f.type with
    | some c => f.collapse c
    | none => f

/-- The node type of an edge type that belongs to one of the connections. -/
def edgeNode? (cs : List Connection) (edge : TypeId) : Option TypeId :=
  (cs.find? (·.edge == edge)).map (·.node)

/-- A field that refers to an edge, made to refer to its node. -/
def Field.throughEdge (node : TypeId) (f : Field) : Field :=
  { f with type := node, relayType := some ⟨f.type, f.wrappers⟩ }

/-- Makes every field that refers to an edge of the connections refer to its node. -/
def unwrapEdges (cs : List Connection) : Graph :=
  g.mapFields fun f =>
    match edgeNode? cs f.type with
    | some node => f.throughEdge node
    | none => f

/-- Whether a field of the query root only serves the conventions. -/
def isPlumbing (options : RelayOptions) (f : Field) : Bool :=
  (options.plumbingRootFields.contains f.name && (g.node? f.type).any (·.isRelay))
    || (options.removeSelfReferencingRootFields && f.type == g.query)

/-- Removes the fields of the query root that only serve the conventions. -/
def removePlumbing (options : RelayOptions) : Graph :=
  g.mapNodes fun n =>
    if n.id = g.query then { n with fields := n.fields.filter (!g.isPlumbing options ·) } else n

/-- The graph without its connections. -/
def normalizeRelay (options : RelayOptions) : Graph :=
  let marked := (g.flagRelay [nodeInterface, pageInfo]).dropNodeInterface
  let cs := marked.connections
  let flagged := marked.collapseConnections.flagRelay (cs.flatMap fun c => [c.connection, c.edge])
  (flagged.unwrapEdges cs).removePlumbing options

/-- The graph without its deprecated fields; types are kept even if no field is left. -/
def dropDeprecated : Graph :=
  g.mapNodes fun n => { n with fields := n.fields.filter (·.deprecation.isNone) }

end Graph

end SchemaGraph
