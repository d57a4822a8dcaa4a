import SchemaGraph.Proofs.Normalising

/-!
# Relay normalisation in one step

Normalisation goes over the types again and again: it flags some, takes an
interface from all of them, collapses connections, flags their types, follows
edges, and removes fields from the query root. But of what decides these changes
nothing is changed before it is used: which fields refer to connections, and which
types are their edges, can be told from the graph as it was. So each type is
changed once, all of them at the same time, and only the removal comes after that.
-/

namespace SchemaGraph.Graph

variable {g : Graph}

theorem mapNodes_mapNodes (g : Graph) (u v : Node → Node) :
    (g.mapNodes u).mapNodes v = g.mapNodes fun n => v (u n) := by
  simp only [mapNodes, List.map_map]
  rfl

section

variable {u : Node → Node} (hname : ∀ n, (u n).name = n.name)

include hname

theorem node?_mapNodes (id : TypeId) : (g.mapNodes u).node? id = (g.node? id).map u := by
  have hid : ((fun n : Node => n.id == id) ∘ u) = fun n => n.id == id := by
    funext n
    simp only [Function.comp_apply, Node.id, hname]
  rw [node?, mapNodes, List.find?_map, hid]
  rfl

variable (hkind : ∀ n, (u n).kind = n.kind) (hfields : ∀ n, (u n).fields = n.fields)

include hkind hfields

theorem connectionOf?_mapNodes (type : TypeId) :
    (g.mapNodes u).connectionOf? type = g.connectionOf? type := by
  have hfield : ∀ n name, (u n).field? name = n.field? name := by
    intro n name
    rw [Node.field?, hfields, Node.field?]
  simp only [connectionOf?, node?_mapNodes hname, Option.bind_eq_bind, Option.bind_map,
    Function.comp_def, hname, hkind, hfield, Node.id]

theorem connections_mapNodes : (g.mapNodes u).connections = g.connections := by
  have heach : ∀ n : Node, (u n).fields.filterMap (fun f => (g.mapNodes u).connectionOf? f.type)
      = n.fields.filterMap fun f => g.connectionOf? f.type := by
    intro n
    simp only [hfields, connectionOf?_mapNodes hname hkind hfields]
  change (g.nodes.map u).flatMap _ = _
  rw [List.flatMap_map]
  exact congrArg (g.nodes.flatMap ·) (funext heach)

end

/-- A field that refers to a list of nodes if it referred to a connection. -/
def Field.collapsed (g : Graph) (f : Field) : Field :=
  match g.connectionOf? f.type with
  | some c => f.collapse c
  | none => f

/-- A field as normalisation leaves it, unless it is removed. -/
def Field.rewritten (g : Graph) (f : Field) : Field :=
  match edgeNode? g.connections (f.collapsed g).type with
  | some node => (f.collapsed g).throughEdge node
  | none => f.collapsed g

/-- The types that only serve the conventions. -/
def relayTypes (g : Graph) : List TypeId :=
  [nodeInterface, pageInfo] ++ g.connections.flatMap fun c => [c.connection, c.edge]

/-- A type as normalisation leaves it, with all its fields. -/
def Node.rewritten (g : Graph) (n : Node) : Node :=
  { n with
    isRelay := n.isRelay || g.relayTypes.contains n.id
    interfaces := n.interfaces.filter (· != nodeInterface)
    fields := n.fields.map (Field.rewritten g) }

/-- A type that is flagged if it is one of these. -/
def Node.flagged (ids : List TypeId) (n : Node) : Node :=
  { n with isRelay := n.isRelay || ids.contains n.id }

theorem flagRelay_eq (g : Graph) (ids : List TypeId) :
    g.flagRelay ids = g.mapNodes (Node.flagged ids) := by
  refine congrArg (fun u => g.mapNodes u) (funext fun n => ?_)
  rw [Node.flagged]
  cases ids.contains n.id with
  | true => rw [if_pos rfl, Bool.or_true]
  | false => rw [if_neg Bool.false_ne_true, Bool.or_false]

/-- A type as it is before the connections are looked for. -/
def Node.marked (n : Node) : Node :=
  { n.flagged [nodeInterface, pageInfo] with
    interfaces := n.interfaces.filter (· != nodeInterface) }

theorem normalizeRelay_eq (g : Graph) (options : RelayOptions) :
    g.normalizeRelay options = (g.mapNodes (Node.rewritten g)).removePlumbing options := by
  have hmarked : (g.flagRelay [nodeInterface, pageInfo]).dropNodeInterface
      = g.mapNodes Node.marked := by
    rw [flagRelay_eq, dropNodeInterface, mapNodes_mapNodes]
    rfl
  -- Flags and interfaces do not decide what is a connection.
  have hconnection := connectionOf?_mapNodes (g := g) (u := Node.marked) (fun _ => rfl)
    (fun _ => rfl) (fun _ => rfl)
  have hconnections := connections_mapNodes (g := g) (u := Node.marked) (fun _ => rfl)
    (fun _ => rfl) (fun _ => rfl)
  unfold normalizeRelay
  rw [hmarked]
  simp only [hconnections, collapseConnections, unwrapEdges, mapFields, flagRelay_eq,
    hconnection, mapNodes_mapNodes]
  refine congrArg (fun u => (g.mapNodes u).removePlumbing options) (funext fun n => ?_)
  simp only [Node.rewritten, Node.flagged, Node.marked, relayTypes, Node.id, List.map_map,
    List.contains_eq_mem, List.mem_append, Bool.decide_or, Bool.or_assoc]
  rfl

end SchemaGraph.Graph
