import SchemaGraph.Graph.Relay

/-!
# Diagrams

A diagram shows the part of a graph that can be reached from a root, nearest
types first. Ways lead from a type to the types of its fields, to those that
implement it and to its members, and only through types that are drawn. The root
is part of the diagram, drawn or not, unless it is hidden.
-/

namespace SchemaGraph

/-- The types of a diagram in the order in which they are reached, and its root. -/
structure Diagram where
  root : TypeId
  types : List TypeId
deriving DecidableEq, Inhabited

/-- Whether the type with this identifier is part of a diagram. -/
def Diagram.contains (d : Diagram) (id : String) : Bool := d.types.any (·.text == id)

namespace Graph

/-- The types that a type leads to, in order, repeated as often as it does. -/
def Node.targets (n : Node) : List TypeId :=
  n.fields.map (·.type) ++ n.derivedTypes ++ n.possibleTypes

variable (g : Graph)

/-- Whether a reference leads to a type that is drawn. -/
def draws (id : TypeId) : Bool := (g.node? id).any Node.isDrawn

/-- The drawn types that a reference leads on to. -/
def drawnTargets (id : TypeId) : List TypeId :=
  match g.node? id with
  | some n => n.targets.filter g.draws
  | none => []

/--
Follows the types reached so far one after the other, from the one at `index`
on, for at most as many steps as `limit` says.
-/
def reach : Nat → Nat → List TypeId → List TypeId
  | 0, _, ids => ids
  | limit + 1, index, ids =>
    match ids[index]? with
    | none => ids
    | some id => reach limit (index + 1) (addNew ids (g.drawnTargets id))

/--
All types that a root leads to, itself first. Besides the root only types of the
graph are reached, so there are no more steps than one for each and one more.
-/
def reachable (root : TypeId) : List TypeId :=
  g.reach (g.nodes.length + 1) 0 [root]

/-- The report on a root that is not there. -/
def undefinedRoot (name : String) : Report :=
  .plain .schema ("Root type " ++ Text.tick name ++ " is not defined.") none

/-- The type that a diagram starts from: the one named, or the query root. -/
def diagramRoot : Option String → Except Report TypeId
  | none => .ok g.query
  | some name =>
    match g.named? name with
    | some n => .ok n.id
    | none => .error (undefinedRoot name)

/-- The diagram that starts from a root, which it may hide. -/
def diagram (root : Option String) (hideRoot : Bool) : Except Report Diagram :=
  (g.diagramRoot root).map fun id =>
    let types := g.reachable id
    ⟨id, if hideRoot then types.filter (· != id) else types⟩

end Graph

end SchemaGraph
