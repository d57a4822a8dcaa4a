import SchemaGraph.Schema.Basic
import SchemaGraph.Schema.Fault

/-!
# Roots

The roots of a schema are named by its schema definition and the extensions of
it. Where there is neither, the types named after the operations are the roots.
Each root must be an object type, and there must be one to query.
-/

namespace SchemaGraph

open Sdl

/-- Takes over what an extension names for one operation, which must not have a type yet. -/
def addRoot (added roots : RootNames) (o : Operation) : Except SchemaError RootNames :=
  match added.get o with
  | none => .ok roots
  | some type =>
    if (roots.get o).isSome then .error ⟨.secondRoot o, none⟩ else .ok (roots.set type o)

/-- Takes over all that an extension names. -/
def addRoots (roots added : RootNames) : Except SchemaError RootNames :=
  Operation.all.foldlM (addRoot added) roots

/-- The roots of a schema that names none: the types named after the operations. -/
def impliedRoots (types : List SchemaType) : RootNames :=
  let named (o : Operation) := (lookupType types o.title).map (·.name)
  ⟨named .query, named .mutation, named .subscription⟩

/-- The roots that a document names. -/
def namedRoots (types : List SchemaType) (definition : Option RootNames)
    (extensions : List RootNames) : Except SchemaError RootNames :=
  match definition, extensions with
  | none, [] => .ok (impliedRoots types)
  | definition, extensions => extensions.foldlM addRoots (definition.getD .empty)

/-- Refuses a root that is no object type. -/
def checkRoot (types : List SchemaType) (o : Operation) (name : String) :
    Except SchemaError Unit :=
  match lookupType types name with
  | none => .error ⟨.rootUndefined o name, none⟩
  | some t =>
    if t.body.kind = .object then .ok () else .error ⟨.rootNotObject o name t.body.kind, t.mark⟩

/-- Refuses a root that is named and no object type. -/
def checkRoot? (types : List SchemaType) (o : Operation) : Option String → Except SchemaError Unit
  | none => .ok ()
  | some name => checkRoot types o name

/-- The schema of some types whose roots are named. -/
def withRoots (types : List SchemaType) (roots : RootNames) : Except SchemaError Schema :=
  match roots.query with
  | none => .error ⟨.noQuery, none⟩
  | some query => do
    checkRoot types .query query
    checkRoot? types .mutation roots.mutation
    checkRoot? types .subscription roots.subscription
    return ⟨types, query, roots.mutation, roots.subscription⟩

end SchemaGraph
