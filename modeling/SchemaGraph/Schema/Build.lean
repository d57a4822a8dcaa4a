import SchemaGraph.Document
import SchemaGraph.Schema.Merge
import SchemaGraph.Schema.Order
import SchemaGraph.Schema.Roots

/-!
# From definitions to a schema

Types are collected, extended, completed by the built-in scalars and checked;
then the roots are found. Of several faults the first in this order is the one
that is reported. References to types are not checked here.
-/

namespace SchemaGraph

open Sdl

/-- The schema that some definitions make up, in the order in which they are written. -/
def Schema.ofDefinitions (definitions : List (Definition Location)) :
    Except SchemaError Schema := do
  let collected ← collect definitions
  let extended ← extendAll collected.types definitions
  let types := addBuiltins extended
  checkInterfaces types
  let roots ← namedRoots types collected.roots (definitions.filterMap Definition.addedRoots?)
  withRoots types roots

/-- The schema of a document, brought into alphabetical order if `sort` says so. -/
def Schema.ofDocument (sort : Bool) (d : Document) : Except SchemaError Schema :=
  (ofDefinitions d.definitions).map fun s => if sort then s.sorted else s

end SchemaGraph
