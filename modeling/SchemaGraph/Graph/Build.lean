import SchemaGraph.Options

/-!
# From sources to a graph

All steps in order: sources are read, their definitions make up a schema, its
catalog is linked, and the graph is normalised as the options say. The first
step that fails decides the report.
-/

namespace SchemaGraph.Graph

/-- The graph of a document, linked and otherwise as it was declared. -/
def ofDocument (sort : Bool) (d : Document) : Except Report Graph :=
  match Schema.ofDocument sort d with
  | .error e => .error e.report
  | .ok s =>
    match (Catalog.ofSchema s).link with
    | .error r => .error r.report
    | .ok g => .ok g

/-- The graph without what the options leave out. -/
def normalize (options : Options) (g : Graph) : Graph :=
  let collapsed := if options.skipRelayPattern then g.normalizeRelay options.relay else g
  if options.skipDeprecatedFields then collapsed.dropDeprecated else collapsed

/-- The graph of some sources; without sources there is none. -/
def build (options : Options) (sources : List Source) : Except Report (Option Graph) :=
  match Document.load sources with
  | .error r => .error r
  | .ok none => .ok none
  | .ok (some d) =>
    match ofDocument options.sortByAlphabet d with
    | .error r => .error r
    | .ok g => .ok (some (g.normalize options))

end SchemaGraph.Graph
