import SchemaGraph.Graph.Build

/-!
# Requests

Whenever a schema changes, a new graph is requested, and requests may overlap.
Only the newest may replace the graph that is shown. A request that fails, or
that has no sources to build from, leaves the graph as it is.
-/

namespace SchemaGraph

/-- A request, by its number of 64 bits; the first is number one. -/
structure Request where
  number : UInt64
deriving DecidableEq, Inhabited

/-- What became of a request. -/
inductive Completion where
  | applied
  | superseded
deriving DecidableEq, Inhabited

/-- What the builder of a graph comes back with. -/
abbrev Outcome := Except Report (Option Graph)

/-- The number of the request made last, and the graph that is shown. -/
structure Requests where
  made : UInt64
  shown : Option Graph

namespace Requests

/-- No request has been made, and no graph is shown. -/
def start : Requests := ⟨0, none⟩

/-- Makes a request, which supersedes all that were made before. Numbers wrap around. -/
def begin (rs : Requests) : Request × Requests :=
  (⟨rs.made + 1⟩, { rs with made := rs.made + 1 })

/-- Whether no request has been made after this one. -/
def isLatest (rs : Requests) (r : Request) : Bool := rs.made == r.number

/-- Takes the outcome of a request: it counts only if the request is the latest. -/
def apply (rs : Requests) (r : Request) (outcome : Outcome) : Except Report Completion × Requests :=
  if rs.isLatest r then
    match outcome with
    | .error report => (.error report, rs)
    | .ok none => (.ok .applied, rs)
    | .ok (some g) => (.ok .applied, { rs with shown := some g })
  else (.ok .superseded, rs)

/-- Builds the graph of a request and takes the outcome; a superseded request is not built. -/
def complete (rs : Requests) (r : Request) (options : Options) (sources : List Source) :
    Except Report Completion × Requests :=
  if rs.isLatest r then rs.apply r (Graph.build options sources) else (.ok .superseded, rs)

end Requests

end SchemaGraph
