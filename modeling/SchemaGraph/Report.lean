import SchemaGraph.Source

/-!
# Reports

What a caller is told when a schema cannot be turned into a graph: the kind of
failure, a message, and, where they are known, the place and an excerpt of the
text around it.
-/

namespace SchemaGraph

/-- The three ways to fail: the text, the schema it describes, a name it refers to. -/
inductive Report.Kind where
  | parse
  | schema
  | reference
deriving DecidableEq, Inhabited

/-- What a report of this kind opens with. -/
def Report.Kind.heading : Report.Kind → String
  | .parse => "Syntax Error"
  | .schema => "Schema Error"
  | .reference => "Reference Error"

/-- A failure as it is told to a caller. -/
structure Report where
  kind : Report.Kind
  message : String
  location : Option Location
  excerpt : Option String
deriving DecidableEq, Inhabited

namespace Report

/-- A report on a schema or a reference, which shows no text. -/
def plain (kind : Kind) (message : String) (location : Option Location) : Report :=
  ⟨kind, message, location, none⟩

/-- Heading, message and location on one line. -/
def summary (r : Report) : String :=
  let opening := r.kind.heading ++ ": " ++ r.message
  match r.location with
  | some l => opening ++ " (" ++ l.print ++ ")"
  | none => opening

/-- The summary, with the excerpt below it. -/
def print (r : Report) : String :=
  match r.excerpt with
  | some e => r.summary ++ "\n" ++ e
  | none => r.summary

/-- The printed report on lines of its own. -/
def printBlock (r : Report) : String := "\n" ++ r.print ++ "\n"

end Report

end SchemaGraph
