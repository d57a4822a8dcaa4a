import SchemaGraph.Report
import SchemaGraph.Sdl.Grammar
import SchemaGraph.Source.Excerpt

/-!
# Documents

A schema may be spread over any number of sources. Each is read on its own, in
order, and the first that cannot be read decides the report. The definitions of
a document are those of its fragments, one after the other, each marked with its
location in the source that it comes from.
-/

namespace SchemaGraph

open Sdl

/-- The report on a lexeme of this source that does not fit. -/
def Source.report (s : Source) (u : Unexpected Span) : Report :=
  let text := s.text.toList
  let length := Text.byteLength text
  let span := match u.found with
    | some t => t.mark
    | none => ⟨length, length⟩
  ⟨.parse, u.message, some (.ofOffset s.path text span.start), some (excerpt text span)⟩

/-- Reads what stands at the start of a source; what follows it does not matter. -/
def Source.read {α : Type} (s : Source) (reader : Reader Span α) : Except Report α :=
  match reader (lexemes s.text.toList) with
  | .ok (a, _) => .ok a
  | .error u => .error (s.report u)

/-- A source and the definitions in it. -/
structure Fragment where
  source : Source
  definitions : List (Definition Span)

namespace Fragment

/-- Reads a source to its end. -/
def ofSource (s : Source) : Except Report Fragment :=
  match s.read Sdl.definitions with
  | .ok ds => .ok ⟨s, ds⟩
  | .error r => .error r

/-- The definitions, each marked with where its first token stands. -/
def located (f : Fragment) : List (Definition Location) :=
  let text := f.source.text.toList
  f.definitions.map (·.map fun span => .ofOffset f.source.path text span.start)

end Fragment

/-- The fragments that make up one schema. -/
structure Document where
  fragments : List Fragment

namespace Document

/-- Reads sources in order; the first that cannot be read is reported. -/
def readAll : List Source → Except Report (List Fragment)
  | [] => .ok []
  | s :: rest =>
    match Fragment.ofSource s with
    | .error r => .error r
    | .ok f =>
      match readAll rest with
      | .error r => .error r
      | .ok fs => .ok (f :: fs)

/-- The document that some sources make up; without sources there is none. -/
def load : List Source → Except Report (Option Document)
  | [] => .ok none
  | s :: rest =>
    match readAll (s :: rest) with
    | .error r => .error r
    | .ok fs => .ok (some ⟨fs⟩)

/-- All definitions, fragment by fragment. -/
def definitions (d : Document) : List (Definition Location) :=
  d.fragments.flatMap Fragment.located

/-- The location of a byte offset of the fragment with this index. -/
def location? (d : Document) (fragment offset : Nat) : Option Location :=
  d.fragments[fragment]?.map (·.source.location offset)

end Document

end SchemaGraph
