import SchemaGraph.Source
import SchemaGraph.Text.Lines

/-!
# Excerpts

An excerpt shows the line on which a span starts, the line before it, and any
further lines that the span runs over, each with its number. Below a span that
stays on one line stand carets, one for each of its bytes and at least one.
Only a line feed ends a line here.
-/

namespace SchemaGraph

/-- A text of `n` blanks. -/
def blanks (n : Nat) : String := String.ofList (List.replicate n ' ')

/-- One line of an excerpt: its number, set right in `width` columns, and its text. -/
def numberedLine (width number : Nat) (line : List Char) : String :=
  let digits := toString number
  blanks (width - digits.length + 1) ++ digits ++ " | " ++ String.ofList line

/-- The numbered lines of an excerpt, from the line `first` on. -/
def numberedLines (width first : Nat) : List (List Char) → List String
  | [] => []
  | line :: rest => numberedLine width first line :: numberedLines width (first + 1) rest

/-- The excerpt around the part `found` of the text `before ++ found ++ after`. -/
def excerptAround (before found after : List Char) : String :=
  let lines := Text.splitLines before
  let number := lines.length
  let here := lines.getLast?.getD []
  let shown := lines.drop (number - 2)
  let first := number - (shown.length - 1)
  let body := Text.shownLines
    (Text.joinLines shown ++ found ++ after.takeWhile (· != '\n'))
  let width := (toString (first + max body.length 1 - 1)).length
  let numbered := "\n".intercalate (numberedLines width first body)
  if found.contains '\n' then
    numbered
  else
    numbered ++ "\n" ++ blanks (width + 1) ++ " | " ++ blanks (Text.byteLength here)
      ++ String.ofList (List.replicate (max (Text.byteLength found) 1) '^')

/-- The excerpt of a text around a span. -/
def excerpt (text : List Char) (span : Span) : String :=
  let (before, rest) := Text.splitAtByte span.start text
  let (found, after) := Text.splitAtByte (span.stop - span.start) rest
  excerptAround before found after

end SchemaGraph
