import SchemaGraph.Text.Bytes

/-!
# Sources and places in them

A source is one fragment of a schema and the path it came from. Tokens mark it
by spans of bytes; people read it by line and column. A line ends at a carriage
return, a line feed, or the two together, and byte order marks at the very start
of the text take no column.
-/

namespace SchemaGraph

/-- One text of schema definitions, and the path that reports name it by. -/
structure Source where
  path : String
  text : String
deriving DecidableEq, Inhabited

/-- The bytes from `start` up to, and without, `stop`. -/
structure Span where
  start : Nat
  stop : Nat
deriving DecidableEq, Inhabited

/-- A line and a column of the source with this path; both count from one. -/
structure Location where
  path : String
  line : Nat
  column : Nat
deriving DecidableEq, Inhabited

/-- A location as reports write it: path, line and column between colons. -/
def Location.print (l : Location) : String :=
  l.path ++ ":" ++ toString l.line ++ ":" ++ toString l.column

/-- The line and column of the next character to be read. -/
structure Place where
  line : Nat
  column : Nat
deriving DecidableEq, Inhabited

namespace Place

/-- Where a text begins. -/
def origin : Place := ⟨1, 1⟩

/-- The start of the next line. -/
def nextLine (p : Place) : Place := ⟨p.line + 1, 1⟩

/-- The place after one character that does not belong to a two-character line end. -/
def step (p : Place) (c : Char) : Place :=
  if c = '\r' ∨ c = '\n' then p.nextLine
  else if c = '\uFEFF' ∧ p = origin then p
  else ⟨p.line, p.column + 1⟩

/-- The place reached by reading a text from `p` on. -/
def after (p : Place) : List Char → Place
  | [] => p
  | '\r' :: '\n' :: cs => p.nextLine.after cs
  | c :: cs => (p.step c).after cs

end Place

/-- The location of a byte offset; an offset past the end of the text means its end. -/
def Location.ofOffset (path : String) (text : List Char) (offset : Nat) : Location :=
  let place := Place.origin.after (Text.splitAtByte offset text).1
  ⟨path, place.line, place.column⟩

/-- The location of a byte offset of this source. -/
def Source.location (s : Source) (offset : Nat) : Location :=
  .ofOffset s.path s.text.toList offset

end SchemaGraph
