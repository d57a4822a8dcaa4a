import SchemaGraph.Sdl.StringLiteral
import SchemaGraph.Text.Lines

/-!
# Block strings

A block string runs from three quotes to the next three; a backslash before
three quotes makes them part of the text. What it stands for is its text
without the indentation that its lines share and without blank lines at either
end, so that it may be laid out to fit the definitions around it. The line on
which it opens has no indentation to share.
-/

namespace SchemaGraph.Sdl.BlockString

/-- Reads a block string up to its closing quotes; its escapes are resolved, its layout is kept. -/
def scan : List Char → Option Scanned
  | [] => none
  | '\\' :: '"' :: '"' :: '"' :: cs =>
    (scan cs).map (.prepend ['"', '"', '"'] ['\\', '"', '"', '"'])
  | '"' :: '"' :: '"' :: cs => some ⟨[], ['"', '"', '"'], cs⟩
  | c :: cs => (scan cs).map (.prepend [c] [c])

theorem scan_append {cs : List Char} {s : Scanned} (h : scan cs = some s) :
    s.text ++ s.rest = cs := by
  fun_induction scan cs generalizing s with
  | case1 => cases h
  | case2 cs ih =>
    obtain ⟨t, ht, rfl⟩ := Option.map_eq_some_iff.1 h
    simp [Scanned.prepend, ih ht]
  | case3 cs => cases h; rfl
  | case4 c cs _ _ ih =>
    obtain ⟨t, ht, rfl⟩ := Option.map_eq_some_iff.1 h
    simp [Scanned.prepend, ih ht]

/-- A text whose lines all end in a line feed alone. -/
def unifyLineEnds : List Char → List Char
  | [] => []
  | '\r' :: '\n' :: cs => '\n' :: unifyLineEnds cs
  | c :: cs => (if c = '\r' then '\n' else c) :: unifyLineEnds cs

/-- Whether a character indents a line. -/
def isIndent (c : Char) : Bool := c == ' ' || c == '\t'

/-- Whether a line shows nothing. -/
def isBlank (line : List Char) : Bool := line.all isIndent

/-- By how much a line is indented. -/
def indentOf (line : List Char) : Nat := (line.takeWhile isIndent).length

/-- The indentation that all lines with something to show have in common. -/
def commonIndent (lines : List (List Char)) : Nat :=
  ((lines.filter (!isBlank ·)).map indentOf).min?.getD 0

/-- The lines without those at either end that show nothing. -/
def trimBlank (lines : List (List Char)) : List (List Char) :=
  ((lines.dropWhile isBlank).reverse.dropWhile isBlank).reverse

/-- Takes the shared indentation from all lines but the first. -/
def dedentLines : List (List Char) → List (List Char)
  | [] => []
  | first :: rest => first :: rest.map (List.drop (commonIndent rest))

/-- What the text of a block string stands for. -/
def dedent (raw : List Char) : List Char :=
  Text.joinLines (trimBlank (dedentLines (Text.splitLines (unifyLineEnds raw))))

end SchemaGraph.Sdl.BlockString
