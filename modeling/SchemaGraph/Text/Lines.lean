/-!
# Lines of a text

A text is cut at its line feeds: `splitLines` gives one line more than the text
has line feeds, so the last line may be empty. `shownLines` is what a reader
sees of it, without an empty last line and without the carriage return that
stands before a line feed.
-/

namespace SchemaGraph.Text

/-- The parts of a text between its line feeds. -/
def splitLines : List Char → List (List Char)
  | [] => [[]]
  | c :: cs =>
    if c = '\n' then
      [] :: splitLines cs
    else
      match splitLines cs with
      | [] => [[c]]
      | line :: rest => (c :: line) :: rest

/-- A text read back from its lines. -/
def joinLines : List (List Char) → List Char
  | [] => []
  | [line] => line
  | line :: rest => line ++ '\n' :: joinLines rest

/-- A line without the carriage return at its end. -/
def dropReturn (line : List Char) : List Char :=
  if line.getLast? = some '\r' then line.dropLast else line

/--
The lines of a text as they are shown. A carriage return goes only where a line
feed follows it; what follows the last line feed is shown unless it is empty.
-/
def shownLines (cs : List Char) : List (List Char) :=
  let lines := splitLines cs
  let ended := lines.dropLast.map dropReturn
  match lines.getLast? with
  | none | some [] => ended
  | some line => ended ++ [line]

theorem splitLines_ne_nil (cs : List Char) : splitLines cs ≠ [] := by
  cases cs with
  | nil => simp [splitLines]
  | cons c cs =>
    rw [splitLines]
    split
    · simp
    · split <;> simp

/-- Joining undoes splitting. -/
theorem joinLines_splitLines (cs : List Char) : joinLines (splitLines cs) = cs := by
  induction cs with
  | nil => rfl
  | cons c cs ih =>
    rw [splitLines]
    cases hs : splitLines cs with
    | nil => exact absurd hs (splitLines_ne_nil cs)
    | cons line rest =>
      rw [hs] at ih
      by_cases hc : c = '\n'
      · subst hc
        simp [joinLines, ih]
      · cases rest with
        | nil => simpa [hc, joinLines] using ih
        | cons next more => simpa [hc, joinLines] using ih

end SchemaGraph.Text
