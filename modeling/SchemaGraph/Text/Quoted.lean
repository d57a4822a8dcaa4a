import SchemaGraph.Text.Visible

/-!
# Texts in messages

A name in a message is set off by backticks. A text of any other kind stands
between double quotes. Quotes and backslashes in it are escaped, line ends, tabs
and the null character have their short escapes, and any other character without
a shape of its own is given by its code point.
-/

namespace SchemaGraph.Text

/-- A character as it stands inside quotes. -/
def quoteChar (c : Char) : String :=
  if c = '\x00' then "\\0"
  else if c = '\t' then "\\t"
  else if c = '\r' then "\\r"
  else if c = '\n' then "\\n"
  else if c = '"' then "\\\""
  else if c = '\\' then "\\\\"
  else if isVisible c then String.singleton c
  else "\\u\x7b" ++ String.ofList (Nat.toDigits 16 c.toNat) ++ "\x7d"

/-- A text between quotes. -/
def quote (s : String) : String :=
  "\"" ++ String.join (s.toList.map quoteChar) ++ "\""

/-- A name as messages set it off. -/
def tick (name : String) : String := "`" ++ name ++ "`"

end SchemaGraph.Text
