import SchemaGraph.Json.Value
import SchemaGraph.Text.Escape
import SchemaGraph.Text.Number

/-!
# Reading JSON

`ofText?` reads a value with blanks anywhere between its tokens, and nothing but
blanks around it. Strings are taken as they are written; `textOf?` tells what
text one stands for, which is none if it holds half a surrogate pair. `content?`
tells what a value as a whole says.
-/

namespace SchemaGraph.Json

/-- The text that the inside of a string stands for. -/
def unescape : List Char → Option (List Char)
  | [] => some []
  | '\\' :: 'u' :: a :: b :: c :: d :: cs =>
    match Text.hexNumber? a b c d with
    | none => none
    | some n =>
      if Text.isHighSurrogate n then
        match cs with
        | '\\' :: 'u' :: e :: f :: g :: h :: rest =>
          match (Text.hexNumber? e f g h).bind (Text.ofSurrogates? n) with
          | some x => (unescape rest).map (x :: ·)
          | none => none
        | _ => none
      else
        match Text.ofCodePoint? n with
        | some x => (unescape cs).map (x :: ·)
        | none => none
  | '\\' :: e :: cs =>
    match Text.escaped? e with
    | some x => (unescape cs).map (x :: ·)
    | none => none
  | c :: cs => (unescape cs).map (c :: ·)

/-- The text that the inside of a string stands for. -/
def textOf? (inner : String) : Option String :=
  (unescape inner.toList).map String.ofList

/-- A text without the blanks in front of it. -/
def skipBlanks (cs : List Char) : List Char :=
  cs.dropWhile fun c => c == ' ' || c == '\n' || c == '\t' || c == '\r'

/-- What follows the word, if the text starts with it. -/
def afterWord? : List Char → List Char → Option (List Char)
  | [], cs => some cs
  | _ :: _, [] => none
  | w :: ws, c :: cs => if w = c then afterWord? ws cs else none

/-- The inside of a string whose opening quote has been read, and what follows the closing one. -/
def readString? : List Char → Option (List Char × List Char)
  | [] => none
  | '\\' :: 'u' :: a :: b :: c :: d :: cs =>
    if (Text.hexNumber? a b c d).isSome then
      (readString? cs).map fun (inner, rest) => ('\\' :: 'u' :: a :: b :: c :: d :: inner, rest)
    else none
  | '\\' :: e :: cs =>
    if (Text.escaped? e).isSome then
      (readString? cs).map fun (inner, rest) => ('\\' :: e :: inner, rest)
    else none
  | c :: cs =>
    if c = '"' then some ([], cs)
    else if c = '\\' ∨ c.toNat < 0x20 then none
    else (readString? cs).map fun (inner, rest) => (c :: inner, rest)

/-- Items separated by commas, at most `limit`, and the closing character after them. -/
def readItems? {α : Type} (close : Char) (item : List Char → Option (α × List Char)) :
    Nat → List Char → Option (List α × List Char)
  | 0, _ => none
  | limit + 1, cs =>
    match item cs with
    | none => none
    | some (a, rest) =>
      match skipBlanks rest with
      | [] => none
      | c :: rest =>
        if c = close then some ([a], rest)
        else if c = ',' then
          (readItems? close item limit rest).map fun (as, rest) => (a :: as, rest)
        else none

/-- Any number of items up to the closing character. -/
def readClosed? {α : Type} (close : Char) (item : List Char → Option (α × List Char))
    (cs : List Char) : Option (List α × List Char) :=
  match skipBlanks cs with
  | [] => none
  | c :: rest => if c = close then some ([], rest) else readItems? close item cs.length cs

/-- A member of an object: a string, a colon and what stands for its value. -/
def readMember? (value : List Char → Option (Json × List Char)) (cs : List Char) :
    Option ((String × Json) × List Char) :=
  match skipBlanks cs with
  | '"' :: cs =>
    match readString? cs with
    | none => none
    | some (name, rest) =>
      match skipBlanks rest with
      | ':' :: rest => (value rest).map fun (v, rest) => ((String.ofList name, v), rest)
      | _ => none
  | _ => none

/-- A value that is neither a string, an array nor an object. -/
def readPlain? (cs : List Char) : Option (Json × List Char) :=
  match afterWord? ['n', 'u', 'l', 'l'] cs with
  | some rest => some (null, rest)
  | none =>
    match afterWord? ['t', 'r', 'u', 'e'] cs with
    | some rest => some (bool true, rest)
    | none =>
      match afterWord? ['f', 'a', 'l', 's', 'e'] cs with
      | some rest => some (bool false, rest)
      | none =>
        (Text.Number.read? cs).map fun (n, rest) => (number (String.ofList n.text), rest)

/-- A value in which arrays and objects are nested less than `depth` deep. -/
def readWithin? : Nat → List Char → Option (Json × List Char)
  | 0, _ => none
  | depth + 1, cs =>
    match skipBlanks cs with
    | '"' :: rest =>
      (readString? rest).map fun (inner, rest) => (string (String.ofList inner), rest)
    | '[' :: rest =>
      (readClosed? ']' (readWithin? depth) rest).map fun (items, rest) => (array items, rest)
    | '\x7b' :: rest =>
      (readClosed? '\x7d' (readMember? (readWithin? depth)) rest).map
        fun (members, rest) => (object members, rest)
    | cs => readPlain? cs

/-- The value that a text writes, with nothing but blanks around it. -/
def ofText? (s : String) : Option Json :=
  let cs := s.toList
  match readWithin? cs.length cs with
  | some (value, rest) => if (skipBlanks rest).isEmpty then some value else none
  | none => none

/-- The natural number that a literal without sign, fraction and exponent writes. -/
def natural? (literal : String) : Option Nat :=
  if literal.toList.all Char.isDigit then some (Nat.ofDigitChars 10 literal.toList 0) else none

mutual

/-- What a value says, unless a string in it stands for no text or a number is no natural one. -/
def content? : Json → Option JsonValue
  | null => some .null
  | bool value => some (.bool value)
  | number literal => (natural? literal).map .number
  | string inner => (textOf? inner).map .text
  | array items => (itemContents? items).map .array
  | object members => (memberContents? members).map .object

/-- What the items of an array say. -/
def itemContents? : List Json → Option (List JsonValue)
  | [] => some []
  | item :: items =>
    match item.content?, itemContents? items with
    | some value, some values => some (value :: values)
    | _, _ => none

/-- What the members of an object say. -/
def memberContents? : List (String × Json) → Option (List (String × JsonValue))
  | [] => some []
  | (name, item) :: members =>
    match textOf? name, item.content?, memberContents? members with
    | some name, some value, some values => some ((name, value) :: values)
    | _, _, _ => none

end

end SchemaGraph.Json
