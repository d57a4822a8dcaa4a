import SchemaGraph.Text.Quoted

/-!
# Tokens of the schema definition language

A token that no rule of the language admits is kept, with the fault that made
it: whoever meets it reports the fault and nothing else. The end of the text is
no token.
-/

namespace SchemaGraph.Sdl

/-- The tokens that are written one way only. -/
inductive Punctuator where
  | bracketOpen
  | bracketClose
  | braceOpen
  | braceClose
  | parenOpen
  | parenClose
  | colon
  | equal
  | exclam
  | ampersand
  | pipe
deriving DecidableEq, Inhabited

namespace Punctuator

/-- The character that a punctuator is. -/
def char : Punctuator → Char
  | bracketOpen => '['
  | bracketClose => ']'
  | braceOpen => '\x7b'
  | braceClose => '\x7d'
  | parenOpen => '('
  | parenClose => ')'
  | colon => ':'
  | equal => '='
  | exclam => '!'
  | ampersand => '&'
  | pipe => '|'

/-- The punctuator that a character is, if it is one. -/
def ofChar? : Char → Option Punctuator
  | '[' => some bracketOpen
  | ']' => some bracketClose
  | '\x7b' => some braceOpen
  | '\x7d' => some braceClose
  | '(' => some parenOpen
  | ')' => some parenClose
  | ':' => some colon
  | '=' => some equal
  | '!' => some exclam
  | '&' => some ampersand
  | '|' => some pipe
  | _ => none

/-- What messages call a punctuator. -/
def describe : Punctuator → String
  | bracketOpen => "BracketOpen"
  | bracketClose => "BracketClose"
  | braceOpen => "BraceOpen"
  | braceClose => "BraceClose"
  | parenOpen => "ParenOpen"
  | parenClose => "ParenClose"
  | colon => "Colon"
  | equal => "Equal"
  | exclam => "Exclam"
  | ampersand => "Ampersand"
  | pipe => "Pipe"

theorem ofChar?_char (p : Punctuator) : ofChar? p.char = some p := by
  cases p <;> rfl

theorem char_of_ofChar? {c : Char} {p : Punctuator} (h : ofChar? c = some p) : p.char = c := by
  unfold ofChar? at h
  split at h <;> cases h <;> rfl

end Punctuator

/-- Why a text holds no token where one should start. -/
inductive LexicalFault where
  | unterminatedBlock
  | unterminatedString
  | badEscape
  | unexpected (char : Char)
deriving DecidableEq, Inhabited

/-- What a report says about a fault. -/
def LexicalFault.message : LexicalFault → String
  | unterminatedBlock => "Unterminated block string."
  | unterminatedString => "Unterminated string."
  | badEscape => "Invalid escape sequence in string."
  | unexpected c => "Unexpected character " ++ Text.tick (String.singleton c) ++ "."

/--
A token. Names and numbers hold their text, directive names come without the
sign before them, and a string holds the text that it stands for.
-/
inductive Token where
  | punct (p : Punctuator)
  | name (text : String)
  | directive (name : String)
  | integer (text : String)
  | float (text : String)
  | string (value : String)
  | invalid (fault : LexicalFault)
deriving DecidableEq, Inhabited

/-- What messages call a token. -/
def Token.describe : Token → String
  | punct p => p.describe
  | name text => "Name(" ++ Text.quote text ++ ")"
  | directive text => "DirectiveName(" ++ Text.quote text ++ ")"
  | integer text => "Integer(" ++ Text.quote text ++ ")"
  | float text => "Float(" ++ Text.quote text ++ ")"
  | string value => "String(" ++ Text.quote value ++ ")"
  | invalid _ => "Error"

end SchemaGraph.Sdl
