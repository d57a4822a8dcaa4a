import SchemaGraph.Sdl.BlockString
import SchemaGraph.Sdl.Token
import SchemaGraph.Source
import SchemaGraph.Text.Number

/-!
# From text to lexemes

A text falls into pieces: tokens, each the longest that its place admits, and
between them what the language ignores. The pieces make up the whole text, so
the place of each is the length of those before it. A lexeme is a token with a
mark of where it stands; reading a text marks each with its span.
-/

namespace SchemaGraph.Sdl

/-- A token and the mark of its place. -/
structure Lexeme (μ : Type) where
  token : Token
  mark : μ
deriving DecidableEq

/-- A part of a text: a token, or something to pass over. -/
structure Piece where
  token : Option Token
  text : List Char
deriving DecidableEq

/-- The byte order mark. -/
def byteOrderMark : Char := '\uFEFF'

/-- Whether a character is passed over wherever it stands outside a token. -/
def isIgnored (c : Char) : Bool :=
  c == ' ' || c == ',' || c == '\t' || c == '\n' || c == '\r' || c == '\x0c'
    || c == byteOrderMark

/-- Whether a character can stand in a comment. -/
def isComment (c : Char) : Bool := c != '\n' && c != '\r'

/-- Whether a name can start with a character. -/
def isNameStart (c : Char) : Bool := c == '_' || c.isAlpha

/-- Whether a name can go on with a character. -/
def isNameRest (c : Char) : Bool := c == '_' || c.isAlphanum

theorem isNameRest_of_start {c : Char} (h : isNameStart c = true) : isNameRest c = true := by
  simp only [isNameStart, isNameRest, Char.isAlphanum, Bool.or_eq_true] at h ⊢
  exact h.imp_right .inl

/-- The fault of a plain string that cannot be read, told from what stands after its token. -/
def stringFault (rest : List Char) : LexicalFault :=
  if (rest.takeWhile (· != '\n')).contains '"' then .badEscape else .unterminatedString

/-- The outcome of reading a piece: what it is, its text after the first character, what follows. -/
structure Piece.Step where
  token : Option Token
  tail : List Char
  rest : List Char

namespace Piece

/-- A run of characters that all satisfy `p`. -/
def run (token : List Char → Option Token) (p : Char → Bool) (cs : List Char) : Step :=
  ⟨token (cs.takeWhile p), cs.takeWhile p, cs.dropWhile p⟩

/-- What starts with a quote: an empty string, a block string or a plain one. -/
def string (cs : List Char) : Step :=
  match cs with
  | '"' :: '"' :: block =>
    match BlockString.scan block with
    | some s =>
      ⟨some (.string (String.ofList (BlockString.dedent s.value))), '"' :: '"' :: s.text, s.rest⟩
    | none => ⟨some (.invalid .unterminatedBlock), ['"', '"'], block⟩
  | '"' :: rest => ⟨some (.string ""), ['"'], rest⟩
  | cs =>
    match StringLiteral.literal cs with
    | some s => ⟨some (.string (String.ofList s.value)), s.text, s.rest⟩
    | none =>
      let (text, rest) := StringLiteral.broken cs
      ⟨some (.invalid (stringFault rest)), text, rest⟩

/-- A single character that starts no token. -/
def unexpected (c : Char) (cs : List Char) : Step :=
  ⟨some (.invalid (.unexpected c)), [], cs⟩

/-- What starts with the sign of a directive. -/
def directive (cs : List Char) : Step :=
  match cs with
  | d :: _ =>
    if isNameStart d then run (fun name => some (.directive (String.ofList name))) isNameRest cs
    else unexpected '@' cs
  | [] => unexpected '@' cs

/-- A number, or a character that starts none. -/
def number (c : Char) (cs : List Char) : Step :=
  match Text.Number.read? (c :: cs) with
  | some (n, rest) =>
    let text := String.ofList n.text
    ⟨some (if n.isWhole then .integer text else .float text), n.text.tail, rest⟩
  | none => unexpected c cs

/-- The piece that starts with `c`. -/
def step (c : Char) (cs : List Char) : Step :=
  if isIgnored c then run (fun _ => none) isIgnored cs
  else if c = '#' then run (fun _ => none) isComment cs
  else if isNameStart c then
    run (fun name => some (.name (String.ofList (c :: name)))) isNameRest cs
  else if c = '"' then string cs
  else if c = '@' then directive cs
  else
    match Punctuator.ofChar? c with
    | some p => ⟨some (.punct p), [], cs⟩
    | none => number c cs

theorem run_append (token : List Char → Option Token) (p : Char → Bool) (cs : List Char) :
    (run token p cs).tail ++ (run token p cs).rest = cs :=
  List.takeWhile_append_dropWhile

theorem string_append (cs : List Char) : (string cs).tail ++ (string cs).rest = cs := by
  rw [string.eq_def]
  split
  · split
    · rename_i s hs
      simp [BlockString.scan_append hs]
    · rfl
  · rfl
  · split
    · rename_i s hs
      exact StringLiteral.literal_append hs
    · exact StringLiteral.broken_append _

theorem directive_append (cs : List Char) : (directive cs).tail ++ (directive cs).rest = cs := by
  rw [directive.eq_def]
  split
  · split
    · exact run_append _ _ _
    · rfl
  · rfl

theorem number_append (c : Char) (cs : List Char) :
    (number c cs).tail ++ (number c cs).rest = cs := by
  rw [number]
  split
  · rename_i n rest hn
    have happend := Text.Number.read?_append hn
    cases ht : n.text with
    | nil => exact absurd ht (Text.Number.read?_text_ne_nil hn)
    | cons d ds => simpa [ht] using congrArg List.tail happend
  · rfl

theorem step_append (c : Char) (cs : List Char) : (step c cs).tail ++ (step c cs).rest = cs := by
  rw [step]
  split
  · exact run_append _ _ _
  split
  · exact run_append _ _ _
  split
  · exact run_append _ _ _
  split
  · exact string_append cs
  split
  · exact directive_append cs
  split
  · rfl
  · exact number_append c cs

theorem step_length_le (c : Char) (cs : List Char) : (step c cs).rest.length ≤ cs.length := by
  conv => rhs; rw [← step_append c cs]
  simp

end Piece

/-- The pieces of a text, from its start to its end. -/
def pieces : List Char → List Piece
  | [] => []
  | c :: cs =>
    let s := Piece.step c cs
    ⟨s.token, c :: s.tail⟩ :: pieces s.rest
termination_by cs => cs.length
decreasing_by
  have := Piece.step_length_le c cs
  simp only [List.length_cons]
  omega

/-- The pieces of a text make up the text. -/
theorem pieces_flatten (cs : List Char) : ((pieces cs).map Piece.text).flatten = cs := by
  fun_induction pieces cs with
  | case1 => rfl
  | case2 c cs s ih => simp [s, ih, Piece.step_append]

/-- The tokens among the pieces of a text that starts at `offset`, with their spans. -/
def lexemesFrom (offset : Nat) : List Piece → List (Lexeme Span)
  | [] => []
  | p :: ps =>
    let stop := offset + Text.byteLength p.text
    match p.token with
    | some token => ⟨token, ⟨offset, stop⟩⟩ :: lexemesFrom stop ps
    | none => lexemesFrom stop ps

/-- The tokens of a text, with their spans. -/
def lexemes (text : List Char) : List (Lexeme Span) :=
  lexemesFrom 0 (pieces text)

end SchemaGraph.Sdl
