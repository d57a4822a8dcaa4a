import SchemaGraph.Sdl.Lexeme

/-!
# Readers

A reader takes lexemes from the front of a list and leaves the rest. It fails at
the first lexeme that does not fit, and says what it expected there; it never
looks past that lexeme. `many` repeats a reader up to a lexeme that ends the
repetition.
-/

namespace SchemaGraph.Sdl

variable {μ α : Type}

/-- What the grammar admits where something else was found. -/
inductive Expectation where
  | punct (p : Punctuator)
  | name (what : String)
  | typeDefinition
  | closingBrace
  | closingParen
  | enumValue
  | unreservedName
  | argumentsOrColon
  | listEnd
  | typeReference
  | constant
  | appliedDirective
  | directiveLocation
  | onKeyword
  | schemaKeyword
  | directiveKeyword
  | operationType
  | schemaEnd
  | describedDefinition
  | undescribedExtension
deriving DecidableEq, Inhabited

/-- What a report says when an expectation is not met by a token that it calls `found`. -/
def Expectation.message (found : String) : Expectation → String
  | punct p => "Expected " ++ p.describe ++ ", got " ++ found
  | name what => "Expected " ++ what ++ " name, got " ++ found
  | typeDefinition => "Expected valid type definition, got " ++ found ++ "."
  | closingBrace => "Expected `\x7d`, got " ++ found
  | closingParen => "Expected `)`, got " ++ found
  | enumValue => "Expected either closing brace or value name, got " ++ found
  | unreservedName => "Enum values must not be named `true`, `false`, or `null`."
  | argumentsOrColon => "Expected `(` or `:`, got " ++ found
  | listEnd => "Unterminated list"
  | typeReference => "Expected type name or list type start `[`, got " ++ found
  | constant => "Expected constant value, got " ++ found
  | appliedDirective => "Expected directive, got " ++ found
  | directiveLocation => "Expected directive location, got " ++ found
  | onKeyword => "Expected `on`"
  | schemaKeyword => "Schema definition must start with the `schema` keyword."
  | directiveKeyword => "Directive definition must start with the `directive` keyword."
  | operationType => "Expected operation type, got " ++ found
  | schemaEnd => "Expected `\x7d`"
  | describedDefinition => "Expected definition after description"
  | undescribedExtension => "Extensions must not have a description."

/-- A lexeme that does not fit, or the end of the text, and what was expected there. -/
structure Unexpected (μ : Type) where
  expected : Expectation
  found : Option (Lexeme μ)
deriving DecidableEq

/-- What a report says: the fault of the token itself if it has one, else what was expected. -/
def Unexpected.message (u : Unexpected μ) : String :=
  match u.found with
  | some ⟨.invalid fault, _⟩ => fault.message
  | some ⟨token, _⟩ => u.expected.message token.describe
  | none => u.expected.message "End"

/-- Takes lexemes from the front and leaves the rest, or fails at one that does not fit. -/
abbrev Reader (μ : Type) : Type → Type :=
  StateT (List (Lexeme μ)) (Except (Unexpected μ))

namespace Reader

/-- Fails at the next lexeme. -/
def fail (expected : Expectation) : Reader μ α :=
  fun ts => .error ⟨expected, ts.head?⟩

/-- Takes the punctuator `p`. -/
def punct (p : Punctuator) (expected : Expectation) : Reader μ Unit
  | ⟨.punct q, m⟩ :: ts => if q = p then .ok ((), ts) else fail expected (⟨.punct q, m⟩ :: ts)
  | ts => fail expected ts

/-- Takes the punctuator `p` if it is next, and says whether it was. -/
def punct? (p : Punctuator) : Reader μ Bool
  | ⟨.punct q, m⟩ :: ts => .ok (if q = p then (true, ts) else (false, ⟨.punct q, m⟩ :: ts))
  | ts => .ok (false, ts)

/-- Takes a name, and its mark. -/
def markedName (expected : Expectation) : Reader μ (String × μ)
  | ⟨.name text, mark⟩ :: ts => .ok ((text, mark), ts)
  | ts => fail expected ts

/-- Takes a name. -/
def name (expected : Expectation) : Reader μ String :=
  Prod.fst <$> markedName expected

/-- Takes the name `word`. -/
def keyword (word : String) (expected : Expectation) : Reader μ Unit
  | ⟨.name text, m⟩ :: ts =>
    if text = word then .ok ((), ts) else fail expected (⟨.name text, m⟩ :: ts)
  | ts => fail expected ts

/-- Takes the name `word` if it is next, and says whether it was. -/
def keyword? (word : String) : Reader μ Bool
  | ⟨.name text, m⟩ :: ts =>
    .ok (if text = word then (true, ts) else (false, ⟨.name text, m⟩ :: ts))
  | ts => .ok (false, ts)

/-- Takes a description if one is next. -/
def description? : Reader μ (Option String)
  | ⟨.string value, _⟩ :: ts => .ok (some value, ts)
  | ts => .ok (none, ts)

/-- Whether the list of lexemes is at its end or at the punctuator `p`. -/
def atEndOr (p : Punctuator) : List (Lexeme μ) → Bool
  | [] => true
  | t :: _ => t.token = .punct p

/--
Repeats a reader as long as `done` does not hold of what is left, at most
`limit` times.
-/
def manyUpTo (done : List (Lexeme μ) → Bool) (item : Reader μ α) :
    Nat → List (Lexeme μ) → Except (Unexpected μ) (List α × List (Lexeme μ))
  | 0, ts => .ok ([], ts)
  | limit + 1, ts =>
    if done ts then .ok ([], ts)
    else
      match item ts with
      | .error e => .error e
      | .ok (a, rest) =>
        match manyUpTo done item limit rest with
        | .error e => .error e
        | .ok (as, rest) => .ok (a :: as, rest)

/--
Repeats a reader until `done` holds of what is left. An item that takes at least
one lexeme can be read no more often than there are lexemes.
-/
def many (done : List (Lexeme μ) → Bool) (item : Reader μ α) : Reader μ (List α) :=
  fun ts => manyUpTo done item ts.length ts

/-- Whether a reader, whenever it succeeds, has taken at least one lexeme. -/
def Consumes (r : Reader μ α) : Prop :=
  ∀ ⦃ts a rest⦄, r ts = .ok (a, rest) → rest.length < ts.length

/-- The limit is no limit for an item that takes at least one lexeme. -/
theorem manyUpTo_eq_many {done : List (Lexeme μ) → Bool} {item : Reader μ α}
    (hitem : item.Consumes) (hdone : done [] = true) {limit : Nat} {ts : List (Lexeme μ)}
    (h : ts.length ≤ limit) : manyUpTo done item limit ts = many done item ts := by
  rw [many]
  generalize hn : ts.length = n
  induction n using Nat.strongRecOn generalizing ts limit with
  | ind n ih =>
    cases ts with
    | nil =>
      subst hn
      cases limit with
      | zero => rfl
      | succ limit => simp [manyUpTo, hdone]
    | cons t ts =>
      obtain ⟨limit, rfl⟩ : ∃ m, limit = m + 1 := ⟨limit - 1, by simp at h; omega⟩
      subst hn
      simp only [List.length_cons, manyUpTo]
      split
      · rfl
      · cases hi : item (t :: ts) with
        | error e => rfl
        | ok p =>
          have hp : p.2.length < (t :: ts).length := hitem hi
          simp only [List.length_cons] at hp h
          simp only []
          have hlt : p.2.length < (ts.length + 1) := hp
          rw [ih p.2.length hlt (show p.2.length ≤ limit by omega) rfl,
            ← ih p.2.length hlt (show p.2.length ≤ ts.length by omega) rfl]

/-- Repeating a reader: nothing where `done` holds, else one item and the repetition. -/
theorem many_eq {done : List (Lexeme μ) → Bool} {item : Reader μ α} (hitem : item.Consumes)
    (hdone : done [] = true) (ts : List (Lexeme μ)) :
    many done item ts =
      if done ts then .ok ([], ts)
      else
        match item ts with
        | .error e => .error e
        | .ok (a, rest) =>
          match many done item rest with
          | .error e => .error e
          | .ok (as, rest) => .ok (a :: as, rest) := by
  rw [← manyUpTo_eq_many hitem hdone (Nat.le_succ ts.length), manyUpTo]
  cases hi : item ts with
  | error e => rfl
  | ok p =>
    have hp : p.2.length < ts.length := hitem hi
    simp only [manyUpTo_eq_many hitem hdone (Nat.le_of_lt hp)]

/-- Reads items up to a closing punctuator, and takes that too. -/
def closed (close : Punctuator) (expected : Expectation) (item : Reader μ α) :
    Reader μ (List α) := do
  let items ← many (atEndOr close) item
  punct close expected
  return items

/-- Reads items between an opening and a closing punctuator, if the opening one is next. -/
def enclosed? (opening close : Punctuator) (expected : Expectation) (item : Reader μ α) :
    Reader μ (List α) := do
  if ← punct? opening then closed close expected item else return []

/-- Whether the list of lexemes does not start with the punctuator `p`. -/
def notAt (p : Punctuator) : List (Lexeme μ) → Bool
  | [] => true
  | t :: _ => t.token ≠ .punct p

/-- Items separated by `p`, at least one; a separator may also stand in front of the first. -/
def separated (p : Punctuator) (item : Reader μ α) : Reader μ (List α) := do
  let _ ← punct? p
  let first ← item
  let rest ← many (notAt p) do
    punct p (.punct p)
    item
  return first :: rest

end Reader

end SchemaGraph.Sdl
