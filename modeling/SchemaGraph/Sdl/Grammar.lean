import SchemaGraph.Sdl.Definition
import SchemaGraph.Sdl.Reader

/-!
# The grammar of schema definitions

One reader for each form of the language. All of them decide by the next lexeme
alone. A definition is marked by its first lexeme after the description: its
keyword if it is a type, its name if it is part of one.
-/

namespace SchemaGraph.Sdl

variable {μ : Type}

open Reader

/-- The reference, made non-null if an exclamation mark is next. -/
def bang (t : TypeExpr) : Reader μ TypeExpr := do
  if ← punct? .exclam then return .nonNull t else return t

/-- A type reference. -/
def typeExpr : Reader μ TypeExpr
  | ⟨.name text, _⟩ :: ts => bang (.named text) ts
  | ⟨.punct .bracketOpen, _⟩ :: ts =>
    match typeExpr ts with
    | .error e => .error e
    | .ok (item, rest) => (do punct .bracketClose .listEnd; bang (.list item)) rest
  | ts => fail .typeReference ts

/-- The value that a name writes. -/
def Value.ofName : String → Value
  | "true" => .boolean true
  | "false" => .boolean false
  | "null" => .null
  | text => .enum text

/-- A name, a colon, and what stands for the item. -/
def labelled {α : Type} (what : String) (item : Reader μ α) : Reader μ (String × α) := do
  let label ← name (.name what)
  punct .colon (.punct .colon)
  return (label, ← item)

/-- A value in which lists and objects are nested no deeper than `depth`. -/
def valueWithin : Nat → Reader μ Value
  | 0 => fail .constant
  | depth + 1 => fun ts =>
    match ts with
    | ⟨.integer text, _⟩ :: rest => .ok (.int text, rest)
    | ⟨.float text, _⟩ :: rest => .ok (.float text, rest)
    | ⟨.string value, _⟩ :: rest => .ok (.string value, rest)
    | ⟨.name text, _⟩ :: rest => .ok (Value.ofName text, rest)
    | ⟨.punct .bracketOpen, _⟩ :: rest =>
      (Value.list <$> closed .bracketClose (.punct .bracketClose) (valueWithin depth)) rest
    | ⟨.punct .braceOpen, _⟩ :: rest =>
      (Value.object <$> closed .braceClose (.punct .braceClose)
        (labelled "object field" (valueWithin depth))) rest
    | ts => fail .constant ts

/-- A constant value; it cannot be nested deeper than there are lexemes. -/
def value : Reader μ Value := fun ts => valueWithin ts.length ts

/-- A directive applied to a definition. -/
def directive : Reader μ Directive
  | ⟨.directive name, _⟩ :: ts =>
    (Directive.mk name <$> enclosed? .parenOpen .parenClose (.punct .parenClose)
      (labelled "argument" value)) ts
  | ts => fail .appliedDirective ts

/-- Whether the list of lexemes does not start with a directive name. -/
def notAtDirective : List (Lexeme μ) → Bool
  | ⟨.directive _, _⟩ :: _ => false
  | _ => true

/-- All directives that are next. -/
def directives : Reader μ (List Directive) := many notAtDirective directive

/-- A default value if an equals sign is next. -/
def default? : Reader μ (Option Value) := do
  if ← punct? .equal then some <$> value else return none

/-- An argument, or a field of an input object. -/
def inputDef : Reader μ (InputDef μ) := do
  let description ← description?
  let (name, mark) ← markedName (.name "input field")
  punct .colon (.punct .colon)
  let type ← typeExpr
  let default ← default?
  let directives ← directives
  return ⟨description, name, type, default, directives, mark⟩

/-- Arguments between parentheses, or none. -/
def argumentDefs : Reader μ (List (InputDef μ)) :=
  enclosed? .parenOpen .parenClose .closingParen inputDef

/-- Fails unless a colon or an opening parenthesis is next. -/
def argumentsOrColon : Reader μ Unit
  | ⟨.punct .colon, m⟩ :: ts => .ok ((), ⟨.punct .colon, m⟩ :: ts)
  | ⟨.punct .parenOpen, m⟩ :: ts => .ok ((), ⟨.punct .parenOpen, m⟩ :: ts)
  | ts => fail .argumentsOrColon ts

/-- A field of an object or interface type. -/
def fieldDef : Reader μ (FieldDef μ) := do
  let description ← description?
  let (name, mark) ← markedName (.name "field")
  argumentsOrColon
  let arguments ← argumentDefs
  punct .colon (.punct .colon)
  let type ← typeExpr
  let directives ← directives
  return ⟨description, name, arguments, type, directives, mark⟩

/-- The name of an enum value, and its mark. -/
def enumValueName : Reader μ (String × μ)
  | ⟨.name text, mark⟩ :: ts =>
    if text = "true" ∨ text = "false" ∨ text = "null" then
      fail .unreservedName (⟨.name text, mark⟩ :: ts)
    else .ok ((text, mark), ts)
  | ts => fail .enumValue ts

/-- A value of an enum type. -/
def enumValueDef : Reader μ (EnumValueDef μ) := do
  let description ← description?
  let (name, mark) ← enumValueName
  let directives ← directives
  return ⟨description, name, directives, mark⟩

/-- The interfaces that a type implements. -/
def implemented : Reader μ (List String) := do
  if ← keyword? "implements" then separated .ampersand (name (.name "interface"))
  else return []

/-- The members of a union. -/
def unionMembers : Reader μ (List String) := do
  if ← punct? .equal then separated .pipe (name (.name "member type"))
  else return []

/-- Items between braces, or none. -/
def braced {α : Type} (expected : Expectation) (item : Reader μ α) : Reader μ (List α) :=
  enclosed? .braceOpen .braceClose expected item

/-- What follows the name of a type. Its own directives are passed over. -/
def typeBody : TypeKind → Reader μ (TypeBody μ)
  | .scalar => do
    let _ ← directives
    return .scalar
  | .object => do
    let interfaces ← implemented
    let _ ← directives
    return .object interfaces (← braced .closingBrace fieldDef)
  | .interface => do
    let interfaces ← implemented
    let _ ← directives
    return .interface interfaces (← braced .closingBrace fieldDef)
  | .union => do
    let _ ← directives
    return .union (← unionMembers)
  | .enum => do
    let _ ← directives
    return .enum (← braced .enumValue enumValueDef)
  | .input => do
    let _ ← directives
    return .input (← braced .closingBrace inputDef)

/-- The keyword that introduces a type, and its mark. -/
def typeKeyword : Reader μ (TypeKind × μ)
  | ⟨.name text, mark⟩ :: ts =>
    match TypeKind.ofKeyword? text with
    | some kind => .ok ((kind, mark), ts)
    | none => fail .typeDefinition (⟨.name text, mark⟩ :: ts)
  | ts => fail .typeDefinition ts

/-- The definition or extension of a type, after its description. -/
def typeDef (description : Option String) : Reader μ (TypeDef μ) := do
  let (kind, mark) ← typeKeyword
  let name ← name (.name "type")
  let body ← typeBody kind
  return ⟨description, name, body, mark⟩

/-- The word for an operation. -/
def operation : Reader μ Operation
  | ⟨.name text, mark⟩ :: ts =>
    match Operation.ofWord? text with
    | some o => .ok (o, ts)
    | none => fail .operationType (⟨.name text, mark⟩ :: ts)
  | ts => fail .operationType ts

/-- An operation, a colon, and the name of its type. -/
def rootEntry : Reader μ (Operation × String) := do
  let o ← operation
  punct .colon (.punct .colon)
  return (o, ← name (.name "root type"))

/-- A schema definition or extension; of two entries for one operation the later one counts. -/
def schemaRoots : Reader μ RootNames := do
  keyword "schema" .schemaKeyword
  let _ ← directives
  let entries ← braced .schemaEnd rootEntry
  return entries.foldl (fun roots (o, type) => roots.set type o) .empty

/-- The places that a directive may be defined for. -/
def directiveLocations : List String :=
  ["QUERY", "MUTATION", "SUBSCRIPTION", "FIELD", "FRAGMENT_DEFINITION", "FRAGMENT_SPREAD",
    "INLINE_FRAGMENT", "VARIABLE_DEFINITION", "SCHEMA", "SCALAR", "OBJECT", "FIELD_DEFINITION",
    "ARGUMENT_DEFINITION", "INTERFACE", "UNION", "ENUM", "ENUM_VALUE", "INPUT_OBJECT",
    "INPUT_FIELD_DEFINITION"]

/-- A place that a directive may be defined for. -/
def directiveLocation : Reader μ String
  | ⟨.name text, mark⟩ :: ts =>
    if text ∈ directiveLocations then .ok (text, ts)
    else fail .directiveLocation (⟨.name text, mark⟩ :: ts)
  | ts => fail .directiveLocation ts

/-- The name of a directive that is being defined. -/
def directiveName : Reader μ String
  | ⟨.directive name, _⟩ :: ts => .ok (name, ts)
  | ts => fail (.name "directive") ts

/-- The definition of a directive, of which only the name is kept. -/
def directiveDefinition : Reader μ String := do
  keyword "directive" .directiveKeyword
  let name ← directiveName
  let _ ← argumentDefs
  let _ ← keyword? "repeatable"
  keyword "on" .onKeyword
  let _ ← separated .pipe directiveLocation
  return name

/-- Whether the name `word` is next. -/
def atKeyword (word : String) : List (Lexeme μ) → Bool
  | ⟨.name text, _⟩ :: _ => text = word
  | _ => false

/-- An extension of the schema or of a type. -/
def extension : Reader μ (Definition μ) := do
  keyword "extend" .typeDefinition
  if atKeyword "schema" (← get) then return .extendSchema (← schemaRoots)
  else return .extendType (← typeDef none)

/-- One definition, with its description. -/
def definition : Reader μ (Definition μ) := do
  let description ← description?
  let ts ← get
  if ts.isEmpty then fail .describedDefinition
  else if atKeyword "schema" ts then return .schema (← schemaRoots)
  else if atKeyword "directive" ts then return .directive (← directiveDefinition)
  else if atKeyword "extend" ts then
    if description.isSome then fail .undescribedExtension else extension
  else return .type (← typeDef description)

/-- All definitions up to the end of the text. -/
def definitions : Reader μ (List (Definition μ)) := many List.isEmpty definition

end SchemaGraph.Sdl
