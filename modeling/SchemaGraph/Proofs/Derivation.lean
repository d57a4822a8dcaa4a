import SchemaGraph.Sdl.Grammar

/-!
# The grammar as derivations

A reader says how lexemes are taken one after the other; a form says what they
may be. `R ts a rest` reads: the lexemes of `ts` in front of `rest` write `a`.
Each form below is one rule of the grammar, with its alternatives as
constructors. None of them looks at what it leaves over, so where a part is
optional or repeated the rule allows all ways to go on, and it is left to
`ReaderSound` and `ReaderComplete` to show that one lexeme of lookahead always
finds the way there is.

What a rule passes over — the directives of a type, all but the name of a
directive's own definition — has to be derived and leaves no trace in the tree.
-/

namespace SchemaGraph.Sdl

/-- What the rules of a form derive: a tree, and the lexemes left over. -/
abbrev Form (μ α : Type) := List (Lexeme μ) → α → List (Lexeme μ) → Prop

variable {μ α : Type}

/-- Any number of items, one after the other. -/
inductive Star (R : Form μ α) : Form μ (List α)
  | nil {ts} : Star R ts [] ts
  | cons {ts mid rest a as} (head : R ts a mid) (tail : Star R mid as rest) :
      Star R ts (a :: as) rest

/-- Items between an opening and a closing punctuator, or nothing at all. -/
inductive EnclosedForm (opening close : Punctuator) (R : Form μ α) : Form μ (List α)
  | absent {ts} : EnclosedForm opening close R ts [] ts
  | present {m m' ts as rest} (items : Star R ts as (⟨.punct close, m'⟩ :: rest)) :
      EnclosedForm opening close R (⟨.punct opening, m⟩ :: ts) as rest

/-- An item with a punctuator in front. -/
inductive PrecededForm (p : Punctuator) (R : Form μ α) : Form μ α
  | intro {m ts a rest} (item : R ts a rest) :
      PrecededForm p R (⟨.punct p, m⟩ :: ts) a rest

/-- One or more items with `p` between them, and possibly in front of the first. -/
inductive SeparatedForm (p : Punctuator) (R : Form μ α) : Form μ (List α)
  | bare {ts mid rest a as} (first : R ts a mid) (others : Star (PrecededForm p R) mid as rest) :
      SeparatedForm p R ts (a :: as) rest
  | led {ts mid rest a as} (first : PrecededForm p R ts a mid)
      (others : Star (PrecededForm p R) mid as rest) : SeparatedForm p R ts (a :: as) rest

/-- A name. -/
inductive NameForm : Form μ String
  | intro {text m ts} : NameForm (⟨.name text, m⟩ :: ts) text ts

/-- A description, or none. -/
inductive DescriptionForm : Form μ (Option String)
  | absent {ts} : DescriptionForm ts none ts
  | present {text m ts} : DescriptionForm (⟨.string text, m⟩ :: ts) (some text) ts

/-- A name, a colon and an item. -/
inductive LabelledForm (R : Form μ α) : Form μ (String × α)
  | intro {label m m' ts a rest} (item : R ts a rest) :
      LabelledForm R (⟨.name label, m⟩ :: ⟨.punct .colon, m'⟩ :: ts) (label, a) rest

/-- A name, or a reference between brackets; an exclamation mark may follow either. -/
inductive TypeForm : Form μ TypeExpr
  | named {text m ts} : TypeForm (⟨.name text, m⟩ :: ts) (.named text) ts
  | namedNonNull {text m m' ts} :
      TypeForm (⟨.name text, m⟩ :: ⟨.punct .exclam, m'⟩ :: ts) (.nonNull (.named text)) ts
  | list {m m' ts t rest} (item : TypeForm ts t (⟨.punct .bracketClose, m'⟩ :: rest)) :
      TypeForm (⟨.punct .bracketOpen, m⟩ :: ts) (.list t) rest
  | listNonNull {m m' m'' ts t rest}
      (item : TypeForm ts t (⟨.punct .bracketClose, m'⟩ :: ⟨.punct .exclam, m''⟩ :: rest)) :
      TypeForm (⟨.punct .bracketOpen, m⟩ :: ts) (.nonNull (.list t)) rest

/-- A constant. Of the names, three are constants of their own and the rest enum values. -/
inductive ValueForm : Form μ Value
  | int {text m ts} : ValueForm (⟨.integer text, m⟩ :: ts) (.int text) ts
  | float {text m ts} : ValueForm (⟨.float text, m⟩ :: ts) (.float text) ts
  | string {text m ts} : ValueForm (⟨.string text, m⟩ :: ts) (.string text) ts
  | «true» {m ts} : ValueForm (⟨.name "true", m⟩ :: ts) (.boolean true) ts
  | «false» {m ts} : ValueForm (⟨.name "false", m⟩ :: ts) (.boolean false) ts
  | null {m ts} : ValueForm (⟨.name "null", m⟩ :: ts) .null ts
  | enum {text m ts} (name : text ∉ ["true", "false", "null"]) :
      ValueForm (⟨.name text, m⟩ :: ts) (.enum text) ts
  | list {m m' ts vs rest} (items : Star ValueForm ts vs (⟨.punct .bracketClose, m'⟩ :: rest)) :
      ValueForm (⟨.punct .bracketOpen, m⟩ :: ts) (.list vs) rest
  | object {m m' ts fs rest}
      (fields : Star (LabelledForm ValueForm) ts fs (⟨.punct .braceClose, m'⟩ :: rest)) :
      ValueForm (⟨.punct .braceOpen, m⟩ :: ts) (.object fs) rest

/-- A directive applied to a definition. -/
inductive DirectiveForm : Form μ Directive
  | intro {name m ts args rest}
      (arguments : EnclosedForm .parenOpen .parenClose (LabelledForm ValueForm) ts args rest) :
      DirectiveForm (⟨.directive name, m⟩ :: ts) ⟨name, args⟩ rest

/-- A default value, or none. -/
inductive DefaultForm : Form μ (Option Value)
  | absent {ts} : DefaultForm ts none ts
  | present {m ts v rest} (value : ValueForm ts v rest) :
      DefaultForm (⟨.punct .equal, m⟩ :: ts) (some v) rest

/-- An argument, or a field of an input object. -/
inductive InputForm : Form μ (InputDef μ)
  | intro {ts ts₁ ts₂ ts₃ rest description name mark m type default directives}
      (described : DescriptionForm ts description
        (⟨.name name, mark⟩ :: ⟨.punct .colon, m⟩ :: ts₁))
      (typed : TypeForm ts₁ type ts₂)
      (defaulted : DefaultForm ts₂ default ts₃)
      (directed : Star DirectiveForm ts₃ directives rest) :
      InputForm ts ⟨description, name, type, default, directives, mark⟩ rest

/-- The arguments of a definition. -/
abbrev ArgumentsForm : Form μ (List (InputDef μ)) :=
  EnclosedForm .parenOpen .parenClose InputForm

/-- A field of an object or interface type. -/
inductive FieldForm : Form μ (FieldDef μ)
  | intro {ts ts₁ ts₂ ts₃ rest description name mark m arguments type directives}
      (described : DescriptionForm ts description (⟨.name name, mark⟩ :: ts₁))
      (argued : ArgumentsForm ts₁ arguments (⟨.punct .colon, m⟩ :: ts₂))
      (typed : TypeForm ts₂ type ts₃)
      (directed : Star DirectiveForm ts₃ directives rest) :
      FieldForm ts ⟨description, name, arguments, type, directives, mark⟩ rest

/-- A value of an enum type, which has none of the names that are constants. -/
inductive EnumValueForm : Form μ (EnumValueDef μ)
  | intro {ts ts₁ rest description name mark directives}
      (described : DescriptionForm ts description (⟨.name name, mark⟩ :: ts₁))
      (unreserved : name ∉ ["true", "false", "null"])
      (directed : Star DirectiveForm ts₁ directives rest) :
      EnumValueForm ts ⟨description, name, directives, mark⟩ rest

/-- The interfaces that a type implements, or none. -/
inductive ImplementsForm : Form μ (List String)
  | absent {ts} : ImplementsForm ts [] ts
  | present {m ts names rest} (interfaces : SeparatedForm .ampersand NameForm ts names rest) :
      ImplementsForm (⟨.name "implements", m⟩ :: ts) names rest

/-- The members of a union, or none. -/
inductive MembersForm : Form μ (List String)
  | absent {ts} : MembersForm ts [] ts
  | present {m ts names rest} (members : SeparatedForm .pipe NameForm ts names rest) :
      MembersForm (⟨.punct .equal, m⟩ :: ts) names rest

/-- Items between braces, or none. -/
abbrev BracedForm (R : Form μ α) : Form μ (List α) := EnclosedForm .braceOpen .braceClose R

/-- What stands after the name of a type of each kind. -/
inductive BodyForm : TypeKind → Form μ (TypeBody μ)
  | scalar {ts directives rest} (directed : Star DirectiveForm ts directives rest) :
      BodyForm .scalar ts .scalar rest
  | object {ts ts₁ ts₂ interfaces directives fields rest}
      (implementing : ImplementsForm ts interfaces ts₁)
      (directed : Star DirectiveForm ts₁ directives ts₂)
      (braced : BracedForm FieldForm ts₂ fields rest) :
      BodyForm .object ts (.object interfaces fields) rest
  | interface {ts ts₁ ts₂ interfaces directives fields rest}
      (implementing : ImplementsForm ts interfaces ts₁)
      (directed : Star DirectiveForm ts₁ directives ts₂)
      (braced : BracedForm FieldForm ts₂ fields rest) :
      BodyForm .interface ts (.interface interfaces fields) rest
  | union {ts ts₁ directives members rest}
      (directed : Star DirectiveForm ts directives ts₁)
      (joined : MembersForm ts₁ members rest) : BodyForm .union ts (.union members) rest
  | enum {ts ts₁ directives values rest}
      (directed : Star DirectiveForm ts directives ts₁)
      (braced : BracedForm EnumValueForm ts₁ values rest) : BodyForm .enum ts (.enum values) rest
  | input {ts ts₁ directives fields rest}
      (directed : Star DirectiveForm ts directives ts₁)
      (braced : BracedForm InputForm ts₁ fields rest) : BodyForm .input ts (.input fields) rest

/-- A type, after its description: the keyword of its kind, its name and its body. -/
inductive TypeDefForm (description : Option String) : Form μ (TypeDef μ)
  | intro {kind mark name m ts body rest} (bodied : BodyForm kind ts body rest) :
      TypeDefForm description (⟨.name kind.keyword, mark⟩ :: ⟨.name name, m⟩ :: ts)
        ⟨description, name, body, mark⟩ rest

/-- An operation, a colon and the name of its root. -/
inductive RootEntryForm : Form μ (Operation × String)
  | intro {o : Operation} {type m m' m'' ts} :
      RootEntryForm (⟨.name o.word, m⟩ :: ⟨.punct .colon, m'⟩ :: ⟨.name type, m''⟩ :: ts)
        (o, type) ts

/-- The roots that some entries name: for each operation the last that is named for it. -/
def RootNames.ofEntries (entries : List (Operation × String)) : RootNames :=
  let last := entries.reverse
  ⟨last.lookup .query, last.lookup .mutation, last.lookup .subscription⟩

/-- A schema definition or extension, from its keyword on. -/
inductive SchemaForm : Form μ RootNames
  | intro {m ts ts₁ directives entries rest}
      (directed : Star DirectiveForm ts directives ts₁)
      (braced : BracedForm RootEntryForm ts₁ entries rest) :
      SchemaForm (⟨.name "schema", m⟩ :: ts) (.ofEntries entries) rest

/-- One of the places that a directive may be defined for. -/
inductive PlaceForm : Form μ String
  | intro {text m ts} (place : text ∈ directiveLocations) :
      PlaceForm (⟨.name text, m⟩ :: ts) text ts

/-- The word that lets a directive be applied more than once, or nothing. -/
inductive RepeatableForm : Form μ Unit
  | absent {ts} : RepeatableForm ts () ts
  | present {m ts} : RepeatableForm (⟨.name "repeatable", m⟩ :: ts) () ts

/-- The definition of a directive, from its keyword on. -/
inductive DirectiveDefForm : Form μ String
  | intro {m m' m'' ts ts₁ ts₂ name arguments places rest}
      (argued : ArgumentsForm ts arguments ts₁)
      (repeating : RepeatableForm ts₁ () (⟨.name "on", m''⟩ :: ts₂))
      (placed : SeparatedForm .pipe PlaceForm ts₂ places rest) :
      DirectiveDefForm (⟨.name "directive", m⟩ :: ⟨.directive name, m'⟩ :: ts) name rest

/-- One definition. Only extensions cannot have a description. -/
inductive DefinitionForm : Form μ (Definition μ)
  | schema {ts ts₁ description roots rest}
      (described : DescriptionForm ts description ts₁) (defined : SchemaForm ts₁ roots rest) :
      DefinitionForm ts (.schema roots) rest
  | directive {ts ts₁ description name rest}
      (described : DescriptionForm ts description ts₁)
      (defined : DirectiveDefForm ts₁ name rest) : DefinitionForm ts (.directive name) rest
  | extendSchema {m ts roots rest} (defined : SchemaForm ts roots rest) :
      DefinitionForm (⟨.name "extend", m⟩ :: ts) (.extendSchema roots) rest
  | extendType {m ts e rest} (defined : TypeDefForm none ts e rest) :
      DefinitionForm (⟨.name "extend", m⟩ :: ts) (.extendType e) rest
  | type {ts ts₁ description d rest}
      (described : DescriptionForm ts description ts₁)
      (defined : TypeDefForm description ts₁ d rest) : DefinitionForm ts (.type d) rest

/-- A document is any number of definitions, and there is nothing after them. -/
def Derives (ts : List (Lexeme μ)) (ds : List (Definition μ)) : Prop :=
  Star DefinitionForm ts ds []

end SchemaGraph.Sdl
