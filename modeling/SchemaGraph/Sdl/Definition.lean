import SchemaGraph.Sdl.Operation
import SchemaGraph.Sdl.TypeExpr
import SchemaGraph.Sdl.Value

/-!
# Definitions

What a text of the schema definition language says, definition by definition.
Every type, field, argument, input field and enum value carries a mark of where
it was declared; what the mark is depends on who looks: a span of the text, or a
location in a source. Directives are kept where a deprecation may stand.
-/

namespace SchemaGraph.Sdl

variable {μ ν : Type}

/-- A directive applied to a definition, with its arguments in order. -/
structure Directive where
  name : String
  arguments : List (String × Value)
deriving BEq, Inhabited

/-- The reason that stands for a deprecation without one. -/
def defaultReason : String := "No longer supported"

/-- The text of the first argument named `reason` that is a string. -/
def Directive.reason? (d : Directive) : Option String :=
  d.arguments.findSome? fun
    | ("reason", .string text) => some text
    | _ => none

/-- Why a definition with these directives is deprecated, if it is. -/
def deprecation? (directives : List Directive) : Option String :=
  (directives.find? (·.name == "deprecated")).map fun d => d.reason?.getD defaultReason

/-- An argument of a field, or a field of an input object. -/
structure InputDef (μ : Type) where
  description : Option String
  name : String
  type : TypeExpr
  default : Option Value
  directives : List Directive
  mark : μ
deriving BEq, Inhabited

/-- A field of an object or interface type. -/
structure FieldDef (μ : Type) where
  description : Option String
  name : String
  arguments : List (InputDef μ)
  type : TypeExpr
  directives : List Directive
  mark : μ
deriving BEq, Inhabited

/-- A value of an enum type. -/
structure EnumValueDef (μ : Type) where
  description : Option String
  name : String
  directives : List Directive
  mark : μ
deriving BEq, Inhabited

/-- The kinds of types. -/
inductive TypeKind where
  | scalar
  | object
  | interface
  | union
  | enum
  | input
deriving DecidableEq, Inhabited

namespace TypeKind

/-- The keyword that introduces a type of this kind. -/
def keyword : TypeKind → String
  | scalar => "scalar"
  | object => "type"
  | interface => "interface"
  | union => "union"
  | enum => "enum"
  | input => "input"

/-- The kind that a keyword introduces. -/
def ofKeyword? : String → Option TypeKind
  | "scalar" => some scalar
  | "type" => some object
  | "interface" => some interface
  | "union" => some union
  | "enum" => some enum
  | "input" => some input
  | _ => none

end TypeKind

/-- What a type of each kind is made of. -/
inductive TypeBody (μ : Type) where
  | scalar
  | object (interfaces : List String) (fields : List (FieldDef μ))
  | interface (interfaces : List String) (fields : List (FieldDef μ))
  | union (members : List String)
  | enum (values : List (EnumValueDef μ))
  | input (fields : List (InputDef μ))
deriving BEq, Inhabited

/-- The kind of type that has such a body. -/
def TypeBody.kind : TypeBody μ → TypeKind
  | scalar => .scalar
  | object .. => .object
  | interface .. => .interface
  | union _ => .union
  | enum _ => .enum
  | input _ => .input

/-- The definition of a type, or an extension of one. -/
structure TypeDef (μ : Type) where
  description : Option String
  name : String
  body : TypeBody μ
  mark : μ
deriving BEq, Inhabited

/-- One definition of a text. Of a directive's own definition only its name is kept. -/
inductive Definition (μ : Type) where
  | schema (roots : RootNames)
  | extendSchema (roots : RootNames)
  | type (definition : TypeDef μ)
  | extendType (extension : TypeDef μ)
  | directive (name : String)
deriving BEq, Inhabited

namespace TypeBody

/-- The fields of an object or interface type. -/
def fields : TypeBody μ → List (FieldDef μ)
  | object _ fields => fields
  | interface _ fields => fields
  | _ => []

/-- The interfaces that a type says it implements. -/
def interfaces : TypeBody μ → List String
  | object interfaces _ => interfaces
  | interface interfaces _ => interfaces
  | _ => []

/-- The fields, input fields or enum values of a type: each with its name and its mark. -/
def members : TypeBody μ → List (String × μ)
  | object _ fields => fields.map fun f => (f.name, f.mark)
  | interface _ fields => fields.map fun f => (f.name, f.mark)
  | enum values => values.map fun v => (v.name, v.mark)
  | input fields => fields.map fun f => (f.name, f.mark)
  | scalar => []
  | union _ => []

end TypeBody

/-- The argument with this name. -/
def FieldDef.argument? (f : FieldDef μ) (name : String) : Option (InputDef μ) :=
  f.arguments.find? (·.name == name)

/-- The field with this name. -/
def TypeDef.field? (d : TypeDef μ) (name : String) : Option (FieldDef μ) :=
  d.body.fields.find? (·.name == name)

/-- Whether an object or interface type says it implements the interface with this name. -/
def TypeDef.implements? (d : TypeDef μ) (interface : String) : Option Bool :=
  match d.body with
  | .object interfaces _ => some (interfaces.contains interface)
  | .interface interfaces _ => some (interfaces.contains interface)
  | _ => none

/-- The type that a definition extends, with what it adds. -/
def Definition.extension? : Definition μ → Option (TypeDef μ)
  | extendType e => some e
  | _ => none

/-- The roots that an extension of the schema adds. -/
def Definition.addedRoots? : Definition μ → Option RootNames
  | extendSchema roots => some roots
  | _ => none

/-- The same input value under other marks. -/
def InputDef.map (f : μ → ν) (d : InputDef μ) : InputDef ν :=
  ⟨d.description, d.name, d.type, d.default, d.directives, f d.mark⟩

/-- The same field under other marks. -/
def FieldDef.map (f : μ → ν) (d : FieldDef μ) : FieldDef ν :=
  ⟨d.description, d.name, d.arguments.map (·.map f), d.type, d.directives, f d.mark⟩

/-- The same enum value under another mark. -/
def EnumValueDef.map (f : μ → ν) (d : EnumValueDef μ) : EnumValueDef ν :=
  ⟨d.description, d.name, d.directives, f d.mark⟩

/-- The same members under other marks. -/
def TypeBody.map (f : μ → ν) : TypeBody μ → TypeBody ν
  | scalar => scalar
  | object interfaces fields => object interfaces (fields.map (·.map f))
  | interface interfaces fields => interface interfaces (fields.map (·.map f))
  | union members => union members
  | enum values => enum (values.map (·.map f))
  | input fields => input (fields.map (·.map f))

/-- The same type under other marks. -/
def TypeDef.map (f : μ → ν) (d : TypeDef μ) : TypeDef ν :=
  ⟨d.description, d.name, d.body.map f, f d.mark⟩

/-- The same definition under other marks. -/
def Definition.map (f : μ → ν) : Definition μ → Definition ν
  | schema roots => schema roots
  | extendSchema roots => extendSchema roots
  | type definition => type (definition.map f)
  | extendType extension => extendType (extension.map f)
  | directive name => directive name

end SchemaGraph.Sdl
