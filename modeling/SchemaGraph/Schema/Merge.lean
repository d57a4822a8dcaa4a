import SchemaGraph.Distinct
import SchemaGraph.Schema.Basic
import SchemaGraph.Schema.Fault

/-!
# Merging definitions

The types of a document are collected first, each under a name of its own.
Extensions then add to them in the order in which they are written, wherever
they stand. No name may be declared twice among the members of one type.
-/

namespace SchemaGraph

open Sdl

/-- The first argument whose name another argument of its field has. -/
def duplicateArgument {μ : Type} (fields : List (FieldDef μ)) : Option (String × String × μ) :=
  fields.findSome? fun f =>
    (firstDuplicate [] (f.arguments.map fun a => (a.name, a.mark))).map fun d => (f.name, d)

/-- Refuses a definition that declares a member, or an argument of a field, twice. -/
def checkMembers (d : TypeDef Location) : Except SchemaError Unit :=
  match firstDuplicate [] d.body.members with
  | some (member, mark) => .error ⟨.duplicateMember d.name member, some mark⟩
  | none =>
    match duplicateArgument d.body.fields with
    | some (field, argument, mark) =>
      .error ⟨.duplicateArgument d.name field argument, some mark⟩
    | none => .ok ()

/-- Adds a type that is not there yet. -/
def addType (types : List SchemaType) (d : TypeDef Location) :
    Except SchemaError (List SchemaType) :=
  if (lookupType types d.name).isSome then
    .error ⟨.duplicateType d.name, some d.mark⟩
  else
    match checkMembers d with
    | .error e => .error e
    | .ok () => .ok (types ++ [d.map some])

/-- What has been collected of a document: its types, and its schema definition. -/
structure Collected where
  types : List SchemaType
  roots : Option RootNames

/-- Collects one definition. Extensions and directive definitions add nothing. -/
def Collected.add (c : Collected) : Definition Location → Except SchemaError Collected
  | .type d => (addType c.types d).map fun types => { c with types }
  | .schema roots =>
    if c.roots.isSome then .error ⟨.secondSchema, none⟩
    else .ok { c with roots := some roots }
  | _ => .ok c

/-- Collects the types and the schema definition of a document. -/
def collect (definitions : List (Definition Location)) : Except SchemaError Collected :=
  definitions.foldlM Collected.add ⟨[], none⟩

/-- A body with the members of another one of its kind added at the end. -/
def Sdl.TypeBody.merge {μ : Type} : TypeBody μ → TypeBody μ → TypeBody μ
  | object interfaces fields, object moreInterfaces moreFields =>
    object (addNew interfaces moreInterfaces) (fields ++ moreFields)
  | interface interfaces fields, interface moreInterfaces moreFields =>
    interface (addNew interfaces moreInterfaces) (fields ++ moreFields)
  | union members, union moreMembers => union (addNew members moreMembers)
  | enum values, enum moreValues => enum (values ++ moreValues)
  | input fields, input moreFields => input (fields ++ moreFields)
  | body, _ => body

/-- A type with the members of an extension added; the rest of it stays. -/
def Sdl.TypeDef.extend {μ : Type} (d extension : TypeDef μ) : TypeDef μ :=
  { d with body := d.body.merge extension.body }

/-- Adds an extension to the type that it names. -/
def extendType (types : List SchemaType) (e : TypeDef Location) :
    Except SchemaError (List SchemaType) :=
  match lookupType types e.name with
  | none => .error ⟨.extendsUndefined e.name, some e.mark⟩
  | some target =>
    if target.body.kind ≠ e.body.kind then
      .error ⟨.extendsOtherKind e.name target.body.kind e.body.kind, some e.mark⟩
    else
      match checkMembers e with
      | .error error => .error error
      | .ok () =>
        let known := target.body.members.map Prod.fst
        match e.body.members.find? (known.contains ·.1) with
        | some (member, _) => .error ⟨.duplicateMember e.name member, some e.mark⟩
        | none =>
          .ok (types.map fun t => if t.name = e.name then t.extend (e.map some) else t)

/-- The types of a document with all extensions added. -/
def extendAll (types : List SchemaType) (definitions : List (Definition Location)) :
    Except SchemaError (List SchemaType) :=
  (definitions.filterMap Definition.extension?).foldlM extendType types

/-- A scalar that is built in. -/
def builtinScalar (name : String) : SchemaType := ⟨none, name, .scalar, none⟩

/-- The types, followed by the built-in scalars that are not among them. -/
def addBuiltins (types : List SchemaType) : List SchemaType :=
  types ++ (builtinScalars.filter fun name => (lookupType types name).isNone).map builtinScalar

/-- The first name that `t` implements though it belongs to a type that is no interface. -/
def implementsOther? (types : List SchemaType) (t : SchemaType) : Option SchemaError :=
  t.body.interfaces.findSome? fun name =>
    match lookupType types name with
    | none => none
    | some other =>
      if other.body.kind = .interface then none
      else some ⟨.implementsOther t.name name other.body.kind, t.mark⟩

/-- Refuses types that implement what is no interface. Names of no type are let pass. -/
def checkInterfaces (types : List SchemaType) : Except SchemaError Unit :=
  match types.findSome? (implementsOther? types) with
  | some e => .error e
  | none => .ok ()

end SchemaGraph
