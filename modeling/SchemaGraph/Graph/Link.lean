import SchemaGraph.Graph.Basic

/-!
# Linking

A catalog becomes a graph if every name in it that refers to a type is the name
of one of its entries. Otherwise the first reference that leads nowhere is
reported: types are gone through in order, in each type the fields with their
arguments, the input fields and the relations, and the roots come last.
-/

namespace SchemaGraph

/-- A name that refers to a type, the identifier of what it stands in, and where that is. -/
structure Reference where
  name : String
  referrer : String
  location : Option Location
deriving DecidableEq, Inhabited

/-- The report on a reference that leads nowhere. -/
def Reference.report (r : Reference) : Report :=
  .plain .reference
    ("Unknown type " ++ Text.tick r.name ++ " referenced by " ++ Text.tick r.referrer ++ ".")
    r.location

namespace Catalog

/-- The reference of an argument or an input field to its type. -/
def Input.reference (id : String) (i : Input) : Reference := ⟨i.type, id, i.location⟩

/-- The references of a field: to its own type, then those of its arguments. -/
def Field.references (type : String) (f : Field) : List Reference :=
  ⟨f.type, Id.field type f.name, f.location⟩
    :: f.arguments.map fun a => a.reference (Id.argument type f.name a.name)

/-- The references of a type. -/
def Entry.references (e : Entry) : List Reference :=
  e.fields.flatMap (Field.references e.name)
    ++ e.inputFields.map (fun i => i.reference (Id.field e.name i.name))
    ++ e.interfaces.map (fun t => ⟨t, Id.interface e.name t, e.location⟩)
    ++ e.derivedTypes.map (fun t => ⟨t, Id.derivedType e.name t, e.location⟩)
    ++ e.possibleTypes.map (fun t => ⟨t, Id.possibleType e.name t, e.location⟩)

/-- The names of the roots. -/
def rootNames (c : Catalog) : List String :=
  c.query :: (c.mutation.toList ++ c.subscription.toList)

/-- All references of a catalog. -/
def references (c : Catalog) : List Reference :=
  c.entries.flatMap Entry.references ++ c.rootNames.map fun name => ⟨name, "schema", none⟩

/-- Whether a type has this name. -/
def declares (c : Catalog) (name : String) : Bool := c.entries.any (·.name == name)

/-- The argument or input field, referring to its type by identifier. -/
def Input.linked (i : Input) : Graph.Input :=
  ⟨i.name, i.description, ⟨i.type⟩, i.wrappers, i.default, i.deprecation, i.location⟩

/-- The field, referring to types by identifier. -/
def Field.linked (f : Field) : Graph.Field :=
  ⟨f.name, f.description, ⟨f.type⟩, f.wrappers, f.deprecation, f.arguments.map Input.linked,
    none, [], f.location⟩

/-- The type, referring to others by identifier. -/
def Entry.linked (e : Entry) : Graph.Node :=
  ⟨e.name, e.kind, e.description, e.location, false, e.fields.map Field.linked,
    e.interfaces.map TypeId.mk, e.derivedTypes.map TypeId.mk, e.possibleTypes.map TypeId.mk,
    e.enumValues, e.inputFields.map Input.linked⟩

/-- The graph of a catalog, or the first reference in it that leads nowhere. -/
def link (c : Catalog) : Except Reference Graph :=
  match c.references.find? fun r => !c.declares r.name with
  | some r => .error r
  | none =>
    .ok ⟨c.entries.map Entry.linked, ⟨c.query⟩, c.mutation.map TypeId.mk,
      c.subscription.map TypeId.mk⟩

end Catalog

end SchemaGraph
