/-!
# Identifiers

Everything in a graph has an identifier: a tag for what it is, and the names
that lead to it, the name of the type it belongs to first. So the type that an
entity belongs to can be read off its identifier.
-/

namespace SchemaGraph

/-- The identifier of the type with this name. -/
structure TypeId where
  name : String
deriving DecidableEq, Inhabited

namespace Id

/-- A tag and the names after it, all set apart by double colons. -/
def join (tag : String) : List String → String
  | [] => tag
  | name :: rest => join (tag ++ "::" ++ name) rest

/-- The identifier of a field, or of a field of an input object. -/
def field (type field : String) : String := join "FIELD" [type, field]

/-- The identifier of an argument of a field. -/
def argument (type field argument : String) : String := join "ARGUMENT" [type, field, argument]

/-- The identifier of the relation from a type to an interface that it implements. -/
def interface (type interface : String) : String := join "INTERFACE" [type, interface]

/-- The identifier of the relation from an interface to a type that implements it. -/
def derivedType (interface type : String) : String := join "DERIVED_TYPE" [interface, type]

/-- The identifier of the relation from a union to one of its members. -/
def possibleType (union type : String) : String := join "POSSIBLE_TYPE" [union, type]

/-- The characters in front of the first double colon, or all of them. -/
def untilColons : List Char → List Char
  | [] => []
  | ':' :: ':' :: _ => []
  | c :: cs => c :: untilColons cs

/-- The characters after the first double colon, if there is one. -/
def afterColons? : List Char → Option (List Char)
  | [] => none
  | ':' :: ':' :: cs => some cs
  | _ :: cs => afterColons? cs

/-- The type that an identifier belongs to: the name after its tag, unless that is empty. -/
def owner? (id : String) : Option TypeId :=
  match afterColons? id.toList with
  | none => none
  | some rest =>
    match untilColons rest with
    | [] => none
    | c :: cs => some ⟨String.ofList (c :: cs)⟩

end Id

/-- A type's identifier as it is written. -/
def TypeId.text (id : TypeId) : String := Id.join "TYPE" [id.name]

/-- The order of identifiers, by code points. -/
def TypeId.compare (a b : TypeId) : Ordering :=
  if a.text < b.text then .lt else if a.text = b.text then .eq else .gt

end SchemaGraph
