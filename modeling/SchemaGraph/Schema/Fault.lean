import SchemaGraph.Report
import SchemaGraph.Sdl.Definition
import SchemaGraph.Text.Quoted

/-!
# Faults of a schema

Definitions that are well written may still not fit together. Each way not to
fit is a fault; a report adds where the definition at fault stands.
-/

namespace SchemaGraph

open Sdl
open Text (tick)

/-- Why definitions do not make up a schema. -/
inductive SchemaFault where
  | duplicateType (type : String)
  | duplicateMember (type member : String)
  | duplicateArgument (type field argument : String)
  | extendsUndefined (type : String)
  | extendsOtherKind (type : String) (defined extended : TypeKind)
  | implementsOther (type interface : String) (kind : TypeKind)
  | secondSchema
  | secondRoot (operation : Operation)
  | noQuery
  | rootNotObject (operation : Operation) (type : String) (kind : TypeKind)
  | rootUndefined (operation : Operation) (type : String)
deriving DecidableEq, Inhabited

/-- What a report says about a fault. -/
def SchemaFault.message : SchemaFault → String
  | duplicateType type => "There can be only one type named " ++ tick type ++ "."
  | duplicateMember type member => tick (type ++ "." ++ member) ++ " is already defined."
  | duplicateArgument type field argument =>
    tick (type ++ "." ++ field ++ "(" ++ argument ++ ":)") ++ " is already defined."
  | extendsUndefined type =>
    "Cannot extend type " ++ tick type ++ " because it is not defined."
  | extendsOtherKind type defined extended =>
    "Cannot extend " ++ defined.keyword ++ " " ++ tick type ++ " with an "
      ++ tick ("extend " ++ extended.keyword) ++ " definition."
  | implementsOther type interface kind =>
    "Type " ++ tick type ++ " can only implement interfaces, but " ++ tick interface
      ++ " is declared with " ++ tick kind.keyword ++ "."
  | secondSchema => "Must provide only one schema definition."
  | secondRoot operation =>
    "Type for " ++ operation.word ++ " already defined in the schema."
  | noQuery => "Query root type must be provided."
  | rootNotObject operation type kind =>
    operation.title ++ " root type must be an object type, but " ++ tick type
      ++ " is declared with " ++ tick kind.keyword ++ "."
  | rootUndefined operation type =>
    operation.title ++ " root type " ++ tick type ++ " is not defined."

/-- A fault, and where the definition at fault stands, if there is one. -/
structure SchemaError where
  fault : SchemaFault
  location : Option Location
deriving DecidableEq, Inhabited

/-- The report on an error. -/
def SchemaError.report (e : SchemaError) : Report := .plain .schema e.fault.message e.location

end SchemaGraph
