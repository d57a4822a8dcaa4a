/-!
# Operations and their roots

A schema answers three operations, each from a type that it names: its root. A
schema definition and every extension of it name some of the roots.
-/

namespace SchemaGraph.Sdl

/-- The operations that a schema names types for. -/
inductive Operation where
  | query
  | mutation
  | subscription
deriving DecidableEq, Inhabited

namespace Operation

/-- The word for an operation. -/
def word : Operation → String
  | query => "query"
  | mutation => "mutation"
  | subscription => "subscription"

/-- The word at the start of a sentence, which is also what the root is usually called. -/
def title : Operation → String
  | query => "Query"
  | mutation => "Mutation"
  | subscription => "Subscription"

/-- The operation that a word names. -/
def ofWord? : String → Option Operation
  | "query" => some query
  | "mutation" => some mutation
  | "subscription" => some subscription
  | _ => none

/-- All operations, in the order in which they are looked at. -/
def all : List Operation := [query, mutation, subscription]

theorem ofWord?_word (o : Operation) : ofWord? o.word = some o := by
  cases o <;> rfl

end Operation

/-- The types that are named for operations. -/
structure RootNames where
  query : Option String
  mutation : Option String
  subscription : Option String
deriving DecidableEq, Inhabited

namespace RootNames

/-- No operation is named. -/
def empty : RootNames := ⟨none, none, none⟩

/-- The type named for an operation. -/
def get (roots : RootNames) : Operation → Option String
  | .query => roots.query
  | .mutation => roots.mutation
  | .subscription => roots.subscription

/-- The roots, with the type of one operation set. -/
def set (roots : RootNames) (type : String) : Operation → RootNames
  | .query => { roots with query := some type }
  | .mutation => { roots with mutation := some type }
  | .subscription => { roots with subscription := some type }

theorem get_set (roots : RootNames) (type : String) (o p : Operation) :
    (roots.set type o).get p = if p = o then some type else roots.get p := by
  cases o <;> cases p <;> rfl

end RootNames

end SchemaGraph.Sdl
