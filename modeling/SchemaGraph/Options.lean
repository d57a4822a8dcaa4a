import SchemaGraph.Catalog.Json
import SchemaGraph.Diagram
import SchemaGraph.Json.Reader

/-!
# Options

Options say how a graph is made and from where it is drawn. They are read from a
JSON object, in which every option may be left out and names that are no option
are passed over, or from an array that gives the first options in order.
-/

namespace SchemaGraph

/-- What can be chosen about a graph and its diagram. -/
structure Options where
  sortByAlphabet : Bool
  skipRelayPattern : Bool
  skipDeprecatedFields : Bool
  rootTypeNameOverride : Option String
  hideRootFromGraph : Bool
  relay : RelayOptions
deriving DecidableEq, Inhabited

/-- What is chosen where nothing is said. -/
def Options.standard : Options := ⟨false, true, true, none, false, .standard⟩

/-- The diagram of a graph, from the root that the options name. -/
def Options.diagram (o : Options) (g : Graph) : Except Report Diagram :=
  g.diagram o.rootTypeNameOverride o.hideRootFromGraph

/-- Relay options. -/
def RelayOptions.content (o : RelayOptions) : JsonValue :=
  .record [("plumbingRootFields", some (.texts o.plumbingRootFields)),
    ("removeSelfReferencingRootFields", some (.bool o.removeSelfReferencingRootFields))]

/-- Options, all of them. -/
def Options.content (o : Options) : JsonValue :=
  .record [("sortByAlphabet", some (.bool o.sortByAlphabet)),
    ("skipRelayPattern", some (.bool o.skipRelayPattern)),
    ("skipDeprecatedFields", some (.bool o.skipDeprecatedFields)),
    ("rootTypeNameOverride", some (.ofOption .text o.rootTypeNameOverride)),
    ("hideRootFromGraph", some (.bool o.hideRootFromGraph)), ("relay", some o.relay.content)]

/-- Relay options as they are written. -/
def RelayOptions.json (o : RelayOptions) : Json := o.content.written

/-- Options as they are written. -/
def Options.json (o : Options) : Json := o.content.written

namespace Json

/-- A truth value. -/
def asBool? : Json → Option Bool
  | bool value => some value
  | _ => none

/-- A text. -/
def asText? : Json → Option String
  | string inner => textOf? inner
  | _ => none

/-- A text, or null for none. -/
def asTextOrNull? : Json → Option (Option String)
  | null => some none
  | j => j.asText?.map some

/-- Texts in an array. -/
def asTexts? : Json → Option (List String)
  | array items => items.mapM asText?
  | _ => none

/-- The value of one of some fields, by its position and its name. -/
abbrev Lookup := Nat → String → List Json

/--
How to look up the fields of a record: in an object by name, in an array no
longer than the record by position. The names in an object must be texts.
-/
def lookup? (size : Nat) : Json → Option Lookup
  | object members => do
    let members ← members.mapM fun (name, value) => (textOf? name).map (·, value)
    return fun _ name => (members.filter (·.1 == name)).map (·.2)
  | array items =>
    if items.length ≤ size then some fun position _ => items[position]?.toList else none
  | _ => none

/-- Reads a field that is there once, and takes the default for one that is not. -/
def fieldOr {α : Type} (default : α) (read? : Json → Option α) : List Json → Option α
  | [] => some default
  | [value] => read? value
  | _ => none

end Json

/-- The relay options that a JSON value stands for. -/
def RelayOptions.ofJson? (j : Json) : Option RelayOptions := do
  let values ← j.lookup? 2
  let fields ← Json.fieldOr standard.plumbingRootFields Json.asTexts?
    (values 0 "plumbingRootFields")
  let self ← Json.fieldOr standard.removeSelfReferencingRootFields Json.asBool?
    (values 1 "removeSelfReferencingRootFields")
  return ⟨fields, self⟩

/-- The options that a JSON value stands for. -/
def Options.ofJson? (j : Json) : Option Options := do
  let values ← j.lookup? 6
  let sort ← Json.fieldOr standard.sortByAlphabet Json.asBool? (values 0 "sortByAlphabet")
  let relayPattern ← Json.fieldOr standard.skipRelayPattern Json.asBool?
    (values 1 "skipRelayPattern")
  let deprecated ← Json.fieldOr standard.skipDeprecatedFields Json.asBool?
    (values 2 "skipDeprecatedFields")
  let root ← Json.fieldOr standard.rootTypeNameOverride Json.asTextOrNull?
    (values 3 "rootTypeNameOverride")
  let hide ← Json.fieldOr standard.hideRootFromGraph Json.asBool? (values 4 "hideRootFromGraph")
  let relay ← Json.fieldOr standard.relay RelayOptions.ofJson? (values 5 "relay")
  return ⟨sort, relayPattern, deprecated, root, hide, relay⟩

/-- The options that a text stands for. -/
def Options.ofText? (s : String) : Option Options := (Json.ofText? s).bind ofJson?

end SchemaGraph
