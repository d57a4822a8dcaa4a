import SchemaGraph.Proofs.Inlining
import SchemaGraph.Proofs.Outcomes

/-!
# Locations do not matter

A graph shows the locations that its schema has kept. They take no part in making it:
the graph of relocated definitions is the graph of the definitions, relocated, and
where there is none, the report is the same but for its location.

This is told stage by stage, each by how it goes together with the change. Nothing is
refused once the references are found to lead to types, so from there on it is enough
to follow the graph.
-/

namespace SchemaGraph

open Sdl

section

variable (f : Location → Location)

/-- An argument or an input field with its location changed. -/
def InputRecord.relocate {ρ : Type} (i : InputRecord ρ) : InputRecord ρ :=
  { i with location := i.location.map f }

namespace Catalog

/-- A field with all locations in it changed. -/
def Field.relocate (d : Field) : Field :=
  { d with arguments := d.arguments.map (·.relocate f), location := d.location.map f }

/-- A type with all locations in it changed. -/
def Entry.relocate (e : Entry) : Entry :=
  { e with
    location := e.location.map f
    fields := e.fields.map (·.relocate f)
    inputFields := e.inputFields.map (·.relocate f) }

end Catalog

/-- A catalog with all locations in it changed. -/
def Catalog.relocate (c : Catalog) : Catalog := { c with entries := c.entries.map (·.relocate f) }

namespace Graph

/-- A field with all locations in it changed. -/
def Field.relocate (d : Field) : Field :=
  { d with
    arguments := d.arguments.map (·.relocate f)
    relayArguments := d.relayArguments.map (·.relocate f)
    location := d.location.map f }

/-- A type with all locations in it changed. -/
def Node.relocate (n : Node) : Node :=
  { n with
    location := n.location.map f
    fields := n.fields.map (·.relocate f)
    inputFields := n.inputFields.map (·.relocate f) }

end Graph

/-- A graph with all locations in it changed. -/
def Graph.relocate (g : Graph) : Graph := g.mapNodes (·.relocate f)

/-- A reference with its location changed. -/
def Reference.relocate (r : Reference) : Reference := { r with location := r.location.map f }

/-- A report with its location changed. -/
def Report.relocate (r : Report) : Report := { r with location := r.location.map f }

end

variable {f : Location → Location}

section

variable {μ ν : Type} (c : Change μ ν)

namespace Sdl

theorem FieldDef.sorted_alter (d : FieldDef μ) : (d.alter c).sorted = d.sorted.alter c := by
  have harguments := sortOn_map (·.name) (·.name) (f := InputDef.alter c) (fun _ => rfl) d.arguments
  simp only [FieldDef.sorted, FieldDef.alter, harguments]

theorem sortFields_alter (fields : List (FieldDef μ)) :
    sortFields (fields.map (·.alter c)) = (sortFields fields).map (·.alter c) :=
  (map_sortOn_map FieldDef.name FieldDef.name (f := FieldDef.sorted) (g := FieldDef.alter c)
    (fun _ => rfl) (fun d => (d.sorted_alter c).symm) fields).symm

theorem TypeBody.sorted_alter (b : TypeBody μ) : (b.alter c).sorted = b.sorted.alter c := by
  cases b with
  | scalar | union => rfl
  | object interfaces fields | interface interfaces fields =>
      simp only [TypeBody.alter, TypeBody.sorted, sortFields_alter]
  | enum values =>
      exact congrArg enum (sortOn_map (·.name) (·.name) (f := EnumValueDef.alter c)
        (fun _ => rfl) _)
  | input fields =>
      exact congrArg input (sortOn_map (·.name) (·.name) (f := InputDef.alter c) (fun _ => rfl) _)

end Sdl

end

section

variable {c : Change Location Location}

theorem Schema.sorted_alter (s : Schema) : (s.alter c).sorted = s.sorted.alter c := by
  have htype : ∀ t : SchemaType, t.sorted.alter c.optional = (t.alter c.optional).sorted :=
    fun t => congrArg (TypeDef.mk t.description t.name · (t.mark.map c.mark))
      (TypeBody.sorted_alter _ t.body).symm
  have htypes := map_sortOn_map TypeDef.name TypeDef.name (f := TypeDef.sorted)
    (g := TypeDef.alter c.optional) (fun _ => rfl) htype s.types
  exact congrArg (Schema.mk · s.query s.mutation s.subscription) htypes.symm

/-! ## Catalogs and links

A schema is changed in its locations and in its directives. A catalog has no directives in
it, only the deprecations that are told from them. If these are left as they are, what is
changed in a catalog are locations and nothing else, so from here on a change is followed
as a map of locations. The location in a report is that of the reference which leads
nowhere, and which one that is depends on names alone. -/

theorem Schema.implementors_alter (s : Schema) (interface : String) :
    (s.alter c).implementors interface = s.implementors interface := by
  have hcontains : ∀ t : SchemaType, (t.alter c.optional).body.interfaces.contains interface
      = t.body.interfaces.contains interface := by
    intro t
    rw [TypeDef.body_alter, TypeBody.interfaces_alter]
  rw [implementors, implementors, alter, List.filter_map, List.map_map]
  congr 1
  exact List.filter_congr fun t _ => hcontains t

end

namespace Catalog

section

variable {c : Change Location Location}
  (hc : ∀ ds, deprecation? (c.directives ds) = deprecation? ds)

include hc

theorem Input.ofDef_alter (d : InputDef (Option Location)) :
    Input.ofDef (d.alter c.optional) = (Input.ofDef d).relocate c.mark :=
  congrArg (InputRecord.mk d.name d.description d.type.bareName d.type.wrappers
    (d.default.map Value.print) · (d.mark.map c.mark)) (hc d.directives)

theorem Field.ofDef_alter (d : FieldDef (Option Location)) :
    Field.ofDef (d.alter c.optional) = (Field.ofDef d).relocate c.mark := by
  have hdeprecation : deprecation? (c.optional.directives d.directives)
      = deprecation? d.directives := hc d.directives
  simp only [Field.ofDef, FieldDef.alter, Field.relocate, hdeprecation, List.map_map]
  refine congrArg (Field.mk d.name d.description d.type.bareName d.type.wrappers _ ·
    (d.mark.map c.mark)) ?_
  exact List.map_congr_left fun a _ => Input.ofDef_alter hc a

theorem EnumRecord.ofDef_alter (d : EnumValueDef (Option Location)) :
    EnumRecord.ofDef (d.alter c.optional) = EnumRecord.ofDef d :=
  congrArg (EnumRecord.mk d.name d.description) (hc d.directives)

theorem Entry.ofType_alter (s : Schema) (t : SchemaType) :
    Entry.ofType (s.alter c) (t.alter c.optional) = (Entry.ofType s t).relocate c.mark := by
  by_cases hbuiltin : t.name ∈ builtinScalars
  · rw [ofType_builtin hbuiltin, ofType_builtin (t := t.alter c.optional) hbuiltin]
    rfl
  · rw [ofType_eq hbuiltin, ofType_eq (t := t.alter c.optional) hbuiltin]
    simp [Entry.relocate, TypeBody.fields_alter, TypeBody.inputFields_alter,
      TypeBody.unionMembers_alter, TypeBody.values_alter, Schema.implementors_alter,
      Function.comp_def, Field.ofDef_alter hc, Input.ofDef_alter hc, EnumRecord.ofDef_alter hc]
    exact ⟨rfl, rfl⟩

theorem ofSchema_alter (s : Schema) : ofSchema (s.alter c) = (ofSchema s).relocate c.mark := by
  have hentries : ((alteredTypes c s.types).filter (!isIntrospective ·.name)).map
        (Entry.ofType (s.alter c))
      = ((s.types.filter (!isIntrospective ·.name)).map (Entry.ofType s)).map
        (·.relocate c.mark) := by
    rw [List.filter_map, List.map_map, List.map_map]
    exact List.map_congr_left fun t _ => Entry.ofType_alter hc s t
  exact congrArg (Catalog.mk · s.query s.mutation s.subscription) hentries

/-- The order in which types are presented depends on neither. -/
theorem ofSchema_presented (sort : Bool) (s : Schema) :
    ofSchema (if sort then (s.alter c).sorted else s.alter c)
      = (ofSchema (if sort then s.sorted else s)).relocate c.mark := by
  cases sort with
  | false => exact ofSchema_alter hc s
  | true =>
      rw [if_pos rfl, if_pos rfl, Schema.sorted_alter]
      exact ofSchema_alter hc s.sorted

end

theorem Field.references_relocate (type : String) (d : Field) :
    (d.relocate f).references type = (d.references type).map (·.relocate f) := by
  simp [Field.references, Field.relocate, Input.reference, InputRecord.relocate,
    Reference.relocate, Function.comp_def]

theorem Entry.references_relocate (e : Entry) :
    (e.relocate f).references = e.references.map (·.relocate f) := by
  have hfields : (e.fields.map (·.relocate f)).flatMap (Field.references e.name)
      = (e.fields.flatMap (Field.references e.name)).map (·.relocate f) := by
    simp only [List.flatMap_map, List.map_flatMap, Field.references_relocate]
  simp only [Entry.references, Entry.relocate, List.map_append, hfields]
  simp [Input.reference, InputRecord.relocate, Reference.relocate, Function.comp_def]

theorem references_relocate (c : Catalog) :
    (c.relocate f).references = c.references.map (·.relocate f) := by
  have hroots : ((c.relocate f).rootNames.map fun name => (⟨name, "schema", none⟩ : Reference))
      = (c.rootNames.map fun name => (⟨name, "schema", none⟩ : Reference)).map (·.relocate f) := by
    rw [List.map_map]
    rfl
  rw [references, hroots, references, List.map_append]
  simp only [relocate, List.flatMap_map, List.map_flatMap, Entry.references_relocate]

theorem declares_relocate (c : Catalog) (name : String) :
    (c.relocate f).declares name = c.declares name := by
  simp [declares, relocate, Function.comp_def, Entry.relocate]

theorem linked_relocate (c : Catalog) : (c.relocate f).linked = c.linked.relocate f := by
  have hfield : ∀ d : Field, (d.relocate f).linked = d.linked.relocate f := by
    intro d
    simp [Field.linked, Field.relocate, Graph.Field.relocate, Input.linked, InputRecord.relocate,
      Function.comp_def]
  have hentry : ∀ e : Entry, (e.relocate f).linked = e.linked.relocate f := by
    intro e
    simp [Entry.linked, Entry.relocate, Graph.Node.relocate, hfield, Input.linked,
      InputRecord.relocate, Function.comp_def]
  simp [linked, relocate, Graph.relocate, Graph.mapNodes, hentry, Function.comp_def]

theorem link_relocate (c : Catalog) :
    (c.relocate f).link = bimap (·.relocate f) (·.relocate f) c.link := by
  have hfind : (c.relocate f).references.find? (fun r => !(c.relocate f).declares r.name)
      = (c.references.find? fun r => !c.declares r.name).map (·.relocate f) := by
    rw [references_relocate, List.find?_map]
    simp only [declares_relocate, Function.comp_def, Reference.relocate]
  rw [link, hfind, link]
  cases c.references.find? fun r => !c.declares r.name with
  | some _ => rfl
  | none => exact congrArg Except.ok c.linked_relocate

end Catalog

namespace Graph

/--
What comes of changed definitions is what comes of the definitions, relocated. Only the
deprecations must be left as they are.
-/
theorem ofDefinitions_alter {c : Change Location Location}
    (hc : ∀ ds, deprecation? (c.directives ds) = deprecation? ds) (sort : Bool)
    (ds : List (Definition Location)) :
    ofDefinitions sort (altered c ds)
      = bimap (·.relocate c.mark) (·.relocate c.mark) (ofDefinitions sort ds) := by
  rw [ofDefinitions, Schema.ofDefinitions_alter, ofDefinitions]
  cases Schema.ofDefinitions ds with
  | error _ => rfl
  | ok s =>
      simp only [bimap, Except.map]
      rw [Catalog.ofSchema_presented hc, Catalog.link_relocate]
      cases (Catalog.ofSchema (if sort then s.sorted else s)).link <;> rfl

/-- What comes of relocated definitions is what comes of the definitions, relocated. -/
theorem ofDefinitions_relocate (sort : Bool) (ds : List (Definition Location)) :
    ofDefinitions sort (relocated f ds)
      = bimap (·.relocate f) (·.relocate f) (ofDefinitions sort ds) := by
  have haltered : relocated f ds = altered ⟨f, id⟩ ds :=
    List.map_congr_left fun d _ => (d.alter_mark f).symm
  rw [haltered]
  exact ofDefinitions_alter (fun _ => rfl) sort ds

theorem ofDefinitions_relocated {sort : Bool} {ds : List (Definition Location)} {g : Graph} :
    ofDefinitions sort (relocated f ds) = .ok g ↔
      ∃ g₀, ofDefinitions sort ds = .ok g₀ ∧ g = g₀.relocate f := by
  rw [ofDefinitions_relocate]
  cases ofDefinitions sort ds with
  | error _ => simp [bimap]
  | ok g₀ => simp [bimap, eq_comm]

theorem node?_relocate (g : Graph) (id : TypeId) :
    (g.relocate f).node? id = (g.node? id).map (·.relocate f) := by
  rw [node?, relocate, mapNodes, List.find?_map]
  rfl

theorem Node.field?_relocate (n : Node) (name : String) :
    (n.relocate f).field? name = (n.field? name).map (·.relocate f) := by
  rw [field?, relocate, List.find?_map]
  rfl

theorem connectionOf?_relocate (g : Graph) (type : TypeId) :
    (g.relocate f).connectionOf? type = g.connectionOf? type := by
  simp only [connectionOf?, node?_relocate]
  cases g.node? type with
  | none => rfl
  | some connection =>
      simp only [Option.map_some, Option.bind_eq_bind, Option.bind_some, Node.field?_relocate]
      congr 1
      funext _
      cases connection.field? "edges" with
      | none => rfl
      | some edges =>
          simp only [Option.map_some, Option.bind_some, Field.relocate]
          cases g.node? edges.type with
          | none => rfl
          | some edge =>
              simp only [Option.map_some, Option.bind_some, Node.field?_relocate]
              congr 1
              funext _
              cases edge.field? "node" <;> rfl

theorem connections_relocate (g : Graph) : (g.relocate f).connections = g.connections := by
  simp only [connections, connectionOf?_relocate]
  simp only [relocate, mapNodes, Node.relocate, List.flatMap_map, List.filterMap_map]
  rfl

theorem mapNodes_relocate {g : Graph} {u v : Node → Node}
    (h : ∀ n : Node, v (n.relocate f) = (u n).relocate f) :
    (g.relocate f).mapNodes v = (g.mapNodes u).relocate f := by
  simp only [relocate, mapNodes, List.map_map]
  congr 1
  exact List.map_congr_left fun n _ => h n

theorem mapFields_relocate {g : Graph} {u v : Field → Field}
    (h : ∀ d : Field, v (d.relocate f) = (u d).relocate f) :
    (g.relocate f).mapFields v = (g.mapFields u).relocate f := by
  refine mapNodes_relocate fun n => ?_
  simp only [Node.relocate, List.map_map]
  congr 1
  exact List.map_congr_left fun d _ => h d

theorem flagRelay_relocate (g : Graph) (ids : List TypeId) :
    (g.relocate f).flagRelay ids = (g.flagRelay ids).relocate f := by
  refine mapNodes_relocate fun n => ?_
  by_cases hid : ids.contains n.id = true
  · rw [if_pos hid, if_pos (show ids.contains (n.relocate f).id = true from hid)]
    rfl
  · rw [if_neg hid, if_neg (show ¬ ids.contains (n.relocate f).id = true from hid)]

theorem dropNodeInterface_relocate (g : Graph) :
    (g.relocate f).dropNodeInterface = g.dropNodeInterface.relocate f :=
  mapNodes_relocate fun _ => rfl

theorem collapseConnections_relocate (g : Graph) :
    (g.relocate f).collapseConnections = g.collapseConnections.relocate f := by
  refine mapFields_relocate fun d => ?_
  rw [connectionOf?_relocate, show (d.relocate f).type = d.type from rfl]
  cases g.connectionOf? d.type with
  | none => rfl
  | some c =>
      simp only [Field.collapse, Field.relocate, List.filter_map]
      rfl

theorem unwrapEdges_relocate (g : Graph) (cs : List Connection) :
    (g.relocate f).unwrapEdges cs = (g.unwrapEdges cs).relocate f := by
  refine mapFields_relocate fun d => ?_
  rw [show (d.relocate f).type = d.type from rfl]
  cases edgeNode? cs d.type <;> rfl

theorem Node.filterFields_relocate (n : Node) {p q : Field → Bool}
    (h : ∀ d : Field, q (d.relocate f) = p d) :
    ({ n.relocate f with fields := (n.relocate f).fields.filter q } : Node)
      = ({ n with fields := n.fields.filter p } : Node).relocate f := by
  simp only [Node.relocate, List.filter_map]
  congr 2
  exact List.filter_congr fun d _ => h d

theorem isPlumbing_relocate (g : Graph) (options : RelayOptions) (d : Field) :
    (g.relocate f).isPlumbing options (d.relocate f) = g.isPlumbing options d := by
  have hflag : ((g.node? d.type).map (·.relocate f)).any (·.isRelay)
      = (g.node? d.type).any (·.isRelay) := by
    cases g.node? d.type <;> rfl
  rw [isPlumbing, node?_relocate, show (d.relocate f).type = d.type from rfl, hflag]
  rfl

theorem removePlumbing_relocate (g : Graph) (options : RelayOptions) :
    (g.relocate f).removePlumbing options = (g.removePlumbing options).relocate f := by
  refine mapNodes_relocate fun n => ?_
  by_cases hquery : n.id = g.query
  · rw [if_pos hquery, if_pos (show (n.relocate f).id = (g.relocate f).query from hquery)]
    exact n.filterFields_relocate fun d => by rw [isPlumbing_relocate]
  · rw [if_neg hquery, if_neg (show ¬ (n.relocate f).id = (g.relocate f).query from hquery)]

theorem Rewrite.apply_relocate (g : Graph) (step : Rewrite) :
    step.apply (g.relocate f) = (step.apply g).relocate f := by
  cases step with
  | normalizeRelay options =>
      simp only [apply, Graph.normalizeRelay, flagRelay_relocate, dropNodeInterface_relocate,
        connections_relocate, collapseConnections_relocate, unwrapEdges_relocate,
        removePlumbing_relocate]
  | dropDeprecated => exact mapNodes_relocate fun n => n.filterFields_relocate fun _ => rfl

theorem rewrite_relocate (g : Graph) (steps : List Rewrite) :
    (g.relocate f).rewrite steps = (g.rewrite steps).relocate f := by
  induction steps generalizing g with
  | nil => rfl
  | cons step steps ih =>
      have hstep := ih (step.apply g)
      rw [← Rewrite.apply_relocate] at hstep
      exact hstep

theorem normalize_relocate (g : Graph) (options : Options) :
    (g.relocate f).normalize options = (g.normalize options).relocate f := by
  rw [normalize_eq_rewrite, normalize_eq_rewrite, rewrite_relocate]

end Graph

end SchemaGraph
