import Mathlib.Data.Option.Basic
import SchemaGraph.Graph.Build
import SchemaGraph.Proofs.Merging

/-!
# Every reference leads to a type

A graph refers to types in many places, and whoever draws it follows the
references without looking whether they lead anywhere. `Resolved` says that they
do. It holds of a linked graph because linking has looked up each name, and the
list of what it looked up is, name by name, the list of identifiers that the
graph then holds.

Normalisation moves identifiers about: a field takes over the type of another
field, arguments change places, fields and interfaces go. What makes the
invariant survive any number of such steps is that none of them brings in an
identifier from elsewhere, and none renames or removes a type. `Narrows` is that,
and it is transitive.
-/

namespace SchemaGraph

open Sdl

namespace Graph

/-- The identifiers in a field: its type, what it was before, and the types of its arguments. -/
def Field.typeIds (f : Field) : List TypeId :=
  f.type :: (f.relayType.toList.map (·.type) ++ f.arguments.map (·.type)
    ++ f.relayArguments.map (·.type))

/-- The identifiers in a type. -/
def Node.typeIds (n : Node) : List TypeId :=
  n.fields.flatMap Field.typeIds ++ n.inputFields.map (·.type) ++ n.interfaces
    ++ n.derivedTypes ++ n.possibleTypes

/-- The identifiers of the roots. -/
def roots (g : Graph) : List TypeId := g.query :: (g.mutation.toList ++ g.subscription.toList)

/-- All identifiers that a graph holds to refer to types. -/
def typeIds (g : Graph) : List TypeId := g.nodes.flatMap Node.typeIds ++ g.roots

/-- Whether a type of the graph has this identifier. -/
def Has (g : Graph) (id : TypeId) : Prop := ∃ n ∈ g.nodes, n.id = id

/-- No two types have one name, and every identifier leads to a type. -/
structure Resolved (g : Graph) : Prop where
  names : (g.nodes.map (·.name)).Nodup
  resolves : ∀ id ∈ g.typeIds, g.Has id

variable {g : Graph}

theorem mem_typeIds_of_node {n : Node} {id : TypeId} (hn : n ∈ g.nodes) (hid : id ∈ n.typeIds) :
    id ∈ g.typeIds :=
  List.mem_append_left _ (List.mem_flatMap.2 ⟨n, hn, hid⟩)

theorem Node.mem_typeIds {n : Node} {id : TypeId} :
    id ∈ n.typeIds ↔ (∃ f ∈ n.fields, id ∈ f.typeIds) ∨ (∃ i ∈ n.inputFields, i.type = id)
      ∨ id ∈ n.interfaces ∨ id ∈ n.derivedTypes ∨ id ∈ n.possibleTypes := by
  simp only [typeIds, List.mem_append, List.mem_flatMap, List.mem_map, or_assoc]

theorem mem_typeIds_of_field {n : Node} {f : Field} {id : TypeId} (hn : n ∈ g.nodes)
    (hf : f ∈ n.fields) (hid : id ∈ f.typeIds) : id ∈ g.typeIds :=
  mem_typeIds_of_node hn (Node.mem_typeIds.2 (.inl ⟨f, hf, hid⟩))

theorem Field.type_mem_typeIds (f : Field) : f.type ∈ f.typeIds := List.mem_cons_self

theorem Field.mem_typeIds_of_argument (f : Field) {a : Input} (ha : a ∈ f.arguments) :
    a.type ∈ f.typeIds :=
  List.mem_cons_of_mem _
    (List.mem_append_left _ (List.mem_append_right _ (List.mem_map_of_mem ha)))

theorem mem_of_node? {id : TypeId} {n : Node} (h : g.node? id = some n) :
    n ∈ g.nodes ∧ n.id = id :=
  ⟨List.mem_of_find?_eq_some h, by simpa using List.find?_some h⟩

theorem Node.mem_of_field? {n : Node} {name : String} {f : Field} (h : n.field? name = some f) :
    f ∈ n.fields := List.mem_of_find?_eq_some h

theorem Resolved.ids (h : g.Resolved) : (g.nodes.map Node.id).Nodup := by
  have hmap : g.nodes.map Node.id = (g.nodes.map (·.name)).map TypeId.mk := by
    rw [List.map_map]
    rfl
  rw [hmap]
  exact h.names.map fun a b hab => congrArg TypeId.name hab

theorem Resolved.node?_id (h : g.Resolved) {n : Node} (hn : n ∈ g.nodes) :
    g.node? n.id = some n := find?_key h.ids hn

theorem Resolved.node?_of_has (h : g.Resolved) {id : TypeId} (hid : g.Has id) :
    ∃ n ∈ g.nodes, g.node? id = some n := by
  obtain ⟨n, hn, rfl⟩ := hid
  exact ⟨n, hn, h.node?_id hn⟩

theorem Resolved.node?_of_mem (h : g.Resolved) {id : TypeId} (hid : id ∈ g.typeIds) :
    ∃ n ∈ g.nodes, g.node? id = some n := h.node?_of_has (h.resolves id hid)

end Graph

theorem TypeId.text_eq (id : TypeId) : id.text = "TYPE::" ++ id.name := rfl

theorem TypeId.text_inj {a b : TypeId} : a.text = b.text ↔ a = b := by
  refine ⟨?_, ?_⟩
  · intro h
    obtain ⟨a⟩ := a
    obtain ⟨b⟩ := b
    have hlist := congrArg String.toList h
    simp only [TypeId.text_eq, String.toList_append, List.append_cancel_left_eq,
      String.toList_inj] at hlist
    rw [hlist]
  · rintro rfl
    rfl

namespace Graph

variable {g : Graph}

/-- A type is found under its identifier as it is written, just as by the identifier itself. -/
theorem type?_text (id : TypeId) : g.type? id.text = g.node? id := by
  unfold type? node?
  congr 1
  funext n
  rw [Bool.eq_iff_iff, beq_iff_eq, beq_iff_eq, TypeId.text_inj]

theorem type?_eq_some {key : String} {n : Node} (h : g.type? key = some n) :
    n ∈ g.nodes ∧ n.id.text = key :=
  ⟨List.mem_of_find?_eq_some h, by simpa using List.find?_some h⟩

end Graph

namespace Catalog

theorem Field.linked_typeIds (type : String) (f : Field) :
    f.linked.typeIds.map (·.name) = (f.references type).map (·.name) := by
  simp [Field.linked, Graph.Field.typeIds, Field.references, Input.linked, Input.reference,
    Function.comp_def]

theorem Entry.linked_typeIds (e : Entry) :
    e.linked.typeIds.map (·.name) = e.references.map (·.name) := by
  have hfields : ∀ fields : List Field,
      ((fields.map Field.linked).flatMap Graph.Field.typeIds).map (·.name)
        = (fields.flatMap (Field.references e.name)).map (·.name) := by
    intro fields
    simp only [List.map_flatMap, List.flatMap_map, Field.linked_typeIds e.name]
  simp only [Entry.linked, Graph.Node.typeIds, Entry.references, List.map_append, hfields]
  simp [Input.linked, Input.reference, Function.comp_def]

/-- Linking looks up, name by name, what the graph then refers to. -/
theorem link_ok {c : Catalog} {g : Graph} (h : c.link = .ok g) :
    g.nodes = c.entries.map Entry.linked
      ∧ g.typeIds.map (·.name) = c.references.map (·.name)
      ∧ ∀ r ∈ c.references, c.declares r.name = true := by
  unfold link at h
  split at h
  · cases h
  · next hfound =>
      cases h
      refine ⟨rfl, ?_, by simpa using List.find?_eq_none.1 hfound⟩
      simp only [Graph.typeIds, references, List.map_append, List.map_flatMap, List.flatMap_map,
        Entry.linked_typeIds]
      have hroot : ∀ name : Option String,
          (name.map TypeId.mk).toList.map (·.name) = name.toList := by
        intro name
        cases name <;> rfl
      simp [Graph.roots, rootNames, Function.comp_def, hroot]

theorem link_resolved {c : Catalog} {g : Graph} (h : c.link = .ok g)
    (hc : (c.entries.map (·.name)).Nodup) : g.Resolved := by
  obtain ⟨hnodes, hids, hdeclared⟩ := link_ok h
  refine ⟨?_, ?_⟩
  · rw [hnodes, List.map_map]
    exact hc
  · intro id hid
    have hname : id.name ∈ c.references.map (·.name) := hids ▸ List.mem_map_of_mem hid
    obtain ⟨r, hr, heq⟩ := List.mem_map.1 hname
    obtain ⟨e, he, hname⟩ := List.any_eq_true.1 (hdeclared r hr)
    refine ⟨e.linked, hnodes ▸ List.mem_map_of_mem he, ?_⟩
    show TypeId.mk e.name = id
    rw [beq_iff_eq.1 hname, heq]

theorem Entry.ofType_name (s : Schema) (t : SchemaType) : (Entry.ofType s t).name = t.name := by
  unfold Entry.ofType
  dsimp only
  split
  · rfl
  · split <;> rfl

theorem ofSchema_names (s : Schema) :
    (ofSchema s).entries.map (·.name)
      = (s.types.filter (!isIntrospective ·.name)).map (·.name) := by
  rw [ofSchema, List.map_map]
  exact List.map_congr_left fun t _ => Entry.ofType_name s t

end Catalog

namespace Graph

/-- What a graph of a document is made from. -/
theorem ofDocument_ok {sort : Bool} {d : Document} {g : Graph} (h : ofDocument sort d = .ok g) :
    ∃ s, Schema.ofDocument sort d = .ok s ∧ (Catalog.ofSchema s).link = .ok g := by
  unfold ofDocument at h
  split at h
  · cases h
  · next s hs =>
      split at h
      · cases h
      · next hlink =>
          cases h
          exact ⟨s, hs, hlink⟩

theorem ofDocument_resolved {sort : Bool} {d : Document} {g : Graph}
    (h : ofDocument sort d = .ok g) : g.Resolved := by
  obtain ⟨s, hs, hlink⟩ := ofDocument_ok h
  refine Catalog.link_resolved hlink ?_
  rw [Catalog.ofSchema_names]
  exact (Schema.ofDocument_namesOnce hs).types.sublist (List.filter_sublist.map _)

/-- What a graph of some sources is made from. -/
theorem build_ok {options : Options} {sources : List Source} {g : Graph}
    (h : build options sources = .ok (some g)) :
    ∃ d g₀, Document.load sources = .ok (some d)
      ∧ ofDocument options.sortByAlphabet d = .ok g₀ ∧ g = g₀.normalize options := by
  unfold build at h
  split at h
  · cases h
  · cases h
  · next d hload =>
      split at h
      · cases h
      · next g₀ hlink =>
          cases h
          exact ⟨d, g₀, hload, hlink, rfl⟩

theorem exists_build {options : Options} {sources : List Source}
    (h : (build options sources).toOption.join.isSome = true) :
    ∃ g, build options sources = .ok (some g) := by
  cases hbuild : build options sources with
  | error r =>
      rw [hbuild] at h
      cases h
  | ok found =>
      rw [hbuild] at h
      obtain ⟨g, rfl⟩ := Option.isSome_iff_exists.1 h
      exact ⟨g, rfl⟩

/-- One step of normalisation. -/
inductive Rewrite where
  | normalizeRelay (options : RelayOptions)
  | dropDeprecated

/-- The graph after one step. -/
def Rewrite.apply (g : Graph) : Rewrite → Graph
  | normalizeRelay options => g.normalizeRelay options
  | dropDeprecated => g.dropDeprecated

/-- The graph after some steps, one after the other. -/
def rewrite (g : Graph) (steps : List Rewrite) : Graph := steps.foldl Rewrite.apply g

/-- The steps that some options ask for. -/
def rewrites (options : Options) : List Rewrite :=
  (if options.skipRelayPattern then [.normalizeRelay options.relay] else [])
    ++ if options.skipDeprecatedFields then [.dropDeprecated] else []

theorem normalize_eq_rewrite (options : Options) (g : Graph) :
    g.normalize options = g.rewrite (rewrites options) := by
  unfold normalize
  cases hrelay : options.skipRelayPattern <;> cases hdrop : options.skipDeprecatedFields <;>
    simp [rewrite, rewrites, hrelay, hdrop, Rewrite.apply]

theorem rewrite_append (g : Graph) (steps steps' : List Rewrite) :
    g.rewrite (steps ++ steps') = (g.rewrite steps).rewrite steps' := List.foldl_append

/-- `g'` has the types that `g` has, and refers to no others than `g` does. -/
structure Narrows (g g' : Graph) : Prop where
  names : g'.nodes.map (·.name) = g.nodes.map (·.name)
  typeIds : g'.typeIds ⊆ g.typeIds

theorem Narrows.refl (g : Graph) : g.Narrows g := ⟨rfl, List.Subset.refl _⟩

theorem Narrows.trans {g g' g'' : Graph} (h : g.Narrows g') (h' : g'.Narrows g'') :
    g.Narrows g'' := ⟨h'.names.trans h.names, List.Subset.trans h'.typeIds h.typeIds⟩

theorem Narrows.resolved {g g' : Graph} (h : g.Narrows g') (hg : g.Resolved) : g'.Resolved := by
  refine ⟨h.names ▸ hg.names, fun id hid => ?_⟩
  obtain ⟨n, hn, rfl⟩ := hg.resolves id (h.typeIds hid)
  have hname : n.name ∈ g'.nodes.map (·.name) := h.names ▸ List.mem_map_of_mem hn
  obtain ⟨n', hn', heq⟩ := List.mem_map.1 hname
  exact ⟨n', hn', congrArg TypeId.mk heq⟩

variable {g g₀ : Graph}

/-- A change of each type narrows what was there before if no type refers to anything else. -/
theorem Narrows.mapNodes {f : Node → Node} (h : g₀.Narrows g)
    (hname : ∀ n ∈ g.nodes, (f n).name = n.name)
    (hids : ∀ n ∈ g.nodes, (f n).typeIds ⊆ g₀.typeIds) : g₀.Narrows (g.mapNodes f) := by
  refine ⟨?_, ?_⟩
  · rw [Graph.mapNodes, List.map_map, ← h.names]
    exact List.map_congr_left hname
  · intro id hid
    rcases List.mem_append.1 hid with hid | hid
    · obtain ⟨n', hn', hid⟩ := List.mem_flatMap.1 hid
      obtain ⟨n, hn, rfl⟩ := List.mem_map.1 hn'
      exact hids n hn hid
    · exact h.typeIds (List.mem_append_right _ hid)

/-- A type whose fields are exchanged refers to what it did and what the new fields refer to. -/
theorem Narrows.typeIds_withFields {n : Node} {fields : List Field} (h : g₀.Narrows g)
    (hn : n ∈ g.nodes) (hfields : ∀ f ∈ fields, f.typeIds ⊆ g₀.typeIds) :
    ({ n with fields := fields } : Node).typeIds ⊆ g₀.typeIds := by
  intro id hid
  rcases Node.mem_typeIds.1 hid with ⟨f, hf, hid⟩ | hid
  · exact hfields f hf hid
  · exact h.typeIds (mem_typeIds_of_node hn (Node.mem_typeIds.2 (.inr hid)))

theorem Narrows.mapFields {f : Field → Field} (h : g₀.Narrows g)
    (hf : ∀ n ∈ g.nodes, ∀ a ∈ n.fields, (f a).typeIds ⊆ g₀.typeIds) :
    g₀.Narrows (g.mapFields f) := by
  refine h.mapNodes (fun _ _ => rfl) fun n hn => h.typeIds_withFields hn fun b hb => ?_
  obtain ⟨a, ha, rfl⟩ := List.mem_map.1 hb
  exact hf n hn a ha

theorem Narrows.flagRelay (h : g₀.Narrows g) (ids : List TypeId) :
    g₀.Narrows (g.flagRelay ids) := by
  refine h.mapNodes (fun n _ => by split <;> rfl) fun n hn id hid => ?_
  refine h.typeIds (mem_typeIds_of_node hn ?_)
  split at hid <;> exact hid

theorem Narrows.dropNodeInterface (h : g₀.Narrows g) : g₀.Narrows g.dropNodeInterface := by
  refine h.mapNodes (fun _ _ => rfl) fun n hn id hid => h.typeIds (mem_typeIds_of_node hn ?_)
  rw [Node.mem_typeIds] at hid ⊢
  rcases hid with hid | hid | hid | hid
  · exact .inl hid
  · exact .inr (.inl hid)
  · exact .inr (.inr (.inl (List.mem_filter.1 hid).1))
  · exact .inr (.inr (.inr hid))

/-- The type of the nodes of a connection is one that the graph refers to. -/
theorem connectionOf?_node_mem {type : TypeId} {c : Connection}
    (h : g.connectionOf? type = some c) : c.node ∈ g.typeIds := by
  simp only [connectionOf?, Option.bind_eq_bind, Option.bind_eq_some_iff, Option.guard_eq_some',
    Option.pure_def, Option.some.injEq] at h
  obtain ⟨connection, -, -, -, edges, -, edge, hedge, -, -, node, hnode, rfl⟩ := h
  exact mem_typeIds_of_field (mem_of_node? hedge).1 (Node.mem_of_field? hnode)
    (Field.type_mem_typeIds node)

theorem connections_node_mem {c : Connection} (h : c ∈ g.connections) : c.node ∈ g.typeIds := by
  obtain ⟨n, -, hc⟩ := List.mem_flatMap.1 h
  obtain ⟨f, -, hf⟩ := List.mem_filterMap.1 hc
  exact connectionOf?_node_mem hf

theorem Narrows.collapseConnections (h : g₀.Narrows g) : g₀.Narrows g.collapseConnections := by
  refine h.mapFields fun n hn f hf id hid => ?_
  have hold : ∀ id ∈ f.typeIds, id ∈ g₀.typeIds := fun id hid =>
    h.typeIds (mem_typeIds_of_field hn hf hid)
  split at hid
  · next c hc =>
      -- The paging arguments and the rest are both picked from the arguments there were.
      simp only [Field.collapse, Field.typeIds, Option.toList_some, List.map_cons, List.map_nil,
        List.cons_append, List.nil_append, List.mem_cons, List.mem_append, List.mem_map,
        List.mem_filter] at hid
      rcases hid with rfl | rfl | ⟨a, ⟨ha, -⟩, rfl⟩ | ⟨a, ⟨ha, -⟩, rfl⟩
      · exact h.typeIds (connectionOf?_node_mem hc)
      · exact hold _ f.type_mem_typeIds
      · exact hold _ (f.mem_typeIds_of_argument ha)
      · exact hold _ (f.mem_typeIds_of_argument ha)
  · exact hold id hid

theorem edgeNode?_mem {cs : List Connection} {edge node : TypeId}
    (h : edgeNode? cs edge = some node) : ∃ c ∈ cs, c.node = node := by
  obtain ⟨c, hc, rfl⟩ := Option.map_eq_some_iff.1 h
  exact ⟨c, List.mem_of_find?_eq_some hc, rfl⟩

theorem Narrows.unwrapEdges (h : g₀.Narrows g) {cs : List Connection}
    (hcs : ∀ c ∈ cs, c.node ∈ g₀.typeIds) : g₀.Narrows (g.unwrapEdges cs) := by
  refine h.mapFields fun n hn f hf id hid => ?_
  have hold : ∀ id ∈ f.typeIds, id ∈ g₀.typeIds := fun id hid =>
    h.typeIds (mem_typeIds_of_field hn hf hid)
  split at hid
  · next node hnode =>
      obtain ⟨c, hc, rfl⟩ := edgeNode?_mem hnode
      simp only [Field.throughEdge, Field.typeIds, Option.toList_some, List.map_cons,
        List.map_nil, List.cons_append, List.nil_append, List.mem_cons, List.mem_append] at hid
      rcases hid with rfl | rfl | hid
      · exact hcs c hc
      · exact hold _ f.type_mem_typeIds
      · refine hold _ (List.mem_cons_of_mem _ ?_)
        rw [List.append_assoc]
        exact List.mem_append_right _ (List.mem_append.2 hid)
  · exact hold id hid

theorem Narrows.removePlumbing (h : g₀.Narrows g) (options : RelayOptions) :
    g₀.Narrows (g.removePlumbing options) := by
  refine h.mapNodes (fun n _ => by split <;> rfl) fun n hn id hid => ?_
  split at hid
  · refine h.typeIds_withFields hn (fun f hf id hid => ?_) hid
    exact h.typeIds (mem_typeIds_of_field hn (List.mem_filter.1 hf).1 hid)
  · exact h.typeIds (mem_typeIds_of_node hn hid)

theorem narrows_normalizeRelay (g : Graph) (options : RelayOptions) :
    g.Narrows (g.normalizeRelay options) := by
  have hmarked : g.Narrows (g.flagRelay [nodeInterface, pageInfo]).dropNodeInterface :=
    ((Narrows.refl g).flagRelay _).dropNodeInterface
  have hcollapsed := hmarked.collapseConnections.flagRelay
  exact ((hcollapsed _).unwrapEdges fun c hc =>
    hmarked.typeIds (connections_node_mem hc)).removePlumbing options

theorem narrows_dropDeprecated (g : Graph) : g.Narrows g.dropDeprecated := by
  have h := Narrows.refl g
  refine h.mapNodes (fun _ _ => rfl) fun n hn => h.typeIds_withFields hn fun f hf id hid => ?_
  exact mem_typeIds_of_field hn (List.mem_filter.1 hf).1 hid

theorem Rewrite.narrows (g : Graph) (step : Rewrite) : g.Narrows (step.apply g) := by
  cases step with
  | normalizeRelay options => exact narrows_normalizeRelay g options
  | dropDeprecated => exact narrows_dropDeprecated g

/-- However a graph is normalised, it keeps its types and refers to no new ones. -/
theorem narrows_rewrite (g : Graph) (steps : List Rewrite) : g.Narrows (g.rewrite steps) := by
  induction steps generalizing g with
  | nil => exact .refl g
  | cons step steps ih => exact (step.narrows g).trans (ih (step.apply g))

/-- All graphs that come of a document are resolved, however they are normalised. -/
theorem rewrite_resolved {sort : Bool} {d : Document} (h : ofDocument sort d = .ok g)
    (steps : List Rewrite) : (g.rewrite steps).Resolved :=
  (narrows_rewrite g steps).resolved (ofDocument_resolved h)

end Graph

end SchemaGraph
