import SchemaGraph.Proofs.Omissions
import SchemaGraph.Proofs.Presentation

/-!
# Connections collapse all at once

What normalisation makes of a graph can be said without saying in which order it goes
about it. Which types are connections, what their edges are and what these hold are
relations on the graph as it was, and each field is told from them alone: it leads to
the nodes if it led to a connection, and past one edge, if that is where it leads.

The relations are read off the declarations, where names stand for themselves, while
normalisation finds types and fields by looking them up. The two agree because no two
types of a graph have one name, and no two fields of a type; and for the same reason an
edge has only one type of node, however many connections share it.

Only what a field is said to have been depends on the order. Both passes write it down,
and the later one has the last word.
-/

namespace SchemaGraph

open Sdl

/-- No two types of a catalog have one name, and no two fields of a type. -/
structure Catalog.NamesOnce (c : Catalog) : Prop where
  entries : (c.entries.map (·.name)).Nodup
  fields : ∀ e ∈ c.entries, (e.fields.map (·.name)).Nodup

namespace Graph

section

variable (g : Graph)

/-- Whether an object has this identifier, and in it a field of this name and type. -/
def ObjectField (id : TypeId) (name : String) (type : TypeId) : Prop :=
  ∃ n ∈ g.nodes, n.id = id ∧ n.kind = .object ∧ ∃ f ∈ n.fields, f.name = name ∧ f.type = type

/-- Whether a type pages through nodes: its name says so, and it has edges that hold them. -/
def Pages (type edge node : TypeId) : Prop :=
  (∃ front, front ≠ "" ∧ type.name = front ++ "Connection")
    ∧ g.ObjectField type "edges" edge ∧ g.ObjectField edge "node" node

/-- Whether `edge` holds nodes of this type for a connection that some field leads to. -/
def Wraps (edge node : TypeId) : Prop := ∃ n ∈ g.nodes, ∃ f ∈ n.fields, g.Pages f.type edge node

/-- Whether `type'` is what is left of `type`, of an edge its node. -/
def Unwraps (type type' : TypeId) : Prop :=
  g.Wraps type type' ∨ (∀ node, ¬ g.Wraps type node) ∧ type' = type

/-- Whether a type only serves the conventions. -/
def ServesRelay (type : TypeId) : Prop :=
  type = ⟨"Node"⟩ ∨ type = ⟨"PageInfo"⟩
    ∨ ∃ n ∈ g.nodes, ∃ f ∈ n.fields, ∃ edge node, g.Pages f.type edge node
      ∧ (type = f.type ∨ type = edge)

/-- What a field becomes, apart from what it is said to have been. -/
structure Field.Collapses (f f' : Field) : Prop where
  name : f'.name = f.name
  description : f'.description = f.description
  deprecation : f'.deprecation = f.deprecation
  location : f'.location = f.location
  paged : ∀ edge node, g.Pages f.type edge node → g.Unwraps node f'.type
    ∧ f'.wrappers = [.list]
    ∧ f'.relayArguments = f.arguments.filter (·.name ∈ ["first", "last", "before", "after"])
    ∧ f'.arguments = f.arguments.filter (·.name ∉ ["first", "last", "before", "after"])
  unpaged : (∀ edge node, ¬ g.Pages f.type edge node) → g.Unwraps f.type f'.type
    ∧ f'.wrappers = f.wrappers ∧ f'.relayArguments = [] ∧ f'.arguments = f.arguments

/-- Whether a field of a type, given as it has become, is one of the query root to be removed. -/
def Removes (options : RelayOptions) (n : Node) (f : Field) : Prop :=
  n.id = g.query ∧ ((f.name ∈ options.plumbingRootFields ∧ g.ServesRelay f.type)
    ∨ (options.removeSelfReferencingRootFields = true ∧ f.type = g.query))

/-- What the fields of a type become, one after the other. -/
inductive FieldsCollapse (options : RelayOptions) (n : Node) : List Field → List Field → Prop
  | nil : FieldsCollapse options n [] []
  | kept {f f' fs fs'} (field : f.Collapses g f') (kept : ¬ g.Removes options n f')
      (rest : FieldsCollapse options n fs fs') : FieldsCollapse options n (f :: fs) (f' :: fs')
  | removed {f f' fs fs'} (field : f.Collapses g f') (removed : g.Removes options n f')
      (rest : FieldsCollapse options n fs fs') : FieldsCollapse options n (f :: fs) fs'

/-- What a type becomes. -/
structure Node.Collapses (options : RelayOptions) (n n' : Node) : Prop where
  name : n'.name = n.name
  kind : n'.kind = n.kind
  description : n'.description = n.description
  location : n'.location = n.location
  isRelay : n'.isRelay = true ↔ g.ServesRelay n.id
  interfaces : n'.interfaces = n.interfaces.filter (· ≠ ⟨"Node"⟩)
  derivedTypes : n'.derivedTypes = n.derivedTypes
  possibleTypes : n'.possibleTypes = n.possibleTypes
  enumValues : n'.enumValues = n.enumValues
  inputFields : n'.inputFields = n.inputFields
  fields : g.FieldsCollapse options n n.fields n'.fields

/-- What a graph becomes. -/
structure Collapses (options : RelayOptions) (g' : Graph) : Prop where
  query : g'.query = g.query
  mutation : g'.mutation = g.mutation
  subscription : g'.subscription = g.subscription
  wraps : ∀ {edge node node'}, g.Wraps edge node → g.Wraps edge node' → node = node'
  nodes : List.Forall₂ (Node.Collapses g options) g.nodes g'.nodes

/-- What a field that became `f'` is said to have been. -/
structure Field.Remembers (f f' : Field) : Prop where
  untouched : (∀ edge node, ¬ g.Pages f.type edge node) → (∀ node, ¬ g.Wraps f.type node) →
    f'.relayType = none
  unwrapped : (∀ edge node, ¬ g.Pages f.type edge node) → ∀ node, g.Wraps f.type node →
    f'.relayType = some ⟨f.type, f.wrappers⟩
  paged : ∀ edge node, g.Pages f.type edge node → (∀ inner, ¬ g.Wraps node inner) →
    f'.relayType = some ⟨f.type, f.wrappers⟩
  both : ∀ edge node, g.Pages f.type edge node → ∀ inner, g.Wraps node inner →
    f'.relayType = some ⟨node, [.list]⟩

end

theorem isConnectionName_iff {name : String} :
    isConnectionName name = true ↔ ∃ front, front ≠ "" ∧ name = front ++ "Connection" := by
  rw [isConnectionName, Bool.and_eq_true, decide_eq_true_iff, List.isSuffixOf_iff_suffix]
  constructor
  · intro h
    obtain ⟨hlength, front, hfront⟩ := h
    refine ⟨String.ofList front, ?_, String.toList_inj.1 ?_⟩
    · intro hempty
      have hnil : front = [] := by rw [← String.toList_ofList (l := front), hempty]; rfl
      rw [hnil, List.nil_append, String.toList_inj] at hfront
      rw [hfront] at hlength
      omega
    · rw [String.toList_append, String.toList_ofList, hfront]
  · rintro ⟨front, hfront, rfl⟩
    refine ⟨?_, front.toList, (String.toList_append).symm⟩
    have hpos : 0 < front.length := by
      rw [Nat.pos_iff_ne_zero]
      intro hzero
      exact hfront (String.length_eq_zero_iff.1 hzero)
    rw [String.length_append]
    omega

section

variable {g : Graph} (hg : g.Resolved) (hfields : ∀ n ∈ g.nodes, (n.fields.map (·.name)).Nodup)

include hg hfields

theorem objectField_iff {id type : TypeId} {name : String} :
    g.ObjectField id name type ↔ ∃ n, g.node? id = some n ∧ n.kind = .object
      ∧ ∃ f, n.field? name = some f ∧ f.type = type := by
  constructor
  · rintro ⟨n, hn, rfl, hkind, f, hf, rfl, rfl⟩
    exact ⟨n, hg.node?_id hn, hkind, f, find?_key (hfields n hn) hf, rfl⟩
  · rintro ⟨n, hn, hkind, f, hf, rfl⟩
    have hname : f.name = name := by simpa using List.find?_some hf
    exact ⟨n, (mem_of_node? hn).1, (mem_of_node? hn).2, hkind, f, Node.mem_of_field? hf, hname, rfl⟩

theorem connectionOf?_iff {type : TypeId} {c : Connection} :
    g.connectionOf? type = some c ↔ c.connection = type ∧ g.Pages type c.edge c.node := by
  simp only [connectionOf?, Option.bind_eq_bind, Option.bind_eq_some_iff, Option.guard_eq_some',
    Option.pure_def, Option.some.injEq, Bool.and_eq_true, beq_iff_eq, isConnectionName_iff, Pages,
    objectField_iff hg hfields]
  constructor
  · rintro ⟨n, hn, -, ⟨hname, hkind⟩, edges, hedges, e, he, -, hekind, node, hnode, rfl⟩
    have hid := (mem_of_node? hn).2
    have heid := (mem_of_node? he).2
    refine ⟨hid, hid ▸ hname, ⟨n, hn, hkind, edges, hedges, heid.symm⟩, e, ?_, hekind, node, hnode,
      rfl⟩
    rw [heid, he]
  · intro h
    obtain ⟨htype, hname, ⟨n, hn, hkind, edges, hedges, hedge⟩, e, he, hekind, node, hnode, hc⟩ := h
    have hid := (mem_of_node? hn).2
    rw [← hid] at hname
    refine ⟨n, hn, (), ⟨hname, hkind⟩, edges, hedges, e, hedge ▸ he, (), hekind, node, hnode, ?_⟩
    rw [hid, (mem_of_node? he).2, hc, ← htype]

theorem connectionOf?_eq_none_iff {type : TypeId} :
    g.connectionOf? type = none ↔ ∀ edge node, ¬ g.Pages type edge node := by
  rw [Option.eq_none_iff_forall_ne_some]
  constructor
  · intro h edge node hpages
    exact h ⟨type, edge, node⟩ ((connectionOf?_iff hg hfields).2 ⟨rfl, hpages⟩)
  · intro h c hc
    exact h c.edge c.node ((connectionOf?_iff hg hfields).1 hc).2

theorem mem_connections {c : Connection} :
    c ∈ g.connections ↔ ∃ n ∈ g.nodes, ∃ f ∈ n.fields, c.connection = f.type
      ∧ g.Pages f.type c.edge c.node := by
  simp only [connections, List.mem_flatMap, List.mem_filterMap, connectionOf?_iff hg hfields]

theorem edgeNode?_connections_iff {edge node : TypeId} :
    edgeNode? g.connections edge = some node ↔ g.Wraps edge node := by
  rw [edgeNode?_iff fun c hc c' hc' => connections_edge hc hc']
  constructor
  · rintro ⟨c, hc, rfl, rfl⟩
    obtain ⟨n, hn, f, hf, -, hpages⟩ := (mem_connections hg hfields).1 hc
    exact ⟨n, hn, f, hf, hpages⟩
  · intro h
    obtain ⟨n, hn, f, hf, hpages⟩ := h
    have hmem : ⟨f.type, edge, node⟩ ∈ g.connections :=
      (mem_connections hg hfields).2 ⟨n, hn, f, hf, rfl, hpages⟩
    exact ⟨_, hmem, rfl, rfl⟩

theorem edgeNode?_connections_eq_none_iff {edge : TypeId} :
    edgeNode? g.connections edge = none ↔ ∀ node, ¬ g.Wraps edge node := by
  simp only [Option.eq_none_iff_forall_ne_some, ne_eq, edgeNode?_connections_iff hg hfields]

theorem Wraps.unique {edge node node' : TypeId} (h : g.Wraps edge node)
    (h' : g.Wraps edge node') : node = node' :=
  Option.some.inj (((edgeNode?_connections_iff hg hfields).2 h).symm.trans
    ((edgeNode?_connections_iff hg hfields).2 h'))

theorem mem_relayTypes {type : TypeId} : type ∈ g.relayTypes ↔ g.ServesRelay type := by
  simp only [relayTypes, List.cons_append, List.nil_append, List.mem_cons, List.mem_flatMap,
    List.not_mem_nil, or_false, nodeInterface, pageInfo, ServesRelay]
  refine or_congr_right (or_congr_right ?_)
  constructor
  · intro h
    obtain ⟨c, hc, htype⟩ := h
    obtain ⟨n, hn, f, hf, heq, hpages⟩ := (mem_connections hg hfields).1 hc
    rw [heq] at htype
    exact ⟨n, hn, f, hf, c.edge, c.node, hpages, htype⟩
  · intro h
    obtain ⟨n, hn, f, hf, edge, node, hpages, htype⟩ := h
    have hmem : ⟨f.type, edge, node⟩ ∈ g.connections :=
      (mem_connections hg hfields).2 ⟨n, hn, f, hf, rfl, hpages⟩
    exact ⟨_, hmem, htype⟩

end

/-- The second pass changes the type only, and writes down what it was. -/
theorem Field.rewritten_eq (g : Graph) (f : Field) :
    f.rewritten g = { f.collapsed g with
      type := (edgeNode? g.connections (f.collapsed g).type).getD (f.collapsed g).type
      relayType := (edgeNode? g.connections (f.collapsed g).type).elim (f.collapsed g).relayType
        fun _ => some ⟨(f.collapsed g).type, (f.collapsed g).wrappers⟩ } := by
  unfold Field.rewritten
  split
  · next hnode =>
      rw [hnode]
      rfl
  · next hnode =>
      rw [hnode]
      rfl

/-- A field is still made to refer to a type of the graph. -/
theorem Field.rewritten_type_has {g : Graph} (hg : g.Resolved) {f : Field} (hf : g.Has f.type) :
    g.Has (f.rewritten g).type := by
  have hcollapsed : g.Has (f.collapsed g).type := by
    rw [collapsed]
    split
    · next c hc => exact hg.resolves _ (connectionOf?_node_mem hc)
    · exact hf
  rw [rewritten_eq]
  cases hnode : edgeNode? g.connections (f.collapsed g).type with
  | none => exact hcollapsed
  | some node =>
      obtain ⟨c, hc, rfl⟩ := edgeNode?_mem hnode
      exact hg.resolves _ (connections_node_mem hc)

section

variable {g : Graph} (hg : g.Resolved) (hfields : ∀ n ∈ g.nodes, (n.fields.map (·.name)).Nodup)

include hg hfields

theorem unwraps_edgeNode? (type : TypeId) :
    g.Unwraps type ((edgeNode? g.connections type).getD type) := by
  cases hnode : edgeNode? g.connections type with
  | some node => exact .inl ((edgeNode?_connections_iff hg hfields).1 hnode)
  | none => exact .inr ⟨(edgeNode?_connections_eq_none_iff hg hfields).1 hnode, rfl⟩

theorem Field.collapsed_of_pages {f : Field} {edge node : TypeId} (h : g.Pages f.type edge node) :
    f.collapsed g = f.collapse ⟨f.type, edge, node⟩ := by
  have hc : g.connectionOf? f.type = some ⟨f.type, edge, node⟩ :=
    (connectionOf?_iff hg hfields).2 ⟨rfl, h⟩
  simp only [collapsed, hc]

theorem Field.collapsed_of_not_pages {f : Field} (h : ∀ edge node, ¬ g.Pages f.type edge node) :
    f.collapsed g = f := by
  simp only [collapsed, (connectionOf?_eq_none_iff hg hfields).2 h]

theorem Field.rewritten_collapses {f : Field} (hf : f.relayArguments = []) :
    f.Collapses g (f.rewritten g) := by
  constructor
  case paged =>
      intro edge node h
      rw [rewritten_eq, collapsed_of_pages hg hfields h]
      simp only [List.contains_eq_mem, pagingArguments, collapse, decide_not, and_true]
      exact unwraps_edgeNode? hg hfields node
  case unpaged =>
      intro h
      rw [rewritten_eq, collapsed_of_not_pages hg hfields h]
      exact ⟨unwraps_edgeNode? hg hfields f.type, rfl, hf, rfl⟩
  all_goals
    rw [rewritten_eq, collapsed]
    split <;> rfl

theorem Field.rewritten_remembers {f : Field} (hf : f.relayType = none) :
    f.Remembers g (f.rewritten g) := by
  have hnone : ∀ {edge}, (∀ node, ¬ g.Wraps edge node) → edgeNode? g.connections edge = none :=
    (edgeNode?_connections_eq_none_iff hg hfields).2
  have hsome : ∀ {edge node}, g.Wraps edge node → edgeNode? g.connections edge = some node :=
    (edgeNode?_connections_iff hg hfields).2
  constructor
  · intro hpages hwraps
    rw [rewritten_eq, collapsed_of_not_pages hg hfields hpages, hnone hwraps]
    exact hf
  · intro hpages node hwraps
    rw [rewritten_eq, collapsed_of_not_pages hg hfields hpages, hsome hwraps]
    rfl
  · intro edge node hpages hwraps
    rw [rewritten_eq, collapsed_of_pages hg hfields hpages]
    simp only [collapse, hnone hwraps, Option.elim_none]
  · intro edge node hpages inner hwraps
    rw [rewritten_eq, collapsed_of_pages hg hfields hpages]
    simp only [collapse, hsome hwraps, Option.elim_some]

end

section

variable {g : Graph} (hg : g.Resolved) (hfields : ∀ n ∈ g.nodes, (n.fields.map (·.name)).Nodup)
  (hflags : ∀ n ∈ g.nodes, n.isRelay = false)

include hg hfields hflags

theorem isPlumbing_iff (options : RelayOptions) {f : Field} (hf : g.Has f.type) :
    (g.mapNodes (Node.rewritten g)).isPlumbing options f = true ↔
      (f.name ∈ options.plumbingRootFields ∧ g.ServesRelay f.type)
        ∨ (options.removeSelfReferencingRootFields = true ∧ f.type = g.query) := by
  obtain ⟨n, hn, hid⟩ := hf
  have hfound : (g.mapNodes (Node.rewritten g)).node? f.type = some (n.rewritten g) := by
    rw [node?_mapNodes (u := Node.rewritten g) (fun _ => rfl), ← hid, hg.node?_id hn]
    rfl
  have hrelay : (n.rewritten g).isRelay = true ↔ g.ServesRelay f.type := by
    rw [Node.rewritten, hflags n hn, Bool.false_or, List.contains_iff_mem,
      mem_relayTypes hg hfields, hid]
  rw [isPlumbing, hfound, Bool.or_eq_true, Bool.and_eq_true, Bool.and_eq_true,
    List.contains_iff_mem, Option.any_some, hrelay, beq_iff_eq]
  rfl

omit hflags in
theorem fieldsCollapse_filter (options : RelayOptions) (n : Node) {fs : List Field}
    (hfs : ∀ f ∈ fs, f.relayArguments = [] ∧ g.Has f.type) {p : Field → Bool}
    (hp : ∀ f, g.Has f.type → (p f = true ↔ ¬ g.Removes options n f)) :
    g.FieldsCollapse options n fs ((fs.map (Field.rewritten g)).filter p) := by
  induction fs with
  | nil => exact .nil
  | cons f fs ih =>
      obtain ⟨⟨hunpaged, hhas⟩, hrest⟩ := List.forall_mem_cons.1 hfs
      have hfield := Field.rewritten_collapses hg hfields hunpaged
      have hkept := hp _ (Field.rewritten_type_has hg hhas)
      rw [List.map_cons]
      by_cases hpf : p (f.rewritten g) = true
      · rw [List.filter_cons_of_pos hpf]
        exact .kept hfield (hkept.1 hpf) (ih hrest)
      · rw [List.filter_cons_of_neg hpf]
        exact .removed hfield (Classical.not_not.1 fun h => hpf (hkept.2 h)) (ih hrest)

theorem Node.rewritten_collapses (options : RelayOptions) {n : Node} (hn : n ∈ g.nodes)
    (hunpaged : ∀ f ∈ n.fields, f.relayArguments = []) :
    n.Collapses g options { n.rewritten g with
      fields := (n.fields.map (Field.rewritten g)).filter fun f =>
        !(decide (n.id = g.query) && (g.mapNodes (Node.rewritten g)).isPlumbing options f) } := by
  constructor
  case isRelay =>
      show (n.isRelay || g.relayTypes.contains n.id) = true ↔ _
      rw [hflags n hn, Bool.false_or, List.contains_iff_mem, mem_relayTypes hg hfields]
  case interfaces =>
      refine List.filter_congr fun t _ => ?_
      rw [bne, decide_not, nodeInterface]
      rfl
  case fields =>
      refine fieldsCollapse_filter hg hfields options n (fun f hf => ⟨hunpaged f hf, ?_⟩)
        fun f hf => ?_
      · exact hg.resolves _ (mem_typeIds_of_field hn hf f.type_mem_typeIds)
      · rw [Bool.not_eq_true', Bool.and_eq_false_imp, decide_eq_true_iff, Removes, not_and]
        refine forall_congr' fun _ => ?_
        rw [← Bool.not_eq_true, isPlumbing_iff hg hfields hflags options hf]
  all_goals rfl

end

/-- What is removed is removed as the fields are rewritten. -/
theorem normalizeRelay_eq_map (g : Graph) (options : RelayOptions) :
    g.normalizeRelay options = g.mapNodes fun n => { n.rewritten g with
      fields := (n.fields.map (Field.rewritten g)).filter fun f =>
        !(decide (n.id = g.query) && (g.mapNodes (Node.rewritten g)).isPlumbing options f) } :=
  (plumbingOmitted_eq { Options.standard with relay := options } g).trans (mapNodes_mapNodes ..)

/-! ## Graphs as they are linked

What becomes of a field is told for one that is not yet said to have been anything else
and has no paging arguments set aside. Graphs have such fields only while nothing has been
done to them but linking. It is there too that names are known to be unique, as the
relations need them to be: the catalog has each name once, and linking moves no field to
another type (`linked_fields_nodup`). -/

theorem Catalog.ofSchema_namesOnce {s : Schema} (h : SchemaGraph.NamesOnce s.types) :
    (Catalog.ofSchema s).NamesOnce where
  entries := by
    rw [Catalog.ofSchema_names]
    exact h.types.sublist (List.filter_sublist.map _)
  fields e he := by
    obtain ⟨t, ht, rfl⟩ := List.mem_map.1 he
    have hlinked := (h.bodies t (List.mem_filter.1 ht).1).linked (s := s) |>.fields
    rwa [Catalog.Entry.linked, List.map_map] at hlinked

/-- Sources that make up a graph have a catalog that is linked. -/
theorem exists_linked {o : Options} {sources : List Source} {g : Graph}
    (h : build o sources = .ok (some g)) :
    ∃ c g₀, Catalog.NamesOnce c ∧ c.link = .ok g₀ ∧ g = g₀.normalize o := by
  obtain ⟨d, g₀, -, hlink, hg⟩ := build_ok h
  obtain ⟨s, hs, hlinked⟩ := ofDocument_ok hlink
  exact ⟨_, g₀, Catalog.ofSchema_namesOnce (Schema.ofDocument_namesOnce hs), hlinked, hg⟩

section

variable {c : Catalog} {g : Graph} (h : c.link = .ok g)

include h

theorem linked_untouched :
    ∀ n ∈ g.nodes, n.isRelay = false
      ∧ ∀ f ∈ n.fields, f.relayArguments = [] ∧ f.relayType = none := by
  intro n hn
  rw [(Catalog.link_ok h).1] at hn
  obtain ⟨e, -, rfl⟩ := List.mem_map.1 hn
  refine ⟨rfl, fun f hf => ?_⟩
  obtain ⟨field, -, rfl⟩ := List.mem_map.1 hf
  exact ⟨rfl, rfl⟩

variable (hc : c.NamesOnce)

include hc

theorem linked_fields_nodup : ∀ n ∈ g.nodes, (n.fields.map (·.name)).Nodup := by
  intro n hn
  rw [(Catalog.link_ok h).1] at hn
  obtain ⟨e, he, rfl⟩ := List.mem_map.1 hn
  rw [Catalog.Entry.linked, List.map_map]
  exact hc.fields e he

/--
Relay normalisation makes of a linked graph what the connections in it say, all fields
being told from the graph as it was. A field that led to a connection leads to a list of
its nodes and has its paging arguments set apart, all others lead where they did; but of
an edge either leads to its node. The types of the connections are flagged, and the root
fields that then only serve the conventions are removed.
-/
theorem normalizeRelay_collapses (options : RelayOptions) :
    g.Collapses options (g.normalizeRelay options) := by
  have hg := Catalog.link_resolved h hc.entries
  have hfields := linked_fields_nodup h hc
  have huntouched := linked_untouched h
  rw [normalizeRelay_eq_map]
  refine ⟨rfl, rfl, rfl, Wraps.unique hg hfields, ?_⟩
  rw [mapNodes, List.forall₂_map_right_iff, List.forall₂_same]
  intro n hn
  exact Node.rewritten_collapses hg hfields (fun m hm => (huntouched m hm).1) options hn
    fun f hf => ((huntouched n hn).2 f hf).1

end

/-- Edges that hold edges of another connection. -/
def overlappingSource : Source :=
  ⟨"overlapping", "type Query{a:AConnection! b:[BConnection]e:BEdge}
type AConnection{edges:AEdge}type AEdge{node:BEdge}
type BConnection{edges:[BEdge!]}type BEdge{node:B}type B{x:Int}"⟩

/-- Connections are collapsed, and fields kept though they are deprecated. -/
def collapsing : Options := { Options.standard with skipDeprecatedFields := false }

/-- Where the fields of the first type lead, and where they are said to have led. -/
def firstFields (g : Graph) : Option (List (TypeId × Option TypeUse)) :=
  g.nodes.head?.map fun n => n.fields.map fun f => (f.type, f.relayType)

theorem exists_linked_overlapping :
    ∃ c g, Catalog.NamesOnce c ∧ c.link = .ok g
      ∧ (g.normalizeRelay .standard).firstFields
        = some [(⟨"B"⟩, some ⟨⟨"BEdge"⟩, [.list]⟩), (⟨"B"⟩, some ⟨⟨"BConnection"⟩, [.list]⟩),
          (⟨"B"⟩, some ⟨⟨"BEdge"⟩, []⟩)] := by
  have hbuilt : (build collapsing [overlappingSource]).toOption.join.bind firstFields
      = some [(⟨"B"⟩, some ⟨⟨"BEdge"⟩, [.list]⟩), (⟨"B"⟩, some ⟨⟨"BConnection"⟩, [.list]⟩),
        (⟨"B"⟩, some ⟨⟨"BEdge"⟩, []⟩)] := by
    decide +kernel
  obtain ⟨g', hg', hfields⟩ := Option.bind_eq_some_iff.1 hbuilt
  obtain ⟨g, hg⟩ : ∃ g, build collapsing [overlappingSource] = .ok (some g) :=
    exists_build (hg' ▸ rfl)
  obtain ⟨c, g₀, hc, hlink, rfl⟩ := exists_linked hg
  rw [hg] at hg'
  obtain rfl : g₀.normalizeRelay .standard = g' := Option.some.inj hg'
  exact ⟨c, g₀, hc, hlink, hfields⟩

theorem normalizeRelay_collapses_overlapping :
    ∃ c g, Catalog.NamesOnce c ∧ c.link = .ok g
      ∧ (g.normalizeRelay .standard).firstFields.map (·.map Prod.fst)
        = some [⟨"B"⟩, ⟨"B"⟩, ⟨"B"⟩]
      ∧ g.Collapses .standard (g.normalizeRelay .standard) := by
  obtain ⟨c, g, hc, hlink, hfields⟩ := exists_linked_overlapping
  exact ⟨c, g, hc, hlink, hfields ▸ rfl, normalizeRelay_collapses hlink hc .standard⟩

section

variable {c : Catalog} {g : Graph} (h : c.link = .ok g) (hc : c.NamesOnce)

include h hc

/--
What a field is said to have been is what it was if one of the passes has changed it, and
nothing if none has. If both have, it is what the first one left to the second.
-/
theorem normalizeRelay_remembers (options : RelayOptions) :
    ∀ n' ∈ (g.normalizeRelay options).nodes, ∃ n ∈ g.nodes, n.name = n'.name
      ∧ ∀ f' ∈ n'.fields, ∃ f ∈ n.fields, f.Collapses g f' ∧ f.Remembers g f' := by
  have hg := Catalog.link_resolved h hc.entries
  have hfields := linked_fields_nodup h hc
  intro n' hn'
  rw [normalizeRelay_eq_map] at hn'
  obtain ⟨n, hn, rfl⟩ := List.mem_map.1 hn'
  refine ⟨n, hn, rfl, fun f' hf' => ?_⟩
  obtain ⟨f, hf, rfl⟩ := List.mem_map.1 (List.mem_filter.1 hf').1
  obtain ⟨hunpaged, hunwritten⟩ := (linked_untouched h n hn).2 f hf
  exact ⟨f, hf, Field.rewritten_collapses hg hfields hunpaged,
    Field.rewritten_remembers hg hfields hunwritten⟩

end

/-- The first field of the query root led to `AConnection!`, which is written down nowhere. -/
theorem normalizeRelay_remembers_overlapping :
    ∃ c g, Catalog.NamesOnce c ∧ c.link = .ok g
      ∧ (g.normalizeRelay .standard).firstFields.map (·.map Prod.snd)
        = some [some ⟨⟨"BEdge"⟩, [.list]⟩, some ⟨⟨"BConnection"⟩, [.list]⟩,
          some ⟨⟨"BEdge"⟩, []⟩]
      ∧ ∀ n' ∈ (g.normalizeRelay .standard).nodes, ∃ n ∈ g.nodes, n.name = n'.name
        ∧ ∀ f' ∈ n'.fields, ∃ f ∈ n.fields, f.Collapses g f' ∧ f.Remembers g f' := by
  obtain ⟨c, g, hc, hlink, hfields⟩ := exists_linked_overlapping
  exact ⟨c, g, hc, hlink, hfields ▸ rfl, normalizeRelay_remembers hlink hc .standard⟩

end Graph

end SchemaGraph
