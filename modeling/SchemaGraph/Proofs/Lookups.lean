import SchemaGraph.Diagram
import SchemaGraph.Proofs.Resolution

/-!
# No lookup fails

Some operations on a graph look types up and have no answer if a type is not
there. Here each of them is told with that case left open: the result is `none`
where a lookup has failed, and not, as in the operation itself, whatever is
convenient. On a resolved graph none of them comes to that, because all they
look up are identifiers that the graph holds.

A diagram keeps looking up what it has found, so the identifiers it has reached
have to be accounted for along the way.
-/

namespace SchemaGraph.Graph

open Sdl

variable (g : Graph)

/-- What is found for some entries, unless the search fails at one of them. -/
def filterMap? {α β : Type} (f : α → Option (Option β)) (as : List α) : Option (List β) :=
  (as.mapM f).map (·.filterMap id)

/-- As `connectionOf?`, with failed lookups apart from types that are no connection. -/
def detect? (type : TypeId) : Option (Option Connection) := do
  let connection ← g.node? type
  if isConnectionName connection.name && connection.kind == .object then
    match connection.field? "edges" with
    | none => return none
    | some edges =>
      let edge ← g.node? edges.type
      if edge.kind == .object then
        return (edge.field? "node").map fun node => ⟨connection.id, edge.id, node.type⟩
      else return none
  else return none

/-- As `connections`. -/
def connections? : Option (List Connection) :=
  filterMap? (fun f => g.detect? f.type) (g.nodes.flatMap (·.fields))

/-- As `isPlumbing`: the type of a field is looked up if the options name the field. -/
def isPlumbing? (options : RelayOptions) (f : Field) : Option Bool := do
  let isRelay ←
    if options.plumbingRootFields.contains f.name then (g.node? f.type).map (·.isRelay)
    else some false
  return isRelay || (options.removeSelfReferencingRootFields && f.type == g.query)

/-- As `removePlumbing`: the query root is looked up, and what its fields need. -/
def removePlumbing? (options : RelayOptions) : Option Graph := do
  let query ← g.node? g.query
  let _ ← query.fields.mapM (g.isPlumbing? options)
  return g.removePlumbing options

/-- As `normalizeRelay`. -/
def normalizeRelay? (options : RelayOptions) : Option Graph := do
  let marked := (g.flagRelay [nodeInterface, pageInfo]).dropNodeInterface
  let cs ← marked.connections?
  let flagged := marked.collapseConnections.flagRelay (cs.flatMap fun c => [c.connection, c.edge])
  (flagged.unwrapEdges cs).removePlumbing? options

/-- As `Rewrite.apply`. -/
def Rewrite.apply? (g : Graph) : Rewrite → Option Graph
  | normalizeRelay options => g.normalizeRelay? options
  | dropDeprecated => some g.dropDeprecated

/-- As `rewrite`. -/
def rewrite? (steps : List Rewrite) : Option Graph := steps.foldlM Rewrite.apply? g

/-- As `drawnTargets`. -/
def drawnTargets? (id : TypeId) : Option (List TypeId) := do
  let n ← g.node? id
  filterMap? (fun t => (g.node? t).map fun m => if m.isDrawn then some t else none) n.targets

/-- As `reach`. -/
def reach? : Nat → Nat → List TypeId → Option (List TypeId)
  | 0, _, ids => some ids
  | limit + 1, index, ids =>
    match ids[index]? with
    | none => some ids
    | some id => do reach? limit (index + 1) (addNew ids (← g.drawnTargets? id))

/-- As `diagram`. -/
def diagram? (root : Option String) (hideRoot : Bool) : Option (Except Report Diagram) :=
  match g.diagramRoot root with
  | .error r => some (.error r)
  | .ok id => do
    let types ← g.reach? (g.nodes.length + 1) 0 [id]
    return .ok ⟨id, if hideRoot then types.filter (· != id) else types⟩

theorem filterMap?_eq_some {α β : Type} {f : α → Option (Option β)} {h : α → Option β}
    {as : List α} (hf : ∀ a ∈ as, f a = some (h a)) :
    filterMap? f as = some (as.filterMap h) := by
  rw [filterMap?, mapM_eq_some hf, Option.map_some, List.filterMap_map]
  rfl

variable {g}

theorem detect?_eq (hg : g.Resolved) {type : TypeId} (htype : type ∈ g.typeIds) :
    g.detect? type = some (g.connectionOf? type) := by
  obtain ⟨connection, hmem, hconnection⟩ := hg.node?_of_mem htype
  simp only [detect?, connectionOf?, hconnection, Option.bind_eq_bind, Option.bind_some]
  by_cases hname : (isConnectionName connection.name && connection.kind == .object) = true
  · cases hedges : connection.field? "edges" with
    | none => simp [hname]
    | some edges =>
        obtain ⟨edge, -, hedge⟩ := hg.node?_of_mem
          (mem_typeIds_of_field hmem (Node.mem_of_field? hedges) edges.type_mem_typeIds)
        by_cases hkind : edge.kind = .object
        · cases hnode : edge.field? "node" <;> simp [hname, hedge, hkind, hnode]
        · simp [hname, hedge, hkind]
  · simp [hname]

theorem connections?_eq (hg : g.Resolved) : g.connections? = some g.connections := by
  rw [connections?, filterMap?_eq_some (h := fun f => g.connectionOf? f.type)]
  · rw [connections, List.filterMap_flatMap]
  · intro f hf
    obtain ⟨n, hn, hf⟩ := List.mem_flatMap.1 hf
    exact detect?_eq hg (mem_typeIds_of_field hn hf f.type_mem_typeIds)

theorem isPlumbing?_eq (hg : g.Resolved) (options : RelayOptions) {f : Field}
    (hf : f.type ∈ g.typeIds) : g.isPlumbing? options f = some (g.isPlumbing options f) := by
  obtain ⟨n, -, hn⟩ := hg.node?_of_mem hf
  unfold isPlumbing? isPlumbing
  cases options.plumbingRootFields.contains f.name <;> simp [hn]

theorem query_mem_typeIds (g : Graph) : g.query ∈ g.typeIds :=
  List.mem_append_right _ List.mem_cons_self

theorem removePlumbing?_eq (hg : g.Resolved) (options : RelayOptions) :
    g.removePlumbing? options = some (g.removePlumbing options) := by
  obtain ⟨query, hmem, hquery⟩ := hg.node?_of_mem g.query_mem_typeIds
  have hfields : query.fields.mapM (g.isPlumbing? options)
      = some (query.fields.map (g.isPlumbing options)) := mapM_eq_some fun f hf =>
    isPlumbing?_eq hg options (mem_typeIds_of_field hmem hf f.type_mem_typeIds)
  simp [removePlumbing?, hquery, hfields]

theorem normalizeRelay?_eq (hg : g.Resolved) (options : RelayOptions) :
    g.normalizeRelay? options = some (g.normalizeRelay options) := by
  have hmarked := ((Narrows.refl g).flagRelay [nodeInterface, pageInfo]).dropNodeInterface
  have hcs := connections?_eq (hmarked.resolved hg)
  have hunwrapped := (hmarked.collapseConnections.flagRelay
    ((g.flagRelay [nodeInterface, pageInfo]).dropNodeInterface.connections.flatMap fun c =>
      [c.connection, c.edge])).unwrapEdges fun c hc => hmarked.typeIds (connections_node_mem hc)
  simp only [normalizeRelay?, hcs, Option.bind_eq_bind, Option.bind_some]
  exact removePlumbing?_eq (hunwrapped.resolved hg) options

theorem rewrite?_eq (hg : g.Resolved) (steps : List Rewrite) :
    g.rewrite? steps = some (g.rewrite steps) := by
  induction steps generalizing g with
  | nil => rfl
  | cons step steps ih =>
      have hstep : step.apply? g = some (step.apply g) := by
        cases step with
        | normalizeRelay options => exact normalizeRelay?_eq hg options
        | dropDeprecated => rfl
      rw [rewrite?, List.foldlM_cons, hstep]
      exact ih ((step.narrows g).resolved hg)

theorem Node.targets_subset {n : Node} (hn : n ∈ g.nodes) : n.targets ⊆ g.typeIds := by
  intro id hid
  refine mem_typeIds_of_node hn (Node.mem_typeIds.2 ?_)
  rw [targets, List.mem_append, List.mem_append] at hid
  rcases hid with (hid | hid) | hid
  · obtain ⟨f, hf, rfl⟩ := List.mem_map.1 hid
    exact .inl ⟨f, hf, f.type_mem_typeIds⟩
  · exact .inr (.inr (.inr (.inl hid)))
  · exact .inr (.inr (.inr (.inr hid)))

theorem drawnTargets?_eq (hg : g.Resolved) {id : TypeId} (hid : g.Has id) :
    g.drawnTargets? id = some (g.drawnTargets id) ∧ ∀ t ∈ g.drawnTargets id, g.Has t := by
  obtain ⟨n, hn, hnode⟩ := hg.node?_of_has hid
  have htargets := Node.targets_subset hn
  have hdrawn : filterMap? (fun t => (g.node? t).map fun m => if m.isDrawn then some t else none)
      n.targets = some (n.targets.filter g.draws) := by
    rw [← List.filterMap_eq_filter]
    refine filterMap?_eq_some fun t ht => ?_
    obtain ⟨m, -, hm⟩ := hg.node?_of_mem (htargets ht)
    simp [hm, draws, Option.guard]
  simp only [drawnTargets?, drawnTargets, hnode, Option.bind_eq_bind, Option.bind_some, hdrawn,
    true_and]
  exact fun t ht => hg.resolves t (htargets (List.mem_filter.1 ht).1)

/-- However far it is followed, what has been reached is there to be followed on. -/
theorem reach?_eq (hg : g.Resolved) (limit index : Nat) {ids : List TypeId}
    (hids : ∀ id ∈ ids, g.Has id) :
    g.reach? limit index ids = some (g.reach limit index ids)
      ∧ ∀ id ∈ g.reach limit index ids, g.Has id := by
  induction limit generalizing index ids with
  | zero => exact ⟨rfl, hids⟩
  | succ limit ih =>
      rw [reach?, reach]
      cases hindex : ids[index]? with
      | none => exact ⟨rfl, hids⟩
      | some id =>
          obtain ⟨htargets, hhas⟩ := drawnTargets?_eq hg (hids id (List.mem_of_getElem? hindex))
          simp only [htargets, Option.bind_eq_bind, Option.bind_some]
          -- What is followed from here on is what was known and the targets of `id`.
          refine ih (index + 1) fun t ht => ?_
          rcases mem_addNew.1 ht with ht | ht
          · exact hids t ht
          · exact hhas t ht

theorem diagramRoot_has (hg : g.Resolved) {root : Option String} {id : TypeId}
    (h : g.diagramRoot root = .ok id) : g.Has id := by
  unfold diagramRoot at h
  split at h
  · cases h
    exact hg.resolves _ g.query_mem_typeIds
  · split at h
    · next n hn =>
        cases h
        exact ⟨n, (mem_of_node? hn).1, rfl⟩
    · cases h

theorem reach?_root (hg : g.Resolved) {root : Option String} {id : TypeId}
    (h : g.diagramRoot root = .ok id) (limit : Nat) :
    g.reach? limit 0 [id] = some (g.reach limit 0 [id])
      ∧ ∀ t ∈ g.reach limit 0 [id], g.Has t := by
  have hid : ∀ t ∈ [id], g.Has t := by simpa using diagramRoot_has hg h
  exact reach?_eq hg limit 0 hid

theorem diagram?_eq (hg : g.Resolved) (root : Option String) (hideRoot : Bool) :
    g.diagram? root hideRoot = some (g.diagram root hideRoot) := by
  unfold diagram? diagram
  cases hroot : g.diagramRoot root with
  | error r => rfl
  | ok id =>
      simp only [(reach?_root hg hroot _).1, Option.bind_eq_bind, Option.bind_some]
      rfl

theorem diagram_has (hg : g.Resolved) {root : Option String} {hideRoot : Bool} {v : Diagram}
    (h : g.diagram root hideRoot = .ok v) : ∀ id ∈ v.root :: v.types, g.Has id := by
  obtain ⟨id, hroot, rfl⟩ := Except.map_ok.1 h
  have hreach := (reach?_root hg hroot (g.nodes.length + 1)).2
  intro t ht
  rcases List.mem_cons.1 ht with rfl | ht
  · exact diagramRoot_has hg hroot
  · dsimp only at ht
    split at ht
    · exact hreach t (List.mem_filter.1 ht).1
    · exact hreach t ht

/--
Whatever document a graph is of and however it is normalised, each type is
stored under its own identifier, every identifier leads to a type, and so no
operation that looks types up fails, on the way or after it. A diagram may be
followed for any number of steps.
-/
theorem references_resolve {sort : Bool} {d : Document} {g₀ g : Graph} {steps : List Rewrite}
    (hlink : ofDocument sort d = .ok g₀) (hg : g = g₀.rewrite steps) :
    (∀ n ∈ g.nodes, n.id.text = "TYPE::" ++ n.name ∧ g.node? n.id = some n
        ∧ g.type? n.id.text = some n)
      ∧ (∀ key n, g.type? key = some n → n.id.text = key)
      ∧ (∀ id ∈ g.typeIds, ∃ n, g.node? id = some n ∧ n.id = id)
      ∧ g₀.rewrite? steps = some g
      ∧ (∀ options, g.normalizeRelay? options = some (g.normalizeRelay options))
      ∧ ∀ root hideRoot, g.diagram? root hideRoot = some (g.diagram root hideRoot)
        ∧ (∀ id, g.diagramRoot root = .ok id →
          ∀ limit, g.reach? limit 0 [id] = some (g.reach limit 0 [id]))
        ∧ ∀ v, g.diagram root hideRoot = .ok v →
          ∀ id ∈ v.root :: v.types, ∃ n, g.node? id = some n := by
  have hres : g.Resolved := hg ▸ rewrite_resolved hlink steps
  refine ⟨fun n hn => ⟨rfl, hres.node?_id hn, ?_⟩, fun key n h => (type?_eq_some h).2,
    fun id hid => ?_, hg ▸ rewrite?_eq (ofDocument_resolved hlink) steps,
    fun options => normalizeRelay?_eq hres options, fun root hideRoot =>
      ⟨diagram?_eq hres root hideRoot, fun id hid limit => (reach?_root hres hid limit).1,
        fun v hv id hid => ?_⟩⟩
  · rw [type?_text, hres.node?_id hn]
  · obtain ⟨n, hn, hnode⟩ := hres.node?_of_mem hid
    exact ⟨n, hnode, (mem_of_node? hnode).2⟩
  · obtain ⟨n, -, hnode⟩ := hres.node?_of_has (diagram_has hres hv id hid)
    exact ⟨n, hnode⟩

/-- A schema with a connection, a deprecated field, an interface and a union. -/
def pagedSource : Source :=
  ⟨"paged", "interface Node{id:ID} union Any=Item type Query{a(first:Int,b:Any):ItemConnection}
type ItemConnection{edges:[E]} type E{node:Item} type Item implements Node{id:ID@deprecated}"⟩

theorem references_resolve_paged :
    ∃ d g₀, Document.load [pagedSource] = .ok (some d) ∧ ofDocument false d = .ok g₀ ∧
      ∀ id ∈ (g₀.rewrite [.normalizeRelay .standard, .dropDeprecated]).typeIds,
        ∃ n, (g₀.rewrite [.normalizeRelay .standard, .dropDeprecated]).node? id = some n
          ∧ n.id = id := by
  have hbuilt : (build .standard [pagedSource]).toOption.join.isSome = true := by
    decide +kernel
  obtain ⟨g, hg⟩ := exists_build hbuilt
  obtain ⟨d, g₀, hload, hlink, -⟩ := build_ok hg
  exact ⟨d, g₀, hload, hlink, (references_resolve hlink rfl).2.2.1⟩

end SchemaGraph.Graph
