import Mathlib.Data.List.Perm.Basic
import SchemaGraph.Proofs.Identifiers
import SchemaGraph.Proofs.Reordering

/-!
# Sorting is presentation

Sorting takes place in the middle of things: types are sorted before they are
linked, and graphs are normalised after that. Still it decides nothing but the
order in which things are listed, because every step of normalisation asks for
types and fields by their names, and as names are not repeated, it gets the same
answer in whatever order it looks. So sorting is moved past each step, and the
graph with sorting is the graph without, in another order.

That other order is the order of names as bytes. Names are compared by their
characters, but UTF-8 is made so that this is the same.
-/

namespace SchemaGraph

open Sdl

/-- The bytes of a text in UTF-8. -/
def utf8 (s : String) : List UInt8 := s.toByteArray.data.toList

theorem utf8_eq (s : String) : utf8 s = s.toList.flatMap String.utf8EncodeChar := by
  rw [utf8, ← String.utf8Encode_toList, List.utf8Encode, List.data_toByteArray]

theorem toNat_lt_of_char (c : Char) : c.val.toNat < 0x110000 := by
  rcases c.valid with h | h
  · exact Nat.lt_trans h (by decide)
  · exact h.2

/-- The bytes of a character tell already whether it is before another one. -/
theorem utf8EncodeChar_lt {c d : Char} (h : c < d) (xs ys : List UInt8) :
    String.utf8EncodeChar c ++ xs < String.utf8EncodeChar d ++ ys := by
  have hlt : c.val.toNat < d.val.toNat := h
  have hmax := toNat_lt_of_char d
  unfold String.utf8EncodeChar
  dsimp only
  generalize c.val.toNat = m at *
  generalize d.val.toNat = n at *
  -- The first byte says how many there are, and more of them are needed for later characters.
  split_ifs <;> simp (disch := omega) only [List.cons_append, List.nil_append,
    List.cons_lt_cons_iff, UInt8.lt_iff_toNat_lt, ← UInt8.toNat_inj, UInt8.toNat_ofNat',
    Nat.mod_eq_of_lt] <;> omega

theorem utf8EncodeChar_ne_nil (c : Char) : String.utf8EncodeChar c ≠ [] := by
  intro h
  have hsize := String.length_utf8EncodeChar c
  rw [h, List.length_nil] at hsize
  exact absurd c.utf8Size_pos (by omega)

theorem flatMap_utf8EncodeChar_lt {xs ys : List Char} (h : xs < ys) :
    xs.flatMap String.utf8EncodeChar < ys.flatMap String.utf8EncodeChar := by
  induction xs generalizing ys with
  | nil =>
      cases ys with
      | nil => exact absurd h (List.lt_irrefl [])
      | cons y ys =>
          obtain ⟨b, bs, hb⟩ := List.exists_cons_of_ne_nil (utf8EncodeChar_ne_nil y)
          rw [List.flatMap_cons, hb]
          exact List.nil_lt_cons b _
  | cons x xs ih =>
      cases ys with
      | nil => exact absurd h (List.not_lt_nil _)
      | cons y ys =>
          rw [List.flatMap_cons, List.flatMap_cons]
          rcases List.cons_lt_cons_iff.1 h with hlt | ⟨rfl, hlt⟩
          · exact utf8EncodeChar_lt hlt _ _
          · exact List.append_left_lt (ih hlt)

/-- Texts are in the order of their bytes. -/
theorem utf8_le {s t : String} (h : s ≤ t) : utf8 s ≤ utf8 t := by
  by_cases hlt : s < t
  · rw [utf8_eq, utf8_eq, ← List.not_lt]
    exact fun hgt => List.lt_irrefl _
      (List.lt_trans hgt (flatMap_utf8EncodeChar_lt (String.lt_iff.1 hlt)))
  · rw [String.le_antisymm h (String.not_lt.1 hlt)]
    exact List.le_refl _

/-- Entries in the order of the bytes of their keys. -/
def InByteOrder {α : Type} (key : α → String) (as : List α) : Prop :=
  as.Pairwise fun a b => utf8 (key a) ≤ utf8 (key b)

theorem sortOn_inByteOrder {α : Type} (key : α → String) (as : List α) :
    InByteOrder key (sortOn key as) := (sortOn_pairwise key as).imp utf8_le

namespace Graph

/-- Whether the arguments of a field are in order. -/
structure Field.InOrder (d : Field) : Prop where
  arguments : InByteOrder (·.name) d.arguments
  relayArguments : InByteOrder (·.name) d.relayArguments

/-- Whether all that a type lists is in order. -/
structure Node.InOrder (n : Node) : Prop where
  fields : InByteOrder (·.name) n.fields
  arguments : ∀ d ∈ n.fields, d.InOrder
  interfaces : InByteOrder (·.name) n.interfaces
  derivedTypes : InByteOrder (·.name) n.derivedTypes
  possibleTypes : InByteOrder (·.name) n.possibleTypes
  enumValues : InByteOrder (·.name) n.enumValues
  inputFields : InByteOrder (·.name) n.inputFields

/-- Whether the types of a graph are in order, and all that they list. -/
structure InOrder (g : Graph) : Prop where
  nodes : InByteOrder (·.name) g.nodes
  members : ∀ n ∈ g.nodes, n.InOrder

theorem Field.sorted_inOrder (d : Field) : d.sorted.InOrder :=
  ⟨sortOn_inByteOrder _ _, sortOn_inByteOrder _ _⟩

theorem Node.sorted_inOrder (n : Node) : n.sorted.InOrder := by
  refine ⟨sortOn_inByteOrder _ _, fun d hd => ?_, sortOn_inByteOrder _ _, sortOn_inByteOrder _ _,
    sortOn_inByteOrder _ _, sortOn_inByteOrder _ _, sortOn_inByteOrder _ _⟩
  obtain ⟨d, -, rfl⟩ := mem_sortOn_map.1 hd
  exact d.sorted_inOrder

theorem sorted_inOrder (g : Graph) : g.sorted.InOrder := by
  refine ⟨sortOn_inByteOrder _ _, fun n hn => ?_⟩
  obtain ⟨n, -, rfl⟩ := mem_sortOn_map.1 hn
  exact n.sorted_inOrder

theorem Node.field?_sorted {n : Node} (h : (n.fields.map (·.name)).Nodup) (name : String) :
    n.sorted.field? name = (n.field? name).map Field.sorted := by
  have hnames : ((n.fields.map Field.sorted).map (·.name)).Nodup := by
    rw [List.map_map]
    exact h
  exact (find?_key_perm (sortOn_perm _ _) hnames name).trans List.find?_map

section

variable {g : Graph} (hg : g.Resolved)

include hg

theorem node?_sorted (id : TypeId) : g.sorted.node? id = (g.node? id).map Node.sorted := by
  have hids : ((g.nodes.map Node.sorted).map Node.id).Nodup := by
    rw [List.map_map]
    exact hg.ids
  exact (find?_key_perm (sortOn_perm _ _) hids id).trans List.find?_map

variable (hn : g.WellNamed)

include hn

theorem connectionOf?_sorted (type : TypeId) :
    g.sorted.connectionOf? type = g.connectionOf? type := by
  simp only [connectionOf?, node?_sorted hg]
  cases hfound : g.node? type with
  | none => rfl
  | some connection =>
      have hedges := (hn connection (mem_of_node? hfound).1).once.fields
      simp only [Option.map_some, Option.bind_eq_bind, Option.bind_some, Node.field?_sorted hedges]
      congr 1
      funext _
      cases connection.field? "edges" with
      | none => rfl
      | some edges =>
          simp only [Option.map_some, Option.bind_some, Field.sorted]
          cases hedge : g.node? edges.type with
          | none => rfl
          | some edge =>
              have hnode := (hn edge (mem_of_node? hedge).1).once.fields
              simp only [Option.map_some, Option.bind_some, Node.field?_sorted hnode]
              congr 1
              funext _
              cases edge.field? "node" <;> rfl

/-- The same connections are found, but in another order. -/
theorem connections_sorted : g.sorted.connections.Perm g.connections := by
  simp only [connections, connectionOf?_sorted hg hn]
  refine ((sortOn_perm _ _).flatMap_right _).trans ?_
  rw [List.flatMap_map]
  refine .flatMap_left _ fun n _ => ((sortOn_perm _ _).filterMap _).trans ?_
  rw [List.filterMap_map]
  exact .refl _

end

/-! ## Normalising

Each step changes every type by itself, with a look at others, and sorting is moved past a
change that comes to the same on sorted types (`map_sortOn_sorted`). One look is not by
name. An edge is unwrapped to the node type of the first connection that has this edge,
and after sorting another connection may be the first one. But the node type is found from
the edge alone (`connections_edge`), so it is the same for all of them. -/

/-- Entries are changed and put in order, in whichever order. -/
theorem map_sortOn_sorted {α : Type} (key : α → String) (s : α → α) {u v : α → α} {as : List α}
    (hs : ∀ a, key (s a) = key a) (hu : ∀ a ∈ as, key (u a) = key a)
    (h : ∀ a ∈ as, v (s a) = s (u a)) :
    (sortOn key (as.map s)).map v = sortOn key ((as.map u).map s) := by
  have hkey : ∀ b ∈ as.map s, key (v b) = key b := by
    intro b hb
    obtain ⟨a, ha, rfl⟩ := List.mem_map.1 hb
    rw [h a ha, hs, hu a ha, hs]
  have hmap : (as.map s).map v = (as.map u).map s := by
    rw [List.map_map, List.map_map]
    exact List.map_congr_left h
  rw [← hmap]
  refine List.map_mergeSort fun a ha b hb => ?_
  rw [hkey a ha, hkey b hb]

section

variable {g : Graph}

theorem mapNodes_sorted {u v : Node → Node} (hu : ∀ n ∈ g.nodes, (u n).name = n.name)
    (h : ∀ n ∈ g.nodes, v n.sorted = (u n).sorted) :
    g.sorted.mapNodes v = (g.mapNodes u).sorted := by
  have hnodes := map_sortOn_sorted Node.name Node.sorted (fun _ => rfl) hu h
  exact congrArg (Graph.mk · g.query g.mutation g.subscription) hnodes

theorem Node.mapFields_sorted {n : Node} {u v : Field → Field}
    (hu : ∀ d ∈ n.fields, (u d).name = d.name) (h : ∀ d ∈ n.fields, v d.sorted = (u d).sorted) :
    ({ n.sorted with fields := n.sorted.fields.map v } : Node)
      = ({ n with fields := n.fields.map u } : Node).sorted := by
  have hfields := map_sortOn_sorted Field.name Field.sorted (fun _ => rfl) hu h
  simp only [Node.sorted, hfields]

theorem Node.filterFields_sorted {n : Node} (hn : n.WellNamed) {p q : Field → Bool}
    (h : ∀ d : Field, q d.sorted = p d) :
    ({ n.sorted with fields := n.sorted.fields.filter q } : Node)
      = ({ n with fields := n.fields.filter p } : Node).sorted := by
  have hnames : ((n.fields.map Field.sorted).map (·.name)).Nodup := by
    rw [List.map_map]
    exact hn.once.fields
  have hfilter : (n.fields.map Field.sorted).filter q = (n.fields.filter p).map Field.sorted := by
    rw [List.filter_map]
    exact congrArg _ (List.filter_congr fun d _ => h d)
  simp only [Node.sorted, sortOn_filter hnames, hfilter]

theorem flagRelay_sorted {ids ids' : List TypeId} (h : ∀ id, id ∈ ids' ↔ id ∈ ids) :
    g.sorted.flagRelay ids' = (g.flagRelay ids).sorted := by
  refine mapNodes_sorted (fun n _ => by split <;> rfl) fun n _ => ?_
  have hid : ids'.contains n.sorted.id = ids.contains n.id := by
    rw [Bool.eq_iff_iff, List.contains_iff_mem, List.contains_iff_mem]
    exact h n.id
  rw [hid]
  split <;> rfl

theorem dropNodeInterface_sorted (hn : g.WellNamed) :
    g.sorted.dropNodeInterface = g.dropNodeInterface.sorted := by
  refine mapNodes_sorted (fun _ _ => rfl) fun n hmem => ?_
  have hinterfaces := nodup_targets (hn n hmem).once.interfaces
  simp only [Node.sorted, sortOn_filter hinterfaces]

theorem Field.collapse_sorted {d : Field}
    (hd : ((d.arguments ++ d.relayArguments).map (·.name)).Nodup) (c : Connection) :
    d.sorted.collapse c = (d.collapse c).sorted := by
  have harguments : (d.arguments.map (·.name)).Nodup :=
    hd.sublist ((List.sublist_append_left _ _).map _)
  simp only [Field.collapse, Field.sorted, sortOn_filter harguments]

theorem collapseConnections_sorted (hg : g.Resolved) (hn : g.WellNamed) :
    g.sorted.collapseConnections = g.collapseConnections.sorted := by
  refine mapNodes_sorted (fun _ _ => rfl) fun n hmem => ?_
  refine Node.mapFields_sorted (fun d _ => by split <;> rfl) fun d hd => ?_
  rw [connectionOf?_sorted hg hn, show d.sorted.type = d.type from rfl]
  cases g.connectionOf? d.type with
  | none => rfl
  | some c => exact Field.collapse_sorted ((hn n hmem).once.arguments d hd) c

/-- The node type of a connection is found by its edge type alone. -/
theorem connectionOf?_edge {type : TypeId} {c : Connection} (h : g.connectionOf? type = some c) :
    ((g.node? c.edge).bind (·.field? "node")).map (·.type) = some c.node := by
  simp only [connectionOf?, Option.bind_eq_bind, Option.bind_eq_some_iff, Option.guard_eq_some',
    Option.pure_def, Option.some.injEq] at h
  obtain ⟨connection, -, -, -, edges, -, edge, hedge, -, -, node, hnode, rfl⟩ := h
  have hfound : g.node? edge.id = some edge := by rw [(mem_of_node? hedge).2, hedge]
  simp only [hfound, Option.bind_some, hnode, Option.map_some]

theorem connections_edge {c c' : Connection} (hc : c ∈ g.connections) (hc' : c' ∈ g.connections)
    (h : c.edge = c'.edge) : c.node = c'.node := by
  have hnode : ∀ {c : Connection}, c ∈ g.connections →
      ((g.node? c.edge).bind (·.field? "node")).map (·.type) = some c.node := by
    intro c hc
    obtain ⟨n, -, hc⟩ := List.mem_flatMap.1 hc
    obtain ⟨d, -, hd⟩ := List.mem_filterMap.1 hc
    exact connectionOf?_edge hd
  exact Option.some.inj ((hnode hc).symm.trans (h ▸ hnode hc'))

theorem edgeNode?_iff {cs : List Connection}
    (hcs : ∀ c ∈ cs, ∀ c' ∈ cs, c.edge = c'.edge → c.node = c'.node) {edge node : TypeId} :
    edgeNode? cs edge = some node ↔ ∃ c ∈ cs, c.edge = edge ∧ c.node = node := by
  simp only [edgeNode?, Option.map_eq_some_iff]
  refine ⟨?_, ?_⟩
  · rintro ⟨c, hc, rfl⟩
    exact ⟨c, List.mem_of_find?_eq_some hc, by simpa using List.find?_some hc, rfl⟩
  · rintro ⟨c, hc, rfl, rfl⟩
    have hsome : (cs.find? (·.edge == c.edge)).isSome :=
      List.find?_isSome.2 ⟨c, hc, beq_self_eq_true c.edge⟩
    obtain ⟨c', hfound⟩ := Option.isSome_iff_exists.1 hsome
    refine ⟨c', hfound, hcs c' (List.mem_of_find?_eq_some hfound) c hc ?_⟩
    simpa using List.find?_some hfound

/-- It makes no difference which of the connections with one edge is found first. -/
theorem edgeNode?_connections {cs : List Connection} (h : cs.Perm g.connections) (edge : TypeId) :
    edgeNode? cs edge = edgeNode? g.connections edge := by
  refine Option.ext fun node => ?_
  rw [edgeNode?_iff fun c hc c' hc' => connections_edge (h.mem_iff.1 hc) (h.mem_iff.1 hc'),
    edgeNode?_iff fun c hc c' hc' => connections_edge hc hc']
  simp only [h.mem_iff]

theorem unwrapEdges_sorted {cs cs' : List Connection}
    (h : ∀ edge, edgeNode? cs' edge = edgeNode? cs edge) :
    g.sorted.unwrapEdges cs' = (g.unwrapEdges cs).sorted := by
  refine mapNodes_sorted (fun _ _ => rfl) fun n _ => ?_
  refine Node.mapFields_sorted (fun d _ => by split <;> rfl) fun d _ => ?_
  rw [h, show d.sorted.type = d.type from rfl]
  cases edgeNode? cs d.type <;> rfl

theorem isPlumbing_sorted (hg : g.Resolved) (options : RelayOptions) (d : Field) :
    g.sorted.isPlumbing options d.sorted = g.isPlumbing options d := by
  have hflag : ((g.node? d.type).map Node.sorted).any (·.isRelay)
      = (g.node? d.type).any (·.isRelay) := by
    cases g.node? d.type <;> rfl
  rw [isPlumbing, node?_sorted hg, show d.sorted.type = d.type from rfl, hflag]
  rfl

theorem removePlumbing_sorted (hg : g.Resolved) (hn : g.WellNamed) (options : RelayOptions) :
    g.sorted.removePlumbing options = (g.removePlumbing options).sorted := by
  refine mapNodes_sorted (fun n _ => by split <;> rfl) fun n hmem => ?_
  by_cases hquery : n.id = g.query
  · rw [if_pos hquery, if_pos (show n.sorted.id = g.sorted.query from hquery)]
    exact Node.filterFields_sorted (hn n hmem) fun d => isPlumbing_sorted hg options d ▸ rfl
  · rw [if_neg hquery, if_neg (show ¬ n.sorted.id = g.sorted.query from hquery)]

theorem normalizeRelay_sorted (hg : g.Resolved) (hn : g.WellNamed) (options : RelayOptions) :
    g.sorted.normalizeRelay options = (g.normalizeRelay options).sorted := by
  -- Each step is taken on a graph that is still resolved and well named.
  have hmarked := ((Narrows.refl g).flagRelay [nodeInterface, pageInfo]).dropNodeInterface
  have hgm := hmarked.resolved hg
  have hcomes := ((ComesFrom.refl g).flagRelay [nodeInterface, pageInfo]).dropNodeInterface
  have hnm := hn.comesFrom hcomes
  have hflagged := (hmarked.collapseConnections).flagRelay
    ((g.flagRelay [nodeInterface, pageInfo]).dropNodeInterface.connections.flatMap
      fun c => [c.connection, c.edge])
  have hunwrapped := hflagged.unwrapEdges fun c hc => hmarked.typeIds (connections_node_mem hc)
  have hperm := connections_sorted hgm hnm
  have hids := fun id => (hperm.flatMap_right fun c => [c.connection, c.edge]).mem_iff (a := id)
  rw [normalizeRelay, flagRelay_sorted fun _ => .rfl,
    dropNodeInterface_sorted (hn.comesFrom ((ComesFrom.refl g).flagRelay _)),
    collapseConnections_sorted hgm hnm, flagRelay_sorted hids,
    unwrapEdges_sorted (edgeNode?_connections hperm),
    removePlumbing_sorted (hunwrapped.resolved hg)
      (hn.comesFrom ((hcomes.collapseConnections.flagRelay _).unwrapEdges _))]
  rfl

theorem Rewrite.apply_sorted (hg : g.Resolved) (hn : g.WellNamed) (step : Rewrite) :
    step.apply g.sorted = (step.apply g).sorted := by
  cases step with
  | normalizeRelay options => exact normalizeRelay_sorted hg hn options
  | dropDeprecated =>
      exact mapNodes_sorted (fun _ _ => rfl) fun n hmem =>
        Node.filterFields_sorted (hn n hmem) fun _ => rfl

end

theorem rewrite_sorted {g : Graph} (hg : g.Resolved) (hn : g.WellNamed) (steps : List Rewrite) :
    g.sorted.rewrite steps = (g.rewrite steps).sorted := by
  induction steps generalizing g with
  | nil => rfl
  | cons step steps ih =>
      have hstep := ih ((step.narrows g).resolved hg) (hn.comesFrom ((ComesFrom.refl g).apply step))
      rw [← Rewrite.apply_sorted hg hn] at hstep
      exact hstep

theorem normalize_sorted (options : Options) {sources : List Source} {d : Document}
    (hload : Document.load sources = .ok (some d)) {g : Graph}
    (hg : ofDefinitions false d.definitions = .ok g) :
    g.sorted.normalize options = (g.normalize options).sorted := by
  have hlink : ofDocument false d = .ok g := ofDocument_eq false d ▸ hg
  have hn : g.WellNamed := fun n hn =>
    ⟨ofDocument_namesOnce hlink n hn, (ofDocument_isName hload hlink n hn).plain⟩
  rw [normalize_eq_rewrite, normalize_eq_rewrite,
    rewrite_sorted (ofDocument_resolved hlink) hn]

/--
Two runs that differ in sorting only both fail, or both find no sources, or both
have a graph; and then the sorted graph is the other one with its types and all
that they list in another order, which is the order of names as bytes.
-/
theorem build_sorted (options : Options) (sources : List Source) (r : Option Graph) :
    build { options with sortByAlphabet := true } sources = .ok r ↔
      ∃ r₀, build { options with sortByAlphabet := false } sources = .ok r₀
        ∧ r = r₀.map Graph.sorted ∧ ∀ g ∈ r, g.InOrder := by
  refine ⟨?_, ?_⟩
  · intro hr
    cases r with
    | none =>
        rw [build_none_iff] at hr
        exact ⟨none, build_none_iff.2 hr, rfl, fun _ hg => absurd hg (Option.not_mem_none _)⟩
    | some g =>
        obtain ⟨d, -, hload, -, -⟩ := build_ok hr
        obtain ⟨g₁, hg₁, rfl⟩ := (build_some_iff hload).1 hr
        obtain ⟨g₀, hg₀, rfl⟩ := ofDefinitions_sorted.1 hg₁
        have hsorted := normalize_sorted options hload hg₀
        refine ⟨some (g₀.normalize options), (build_some_iff hload).2 ⟨g₀, hg₀, rfl⟩,
          congrArg some hsorted, ?_⟩
        rintro g ⟨⟩
        exact hsorted ▸ sorted_inOrder _
  · rintro ⟨r₀, hr₀, rfl, -⟩
    cases r₀ with
    | none => exact build_none_iff.2 (build_none_iff.1 hr₀)
    | some g =>
        obtain ⟨d, -, hload, -, -⟩ := build_ok hr₀
        obtain ⟨g₀, hg₀, rfl⟩ := (build_some_iff hload).1 hr₀
        have hsorted := normalize_sorted options hload hg₀
        exact (build_some_iff hload).2 ⟨g₀.sorted, ofDefinitions_sorted.2 ⟨g₀, hg₀, rfl⟩,
          hsorted.symm⟩

end Graph

end SchemaGraph
