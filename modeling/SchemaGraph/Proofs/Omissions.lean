import SchemaGraph.Proofs.Linking
import SchemaGraph.Proofs.Rewriting

/-!
# Options only leave fields out

Two runs on the same sources that differ in what is left out go the same way up to
the linked graph, and only then does one of them normalise. Since a type is changed
in one step, field by field, what is left of it can be compared with what it was
directly: every field is there, rewritten, unless it is one of those to be left out.

Which these are is said of the graph that is made, where the decision was taken on a
graph that still had all fields. The two agree because fields play no part in it:
both have the same types with the same flags.
-/

namespace SchemaGraph

/-- The same options, but with nothing left out. -/
def Options.plain (o : Options) : Options :=
  { o with skipRelayPattern := false, skipDeprecatedFields := false }

namespace Graph

section

variable (o : Options) (g : Graph)

/-- A type as the options have it rewritten, with all its fields. -/
def Node.changed (n : Node) : Node := if o.skipRelayPattern then n.rewritten g else n

/-- A field as the options have it rewritten. -/
def Field.changed (f : Field) : Field := if o.skipRelayPattern then f.rewritten g else f

/--
Whether a field of a type is left out of the graph, given as it would be there: it is
deprecated, or it is one of the query root that only serves the conventions.
-/
def Omits (n : Node) (f : Field) : Prop :=
  (o.skipDeprecatedFields = true ∧ f.deprecation.isSome = true)
    ∨ (o.skipRelayPattern = true ∧ n.id = g.query
      ∧ ((f.name ∈ o.relay.plumbingRootFields ∧ ∃ t ∈ g.nodes, t.id = f.type ∧ t.isRelay = true)
        ∨ (o.relay.removeSelfReferencingRootFields = true ∧ f.type = g.query)))

instance (n : Node) (f : Field) : Decidable (g.Omits o n f) :=
  inferInstanceAs (Decidable (_ ∨ _))

/-- A type without the fields that are left out of the graph. -/
def Node.reduced (n : Node) : Node :=
  { n with fields := n.fields.filter fun f => !decide (g.Omits o n f) }

end

variable {o : Options} {g : Graph}

theorem Node.changed_eq (o : Options) (g : Graph) (n : Node) :
    ∃ relay interfaces, n.changed o g =
      { n with
        isRelay := relay
        interfaces := interfaces
        fields := n.fields.map (Field.changed o g) } := by
  unfold Node.changed Field.changed
  cases o.skipRelayPattern with
  | true => exact ⟨_, _, rfl⟩
  | false => exact ⟨n.isRelay, n.interfaces, by simp⟩

theorem Node.changed_name (o : Options) (g : Graph) (n : Node) :
    (n.changed o g).name = n.name := by
  obtain ⟨_, _, h⟩ := n.changed_eq o g
  rw [h]

theorem node?_any_isRelay (hg : (g.nodes.map Node.id).Nodup) (id : TypeId) :
    (g.node? id).any (·.isRelay) = true ↔ ∃ t ∈ g.nodes, t.id = id ∧ t.isRelay = true := by
  constructor
  · intro h
    obtain ⟨t, ht, hrelay⟩ := Option.any_eq_true _ _ |>.1 h
    exact ⟨t, (mem_of_node? ht).1, (mem_of_node? ht).2, hrelay⟩
  · rintro ⟨t, ht, rfl, hrelay⟩
    rw [node?, find?_key hg ht]
    exact hrelay

theorem decide_omits (hg : (g.nodes.map Node.id).Nodup) (n : Node) (f : Field) :
    decide (g.Omits o n f) = ((o.skipDeprecatedFields && f.deprecation.isSome)
      || (o.skipRelayPattern && decide (n.id = g.query) && g.isPlumbing o.relay f)) := by
  rw [Bool.eq_iff_iff, decide_eq_true_iff, Omits, ← node?_any_isRelay hg]
  simp [isPlumbing, and_assoc]

/-- What is left out depends on the flags of a graph and on its query root only. -/
theorem omits_mapNodes {u : Node → Node} (hname : ∀ n, (u n).name = n.name)
    (hrelay : ∀ n, (u n).isRelay = n.isRelay) {n n' : Node} (hn : n'.name = n.name) (f : Field) :
    (g.mapNodes u).Omits o n' f ↔ g.Omits o n f := by
  simp only [Omits, mapNodes, List.mem_map, exists_exists_and_eq_and, Node.id, hname, hrelay, hn]

theorem mapNodes_id (g : Graph) : g.mapNodes id = g := by
  rw [mapNodes, List.map_id]

theorem plumbingOmitted_eq (o : Options) (g : Graph) :
    (if o.skipRelayPattern then g.normalizeRelay o.relay else g)
      = (g.mapNodes (Node.changed o g)).mapNodes fun n =>
        { n with
          fields := n.fields.filter fun f => !(o.skipRelayPattern && decide (n.id = g.query)
            && (g.mapNodes (Node.changed o g)).isPlumbing o.relay f) } := by
  unfold Node.changed
  cases o.skipRelayPattern with
  | false =>
      simp only [Bool.false_and, Bool.not_false, List.filter_true, Bool.false_eq_true, if_false]
      exact ((mapNodes_id _).trans (mapNodes_id g)).symm
  | true =>
      rw [if_pos rfl, normalizeRelay_eq, removePlumbing]
      refine congrArg (fun u => (g.mapNodes _).mapNodes u) (funext fun n => ?_)
      split
      · next hquery => simp [show n.id = g.query from hquery]
      · next hquery => simp [show ¬ n.id = g.query from hquery]

theorem deprecatedOmitted_eq (o : Options) (g : Graph) :
    (if o.skipDeprecatedFields then g.dropDeprecated else g)
      = g.mapNodes fun n =>
        { n with
          fields := n.fields.filter fun f =>
            !(o.skipDeprecatedFields && f.deprecation.isSome) } := by
  cases o.skipDeprecatedFields with
  | false =>
      simp only [Bool.false_and, Bool.not_false, List.filter_true, Bool.false_eq_true, if_false]
      exact (mapNodes_id g).symm
  | true => simp [dropDeprecated]

/-- Both ways in which fields are left out at once. -/
theorem normalize_eq (hg : (g.nodes.map Node.id).Nodup) :
    g.normalize o = (g.mapNodes (Node.changed o g)).mapNodes
      (Node.reduced o (g.mapNodes (Node.changed o g))) := by
  have hids : ((g.mapNodes (Node.changed o g)).nodes.map Node.id).Nodup := by
    have hid : ∀ n ∈ g.nodes, (Node.id ∘ Node.changed o g) n = n.id :=
      fun n _ => congrArg TypeId.mk (Node.changed_name o g n)
    rwa [mapNodes, List.map_map, List.map_congr_left hid]
  rw [normalize, plumbingOmitted_eq, deprecatedOmitted_eq, mapNodes_mapNodes]
  refine congrArg (fun u => (g.mapNodes (Node.changed o g)).mapNodes u) (funext fun n => ?_)
  simp only [Node.reduced, decide_omits hids, Bool.not_or, List.filter_filter]
  rfl

/-- What stays the same of a field, in a type and in what becomes of it. -/
structure Node.KeepsField (n n' : Node) (f f' : Field) : Prop where
  id : Id.field n'.name f'.name = Id.field n.name f.name
  name : f'.name = f.name
  description : f'.description = f.description
  deprecation : f'.deprecation = f.deprecation
  location : f'.location = f.location
  arguments : f'.arguments.Sublist f.arguments
  relayArguments : f'.relayArguments.Sublist f.arguments
  inputs : (n'.argumentsById f').Perm (n.argumentsById f)
  unpaged : f.relayArguments = []

/-- What stays the same of a type in the graph `g`, and which of its fields are in it. -/
structure Node.Reduces (n : Node) (o : Options) (g₀ g : Graph) (n' : Node) : Prop where
  name : n'.name = n.name
  kind : n'.kind = n.kind
  description : n'.description = n.description
  location : n'.location = n.location
  derivedTypes : n'.derivedTypes = n.derivedTypes
  possibleTypes : n'.possibleTypes = n.possibleTypes
  enumValues : n'.enumValues = n.enumValues
  inputFields : n'.inputFields = n.inputFields
  fields : n'.fields = (n.fields.map (Field.changed o g₀)).filter fun f => !decide (g.Omits o n' f)
  kept : ∀ f ∈ n.fields, n.KeepsField n' f (f.changed o g₀)

/-- The graph `g` is `g₀`, type by type, without the fields that the options leave out. -/
structure Reduces (g₀ : Graph) (o : Options) (g : Graph) : Prop where
  query : g.query = g₀.query
  mutation : g.mutation = g₀.mutation
  subscription : g.subscription = g₀.subscription
  nodes : List.Forall₂ (Node.Reduces · o g₀ g ·) g₀.nodes g.nodes

section

variable {n n' : Node} (hname : n'.name = n.name) {f : Field} (hf : f.relayArguments = [])

include hname hf

theorem Node.KeepsField.refl : n.KeepsField n' f f where
  id := by rw [hname]
  name := rfl
  description := rfl
  deprecation := rfl
  location := rfl
  arguments := List.Sublist.refl _
  relayArguments := hf ▸ List.nil_sublist _
  inputs := by rw [argumentsById, hname]; rfl
  unpaged := hf

theorem Node.KeepsField.collapse (c : Connection) : n.KeepsField n' f (f.collapse c) where
  id := by rw [hname]; rfl
  name := rfl
  description := rfl
  deprecation := rfl
  location := rfl
  arguments := List.filter_sublist
  relayArguments := List.filter_sublist
  inputs := by
    rw [argumentsById, argumentsById, hname, hf, List.append_nil]
    refine List.Perm.map _ ?_
    exact List.perm_append_comm.trans (List.filter_append_perm _ _)
  unpaged := hf

end

theorem Node.KeepsField.throughEdge {n n' : Node} {f f' : Field} (h : n.KeepsField n' f f')
    (node : TypeId) : n.KeepsField n' f (f'.throughEdge node) :=
  ⟨h.id, h.name, h.description, h.deprecation, h.location, h.arguments, h.relayArguments,
    h.inputs, h.unpaged⟩

theorem Node.keepsField_changed {n n' : Node} (hname : n'.name = n.name) {f : Field}
    (hf : f.relayArguments = []) (o : Options) (g : Graph) :
    n.KeepsField n' f (f.changed o g) := by
  have hcollapsed : n.KeepsField n' f (f.collapsed g) := by
    unfold Field.collapsed
    split
    · exact .collapse hname hf _
    · exact .refl hname hf
  unfold Field.changed
  split
  · unfold Field.rewritten
    split
    · exact hcollapsed.throughEdge _
    · exact hcollapsed
  · exact .refl hname hf

theorem Node.reduces {n : Node} (hn : ∀ f ∈ n.fields, f.relayArguments = []) (o : Options)
    (g₀ g₁ : Graph) :
    n.Reduces o g₀ (g₁.mapNodes (Node.reduced o g₁)) ((n.changed o g₀).reduced o g₁) := by
  have homits : ∀ f, (g₁.mapNodes (Node.reduced o g₁)).Omits o ((n.changed o g₀).reduced o g₁) f
      ↔ g₁.Omits o (n.changed o g₀) f :=
    omits_mapNodes (u := Node.reduced o g₁) (fun _ => rfl) (fun _ => rfl) rfl
  have hname : ((n.changed o g₀).reduced o g₁).name = n.name := n.changed_name o g₀
  obtain ⟨relay, interfaces, hchanged⟩ := n.changed_eq o g₀
  constructor
  case fields =>
      simp only [homits]
      rw [Node.reduced, hchanged]
  case kept => exact fun f hf => keepsField_changed hname (hn f hf) o g₀
  all_goals rw [Node.reduced, hchanged]

/-- A graph whose connections are not collapsed yet is normalised by leaving fields out. -/
theorem normalize_reduces {g : Graph} (hids : (g.nodes.map Node.id).Nodup)
    (hunpaged : ∀ n ∈ g.nodes, ∀ f ∈ n.fields, f.relayArguments = []) (o : Options) :
    g.Reduces o (g.normalize o) := by
  rw [normalize_eq hids]
  refine ⟨rfl, rfl, rfl, ?_⟩
  change List.Forall₂ _ g.nodes ((g.nodes.map _).map _)
  rw [List.map_map, List.forall₂_map_right_iff, List.forall₂_same]
  exact fun n hn => Node.reduces (hunpaged n hn) o g _

theorem linked_unpaged {c : Catalog} :
    ∀ n ∈ c.linked.nodes, ∀ f ∈ n.fields, f.relayArguments = [] := by
  intro n hn f hf
  obtain ⟨e, -, rfl⟩ := List.mem_map.1 hn
  obtain ⟨field, -, rfl⟩ := List.mem_map.1 hf
  rfl

theorem build_eq_map (o : Options) (sources : List Source) :
    build o sources = (build o.plain sources).map (Option.map (normalize o)) := by
  unfold build
  split
  · rfl
  · rfl
  · simp only [show o.plain.sortByAlphabet = o.sortByAlphabet from rfl]
    split
    · rfl
    · rfl

/--
Whatever is to be left out, the same sources make up a graph, and the same report is
given on those that do not. The graph has the types it has with nothing left out,
and each type has those of its fields that are not left out.
-/
theorem build_reduces (o : Options) (sources : List Source) :
    match build o.plain sources with
    | .error r => build o sources = .error r
    | .ok none => build o sources = .ok none
    | .ok (some g₀) => ∃ g, build o sources = .ok (some g) ∧ g₀.Reduces o g := by
  cases h : build o.plain sources with
  | error r => rw [build_eq_map, h]; rfl
  | ok g? =>
      cases g? with
      | none => rw [build_eq_map, h]; rfl
      | some g₀ =>
          obtain ⟨d, g₁, -, hlink, rfl⟩ := build_ok h
          obtain ⟨s, -, hlinked⟩ := ofDocument_ok hlink
          obtain ⟨-, rfl⟩ := Catalog.link_iff.1 hlinked
          rw [build_eq_map, h]
          exact ⟨_, rfl, normalize_reduces (ofDocument_resolved hlink).ids linked_unpaged o⟩

example : (build .standard [⟨"root", "interface Node{id:ID} type Query{node:Node me:Query
old:Int@deprecated new:Int}"⟩]).toOption.join.map (·.nodes.map fun n => n.fields.map (·.name))
    = some [["id"], ["new"], [], [], [], [], []] := by
  decide +kernel

end Graph

end SchemaGraph
