import Mathlib.Data.List.Perm.Subperm
import SchemaGraph.Proofs.Addresses
import SchemaGraph.Proofs.Reordering

/-!
# What more sources add

Sources may be added behind those that there are. They can extend any type, implement any
interface and declare what was built in, so little of a schema is settled before its last
source has been read. Still nothing that was in the graph is lost: a type shows its own
definition and then its extensions in order, and the new ones come last.

All lists of a type only grow, at the end or, where the types that implement an interface
are listed, also in between. Sorting moves the new entries among the old ones but leaves
the order of the old ones as it is. What is not a type has no lists that could grow, and
stays what it was.
-/

namespace SchemaGraph

open Sdl

section

variable {μ : Type} (ds es : List (Definition μ))

theorem declared_append : declared (ds ++ es) = declared ds ++ declared es :=
  List.filterMap_append

theorem extensionsOf_append (name : String) :
    extensionsOf (ds ++ es) name = extensionsOf ds name ++ extensionsOf es name := by
  simp only [extensionsOf, List.filterMap_append, List.filter_append]

theorem parts_append (d : TypeDef μ) :
    parts (ds ++ es) d = parts ds d ++ extensionsOf es d.name := by
  rw [parts, parts, extensionsOf_append, List.cons_append]

theorem flatMap_parts_append {α : Type} (part : TypeDef μ → List α) (d : TypeDef μ) :
    (parts (ds ++ es) d).flatMap part
      = (parts ds d).flatMap part ++ (extensionsOf es d.name).flatMap part := by
  rw [parts_append, List.flatMap_append]

theorem implementing_sublist (interface : String) :
    (implementing ds interface).Sublist (implementing (ds ++ es) interface) := by
  unfold implementing
  rw [declared_append, List.filter_append]
  refine ((List.monotone_filter_right _ fun d hd => ?_).trans
    (List.sublist_append_left _ _)).map _
  rw [parts_append, List.any_append, hd, Bool.true_or]

end

namespace Graph

/--
Whether a type has grown: it may list more than before, but what was listed is as it was,
and in the order in which it was.
-/
structure Node.Grows (n n' : Node) : Prop where
  name : n'.name = n.name
  kind : n'.kind = n.kind
  fields : n.fields.Sublist n'.fields
  interfaces : n.interfaces.Sublist n'.interfaces
  derivedTypes : n.derivedTypes.Sublist n'.derivedTypes
  possibleTypes : n.possibleTypes.Sublist n'.possibleTypes
  enumValues : n.enumValues.Sublist n'.enumValues
  inputFields : n.inputFields.Sublist n'.inputFields

theorem Node.bare_grows (name : String) (description description' : Option String)
    (location location' : Option Location) :
    (Node.bare name description location).Grows (.bare name description' location') :=
  ⟨rfl, rfl, .refl _, .refl _, .refl _, .refl _, .refl _, .refl _⟩

section

variable (ds es : List (Definition Location))

theorem Node.image_grows (d : TypeDef Location) :
    (Node.image ds d).Grows (.image (ds ++ es) d) := by
  -- Members are listed part by part, names without repetitions.
  have hmembers : ∀ {α β : Type} (part : TypeDef Location → List α) (f : α → β),
      (((parts ds d).flatMap part).map f).Sublist (((parts (ds ++ es) d).flatMap part).map f) := by
    intro α β part f
    rw [flatMap_parts_append]
    exact (List.sublist_append_left _ _).map f
  have hnames : ∀ part : TypeDef Location → List String,
      (((parts ds d).flatMap part).eraseDups.map TypeId.mk).Sublist
        (((parts (ds ++ es) d).flatMap part).eraseDups.map TypeId.mk) := by
    intro part
    rw [flatMap_parts_append]
    exact (eraseDups_append_sublist _ _).map _
  refine ⟨rfl, rfl, hmembers _ _, hnames _, ?_, hnames _, hmembers _ _, hmembers _ _⟩
  unfold Node.image
  dsimp only
  split
  · exact (implementing_sublist ds es d.name).map _
  · exact .refl _

theorem declaredNode_grows (d : TypeDef Location) :
    (declaredNode ds d).Grows (declaredNode (ds ++ es) d) := by
  unfold declaredNode
  split
  · exact Node.bare_grows _ _ _ _ _
  · exact Node.image_grows ds es d

theorem mem_declaredNodes {n : Node} :
    n ∈ declaredNodes ds ↔
      (∃ d ∈ declared ds, isIntrospective d.name = false ∧ declaredNode ds d = n)
        ∨ ∃ name ∈ undeclaredScalars ds, .bare name none none = n := by
  simp [declaredNodes, and_assoc]

/-- A scalar that is built in may be declared later on, which makes nothing else of it. -/
theorem declaredNodes_grow :
    ∀ n ∈ declaredNodes ds, ∃ n' ∈ declaredNodes (ds ++ es), n.Grows n' := by
  intro n hn
  rcases (mem_declaredNodes ds).1 hn with ⟨d, hd, hshown, rfl⟩ | ⟨name, hname, rfl⟩
  · refine ⟨_, (mem_declaredNodes _).2 (.inl ⟨d, ?_, hshown, rfl⟩), declaredNode_grows ds es d⟩
    rw [declared_append]
    exact List.mem_append_left _ hd
  · have hbuiltin : name ∈ builtinScalars := (List.mem_filter.1 hname).1
    by_cases hdeclared : name ∈ (declared (ds ++ es)).map (·.name)
    · obtain ⟨d, hd, rfl⟩ := List.mem_map.1 hdeclared
      refine ⟨_, (mem_declaredNodes _).2 (.inl ⟨d, hd, isIntrospective_builtin hbuiltin, rfl⟩), ?_⟩
      rw [declaredNode, if_pos hbuiltin]
      exact Node.bare_grows _ _ _ _ _
    · refine ⟨_, (mem_declaredNodes _).2 (.inr ⟨name, ?_, rfl⟩), Node.bare_grows _ _ _ _ _⟩
      exact List.mem_filter.2 ⟨hbuiltin, by simpa using hdeclared⟩

end

theorem Node.Grows.sorted {n n' : Node} (h : n.Grows n') (honce : n'.NamesOnce) :
    n.sorted.Grows n'.sorted where
  name := h.name
  kind := h.kind
  fields := by
    refine sortOn_sublist (h.fields.map Field.sorted) ?_
    rw [List.map_map]
    exact honce.fields
  interfaces := sortOn_sublist h.interfaces (nodup_targets honce.interfaces)
  derivedTypes := sortOn_sublist h.derivedTypes (nodup_targets honce.derivedTypes)
  possibleTypes := sortOn_sublist h.possibleTypes (nodup_targets honce.possibleTypes)
  enumValues := sortOn_sublist h.enumValues honce.enumValues
  inputFields := sortOn_sublist h.inputFields honce.inputFields

/-- Whether each type of a graph is there in another one too, and may have grown. -/
def Grows (g g' : Graph) : Prop := ∀ n ∈ g.nodes, ∃ n' ∈ g'.nodes, n.Grows n'

theorem ofDocument_grows {sort : Bool} {d d' : Document} {es : List (Definition Location)}
    (hmore : d'.definitions = d.definitions ++ es) {g g' : Graph}
    (h : ofDocument sort d = .ok g) (h' : ofDocument sort d' = .ok g') : g.Grows g' := by
  have hplain : ∀ {g g' : Graph}, ofDocument false d = .ok g → ofDocument false d' = .ok g' →
      g.Grows g' := by
    intro g g' h h'
    rw [Grows, ofDocument_nodes h, ofDocument_nodes h', hmore]
    exact declaredNodes_grow d.definitions es
  cases sort with
  | false => exact hplain h h'
  | true =>
      rw [ofDocument_eq, ofDefinitions_sorted] at h h'
      obtain ⟨g₀, h, rfl⟩ := h
      obtain ⟨g₀', h', rfl⟩ := h'
      rw [← ofDocument_eq] at h h'
      intro n hn
      obtain ⟨n, hmem, rfl⟩ := List.mem_map.1 ((sortOn_perm _ _).mem_iff.1 hn)
      obtain ⟨n', hn', hgrows⟩ := hplain h h' n hmem
      exact ⟨n'.sorted, (sortOn_perm _ _).mem_iff.2 (List.mem_map_of_mem hn'),
        hgrows.sorted (ofDocument_namesOnce h' n' hn')⟩

/-- Whether an entity is as it was, except that a type may have grown. -/
inductive Entity.Grows : Entity → Entity → Prop
  | type {n n' : Node} (grows : n.Grows n') : Grows (.type n) (.type n')
  | field (owner : String) (f : Field) : Grows (.field owner f) (.field owner f)
  | input (i : Input) : Grows (.input i) (.input i)
  | relation (target : TypeId) : Grows (.relation target) (.relation target)

/-- What belongs to a type belongs to it, under the same identifier, when it has grown. -/
theorem Node.Grows.owns {n n' : Node} (h : n.Grows n') {key : String} {e : Entity}
    (he : n.Owns key e) : ∃ e', n'.Owns key e' ∧ e.Grows e' := by
  cases he with
  | type =>
      have hid : n'.id = n.id := congrArg TypeId.mk h.name
      exact ⟨_, hid ▸ .type, .type h⟩
  | field member =>
      rw [← h.name]
      exact ⟨_, .field (h.fields.subset member), .field _ _⟩
  | argument member argument =>
      rw [← h.name]
      exact ⟨_, .argument (h.fields.subset member) argument, .input _⟩
  | inputField member =>
      rw [← h.name]
      exact ⟨_, .inputField (h.inputFields.subset member), .input _⟩
  | interface member =>
      rw [← h.name]
      exact ⟨_, .interface (h.interfaces.subset member), .relation _⟩
  | derivedType member =>
      rw [← h.name]
      exact ⟨_, .derivedType (h.derivedTypes.subset member), .relation _⟩
  | possibleType member =>
      rw [← h.name]
      exact ⟨_, .possibleType (h.possibleTypes.subset member), .relation _⟩

theorem mem_identifiers {g : Graph} {key : String} :
    key ∈ g.identifiers ↔ ∃ n ∈ g.nodes, ∃ e, n.Owns key e := by
  simp only [identifiers, List.mem_flatMap, ← Node.map_fst_entities, List.mem_map, Prod.exists,
    exists_and_right, exists_eq_right, Node.mem_entities]

/-- The document of more sources starts with that of the first ones. -/
theorem exists_load_append {sources more : List Source} {d d' : Document}
    (h : Document.load sources = .ok (some d))
    (h' : Document.load (sources ++ more) = .ok (some d')) :
    ∃ es, d'.definitions = d.definitions ++ es := by
  have hread := Document.readAll_iff.1 (Document.load_iff.1 h).2
  have hread' := Document.readAll_iff.1 (Document.load_iff.1 h').2
  have hfirst := (List.forall₂_take_append _ _ _ hread'.flip).flip
  have hsame : d'.fragments.take sources.length = d.fragments := by
    have hok := Document.readAll_iff.2 hfirst
    rw [Document.readAll_iff.2 hread] at hok
    exact (Except.ok.inj hok).symm
  refine ⟨(d'.fragments.drop sources.length).flatMap Fragment.located, ?_⟩
  rw [Document.definitions, Document.definitions, ← hsame, ← List.flatMap_append,
    List.take_append_drop]

/--
If more sources are added behind those that make up a graph, and there still is a graph, then
every identifier leads to what it led to before, except that a type may have grown: it is of
the kind that it was, and all that it listed is listed as it was and in the same order.
-/
theorem build_grows {options options' : Options} {sources more : List Source} {g g' : Graph}
    (h : build options sources = .ok (some g))
    (h' : build options' (sources ++ more) = .ok (some g'))
    (hsort : options'.sortByAlphabet = options.sortByAlphabet)
    (hrelay : options.skipRelayPattern = false) (hrelay' : options'.skipRelayPattern = false)
    (hdeprecated : options.skipDeprecatedFields = false)
    (hdeprecated' : options'.skipDeprecatedFields = false) :
    (∀ key ∈ g.identifiers, key ∈ g'.identifiers
        ∧ ∃ e e', g.entity? key = some e ∧ g'.entity? key = some e' ∧ e.Grows e')
      ∧ ∀ n ∈ g.nodes, ∃ n' ∈ g'.nodes, n.Grows n' := by
  obtain ⟨d, g₀, hload, hlink, rfl⟩ := build_ok h
  obtain ⟨d', g₀', hload', hlink', rfl⟩ := build_ok h'
  have hplain : g₀.normalize options = g₀ := by simp [normalize, hrelay, hdeprecated]
  have hplain' : g₀'.normalize options' = g₀' := by simp [normalize, hrelay', hdeprecated']
  rw [hplain, hplain']
  obtain ⟨es, hmore⟩ := exists_load_append hload hload'
  have hgrows : g₀.Grows g₀' := ofDocument_grows hmore hlink (hsort ▸ hlink')
  have haddressed : g₀.Addressed := rewrite_addressed hload hlink []
  have haddressed' : g₀'.Addressed := rewrite_addressed hload' hlink' []
  refine ⟨fun key hkey => ?_, hgrows⟩
  obtain ⟨n, hn, e, he⟩ := mem_identifiers.1 hkey
  obtain ⟨n', hn', hgrown⟩ := hgrows n hn
  obtain ⟨e', he', hsame⟩ := hgrown.owns he
  exact ⟨mem_identifiers.2 ⟨n', hn', e', he'⟩, e, e', haddressed.entity?_eq_some.2 ⟨n, hn, he⟩,
    haddressed'.entity?_eq_some.2 ⟨n', hn', he'⟩, hsame⟩

/-- An interface and a type that implements it. -/
def smallSources : List Source :=
  [⟨"base", "interface N{a:Int} type Query implements N{a:Int b(c:Int=1):U} union U=Query"⟩]

/-- Another implementing type, an earlier field, a built-in scalar and a root. -/
def addedSources : List Source :=
  [⟨"more", "type A implements N{a:ID} scalar Int extend type Query{a0:A} extend union U=A
    extend schema{mutation:A query:Query}"⟩]

theorem build_grows_added :
    ∃ g g', build ⟨true, false, false, none, false, .standard⟩ smallSources = .ok (some g)
      ∧ build ⟨true, false, false, none, true, .standard⟩ (smallSources ++ addedSources)
        = .ok (some g')
      ∧ ∀ n ∈ g.nodes, ∃ n' ∈ g'.nodes, n.Grows n' := by
  have hbuilt : (build ⟨false, false, false, none, false, .standard⟩
      smallSources).toOption.join.isSome = true := by
    decide +kernel
  have hbuilt' : (build ⟨false, false, false, none, true, .standard⟩
      (smallSources ++ addedSources)).toOption.join.isSome = true := by
    decide +kernel
  obtain ⟨g, hg⟩ := @exists_build_sorted ⟨false, false, false, none, false, .standard⟩ _ hbuilt
  obtain ⟨g', hg'⟩ := @exists_build_sorted ⟨false, false, false, none, true, .standard⟩ _ hbuilt'
  exact ⟨g, g', hg, hg', (build_grows hg hg' rfl rfl rfl rfl rfl).2⟩

end Graph

end SchemaGraph
