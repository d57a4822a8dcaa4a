import SchemaGraph.Proofs.Identifiers
import SchemaGraph.Proofs.Image
import SchemaGraph.Proofs.Reordering
import SchemaGraph.Proofs.Sites

/-!
# Links from a graph into its sources

A graph tells of each type, field, argument and input field where it was
declared. What is declared in an extension comes to stand in the type that is
extended, among members from other sources, and sorting and normalisation move
and remove members later; but each takes its own location along. So the links of
a graph are among those that its definitions give, under the same names, and
these lead to the declarations.
-/

namespace SchemaGraph

open Sdl

/-- What a site links, and to where. -/
def Site.link (x : Site Location) : Subject × Location := (x.subject, x.mark)

/-- The links of some definitions. -/
def linksOf (ds : List (Definition Location)) : List (Subject × Location) :=
  (ds.flatMap Definition.sites).map Site.link

namespace Graph

/-- The link of an argument or an input field, if it has one. -/
def Input.links (subject : String → Subject) (i : Input) : List (Subject × Location) :=
  i.location.toList.map (subject i.name, ·)

/-- The links of a field and of its arguments. -/
def Field.links (type : String) (f : Field) : List (Subject × Location) :=
  f.location.toList.map (.field type f.name, ·)
    ++ (f.arguments ++ f.relayArguments).flatMap (Input.links (.argument type f.name))

/-- The links of a type and of all that is in it. -/
def Node.links (n : Node) : List (Subject × Location) :=
  n.location.toList.map (.type n.name, ·) ++ n.fields.flatMap (Field.links n.name)
    ++ n.inputFields.flatMap (Input.links (.input n.name))

/-- All links of a graph. -/
def links (g : Graph) : List (Subject × Location) := g.nodes.flatMap Node.links

theorem Field.image_links (type : String) (d : FieldDef Location) :
    (image d).links type = (d.sites type).map Site.link := by
  simp only [links, image, FieldDef.sites, Option.toList_some, List.map_cons, List.map_nil,
    List.append_nil, List.flatMap_map, List.map_map, List.cons_append, List.nil_append]
  congr 1
  exact (List.map_eq_flatMap ..).symm

section

variable {ds : List (Definition Location)} {d t : TypeDef Location} {x : Site Location}

theorem link_of_declared (hd : d ∈ declared ds) (hx : x ∈ d.sites .type) :
    x.link ∈ linksOf ds := by
  obtain ⟨e, he, hdeclared⟩ := List.mem_filterMap.1 hd
  have hsites : e.sites = d.sites .type := by
    cases e with
    | type => cases hdeclared; rfl
    | schema | extendSchema | extendType | directive => cases hdeclared
  exact List.mem_map_of_mem (List.mem_flatMap.2 ⟨e, he, hsites ▸ hx⟩)

/-- What is declared in a part of a type is declared under the name of the type. -/
theorem link_of_part (hd : d ∈ declared ds) (ht : t ∈ parts ds d)
    (hx : x ∈ t.body.sites d.name) : x.link ∈ linksOf ds := by
  rcases List.mem_cons.1 ht with rfl | ht
  · exact link_of_declared hd (List.mem_cons_of_mem _ hx)
  · obtain ⟨ht, hname⟩ := List.mem_filter.1 ht
    obtain ⟨e, he, hextension⟩ := List.mem_filterMap.1 ht
    have hsites : e.sites = t.sites .extension := by
      cases e with
      | extendType => cases hextension; rfl
      | schema | extendSchema | type | directive => cases hextension
    rw [← eq_of_beq hname] at hx
    refine List.mem_map_of_mem (List.mem_flatMap.2 ⟨e, he, ?_⟩)
    exact hsites ▸ List.mem_cons_of_mem _ hx

theorem Node.image_links (hd : d ∈ declared ds) : (image ds d).links ⊆ linksOf ds := by
  intro x hx
  simp only [links, image, List.mem_append, List.flatMap_map, Field.image_links, Input.links,
    Input.image, Option.toList_some, List.map_cons, List.map_nil, List.mem_singleton,
    List.mem_flatMap, or_assoc] at hx
  rcases hx with rfl | ⟨f, ⟨t, ht, hf⟩, hx⟩ | ⟨i, ⟨t, ht, hi⟩, rfl⟩
  · exact link_of_declared hd List.mem_cons_self
  · obtain ⟨y, hy, rfl⟩ := List.mem_map.1 hx
    exact link_of_part hd ht (t.body.mem_sites_of_field hf hy)
  · exact link_of_part hd ht (t.body.mem_sites_of_inputField hi)

theorem declaredNode_links (hd : d ∈ declared ds) : (declaredNode ds d).links ⊆ linksOf ds := by
  unfold declaredNode
  split
  · intro x hx
    obtain rfl : x = (.type d.name, d.mark) := by simpa [Node.bare, Node.links] using hx
    exact link_of_declared hd List.mem_cons_self
  · exact Node.image_links hd

end

theorem declaredNodes_links (ds : List (Definition Location)) :
    (declaredNodes ds).flatMap Node.links ⊆ linksOf ds := by
  intro x hx
  obtain ⟨n, hn, hx⟩ := List.mem_flatMap.1 hx
  rcases List.mem_append.1 hn with hn | hn
  · obtain ⟨d, hd, rfl⟩ := List.mem_map.1 hn
    exact declaredNode_links (List.mem_filter.1 hd).1 hx
  · obtain ⟨name, -, rfl⟩ := List.mem_map.1 hn
    simp [Node.bare, Node.links] at hx

theorem Field.links_subset (f f' : Field) (hname : f'.name = f.name)
    (hlocation : f'.location = f.location)
    (harguments : f'.arguments ++ f'.relayArguments ⊆ f.arguments ++ f.relayArguments)
    (type : String) : f'.links type ⊆ f.links type := by
  intro x hx
  rw [links, hname, hlocation] at hx
  refine List.mem_append.2 ((List.mem_append.1 hx).imp_right fun hx => ?_)
  obtain ⟨a, ha, hx⟩ := List.mem_flatMap.1 hx
  exact List.mem_flatMap.2 ⟨a, harguments ha, hx⟩

theorem Node.links_subset (n n' : Node) (hname : n'.name = n.name)
    (hlocation : n'.location = n.location)
    (hfields : ∀ f' ∈ n'.fields, ∃ f ∈ n.fields, f'.links n.name ⊆ f.links n.name)
    (hinputs : n'.inputFields ⊆ n.inputFields) : n'.links ⊆ n.links := by
  intro x hx
  rw [links, hname, hlocation, List.append_assoc] at hx
  rw [links, List.append_assoc]
  refine List.mem_append.2 ((List.mem_append.1 hx).imp_right fun hx => ?_)
  refine List.mem_append.2 ((List.mem_append.1 hx).imp (fun hx => ?_) fun hx => ?_)
  · obtain ⟨f', hf', hx⟩ := List.mem_flatMap.1 hx
    obtain ⟨f, hf, hlinks⟩ := hfields f' hf'
    exact List.mem_flatMap.2 ⟨f, hf, hlinks hx⟩
  · obtain ⟨i, hi, hx⟩ := List.mem_flatMap.1 hx
    exact List.mem_flatMap.2 ⟨i, hinputs hi, hx⟩

theorem links_subset {g g' : Graph} (h : ∀ n' ∈ g'.nodes, ∃ n ∈ g.nodes, n'.links ⊆ n.links) :
    g'.links ⊆ g.links := by
  intro x hx
  obtain ⟨n', hn', hx⟩ := List.mem_flatMap.1 hx
  obtain ⟨n, hn, hlinks⟩ := h n' hn'
  exact List.mem_flatMap.2 ⟨n, hn, hlinks hx⟩

theorem Field.links_sorted (type : String) (f : Field) : f.sorted.links type ⊆ f.links type :=
  Field.links_subset f f.sorted rfl rfl ((sortOn_perm _ _).append (sortOn_perm _ _)).subset type

theorem Node.links_sorted (n : Node) : n.sorted.links ⊆ n.links := by
  refine Node.links_subset n n.sorted rfl rfl (fun f' hf' => ?_) (sortOn_perm _ _).subset
  obtain ⟨f, hf, rfl⟩ := mem_sortOn_map.1 hf'
  exact ⟨f, hf, f.links_sorted n.name⟩

theorem links_sorted (g : Graph) : g.sorted.links ⊆ g.links := by
  refine links_subset fun n' hn' => ?_
  obtain ⟨n, hn, rfl⟩ := mem_sortOn_map.1 hn'
  exact ⟨n, hn, n.links_sorted⟩

theorem Field.Becomes.location {f f' : Field} (h : f.Becomes f') : f'.location = f.location := by
  cases h <;> rfl

theorem Field.Becomes.links {f f' : Field} (h : f.Becomes f') (type : String) :
    f'.links type ⊆ f.links type :=
  Field.links_subset f f' h.trims.name h.location h.trims.arguments.subset type

theorem Node.Becomes.links {n n' : Node} (h : n.Becomes n') : n'.links ⊆ n.links := by
  induction h with
  | same => exact List.Subset.refl _
  | flag _ ih | interfaces _ _ ih => exact ih
  | @filter n' _ p ih =>
      refine List.Subset.trans (Node.links_subset n' _ rfl rfl (fun f hf => ?_) ?_) ih
      · exact ⟨f, (List.mem_filter.1 hf).1, List.Subset.refl _⟩
      · exact List.Subset.refl _
  | @map n' _ u each ih =>
      refine List.Subset.trans (Node.links_subset n' _ rfl rfl (fun f' hf' => ?_) ?_) ih
      · obtain ⟨f, hf, rfl⟩ := List.mem_map.1 hf'
        exact ⟨f, hf, (each f).links n'.name⟩
      · exact List.Subset.refl _

theorem links_rewrite (g : Graph) (steps : List Rewrite) : (g.rewrite steps).links ⊆ g.links := by
  refine links_subset fun n' hn' => ?_
  obtain ⟨n, hn, hbecomes⟩ := rewrite_comesFrom g steps n' hn'
  exact ⟨n, hn, hbecomes.links⟩

/-- The links of a graph are links that its definitions give. -/
theorem build_links {options : Options} {sources : List Source} {d : Document}
    (hload : Document.load sources = .ok (some d)) {g : Graph}
    (hbuild : build options sources = .ok (some g)) : g.links ⊆ linksOf d.definitions := by
  obtain ⟨g₁, hg₁, rfl⟩ := (build_some_iff hload).1 hbuild
  rw [normalize_eq_rewrite]
  refine List.Subset.trans (links_rewrite g₁ _) ?_
  have hunsorted : ∀ {g₀}, ofDefinitions false d.definitions = .ok g₀ →
      g₀.links ⊆ linksOf d.definitions := by
    intro g₀ hg₀
    rw [links, ofDocument_nodes (d := d) (ofDocument_eq false d ▸ hg₀)]
    exact declaredNodes_links d.definitions
  cases hsort : options.sortByAlphabet with
  | false => exact hunsorted (hsort ▸ hg₁)
  | true =>
      obtain ⟨g₀, hg₀, rfl⟩ := ofDefinitions_sorted.1 (hsort ▸ hg₁)
      exact List.Subset.trans g₀.links_sorted (hunsorted hg₀)

end Graph

namespace Document

/-- A link that a definition gives is that of a site in one of the fragments. -/
theorem exists_site {d : Document} {l : Subject × Location} (h : l ∈ linksOf d.definitions) :
    ∃ i f x, d.fragments[i]? = some f ∧ x ∈ f.sites ∧ x.subject = l.1
      ∧ d.location? i x.mark.start = some l.2 := by
  obtain ⟨y, hy, rfl⟩ := List.mem_map.1 h
  obtain ⟨_, hlocated, hy⟩ := List.mem_flatMap.1 hy
  obtain ⟨f, hf, hlocated⟩ := List.mem_flatMap.1 hlocated
  obtain ⟨e, he, rfl⟩ := List.mem_map.1 hlocated
  rw [Definition.sites_map] at hy
  obtain ⟨x, hx, rfl⟩ := List.mem_map.1 hy
  obtain ⟨i, hi⟩ := List.mem_iff_getElem?.1 hf
  refine ⟨i, f, x, hi, List.mem_flatMap.2 ⟨e, he, hx⟩, rfl, ?_⟩
  rw [location?, hi]
  rfl

/-- Whether all links into a document lead to what is declared in it. -/
structure LinksLead (sources : List Source) (d : Document) : Prop where
  fragments : d.fragments.map Fragment.source = sources
  leads : ∀ f ∈ d.fragments, ∀ x ∈ f.sites, f.source.Leads x
  ordered : ∀ f ∈ d.fragments, f.sites.Pairwise f.source.Orders
  graph : ∀ {options : Options} {g : Graph}, Graph.build options sources = .ok (some g) →
    ∀ l ∈ g.links, ∃ i f x, d.fragments[i]? = some f ∧ x ∈ f.sites ∧ x.subject = l.1
      ∧ d.location? i x.mark.start = some l.2

/--
Whatever sources are loaded, all that is declared in them stands where its
location says, in the order in which it is declared, and the locations in any
graph of them are such locations.
-/
theorem load_linksLead {sources : List Source} {d : Document}
    (h : load sources = .ok (some d)) : d.LinksLead sources := by
  obtain ⟨hsources, hderives⟩ := load_ok h
  refine ⟨hsources, fun f hf x hx => ?_, fun f hf => ?_, fun hbuild l hl => ?_⟩
  · exact Source.leads (Fragment.lexeme_mem (hderives f hf) hx)
  · exact Fragment.sites_ordered (hderives f hf)
  · exact exists_site (Graph.build_links h hbuild hl)

/--
Two sources: the first has a mark at its start, lines of all three kinds, a
comment and descriptions that look like definitions; the second extends a type.
-/
def decoratedSources : List Source :=
  [⟨"first", "\uFEFF\"type Query\"\r\n# type Query\rtype Query \x7b\n\"a\" a(\"é\" b: C): C \x7d"⟩,
    ⟨"second", "extend type Query { c: C } enum C { D }"⟩]

theorem load_linksLead_decorated :
    ∃ d g, load decoratedSources = .ok (some d) ∧ d.LinksLead decoratedSources
      ∧ Graph.build .standard decoratedSources = .ok (some g)
      ∧ d.fragments.map (fun f => f.sites.map fun x => (x.word, (f.source.locate x).place))
        = [[("type", ⟨3, 1⟩), ("a", ⟨4, 5⟩), ("b", ⟨4, 11⟩)],
          [("type", ⟨1, 8⟩), ("c", ⟨1, 21⟩), ("enum", ⟨1, 28⟩), ("D", ⟨1, 37⟩)]] := by
  obtain ⟨g, hg⟩ : ∃ g, Graph.build .standard decoratedSources = .ok (some g) :=
    Graph.exists_build (by decide +kernel)
  obtain ⟨d, -, hload, -, -⟩ := Graph.build_ok hg
  refine ⟨d, g, hload, load_linksLead hload, hg, ?_⟩
  have hplaces : (load decoratedSources).toOption.join.map (fun d =>
      d.fragments.map fun f => f.sites.map fun x => (x.word, (f.source.locate x).place))
        = some [[("type", ⟨3, 1⟩), ("a", ⟨4, 5⟩), ("b", ⟨4, 11⟩)],
          [("type", ⟨1, 8⟩), ("c", ⟨1, 21⟩), ("enum", ⟨1, 28⟩), ("D", ⟨1, 37⟩)]] := by
    decide +kernel
  rw [hload] at hplaces
  exact Option.some.inj hplaces

end Document

end SchemaGraph
