import SchemaGraph.Proofs.Normalising
import SchemaGraph.Proofs.Sorting

/-!
# The kinds of types that are referred to

Roots have to be object types, and what is implemented an interface. A schema is
checked for that by what its types are declared as. In the graph a type has the
kind that it was declared as, with one exception: the name of a built-in scalar
makes a scalar of whatever bears it. So a root may be a scalar after all, but only
under such a name.

What is left to do is to follow the types through the pipeline. A type keeps its
name and its kind all the way, and comes to refer to nothing new.
-/

namespace SchemaGraph

open Sdl

namespace Graph

/-- Whether a type is of one of these kinds; with the name of a built-in scalar it is a scalar. -/
def Node.Fits (kinds : List TypeKind) (n : Node) : Prop :=
  if n.name ∈ builtinScalars then n.kind = .scalar else n.kind ∈ kinds

/-- Whether the types that a graph refers to are of the kinds that the references ask for. -/
structure WellKinded (g : Graph) : Prop where
  roots : ∀ n ∈ g.nodes, n.id ∈ g.roots → n.Fits [.object]
  interfaces : ∀ m ∈ g.nodes, ∀ n ∈ g.nodes, n.id ∈ m.interfaces → n.Fits [.interface]
  derivedTypes : ∀ m ∈ g.nodes, ∀ n ∈ g.nodes, n.id ∈ m.derivedTypes →
    n.Fits [.object, .interface]

end Graph

namespace Catalog

theorem Entry.ofType_kind (s : Schema) (t : SchemaType) : (ofType s t).kind = kindOf t := by
  unfold ofType
  split
  · rfl
  · split <;> rfl

theorem Entry.ofType_interfaces (s : Schema) (t : SchemaType) :
    (ofType s t).interfaces ⊆ t.body.interfaces := by
  by_cases hbuiltin : t.name ∈ builtinScalars
  · rw [ofType_builtin hbuiltin]
    exact List.nil_subset _
  · rw [ofType_eq hbuiltin]
    exact (eraseDups_sublist _).subset

theorem Entry.ofType_derivedTypes (s : Schema) (t : SchemaType) :
    (ofType s t).derivedTypes ⊆ s.implementors t.name := by
  by_cases hbuiltin : t.name ∈ builtinScalars
  · rw [ofType_builtin hbuiltin]
    exact List.nil_subset _
  · rw [ofType_eq hbuiltin]
    simp only
    split
    · exact (eraseDups_sublist _).subset
    · exact List.nil_subset _

theorem Entry.linked_fits {s : Schema} {t : SchemaType} {kinds : List TypeKind}
    (h : t.body.kind ∈ kinds) : (ofType s t).linked.Fits kinds := by
  have hname : (ofType s t).linked.name = t.name := ofType_name s t
  have hkind : (ofType s t).linked.kind = kindOf t := ofType_kind s t
  rw [Graph.Node.Fits, hname, hkind, kindOf]
  by_cases hbuiltin : t.name ∈ builtinScalars
  · rw [if_pos hbuiltin, if_pos (List.contains_iff_mem.2 hbuiltin)]
  · rw [if_neg hbuiltin, if_neg fun hmem => hbuiltin (List.contains_iff_mem.1 hmem)]
    exact h

theorem exists_type_of_linked {s : Schema} {n : Graph.Node} (h : n ∈ (ofSchema s).linked.nodes) :
    ∃ t ∈ s.types, n = (Entry.ofType s t).linked := by
  obtain ⟨e, he, rfl⟩ := List.mem_map.1 h
  obtain ⟨t, ht, rfl⟩ := List.mem_map.1 he
  exact ⟨t, (List.mem_filter.1 ht).1, rfl⟩

end Catalog

/-- Only object types and interfaces say that they implement something. -/
theorem Sdl.TypeBody.kind_of_mem_interfaces {μ : Type} {b : TypeBody μ} {name : String}
    (h : name ∈ b.interfaces) : b.kind ∈ [TypeKind.object, .interface] := by
  cases b with
  | object | interface => simp [kind]
  | scalar | union | enum | input => cases h

namespace Makes

variable {ds : List (Definition Location)} {s : Schema} (h : Makes ds s)

include h

theorem type_inj {t t' : SchemaType} (ht : t ∈ s.types) (ht' : t' ∈ s.types)
    (hname : t.name = t'.name) : t = t' := by
  have hfound := (lookupType_eq_some h.once.types).2 ⟨ht, hname⟩
  rw [(lookupType_eq_some h.once.types).2 ⟨ht', rfl⟩] at hfound
  exact (Option.some.inj hfound).symm

theorem root_kind {t : SchemaType} (ht : t ∈ s.types)
    (hroot : (⟨t.name⟩ : TypeId) ∈ (Catalog.ofSchema s).linked.roots) :
    t.body.kind = .object := by
  have hget : ∃ o, s.rootNames.get o = some t.name := by
    simp only [Graph.roots, Catalog.linked, Catalog.ofSchema, List.mem_cons, List.mem_append,
      Option.mem_toList, Option.map_eq_some_iff, TypeId.mk.injEq] at hroot
    rcases hroot with hquery | ⟨_, hmutation, rfl⟩ | ⟨_, hsubscription, rfl⟩
    · exact ⟨.query, congrArg some hquery.symm⟩
    · exact ⟨.mutation, hmutation⟩
    · exact ⟨.subscription, hsubscription⟩
  obtain ⟨o, ho⟩ := hget
  obtain ⟨u, hu, hname, hkind⟩ := h.objects o t.name ho
  exact h.type_inj hu ht hname ▸ hkind

theorem linked_wellKinded : (Catalog.ofSchema s).linked.WellKinded := by
  refine ⟨fun n hn hroot => ?_, fun m hm n hn hmem => ?_, fun m hm n hn hmem => ?_⟩
  · obtain ⟨t, ht, rfl⟩ := Catalog.exists_type_of_linked hn
    rw [Graph.Node.id, show (Catalog.Entry.ofType s t).linked.name = t.name from
      Catalog.Entry.ofType_name s t] at hroot
    exact Catalog.Entry.linked_fits (by simp [h.root_kind ht hroot])
  · obtain ⟨t, ht, rfl⟩ := Catalog.exists_type_of_linked hn
    obtain ⟨u, hu, rfl⟩ := Catalog.exists_type_of_linked hm
    obtain ⟨name, hname, heq⟩ := List.mem_map.1 hmem
    obtain rfl : name = t.name :=
      (TypeId.mk.inj heq).trans (Catalog.Entry.ofType_name s t)
    have hkind := h.interfaces u hu _ (Catalog.Entry.ofType_interfaces s u hname) t ht rfl
    exact Catalog.Entry.linked_fits (by simp [hkind])
  · obtain ⟨t, ht, rfl⟩ := Catalog.exists_type_of_linked hn
    obtain ⟨u, hu, rfl⟩ := Catalog.exists_type_of_linked hm
    obtain ⟨name, hname, heq⟩ := List.mem_map.1 hmem
    obtain rfl : name = t.name :=
      (TypeId.mk.inj heq).trans (Catalog.Entry.ofType_name s t)
    -- Whoever bears the name of an implementor is the implementor.
    obtain ⟨t', ht', hsame⟩ := List.mem_map.1 (Catalog.Entry.ofType_derivedTypes s u hname)
    obtain ⟨ht', himplements⟩ := List.mem_filter.1 ht'
    obtain rfl := h.type_inj ht' ht hsame
    exact Catalog.Entry.linked_fits
      (TypeBody.kind_of_mem_interfaces (List.contains_iff_mem.1 himplements))

end Makes

namespace Graph

/-- What a graph keeps of another one that is well-kinded, so that it is well-kinded itself. -/
theorem WellKinded.of_nodes {g g' : Graph} (h : g.WellKinded) (hroots : g'.roots = g.roots)
    (hnodes : ∀ n' ∈ g'.nodes, ∃ n ∈ g.nodes, n'.name = n.name ∧ n'.kind = n.kind
      ∧ n'.interfaces ⊆ n.interfaces ∧ n'.derivedTypes ⊆ n.derivedTypes) : g'.WellKinded := by
  have hfits : ∀ {n n' : Node} {kinds : List TypeKind}, n'.name = n.name → n'.kind = n.kind →
      n.Fits kinds → n'.Fits kinds := by
    intro n n' kinds hname hkind hfit
    rw [Node.Fits, hname, hkind]
    exact hfit
  refine ⟨fun n' hn' hroot => ?_, fun m' hm' n' hn' hmem => ?_, fun m' hm' n' hn' hmem => ?_⟩
  · obtain ⟨n, hn, hname, hkind, -, -⟩ := hnodes n' hn'
    rw [Node.id, hname, hroots] at hroot
    exact hfits hname hkind (h.roots n hn hroot)
  · obtain ⟨m, hm, -, -, hinterfaces, -⟩ := hnodes m' hm'
    obtain ⟨n, hn, hname, hkind, -, -⟩ := hnodes n' hn'
    rw [Node.id, hname] at hmem
    exact hfits hname hkind (h.interfaces m hm n hn (hinterfaces hmem))
  · obtain ⟨m, hm, -, -, -, hderived⟩ := hnodes m' hm'
    obtain ⟨n, hn, hname, hkind, -, -⟩ := hnodes n' hn'
    rw [Node.id, hname] at hmem
    exact hfits hname hkind (h.derivedTypes m hm n hn (hderived hmem))

theorem WellKinded.sorted {g : Graph} (h : g.WellKinded) : g.sorted.WellKinded := by
  refine h.of_nodes rfl fun n' hn' => ?_
  obtain ⟨n, hn, rfl⟩ := mem_sortOn_map.1 hn'
  exact ⟨n, hn, rfl, rfl, (sortOn_perm _ _).subset, (sortOn_perm _ _).subset⟩

theorem Node.Becomes.kind {n n' : Node} (h : n.Becomes n') :
    n'.name = n.name ∧ n'.kind = n.kind ∧ n'.interfaces ⊆ n.interfaces
      ∧ n'.derivedTypes ⊆ n.derivedTypes := by
  induction h with
  | same => exact ⟨rfl, rfl, List.Subset.refl _, List.Subset.refl _⟩
  | flag _ ih | filter _ _ ih | map _ _ ih => exact ih
  | interfaces _ p ih =>
      obtain ⟨hname, hkind, hinterfaces, hderived⟩ := ih
      exact ⟨hname, hkind, List.Subset.trans List.filter_sublist.subset hinterfaces, hderived⟩

theorem Rewrite.apply_roots (g : Graph) (step : Rewrite) : (step.apply g).roots = g.roots := by
  cases step <;> rfl

theorem rewrite_roots (g : Graph) (steps : List Rewrite) :
    (g.rewrite steps).roots = g.roots := by
  induction steps generalizing g with
  | nil => rfl
  | cons step steps ih => exact (ih (step.apply g)).trans (step.apply_roots g)

theorem WellKinded.rewrite {g : Graph} (h : g.WellKinded) (steps : List Rewrite) :
    (g.rewrite steps).WellKinded := by
  refine h.of_nodes (rewrite_roots g steps) fun n' hn' => ?_
  obtain ⟨n, hn, hbecomes⟩ := rewrite_comesFrom g steps n' hn'
  exact ⟨n, hn, hbecomes.kind⟩

theorem ofDefinitions_wellKinded {sort : Bool} {ds : List (Definition Location)} {g : Graph}
    (h : ofDefinitions sort ds = .ok g) : g.WellKinded := by
  have hunsorted : ∀ {g : Graph}, ofDefinitions false ds = .ok g → g.WellKinded := by
    intro g hg
    obtain ⟨s, hs, hlink⟩ := ofDefinitions_iff.1 hg
    obtain ⟨-, rfl⟩ := Catalog.link_iff.1 hlink
    exact hs.linked_wellKinded
  cases sort with
  | false => exact hunsorted h
  | true =>
      obtain ⟨g₀, hg₀, rfl⟩ := ofDefinitions_sorted.1 h
      exact (hunsorted hg₀).sorted

/--
In every graph that is built, the roots are object types, what is implemented are
interfaces, and what implements is an object type or an interface. The one
exception are types with the name of a built-in scalar, which are always scalars.
-/
theorem build_wellKinded {options : Options} {sources : List Source} {g : Graph}
    (hbuild : build options sources = .ok (some g)) :
    (∀ id ∈ g.roots, ∃ n, g.node? id = some n ∧ n.Fits [.object])
      ∧ ∀ m ∈ g.nodes,
        (∀ id ∈ m.interfaces, ∃ n, g.node? id = some n ∧ n.Fits [.interface])
          ∧ ∀ id ∈ m.derivedTypes, ∃ n, g.node? id = some n ∧ n.Fits [.object, .interface] := by
  obtain ⟨d, g₀, -, hlink, rfl⟩ := build_ok hbuild
  have hkinds : (g₀.normalize options).WellKinded := by
    rw [normalize_eq_rewrite]
    exact (ofDefinitions_wellKinded (ofDocument_eq _ d ▸ hlink)).rewrite _
  have hresolved : (g₀.normalize options).Resolved := by
    rw [normalize_eq_rewrite]
    exact rewrite_resolved hlink _
  refine ⟨fun id hid => ?_, fun m hm => ⟨fun id hid => ?_, fun id hid => ?_⟩⟩
  · obtain ⟨n, hn, hfound⟩ := hresolved.node?_of_mem (List.mem_append_right _ hid)
    refine ⟨n, hfound, hkinds.roots n hn ?_⟩
    rw [(mem_of_node? hfound).2]
    exact hid
  · have hmem := Node.mem_typeIds.2 (.inr (.inr (.inl hid)))
    obtain ⟨n, hn, hfound⟩ := hresolved.node?_of_mem (mem_typeIds_of_node hm hmem)
    refine ⟨n, hfound, hkinds.interfaces m hm n hn ?_⟩
    rw [(mem_of_node? hfound).2]
    exact hid
  · have hmem := Node.mem_typeIds.2 (.inr (.inr (.inr (.inl hid))))
    obtain ⟨n, hn, hfound⟩ := hresolved.node?_of_mem (mem_typeIds_of_node hm hmem)
    refine ⟨n, hfound, hkinds.derivedTypes m hm n hn ?_⟩
    rw [(mem_of_node? hfound).2]
    exact hid

/-- A root, an interface and an implementor that have the names of built-in scalars. -/
def disguisedSource : Source :=
  ⟨"disguised", "schema\x7bquery:Q mutation:String\x7d type Q implements N&ID\x7ba:Int\x7d
type String implements N\x7ba:Int\x7d interface N\x7ba:Int\x7d interface ID\x7ba:Int\x7d"⟩

theorem exists_build_disguised : ∃ g, build .standard [disguisedSource] = .ok (some g) :=
  exists_build (by decide +kernel)

theorem build_wellKinded_disguised :
    ∃ g, build .standard [disguisedSource] = .ok (some g)
      ∧ (∀ id ∈ g.roots, ∃ n, g.node? id = some n ∧ n.Fits [.object])
      ∧ ∀ m ∈ g.nodes,
        (∀ id ∈ m.interfaces, ∃ n, g.node? id = some n ∧ n.Fits [.interface])
          ∧ ∀ id ∈ m.derivedTypes, ∃ n, g.node? id = some n ∧ n.Fits [.object, .interface] := by
  obtain ⟨g, hg⟩ := exists_build_disguised
  exact ⟨g, hg, build_wellKinded hg⟩

/-- Without the exception none of the three would hold. -/
theorem kinds_disguised :
    ∃ g, build .standard [disguisedSource] = .ok (some g)
      ∧ (¬ ∀ id ∈ g.roots, (g.node? id).map (·.kind) = some .object)
      ∧ (¬ ∀ m ∈ g.nodes, ∀ id ∈ m.interfaces, (g.node? id).map (·.kind) = some .interface)
      ∧ ¬ ∀ m ∈ g.nodes, ∀ id ∈ m.derivedTypes,
        (g.node? id).map (·.kind) ∈ [some .object, some .interface] := by
  obtain ⟨g, hg⟩ := exists_build_disguised
  have hkinds : (build .standard [disguisedSource]).toOption.join.map (fun g =>
      (decide (∀ id ∈ g.roots, (g.node? id).map (·.kind) = some .object),
        decide (∀ m ∈ g.nodes, ∀ id ∈ m.interfaces, (g.node? id).map (·.kind) = some .interface),
        decide (∀ m ∈ g.nodes, ∀ id ∈ m.derivedTypes,
          (g.node? id).map (·.kind) ∈ [some .object, some .interface])))
        = some (false, false, false) := by
    decide +kernel
  rw [hg] at hkinds
  have hfalse := Option.some.inj hkinds
  simp only [Prod.mk.injEq, decide_eq_false_iff_not] at hfalse
  exact ⟨g, hg, hfalse⟩

end Graph

end SchemaGraph
