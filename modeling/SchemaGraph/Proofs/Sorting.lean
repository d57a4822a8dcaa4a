import SchemaGraph.Proofs.Inlining
import Mathlib.Data.List.Perm.Basic

/-!
# Sorting comes before or after

A schema is sorted before its types are brought into a catalog, but a catalog or
a graph can be put into the same order afterwards. What the catalog lists for a
type is then the same: its implementing types are found in the order of the types,
so they are in order if the types are.

Links do not depend on an order. So sorting does not decide whether there is a
graph, and the sorted graph is the graph in another order.
-/

namespace SchemaGraph

open Sdl

namespace Catalog

/-- A field with its arguments in order. -/
def Field.sorted (d : Field) : Field :=
  { d with arguments := sortOn (·.name) d.arguments }

/-- A type with all that it lists in order. -/
def Entry.sorted (e : Entry) : Entry :=
  { e with
    fields := sortOn (·.name) (e.fields.map Field.sorted)
    interfaces := sortNames e.interfaces
    derivedTypes := sortNames e.derivedTypes
    possibleTypes := sortNames e.possibleTypes
    enumValues := sortOn (·.name) e.enumValues
    inputFields := sortOn (·.name) e.inputFields }

end Catalog

/-- A catalog with its types in order, and all that they list. -/
def Catalog.sorted (c : Catalog) : Catalog :=
  { c with entries := sortOn (·.name) (c.entries.map Entry.sorted) }

namespace Graph

/-- A field with its arguments in order. -/
def Field.sorted (d : Field) : Field :=
  { d with
    arguments := sortOn (·.name) d.arguments
    relayArguments := sortOn (·.name) d.relayArguments }

/-- A type with all that it lists in order. -/
def Node.sorted (n : Node) : Node :=
  { n with
    fields := sortOn (·.name) (n.fields.map Field.sorted)
    interfaces := sortOn (·.name) n.interfaces
    derivedTypes := sortOn (·.name) n.derivedTypes
    possibleTypes := sortOn (·.name) n.possibleTypes
    enumValues := sortOn (·.name) n.enumValues
    inputFields := sortOn (·.name) n.inputFields }

end Graph

/-- A graph with its types in order, and all that they list. -/
def Graph.sorted (g : Graph) : Graph :=
  { g with nodes := sortOn (·.name) (g.nodes.map Node.sorted) }

theorem sortOn_filter {α : Type} {key : α → String} {as : List α} (h : (as.map key).Nodup)
    (p : α → Bool) : (sortOn key as).filter p = sortOn key (as.filter p) := by
  refine Eq.symm
    (sortOn_eq ((sortOn_perm key as).filter p).symm ((sortOn_pairwise key as).filter p) ?_)
  intro a ha b hb
  have hmem : ∀ {a}, a ∈ (sortOn key as).filter p → a ∈ as := fun ha =>
    (sortOn_perm key as).mem_iff.1 (List.mem_filter.1 ha).1
  exact List.inj_on_of_nodup_map h (hmem ha) (hmem hb)

/-- Sorting keeps the order of the entries that were there before. -/
theorem sortOn_sublist {α : Type} {key : α → String} {as bs : List α} (h : as.Sublist bs)
    (hkeys : (bs.map key).Nodup) : (sortOn key as).Sublist (sortOn key bs) := by
  rw [← filter_keys h hkeys, ← sortOn_filter hkeys]
  exact List.filter_sublist

theorem mem_sortNames {names : List String} {name : String} :
    name ∈ sortNames names ↔ name ∈ names := (sortOn_perm id names).mem_iff

namespace Schema

variable {s : Schema} (h : (s.types.map (·.name)).Nodup)

include h

/-- The types of a sorted schema that have a property, which sorting a type leaves alone. -/
theorem sorted_filter {p : SchemaType → Bool} (hp : ∀ t, p t.sorted = p t) :
    s.sorted.types.filter p = sortOn (·.name) ((s.types.filter p).map TypeDef.sorted) := by
  have hnames : ((s.types.map (TypeDef.sorted (μ := Option Location))).map (·.name)).Nodup := by
    rw [List.map_map]
    exact h
  have hfilter : (s.types.map TypeDef.sorted).filter p
      = (s.types.filter p).map TypeDef.sorted := by
    rw [List.filter_map]
    exact congrArg _ (List.filter_congr fun t _ => hp t)
  rw [← hfilter]
  exact sortOn_filter hnames p

theorem implementors_sorted (interface : String) :
    s.sorted.implementors interface = sortNames (s.implementors interface) := by
  have hcontains : ∀ t : SchemaType, t.sorted.body.interfaces.contains interface
      = t.body.interfaces.contains interface := by
    intro t
    rw [Bool.eq_iff_iff, List.contains_iff_mem, List.contains_iff_mem, TypeDef.sorted,
      TypeBody.interfaces_sorted, mem_sortNames]
  have hsort := sortOn_map (·.name) id (f := fun t : SchemaType => t.name) (fun _ => rfl)
    ((s.types.filter (·.body.interfaces.contains interface)).map TypeDef.sorted)
  rw [implementors, sorted_filter h hcontains, ← hsort, List.map_map]
  rfl

end Schema

namespace Catalog

theorem Field.ofDef_sorted (d : FieldDef (Option Location)) :
    Field.ofDef d.sorted = (Field.ofDef d).sorted := by
  have hsort := sortOn_map (·.name) (·.name) (f := Input.ofDef) (fun _ => rfl) d.arguments
  simp only [Field.ofDef, FieldDef.sorted, Field.sorted, hsort]

theorem Entry.ofType_sorted {s : Schema} (h : (s.types.map (·.name)).Nodup) (t : SchemaType) :
    Entry.ofType s.sorted t.sorted = (Entry.ofType s t).sorted := by
  by_cases hbuiltin : t.name ∈ builtinScalars
  · rw [ofType_builtin hbuiltin, ofType_builtin (t := t.sorted) hbuiltin]
    simp [bare, Entry.sorted, sortOn_nil, sortNames, TypeDef.sorted]
  · have hfields : (sortFields t.body.fields).map Field.ofDef
        = sortOn (·.name) ((t.body.fields.map Field.ofDef).map Field.sorted) :=
      map_sortOn_map FieldDef.name Field.name (fun _ => rfl) Field.ofDef_sorted _
    have hvalues := sortOn_map (·.name) (·.name) (f := EnumRecord.ofDef) (fun _ => rfl)
      t.body.values
    have hinputs := sortOn_map (·.name) (·.name) (f := Input.ofDef) (fun _ => rfl)
      t.body.inputFields
    rw [ofType_eq hbuiltin, ofType_eq (t := t.sorted) hbuiltin]
    simp only [TypeDef.sorted, Entry.sorted, TypeBody.kind_sorted, TypeBody.fields_sorted,
      TypeBody.interfaces_sorted, TypeBody.unionMembers_sorted, TypeBody.values_sorted,
      TypeBody.inputFields_sorted, Schema.implementors_sorted h, hfields, hvalues, hinputs,
      ← sortNames_eraseDups]
    -- Only an interface lists the types that implement it.
    split
    · rfl
    · simp [sortNames, sortOn_nil]

/-- The catalog of a sorted schema is the sorted catalog of the schema. -/
theorem ofSchema_sorted {s : Schema} (h : (s.types.map (·.name)).Nodup) :
    ofSchema s.sorted = (ofSchema s).sorted := by
  have hentries : (s.sorted.types.filter (!isIntrospective ·.name)).map (Entry.ofType s.sorted)
      = sortOn (·.name) (((s.types.filter (!isIntrospective ·.name)).map (Entry.ofType s)).map
        Entry.sorted) := by
    rw [Schema.sorted_filter h fun _ => rfl]
    exact map_sortOn_map (·.name) (·.name) (Entry.ofType_name _) (Entry.ofType_sorted h) _
  exact congrArg (Catalog.mk · s.query s.mutation s.subscription) hentries

theorem Field.references_sorted (type : String) (d : Field) :
    (d.sorted.references type).Perm (d.references type) := ((sortOn_perm _ _).map _).cons _

theorem Entry.references_sorted (e : Entry) : e.sorted.references.Perm e.references := by
  have hfields : (e.sorted.fields.flatMap (Field.references e.name)).Perm
      (e.fields.flatMap (Field.references e.name)) := by
    refine ((sortOn_perm _ _).flatMap_right _).trans ?_
    rw [List.flatMap_map]
    exact .flatMap_left _ fun d _ => Field.references_sorted e.name d
  refine (((hfields.append ?_).append ?_).append ?_).append ?_
  all_goals exact (sortOn_perm _ _).map _

theorem references_sorted (c : Catalog) : c.sorted.references.Perm c.references := by
  refine .append (((sortOn_perm _ _).flatMap_right _).trans ?_) (.refl _)
  rw [List.flatMap_map]
  exact .flatMap_left _ fun e _ => e.references_sorted

theorem declares_sorted (c : Catalog) (name : String) :
    c.sorted.declares name = c.declares name := by
  rw [declares, declares, sorted, (sortOn_perm _ _).any_eq, List.any_map]
  rfl

theorem Field.linked_sorted (d : Field) : d.sorted.linked = d.linked.sorted := by
  have hsort := sortOn_map (·.name) (·.name) (f := Input.linked) (fun _ => rfl) d.arguments
  simp only [Field.linked, Field.sorted, Graph.Field.sorted, hsort, sortOn_nil]

theorem Entry.linked_sorted (e : Entry) : e.sorted.linked = e.linked.sorted := by
  have hfields : (sortOn (·.name) (e.fields.map Field.sorted)).map Field.linked
      = sortOn (·.name) ((e.fields.map Field.linked).map Graph.Field.sorted) :=
    map_sortOn_map (·.name) (·.name) (fun _ => rfl) Field.linked_sorted _
  have hinputs := sortOn_map (·.name) (·.name) (f := Input.linked) (fun _ => rfl) e.inputFields
  have htypes : ∀ names : List String, (sortNames names).map TypeId.mk
      = sortOn (·.name) (names.map TypeId.mk) := fun names =>
    (sortOn_map id TypeId.name (fun _ => rfl) names).symm
  simp only [Entry.linked, Entry.sorted, Graph.Node.sorted, hfields, hinputs, htypes]

theorem linked_sorted (c : Catalog) : c.sorted.linked = c.linked.sorted := by
  have hnodes : (sortOn (·.name) (c.entries.map Entry.sorted)).map Entry.linked
      = sortOn (·.name) ((c.entries.map Entry.linked).map Graph.Node.sorted) :=
    map_sortOn_map (·.name) (·.name) (fun _ => rfl) Entry.linked_sorted _
  simp only [linked, sorted, Graph.sorted, hnodes]

theorem link_sorted {c : Catalog} {g : Graph} :
    c.sorted.link = .ok g ↔ ∃ g₀, c.link = .ok g₀ ∧ g = g₀.sorted := by
  simp only [link_iff, ((references_sorted c).map _).mem_iff, declares_sorted, linked_sorted]
  refine ⟨?_, ?_⟩
  · rintro ⟨hall, rfl⟩
    exact ⟨_, ⟨hall, rfl⟩, rfl⟩
  · rintro ⟨_, ⟨hall, rfl⟩, rfl⟩
    exact ⟨hall, rfl⟩

end Catalog

/-- With sorting there is a graph if there is one without, and it is that one in order. -/
theorem Graph.ofDefinitions_sorted {ds : List (Definition Location)} {g : Graph} :
    ofDefinitions true ds = .ok g ↔ ∃ g₀, ofDefinitions false ds = .ok g₀ ∧ g = g₀.sorted := by
  simp only [ofDefinitions_iff, if_true]
  refine ⟨?_, ?_⟩
  · rintro ⟨s, hs, hlink⟩
    rw [Catalog.ofSchema_sorted hs.once.types, Catalog.link_sorted] at hlink
    obtain ⟨g₀, hlink, rfl⟩ := hlink
    exact ⟨g₀, ⟨s, hs, hlink⟩, rfl⟩
  · rintro ⟨g₀, ⟨s, hs, hlink⟩, rfl⟩
    refine ⟨s, hs, ?_⟩
    rw [Catalog.ofSchema_sorted hs.once.types, Catalog.link_sorted]
    exact ⟨g₀, hlink, rfl⟩

end SchemaGraph
