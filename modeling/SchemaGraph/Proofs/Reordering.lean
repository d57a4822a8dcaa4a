import SchemaGraph.Proofs.Relocation
import SchemaGraph.Proofs.Sorting

/-!
# Sorted graphs do not depend on the order of definitions

Wherever an order is kept while a graph is made, there is a list of things that
all have different names, or of names that are taken once. So if definitions are
written in another order, every list holds the same as before, and sorting puts
it into the same order again. Whether definitions fit together does not depend on
their order anyway, and normalisation starts from a graph that is the same.

The locations stay with the definitions when whole sources change places. When
definitions move inside of their sources, or from one source to another, they
stand somewhere else afterwards; then the graphs are the same but for locations.
-/

namespace SchemaGraph

open Sdl

variable {μ : Type}

section

variable {ds ds' : List (Definition Location)} (h : ds.Perm ds')

include h

theorem extensionsOf_perm (name : String) :
    (extensionsOf ds name).Perm (extensionsOf ds' name) := (h.filterMap _).filter _

theorem parts_perm (d : TypeDef Location) : (parts ds d).Perm (parts ds' d) :=
  (extensionsOf_perm h d.name).cons d

theorem undeclaredScalars_perm : undeclaredScalars ds' = undeclaredScalars ds := by
  have hnames : ((declared ds).map (·.name)).Perm ((declared ds').map (·.name)) :=
    (h.filterMap _).map _
  simp only [undeclaredScalars, hnames.mem_iff]

section

variable {d : TypeDef Location}
  (hkind : ∀ e ∈ extensionsOf ds d.name, e.body.kind = d.body.kind)

include hkind

theorem extension_kinds_perm : ∀ e ∈ extensionsOf ds' d.name, e.body.kind = d.body.kind :=
  fun e he => hkind e ((extensionsOf_perm h d.name).mem_iff.2 he)

/-- What merging keeps all of is the same in another order, and is kept in another order. -/
theorem extended_perm {α β : Type} {part : TypeBody (Option Location) → List α}
    {part' : TypeBody Location → List β} {f : β → α}
    (hmap : ∀ b, part (b.map some) = (part' b).map f)
    (hmerge : ∀ {b c : TypeBody (Option Location)}, c.kind = b.kind →
      part (b.merge c) = part b ++ part c) :
    (part (extended ds' d).body).Perm (part (extended ds d).body) := by
  rw [extended_append hkind hmap hmerge,
    extended_append (extension_kinds_perm h hkind) hmap hmerge]
  exact ((parts_perm h d).symm.flatMap_right _).map f

theorem extended_mem_perm {part : TypeBody (Option Location) → List String}
    {part' : TypeBody Location → List String} (hmap : ∀ b, part (b.map some) = part' b)
    (hmerge : ∀ {b c : TypeBody (Option Location)}, c.kind = b.kind →
      part (b.merge c) = addNew (part b) (part c)) (name : String) :
    name ∈ part (extended ds' d).body ↔ name ∈ part (extended ds d).body := by
  have hparts := (parts_perm h d).symm.flatMap_right fun t => part' t.body
  rw [← List.mem_eraseDups, extended_eraseDups (extension_kinds_perm h hkind) hmap hmerge,
    ← List.mem_eraseDups (l := part _), extended_eraseDups hkind hmap hmerge,
    List.mem_eraseDups, List.mem_eraseDups]
  exact hparts.mem_iff

end

end

/-- Whether two bodies hold the same, in whatever order and with whatever repetitions of names. -/
structure Sdl.TypeBody.Reorders (b c : TypeBody μ) : Prop where
  kind : c.kind = b.kind
  fields : c.fields.Perm b.fields
  interfaces : ∀ name, name ∈ c.interfaces ↔ name ∈ b.interfaces
  unionMembers : ∀ name, name ∈ c.unionMembers ↔ name ∈ b.unionMembers
  values : c.values.Perm b.values
  inputFields : c.inputFields.Perm b.inputFields

theorem extended_reorders {ds ds' : List (Definition Location)} (h : ds.Perm ds')
    {d : TypeDef Location} (hkind : ∀ e ∈ extensionsOf ds d.name, e.body.kind = d.body.kind) :
    (extended ds d).body.Reorders (extended ds' d).body where
  kind := (extendBy_kind _ _).trans (extendBy_kind _ _).symm
  fields := extended_perm h hkind (TypeBody.fields_map some) TypeBody.fields_merge
  interfaces := extended_mem_perm h hkind (TypeBody.interfaces_map some) TypeBody.interfaces_merge
  unionMembers :=
    extended_mem_perm h hkind (TypeBody.unionMembers_map some) TypeBody.unionMembers_merge
  values := extended_perm h hkind (TypeBody.values_map some) TypeBody.values_merge
  inputFields := extended_perm h hkind (TypeBody.inputFields_map some) TypeBody.inputFields_merge

theorem Sdl.TypeBody.Reorders.resembles {t t' : TypeDef μ} (h : t.body.Reorders t'.body)
    (hname : t'.name = t.name) : t.Resembles t' := by
  refine ⟨hname, h.kind, h.interfaces, ?_, h.fields.map _⟩
  rw [TypeBody.members_names, TypeBody.members_names]
  exact ((h.fields.map _).append (h.inputFields.map _)).append (h.values.map _)

/-- Sorted and without repetitions, bodies that hold the same are the same. -/
theorem Sdl.TypeBody.Reorders.sorted {b c : TypeBody μ} (h : b.Reorders c) (hb : b.NamesOnce) :
    c.deduped.sorted = b.deduped.sorted := by
  obtain ⟨hfields, hinputs, hvalues⟩ := hb.parts
  apply TypeBody.ext_parts
  · simp [h.kind]
  · have hnames : ((b.fields.map FieldDef.sorted).map (·.name)).Nodup := by
      rw [List.map_map]
      exact hfields
    simp only [TypeBody.fields_sorted, TypeBody.fields_deduped, sortFields]
    exact sortOn_congr (h.fields.map _) hnames
  · simp only [TypeBody.interfaces_sorted, TypeBody.interfaces_deduped]
    exact sortNames_congr (eraseDups_perm h.interfaces)
  · simp only [TypeBody.unionMembers_sorted, TypeBody.unionMembers_deduped]
    exact sortNames_congr (eraseDups_perm h.unionMembers)
  · simp only [TypeBody.values_sorted, TypeBody.values_deduped]
    exact sortOn_congr h.values hvalues
  · simp only [TypeBody.inputFields_sorted, TypeBody.inputFields_deduped]
    exact sortOn_congr h.inputFields hinputs

theorem names_typesOf_perm {ds ds' : List (Definition Location)} (h : ds.Perm ds') :
    ((typesOf ds').map (·.name)).Perm ((typesOf ds).map (·.name)) := by
  rw [typesOf, typesOf, List.map_append, List.map_append, extended_names, extended_names,
    undeclaredScalars_perm h]
  exact ((h.symm.filterMap _).map _).append (.refl _)

namespace Makes

variable {ds ds' : List (Definition Location)} {s : Schema} (hs : Makes ds s) (h : ds.Perm ds')

include hs h

theorem resembles_perm {d : TypeDef Location} (hd : d ∈ declared ds) :
    (extended ds d).Resembles (extended ds' d) :=
  (extended_reorders h (hs.kinds d hd)).resembles
    ((extended_name ds' d).trans (extended_name ds d).symm)

theorem sorted_extended_perm {d : TypeDef Location} (hd : d ∈ declared ds) :
    (extended ds' d).deduped.sorted = (extended ds d).deduped.sorted := by
  obtain ⟨hdescription, hmark⟩ := extended_description ds d
  obtain ⟨hdescription', hmark'⟩ := extended_description ds' d
  have hbody := (extended_reorders h (hs.kinds d hd)).sorted
    (hs.extended_once.bodies _ (List.mem_map_of_mem hd))
  simp only [TypeDef.sorted, TypeDef.deduped, extended_name, hdescription, hdescription', hmark,
    hmark', hbody]

/-- Definitions that fit together fit together in every other order. -/
theorem perm : Makes ds' { s with types := typesOf ds' } := by
  have hnames : ((typesOf ds').map (·.name)).Perm (s.types.map (·.name)) :=
    hs.types ▸ names_typesOf_perm h
  refine hs.transfer rfl hnames (fun t' ht' => ?_) (fun t ht => ?_) (fun e he => ?_)
    (h.symm.filterMap _) ((h.symm.filterMap _).append (h.symm.filterMap _)) rfl
  · rcases List.mem_append.1 ht' with ht' | ht'
    · obtain ⟨d, hd, rfl⟩ := List.mem_map.1 ht'
      have hd : d ∈ declared ds := (h.filterMap _).mem_iff.2 hd
      exact ⟨_, hs.types ▸ List.mem_append_left _ (List.mem_map_of_mem hd), hs.resembles_perm h hd⟩
    · rw [undeclaredScalars_perm h] at ht'
      exact ⟨t', hs.types ▸ List.mem_append_right _ ht', .refl t'⟩
  · rcases List.mem_append.1 (hs.types ▸ ht) with ht | ht
    · obtain ⟨d, hd, rfl⟩ := List.mem_map.1 ht
      have hd' : d ∈ declared ds' := (h.filterMap _).mem_iff.1 hd
      exact ⟨_, List.mem_append_left _ (List.mem_map_of_mem hd'), hs.resembles_perm h hd⟩
    · rw [← undeclaredScalars_perm h] at ht
      exact ⟨t, List.mem_append_right _ ht, .refl t⟩
  · obtain ⟨d, hd, hsame⟩ := hs.extensions e ((h.filterMap _).mem_iff.2 he)
    exact ⟨d, (h.filterMap _).mem_iff.1 hd, hsame⟩

theorem sorted_perm : ({ s with types := typesOf ds' } : Schema).deduped.sorted
    = s.deduped.sorted := by
  -- Sorted, each type is the same on both sides, and only the order of types is left to sort.
  have hdeclared : ((declared ds').map (extended ds')).map (fun t => t.deduped.sorted)
      |>.Perm (((declared ds).map (extended ds)).map fun t => t.deduped.sorted) := by
    rw [List.map_map, List.map_map]
    refine ((h.symm.filterMap _).map _).trans (.of_eq ?_)
    exact List.map_congr_left fun d hd => hs.sorted_extended_perm h hd
  have htypes : ((typesOf ds').map fun t => t.deduped.sorted).Perm
      (s.types.map fun t => t.deduped.sorted) := by
    rw [hs.types, typesOf, typesOf, List.map_append, List.map_append, undeclaredScalars_perm h]
    exact hdeclared.append (.refl _)
  have hnames : ((s.types.map fun t => t.deduped.sorted).map (·.name)).Nodup := by
    rw [List.map_map]
    exact hs.once.types
  simp only [Schema.sorted, Schema.deduped, List.map_map]
  exact congrArg (Schema.mk · s.query s.mutation s.subscription) (sortOn_congr htypes hnames)

end Makes

namespace Graph

/-- The sorted graph of some definitions is that of the same definitions in any order. -/
theorem ofDefinitions_perm {ds ds' : List (Definition Location)} (h : ds.Perm ds') (g : Graph) :
    ofDefinitions true ds = .ok g ↔ ofDefinitions true ds' = .ok g := by
  have hone : ∀ {ds ds' : List (Definition Location)}, ds.Perm ds' →
      ofDefinitions true ds = .ok g → ofDefinitions true ds' = .ok g := by
    intro ds ds' h hg
    obtain ⟨s, hs, hlink⟩ := ofDefinitions_iff.1 hg
    refine ofDefinitions_iff.2 ⟨_, hs.perm h, ?_⟩
    have hcatalog := congrArg Catalog.ofSchema (hs.sorted_perm h)
    rw [Schema.sorted_deduped, Catalog.ofSchema_deduped, Schema.sorted_deduped,
      Catalog.ofSchema_deduped] at hcatalog
    exact (congrArg Catalog.link hcatalog).trans hlink
  exact ⟨hone h, hone h.symm⟩

end Graph

/-! ## Sources

A definition has the location at which it stands, so when whole sources change places the
definitions of a document are the same ones in another order. Definitions that are moved
within their sources are others afterwards. With all locations set to the same one they
are the same again, in another order; and since locations decide nothing, the graphs of
both are what they were, but for the locations (`build_unlocated_perm`). -/

namespace Document

theorem readAll_iff {sources : List Source} {fs : List Fragment} :
    readAll sources = .ok fs ↔
      List.Forall₂ (fun s f => Fragment.ofSource s = .ok f) sources fs := by
  induction sources generalizing fs with
  | nil => simp [readAll, eq_comm]
  | cons s sources ih =>
      rw [List.forall₂_cons_left_iff, readAll]
      cases Fragment.ofSource s with
      | error r => simp
      | ok f =>
          cases hrest : readAll sources with
          | error r => simp [← ih, hrest]
          | ok rest => simp [← ih, hrest, eq_comm (a := f :: rest)]

theorem load_iff {sources : List Source} {d : Document} :
    load sources = .ok (some d) ↔ sources ≠ [] ∧ readAll sources = .ok d.fragments := by
  cases sources with
  | nil => simp [load]
  | cons s sources =>
      rw [load]
      cases readAll (s :: sources) with
      | error r => simp
      | ok fs => simpa using ⟨congrArg fragments, congrArg mk⟩

theorem load_none {sources : List Source} : load sources = .ok none ↔ sources = [] := by
  cases sources with
  | nil => simp [load]
  | cons s sources =>
      rw [load]
      cases readAll (s :: sources) <;> simp

/-- Sources in another order make up a document with the same definitions in another order. -/
theorem load_perm {sources sources' : List Source} (h : sources.Perm sources') {d : Document}
    (hload : load sources = .ok (some d)) :
    ∃ d', load sources' = .ok (some d') ∧ d.definitions.Perm d'.definitions := by
  obtain ⟨hsome, hread⟩ := load_iff.1 hload
  obtain ⟨fs', hfs', hperm⟩ := List.perm_comp_forall₂ h.symm (readAll_iff.1 hread)
  refine ⟨⟨fs'⟩, load_iff.2 ⟨fun hnil => hsome ?_, readAll_iff.2 hfs'⟩, ?_⟩
  · exact (hnil ▸ h).eq_nil
  · exact hperm.symm.flatMap_right _

end Document

namespace Graph

theorem build_some_iff {options : Options} {sources : List Source} {d : Document}
    (hload : Document.load sources = .ok (some d)) {g : Graph} :
    build options sources = .ok (some g) ↔
      ∃ g₀, ofDefinitions options.sortByAlphabet d.definitions = .ok g₀
        ∧ g = g₀.normalize options := by
  simp only [build, hload, ofDocument_eq]
  cases ofDefinitions options.sortByAlphabet d.definitions <;> simp [eq_comm]

theorem exists_build_sorted {options : Options} {sources : List Source}
    (h : (build { options with sortByAlphabet := false } sources).toOption.join.isSome = true) :
    ∃ g, build { options with sortByAlphabet := true } sources = .ok (some g) := by
  obtain ⟨g, hg⟩ := exists_build h
  obtain ⟨d, -, hload, -, -⟩ := build_ok hg
  obtain ⟨g₀, hg₀, -⟩ := (build_some_iff hload).1 hg
  exact ⟨_, (build_some_iff hload).2 ⟨_, ofDefinitions_sorted.2 ⟨g₀, hg₀, rfl⟩, rfl⟩⟩

theorem build_none_iff {options : Options} {sources : List Source} :
    build options sources = .ok none ↔ sources = [] := by
  rw [← Document.load_none, build]
  split
  · next hload => simp [hload]
  · next hload => simp [hload]
  · next hload =>
      rw [hload]
      split <;> simp

theorem build_sources_perm {options : Options} (hsort : options.sortByAlphabet = true)
    {sources sources' : List Source} (h : sources.Perm sources') {r : Option Graph}
    (hr : build options sources = .ok r) : build options sources' = .ok r := by
  cases r with
  | none =>
      rw [build_none_iff] at hr ⊢
      exact (hr ▸ h.symm).eq_nil
  | some g =>
      obtain ⟨d, -, hload, -, -⟩ := build_ok hr
      obtain ⟨d', hload', hperm⟩ := Document.load_perm h hload
      obtain ⟨g₀, hg₀, rfl⟩ := (build_some_iff hload).1 hr
      rw [hsort, ofDefinitions_perm hperm, ← hsort] at hg₀
      exact (build_some_iff hload').2 ⟨g₀, hg₀, rfl⟩

/-- With all locations replaced by one, definitions in another order have the same sorted graph. -/
theorem build_unlocated_perm {options : Options} (hsort : options.sortByAlphabet = true)
    (place : Location) {sources sources' : List Source} {d d' : Document}
    (hload : Document.load sources = .ok (some d))
    (hload' : Document.load sources' = .ok (some d'))
    (h : (relocated (fun _ => place) d.definitions).Perm
      (relocated (fun _ => place) d'.definitions)) {g : Graph}
    (hg : build options sources = .ok (some g)) :
    ∃ g', build options sources' = .ok (some g')
      ∧ g'.relocate (fun _ => place) = g.relocate fun _ => place := by
  obtain ⟨g₀, hg₀, rfl⟩ := (build_some_iff hload).1 hg
  have hsame : ofDefinitions true (relocated (fun _ => place) d'.definitions)
      = .ok (g₀.relocate fun _ => place) := by
    rw [← ofDefinitions_perm h, ofDefinitions_relocated]
    exact ⟨g₀, hsort ▸ hg₀, rfl⟩
  -- No location decides anything, so there is a graph of `d'` with its own locations as well.
  obtain ⟨g₁, hg₁, hunlocated⟩ := ofDefinitions_relocated.1 hsame
  refine ⟨g₁.normalize options, (build_some_iff hload').2 ⟨g₁, hsort ▸ hg₁, rfl⟩, ?_⟩
  rw [← normalize_relocate, ← normalize_relocate, hunlocated]

/--
With sorting, the order of sources has no influence: in every order there is a
graph or there is none, and it is the same one to the last location. Nor has the
order of the definitions, wherever in the sources they stand; but as they change
their places by that, the graphs are the same only if all locations in them are
replaced by the same one.
-/
theorem build_perm {options : Options} (hsort : options.sortByAlphabet = true) :
    (∀ sources sources' : List Source, sources.Perm sources' →
        ∀ r, build options sources = .ok r ↔ build options sources' = .ok r)
      ∧ ∀ (place : Location) (sources sources' : List Source) (d d' : Document),
        Document.load sources = .ok (some d) → Document.load sources' = .ok (some d') →
        (relocated (fun _ => place) d.definitions).Perm
          (relocated (fun _ => place) d'.definitions) →
        ∀ u, (∃ g, build options sources = .ok (some g) ∧ g.relocate (fun _ => place) = u)
          ↔ ∃ g, build options sources' = .ok (some g) ∧ g.relocate (fun _ => place) = u := by
  refine ⟨?_, ?_⟩
  · intro sources sources' h r
    exact ⟨build_sources_perm hsort h, build_sources_perm hsort h.symm⟩
  · intro place sources sources' d d' hload hload' h u
    refine ⟨?_, ?_⟩
    · rintro ⟨g, hg, rfl⟩
      exact build_unlocated_perm hsort place hload hload' h hg
    · rintro ⟨g, hg, rfl⟩
      exact build_unlocated_perm hsort place hload' hload h.symm hg

/-- A type in one source, and its extension in another one. -/
def shuffledSources : List Source :=
  [⟨"base", "scalar B type Query{b:B}"⟩, ⟨"more", "extend type Query{a:B}"⟩]

/-- The same definitions in one source, from the last to the first. -/
def mergedSources : List Source :=
  [⟨"merged", "extend type Query{a:B} type Query{b:B} scalar B"⟩]

/-- The definitions in some sources, or none if the sources cannot be read. -/
def definitionsOf (sources : List Source) : List (Definition Location) :=
  match Document.load sources with
  | .ok (some d) => d.definitions
  | _ => []

theorem definitionsOf_eq {sources : List Source} {d : Document}
    (hload : Document.load sources = .ok (some d)) : definitionsOf sources = d.definitions := by
  rw [definitionsOf, hload]

/-- What is chosen where nothing is said, but with sorting. -/
def sortedOptions : Options := { Options.standard with sortByAlphabet := true }

theorem build_perm_shuffled :
    (∃ g, build sortedOptions shuffledSources = .ok (some g)
        ∧ build sortedOptions shuffledSources.reverse = .ok (some g))
      ∧ ∃ g g', build sortedOptions shuffledSources = .ok (some g)
        ∧ build sortedOptions mergedSources = .ok (some g')
        ∧ g'.relocate (fun _ => default) = g.relocate fun _ => default := by
  obtain ⟨g, hg⟩ : ∃ g, build sortedOptions shuffledSources = .ok (some g) :=
    exists_build_sorted (by decide +kernel)
  obtain ⟨g', hg'⟩ : ∃ g, build sortedOptions mergedSources = .ok (some g) :=
    exists_build_sorted (by decide +kernel)
  obtain ⟨d, -, hload, -, -⟩ := build_ok hg
  obtain ⟨d', -, hload', -, -⟩ := build_ok hg'
  have hreversed : relocated (fun _ => default) (definitionsOf mergedSources)
      = (relocated (fun _ => default) (definitionsOf shuffledSources)).reverse := by
    with_unfolding_all rfl
  rw [definitionsOf_eq hload, definitionsOf_eq hload'] at hreversed
  obtain ⟨hsources, hdefinitions⟩ := build_perm (show sortedOptions.sortByAlphabet = true from rfl)
  refine ⟨⟨g, hg, ?_⟩, ?_⟩
  · exact (hsources _ _ (List.reverse_perm shuffledSources).symm _).1 hg
  · have hperm := hreversed ▸ (List.reverse_perm (relocated (fun _ => default) d.definitions)).symm
    obtain ⟨g₁, hg₁, hsame⟩ :=
      (hdefinitions default _ _ d d' hload hload' hperm _).1 ⟨g, hg, rfl⟩
    exact ⟨g, g₁, hg, hg₁, hsame⟩

end Graph

end SchemaGraph
