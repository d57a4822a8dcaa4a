import SchemaGraph.Proofs.Kinds
import SchemaGraph.Proofs.Relations

/-!
# Types that describe the language

Types whose names start with two underscores are left out of a catalog. A source that
declares only such types changes nothing about the others, so it should not show in the
graph. But there is one way in which it does: an interface lists the types that implement
it before any are left out, and so it keeps the name of a type that is not there.

The catalog is the same but for these names (`exposing`). If there are none, so is the
graph. If there are any, no graph can be linked: every other reference leads to a type as
before, so the one that is reported is the name of a type that is declared and left out.
-/

namespace SchemaGraph

open Sdl

section

variable {μ : Type}

/-- Whether these define types that are left out of graphs, and nothing else. -/
def Hidden (hs : List (Definition μ)) : Prop :=
  ∀ x ∈ hs, ∃ t ∈ x.type?, isIntrospective t.name = true

instance (hs : List (Definition μ)) : Decidable (Hidden hs) :=
  decidable_of_iff (hs.all fun x => x.type?.any (isIntrospective ·.name)) (by
    simp only [Hidden, List.all_eq_true, Option.any_eq_true, Option.mem_def])

/-- The interfaces that are declared and not left out, nor taken for built-in scalars. -/
def shownInterfaces (ds : List (Definition μ)) : List (TypeDef μ) :=
  (declared ds).filter fun d =>
    d.body.kind = .interface ∧ isIntrospective d.name = false ∧ d.name ∉ builtinScalars

variable {hs : List (Definition μ)} (h : Hidden hs)

include h

theorem Hidden.introspective : ∀ t ∈ declared hs, isIntrospective t.name = true := by
  intro t ht
  obtain ⟨x, hx, htype⟩ := List.mem_filterMap.1 ht
  obtain ⟨t', htype', hintrospective⟩ := h x hx
  obtain rfl : t = t' := Option.some.inj (htype.symm.trans htype')
  exact hintrospective

theorem Hidden.filterMap_eq_nil {α : Type} {part : Definition μ → Option α}
    (hpart : ∀ t, part (.type t) = none) : hs.filterMap part = [] := by
  refine List.filterMap_eq_nil_iff.2 fun x hx => ?_
  obtain ⟨t, htype, -⟩ := h x hx
  cases x <;> cases htype
  exact hpart t

theorem Hidden.extensionsOf_eq_nil (name : String) : extensionsOf hs name = [] := by
  rw [extensionsOf, h.filterMap_eq_nil fun _ => rfl, List.filter_nil]

theorem Hidden.parts_append (ds : List (Definition μ)) (d : TypeDef μ) :
    parts (ds ++ hs) d = parts ds d := by
  rw [SchemaGraph.parts_append, h.extensionsOf_eq_nil, List.append_nil]

theorem Hidden.rootDefinitions_append (ds : List (Definition μ)) :
    rootDefinitions (ds ++ hs) = rootDefinitions ds := by
  have hdefined : schemaDefinitions hs = [] := h.filterMap_eq_nil fun _ => rfl
  have hadded : hs.filterMap Definition.addedRoots? = [] := h.filterMap_eq_nil fun _ => rfl
  have happend : schemaDefinitions (ds ++ hs) = schemaDefinitions ds ++ schemaDefinitions hs :=
    List.filterMap_append
  rw [rootDefinitions, rootDefinitions, happend, hdefined, List.filterMap_append, hadded,
    List.append_nil, List.append_nil]

theorem Hidden.undeclaredScalars_append (ds : List (Definition μ)) :
    undeclaredScalars (ds ++ hs) = undeclaredScalars ds := by
  refine List.filter_congr fun name hname => ?_
  have hnone : name ∉ (declared hs).map (·.name) := by
    intro hmem
    obtain ⟨t, ht, rfl⟩ := List.mem_map.1 hmem
    have hhidden := h.introspective t ht
    rw [isIntrospective_builtin hname] at hhidden
    cases hhidden
  simp only [declared_append, List.map_append, List.mem_append, hnone, or_false]

end

section

variable {μ ν : Type} (u : μ → ν) (ds : List (Definition μ))

theorem Sdl.Definition.type?_map (x : Definition μ) : (x.map u).type? = x.type?.map (·.map u) := by
  cases x <;> rfl

theorem declared_map : declared (ds.map (·.map u)) = (declared ds).map (·.map u) := by
  rw [declared, declared, List.filterMap_map, List.map_filterMap]
  exact List.filterMap_congr fun x _ => x.type?_map u

theorem Hidden.map {hs : List (Definition μ)} (h : Hidden hs) : Hidden (hs.map (·.map u)) := by
  refine List.forall_mem_map.2 fun x hx => ?_
  obtain ⟨t, htype, hintrospective⟩ := h x hx
  exact ⟨t.map u, by rw [x.type?_map, htype]; rfl, hintrospective⟩

end

section

variable {ds es : List (Definition Location)} {s s' : Schema} (hhidden : Hidden es)
  (hs : Makes ds s) (hs' : Makes (ds ++ es) s')

include hs hs' in
/-- What extends a type names one that was there, so hidden types are not extended. -/
theorem extensionsOf_hidden {t : TypeDef Location} (ht : t ∈ declared es) :
    extensionsOf ds t.name = [] := by
  refine List.filter_eq_nil_iff.2 fun e he hname => ?_
  obtain ⟨d, hd, hbase, -⟩ := hs.extensions e he
  have hnames := hs'.declared_names
  rw [declared_append, List.map_append, List.nodup_append] at hnames
  exact hnames.2.2 _ (List.mem_map_of_mem hd) _ (List.mem_map_of_mem ht)
    (hbase.trans (beq_iff_eq.1 hname))

include hhidden hs hs'

theorem implementors_hidden (interface : String) :
    s'.implementors interface = s.implementors interface ++ implementing es interface := by
  have hparts : ∀ t ∈ declared es, parts (ds ++ es) t = parts es t := by
    intro t ht
    rw [hhidden.parts_append, parts, parts, extensionsOf_hidden hs hs' ht,
      hhidden.extensionsOf_eq_nil]
  rw [implementors_eq hs'.types hs'.kinds, implementors_eq hs.types hs.kinds, implementing,
    declared_append, List.filter_append, List.map_append, implementing, implementing]
  congr 2
  · exact List.filter_congr fun d _ => by rw [hhidden.parts_append]
  · exact List.filter_congr fun t ht => by rw [hparts t ht]

omit hs hs' in
theorem extended_hidden (d : TypeDef Location) : extended (ds ++ es) d = extended ds d := by
  rw [extended, extensionsOf_append, hhidden.extensionsOf_eq_nil, List.append_nil, extended]

theorem shown_hidden :
    s'.types.filter (!isIntrospective ·.name) = s.types.filter (!isIntrospective ·.name) := by
  have hnone : ((declared es).map (extended ds)).filter (!isIntrospective ·.name) = [] := by
    refine List.filter_eq_nil_iff.2 fun t ht => ?_
    obtain ⟨d, hd, rfl⟩ := List.mem_map.1 ht
    rw [extended_name, hhidden.introspective d hd]
    exact Bool.false_ne_true
  rw [hs'.types, hs.types, typesOf, typesOf, hhidden.undeclaredScalars_append, declared_append,
    funext (extended_hidden hhidden), List.map_append, List.filter_append, List.filter_append,
    hnone, List.append_nil, ← List.filter_append]

theorem rootNames_hidden : s'.rootNames = s.rootNames := by
  have hnames : ∀ o : Operation,
      o.title ∈ s'.types.map (·.name) ↔ o.title ∈ s.types.map (·.name) := by
    intro o
    have hshown : ∀ types : List SchemaType, o.title ∈ types.map (·.name) ↔
        o.title ∈ (types.filter (!isIntrospective ·.name)).map (·.name) := by
      intro types
      have htitle : isIntrospective o.title = false := by cases o <;> decide
      simp only [List.mem_map, List.mem_filter, and_assoc]
      refine exists_congr fun t => and_congr_right fun _ => ⟨fun hname => ?_, fun h => h.2⟩
      rw [hname, htitle]
      exact ⟨rfl, rfl⟩
    rw [hshown, shown_hidden hhidden hs hs', ← hshown]
  have hroots := hs.roots
  have hroots' := hs'.roots
  unfold NamesRoots at hroots hroots'
  rw [hhidden.rootDefinitions_append] at hroots'
  split at hroots
  · next hnil =>
      rw [if_pos hnil] at hroots'
      rw [hroots, hroots']
      simp only [impliedRoots, lookupType_map_name, hnames]
  · next hnil =>
      rw [if_neg hnil] at hroots'
      exact RootNames.ext_get fun o => toList_inj.1 ((hroots' o).trans (hroots o).symm)

end

namespace Catalog

/-- An interface that lists hidden types too. -/
def Entry.exposing (es : List (Definition Location)) (e : Entry) : Entry :=
  { e with
    derivedTypes := e.derivedTypes
      ++ if e.kind = .interface then implementing es e.name else [] }

/-- A catalog whose interfaces list hidden types too. -/
def exposing (c : Catalog) (es : List (Definition Location)) : Catalog :=
  { c with entries := c.entries.map (Entry.exposing es) }

end Catalog

section

variable {ds es : List (Definition Location)} {s s' : Schema} (hhidden : Hidden es)
  (hs : Makes ds s) (hs' : Makes (ds ++ es) s')

include hhidden hs hs'

theorem ofType_hidden (t : SchemaType) :
    Catalog.Entry.ofType s' t = (Catalog.Entry.ofType s t).exposing es := by
  by_cases hbuiltin : t.name ∈ builtinScalars
  · rw [Catalog.Entry.ofType_builtin hbuiltin, Catalog.Entry.ofType_builtin hbuiltin]
    rfl
  · have hnodup := nodup_implementing hs'.types hs'.once t.name
    rw [← implementors_eq hs'.types hs'.kinds, implementors_hidden hhidden hs hs'] at hnodup
    have hfirst := (List.nodup_append.1 hnodup).1
    rw [Catalog.Entry.ofType_eq hbuiltin, Catalog.Entry.ofType_eq hbuiltin,
      implementors_hidden hhidden hs hs', eraseDups_of_nodup hnodup, eraseDups_of_nodup hfirst,
      Catalog.Entry.exposing]
    dsimp only
    split
    · rfl
    · rw [List.append_nil]

/-- The catalog is the same but for the hidden types that interfaces list. -/
theorem ofSchema_hidden : Catalog.ofSchema s' = (Catalog.ofSchema s).exposing es := by
  have hroots := rootNames_hidden hhidden hs hs'
  have hentries : (s'.types.filter (!isIntrospective ·.name)).map (Catalog.Entry.ofType s')
      = ((s.types.filter (!isIntrospective ·.name)).map (Catalog.Entry.ofType s)).map
        (Catalog.Entry.exposing es) := by
    rw [shown_hidden hhidden hs hs', List.map_map]
    exact List.map_congr_left fun t _ => ofType_hidden hhidden hs hs' t
  simp only [Schema.rootNames, RootNames.mk.injEq, Option.some.injEq] at hroots
  obtain ⟨hquery, hmutation, hsubscription⟩ := hroots
  rw [Catalog.ofSchema, hentries, hquery, hmutation, hsubscription]
  rfl

end

/-! ## Linking with hidden types

With hidden types there are all the references that there are without them, and one more
for each hidden type that an interface lists. If the former all lead to types and there is
one of the latter, then linking fails, and what it reports is one of the latter. Which of
them comes first, and whether the catalog was put in order before, need not be known for
this (`link_exposing`). -/

namespace Catalog

/-- The catalog as it is, or in order. -/
def arranged (sort : Bool) (c : Catalog) : Catalog := if sort then c.sorted else c

section

variable {c : Catalog} {es : List (Definition Location)}

theorem mem_references_arranged {sort : Bool} {r : Reference} :
    r ∈ (c.arranged sort).references ↔ r ∈ c.references := by
  cases sort with
  | false => exact Iff.rfl
  | true => exact (references_sorted c).mem_iff

theorem declares_arranged (sort : Bool) (name : String) :
    (c.arranged sort).declares name = c.declares name := by
  cases sort with
  | false => rfl
  | true => exact declares_sorted c name

/-- What linking reports is a reference that leads nowhere, if there is any. -/
theorem exists_link_error {r : Reference} (hr : r ∈ c.references)
    (hdangles : c.declares r.name = false) :
    ∃ q ∈ c.references, c.declares q.name = false ∧ c.link = .error q := by
  cases hfound : c.references.find? fun q => !c.declares q.name with
  | none =>
      have hnone := List.find?_eq_none.1 hfound r hr
      rw [hdangles] at hnone
      exact absurd rfl hnone
  | some q =>
      refine ⟨q, List.mem_of_find?_eq_some hfound, ?_, ?_⟩
      · simpa using List.find?_some hfound
      · rw [link, hfound]

theorem declares_exposing (name : String) :
    (c.exposing es).declares name = c.declares name := by
  rw [declares, declares, exposing, List.any_map]
  rfl

theorem Entry.mem_references_exposing {e : Entry} {r : Reference} :
    r ∈ (e.exposing es).references ↔ r ∈ e.references ∨ e.kind = .interface
      ∧ ∃ name ∈ implementing es e.name,
        ⟨name, Id.derivedType e.name name, e.location⟩ = r := by
  have hlisted : ∀ name, name ∈ (if e.kind = .interface then implementing es e.name else []) ↔
      e.kind = .interface ∧ name ∈ implementing es e.name := by
    intro name
    split
    · next hkind => rw [and_iff_right hkind]
    · next hkind => exact iff_of_false List.not_mem_nil fun h => hkind h.1
  simp only [references, exposing, List.map_append, List.mem_append, List.mem_map, hlisted,
    and_assoc, exists_and_left]
  rw [← or_assoc, or_right_comm]

theorem mem_references_exposing {r : Reference} :
    r ∈ (c.exposing es).references ↔ r ∈ c.references ∨ ∃ e ∈ c.entries, e.kind = .interface
      ∧ ∃ name ∈ implementing es e.name,
        ⟨name, Id.derivedType e.name name, e.location⟩ = r := by
  simp only [references, exposing, rootNames, List.mem_append, List.flatMap_map,
    List.mem_flatMap, Entry.mem_references_exposing, and_or_left, exists_or]
  rw [or_right_comm]

theorem exposing_eq_self
    (h : ∀ e ∈ c.entries, e.kind = .interface → implementing es e.name = []) :
    c.exposing es = c := by
  have hentry : ∀ e ∈ c.entries, e.exposing es = id e := by
    intro e he
    rw [Entry.exposing]
    split
    · next hkind => rw [h e he hkind, List.append_nil, id]
    · rw [List.append_nil, id]
  rw [exposing, List.map_congr_left hentry, List.map_id]

/--
If all references lead to types and none to a hidden one, either no interface lists hidden
types, or one that does has its reference to one of them reported.
-/
theorem link_exposing {sort : Bool} (hall : ∀ r ∈ c.references, c.declares r.name = true)
    (hnone : ∀ interface, ∀ name ∈ implementing es interface, c.declares name = false) :
    ((∀ e ∈ c.entries, e.kind = .interface → implementing es e.name = []) ∧ c.exposing es = c)
      ∨ ∃ e ∈ c.entries, e.kind = .interface ∧ ∃ name ∈ implementing es e.name,
        ((c.exposing es).arranged sort).link
          = .error ⟨name, Id.derivedType e.name name, e.location⟩ := by
  by_cases hempty : ∀ e ∈ c.entries, e.kind = .interface → implementing es e.name = []
  · exact .inl ⟨hempty, exposing_eq_self hempty⟩
  · push Not at hempty
    obtain ⟨e, he, hkind, hlisted⟩ := hempty
    obtain ⟨name, hname⟩ := List.exists_mem_of_ne_nil _ hlisted
    have hmem : ⟨name, Id.derivedType e.name name, e.location⟩
        ∈ ((c.exposing es).arranged sort).references :=
      mem_references_arranged.2 (mem_references_exposing.2 (.inr ⟨e, he, hkind, name, hname, rfl⟩))
    obtain ⟨q, hq, hdangles, herror⟩ := exists_link_error hmem
      (by rw [declares_arranged, declares_exposing, hnone _ name hname])
    rw [declares_arranged, declares_exposing] at hdangles
    rcases mem_references_exposing.1 (mem_references_arranged.1 hq) with
      hq | ⟨e, he, hkind, name, hname, rfl⟩
    · rw [hall q hq] at hdangles
      cases hdangles
    · exact .inr ⟨e, he, hkind, name, hname, herror⟩

end

theorem Entry.ofType_location (s : Schema) (t : SchemaType) :
    (ofType s t).location = t.mark := by
  unfold ofType
  dsimp only
  split
  · rfl
  · split <;> rfl

end Catalog

section

variable {ds es : List (Definition Location)} {s : Schema}

theorem Hidden.mem_implementing (h : Hidden es) {interface name : String} :
    name ∈ implementing es interface ↔
      ∃ t ∈ declared es, t.name = name ∧ interface ∈ t.body.interfaces := by
  rw [SchemaGraph.mem_implementing]
  refine exists_congr fun t => and_congr_right fun _ => and_congr_right fun _ => ?_
  rw [parts, h.extensionsOf_eq_nil]
  simp only [List.mem_singleton, exists_eq_left]

/-- The interfaces of a catalog are those that are declared and shown. -/
theorem Makes.exists_shown (h : Makes ds s) {e : Catalog.Entry}
    (he : e ∈ (Catalog.ofSchema s).entries) (hkind : e.kind = .interface) :
    ∃ d ∈ shownInterfaces ds, d.name = e.name ∧ some d.mark = e.location := by
  obtain ⟨t, ht, rfl⟩ := List.mem_map.1 he
  obtain ⟨ht, hshown⟩ := List.mem_filter.1 ht
  rw [Catalog.Entry.ofType_kind, kindOf] at hkind
  rw [Catalog.Entry.ofType_name, Catalog.Entry.ofType_location]
  rw [h.types] at ht
  split at hkind
  · cases hkind
  · next hbuiltin =>
      rcases mem_typesOf.1 ht with ⟨d, hd, rfl⟩ | ⟨name, -, rfl⟩
      · rw [extended_name] at hshown hbuiltin
        rw [extended_body_kind] at hkind
        rw [List.contains_iff_mem] at hbuiltin
        rw [Bool.not_eq_true'] at hshown
        exact ⟨d, List.mem_filter.2 ⟨hd, decide_eq_true ⟨hkind, hshown, hbuiltin⟩⟩,
          (extended_name ds d).symm, (extended_description ds d).2.symm⟩
      · cases hkind

theorem Makes.exists_entry (h : Makes ds s) {d : TypeDef Location} (hd : d ∈ shownInterfaces ds) :
    ∃ e ∈ (Catalog.ofSchema s).entries, e.kind = .interface ∧ e.name = d.name := by
  obtain ⟨hd, hshown⟩ := List.mem_filter.1 hd
  obtain ⟨hkind, hintrospective, hbuiltin⟩ := of_decide_eq_true hshown
  have ht : extended ds d ∈ s.types := h.types ▸ mem_typesOf.2 (.inl ⟨d, hd, rfl⟩)
  refine ⟨_, List.mem_map_of_mem (List.mem_filter.2 ⟨ht, ?_⟩), ?_, ?_⟩
  · rw [extended_name, hintrospective]
    rfl
  · rw [Catalog.Entry.ofType_kind, kindOf, extended_name, if_neg (by simpa using hbuiltin),
      extended_body_kind, hkind]
  · rw [Catalog.Entry.ofType_name, extended_name]

theorem Hidden.undeclared (h : Hidden es) (interface : String) :
    ∀ name ∈ implementing es interface, (Catalog.ofSchema s).declares name = false := by
  intro name hname
  obtain ⟨t, ht, rfl, -⟩ := h.mem_implementing.1 hname
  rw [← Bool.not_eq_true, Catalog.declares, List.any_eq_true]
  rintro ⟨e, he, hsame⟩
  have hmem : t.name ∈ (Catalog.ofSchema s).entries.map (·.name) :=
    beq_iff_eq.1 hsame ▸ List.mem_map_of_mem he
  rw [Catalog.ofSchema_names] at hmem
  obtain ⟨u, hu, hname⟩ := List.mem_map.1 hmem
  have hshown := (List.mem_filter.1 hu).2
  rw [hname, h.introspective t ht] at hshown
  cases hshown

end

namespace Graph

theorem ofDefinitions_eq_link {ds : List (Definition Location)} {s : Schema} (h : Makes ds s)
    (sort : Bool) :
    ofDefinitions sort ds
      = ((Catalog.ofSchema s).arranged sort).link.mapError Reference.report := by
  have harranged : Catalog.ofSchema (if sort then s.sorted else s)
      = (Catalog.ofSchema s).arranged sort := by
    cases sort with
    | false => rfl
    | true => exact Catalog.ofSchema_sorted h.once.types
  rw [ofDefinitions, h.ofDefinitions, ← harranged]
  simp only [Except.map]
  cases (Catalog.ofSchema (if sort then s.sorted else s)).link <;> rfl

theorem ofDefinitions_hidden {ds es : List (Definition Location)} {sort : Bool} {g : Graph}
    {s' : Schema} (hhidden : Hidden es) (h : ofDefinitions sort ds = .ok g)
    (hs' : Makes (ds ++ es) s') :
    ((∀ d ∈ shownInterfaces ds, ∀ t ∈ declared es, d.name ∉ t.body.interfaces)
        ∧ ofDefinitions sort (ds ++ es) = .ok g)
      ∨ ∃ d ∈ shownInterfaces ds, ∃ t ∈ declared es, d.name ∈ t.body.interfaces
        ∧ ofDefinitions sort (ds ++ es)
          = .error (Reference.report ⟨t.name, Id.derivedType d.name t.name, some d.mark⟩) := by
  obtain ⟨s, hs, -⟩ := ofDefinitions_iff.1 h
  rw [ofDefinitions_eq_link hs] at h
  have hall : ∀ r ∈ (Catalog.ofSchema s).references,
      (Catalog.ofSchema s).declares r.name = true := by
    intro r hr
    by_contra hdangles
    obtain ⟨q, -, -, herror⟩ := Catalog.exists_link_error
      (Catalog.mem_references_arranged.2 hr)
      ((Catalog.declares_arranged sort r.name).trans (Bool.not_eq_true _ ▸ hdangles))
    rw [herror] at h
    cases h
  rw [ofDefinitions_eq_link hs', ofSchema_hidden hhidden hs hs']
  rcases Catalog.link_exposing hall (hhidden.undeclared (s := s)) with
    ⟨hnone, hsame⟩ | ⟨e, he, hkind, name, hname, herror⟩
  · refine .inl ⟨fun d hd t ht himplements => ?_, by rw [hsame, h]⟩
    obtain ⟨e, he, hkind, hname⟩ := hs.exists_entry hd
    have hlisted := hhidden.mem_implementing.2 ⟨t, ht, rfl, hname.symm ▸ himplements⟩
    rw [hnone e he hkind] at hlisted
    cases hlisted
  · obtain ⟨d, hd, hsame, hmark⟩ := hs.exists_shown he hkind
    obtain ⟨t, ht, rfl, himplements⟩ := hhidden.mem_implementing.1 hname
    refine .inr ⟨d, hd, t, ht, hsame.symm ▸ himplements, ?_⟩
    rw [herror, hsame, hmark]
    rfl

/--
A source that declares only hidden types is added behind sources that a graph can be built
from, and all of them together make up a schema. Then the graph is as it was, unless one of
the hidden types implements an interface that the graph shows. In that case there is none,
and what is reported is that such an interface refers to such a type.
-/
theorem build_hidden {options : Options} {sources : List Source} {g : Graph} {d : Document}
    {added : Source} {f : Fragment} (hbuild : build options sources = .ok (some g))
    (hload : Document.load sources = .ok (some d)) (hread : Fragment.ofSource added = .ok f)
    (hhidden : Hidden f.definitions)
    (hschema : ∃ s, Schema.ofDocument options.sortByAlphabet ⟨d.fragments ++ [f]⟩ = .ok s) :
    ((∀ e ∈ shownInterfaces d.definitions, ∀ t ∈ declared f.definitions,
          e.name ∉ t.body.interfaces)
        ∧ build options (sources ++ [added]) = .ok (some g))
      ∨ ∃ e ∈ shownInterfaces d.definitions, ∃ t ∈ declared f.definitions,
        e.name ∈ t.body.interfaces ∧ build options (sources ++ [added])
          = .error (Reference.report ⟨t.name, Id.derivedType e.name t.name, some e.mark⟩) := by
  obtain ⟨d', g₀, hload', hlink, rfl⟩ := build_ok hbuild
  obtain rfl : d = d' := Option.some.inj (Except.ok.inj (hload.symm.trans hload'))
  have hmore : Document.load (sources ++ [added]) = .ok (some ⟨d.fragments ++ [f]⟩) := by
    obtain ⟨-, hfragments⟩ := Document.load_iff.1 hload
    have hall := Document.readAll_iff.1 hfragments
    refine Document.load_iff.2 ⟨List.append_ne_nil_of_right_ne_nil _ (List.cons_ne_nil _ _), ?_⟩
    exact Document.readAll_iff.2 (List.rel_append hall (.cons hread .nil))
  have hdefinitions : (⟨d.fragments ++ [f]⟩ : Document).definitions
      = d.definitions ++ f.located := by
    simp [Document.definitions]
  have hdeclared : declared f.located = (declared f.definitions).map _ := declared_map _ _
  have hinterfaces : ∀ (t : TypeDef Span) (u : Span → Location),
      (t.map u).body.interfaces = t.body.interfaces := fun t u => TypeBody.interfaces_map u t.body
  obtain ⟨s, hs⟩ := hschema
  obtain ⟨s', hs', -⟩ := Except.map_ok.1 hs
  rw [hdefinitions, SchemaGraph.ofDefinitions_iff] at hs'
  have houtcome := ofDefinitions_hidden (hhidden.map _) hlink hs'
  rw [← Fragment.located, ← hdefinitions, ← ofDocument_eq, hdeclared] at houtcome
  unfold build
  rw [hmore]
  rcases houtcome with ⟨hnone, hgraph⟩ | ⟨e, he, t, ht, hmem, herror⟩
  · refine .inl ⟨fun e he t ht => ?_, by simp only [hgraph]⟩
    rw [← hinterfaces]
    exact hnone e he _ (List.mem_map_of_mem ht)
  · obtain ⟨t₀, ht₀, rfl⟩ := List.mem_map.1 ht
    rw [hinterfaces] at hmem
    exact .inr ⟨e, he, t₀, ht₀, hmem, by simp only [herror]; rfl⟩

/-- A schema with an interface. -/
def visibleSource : Source := ⟨"base", "type Query{a:N}interface N{b:Int}"⟩

/-- A hidden type that implements the interface, and one that does not. -/
def hiddenSource : Source := ⟨"more", "enum __Y{A} type __X implements N{b:Int}"⟩

theorem build_hidden_implementing :
    (∃ g, build .standard [visibleSource] = .ok (some g))
      ∧ build .standard [visibleSource, hiddenSource]
        = .error (Reference.report ⟨"__X", "DERIVED_TYPE::N::__X", some ⟨"base", 1, 16⟩⟩) := by
  have hbuilt : (build .standard [visibleSource]).toOption.join.isSome = true := by
    decide +kernel
  have hread : (Document.load [visibleSource]).toOption.join.any (fun d =>
      (Fragment.ofSource hiddenSource).toOption.any fun f =>
        decide (Hidden f.definitions)
          && (Schema.ofDocument false ⟨d.fragments ++ [f]⟩).toOption.isSome
          && (shownInterfaces d.definitions).map (fun e => (e.name, e.mark))
            == [("N", ⟨"base", 1, 16⟩)]
          && (declared f.definitions).map (fun t => (t.name, t.body.interfaces))
            == [("__Y", []), ("__X", ["N"])]) = true := by
    decide +kernel
  obtain ⟨g, hg⟩ := exists_build hbuilt
  obtain ⟨d, hload, hd⟩ := Except.exists_some_of_any hread
  obtain ⟨f, hf, hfacts⟩ := Except.exists_ok_of_any hd
  simp only [Bool.and_eq_true, decide_eq_true_eq, beq_iff_eq] at hfacts
  obtain ⟨⟨⟨hhidden, hmade⟩, hshown⟩, hdeclared⟩ := hfacts
  have hinterface : ∀ e ∈ shownInterfaces d.definitions,
      e.name = "N" ∧ e.mark = ⟨"base", 1, 16⟩ := by
    intro e he
    have hmem := List.mem_map_of_mem (f := fun e => (e.name, e.mark)) he
    rw [hshown, List.mem_singleton, Prod.mk.injEq] at hmem
    exact hmem
  have htype : ∀ t ∈ declared f.definitions, "N" ∈ t.body.interfaces → t.name = "__X" := by
    intro t ht himplements
    have hmem := List.mem_map_of_mem (f := fun t => (t.name, t.body.interfaces)) ht
    simp only [hdeclared, List.mem_cons, Prod.mk.injEq, List.not_mem_nil, or_false] at hmem
    rcases hmem with ⟨-, hnone⟩ | ⟨hname, -⟩
    · rw [hnone] at himplements
      cases himplements
    · exact hname
  refine ⟨⟨g, hg⟩, ?_⟩
  rcases build_hidden hg hload hf hhidden (Except.exists_ok hmade) with
    ⟨hnone, -⟩ | ⟨e, he, t, ht, himplements, herror⟩
  · have he : ("N", ⟨"base", 1, 16⟩) ∈ (shownInterfaces d.definitions).map
        fun e => (e.name, e.mark) := hshown ▸ List.mem_singleton_self _
    have ht : ("__X", ["N"]) ∈ (declared f.definitions).map fun t => (t.name, t.body.interfaces) :=
      hdeclared ▸ List.mem_cons_of_mem _ (List.mem_singleton_self _)
    obtain ⟨e, he, hename⟩ := List.mem_map.1 he
    obtain ⟨t, ht, htname⟩ := List.mem_map.1 ht
    refine absurd ?_ (hnone e he t ht)
    rw [(Prod.mk.inj hename).1, (Prod.mk.inj htname).2]
    exact List.mem_singleton_self _
  · obtain ⟨hname, hmark⟩ := hinterface e he
    rw [hname] at himplements
    rw [hname, hmark, htype t ht himplements] at herror
    exact herror

end Graph

end SchemaGraph
