import SchemaGraph.Proofs.Canonical
import SchemaGraph.Proofs.Fitting
import SchemaGraph.Proofs.Image

/-!
# Extensions are inlined

To extend a type is to write what the extension adds into the definition of the
type, at the end of what is there. It does not matter where the extension stands,
nor how many there are: a graph can be made from the one exactly if it can be
made from the other, and it is the same graph.

The schemas are not quite the same. An extension adds only what interfaces and
members its type does not have yet, and a definition keeps repetitions as they
are written. But both ways lead to the same lists once repetitions are taken out,
and a catalog does not see more than that.
-/

namespace SchemaGraph

open Sdl

variable {μ ν α : Type}

/-- A body with the members of another one of its kind written after its own. -/
def Sdl.TypeBody.append : TypeBody μ → TypeBody μ → TypeBody μ
  | object interfaces fields, object moreInterfaces moreFields =>
    object (interfaces ++ moreInterfaces) (fields ++ moreFields)
  | interface interfaces fields, interface moreInterfaces moreFields =>
    interface (interfaces ++ moreInterfaces) (fields ++ moreFields)
  | union members, union moreMembers => union (members ++ moreMembers)
  | enum values, enum moreValues => enum (values ++ moreValues)
  | input fields, input moreFields => input (fields ++ moreFields)
  | body, _ => body

/-- The definition of a type with all that its extensions add written into it, in order. -/
def Sdl.TypeDef.inlined (ds : List (Definition μ)) (d : TypeDef μ) : TypeDef μ :=
  { d with body := (extensionsOf ds d.name).foldl (fun b e => b.append e.body) d.body }

/-- A definition with its extensions written into it; of the extensions nothing is left. -/
def Sdl.Definition.inlined? (ds : List (Definition μ)) : Definition μ → Option (Definition μ)
  | type d => some (type (d.inlined ds))
  | extendType _ => none
  | d => some d

/-- Definitions with all extensions of types written into the types. -/
def inlined (ds : List (Definition μ)) : List (Definition μ) :=
  ds.filterMap (Definition.inlined? ds)

namespace Sdl.TypeBody

section

variable {b c : TypeBody μ} (h : c.kind = b.kind)

theorem kind_append (b c : TypeBody μ) : (b.append c).kind = b.kind := by
  cases b <;> cases c <;> rfl

include h

theorem fields_append : (b.append c).fields = b.fields ++ c.fields := by
  cases b <;> cases c <;> first | rfl | cases h

theorem inputFields_append : (b.append c).inputFields = b.inputFields ++ c.inputFields := by
  cases b <;> cases c <;> first | rfl | cases h

theorem values_append : (b.append c).values = b.values ++ c.values := by
  cases b <;> cases c <;> first | rfl | cases h

theorem interfaces_append : (b.append c).interfaces = b.interfaces ++ c.interfaces := by
  cases b <;> cases c <;> first | rfl | cases h

theorem unionMembers_append : (b.append c).unionMembers = b.unionMembers ++ c.unionMembers := by
  cases b <;> cases c <;> first | rfl | cases h

end

end Sdl.TypeBody

theorem inlined_kind (ds : List (Definition μ)) (d : TypeDef μ) :
    (d.inlined ds).body.kind = d.body.kind := by
  have hfold : ∀ (es : List (TypeDef μ)) (b : TypeBody μ),
      (es.foldl (fun b e => b.append e.body) b).kind = b.kind := by
    intro es
    induction es with
    | nil => exact fun _ => rfl
    | cons e es ih => exact fun b => (ih _).trans (TypeBody.kind_append b e.body)
  exact hfold _ _

/-- What is written into a definition is, part by part, what all its parts together have. -/
theorem inlined_append {ds : List (Definition μ)} {d : TypeDef μ}
    {part : TypeBody μ → List α}
    (hpart : ∀ {b c : TypeBody μ}, c.kind = b.kind → part (b.append c) = part b ++ part c)
    (hkind : ∀ e ∈ extensionsOf ds d.name, e.body.kind = d.body.kind) :
    part (d.inlined ds).body = (parts ds d).flatMap fun t => part t.body := by
  have hfold : ∀ (es : List (TypeDef μ)) (b : TypeBody μ), (∀ e ∈ es, e.body.kind = b.kind) →
      part (es.foldl (fun b e => b.append e.body) b)
        = part b ++ es.flatMap fun e => part e.body := by
    intro es
    induction es with
    | nil => exact fun b _ => (List.append_nil _).symm
    | cons e es ih =>
        intro b hb
        obtain ⟨he, hes⟩ := List.forall_mem_cons.1 hb
        rw [List.foldl_cons, ih _ fun e' he' => (hes e' he').trans (TypeBody.kind_append _ _).symm,
          hpart he, List.flatMap_cons, List.append_assoc]
  exact hfold _ _ hkind

theorem declared_inlined (ds : List (Definition μ)) :
    declared (inlined ds) = (declared ds).map (TypeDef.inlined ds) := by
  rw [declared, inlined, List.filterMap_filterMap, declared, List.map_filterMap]
  refine List.filterMap_congr fun d _ => ?_
  cases d <;> rfl

theorem typeExtensions_inlined (ds : List (Definition μ)) : typeExtensions (inlined ds) = [] := by
  rw [typeExtensions, inlined, List.filterMap_filterMap, List.filterMap_eq_nil_iff]
  intro d _
  cases d <;> rfl

theorem extensionsOf_inlined (ds : List (Definition μ)) (name : String) :
    extensionsOf (inlined ds) name = [] := by
  rw [extensionsOf, show (inlined ds).filterMap Definition.extension? = [] from
    typeExtensions_inlined ds, List.filter_nil]

theorem schemaDefinitions_inlined (ds : List (Definition μ)) :
    schemaDefinitions (inlined ds) = schemaDefinitions ds := by
  rw [schemaDefinitions, inlined, List.filterMap_filterMap, schemaDefinitions]
  refine List.filterMap_congr fun d _ => ?_
  cases d <;> rfl

theorem rootDefinitions_inlined (ds : List (Definition μ)) :
    rootDefinitions (inlined ds) = rootDefinitions ds := by
  have hadded : (inlined ds).filterMap Definition.addedRoots?
      = ds.filterMap Definition.addedRoots? := by
    rw [inlined, List.filterMap_filterMap]
    refine List.filterMap_congr fun d _ => ?_
    cases d <;> rfl
  rw [rootDefinitions, schemaDefinitions_inlined, hadded, rootDefinitions]

theorem declared_names_inlined (ds : List (Definition μ)) :
    (declared (inlined ds)).map (·.name) = (declared ds).map (·.name) := by
  rw [declared_inlined, List.map_map]
  rfl

theorem typesOf_inlined (ds : List (Definition Location)) :
    typesOf (inlined ds)
      = (declared ds).map (fun d => (d.inlined ds).map some)
        ++ (undeclaredScalars ds).map builtinScalar := by
  have hextended : ∀ d : TypeDef Location, extended (inlined ds) d = d.map some := by
    intro d
    rw [extended, extensionsOf_inlined]
    rfl
  rw [typesOf, undeclaredScalars, declared_names_inlined, declared_inlined, List.map_map]
  congr 1
  exact List.map_congr_left fun d _ => hextended _

section

variable {ds : List (Definition Location)}

/-- Up to repetitions a type is the same whether its extensions are added or written into it. -/
theorem extended_deduped {d : TypeDef Location}
    (hkind : ∀ e ∈ extensionsOf ds d.name, e.body.kind = d.body.kind) :
    ((d.inlined ds).map some).deduped = (extended ds d).deduped := by
  obtain ⟨hdescription, hmark⟩ := extended_description ds d
  have hbody : ((d.inlined ds).body.map some).deduped = (extended ds d).body.deduped := by
    apply TypeBody.ext_parts
    · rw [TypeBody.kind_deduped, TypeBody.kind_deduped, TypeBody.kind_map, inlined_kind]
      exact ((extendBy_kind _ _).trans (TypeBody.kind_map _ _)).symm
    · rw [TypeBody.fields_deduped, TypeBody.fields_deduped, TypeBody.fields_map,
        inlined_append TypeBody.fields_append hkind]
      exact (extended_append hkind (TypeBody.fields_map some) TypeBody.fields_merge).symm
    · rw [TypeBody.interfaces_deduped, TypeBody.interfaces_deduped, TypeBody.interfaces_map,
        inlined_append TypeBody.interfaces_append hkind]
      exact (extended_eraseDups hkind (TypeBody.interfaces_map some) TypeBody.interfaces_merge).symm
    · rw [TypeBody.unionMembers_deduped, TypeBody.unionMembers_deduped, TypeBody.unionMembers_map,
        inlined_append TypeBody.unionMembers_append hkind]
      exact (extended_eraseDups hkind (TypeBody.unionMembers_map some)
        TypeBody.unionMembers_merge).symm
    · rw [TypeBody.values_deduped, TypeBody.values_deduped, TypeBody.values_map,
        inlined_append TypeBody.values_append hkind]
      exact (extended_append hkind (TypeBody.values_map some) TypeBody.values_merge).symm
    · rw [TypeBody.inputFields_deduped, TypeBody.inputFields_deduped, TypeBody.inputFields_map,
        inlined_append TypeBody.inputFields_append hkind]
      exact (extended_append hkind (TypeBody.inputFields_map some)
        TypeBody.inputFields_merge).symm
  have hname := extended_name ds d
  rw [TypeDef.deduped, TypeDef.deduped, hname, hdescription, hmark, ← hbody]
  rfl

theorem typesOf_inlined_deduped
    (hkinds : ∀ d ∈ declared ds, ∀ e ∈ extensionsOf ds d.name, e.body.kind = d.body.kind) :
    (typesOf (inlined ds)).map TypeDef.deduped = (typesOf ds).map TypeDef.deduped := by
  rw [typesOf_inlined, typesOf, List.map_append, List.map_append, List.map_map, List.map_map,
    List.map_map]
  congr 1
  exact List.map_congr_left fun d hd => extended_deduped (hkinds d hd)

end

theorem Sdl.TypeDef.resembles_of_deduped {t t' : TypeDef μ} (h : t.deduped = t'.deduped) :
    t.Resembles t' := by
  have hbody : t.body.deduped = t'.body.deduped := congrArg TypeDef.body h
  have hfields : t.body.fields = t'.body.fields := by
    simpa using congrArg TypeBody.fields hbody
  have hvalues : t.body.values = t'.body.values := by
    simpa using congrArg TypeBody.values hbody
  have hinputs : t.body.inputFields = t'.body.inputFields := by
    simpa using congrArg TypeBody.inputFields hbody
  have hinterfaces : t.body.interfaces.eraseDups = t'.body.interfaces.eraseDups := by
    simpa using congrArg TypeBody.interfaces hbody
  refine ⟨(congrArg TypeDef.name h).symm, ?_, fun name => ?_, ?_, ?_⟩
  · simpa using (congrArg TypeBody.kind hbody).symm
  · rw [← List.mem_eraseDups, ← hinterfaces, List.mem_eraseDups]
  · rw [TypeBody.members_names, TypeBody.members_names, hfields, hvalues, hinputs]
  · rw [TypeBody.argumentNames, TypeBody.argumentNames, hfields]

/-- Definitions that come to the same types, up to repetitions, fit alike. -/
theorem Makes.of_deduped {ds ds' : List (Definition Location)} {s s' : Schema} (h : Makes ds s)
    (htypes : s'.types = typesOf ds') (hdeduped : s.deduped = s'.deduped)
    (hbases : ∀ e ∈ typeExtensions ds',
      ∃ d ∈ declared ds', d.name = e.name ∧ e.body.kind = d.body.kind)
    (hschemas : schemaDefinitions ds' = schemaDefinitions ds)
    (hroots : rootDefinitions ds' = rootDefinitions ds) : Makes ds' s' := by
  -- Checks ask for names of interfaces by membership, so repetitions do not show in them.
  have hmap : s.types.map TypeDef.deduped = s'.types.map TypeDef.deduped :=
    congrArg Schema.types hdeduped
  have hnames : s'.types.map (·.name) = s.types.map (·.name) := by
    have h := congrArg (List.map fun t : SchemaType => t.name) hmap
    rw [List.map_map, List.map_map] at h
    exact h.symm
  refine h.transfer htypes (.of_eq hnames) (fun t' ht' => ?_) (fun t ht => ?_) hbases
    (.of_eq hschemas) (.of_eq hroots) ?_
  · obtain ⟨t, ht, heq⟩ := List.mem_map.1 (hmap ▸ List.mem_map_of_mem ht')
    exact ⟨t, ht, TypeDef.resembles_of_deduped heq⟩
  · obtain ⟨t', ht', heq⟩ := List.mem_map.1 (hmap ▸ List.mem_map_of_mem ht)
    exact ⟨t', ht', TypeDef.resembles_of_deduped heq.symm⟩
  · rw [Schema.rootNames, Schema.rootNames, show s'.query = s.query from
      (congrArg Schema.query hdeduped).symm, show s'.mutation = s.mutation from
      (congrArg Schema.mutation hdeduped).symm, show s'.subscription = s.subscription from
      (congrArg Schema.subscription hdeduped).symm]

/-- The graph of some definitions, linked and otherwise as they are. -/
def Graph.ofDefinitions (sort : Bool) (ds : List (Definition Location)) : Except Report Graph :=
  match (Schema.ofDefinitions ds).map fun s => if sort then s.sorted else s with
  | .error e => .error e.report
  | .ok s =>
    match (Catalog.ofSchema s).link with
    | .error r => .error r.report
    | .ok g => .ok g

theorem Graph.ofDocument_eq (sort : Bool) (d : Document) :
    ofDocument sort d = ofDefinitions sort d.definitions := rfl

theorem Graph.ofDefinitions_iff {sort : Bool} {ds : List (Definition Location)} {g : Graph} :
    ofDefinitions sort ds = .ok g ↔
      ∃ s, Makes ds s ∧ (Catalog.ofSchema (if sort then s.sorted else s)).link = .ok g := by
  simp only [← SchemaGraph.ofDefinitions_iff, ofDefinitions]
  cases Schema.ofDefinitions ds with
  | error e => simp [Except.map]
  | ok s =>
      simp only [Except.map, Except.ok.injEq, exists_eq_left']
      cases (Catalog.ofSchema (if sort then s.sorted else s)).link <;> simp

/--
If every extension of a type names a type that is declared with the same keyword,
a graph can be made of the definitions exactly if it can be made of them with the
extensions written into the types, and it is the same graph, sorted or not.
-/
theorem Graph.ofDefinitions_inlined {ds : List (Definition Location)}
    (hbases : ∀ e ∈ typeExtensions ds,
      ∃ d ∈ declared ds, d.name = e.name ∧ e.body.kind = d.body.kind) (sort : Bool) (g : Graph) :
    ofDefinitions sort ds = .ok g ↔ ofDefinitions sort (inlined ds) = .ok g := by
  have hnone : ∀ e ∈ typeExtensions (inlined ds),
      ∃ d ∈ declared (inlined ds), d.name = e.name ∧ e.body.kind = d.body.kind := by
    simp [typeExtensions_inlined]
  have hdeduped : ((declared ds).map (·.name)).Nodup → ∀ s : Schema,
      ({ s with types := typesOf (inlined ds) } : Schema).deduped
        = ({ s with types := typesOf ds } : Schema).deduped := by
    intro hnames s
    simp only [Schema.deduped, typesOf_inlined_deduped (extension_kinds hnames hbases)]
  rw [ofDefinitions_iff, ofDefinitions_iff]
  refine ⟨?_, ?_⟩
  · rintro ⟨s, hs, hlink⟩
    have hsame : s.deduped = ({ s with types := typesOf (inlined ds) } : Schema).deduped := by
      rw [hdeduped hs.declared_names, ← hs.types]
    refine ⟨_, hs.of_deduped rfl hsame hnone (schemaDefinitions_inlined ds)
      (rootDefinitions_inlined ds), ?_⟩
    rw [← Catalog.ofSchema_congr hsame]
    exact hlink
  · rintro ⟨s, hs, hlink⟩
    have hnames : ((declared ds).map (·.name)).Nodup :=
      declared_names_inlined ds ▸ hs.declared_names
    have hsame : s.deduped = ({ s with types := typesOf ds } : Schema).deduped := by
      rw [← hdeduped hnames, ← hs.types]
    refine ⟨_, hs.of_deduped rfl hsame hbases (schemaDefinitions_inlined ds).symm
      (rootDefinitions_inlined ds).symm, ?_⟩
    rw [← Catalog.ofSchema_congr hsame]
    exact hlink

/-- Extensions on both sides of what they extend, one of them with an interface known before. -/
def scatteredDefinitions : List (Definition Location) :=
  let place (line : Nat) : Location := ⟨"scattered", line, 1⟩
  let id (line : Nat) : FieldDef Location := ⟨none, "id", [], .named "ID", [], place line⟩
  [.extendType
      ⟨none, "Query", .object ["N", "M"] [⟨none, "e", [], .named "E", [], place 1⟩], place 1⟩,
    .type ⟨none, "E", .enum [⟨none, "A", [], place 2⟩], place 2⟩,
    .type ⟨none, "Query", .object ["N", "N"] [id 3], place 3⟩,
    .extendType ⟨none, "E", .enum [⟨none, "B", [], place 4⟩], place 4⟩,
    .type ⟨none, "N", .interface [] [id 5], place 5⟩,
    .type ⟨none, "M", .interface [] [id 6], place 6⟩]

theorem Graph.ofDefinitions_inlined_scattered :
    (∀ e ∈ typeExtensions scatteredDefinitions,
        ∃ d ∈ declared scatteredDefinitions, d.name = e.name ∧ e.body.kind = d.body.kind)
      ∧ ∃ g, ofDefinitions false scatteredDefinitions = .ok g
        ∧ ofDefinitions false (inlined scatteredDefinitions) = .ok g := by
  have hbases : ∀ e ∈ typeExtensions scatteredDefinitions,
      ∃ d ∈ declared scatteredDefinitions, d.name = e.name ∧ e.body.kind = d.body.kind := by
    decide
  have hmade : (ofDefinitions false scatteredDefinitions).toOption.isSome = true := by
    decide +kernel
  obtain ⟨g, hg⟩ := Except.exists_ok hmade
  exact ⟨hbases, g, hg, (ofDefinitions_inlined hbases false g).1 hg⟩

end SchemaGraph
