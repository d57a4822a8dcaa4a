import SchemaGraph.Proofs.Resolution

/-!
# What a type of a schema becomes in the graph

Catalogs and graphs hold all kinds of types in one record, with empty lists for
what a kind does not have. So the record of a type can be told without asking
for its kind, by accessors that are empty where the body has no such part: that
is the form in which a type and its extensions can be compared with a node.

What is named once in a schema is named once in its graph, and a type has fields
or input fields but not both. The second fact matters because the identifiers of
the two are formed alike.
-/

namespace SchemaGraph

open Sdl

variable {μ ν : Type}

namespace Sdl.TypeBody

/-- The fields of an input object type. -/
def inputFields : TypeBody μ → List (InputDef μ)
  | input fields => fields
  | _ => []

/-- The values of an enum type. -/
def values : TypeBody μ → List (EnumValueDef μ)
  | enum values => values
  | _ => []

/-- The members of a union. -/
def unionMembers : TypeBody μ → List String
  | union members => members
  | _ => []

theorem inputFields_map (f : μ → ν) (b : TypeBody μ) :
    (b.map f).inputFields = b.inputFields.map (·.map f) := by
  cases b <;> rfl

theorem values_map (f : μ → ν) (b : TypeBody μ) :
    (b.map f).values = b.values.map (·.map f) := by
  cases b <;> rfl

theorem interfaces_map (f : μ → ν) (b : TypeBody μ) : (b.map f).interfaces = b.interfaces := by
  cases b <;> rfl

theorem unionMembers_map (f : μ → ν) (b : TypeBody μ) :
    (b.map f).unionMembers = b.unionMembers := by
  cases b <;> rfl

theorem inputFields_merge {b c : TypeBody μ} (h : c.kind = b.kind) :
    (b.merge c).inputFields = b.inputFields ++ c.inputFields := by
  cases b <;> cases c <;> first | rfl | cases h

theorem values_merge {b c : TypeBody μ} (h : c.kind = b.kind) :
    (b.merge c).values = b.values ++ c.values := by
  cases b <;> cases c <;> first | rfl | cases h

theorem interfaces_merge {b c : TypeBody μ} (h : c.kind = b.kind) :
    (b.merge c).interfaces = addNew b.interfaces c.interfaces := by
  cases b <;> cases c <;> first | rfl | cases h

theorem unionMembers_merge {b c : TypeBody μ} (h : c.kind = b.kind) :
    (b.merge c).unionMembers = addNew b.unionMembers c.unionMembers := by
  cases b <;> cases c <;> first | rfl | cases h

/-- Fields, input fields and enum values are the members of a type, and it has one sort of them. -/
theorem members_names (b : TypeBody μ) :
    b.members.map Prod.fst
      = b.fields.map (·.name) ++ b.inputFields.map (·.name) ++ b.values.map (·.name) := by
  cases b <;> simp [members, fields, inputFields, values]

theorem NamesOnce.parts {b : TypeBody μ} (h : b.NamesOnce) :
    (b.fields.map (·.name)).Nodup ∧ (b.inputFields.map (·.name)).Nodup
      ∧ (b.values.map (·.name)).Nodup := by
  have hmembers := h.members
  rw [members_names, List.nodup_append, List.nodup_append] at hmembers
  exact ⟨hmembers.1.1, hmembers.1.2.1, hmembers.2.1⟩

end Sdl.TypeBody

namespace Catalog.Entry

theorem ofType_builtin {s : Schema} {t : SchemaType} (h : t.name ∈ builtinScalars) :
    ofType s t = bare t .scalar := by
  have hkind : kindOf t = .scalar := if_pos (by simpa using h)
  simp only [ofType, hkind, if_true]

theorem ofType_eq {s : Schema} {t : SchemaType} (h : t.name ∉ builtinScalars) :
    ofType s t =
      { name := t.name
        kind := t.body.kind
        description := t.description
        location := t.mark
        fields := t.body.fields.map Field.ofDef
        interfaces := t.body.interfaces.eraseDups
        derivedTypes :=
          if t.body.kind = .interface then (s.implementors t.name).eraseDups else []
        possibleTypes := t.body.unionMembers.eraseDups
        enumValues := t.body.values.map EnumRecord.ofDef
        inputFields := t.body.inputFields.map Input.ofDef } := by
  have hkind : kindOf t = t.body.kind := if_neg (by simpa using h)
  simp only [ofType, hkind]
  obtain ⟨description, name, body, mark⟩ := t
  cases body with
  | scalar => rfl
  | object | interface | union | enum | input =>
      simp [bare, TypeBody.kind, TypeBody.fields, TypeBody.interfaces, TypeBody.inputFields,
        TypeBody.values, TypeBody.unionMembers, Schema.possibleTypes, distinct_eq_eraseDups]

end Catalog.Entry

namespace Catalog

/-- The graph of a catalog whose references all lead to types. -/
def linked (c : Catalog) : Graph :=
  ⟨c.entries.map Entry.linked, ⟨c.query⟩, c.mutation.map TypeId.mk, c.subscription.map TypeId.mk⟩

theorem link_iff {c : Catalog} {g : Graph} :
    c.link = .ok g ↔ (∀ name ∈ c.references.map (·.name), c.declares name = true)
      ∧ g = c.linked := by
  unfold link
  split
  · next r hr =>
      have hmem := List.mem_of_find?_eq_some hr
      have hundeclared := List.find?_some hr
      refine iff_of_false (fun h => nomatch h) fun h => ?_
      rw [h.1 r.name (List.mem_map_of_mem hmem)] at hundeclared
      cases hundeclared
  · next hnone =>
      rw [Except.ok.injEq]
      refine ⟨?_, fun h => h.2.symm⟩
      rintro rfl
      refine ⟨fun name hname => ?_, rfl⟩
      obtain ⟨r, hr, rfl⟩ := List.mem_map.1 hname
      simpa using List.find?_eq_none.1 hnone r hr

end Catalog

/-- The parts of a type that have names of their own have different ones. -/
structure Graph.Node.NamesOnce (n : Node) : Prop where
  fields : (n.fields.map (·.name)).Nodup
  inputFields : (n.inputFields.map (·.name)).Nodup
  enumValues : (n.enumValues.map (·.name)).Nodup
  arguments : ∀ f ∈ n.fields, ((f.arguments ++ f.relayArguments).map (·.name)).Nodup
  interfaces : n.interfaces.Nodup
  derivedTypes : n.derivedTypes.Nodup
  possibleTypes : n.possibleTypes.Nodup
  exclusive : n.fields = [] ∨ n.inputFields = []

theorem nodup_map_typeId {names : List String} (h : names.Nodup) : (names.map TypeId.mk).Nodup :=
  h.map fun _ _ hab => congrArg TypeId.name hab

theorem Sdl.TypeBody.NamesOnce.linked {s : Schema} {t : SchemaType} (h : t.body.NamesOnce) :
    (Catalog.Entry.ofType s t).linked.NamesOnce := by
  by_cases hbuiltin : t.name ∈ builtinScalars
  · rw [Catalog.Entry.ofType_builtin hbuiltin]
    constructor <;> simp [Catalog.Entry.linked, Catalog.Entry.bare]
  · obtain ⟨hfields, hinputs, hvalues⟩ := h.parts
    rw [Catalog.Entry.ofType_eq hbuiltin]
    constructor
    · simpa [Catalog.Entry.linked, Catalog.Field.linked, Catalog.Field.ofDef,
        Function.comp_def] using hfields
    · simpa [Catalog.Entry.linked, Catalog.Input.linked, Catalog.Input.ofDef,
        Function.comp_def] using hinputs
    · simpa [Catalog.Entry.linked, EnumRecord.ofDef, Function.comp_def] using hvalues
    · intro f hf
      simp only [Catalog.Entry.linked, List.map_map, List.mem_map] at hf
      obtain ⟨d, hd, rfl⟩ := hf
      simpa [Catalog.Field.linked, Catalog.Field.ofDef, Catalog.Input.linked,
        Catalog.Input.ofDef, Function.comp_def] using h.arguments d hd
    · exact nodup_map_typeId (nodup_eraseDups _)
    · refine nodup_map_typeId ?_
      dsimp only
      split
      · exact nodup_eraseDups _
      · exact List.nodup_nil
    · exact nodup_map_typeId (nodup_eraseDups _)
    · cases hbody : t.body <;>
        simp [Catalog.Entry.linked, TypeBody.fields, TypeBody.inputFields]

theorem Graph.ofDocument_namesOnce {sort : Bool} {d : Document} {g : Graph}
    (h : ofDocument sort d = .ok g) : ∀ n ∈ g.nodes, n.NamesOnce := by
  obtain ⟨s, hs, hlink⟩ := ofDocument_ok h
  have honce := Schema.ofDocument_namesOnce hs
  intro n hn
  rw [(Catalog.link_ok hlink).1, Catalog.ofSchema, List.map_map] at hn
  obtain ⟨t, ht, rfl⟩ := List.mem_map.1 hn
  exact (honce.bodies t (List.mem_filter.1 ht).1).linked

end SchemaGraph
