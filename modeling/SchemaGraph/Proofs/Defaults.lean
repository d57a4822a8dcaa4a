import SchemaGraph.Proofs.Identifiers
import SchemaGraph.Proofs.Image
import SchemaGraph.Proofs.Printing

/-!
# Defaults in a graph

A graph keeps the defaults of arguments and input fields as texts. Each of them
is the printed default of the one argument or input field that was declared under
its name, and so it reads back as that.

Two ways lead to this. One goes from a graph back to what was declared: sorting
and normalisation reorder and remove, and where an argument is kept at all it is
kept as it was. The other goes from a text to what is declared in it: the default
of an input value was derived from tokens of the text, so it is a value that can
be written.
-/

namespace SchemaGraph

open Sdl

variable {μ ν α : Type}

/-- The fields of the type with this name, in all its parts. -/
def declaredFields (ds : List (Definition μ)) (type : String) : List (FieldDef μ) :=
  ((declared ds).filter (·.name == type)).flatMap fun d => (parts ds d).flatMap (·.body.fields)

/-- The input fields of the type with this name, in all its parts. -/
def declaredInputs (ds : List (Definition μ)) (type : String) : List (InputDef μ) :=
  ((declared ds).filter (·.name == type)).flatMap fun d =>
    (parts ds d).flatMap (·.body.inputFields)

/-- The argument that is declared under this name. -/
def declaredArgument? (ds : List (Definition μ)) (type field argument : String) :
    Option (InputDef μ) :=
  ((declaredFields ds type).find? (·.name == field)).bind (·.argument? argument)

/-- The input field that is declared under this name. -/
def declaredInput? (ds : List (Definition μ)) (type field : String) : Option (InputDef μ) :=
  (declaredInputs ds type).find? (·.name == field)

/-- Whether what a type holds of arguments and input fields is declared under the same names. -/
structure Sdl.TypeDef.InputsDeclared (ds : List (Definition Location)) (t : SchemaType) : Prop where
  arguments : ∀ f ∈ t.body.fields, ∀ a ∈ f.arguments,
    ∃ d, declaredArgument? ds t.name f.name a.name = some d ∧ a = d.map some
  inputFields : ∀ i ∈ t.body.inputFields,
    ∃ d, declaredInput? ds t.name i.name = some d ∧ i = d.map some

section

variable {ds : List (Definition Location)} {s : Schema}

theorem ofDefinitions_fieldsDeclared (h : Schema.ofDefinitions ds = .ok s) {t : SchemaType}
    (ht : t ∈ s.types) {f : FieldDef (Option Location)} (hf : f ∈ t.body.fields) :
    ∃ d, (declaredFields ds t.name).find? (·.name == f.name) = some d ∧ f = d.map some := by
  obtain ⟨htypes, hkinds, honce⟩ := ofDefinitions_types h
  have hnames := declared_names_nodup htypes honce
  have hbody := honce.bodies t ht
  rw [htypes] at ht
  rcases List.mem_append.1 ht with ht | ht
  · obtain ⟨d, hd, rfl⟩ := List.mem_map.1 ht
    -- What is merged from all parts has no name twice, so a search leads to its declaration.
    have hfields := extended_append (hkinds d hd) (TypeBody.fields_map some) TypeBody.fields_merge
    have hfieldsOnce := hbody.parts.1
    rw [hfields, List.map_map] at hfieldsOnce
    rw [hfields] at hf
    obtain ⟨fd, hfd, rfl⟩ := List.mem_map.1 hf
    refine ⟨fd, ?_, rfl⟩
    rw [declaredFields, extended_name, filter_key hnames hd, List.flatMap_singleton]
    exact find?_key (k := (·.name)) hfieldsOnce hfd
  · obtain ⟨name, -, rfl⟩ := List.mem_map.1 ht
    simp [builtinScalar, TypeBody.fields] at hf

theorem ofDefinitions_inputsDeclared (h : Schema.ofDefinitions ds = .ok s) :
    ∀ t ∈ s.types, t.InputsDeclared ds := by
  obtain ⟨htypes, hkinds, honce⟩ := ofDefinitions_types h
  have hnames := declared_names_nodup htypes honce
  intro t ht
  have hbody := honce.bodies t ht
  refine ⟨fun f hf a ha => ?_, fun i hi => ?_⟩
  · have hargs := hbody.arguments f hf
    obtain ⟨fd, hfound, rfl⟩ := ofDefinitions_fieldsDeclared h ht hf
    obtain ⟨ad, had, rfl⟩ := List.mem_map.1 ha
    rw [FieldDef.map, List.map_map] at hargs
    have hargument := find?_key (k := (·.name)) hargs had
    exact ⟨ad, Option.bind_eq_some_iff.2 ⟨fd, hfound, hargument⟩, rfl⟩
  · rw [htypes] at ht
    rcases List.mem_append.1 ht with ht | ht
    · obtain ⟨d, hd, rfl⟩ := List.mem_map.1 ht
      have hinputs := extended_append (hkinds d hd) (TypeBody.inputFields_map some)
        TypeBody.inputFields_merge
      have hinputsOnce := hbody.parts.2.1
      rw [hinputs, List.map_map] at hinputsOnce
      rw [hinputs] at hi
      obtain ⟨id, hid, rfl⟩ := List.mem_map.1 hi
      refine ⟨id, ?_, rfl⟩
      rw [declaredInput?, declaredInputs, extended_name, filter_key hnames hd,
        List.flatMap_singleton]
      exact find?_key (k := (·.name)) hinputsOnce hid
    · obtain ⟨name, -, rfl⟩ := List.mem_map.1 ht
      simp [builtinScalar, TypeBody.inputFields] at hi

theorem Sdl.TypeDef.InputsDeclared.sorted {t : SchemaType} (h : t.InputsDeclared ds) :
    t.sorted.InputsDeclared ds := by
  refine ⟨fun f hf a ha => ?_, fun i hi => ?_⟩
  · obtain ⟨f', hf', rfl⟩ := TypeBody.mem_fields_sorted hf
    exact h.arguments f' hf' a ((sortOn_perm _ _).mem_iff.1 ha)
  · refine h.inputFields i ?_
    obtain ⟨description, name, body, mark⟩ := t
    cases body with
    | scalar | object | interface | union | enum =>
        simp [TypeDef.sorted, TypeBody.sorted, TypeBody.inputFields] at hi
    | input fields => exact (sortOn_perm _ _).mem_iff.1 hi

theorem Schema.ofDocument_inputsDeclared {sort : Bool} {d : Document}
    (h : Schema.ofDocument sort d = .ok s) : ∀ t ∈ s.types, t.InputsDeclared d.definitions := by
  obtain ⟨s', hs', rfl⟩ := Except.map_ok.1 h
  have hdeclared := ofDefinitions_inputsDeclared hs'
  cases sort with
  | false => exact hdeclared
  | true =>
      intro t ht
      obtain ⟨t', ht', rfl⟩ := List.mem_map.1 (s'.sorted_types_perm.mem_iff.1 ht)
      exact (hdeclared t' ht').sorted

end

namespace Graph

/-- The same for a type of a graph. -/
structure Node.InputsDeclared (ds : List (Definition Location)) (n : Node) : Prop where
  arguments : ∀ f ∈ n.fields, ∀ a ∈ f.arguments ++ f.relayArguments,
    ∃ d, declaredArgument? ds n.name f.name a.name = some d ∧ a = Input.image d
  inputFields : ∀ i ∈ n.inputFields,
    ∃ d, declaredInput? ds n.name i.name = some d ∧ i = Input.image d

theorem linked_inputsDeclared {ds : List (Definition Location)} {s : Schema} {t : SchemaType}
    (h : t.InputsDeclared ds) : (Catalog.Entry.ofType s t).linked.InputsDeclared ds := by
  by_cases hbuiltin : t.name ∈ builtinScalars
  · rw [Catalog.Entry.ofType_builtin hbuiltin]
    constructor <;> simp [Catalog.Entry.linked, Catalog.Entry.bare]
  · rw [Catalog.Entry.ofType_eq hbuiltin]
    refine ⟨fun f hf a ha => ?_, fun i hi => ?_⟩
    · simp only [Catalog.Entry.linked, List.map_map, List.mem_map] at hf
      obtain ⟨f', hf', rfl⟩ := hf
      simp only [Function.comp_apply, Catalog.Field.linked, Catalog.Field.ofDef, List.map_map,
        List.append_nil, List.mem_map] at ha
      obtain ⟨a', ha', rfl⟩ := ha
      obtain ⟨d, hd, rfl⟩ := h.arguments f' hf' a' ha'
      exact ⟨d, hd, rfl⟩
    · simp only [Catalog.Entry.linked, List.map_map, List.mem_map] at hi
      obtain ⟨i', hi', rfl⟩ := hi
      obtain ⟨d, hd, rfl⟩ := h.inputFields i' hi'
      exact ⟨d, hd, rfl⟩

theorem ofDocument_inputsDeclared {sort : Bool} {d : Document} {g : Graph}
    (h : ofDocument sort d = .ok g) : ∀ n ∈ g.nodes, n.InputsDeclared d.definitions := by
  obtain ⟨s, hs, hlink⟩ := ofDocument_ok h
  intro n hn
  rw [(Catalog.link_ok hlink).1, Catalog.ofSchema, List.map_map] at hn
  obtain ⟨t, ht, rfl⟩ := List.mem_map.1 hn
  exact linked_inputsDeclared
    (Schema.ofDocument_inputsDeclared hs t (List.mem_filter.1 ht).1)

/-- Whether a type has kept its name and its input fields, and has only fields that it had. -/
structure Node.Keeps (n n' : Node) : Prop where
  name : n'.name = n.name
  fields : ∀ f' ∈ n'.fields, ∃ f ∈ n.fields, f.Trims f'
  inputFields : n'.inputFields = n.inputFields

/-- Whether every type of `g'` is one of `g`, kept in this sense. -/
def Keeps (g g' : Graph) : Prop := ∀ n' ∈ g'.nodes, ∃ n ∈ g.nodes, n.Keeps n'

theorem Field.Trims.refl (f : Field) : f.Trims f := ⟨rfl, .refl _⟩

theorem Field.Trims.trans {f f' f'' : Field} (h : f.Trims f') (h' : f'.Trims f'') :
    f.Trims f'' := ⟨h'.name.trans h.name, h'.arguments.trans h.arguments⟩

theorem Node.Keeps.refl (n : Node) : n.Keeps n := ⟨rfl, fun f hf => ⟨f, hf, .refl f⟩, rfl⟩

theorem Node.Keeps.trans {n n' n'' : Node} (h : n.Keeps n') (h' : n'.Keeps n'') : n.Keeps n'' := by
  refine ⟨h'.name.trans h.name, fun f'' hf'' => ?_, h'.inputFields.trans h.inputFields⟩
  obtain ⟨f', hf', htrims'⟩ := h'.fields f'' hf''
  obtain ⟨f, hf, htrims⟩ := h.fields f' hf'
  exact ⟨f, hf, htrims.trans htrims'⟩

theorem Node.Becomes.keeps {n n' : Node} (h : n.Becomes n') : n.Keeps n' := by
  induction h with
  | same => exact .refl n
  | flag _ ih | interfaces _ _ ih =>
      exact ih.trans ⟨rfl, fun f hf => ⟨f, hf, .refl f⟩, rfl⟩
  | filter _ p ih =>
      exact ih.trans ⟨rfl, fun f hf => ⟨f, (List.mem_filter.1 hf).1, .refl f⟩, rfl⟩
  | map _ each ih =>
      refine ih.trans ⟨rfl, fun f' hf' => ?_, rfl⟩
      obtain ⟨f, hf, rfl⟩ := List.mem_map.1 hf'
      exact ⟨f, hf, (each f).trims⟩

/-- However a graph is normalised, it has only what it had. -/
theorem keeps_rewrite (g : Graph) (steps : List Rewrite) : g.Keeps (g.rewrite steps) := by
  intro n' hn'
  obtain ⟨n, hn, hbecomes⟩ := rewrite_comesFrom g steps n' hn'
  exact ⟨n, hn, hbecomes.keeps⟩

theorem Node.InputsDeclared.keeps {ds : List (Definition Location)} {n n' : Node}
    (h : n.InputsDeclared ds) (hkeeps : n.Keeps n') : n'.InputsDeclared ds := by
  refine ⟨fun f' hf' a ha => ?_, ?_⟩
  · obtain ⟨f, hf, htrims⟩ := hkeeps.fields f' hf'
    rw [hkeeps.name, htrims.name]
    exact h.arguments f hf a (htrims.arguments.subset ha)
  · rw [hkeeps.name, hkeeps.inputFields]
    exact h.inputFields

/-- In a graph that is built, all arguments and input fields are declared. -/
theorem build_inputsDeclared {options : Options} {sources : List Source} {g : Graph} {d : Document}
    (hload : Document.load sources = .ok (some d)) (hbuild : build options sources = .ok (some g)) :
    ∀ n ∈ g.nodes, n.InputsDeclared d.definitions := by
  obtain ⟨d', g₀, hload', hlink, rfl⟩ := build_ok hbuild
  cases hload.symm.trans hload'
  rw [normalize_eq_rewrite]
  intro n' hn'
  obtain ⟨n, hn, hkeeps⟩ := keeps_rewrite g₀ _ n' hn'
  exact (ofDocument_inputsDeclared hlink n hn).keeps hkeeps

end Graph

/-! ## Defaults in a text

That a default can be written is seen where it is read, from the lexemes of a value. Down
to there the grammar is followed from a definition: each of its input values is derived
from a suffix of the lexemes of the definition, hence from tokens of the text. From then
on it is a property of definitions (`Definition.DefaultsWritten`), which does not mention
lexemes or marks, and so it holds of all definitions of a document. -/

namespace Sdl

/-- The arguments of all fields, and the input fields. -/
def TypeBody.inputs (b : TypeBody μ) : List (InputDef μ) :=
  b.fields.flatMap (·.arguments) ++ b.inputFields

variable {ts rest : List (Lexeme μ)}

theorem EnclosedForm.exists_of_mem {R : Form μ α} {opening close : Punctuator} {as : List α}
    (h : EnclosedForm opening close R ts as rest)
    (hR : ∀ {us a mid}, R us a mid → After mid us) {a : α} (ha : a ∈ as) :
    ∃ us mid, us <:+ ts ∧ R us a mid := by
  cases h with
  | absent => cases ha
  | present items =>
      obtain ⟨us, mid, hus, hitem⟩ := items.exists_of_mem hR ha
      exact ⟨us, mid, hus.trans (List.suffix_cons _ _), hitem⟩

theorem FieldForm.exists_of_argument {f : FieldDef μ} (h : FieldForm ts f rest) {i : InputDef μ}
    (hi : i ∈ f.arguments) : ∃ us mid, us <:+ ts ∧ InputForm us i mid := by
  cases h with
  | intro described argued =>
      obtain ⟨us, mid, hus, hitem⟩ := argued.exists_of_mem (fun h => h.shorter.1) hi
      exact ⟨us, mid, (hus.trans (List.suffix_cons _ _)).trans described.after.suffix, hitem⟩

/-- Each field of a type is derived from a suffix of what the type is derived from. -/
theorem BodyForm.exists_of_field {kind : TypeKind} {b : TypeBody μ} (h : BodyForm kind ts b rest)
    {f : FieldDef μ} (hf : f ∈ b.fields) : ∃ us mid, us <:+ ts ∧ FieldForm us f mid := by
  cases h with
  | scalar | union | enum | input => simp [TypeBody.fields] at hf
  | object implementing directed braced | interface implementing directed braced =>
      obtain ⟨us, mid, hus, hfield⟩ := braced.exists_of_mem (fun h => h.shorter.1) hf
      have hbraced := (directed.directive_after.trans implementing.after).suffix
      exact ⟨us, mid, hus.trans hbraced, hfield⟩

/-- So is each input value, whether an argument of a field or an input field. -/
theorem BodyForm.exists_of_input {kind : TypeKind} {b : TypeBody μ} (h : BodyForm kind ts b rest)
    {i : InputDef μ} (hi : i ∈ b.inputs) : ∃ us mid, us <:+ ts ∧ InputForm us i mid := by
  rcases List.mem_append.1 hi with hi | hi
  · obtain ⟨f, hf, hi⟩ := List.mem_flatMap.1 hi
    obtain ⟨us, mid, hus, hfield⟩ := h.exists_of_field hf
    obtain ⟨vs, mid', hvs, hinput⟩ := hfield.exists_of_argument hi
    exact ⟨vs, mid', hvs.trans hus, hinput⟩
  · cases h with
    | scalar | object | interface | union | enum => simp [TypeBody.inputFields] at hi
    | input directed braced =>
        obtain ⟨us, mid, hus, hinput⟩ := braced.exists_of_mem (fun h => h.shorter.1) hi
        exact ⟨us, mid, hus.trans directed.directive_after.suffix, hinput⟩

/-- Whether a definition is that of a type, or of an extension of one. -/
def Definition.Of (d : Definition μ) (t : TypeDef μ) : Prop :=
  d.type? = some t ∨ d.extension? = some t

theorem DefinitionForm.exists_body {d : Definition μ} (h : DefinitionForm ts d rest)
    {t : TypeDef μ} (ht : d.Of t) : ∃ kind us mid, us <:+ ts ∧ BodyForm kind us t.body mid := by
  have hbody : ∀ {description us mid}, TypeDefForm description us t mid →
      ∃ kind vs mid', vs <:+ us ∧ BodyForm kind vs t.body mid' := by
    intro description us mid htype
    cases htype with
    | intro bodied =>
        exact ⟨_, _, _, (List.suffix_cons _ _).trans (List.suffix_cons _ _), bodied⟩
  cases h with
  | schema | directive | extendSchema =>
      simp [Definition.Of, Definition.type?, Definition.extension?] at ht
  | extendType defined =>
      obtain rfl : _ = t := by
        simpa [Definition.Of, Definition.type?, Definition.extension?] using ht
      obtain ⟨kind, us, mid, hus, hform⟩ := hbody defined
      exact ⟨kind, us, mid, hus.trans (List.suffix_cons _ _), hform⟩
  | type described defined =>
      obtain rfl : _ = t := by
        simpa [Definition.Of, Definition.type?, Definition.extension?] using ht
      obtain ⟨kind, us, mid, hus, hform⟩ := hbody defined
      exact ⟨kind, us, mid, hus.trans described.after.suffix, hform⟩

theorem Derives.exists_body {ds : List (Definition μ)} (h : Derives ts ds) {d : Definition μ}
    (hd : d ∈ ds) {t : TypeDef μ} (ht : d.Of t) :
    ∃ kind us mid, us <:+ ts ∧ BodyForm kind us t.body mid := by
  obtain ⟨us, mid, hus, hdefinition⟩ := Star.exists_of_mem h (fun h => h.shorter.1) hd
  obtain ⟨kind, vs, mid', hvs, hform⟩ := hdefinition.exists_body ht
  exact ⟨kind, vs, mid', hvs.trans hus, hform⟩

/-- What is a definition's type after a change of marks was one before. -/
theorem Definition.Of.exists_of_map {d : Definition μ} {f : μ → ν} {t : TypeDef ν}
    (h : (d.map f).Of t) : ∃ t', d.Of t' ∧ t = t'.map f := by
  cases d with
  | schema | extendSchema | directive =>
      simp [Of, Definition.map, Definition.type?, Definition.extension?] at h
  | type d | extendType d =>
      refine ⟨d, by simp [Of, Definition.type?, Definition.extension?], ?_⟩
      simpa [Of, Definition.map, Definition.type?, Definition.extension?, eq_comm] using h

theorem InputForm.default_written {i : InputDef μ} (h : InputForm ts i rest) (hts : TextsHold ts)
    {v : Value} (hv : i.default = some v) : v.Written := by
  cases h with
  | intro described typed defaulted =>
      cases defaulted with
      | absent => cases hv
      | present value =>
          cases hv
          have hname := hts.suffix described.after.suffix
          have htyped := (hname.suffix (List.suffix_cons _ _)).suffix (List.suffix_cons _ _)
          have hdefault := htyped.suffix typed.shorter.1.suffix
          exact value.written (hdefault.suffix (List.suffix_cons _ _))

/-- Whether all defaults in a type, or in an extension of one, can be written. -/
def Definition.DefaultsWritten (d : Definition μ) : Prop :=
  ∀ t, d.type? = some t ∨ d.extension? = some t → ∀ i ∈ t.body.inputs, ∀ v, i.default = some v →
    v.Written

theorem Derives.defaultsWritten {ds : List (Definition μ)} (h : Derives ts ds)
    (hts : TextsHold ts) : ∀ d ∈ ds, d.DefaultsWritten := by
  intro d hd t ht i hi v hv
  obtain ⟨kind, us, mid, hus, hbody⟩ := h.exists_body hd ht
  obtain ⟨us', mid', hus', hinput⟩ := hbody.exists_of_input hi
  exact hinput.default_written (hts.suffix (hus'.trans hus)) hv

theorem TypeBody.inputs_map (f : μ → ν) (b : TypeBody μ) :
    (b.map f).inputs = b.inputs.map (·.map f) := by
  simp only [inputs, fields_map, inputFields_map, List.map_append, List.map_flatMap,
    List.flatMap_map, FieldDef.map]

theorem Definition.DefaultsWritten.map {d : Definition μ} (h : d.DefaultsWritten) (f : μ → ν) :
    (d.map f).DefaultsWritten := by
  intro t ht i hi v hv
  obtain ⟨t', ht', rfl⟩ := Definition.Of.exists_of_map ht
  rw [TypeDef.map, TypeBody.inputs_map] at hi
  obtain ⟨i', hi', rfl⟩ := List.mem_map.1 hi
  exact h t' ht' i' hi' v hv

end Sdl

theorem Document.defaultsWritten {sources : List Source} {doc : Document}
    (h : Document.load sources = .ok (some doc)) : ∀ d ∈ doc.definitions, d.DefaultsWritten := by
  obtain ⟨-, hderives⟩ := Document.load_ok h
  intro d hd
  obtain ⟨f, hf, hd⟩ := List.mem_flatMap.1 hd
  obtain ⟨d', hd', rfl⟩ := List.mem_map.1 hd
  exact ((hderives f hf).defaultsWritten (lexemes_textsHold _) d' hd').map _

/-- Each part of a declared type is a definition, of the type or of an extension. -/
theorem exists_of_mem_parts {ds : List (Definition μ)} {d t : TypeDef μ} (hd : d ∈ declared ds)
    (ht : t ∈ parts ds d) : ∃ d' ∈ ds, d'.Of t := by
  rcases List.mem_cons.1 ht with rfl | ht
  · obtain ⟨d', hd', hdeclared⟩ := List.mem_filterMap.1 hd
    exact ⟨d', hd', .inl hdeclared⟩
  · obtain ⟨e, he, hextension⟩ := List.mem_filterMap.1 (List.mem_filter.1 ht).1
    exact ⟨e, he, .inr hextension⟩

section

variable {ds : List (Definition μ)} {type field argument : String} {i : InputDef μ} {v : Value}
  (hds : ∀ d ∈ ds, d.DefaultsWritten)

include hds

theorem written_of_mem_parts {d t : TypeDef μ} (hd : d ∈ declared ds) (ht : t ∈ parts ds d)
    (hi : i ∈ t.body.inputs) (hv : i.default = some v) : v.Written := by
  obtain ⟨d', hd', hof⟩ := exists_of_mem_parts hd ht
  exact hds d' hd' t hof i hi v hv

theorem written_of_declaredArgument? (h : declaredArgument? ds type field argument = some i)
    (hv : i.default = some v) : v.Written := by
  obtain ⟨f, hf, hi⟩ := Option.bind_eq_some_iff.1 h
  obtain ⟨d, hd, hf⟩ := List.mem_flatMap.1 (List.mem_of_find?_eq_some hf)
  obtain ⟨t, ht, hf⟩ := List.mem_flatMap.1 hf
  have hmem : i ∈ t.body.inputs :=
    List.mem_append_left _ (List.mem_flatMap.2 ⟨f, hf, List.mem_of_find?_eq_some hi⟩)
  exact written_of_mem_parts hds (List.mem_filter.1 hd).1 ht hmem hv

theorem written_of_declaredInput? (h : declaredInput? ds type field = some i)
    (hv : i.default = some v) : v.Written := by
  obtain ⟨d, hd, hi⟩ := List.mem_flatMap.1 (List.mem_of_find?_eq_some h)
  obtain ⟨t, ht, hi⟩ := List.mem_flatMap.1 hi
  exact written_of_mem_parts hds (List.mem_filter.1 hd).1 ht (List.mem_append_right _ hi) hv

end

/--
Whether the default text of an input value of a graph is that of the one that is
declared, and reads as the declared default to its end, which is printed as it is.
-/
def Graph.Input.DefaultRereads (d : Option (InputDef Location)) (i : Graph.Input) : Prop :=
  ∃ declaration, d = some declaration ∧ i.default = declaration.default.map Value.print ∧
    ∀ text, i.default = some text → ∃ v, declaration.default = some v
      ∧ value (lexemes text.toList) = .ok (v, []) ∧ v.print = text

theorem Graph.Input.defaultRereads_image {d : InputDef Location}
    (h : ∀ v, d.default = some v → v.Written) :
    (Graph.Input.image d).DefaultRereads (some d) := by
  refine ⟨d, rfl, rfl, fun text htext => ?_⟩
  obtain ⟨v, hv, rfl⟩ := Option.map_eq_some_iff.1 htext
  exact ⟨v, hv, (h v hv).value_print, rfl⟩

/--
A value that is read anywhere in a text is printed as a text that reads as that
value, to its end. So does the default of every argument and input field of a
graph that is built: it reads as the default that is declared under their names.
-/
theorem printed_values_reread :
    (∀ (text : List Char) (ts rest : List (Lexeme Span)) (v : Value), ts <:+ lexemes text →
        value ts = .ok (v, rest) → value (lexemes v.print.toList) = .ok (v, []))
      ∧ ∀ (options : Options) (sources : List Source) (d : Document) (g : Graph),
        Document.load sources = .ok (some d) → Graph.build options sources = .ok (some g) →
        ∀ n ∈ g.nodes,
          (∀ f ∈ n.fields, ∀ a ∈ f.arguments ++ f.relayArguments,
            a.DefaultRereads (declaredArgument? d.definitions n.name f.name a.name))
          ∧ ∀ i ∈ n.inputFields, i.DefaultRereads (declaredInput? d.definitions n.name i.name) := by
  refine ⟨fun text ts rest v hts hv => ?_, fun options sources d g hload hbuild n hn => ?_⟩
  · exact ((value_sound hv).written ((lexemes_textsHold text).suffix hts)).value_print
  · have hwritten := Document.defaultsWritten hload
    have hdeclared := Graph.build_inputsDeclared hload hbuild n hn
    refine ⟨fun f hf a ha => ?_, fun i hi => ?_⟩
    · obtain ⟨declaration, hfound, heq⟩ := hdeclared.arguments f hf a ha
      rw [hfound, heq]
      exact Graph.Input.defaultRereads_image fun v hv =>
        written_of_declaredArgument? hwritten hfound hv
    · obtain ⟨declaration, hfound, heq⟩ := hdeclared.inputFields i hi
      rw [hfound, heq]
      exact Graph.Input.defaultRereads_image fun v hv =>
        written_of_declaredInput? hwritten hfound hv

/-- Defaults of every kind: escapes, lists in objects in lists, and names that are constants. -/
def defaultsSource : Source :=
  ⟨"defaults", "type Query\x7ba(s:String=\"\\\"\\n\\u00e9\",
l:[I]=[\x7ba:1 b:[-2.5e3,\x7b\x7d]\x7d,null]):Int\x7d
input I\x7ba:Int=7,b:E=true\x7denum E\x7bX\x7d"⟩

theorem printed_values_reread_defaults :
    (∃ v rest, value (lexemes "[\x7bs:\"a\\tb\" e:X\x7d -0.5e1]".toList) = .ok (v, rest)
        ∧ value (lexemes v.print.toList) = .ok (v, []))
      ∧ ∃ d g, Document.load [defaultsSource] = .ok (some d)
        ∧ Graph.build .standard [defaultsSource] = .ok (some g)
        ∧ ∀ n ∈ g.nodes, ∀ i ∈ n.inputFields,
            i.DefaultRereads (declaredInput? d.definitions n.name i.name) := by
  refine ⟨?_, ?_⟩
  · have hread : (value (lexemes
        "[\x7bs:\"a\\tb\" e:X\x7d -0.5e1]".toList)).toOption.isSome = true := by
      decide +kernel
    obtain ⟨p, hp⟩ := Except.exists_ok hread
    exact ⟨p.1, p.2, hp, printed_values_reread.1 _ _ p.2 p.1 (List.suffix_refl _) hp⟩
  · have hbuilt : (Graph.build .standard [defaultsSource]).toOption.join.isSome = true := by
      decide +kernel
    obtain ⟨g, hg⟩ := Graph.exists_build hbuilt
    obtain ⟨d, -, hload, -⟩ := Graph.build_ok hg
    exact ⟨d, g, hload, hg, fun n hn => (printed_values_reread.2 _ _ d g hload hg n hn).2⟩

end SchemaGraph
