import Mathlib.Data.List.Chain
import SchemaGraph.Proofs.Defaults

/-!
# Type references in all their forms

A type reference is tokens, a tree, a text that is printed, and in a graph a row of
wrappers and a name. The row is the tree read from the outside in, so folding it up from
the name rebuilds the tree, and no two references have the same row and name.

The text needs more: not every tree is one that a text could hold. A mark may follow a
name or a closing bracket, so nothing that is marked already can be marked again, and a
name has to be found where it is written. `Written` says this of a tree, and every
reference that is read is such a tree.
-/

namespace SchemaGraph

open Sdl

variable {μ ν : Type}

namespace Sdl

/-- Whether a reference can be written: its name is found again, and no mark follows a mark. -/
inductive TypeExpr.Written : TypeExpr → Prop
  | named {name} (token : TokenText (.name name) name.toList) : Written (.named name)
  | namedNonNull {name} (token : TokenText (.name name) name.toList) :
      Written (.nonNull (.named name))
  | list {item} (written : Written item) : Written (.list item)
  | listNonNull {item} (written : Written item) : Written (.nonNull (.list item))

/-- Every reference that is derived from the tokens of a text can be written. -/
theorem TypeForm.written {ts rest : List (Lexeme μ)} {w : TypeExpr} (h : TypeForm ts w rest)
    (hts : TextsHold ts) : w.Written := by
  induction h with
  | named => exact .named (hts _ List.mem_cons_self _ rfl)
  | namedNonNull => exact .namedNonNull (hts _ List.mem_cons_self _ rfl)
  | list _ ih => exact .list (ih (hts.suffix (List.suffix_cons _ _)))
  | listNonNull _ ih => exact .listNonNull (ih (hts.suffix (List.suffix_cons _ _)))

/-- A reference that can be written derives from its text, wherever that stands. -/
theorem TypeExpr.Written.writes {w : TypeExpr} (h : w.Written) :
    Writes TypeForm w w.print.toList := by
  induction h with
  | named token => exact token.writes .named
  | @namedNonNull name token =>
      intro offset rest _
      have hdelimited : Delimited ('!' :: rest) := .cons (by decide) _
      obtain ⟨m, offset₁, hname⟩ := token.leads hdelimited offset
      obtain ⟨m', offset', hmark⟩ := leads_punct .exclam rest offset₁
      refine ⟨offset', ?_⟩
      have htext : (TypeExpr.nonNull (.named name)).print.toList ++ rest
          = name.toList ++ '!' :: rest := by
        simp [print]
      have hmark : lexemesAt offset₁ ('!' :: rest) = _ := hmark
      rw [htext, hname, hmark]
      exact .namedNonNull
  | @list item _ ih =>
      intro offset rest _
      obtain ⟨m, ts, m', offset', hts, hitem⟩ := ih.bracketed (.inl rfl)
        .bracketOpen .bracketClose offset rest
      refine ⟨offset', ?_⟩
      have htext : (TypeExpr.list item).print.toList ++ rest
          = '[' :: (item.print.toList ++ ']' :: rest) := by
        simp [print]
      rw [htext]
      exact hts ▸ .list hitem
  | @listNonNull item _ ih =>
      intro offset rest _
      obtain ⟨m, ts, m', offset₁, hts, hitem⟩ := ih.bracketed (.inl rfl)
        .bracketOpen .bracketClose offset ('!' :: rest)
      obtain ⟨m'', offset', hmark⟩ := leads_punct .exclam rest offset₁
      refine ⟨offset', ?_⟩
      have htext : (TypeExpr.nonNull (.list item)).print.toList ++ rest
          = '[' :: (item.print.toList ++ ']' :: '!' :: rest) := by
        simp [print]
      have hmark : lexemesAt offset₁ ('!' :: rest) = _ := hmark
      rw [htext]
      rw [hmark] at hitem
      exact hts ▸ .listNonNull hitem

/-- What is printed of a reference that can be written reads as that reference, to the end. -/
theorem TypeExpr.Written.typeExpr_print {w : TypeExpr} (h : w.Written) :
    typeExpr (lexemes w.print.toList) = .ok (w, []) := by
  obtain ⟨offset, hform⟩ := h.writes 0 [] (stops_nil _)
  rw [List.append_nil, lexemesAt_nil] at hform
  exact typeExpr_complete hform (by simp)

/-- Whether of two wrappers one right around the other not both are marks. -/
def Wrapper.Nests (outer inner : Wrapper) : Prop := outer = .nonNull → inner ≠ .nonNull

theorem Wrapper.nests_list {ws : List Wrapper} (h : ws.IsChain Nests) :
    (list :: ws).IsChain Nests := h.cons fun _ _ hlist => by cases hlist

theorem TypeExpr.Written.nests {w : TypeExpr} (h : w.Written) :
    w.wrappers.IsChain Wrapper.Nests := by
  induction h with
  | named => exact .nil
  | namedNonNull => exact .singleton _
  | list _ ih => exact Wrapper.nests_list ih
  | listNonNull _ ih => exact .cons_cons (fun _ => by decide) (Wrapper.nests_list ih)

section

variable {ts rest : List (Lexeme μ)}

theorem InputForm.type_written {i : InputDef μ} (h : InputForm ts i rest) (hts : TextsHold ts) :
    i.type.Written := by
  cases h with
  | intro described typed =>
      have hname := hts.suffix described.after.suffix
      exact typed.written ((hname.suffix (List.suffix_cons _ _)).suffix (List.suffix_cons _ _))

theorem FieldForm.type_written {f : FieldDef μ} (h : FieldForm ts f rest) (hts : TextsHold ts) :
    f.type.Written := by
  cases h with
  | intro described argued typed =>
      have hname := hts.suffix described.after.suffix
      have hargued := (argued.after fun _ _ _ _ h => h.shorter.1).suffix
      have hcolon := (hname.suffix (List.suffix_cons _ _)).suffix hargued
      exact typed.written (hcolon.suffix (List.suffix_cons _ _))

/-- Whether the types of all fields, arguments and input fields of a definition can be written. -/
structure Definition.TypesWritten (d : Definition μ) : Prop where
  fields : ∀ t, d.Of t → ∀ f ∈ t.body.fields, f.type.Written
  inputs : ∀ t, d.Of t → ∀ i ∈ t.body.inputs, i.type.Written

theorem Derives.typesWritten {ds : List (Definition μ)} (h : Derives ts ds)
    (hts : TextsHold ts) : ∀ d ∈ ds, d.TypesWritten := by
  refine fun d hd => ⟨fun t ht f hf => ?_, fun t ht i hi => ?_⟩
  · obtain ⟨kind, us, mid, hus, hbody⟩ := h.exists_body hd ht
    obtain ⟨us', mid', hus', hfield⟩ := hbody.exists_of_field hf
    exact hfield.type_written (hts.suffix (hus'.trans hus))
  · obtain ⟨kind, us, mid, hus, hbody⟩ := h.exists_body hd ht
    obtain ⟨us', mid', hus', hinput⟩ := hbody.exists_of_input hi
    exact hinput.type_written (hts.suffix (hus'.trans hus))

theorem Definition.TypesWritten.map {d : Definition μ} (h : d.TypesWritten) (f : μ → ν) :
    (d.map f).TypesWritten := by
  refine ⟨fun t ht fd hfd => ?_, fun t ht i hi => ?_⟩
  · obtain ⟨t', ht', rfl⟩ := Definition.Of.exists_of_map ht
    rw [TypeDef.map, TypeBody.fields_map] at hfd
    obtain ⟨fd', hfd', rfl⟩ := List.mem_map.1 hfd
    exact h.fields t' ht' fd' hfd'
  · obtain ⟨t', ht', rfl⟩ := Definition.Of.exists_of_map ht
    rw [TypeDef.map, TypeBody.inputs_map] at hi
    obtain ⟨i', hi', rfl⟩ := List.mem_map.1 hi
    exact h.inputs t' ht' i' hi'

end

end Sdl

theorem Document.typesWritten {sources : List Source} {doc : Document}
    (h : Document.load sources = .ok (some doc)) : ∀ d ∈ doc.definitions, d.TypesWritten := by
  obtain ⟨-, hderives⟩ := Document.load_ok h
  intro d hd
  obtain ⟨f, hf, hd⟩ := List.mem_flatMap.1 hd
  obtain ⟨d', hd', rfl⟩ := List.mem_map.1 hd
  exact ((hderives f hf).typesWritten (lexemes_textsHold _) d' hd').map _

/-- The field that is declared under this name. -/
def declaredField? (ds : List (Definition μ)) (type field : String) : Option (FieldDef μ) :=
  (declaredFields ds type).find? (·.name == field)

/-- What is declared under the name of a type stands in a definition of a type of that name. -/
theorem exists_of_declaredFields {ds : List (Definition μ)} {type : String} {f : FieldDef μ}
    (h : f ∈ declaredFields ds type) : ∃ d ∈ ds, ∃ t, d.Of t ∧ f ∈ t.body.fields := by
  obtain ⟨d, hd, hf⟩ := List.mem_flatMap.1 h
  obtain ⟨t, ht, hf⟩ := List.mem_flatMap.1 hf
  obtain ⟨d', hd', hof⟩ := exists_of_mem_parts (List.mem_filter.1 hd).1 ht
  exact ⟨d', hd', t, hof, hf⟩

/-- Whether the fields of a type have the types that are declared under the same names. -/
def Sdl.TypeDef.FieldsDeclared (ds : List (Definition Location)) (t : SchemaType) : Prop :=
  ∀ f ∈ t.body.fields, ∃ d, declaredField? ds t.name f.name = some d ∧ f.type = d.type

theorem Sdl.TypeDef.FieldsDeclared.sorted {ds : List (Definition Location)} {t : SchemaType}
    (h : t.FieldsDeclared ds) : t.sorted.FieldsDeclared ds := by
  intro f hf
  obtain ⟨f', hf', rfl⟩ := TypeBody.mem_fields_sorted hf
  exact h f' hf'

theorem Schema.ofDocument_fieldsDeclared {sort : Bool} {d : Document} {s : Schema}
    (h : Schema.ofDocument sort d = .ok s) : ∀ t ∈ s.types, t.FieldsDeclared d.definitions := by
  obtain ⟨s', hs', rfl⟩ := Except.map_ok.1 h
  have hdeclared : ∀ t ∈ s'.types, t.FieldsDeclared d.definitions := by
    intro t ht f hf
    obtain ⟨fd, hfound, rfl⟩ := ofDefinitions_fieldsDeclared hs' ht hf
    exact ⟨fd, hfound, rfl⟩
  cases sort with
  | false => exact hdeclared
  | true =>
      intro t ht
      obtain ⟨t', ht', rfl⟩ := List.mem_map.1 (s'.sorted_types_perm.mem_iff.1 ht)
      exact (hdeclared t' ht').sorted

/-! ## References in a graph

Arguments and input fields refer to what they were declared with in every graph that is
built, but a field may have been made to lead elsewhere. Whenever that happens something
is written down about where it led before, so a field for which nothing is written down is
as it was linked (`Field.Becomes.eq_of_plain`). Only such fields are meant by `Shows`, and
all fields are such if connections are left alone (`build_plain`). -/

namespace Graph

/-- The type that a field refers to. -/
def Field.use (f : Field) : TypeUse := ⟨f.type, f.wrappers⟩

/-- The type that an argument or an input field refers to. -/
def Input.use (i : Input) : TypeUse := ⟨i.type, i.wrappers⟩

/-- A reference taken apart: the bare name, and the wrappers around it. -/
def TypeUse.ofExpr (w : TypeExpr) : TypeUse := ⟨⟨w.bareName⟩, w.wrappers⟩

theorem TypeUse.ofExpr_inj {w w' : TypeExpr} : ofExpr w = ofExpr w' ↔ w = w' := by
  simp [ofExpr, TypeExpr.eq_iff]

/-- Whether the fields of a type that normalisation has not changed refer to what is declared. -/
def Node.FieldsDeclared (ds : List (Definition Location)) (n : Node) : Prop :=
  ∀ f ∈ n.fields, f.relayType = none →
    ∃ d, declaredField? ds n.name f.name = some d ∧ f.use = .ofExpr d.type

theorem linked_fieldsDeclared {ds : List (Definition Location)} {s : Schema} {t : SchemaType}
    (h : t.FieldsDeclared ds) : (Catalog.Entry.ofType s t).linked.FieldsDeclared ds := by
  by_cases hbuiltin : t.name ∈ builtinScalars
  · rw [Catalog.Entry.ofType_builtin hbuiltin]
    simp [Node.FieldsDeclared, Catalog.Entry.linked, Catalog.Entry.bare]
  · rw [Catalog.Entry.ofType_eq hbuiltin]
    intro f hf _
    simp only [Catalog.Entry.linked, List.map_map, List.mem_map] at hf
    obtain ⟨f', hf', rfl⟩ := hf
    obtain ⟨d, hd, htype⟩ := h f' hf'
    refine ⟨d, hd, ?_⟩
    rw [← htype]
    rfl

theorem ofDocument_fieldsDeclared {sort : Bool} {d : Document} {g : Graph}
    (h : ofDocument sort d = .ok g) : ∀ n ∈ g.nodes, n.FieldsDeclared d.definitions := by
  obtain ⟨s, hs, hlink⟩ := ofDocument_ok h
  intro n hn
  rw [(Catalog.link_ok hlink).1, Catalog.ofSchema, List.map_map] at hn
  obtain ⟨t, ht, rfl⟩ := List.mem_map.1 hn
  exact linked_fieldsDeclared (Schema.ofDocument_fieldsDeclared hs t (List.mem_filter.1 ht).1)

theorem Field.Becomes.eq_of_plain {f f' : Field} (h : f.Becomes f') (hplain : f'.relayType = none) :
    f' = f := by
  cases h with
  | same => rfl
  | collapse | throughEdge => cases hplain

/-- A field that refers to what it always referred to is one that the type had before. -/
theorem Node.Becomes.mem_fields {n n' : Node} (h : n.Becomes n') {f : Field} (hf : f ∈ n'.fields)
    (hplain : f.relayType = none) : f ∈ n.fields := by
  induction h with
  | same => exact hf
  | flag _ ih | interfaces _ _ ih => exact ih hf
  | filter _ _ ih => exact ih (List.mem_filter.1 hf).1
  | map _ each ih =>
      obtain ⟨f', hf', rfl⟩ := List.mem_map.1 hf
      have heq := (each f').eq_of_plain hplain
      exact ih (by rwa [heq])

theorem build_fieldsDeclared {options : Options} {sources : List Source} {g : Graph} {d : Document}
    (hload : Document.load sources = .ok (some d)) (hbuild : build options sources = .ok (some g)) :
    ∀ n ∈ g.nodes, n.FieldsDeclared d.definitions := by
  obtain ⟨d', g₀, hload', hlink, rfl⟩ := build_ok hbuild
  cases hload.symm.trans hload'
  rw [normalize_eq_rewrite]
  intro n' hn' f hf hplain
  obtain ⟨n, hn, hbecomes⟩ := rewrite_comesFrom g₀ _ n' hn'
  rw [hbecomes.keeps.name]
  exact ofDocument_fieldsDeclared hlink n hn f (hbecomes.mem_fields hf hplain) hplain

/-- Without normalisation of connections, no field refers to anything else than before. -/
theorem build_plain {options : Options} {sources : List Source} {g : Graph}
    (hbuild : build options sources = .ok (some g)) (hrelay : options.skipRelayPattern = false) :
    ∀ n ∈ g.nodes, ∀ f ∈ n.fields, f.relayType = none := by
  obtain ⟨d, g₀, -, hlink, rfl⟩ := build_ok hbuild
  obtain ⟨s, -, hcatalog⟩ := ofDocument_ok hlink
  have hlinked : ∀ n ∈ g₀.nodes, ∀ f ∈ n.fields, f.relayType = none := by
    intro n hn f hf
    rw [(Catalog.link_ok hcatalog).1] at hn
    obtain ⟨e, -, rfl⟩ := List.mem_map.1 hn
    obtain ⟨f', -, rfl⟩ := List.mem_map.1 hf
    rfl
  simp only [normalize, hrelay, Bool.false_eq_true, if_false]
  split
  · intro n hn f hf
    obtain ⟨n', hn', rfl⟩ := List.mem_map.1 hn
    exact hlinked n' hn' f (List.mem_filter.1 hf).1
  · exact hlinked

/--
Whether a graph shows a reference `w` as `u`: a field, an argument or an input field of the
graph refers to `u`, and what is declared under its name refers to `w`. A field that a
collapsed connection made refer to something else is not meant.
-/
inductive Shows (ds : List (Definition Location)) (g : Graph) : TypeExpr → TypeUse → Prop
  | field {n f d} (node : n ∈ g.nodes) (field : f ∈ n.fields) (plain : f.relayType = none)
      (declared : declaredField? ds n.name f.name = some d) : Shows ds g d.type f.use
  | argument {n f a d} (node : n ∈ g.nodes) (field : f ∈ n.fields)
      (argument : a ∈ f.arguments ++ f.relayArguments)
      (declared : declaredArgument? ds n.name f.name a.name = some d) : Shows ds g d.type a.use
  | inputField {n i d} (node : n ∈ g.nodes) (input : i ∈ n.inputFields)
      (declared : declaredInput? ds n.name i.name = some d) : Shows ds g d.type i.use

section

variable {options : Options} {sources : List Source} {g : Graph} {d : Document}
  (hload : Document.load sources = .ok (some d)) (hbuild : build options sources = .ok (some g))

include hload hbuild

theorem Shows.eq {w : TypeExpr} {u : TypeUse} (h : g.Shows d.definitions w u) : u = .ofExpr w := by
  have hinputs := build_inputsDeclared hload hbuild
  cases h with
  | field node field plain declared =>
      obtain ⟨fd, hfound, huse⟩ := build_fieldsDeclared hload hbuild _ node _ field plain
      cases hfound.symm.trans declared
      exact huse
  | argument node field argument declared =>
      obtain ⟨ad, hfound, rfl⟩ := (hinputs _ node).arguments _ field _ argument
      cases hfound.symm.trans declared
      rfl
  | inputField node input declared =>
      obtain ⟨id, hfound, rfl⟩ := (hinputs _ node).inputFields _ input
      cases hfound.symm.trans declared
      rfl

omit hbuild in
theorem Shows.written {w : TypeExpr} {u : TypeUse} (h : g.Shows d.definitions w u) :
    w.Written := by
  have htypes := Document.typesWritten hload
  cases h with
  | field _ _ _ declared =>
      obtain ⟨def', hdef, t, hof, hmem⟩ :=
        exists_of_declaredFields (List.mem_of_find?_eq_some declared)
      exact (htypes def' hdef).fields t hof _ hmem
  | argument _ _ _ declared =>
      obtain ⟨f, hf, hi⟩ := Option.bind_eq_some_iff.1 declared
      obtain ⟨def', hdef, t, hof, hmem⟩ := exists_of_declaredFields (List.mem_of_find?_eq_some hf)
      exact (htypes def' hdef).inputs t hof _
        (List.mem_append_left _ (List.mem_flatMap.2 ⟨f, hmem, List.mem_of_find?_eq_some hi⟩))
  | inputField _ _ declared =>
      obtain ⟨td, htd, hi⟩ := List.mem_flatMap.1 (List.mem_of_find?_eq_some declared)
      obtain ⟨t, ht, hi⟩ := List.mem_flatMap.1 hi
      obtain ⟨def', hdef, hof⟩ := exists_of_mem_parts (List.mem_filter.1 htd).1 ht
      exact (htypes def' hdef).inputs t hof _ (List.mem_append_right _ hi)

end

end Graph

/--
Whether the text of a reference reads as the reference, to its end, and its wrappers, none
of them a mark around a mark, rebuild it around its name.
-/
structure Sdl.TypeExpr.Survives (w : TypeExpr) : Prop where
  rereads : typeExpr (lexemes w.print.toList) = .ok (w, [])
  nests : w.wrappers.IsChain Wrapper.Nests
  folds : w.wrappers.foldr Wrapper.around (.named w.bareName) = w

theorem Sdl.TypeExpr.Written.survives {w : TypeExpr} (h : w.Written) : w.Survives :=
  ⟨h.typeExpr_print, h.nests, w.foldr_wrappers⟩

/--
A type reference that is read anywhere in a text survives being printed and being taken
apart, and a schema holds the references that are declared. Those that a graph shows
survive as well, and it shows two of them as the same if, and only if, they are the same.
It shows all arguments and input fields, and all fields unless they were made to refer to
something else.
-/
theorem typeReferences_survive :
    (∀ (text : List Char) (ts rest : List (Lexeme Span)) (w : TypeExpr), ts <:+ lexemes text →
        typeExpr ts = .ok (w, rest) → w.Survives)
      ∧ (∀ (sort : Bool) (d : Document) (s : Schema), Schema.ofDocument sort d = .ok s →
        ∀ t ∈ s.types, t.FieldsDeclared d.definitions ∧ t.InputsDeclared d.definitions)
      ∧ ∀ (options : Options) (sources : List Source) (d : Document) (g : Graph),
        Document.load sources = .ok (some d) → Graph.build options sources = .ok (some g) →
        (∀ w u, g.Shows d.definitions w u → u = .ofExpr w ∧ w.Survives)
        ∧ (∀ w w' u u', g.Shows d.definitions w u → g.Shows d.definitions w' u' →
          (u = u' ↔ w = w'))
        ∧ (∀ n ∈ g.nodes,
          (∀ f ∈ n.fields, (options.skipRelayPattern = false ∨ f.relayType = none) →
            ∃ w, g.Shows d.definitions w f.use)
          ∧ (∀ f ∈ n.fields, ∀ a ∈ f.arguments ++ f.relayArguments,
            ∃ w, g.Shows d.definitions w a.use)
          ∧ ∀ i ∈ n.inputFields, ∃ w, g.Shows d.definitions w i.use) := by
  refine ⟨fun text ts rest w hts hw => ?_, fun sort d s hs t ht => ?_,
    fun options sources d g hload hbuild => ?_⟩
  · exact ((typeExpr_sound hw).written ((lexemes_textsHold text).suffix hts)).survives
  · exact ⟨Schema.ofDocument_fieldsDeclared hs t ht, Schema.ofDocument_inputsDeclared hs t ht⟩
  refine ⟨fun w u h => ⟨h.eq hload hbuild, (h.written hload).survives⟩,
    fun w w' u u' h h' => ?_, fun n hn => ⟨fun f hf hplain => ?_, fun f hf a ha => ?_,
      fun i hi => ?_⟩⟩
  · rw [h.eq hload hbuild, h'.eq hload hbuild, Graph.TypeUse.ofExpr_inj]
  · have hplain := hplain.elim (fun hrelay => Graph.build_plain hbuild hrelay n hn f hf) id
    obtain ⟨fd, hfound, -⟩ := Graph.build_fieldsDeclared hload hbuild n hn f hf hplain
    exact ⟨fd.type, .field hn hf hplain hfound⟩
  · obtain ⟨ad, hfound, -⟩ := (Graph.build_inputsDeclared hload hbuild n hn).arguments f hf a ha
    exact ⟨ad.type, .argument hn hf ha hfound⟩
  · obtain ⟨id, hfound, -⟩ := (Graph.build_inputsDeclared hload hbuild n hn).inputFields i hi
    exact ⟨id.type, .inputField hn hi hfound⟩

/-- Lists in lists, which differ only in where the marks stand. -/
def nestedSource : Source :=
  ⟨"nested", "type Query\x7ba(x:[[Int!]]!y:[[Int]!]):[[String]!]! b:[[String!]]!\x7d"⟩

theorem typeReferences_survive_nested :
    (∃ w rest, typeExpr (lexemes "[[String!]]! b".toList) = .ok (w, rest) ∧ w.Survives)
      ∧ ∃ d g, Document.load [nestedSource] = .ok (some d)
        ∧ Graph.build .standard [nestedSource] = .ok (some g)
        ∧ ∀ n ∈ g.nodes, ∀ f ∈ n.fields, ∀ a ∈ f.arguments ++ f.relayArguments,
            ∃ w, g.Shows d.definitions w a.use ∧ a.use = .ofExpr w ∧ w.Survives := by
  refine ⟨?_, ?_⟩
  · have hread : (typeExpr (lexemes "[[String!]]! b".toList)).toOption.isSome = true := by
      decide +kernel
    obtain ⟨p, hp⟩ := Except.exists_ok hread
    exact ⟨p.1, p.2, hp, typeReferences_survive.1 _ _ p.2 p.1 (List.suffix_refl _) hp⟩
  · have hbuilt : (Graph.build .standard [nestedSource]).toOption.join.isSome = true := by
      decide +kernel
    obtain ⟨g, hg⟩ := Graph.exists_build hbuilt
    obtain ⟨d, -, hload, -⟩ := Graph.build_ok hg
    obtain ⟨hshown, -, hshows⟩ := typeReferences_survive.2.2 _ _ d g hload hg
    refine ⟨d, g, hload, hg, fun n hn f hf a ha => ?_⟩
    obtain ⟨w, hw⟩ := (hshows n hn).2.1 f hf a ha
    exact ⟨w, hw, hshown w a.use hw⟩

end SchemaGraph
