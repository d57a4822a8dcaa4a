import SchemaGraph.Proofs.Linking
import SchemaGraph.Proofs.Reading

/-!
# The graph shows what is declared

Without sorting and normalisation a graph is an image of the definitions it was
made from, taken part by part. The image of a type is told here straight from
its definition and its extensions, without a schema or a catalog in between; the
theorem at the end says that the pipeline arrives at nothing else.

Two things could go wrong on the way. A stage that keeps parts under their names
could lose one of two with the same name, so it matters that names are declared
once. And a stage that takes repetitions away does so more than once, on the base
type, on what each extension adds and on the whole: `eraseDups_addNew` says that
this comes to the same as doing it at the end.
-/

namespace SchemaGraph

open Sdl

variable {μ : Type}

/-- The definition of a type and its extensions, in order. -/
def parts (definitions : List (Definition μ)) (d : TypeDef μ) : List (TypeDef μ) :=
  d :: extensionsOf definitions d.name

/-- The types that implement the interface with this name, by definition or extension. -/
def implementing (definitions : List (Definition μ)) (interface : String) : List String :=
  ((declared definitions).filter fun d =>
    (parts definitions d).any (·.body.interfaces.contains interface)).map (·.name)

namespace Graph

/-- An argument or an input field, as it is declared. -/
def Input.image (d : InputDef Location) : Input where
  name := d.name
  description := d.description
  type := ⟨d.type.bareName⟩
  wrappers := d.type.wrappers
  default := d.default.map Value.print
  deprecation := deprecation? d.directives
  location := some d.mark

/-- A field, as it is declared. -/
def Field.image (d : FieldDef Location) : Field where
  name := d.name
  description := d.description
  type := ⟨d.type.bareName⟩
  wrappers := d.type.wrappers
  deprecation := deprecation? d.directives
  arguments := d.arguments.map Input.image
  relayType := none
  relayArguments := []
  location := some d.mark

/-- A value of an enum type, as it is declared. -/
def enumImage (d : EnumValueDef μ) : EnumRecord where
  name := d.name
  description := d.description
  deprecation := deprecation? d.directives

/-- A type without members. -/
def Node.bare (name : String) (description : Option String) (location : Option Location) : Node :=
  ⟨name, .scalar, description, location, false, [], [], [], [], [], []⟩

/-- A type, as it is declared in all its parts together. -/
def Node.image (definitions : List (Definition Location)) (d : TypeDef Location) : Node where
  name := d.name
  kind := d.body.kind
  description := d.description
  location := some d.mark
  isRelay := false
  fields := ((parts definitions d).flatMap (·.body.fields)).map Field.image
  interfaces := ((parts definitions d).flatMap (·.body.interfaces)).eraseDups.map TypeId.mk
  derivedTypes :=
    if d.body.kind = .interface then (implementing definitions d.name).map TypeId.mk else []
  possibleTypes := ((parts definitions d).flatMap (·.body.unionMembers)).eraseDups.map TypeId.mk
  enumValues := ((parts definitions d).flatMap (·.body.values)).map enumImage
  inputFields := ((parts definitions d).flatMap (·.body.inputFields)).map Input.image

/-- A declared type: what has the name of a built-in scalar is nothing but that. -/
def declaredNode (definitions : List (Definition Location)) (d : TypeDef Location) : Node :=
  if d.name ∈ builtinScalars then .bare d.name d.description (some d.mark)
  else .image definitions d

/-- The types of a document in their order, then the scalars that it does not declare. -/
def declaredNodes (definitions : List (Definition Location)) : List Node :=
  ((declared definitions).filter (!isIntrospective ·.name)).map (declaredNode definitions)
    ++ (undeclaredScalars definitions).map (.bare · none none)

end Graph

section

variable {α : Type} {es : List (TypeDef Location)} {t : SchemaType}

theorem extend_kind (t : SchemaType) (e : TypeDef Location) :
    (t.extend (e.map some)).body.kind = t.body.kind := TypeBody.kind_merge _ _

theorem extendBy_kind (es : List (TypeDef Location)) (t : SchemaType) :
    (extendBy es t).body.kind = t.body.kind := by
  induction es generalizing t with
  | nil => rfl
  | cons e es ih => exact (ih (t.extend (e.map some))).trans (extend_kind t e)

/-- A part of which merging keeps all is, after any extensions, all that there is of it. -/
theorem extendBy_append {part : TypeBody (Option Location) → List α}
    (hmerge : ∀ {b c : TypeBody (Option Location)}, c.kind = b.kind →
      part (b.merge c) = part b ++ part c)
    (hkind : ∀ e ∈ es, e.body.kind = t.body.kind) :
    part (extendBy es t).body = part t.body ++ es.flatMap fun e => part (e.map some).body := by
  induction es generalizing t with
  | nil => exact (List.append_nil _).symm
  | cons e es ih =>
      have he := (TypeBody.kind_map some e.body).trans (hkind e List.mem_cons_self)
      have hes := ih (t := t.extend (e.map some)) fun e' he' =>
        (hkind e' (List.mem_cons_of_mem _ he')).trans (extend_kind t e).symm
      rw [List.flatMap_cons, ← List.append_assoc]
      exact hes.trans (congrArg (· ++ _) (hmerge he))

/-- The same for a part to which merging adds what is new, once repetitions are taken away. -/
theorem extendBy_eraseDups {part : TypeBody (Option Location) → List String}
    (hmerge : ∀ {b c : TypeBody (Option Location)}, c.kind = b.kind →
      part (b.merge c) = addNew (part b) (part c))
    (hkind : ∀ e ∈ es, e.body.kind = t.body.kind) :
    (part (extendBy es t).body).eraseDups
      = (part t.body ++ es.flatMap fun e => part (e.map some).body).eraseDups := by
  induction es generalizing t with
  | nil => exact congrArg List.eraseDups (List.append_nil _).symm
  | cons e es ih =>
      have he := (TypeBody.kind_map some e.body).trans (hkind e List.mem_cons_self)
      have hes := ih (t := t.extend (e.map some)) fun e' he' =>
        (hkind e' (List.mem_cons_of_mem _ he')).trans (extend_kind t e).symm
      have hbody : part (t.extend (e.map some)).body
          = addNew (part t.body) (part (e.map some).body) := hmerge he
      -- Up to repetitions it is all one whether `e` has been merged or only appended.
      rw [List.flatMap_cons, ← List.append_assoc, ← addNew_eraseDups, ← eraseDups_addNew,
        addNew_eraseDups, ← hbody]
      exact hes

end

section

variable {ds : List (Definition Location)} {d : TypeDef Location}
  (hkind : ∀ e ∈ extensionsOf ds d.name, e.body.kind = d.body.kind)

include hkind

theorem extended_kinds :
    ∀ e ∈ extensionsOf ds d.name, e.body.kind = (d.map (some (α := Location))).body.kind :=
  fun e he => (hkind e he).trans (TypeBody.kind_map _ _).symm

/-- The members of an extended type are those of its parts, one after the other. -/
theorem extended_append {α β : Type} {part : TypeBody (Option Location) → List α}
    {part' : TypeBody Location → List β} {f : β → α}
    (hmap : ∀ b, part (b.map some) = (part' b).map f)
    (hmerge : ∀ {b c : TypeBody (Option Location)}, c.kind = b.kind →
      part (b.merge c) = part b ++ part c) :
    part (extended ds d).body = ((parts ds d).flatMap fun t => part' t.body).map f := by
  simp only [parts, List.flatMap_cons, List.map_append, List.map_flatMap, ← hmap]
  exact extendBy_append hmerge (extended_kinds hkind)

theorem extended_eraseDups {part : TypeBody (Option Location) → List String}
    {part' : TypeBody Location → List String} (hmap : ∀ b, part (b.map some) = part' b)
    (hmerge : ∀ {b c : TypeBody (Option Location)}, c.kind = b.kind →
      part (b.merge c) = addNew (part b) (part c)) :
    (part (extended ds d).body).eraseDups
      = ((parts ds d).flatMap fun t => part' t.body).eraseDups := by
  simp only [parts, List.flatMap_cons, ← hmap]
  exact extendBy_eraseDups hmerge (extended_kinds hkind)

theorem extended_implements (interface : String) :
    (extended ds d).body.interfaces.contains interface
      = (parts ds d).any (·.body.interfaces.contains interface) := by
  have h : ∀ name, name ∈ (extended ds d).body.interfaces.eraseDups ↔
      name ∈ ((parts ds d).flatMap (·.body.interfaces)).eraseDups := by
    rw [extended_eraseDups hkind (TypeBody.interfaces_map some) TypeBody.interfaces_merge]
    exact fun name => Iff.rfl
  rw [Bool.eq_iff_iff, List.contains_iff_mem, ← List.mem_eraseDups, h, List.mem_eraseDups]
  simp

end

theorem extended_name (ds : List (Definition Location)) (d : TypeDef Location) :
    (extended ds d).name = d.name := extendBy_name _ _

theorem extended_description (ds : List (Definition Location)) (d : TypeDef Location) :
    (extended ds d).description = d.description ∧ (extended ds d).mark = some d.mark := by
  have h : ∀ (es : List (TypeDef Location)) (t : SchemaType),
      (extendBy es t).description = t.description ∧ (extendBy es t).mark = t.mark := by
    intro es
    induction es with
    | nil => exact fun t => ⟨rfl, rfl⟩
    | cons e es ih => exact fun t => ih (t.extend (e.map some))
  exact h _ _

theorem linked_field (f : FieldDef Location) :
    (Catalog.Field.ofDef (f.map some)).linked = Graph.Field.image f := by
  simp only [Catalog.Field.linked, Catalog.Field.ofDef, FieldDef.map, Graph.Field.image,
    List.map_map]
  rfl

section

variable {ds : List (Definition Location)} {s : Schema}
  (htypes : s.types = (declared ds).map (extended ds) ++ (undeclaredScalars ds).map builtinScalar)
  (hkinds : ∀ d ∈ declared ds, ∀ e ∈ extensionsOf ds d.name, e.body.kind = d.body.kind)
  (honce : NamesOnce s.types)

include htypes

include honce in
theorem declared_names_nodup : ((declared ds).map (·.name)).Nodup := by
  have hnames := honce.types
  rw [htypes, List.map_append, List.map_map] at hnames
  have hcongr := List.map_congr_left (l := declared ds) fun d _ => extended_name ds d
  exact hcongr ▸ (List.nodup_append.1 hnames).1

include honce in
theorem nodup_implementing (interface : String) : (implementing ds interface).Nodup :=
  (declared_names_nodup htypes honce).sublist (List.filter_sublist.map _)

include hkinds

theorem implementors_eq (interface : String) :
    s.implementors interface = implementing ds interface := by
  have hscalars : ((undeclaredScalars ds).map builtinScalar).filter
      (·.body.interfaces.contains interface) = [] := by
    rw [List.filter_eq_nil_iff]
    intro t ht
    obtain ⟨name, -, rfl⟩ := List.mem_map.1 ht
    simp [builtinScalar, TypeBody.interfaces]
  rw [Schema.implementors, htypes, List.filter_append, hscalars, List.append_nil,
    List.filter_map, List.map_map, implementing]
  have hfilter : (declared ds).filter
        ((fun t => t.body.interfaces.contains interface) ∘ extended ds)
      = (declared ds).filter fun d => (parts ds d).any (·.body.interfaces.contains interface) :=
    List.filter_congr fun d hd => extended_implements (hkinds d hd) interface
  rw [hfilter]
  exact List.map_congr_left fun d _ => extended_name ds d

include honce

theorem linked_extended {d : TypeDef Location} (hd : d ∈ declared ds) :
    (Catalog.Entry.ofType s (extended ds d)).linked = Graph.declaredNode ds d := by
  have hname := extended_name ds d
  obtain ⟨hdescription, hmark⟩ := extended_description ds d
  unfold Graph.declaredNode
  split
  · next hbuiltin =>
      rw [Catalog.Entry.ofType_builtin (by rwa [hname])]
      simp only [Catalog.Entry.linked, Catalog.Entry.bare, Graph.Node.bare, hname, hdescription,
        hmark, List.map_nil]
  · next hbuiltin =>
      have hkind : (extended ds d).body.kind = d.body.kind :=
        (extendBy_kind _ _).trans (TypeBody.kind_map _ _)
      have hparts := hkinds d hd
      have hfields := extended_append hparts (TypeBody.fields_map some) TypeBody.fields_merge
      have hinputs := extended_append hparts (TypeBody.inputFields_map some)
        TypeBody.inputFields_merge
      have hvalues := extended_append hparts (TypeBody.values_map some) TypeBody.values_merge
      have hinterfaces := extended_eraseDups hparts (TypeBody.interfaces_map some)
        TypeBody.interfaces_merge
      have hmembers := extended_eraseDups hparts (TypeBody.unionMembers_map some)
        TypeBody.unionMembers_merge
      rw [Catalog.Entry.ofType_eq (by rwa [hname])]
      simp only [Catalog.Entry.linked, Graph.Node.image, hname, hdescription, hmark, hkind,
        hfields, hinputs, hvalues, hinterfaces, hmembers, implementors_eq htypes hkinds,
        eraseDups_of_nodup (nodup_implementing htypes honce d.name), List.map_map]
      congr 1
      · exact List.map_congr_left fun f _ => linked_field f
      · split <;> rfl

end

theorem isIntrospective_builtin {name : String} (h : name ∈ builtinScalars) :
    isIntrospective name = false := by
  have hall : ∀ name ∈ builtinScalars, isIntrospective name = false := by decide
  exact hall name h

theorem linked_builtin (s : Schema) {name : String} (h : name ∈ builtinScalars) :
    (Catalog.Entry.ofType s (builtinScalar name)).linked = .bare name none none := by
  rw [Catalog.Entry.ofType_builtin h]
  rfl

/-- Unsorted, the types of a linked graph are those of the image of its document. -/
theorem Graph.ofDocument_nodes {d : Document} {g : Graph} (h : ofDocument false d = .ok g) :
    g.nodes = declaredNodes d.definitions := by
  obtain ⟨s, hs, hlink⟩ := ofDocument_ok h
  obtain ⟨s', hs', rfl⟩ := Except.map_ok.1 hs
  obtain ⟨htypes, hkinds, honce⟩ := ofDefinitions_types hs'
  have hscalars : ∀ name ∈ undeclaredScalars d.definitions, name ∈ builtinScalars :=
    fun name hname => (List.mem_filter.1 hname).1
  have hdeclared : ((declared d.definitions).map (extended d.definitions)).filter
        (!isIntrospective ·.name)
      = ((declared d.definitions).filter (!isIntrospective ·.name)).map
        (extended d.definitions) := by
    rw [List.filter_map]
    congr 1
    exact List.filter_congr fun t _ => by rw [Function.comp_apply, extended_name]
  have hbuiltin : ((undeclaredScalars d.definitions).map builtinScalar).filter
        (!isIntrospective ·.name)
      = (undeclaredScalars d.definitions).map builtinScalar := by
    rw [List.filter_eq_self]
    intro t ht
    obtain ⟨name, hname, rfl⟩ := List.mem_map.1 ht
    exact congrArg not (isIntrospective_builtin (hscalars name hname))
  rw [(Catalog.link_ok hlink).1, Catalog.ofSchema, declaredNodes, if_neg (by simp), htypes,
    List.filter_append, hdeclared, hbuiltin, List.map_map, List.map_append, List.map_map,
    List.map_map]
  congr 1
  · exact List.map_congr_left fun t ht =>
      linked_extended htypes hkinds honce (List.mem_filter.1 ht).1
  · exact List.map_congr_left fun name hname => linked_builtin s' (hscalars name hname)

end SchemaGraph
