import SchemaGraph.Proofs.Fitting
import SchemaGraph.Proofs.Image

/-!
# Which documents are accepted

Definitions are refused in many places: while they are collected, while extensions
are added, when interfaces are checked and when the roots are found. `WellFormed`
says what all these checks come to, rule by rule, for the definitions as they are
written. It needs no order among them, because what a step has to reject is always
two things that clash, or one that leads to the wrong kind of type.

No rule asks what a field, an argument or a member of a union refers to. So these
references are left out of the `outline` of definitions, together with the names of
interfaces that are not known, and the outline decides.
-/

namespace SchemaGraph

open Sdl

variable {μ ν : Type}

/-- Definitions of types, and extensions of types. -/
def typeDefinitions (ds : List (Definition μ)) : List (TypeDef μ) :=
  declared ds ++ typeExtensions ds

/-- Whether a type of this name is declared, with the keyword of this kind. -/
def Declares (ds : List (Definition μ)) (name : String) (kind : TypeKind) : Prop :=
  ∃ d ∈ declared ds, d.name = name ∧ d.body.kind = kind

/-- The names that lead to a type: those that are declared, and those that are built in. -/
def knownNames (ds : List (Definition μ)) : List String :=
  (declared ds).map (·.name) ++ builtinScalars

/-- Whether the roots that are named can be taken: one to query, and for no operation two. -/
structure NamedRootsFit (ds : List (Definition μ)) : Prop where
  once : (rootDefinitions ds).Pairwise fun earlier later =>
    ∀ o, later.get o ≠ none → earlier.get o = none
  query : ∃ roots ∈ rootDefinitions ds, roots.query ≠ none
  objects : ∀ roots ∈ rootDefinitions ds, ∀ o name, roots.get o = some name →
    Declares ds name .object

/-- Whether the types named after the operations can be taken for the roots. -/
structure ImpliedRootsFit (ds : List (Definition μ)) : Prop where
  query : Operation.query.title ∈ (declared ds).map (·.name)
  objects : ∀ o : Operation, ∀ d ∈ declared ds, d.name = o.title → d.body.kind = .object

/-- The rules that definitions have to keep to make up a schema. -/
structure WellFormed (ds : List (Definition μ)) : Prop where
  types : ((declared ds).map (·.name)).Nodup
  members : ∀ d ∈ declared ds, (((parts ds d).flatMap (·.body.members)).map Prod.fst).Nodup
  arguments : ∀ t ∈ typeDefinitions ds, ∀ f ∈ t.body.fields, (f.arguments.map (·.name)).Nodup
  extensions : ∀ e ∈ typeExtensions ds, Declares ds e.name e.body.kind
  schemas : (schemaDefinitions ds).length ≤ 1
  interfaces : ∀ t ∈ typeDefinitions ds, ∀ name ∈ t.body.interfaces, name ∈ knownNames ds →
    Declares ds name .interface
  roots : if rootDefinitions ds = [] then ImpliedRootsFit ds else NamedRootsFit ds

theorem mem_parts {ds : List (Definition μ)} {d t : TypeDef μ} :
    t ∈ parts ds d ↔ t = d ∨ t ∈ typeExtensions ds ∧ t.name = d.name := by
  rw [parts, List.mem_cons, extensionsOf, List.mem_filter, beq_iff_eq]
  rfl

theorem mem_typesOf {ds : List (Definition Location)} {t : SchemaType} :
    t ∈ typesOf ds ↔
      (∃ d ∈ declared ds, extended ds d = t) ∨ ∃ name ∈ undeclaredScalars ds,
        builtinScalar name = t := by
  rw [typesOf, List.mem_append, List.mem_map, List.mem_map]

theorem mem_typesOf_names {ds : List (Definition Location)} {name : String} :
    name ∈ (typesOf ds).map (·.name) ↔ name ∈ knownNames ds := by
  have hscalars : ((undeclaredScalars ds).map builtinScalar).map (·.name)
      = undeclaredScalars ds := by
    rw [List.map_map]
    exact List.map_id _
  rw [typesOf, List.map_append, extended_names, hscalars, knownNames, List.mem_append,
    List.mem_append, undeclaredScalars, List.mem_filter, decide_eq_true_eq]
  by_cases hdeclared : name ∈ (declared ds).map (·.name)
  · simp only [hdeclared, true_or]
  · simp only [hdeclared, false_or, not_false_iff, and_true]

theorem extended_body_kind (ds : List (Definition Location)) (d : TypeDef Location) :
    (extended ds d).body.kind = d.body.kind :=
  (extendBy_kind _ _).trans (TypeBody.kind_map _ _)

/-- What is not a scalar is declared. -/
theorem declares_iff {ds : List (Definition Location)} {name : String} {kind : TypeKind}
    (hkind : kind ≠ .scalar) :
    Declares ds name kind ↔ ∃ t ∈ typesOf ds, t.name = name ∧ t.body.kind = kind := by
  refine ⟨?_, ?_⟩
  · rintro ⟨d, hd, rfl, rfl⟩
    exact ⟨extended ds d, mem_typesOf.2 (.inl ⟨d, hd, rfl⟩), extended_name ds d,
      extended_body_kind ds d⟩
  · rintro ⟨t, ht, rfl, rfl⟩
    rcases mem_typesOf.1 ht with ⟨d, hd, rfl⟩ | ⟨name, -, rfl⟩
    · exact ⟨d, hd, (extended_name ds d).symm, (extended_body_kind ds d).symm⟩
    · exact absurd rfl hkind

section

variable {ds : List (Definition Location)}

/-- A type names its members once if its definition and its extensions together do. -/
theorem extended_namesOnce_iff {d : TypeDef Location}
    (hkind : ∀ e ∈ extensionsOf ds d.name, e.body.kind = d.body.kind) :
    (extended ds d).body.NamesOnce ↔
      (((parts ds d).flatMap (·.body.members)).map Prod.fst).Nodup
        ∧ ∀ t ∈ parts ds d, ∀ f ∈ t.body.fields, (f.arguments.map (·.name)).Nodup := by
  have hmembers : (extended ds d).body.members.map Prod.fst
      = ((parts ds d).flatMap (·.body.members)).map Prod.fst := by
    have hnames := @extended_append _ _ hkind _ _ (fun b => b.members.map Prod.fst)
      (fun b => b.members.map Prod.fst) id
      (fun b => by rw [TypeBody.members_map, List.map_id])
      (fun hsame => by rw [TypeBody.members_merge hsame, List.map_append])
    rw [hnames, List.map_id, List.map_flatMap]
  have hfields := extended_append hkind (TypeBody.fields_map some) TypeBody.fields_merge
  have harguments : (∀ f ∈ (extended ds d).body.fields, (f.arguments.map (·.name)).Nodup)
      ↔ ∀ t ∈ parts ds d, ∀ f ∈ t.body.fields, (f.arguments.map (·.name)).Nodup := by
    rw [hfields]
    simp only [List.forall_mem_map, List.forall_mem_flatMap, FieldDef.map, List.map_map]
    exact Iff.rfl
  refine ⟨fun h => ⟨hmembers ▸ h.members, harguments.1 h.arguments⟩, fun h => ?_⟩
  exact ⟨hmembers ▸ h.1, harguments.2 h.2⟩

/-- If all extensions have a type to extend, they are parts of the types that are declared. -/
theorem forall_typeDefinitions_iff
    (hbases : ∀ e ∈ typeExtensions ds, Declares ds e.name e.body.kind)
    {P : TypeDef Location → Prop} :
    (∀ t ∈ typeDefinitions ds, P t) ↔ ∀ d ∈ declared ds, ∀ t ∈ parts ds d, P t := by
  simp only [typeDefinitions, List.forall_mem_append, mem_parts]
  refine ⟨?_, fun h => ⟨fun d hd => h d hd d (.inl rfl), fun e he => ?_⟩⟩
  · rintro ⟨hdeclared, hextensions⟩ d hd t (rfl | ⟨ht, -⟩)
    · exact hdeclared t hd
    · exact hextensions t ht
  · obtain ⟨d, hd, hname, -⟩ := hbases e he
    exact h d hd e (.inr ⟨he, hname.symm⟩)

theorem declares_kinds (hnames : ((declared ds).map (·.name)).Nodup)
    (hbases : ∀ e ∈ typeExtensions ds, Declares ds e.name e.body.kind) :
    ∀ d ∈ declared ds, ∀ e ∈ extensionsOf ds d.name, e.body.kind = d.body.kind := by
  refine extension_kinds hnames fun e he => ?_
  obtain ⟨d, hd, hname, hkind⟩ := hbases e he
  exact ⟨d, hd, hname, hkind.symm⟩

/-- The types that well-formed definitions come to name everything once. -/
theorem namesOnce_typesOf_iff (hnames : ((declared ds).map (·.name)).Nodup)
    (hbases : ∀ e ∈ typeExtensions ds, Declares ds e.name e.body.kind) :
    NamesOnce (typesOf ds) ↔
      (∀ d ∈ declared ds, (((parts ds d).flatMap (·.body.members)).map Prod.fst).Nodup)
        ∧ ∀ t ∈ typeDefinitions ds, ∀ f ∈ t.body.fields, (f.arguments.map (·.name)).Nodup := by
  have hkinds := declares_kinds hnames hbases
  rw [forall_typeDefinitions_iff hbases, ← forall₂_and]
  refine ⟨fun h d hd => ?_, fun h => ?_⟩
  · exact (extended_namesOnce_iff (hkinds d hd)).1
      (h.bodies _ (mem_typesOf.2 (.inl ⟨d, hd, rfl⟩)))
  · rw [← addBuiltins_extended]
    refine NamesOnce.addBuiltins ⟨(extended_names ds).symm ▸ hnames, fun t ht => ?_⟩
    obtain ⟨d, hd, rfl⟩ := List.mem_map.1 ht
    exact (extended_namesOnce_iff (hkinds d hd)).2 (h d hd)

/-- Whether no type implements what is known and no interface. -/
def ImplementsInterfaces (types : List SchemaType) : Prop :=
  ∀ t ∈ types, ∀ name ∈ t.body.interfaces, ∀ u ∈ types, u.name = name → u.body.kind = .interface

theorem implementsInterfaces_iff (honce : NamesOnce (typesOf ds))
    (hnames : ((declared ds).map (·.name)).Nodup)
    (hbases : ∀ e ∈ typeExtensions ds, Declares ds e.name e.body.kind) :
    ImplementsInterfaces (typesOf ds) ↔
      ∀ t ∈ typeDefinitions ds, ∀ name ∈ t.body.interfaces, name ∈ knownNames ds →
        Declares ds name .interface := by
  have hlisted : ∀ d ∈ declared ds, ∀ name,
      name ∈ (extended ds d).body.interfaces ↔ ∃ t ∈ parts ds d, name ∈ t.body.interfaces := by
    intro d hd name
    have h := extended_implements (declares_kinds hnames hbases d hd) name
    rw [Bool.eq_iff_iff, List.contains_iff_mem, List.any_eq_true] at h
    simpa only [List.contains_iff_mem] using h
  rw [forall_typeDefinitions_iff hbases]
  refine ⟨fun h d hd t ht name hname hknown => ?_, fun h t ht name hname u hu hsame => ?_⟩
  · obtain ⟨u, hu, hsame⟩ := List.mem_map.1 (mem_typesOf_names.2 hknown)
    refine (declares_iff (by decide)).2 ⟨u, hu, hsame, ?_⟩
    exact h _ (mem_typesOf.2 (.inl ⟨d, hd, rfl⟩)) name ((hlisted d hd name).2 ⟨t, ht, hname⟩)
      u hu hsame
  · rcases mem_typesOf.1 ht with ⟨d, hd, rfl⟩ | ⟨name', -, rfl⟩
    · obtain ⟨t, ht, hname⟩ := (hlisted d hd name).1 hname
      have hknown : name ∈ knownNames ds :=
        mem_typesOf_names.1 (hsame ▸ List.mem_map_of_mem hu)
      obtain ⟨u', hu', hsame', hkind⟩ :=
        (declares_iff (by decide)).1 (h d hd t ht name hname hknown)
      rw [← List.inj_on_of_nodup_map honce.types hu' hu (hsame'.trans hsame.symm)]
      exact hkind
    · cases hname

end

theorem mem_namedFor {named : List RootNames} {o : Operation} {name : String} :
    name ∈ namedFor named o ↔ ∃ roots ∈ named, roots.get o = some name := by
  simp only [namedFor, List.mem_flatMap, Option.mem_toList]

/-- No operation is named by two of them if no two have a name for it. -/
theorem namedFor_length_iff {named : List RootNames} :
    (∀ o, (namedFor named o).length ≤ 1) ↔
      named.Pairwise fun earlier later => ∀ o, later.get o ≠ none → earlier.get o = none := by
  induction named with
  | nil => simp [namedFor]
  | cons roots named ih =>
      have hcons : ∀ o, namedFor (roots :: named) o
          = (roots.get o).toList ++ namedFor named o := fun o => List.flatMap_cons
      rw [List.pairwise_cons, ← ih]
      refine ⟨fun h => ⟨fun later hlater o hnamed => ?_, fun o => ?_⟩, fun h o => ?_⟩
      · obtain ⟨name, hname⟩ := Option.ne_none_iff_exists'.1 hnamed
        have hpos := List.length_pos_of_mem (mem_namedFor.2 ⟨later, hlater, hname⟩)
        have hlength := h o
        rw [hcons, List.length_append] at hlength
        cases hroot : roots.get o with
        | none => rfl
        | some _ =>
            rw [hroot, Option.toList_some, List.length_singleton] at hlength
            omega
      · have hlength := h o
        rw [hcons, List.length_append] at hlength
        omega
      · rw [hcons]
        cases hrest : namedFor named o with
        | nil => cases roots.get o <;> simp
        | cons name rest =>
            have hmem : name ∈ namedFor named o := hrest ▸ List.mem_cons_self
            obtain ⟨later, hlater, hname⟩ := mem_namedFor.1 hmem
            have hnone := h.1 later hlater o (hname ▸ Option.some_ne_none name)
            rw [hnone, Option.toList_none, List.nil_append, ← hrest]
            exact h.2 o

theorem exists_toList_iff {α : Type} {as : List α} :
    (∃ o : Option α, o.toList = as) ↔ as.length ≤ 1 := by
  refine ⟨?_, fun h => ?_⟩
  · rintro ⟨o, rfl⟩
    cases o <;> simp
  · match as, h with
    | [], _ => exact ⟨none, rfl⟩
    | [a], _ => exact ⟨some a, rfl⟩

theorem exists_namesFor_iff {named : List RootNames} :
    (∃ roots : RootNames, ∀ o, (roots.get o).toList = namedFor named o) ↔
      named.Pairwise fun earlier later => ∀ o, later.get o ≠ none → earlier.get o = none := by
  rw [← namedFor_length_iff]
  refine ⟨fun ⟨roots, h⟩ o => exists_toList_iff.1 ⟨roots.get o, h o⟩, fun h => ?_⟩
  choose root hroot using fun o => exists_toList_iff.2 (h o)
  exact ⟨⟨root .query, root .mutation, root .subscription⟩, fun o => by
    cases o <;> exact hroot _⟩

/-- Whether roots can be taken: one of them is to query, and all are object types. -/
structure RootsFit (ds : List (Definition μ)) (roots : RootNames) : Prop where
  query : roots.query ≠ none
  objects : ∀ o name, roots.get o = some name → Declares ds name .object

theorem namedRootsFit_iff {ds : List (Definition μ)} :
    NamedRootsFit ds ↔
      ∃ roots, (∀ o, (roots.get o).toList = namedFor (rootDefinitions ds) o)
        ∧ RootsFit ds roots := by
  have hget : ∀ {roots : RootNames}, (∀ o, (roots.get o).toList = namedFor (rootDefinitions ds) o)
      → ∀ o name, roots.get o = some name
        ↔ ∃ named ∈ rootDefinitions ds, named.get o = some name := by
    intro roots hroots o name
    rw [← mem_namedFor, ← hroots, Option.mem_toList]
  refine ⟨fun h => ?_, ?_⟩
  · obtain ⟨roots, hroots⟩ := exists_namesFor_iff.2 h.once
    refine ⟨roots, hroots, ?_, fun o name hname => ?_⟩
    · obtain ⟨named, hnamed, hquery⟩ := h.query
      obtain ⟨name, hname⟩ := Option.ne_none_iff_exists'.1 hquery
      have hroot := (hget hroots .query name).2 ⟨named, hnamed, hname⟩
      exact Option.ne_none_iff_exists'.2 ⟨name, hroot⟩
    · obtain ⟨named, hnamed, hname⟩ := (hget hroots o name).1 hname
      exact h.objects named hnamed o name hname
  · rintro ⟨roots, hroots, hfit⟩
    refine ⟨exists_namesFor_iff.1 ⟨roots, hroots⟩, ?_, fun named hnamed o name hname => ?_⟩
    · obtain ⟨name, hname⟩ := Option.ne_none_iff_exists'.1 hfit.query
      obtain ⟨named, hnamed, hname⟩ := (hget hroots .query name).1 hname
      exact ⟨named, hnamed, Option.ne_none_iff_exists'.2 ⟨name, hname⟩⟩
    · exact hfit.objects o name ((hget hroots o name).2 ⟨named, hnamed, hname⟩)

theorem impliedRoots_get (types : List SchemaType) (o : Operation) :
    (impliedRoots types).get o
      = if o.title ∈ types.map (·.name) then some o.title else none := by
  rw [← lookupType_map_name]
  cases o <;> rfl

theorem impliedRootsFit_iff {ds : List (Definition Location)}
    (hnames : ((declared ds).map (·.name)).Nodup) :
    ImpliedRootsFit ds ↔ RootsFit ds (impliedRoots (typesOf ds)) := by
  have hdeclared : ∀ o : Operation, o.title ∈ (typesOf ds).map (·.name)
      ↔ o.title ∈ (declared ds).map (·.name) := by
    intro o
    rw [mem_typesOf_names, knownNames, List.mem_append, or_iff_left]
    cases o <;> decide
  have hget : ∀ o name, (impliedRoots (typesOf ds)).get o = some name
      ↔ o.title ∈ (declared ds).map (·.name) ∧ o.title = name := by
    intro o name
    rw [impliedRoots_get, ← hdeclared, Option.ite_none_right_eq_some, Option.some.injEq]
  refine ⟨fun h => ⟨?_, fun o name hname => ?_⟩, fun h => ⟨?_, fun o d hd htitle => ?_⟩⟩
  · exact Option.ne_none_iff_exists'.2 ⟨_, (hget .query _).2 ⟨h.query, rfl⟩⟩
  · obtain ⟨hmem, rfl⟩ := (hget o name).1 hname
    obtain ⟨d, hd, htitle⟩ := List.mem_map.1 hmem
    exact ⟨d, hd, htitle, h.objects o d hd htitle⟩
  · obtain ⟨name, hname⟩ := Option.ne_none_iff_exists'.1 h.query
    exact ((hget .query name).1 hname).1
  · obtain ⟨d', hd', htitle', hkind⟩ := h.objects o o.title
      ((hget o _).2 ⟨List.mem_map.2 ⟨d, hd, htitle⟩, rfl⟩)
    rw [← List.inj_on_of_nodup_map hnames hd' hd (htitle'.trans htitle.symm)]
    exact hkind

/-- Definitions make up a schema exactly if they keep the rules. -/
theorem wellFormed_iff {ds : List (Definition Location)} :
    WellFormed ds ↔ ∃ s, Makes ds s := by
  refine ⟨fun h => ?_, ?_⟩
  · have honce : NamesOnce (typesOf ds) :=
      (namesOnce_typesOf_iff h.types h.extensions).2 ⟨h.members, h.arguments⟩
    obtain ⟨roots, hnamed, hfit⟩ :
        ∃ roots, NamesRoots (typesOf ds) (rootDefinitions ds) roots ∧ RootsFit ds roots := by
      have hroots := h.roots
      unfold NamesRoots
      split at hroots
      · next hnone => exact ⟨_, by rw [if_pos hnone], (impliedRootsFit_iff h.types).1 hroots⟩
      · next hsome =>
          obtain ⟨roots, hnamed, hfit⟩ := namedRootsFit_iff.1 hroots
          exact ⟨roots, by rwa [if_neg hsome], hfit⟩
    obtain ⟨query, hquery⟩ := Option.ne_none_iff_exists'.1 hfit.query
    have hnames : (Schema.mk (typesOf ds) query roots.mutation roots.subscription).rootNames
        = roots := by
      rw [Schema.rootNames, ← hquery]
    refine ⟨⟨typesOf ds, query, roots.mutation, roots.subscription⟩, rfl, honce, fun e he => ?_,
      h.schemas, (implementsInterfaces_iff honce h.types h.extensions).2 h.interfaces,
      hnames ▸ hnamed, fun o name hname => ?_⟩
    · obtain ⟨d, hd, hname, hkind⟩ := h.extensions e he
      exact ⟨d, hd, hname, hkind.symm⟩
    · exact (declares_iff (by decide)).1 (hfit.objects o name (hnames ▸ hname))
  · rintro ⟨s, hs⟩
    have hbases : ∀ e ∈ typeExtensions ds, Declares ds e.name e.body.kind := by
      intro e he
      obtain ⟨d, hd, hname, hkind⟩ := hs.extensions e he
      exact ⟨d, hd, hname, hkind.symm⟩
    have honce : NamesOnce (typesOf ds) := hs.types ▸ hs.once
    have hnames := hs.declared_names
    obtain ⟨hmembers, harguments⟩ := (namesOnce_typesOf_iff hnames hbases).1 honce
    have hfit : RootsFit ds s.rootNames := by
      refine ⟨Option.some_ne_none _, fun o name hname => (declares_iff (by decide)).2 ?_⟩
      exact hs.types ▸ hs.objects o name hname
    refine ⟨hnames, hmembers, harguments, hbases, hs.schemas,
      (implementsInterfaces_iff honce hnames hbases).1 (hs.types ▸ hs.interfaces), ?_⟩
    have hroots := hs.roots
    unfold NamesRoots at hroots
    split at hroots
    · next hnone =>
        rw [if_pos hnone, impliedRootsFit_iff hnames, ← hs.types, ← hroots]
        exact hfit
    · next hsome =>
        rw [if_neg hsome]
        exact namedRootsFit_iff.2 ⟨_, hroots, hfit⟩

theorem Schema.exists_ofDocument_iff {sort : Bool} {d : Document} :
    (∃ s, Schema.ofDocument sort d = .ok s) ↔ WellFormed d.definitions := by
  rw [wellFormed_iff]
  simp only [Schema.ofDocument, Except.map_ok, ofDefinitions_iff]
  exact ⟨fun ⟨_, s, hs, _⟩ => ⟨s, hs⟩, fun ⟨s, hs⟩ => ⟨_, s, hs, rfl⟩⟩

/-! ## What is not looked at

That some references are of no account could be said by exchanging them, but then it would
have to be listed where they stand. The outline says it the other way round: it has in it
all that a rule asks for, and nothing else. The names of interfaces take some care. One
that is not known is passed over, and one that is known has to lead to an interface; but
which names are known is told by the outline as well (`knownNames_outline`). -/

/-- What the checks see of a type: names, and of the names of interfaces those that are known. -/
structure Sdl.TypeDef.Outline where
  name : String
  kind : TypeKind
  interfaces : List String
  members : List String
  arguments : List (List String)
deriving DecidableEq

/-- What the checks see of some definitions. -/
structure Outline where
  types : List TypeDef.Outline
  extensions : List TypeDef.Outline
  schemas : List RootNames
  schemaExtensions : List RootNames
deriving DecidableEq

/-- The outline of a type, where these names are known. -/
def Sdl.TypeDef.outline (known : List String) (t : TypeDef μ) : TypeDef.Outline :=
  ⟨t.name, t.body.kind, t.body.interfaces.filter known.contains, t.body.members.map Prod.fst,
    t.body.argumentNames⟩

/-- The outline of some definitions. -/
def outline (ds : List (Definition μ)) : Outline :=
  ⟨(declared ds).map (TypeDef.outline (knownNames ds)),
    (typeExtensions ds).map (TypeDef.outline (knownNames ds)), schemaDefinitions ds,
    ds.filterMap Definition.addedRoots?⟩

theorem knownNames_outline (ds : List (Definition μ)) :
    (outline ds).types.map (·.name) ++ builtinScalars = knownNames ds := by
  rw [outline, List.map_map]
  rfl

theorem members_outline (known : List String) (ts : List (TypeDef μ)) :
    (ts.flatMap (·.body.members)).map Prod.fst
      = (ts.map (TypeDef.outline known)).flatMap (·.members) := by
  rw [List.map_flatMap, List.flatMap_map]
  rfl

theorem parts_outline (known : List String) (ds : List (Definition μ)) (d : TypeDef μ) :
    (parts ds d).map (TypeDef.outline known)
      = d.outline known :: ((typeExtensions ds).map (TypeDef.outline known)).filter
        (·.name == (d.outline known).name) := by
  rw [parts, List.map_cons, List.filter_map]
  rfl

/-- Definitions with one outline keep the rules alike, whatever they are marked with. -/
theorem WellFormed.of_outline {ds : List (Definition μ)} {ds' : List (Definition ν)}
    (h : WellFormed ds) (hsame : outline ds' = outline ds) : WellFormed ds' := by
  have hknown : knownNames ds' = knownNames ds := by
    rw [← knownNames_outline, hsame, knownNames_outline]
  simp only [outline, hknown, Outline.mk.injEq] at hsame
  obtain ⟨htypes, hextensions, hschemas, hadded⟩ := hsame
  have hall : (typeDefinitions ds').map (TypeDef.outline (knownNames ds))
      = (typeDefinitions ds).map (TypeDef.outline (knownNames ds)) := by
    rw [typeDefinitions, typeDefinitions, List.map_append, List.map_append, htypes, hextensions]
  have hroots : rootDefinitions ds' = rootDefinitions ds := by
    rw [rootDefinitions, rootDefinitions, hschemas, hadded]
  have hnames : (declared ds').map (·.name) = (declared ds).map (·.name) :=
    List.append_cancel_right hknown
  have hdeclares : ∀ {name kind}, Declares ds name kind → Declares ds' name kind := by
    rintro _ _ ⟨d, hd, rfl, rfl⟩
    obtain ⟨d', hd', heq⟩ := List.mem_map.1 (htypes ▸ List.mem_map_of_mem hd)
    exact ⟨d', hd', congrArg TypeDef.Outline.name heq, congrArg TypeDef.Outline.kind heq⟩
  refine ⟨hnames ▸ h.types, fun d' hd' => ?_, fun t' ht' f' hf' => ?_, fun e' he' => ?_,
    hschemas ▸ h.schemas, fun t' ht' name hname hmem => ?_, ?_⟩
  · obtain ⟨d, hd, heq⟩ := List.mem_map.1 (htypes ▸ List.mem_map_of_mem hd')
    have hmembers := h.members d hd
    rw [members_outline (knownNames ds), parts_outline] at hmembers ⊢
    rwa [hextensions, ← heq]
  · obtain ⟨t, ht, heq⟩ := List.mem_map.1 (hall ▸ List.mem_map_of_mem ht')
    have hsame : t.body.argumentNames = t'.body.argumentNames :=
      congrArg TypeDef.Outline.arguments heq
    have hmem : f'.arguments.map (·.name) ∈ t.body.argumentNames :=
      hsame ▸ List.mem_map_of_mem hf'
    obtain ⟨f, hf, heq⟩ := List.mem_map.1 hmem
    exact heq ▸ h.arguments t ht f hf
  · obtain ⟨e, he, heq⟩ := List.mem_map.1 (hextensions ▸ List.mem_map_of_mem he')
    have hbase := hdeclares (h.extensions e he)
    rwa [show e.name = e'.name from congrArg TypeDef.Outline.name heq,
      show e.body.kind = e'.body.kind from congrArg TypeDef.Outline.kind heq] at hbase
  · obtain ⟨t, ht, heq⟩ := List.mem_map.1 (hall ▸ List.mem_map_of_mem ht')
    have hsame : t.body.interfaces.filter (knownNames ds).contains
        = t'.body.interfaces.filter (knownNames ds).contains :=
      congrArg TypeDef.Outline.interfaces heq
    rw [hknown] at hmem
    have hlisted := List.mem_filter.2 ⟨hname, List.contains_iff_mem.2 hmem⟩
    rw [← hsame] at hlisted
    exact hdeclares (h.interfaces t ht name (List.mem_filter.1 hlisted).1 hmem)
  · have hfit := h.roots
    rw [hroots]
    split
    · next hnone =>
        rw [if_pos hnone] at hfit
        refine ⟨hnames ▸ hfit.query, fun o d' hd' htitle => ?_⟩
        obtain ⟨d, hd, heq⟩ := List.mem_map.1 (htypes ▸ List.mem_map_of_mem hd')
        have hkind := hfit.objects o d hd ((congrArg TypeDef.Outline.name heq).trans htitle)
        exact (congrArg TypeDef.Outline.kind heq).symm.trans hkind
    · next hsome =>
        rw [if_neg hsome] at hfit
        refine ⟨hroots ▸ hfit.once, hroots ▸ hfit.query, fun roots hmem o name hname => ?_⟩
        exact hdeclares (hfit.objects roots (hroots ▸ hmem) o name hname)

/--
A document makes up a schema, sorted or not, exactly if its definitions keep the rules.
Nothing decides about that but the outline of the definitions, so what fields, arguments and
members of unions refer to never does, nor does the name of an interface that is not known.
-/
theorem Schema.ofDocument_accepts (sort : Bool) (d : Document) :
    ((∃ s, Schema.ofDocument sort d = .ok s) ↔ WellFormed d.definitions)
      ∧ ∀ d' : Document, outline d'.definitions = outline d.definitions →
        ((∃ s, Schema.ofDocument sort d' = .ok s) ↔ ∃ s, Schema.ofDocument sort d = .ok s) := by
  refine ⟨exists_ofDocument_iff, fun d' hsame => ?_⟩
  rw [exists_ofDocument_iff, exists_ofDocument_iff]
  exact ⟨fun h => h.of_outline hsame.symm, fun h => h.of_outline hsame⟩

/-- Extensions on both sides of what they extend, and references that all lead somewhere. -/
def knownSources : List Source :=
  [⟨"more", "extend type Query implements N\x7bb(c:Int):U\x7d extend schema\x7bmutation:M\x7d"⟩,
    ⟨"base", "schema\x7bquery:Query\x7d type Query implements N\x7ba:Int\x7d
interface N\x7ba:Int\x7d type M\x7bi(j:I):Int\x7d input I\x7bk:Int\x7d union U=Query"⟩]

/-- The same with references that lead nowhere, and with interfaces that are not there. -/
def unknownSources : List Source :=
  [⟨"more", "extend type Query implements N&A\x7bb(c:B):[C!]\x7d extend schema\x7bmutation:M\x7d"⟩,
    ⟨"base", "schema\x7bquery:Query\x7d type Query implements D&N\x7ba:E\x7d
interface N\x7ba:F\x7d type M implements G\x7bi(j:H=1):J\x7d input I\x7bk:K\x7d union U=L|O"⟩]

/-- What the checks see of either. -/
def sharedOutline : Outline :=
  ⟨[⟨"Query", .object, ["N"], ["a"], [[]]⟩, ⟨"N", .interface, [], ["a"], [[]]⟩,
      ⟨"M", .object, [], ["i"], [["j"]]⟩, ⟨"I", .input, [], ["k"], []⟩, ⟨"U", .union, [], [], []⟩],
    [⟨"Query", .object, ["N"], ["b"], [["c"]]⟩], [⟨some "Query", none, none⟩],
    [⟨none, some "M", none⟩]⟩

theorem Schema.ofDocument_accepts_unknown :
    ∃ d d', Document.load knownSources = .ok (some d)
      ∧ Document.load unknownSources = .ok (some d')
      ∧ outline d.definitions = sharedOutline ∧ outline d'.definitions = sharedOutline
      ∧ (∃ s, Schema.ofDocument true d = .ok s) ∧ ∃ s, Schema.ofDocument true d' = .ok s := by
  have hknown : (Document.load knownSources).toOption.join.any (fun d =>
      (Schema.ofDocument false d).toOption.isSome && outline d.definitions == sharedOutline)
        = true := by
    decide +kernel
  have hunknown : (Document.load unknownSources).toOption.join.any (fun d =>
      outline d.definitions == sharedOutline) = true := by
    decide +kernel
  obtain ⟨d, hload, hd⟩ := Except.exists_some_of_any hknown
  obtain ⟨d', hload', hd'⟩ := Except.exists_some_of_any hunknown
  obtain ⟨hmade, hshared⟩ := Bool.and_eq_true_iff.1 hd
  have hshared : outline d.definitions = sharedOutline := beq_iff_eq.1 hshared
  have hshared' : outline d'.definitions = sharedOutline := beq_iff_eq.1 hd'
  -- The rules do not read the option, so what is a schema unsorted is one sorted.
  have hsorted := (ofDocument_accepts true d).1.2
    ((ofDocument_accepts false d).1.1 (Except.exists_ok hmade))
  have hsame := hshared'.trans hshared.symm
  exact ⟨d, d', hload, hload', hshared, hshared', hsorted,
    ((ofDocument_accepts true d).2 d' hsame).2 hsorted⟩

end SchemaGraph
