import SchemaGraph.Proofs.Acceptance
import SchemaGraph.Proofs.Canonical

/-!
# What an extension of the schema adds

Where a document has no schema definition, the types named after the operations are the
roots, but only as long as it has no extension of the schema either. One extension is
enough, even if it names no type and is there for its directives: then the roots are those
that extensions name and no others. So an extension does not only add to the roots. It also
takes away the ones that went without saying, the root to query among them.

The types have no part in this. `Makes.ofDefinitions_eq` leaves of a document whose types
fit nothing to be found but the roots, and the roots are told from what is named.
-/

namespace SchemaGraph

open Sdl

variable {μ : Type}

/-- What the extensions of the schema name, in order. -/
def addedRoots (ds : List (Definition μ)) : List RootNames := ds.filterMap Definition.addedRoots?

/-- The definitions that are no extensions of the schema. -/
def withoutAddedRoots (ds : List (Definition μ)) : List (Definition μ) :=
  ds.filter (·.addedRoots?.isNone)

/-- The document without its extensions of the schema. -/
def Document.withoutAddedRoots (d : Document) : Document :=
  ⟨d.fragments.map fun f => { f with definitions := SchemaGraph.withoutAddedRoots f.definitions }⟩

theorem Sdl.Definition.addedRoots?_map {ν : Type} (f : μ → ν) (d : Definition μ) :
    (d.map f).addedRoots? = d.addedRoots? := by
  cases d <;> rfl

theorem Document.definitions_withoutAddedRoots (d : Document) :
    d.withoutAddedRoots.definitions = SchemaGraph.withoutAddedRoots d.definitions := by
  rw [Document.definitions, Document.withoutAddedRoots, List.flatMap_map, Document.definitions,
    SchemaGraph.withoutAddedRoots, List.filter_flatMap]
  refine congrArg (d.fragments.flatMap ·) (funext fun f => ?_)
  rw [Fragment.located, Fragment.located, List.filter_map]
  refine congrArg (List.map _) (List.filter_congr fun x _ => ?_)
  rw [Function.comp_apply, Definition.addedRoots?_map]

/-- Nothing else that a definition can be is an extension of the schema. -/
theorem filterMap_withoutAddedRoots {α : Type} {part : Definition μ → Option α}
    (hpart : ∀ roots, part (.extendSchema roots) = none) (ds : List (Definition μ)) :
    (withoutAddedRoots ds).filterMap part = ds.filterMap part := by
  rw [withoutAddedRoots, List.filterMap_filter]
  refine List.filterMap_congr fun d _ => ?_
  cases d with
  | extendSchema roots => exact (hpart roots).symm
  | schema | type | extendType | directive => rfl

theorem withoutAddedRoots_of_nil {ds : List (Definition μ)} (h : addedRoots ds = []) :
    withoutAddedRoots ds = ds := by
  refine List.filter_eq_self.2 fun d hd => ?_
  rw [List.filterMap_eq_nil_iff.1 h d hd]
  rfl

/-- The error on a schema that has no root to query. -/
def SchemaError.noQuery : SchemaError := ⟨.noQuery, none⟩

theorem checkMembers_ne_noQuery (d : TypeDef Location) : checkMembers d ≠ .error .noQuery := by
  intro h
  rw [checkMembers] at h
  split at h
  · cases h
  split at h <;> cases h

theorem collect_ne_noQuery (ds : List (Definition Location)) : collect ds ≠ .error .noQuery := by
  intro h
  obtain ⟨c, d, -, hadd⟩ := foldlM_error h
  cases d with
  | type d =>
      rw [Collected.add] at hadd
      cases hd : addType c.types d with
      | ok types => rw [hd] at hadd; cases hadd
      | error e =>
          rw [hd] at hadd
          cases hadd
          rw [addType] at hd
          split at hd
          · cases hd
          split at hd
          · next hmembers =>
              cases hd
              exact checkMembers_ne_noQuery d hmembers
          · cases hd
  | schema roots =>
      rw [Collected.add] at hadd
      split at hadd <;> cases hadd
  | extendSchema | extendType | directive => cases hadd

theorem extendAll_ne_noQuery (types : List SchemaType) (ds : List (Definition Location)) :
    extendAll types ds ≠ .error .noQuery := by
  intro h
  obtain ⟨types, e, -, hextend⟩ := foldlM_error h
  rw [extendType] at hextend
  split at hextend
  · cases hextend
  split at hextend
  · cases hextend
  split at hextend
  · next hmembers =>
      cases hextend
      exact checkMembers_ne_noQuery e hmembers
  dsimp only at hextend
  split at hextend <;> cases hextend

theorem checkInterfaces_ne_noQuery (types : List SchemaType) :
    checkInterfaces types ≠ .error .noQuery := by
  intro h
  rw [checkInterfaces] at h
  split at h
  · next e hfound =>
      cases h
      obtain ⟨t, -, ht⟩ := List.exists_of_findSome?_eq_some hfound
      obtain ⟨name, -, hname⟩ := List.exists_of_findSome?_eq_some ht
      split at hname
      · cases hname
      split at hname <;> cases hname
  · cases h

theorem namedRoots_ne_noQuery (types : List SchemaType) (definition : Option RootNames)
    (extensions : List RootNames) : namedRoots types definition extensions ≠ .error .noQuery := by
  intro h
  rw [namedRoots.eq_def] at h
  split at h
  · cases h
  · obtain ⟨roots, added, -, hadd⟩ := foldlM_error h
    obtain ⟨roots, o, -, hadd⟩ := foldlM_error hadd
    rw [addRoot] at hadd
    split at hadd
    · cases hadd
    split at hadd <;> cases hadd

/-- There is a root to query if none of the roots is missed. -/
theorem withRoots_noQuery_iff {types : List SchemaType} {roots : RootNames} :
    withRoots types roots = .error .noQuery ↔ roots.query = none := by
  have hcheck : ∀ o name, checkRoot types o name ≠ .error .noQuery := by
    intro o name h
    rw [checkRoot] at h
    split at h
    · cases h
    split at h <;> cases h
  have hcheck? : ∀ o root, checkRoot? types o root ≠ .error .noQuery := by
    intro o root h
    cases root with
    | none => cases h
    | some name => exact hcheck o name h
  rw [withRoots]
  cases roots.query with
  | none => exact iff_of_true rfl rfl
  | some query =>
      refine iff_of_false (fun h => ?_) (Option.some_ne_none _)
      obtain h | ⟨_, -, h⟩ := Except.bind_error.1 h
      · exact hcheck .query query h
      obtain h | ⟨_, -, h⟩ := Except.bind_error.1 h
      · exact hcheck? .mutation _ h
      obtain h | ⟨_, -, h⟩ := Except.bind_error.1 h
      · exact hcheck? .subscription _ h
      cases h

/--
If a root to query is missing, no definition or extension of the schema names one, and
there is such a definition or extension or no type that could be implied.
-/
theorem Schema.ofDefinitions_noQuery {ds : List (Definition Location)}
    (h : Schema.ofDefinitions ds = .error .noQuery) :
    (∀ roots ∈ rootDefinitions ds, roots.query = none)
      ∧ (rootDefinitions ds = [] → Operation.query.title ∉ (declared ds).map (·.name)) := by
  obtain h | ⟨collected, hcollect, h⟩ := Except.bind_error.1 h
  · exact absurd h (collect_ne_noQuery ds)
  obtain h | ⟨types, hextend, h⟩ := Except.bind_error.1 h
  · exact absurd h (extendAll_ne_noQuery _ ds)
  obtain h | ⟨_, -, h⟩ := Except.bind_error.1 h
  · exact absurd h (checkInterfaces_ne_noQuery _)
  obtain h | ⟨roots, hnamed, h⟩ := Except.bind_error.1 h
  · exact absurd h (namedRoots_ne_noQuery _ _ _)
  have hquery : roots.get .query = none := withRoots_noQuery_iff.1 h
  obtain ⟨-, -, hcollected, hschemas⟩ := collect_iff.1 hcollect
  have hroots : NamesRoots (addBuiltins types) (rootDefinitions ds) roots :=
    rootDefinitions.eq_1 ds ▸ hschemas ▸ namedRoots_iff.1 hnamed
  unfold NamesRoots at hroots
  split at hroots
  · next hnil =>
      refine ⟨by simp [hnil], fun _ hdeclared => ?_⟩
      have hnames : types.map (·.name) = (declared ds).map (·.name) := by
        rw [(foldlM_extendType_ok hextend (collect_ok hcollect).2).1, hcollected, List.map_map,
          List.map_map]
        exact List.map_congr_left fun d _ => extendBy_name _ _
      have htitle : Operation.query.title ∈ (addBuiltins types).map (·.name) := by
        rw [addBuiltins_eq, List.map_append, hnames]
        exact List.mem_append_left _ hdeclared
      rw [hroots, impliedRoots_get, if_pos htitle] at hquery
      cases hquery
  · next hne =>
      refine ⟨fun named hmem => ?_, fun hnil => absurd hnil hne⟩
      have hnone := hroots .query
      rw [hquery, Option.toList_none, eq_comm, namedFor, List.flatMap_eq_nil_iff] at hnone
      exact Option.toList_eq_nil_iff.1 (hnone named hmem)

/-- Whether all roots are names of object types. -/
def ObjectRoots (types : List SchemaType) (roots : RootNames) : Prop :=
  ∀ o name, roots.get o = some name → ∃ t ∈ types, t.name = name ∧ t.body.kind = .object

section

variable {ds : List (Definition Location)} {s : Schema} (hnone : schemaDefinitions ds = [])
  (hmakes : Makes (withoutAddedRoots ds) s)

include hnone hmakes

theorem ofDefinitions_addedRoots :
    Schema.ofDefinitions ds = namedRoots s.types none (addedRoots ds) >>= withRoots s.types := by
  have hkept : ∀ {α : Type} {part : Definition Location → Option α},
      (∀ roots, part (.extendSchema roots) = none) →
        ds.filterMap part = (withoutAddedRoots ds).filterMap part :=
    fun hpart => (filterMap_withoutAddedRoots hpart ds).symm
  have hschemas : schemaDefinitions (withoutAddedRoots ds) = schemaDefinitions ds :=
    filterMap_withoutAddedRoots (fun _ => rfl) ds
  have hmade : Schema.ofDefinitions ds = _ :=
    hmakes.ofDefinitions_eq (hkept fun _ => rfl) (hkept fun _ => rfl) hschemas.symm
  rwa [hschemas, hnone] at hmade

/-- With extensions of the schema, what they name are the roots. -/
theorem ofDefinitions_addedRoots_iff (hadded : addedRoots ds ≠ []) {s' : Schema} :
    Schema.ofDefinitions ds = .ok s' ↔
      s'.types = s.types ∧ (∀ o, (s'.rootNames.get o).toList = namedFor (addedRoots ds) o)
        ∧ ObjectRoots s.types s'.rootNames := by
  have hnamed : ∀ roots,
      NamesRoots s.types ((none : Option RootNames).toList ++ addedRoots ds) roots
        ↔ ∀ o, (roots.get o).toList = namedFor (addedRoots ds) o := by
    intro roots
    rw [NamesRoots, Option.toList_none, List.nil_append, if_neg hadded]
  simp only [ofDefinitions_addedRoots hnone hmakes, Except.bind_ok, namedRoots_iff, hnamed,
    withRoots_iff, lookupType_eq_some hmakes.once.types, and_assoc]
  refine ⟨?_, ?_⟩
  · rintro ⟨roots, hroots, htypes, rfl, hobjects⟩
    exact ⟨htypes, hroots, hobjects⟩
  · rintro ⟨htypes, hroots, hobjects⟩
    exact ⟨s'.rootNames, hroots, htypes, rfl, hobjects⟩

/-- If they name no root to query and no operation twice, just that root is missing. -/
theorem ofDefinitions_addedRoots_noQuery (hadded : addedRoots ds ≠ [])
    (hquery : namedFor (addedRoots ds) .query = [])
    (honce : ∀ o, (namedFor (addedRoots ds) o).length ≤ 1) :
    Schema.ofDefinitions ds = .error .noQuery := by
  obtain ⟨roots, hroots⟩ := exists_namesFor_iff.2 (namedFor_length_iff.1 honce)
  have hnamed : namedRoots s.types none (addedRoots ds) = .ok roots := by
    rw [namedRoots_iff, NamesRoots, Option.toList_none, List.nil_append, if_neg hadded]
    exact hroots
  have hmissing : roots.query = none := by
    rw [← Option.toList_eq_nil_iff, ← hquery, ← hroots]
    rfl
  rw [ofDefinitions_addedRoots hnone hmakes, hnamed]
  exact withRoots_noQuery_iff.2 hmissing

end

/-- The schema in alphabetical order, or as it is. -/
def Schema.arranged (sort : Bool) (s : Schema) : Schema := if sort then s.sorted else s

theorem Schema.exists_arranged_iff {sort : Bool} {s s' : Schema} {P : RootNames → Prop} :
    (∃ s₁ : Schema, (s₁.types = s.types ∧ P s₁.rootNames) ∧ s₁.arranged sort = s')
      ↔ s'.types = (s.arranged sort).types ∧ P s'.rootNames := by
  cases sort with
  | false =>
      refine ⟨?_, fun h => ⟨s', h, rfl⟩⟩
      rintro ⟨s₁, h, rfl⟩
      exact h
  | true =>
      refine ⟨?_, fun ⟨htypes, hroots⟩ => ⟨{ s' with types := s.types }, ⟨rfl, hroots⟩, ?_⟩⟩
      · rintro ⟨s₁, ⟨htypes, hroots⟩, rfl⟩
        refine ⟨?_, hroots⟩
        simp only [arranged, if_true, sorted, htypes]
      · obtain ⟨types, query, mutation, subscription⟩ := s'
        obtain rfl : types = s.sorted.types := htypes
        rfl

theorem objectRoots_arranged {sort : Bool} {s : Schema} {roots : RootNames} :
    ObjectRoots (s.arranged sort).types roots ↔ ObjectRoots s.types roots := by
  cases sort with
  | false => exact Iff.rfl
  | true =>
      have hsorted : ∀ name, (∃ t ∈ s.sorted.types, t.name = name ∧ t.body.kind = .object)
          ↔ ∃ t ∈ s.types, t.name = name ∧ t.body.kind = .object := by
        intro name
        simp only [s.sorted_types_perm.mem_iff, List.mem_map, exists_exists_and_eq_and,
          TypeDef.sorted, TypeBody.kind_sorted]
      exact forall₃_congr fun o name _ => hsorted name

/--
A document whose types fit, and whose roots would go without saying, keeps these roots only
if it has no extension of the schema. With one its roots are those that extensions name.
So it is no schema if they name what was to be added, each operation once and none that has
a root already: the root to query is missing. No document is without a root to query that
names one, or that names no root at all and has a type of that name.
-/
theorem Schema.ofDocument_addedRoots (sort : Bool) (d : Document) :
    (∀ s, schemaDefinitions d.definitions = [] →
      Schema.ofDocument sort d.withoutAddedRoots = .ok s →
        (addedRoots d.definitions = [] → Schema.ofDocument sort d = .ok s)
        ∧ (addedRoots d.definitions ≠ [] →
          (∀ s', Schema.ofDocument sort d = .ok s' ↔ s'.types = s.types
            ∧ (∀ o, (s'.rootNames.get o).toList = namedFor (addedRoots d.definitions) o)
            ∧ ObjectRoots s.types s'.rootNames)
          ∧ ((∀ o, s.rootNames.get o ≠ none → namedFor (addedRoots d.definitions) o = []) →
            (∀ o, (namedFor (addedRoots d.definitions) o).length ≤ 1) →
              Schema.ofDocument sort d = .error .noQuery)))
      ∧ (Schema.ofDocument sort d = .error .noQuery →
        (∀ roots ∈ rootDefinitions d.definitions, roots.query = none)
        ∧ (rootDefinitions d.definitions = [] →
          Operation.query.title ∉ (declared d.definitions).map (·.name))) := by
  refine ⟨fun s hnone hs => ⟨fun hadded => ?_, fun hadded => ?_⟩, fun h => ?_⟩
  · rwa [Schema.ofDocument, d.definitions_withoutAddedRoots, withoutAddedRoots_of_nil hadded] at hs
  · obtain ⟨s₀, hs₀, rfl⟩ := Except.map_ok.1 hs
    rw [d.definitions_withoutAddedRoots, ofDefinitions_iff] at hs₀
    refine ⟨fun s' => ?_, fun hfree honce => ?_⟩
    · rw [Schema.ofDocument, Except.map_ok]
      simp only [ofDefinitions_addedRoots_iff hnone hs₀ hadded]
      have harranged := @exists_arranged_iff sort s₀ s' fun roots =>
        (∀ o, (roots.get o).toList = namedFor (addedRoots d.definitions) o)
          ∧ ObjectRoots s₀.types roots
      exact harranged.trans (and_congr_right fun _ => and_congr_right fun _ =>
        objectRoots_arranged.symm)
    · have hquery : namedFor (addedRoots d.definitions) .query = [] := by
        refine hfree .query ?_
        cases sort <;> exact Option.some_ne_none _
      rw [Schema.ofDocument, ofDefinitions_addedRoots_noQuery hnone hs₀ hadded hquery honce]
      rfl
  · refine ofDefinitions_noQuery ?_
    rw [Schema.ofDocument] at h
    cases hmade : Schema.ofDefinitions d.definitions with
    | ok s => rw [hmade] at h; cases h
    | error e => rw [hmade] at h; cases h; rfl

/-- An extension that names no type, next to a type that would be the root to query. -/
def federatedSource : Source :=
  ⟨"federated", "extend schema @link(url:\"u\") type Query\x7ba:Int\x7d"⟩

theorem Schema.ofDocument_addedRoots_federated :
    ∃ d s, Document.load [federatedSource] = .ok (some d)
      ∧ Schema.ofDocument false d.withoutAddedRoots = .ok s ∧ s.query = "Query"
      ∧ Schema.ofDocument false d = .error .noQuery := by
  have hbuilt : (Document.load [federatedSource]).toOption.join.any (fun d =>
      schemaDefinitions d.definitions == [] && addedRoots d.definitions == [.empty]
        && (Schema.ofDocument false d.withoutAddedRoots).toOption.any (·.query == "Query"))
        = true := by
    decide +kernel
  obtain ⟨d, hload, hd⟩ := Except.exists_some_of_any hbuilt
  simp only [Bool.and_eq_true, beq_iff_eq] at hd
  obtain ⟨⟨hnone, hadded⟩, hs⟩ := hd
  obtain ⟨s, hs, hquery⟩ := Except.exists_ok_of_any hs
  have hnamed : ∀ o, namedFor (addedRoots d.definitions) o = [] := by
    intro o
    rw [hadded]
    cases o <;> rfl
  refine ⟨d, s, hload, hs, beq_iff_eq.1 hquery, ?_⟩
  exact ((((ofDocument_addedRoots false d).1 s hnone hs).2 (by simp [hadded])).2
    (fun o _ => hnamed o) fun o => by simp [hnamed])

end SchemaGraph
