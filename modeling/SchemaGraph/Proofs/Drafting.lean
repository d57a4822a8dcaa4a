import SchemaGraph.Proofs.Registering

/-!
# Schemas made step by step

A draft is a schema in the making: a register, and what has been read of the roots. `steps`
lists what is done to it for a document, which is to add the types, to merge the extensions,
to complete the types by the built-in scalars, to record which types implement an interface,
to find the roots and, if that is wanted, to sort.

A step may be refused. It never breaks off, whatever steps were taken before it, and it
leaves a draft whose index agrees with its rows (`perform_gives`). All that is proved of a
lookup or of a merge in such a register is therefore true throughout. And the steps as a
whole come out as `Schema.ofDocument`: with the same error, or with the rows of the schema.
-/

namespace SchemaGraph

open Sdl

/-- A schema in the making, with what has been read of its roots. -/
structure Draft where
  register : Register
  definition : Option RootNames
  extensions : List RootNames
  query : String
  mutation : Option String
  subscription : Option String

namespace Draft

/-- What can be done to a draft. -/
inductive Step where
  | addType (d : TypeDef Location)
  | define (roots : RootNames)
  | extendType (e : TypeDef Location)
  | extendSchema (roots : RootNames)
  | addBuiltins
  | collectImplementations
  | resolveRoots
  | sort

/-- What a definition is for as long as types are collected. -/
def Step.first? : Definition Location → Option Step
  | .type d => some (.addType d)
  | .schema roots => some (.define roots)
  | _ => none

/-- What a definition is for when all types have been collected. -/
def Step.second? : Definition Location → Option Step
  | .extendType e => some (.extendType e)
  | .extendSchema roots => some (.extendSchema roots)
  | _ => none

/-- The steps that make a schema of definitions. -/
def steps (sort : Bool) (definitions : List (Definition Location)) : List Step :=
  definitions.filterMap Step.first? ++ definitions.filterMap Step.second?
    ++ [.addBuiltins, .collectImplementations, .resolveRoots] ++ if sort then [.sort] else []

/-- A draft in which nothing is done. -/
def start : Draft := ⟨.empty, none, [], "Query", none, none⟩

/-- Finds the roots of a draft, which must be object types. -/
def resolveRoots (draft : Draft) : Trial Draft := do
  let roots ← draft.register.namedRoots draft.definition draft.extensions
  match roots.query with
  | none => throw ⟨.noQuery, none⟩
  | some query =>
    draft.register.checkRoot .query query
    draft.register.checkRoot? .mutation roots.mutation
    draft.register.checkRoot? .subscription roots.subscription
    return { draft with
      query := query, mutation := roots.mutation, subscription := roots.subscription }

/-- A draft with another register. -/
def withRegister (draft : Draft) (r : Register) : Draft := { draft with register := r }

/-- Takes one step. -/
def perform (draft : Draft) : Step → Trial Draft
  | .addType d => draft.withRegister <$> draft.register.add d
  | .define roots =>
    if draft.definition.isSome then throw ⟨.secondSchema, none⟩
    else return { draft with definition := some roots }
  | .extendType e => draft.withRegister <$> draft.register.extend e
  | .extendSchema roots => return { draft with extensions := draft.extensions ++ [roots] }
  | .addBuiltins => draft.withRegister <$> draft.register.addBuiltins
  | .collectImplementations => draft.withRegister <$> draft.register.collectImplementations
  | .resolveRoots => draft.resolveRoots
  | .sort => return draft.withRegister draft.register.sorted

/-- The draft after some steps. -/
def after (steps : List Step) : Trial Draft := steps.foldlM perform start

end Draft

namespace Draft

/-- Whether a draft holds what a schema says. -/
structure Shows (draft : Draft) (s : Schema) : Prop where
  rows : draft.register.rows = s.rows
  query : draft.query = s.query
  mutation : draft.mutation = s.mutation
  subscription : draft.subscription = s.subscription

variable {draft : Draft}

theorem Shows.names {s : Schema} (h : draft.Shows s) :
    draft.register.names = s.types.map (·.name) := by
  rw [Register.names, h.rows, s.map_name_rows]

theorem resolveRoots_mirrors (h : draft.register.Indexed) :
    draft.resolveRoots.Mirrors
      (fun draft' s => draft'.register = draft.register ∧ s.types = draft.register.types
        ∧ draft'.query = s.query ∧ draft'.mutation = s.mutation
        ∧ draft'.subscription = s.subscription)
      (namedRoots draft.register.types draft.definition draft.extensions
        >>= withRoots draft.register.types) := by
  refine (h.namedRoots_mirrors draft.definition draft.extensions).bind ?_
  rintro roots _ rfl
  rw [withRoots]
  cases roots.query with
  | none => exact .throw _
  | some query =>
      refine (h.checkRoot_mirrors .query query).bind fun _ _ _ => ?_
      refine (h.checkRoot?_mirrors .mutation roots.mutation).bind fun _ _ _ => ?_
      refine (h.checkRoot?_mirrors .subscription roots.subscription).bind fun _ _ _ => ?_
      exact .pure ⟨rfl, rfl, rfl, rfl, rfl⟩

theorem withRegister_gives {t : Trial Register} (h : t.Gives Register.Indexed) :
    Trial.Gives (·.register.Indexed) (draft.withRegister <$> t) := h.map fun _ hr => hr

/-- A step taken in a draft whose lookups can be trusted comes to such a draft, if to any. -/
theorem perform_gives (h : draft.register.Indexed) (step : Step) :
    Trial.Gives (·.register.Indexed) (draft.perform step) := by
  cases step with
  | addType d => exact withRegister_gives ((h.add_mirrors d).gives fun _ _ hb => hb.indexed)
  | define roots =>
      rw [perform]
      split
      · exact .throw _
      · exact .pure h
  | extendType e => exact withRegister_gives ((h.extend_mirrors e).gives fun _ _ hb => hb.indexed)
  | extendSchema roots => exact .pure h
  | addBuiltins => exact withRegister_gives (h.addBuiltins_mirrors.gives fun _ _ hb => hb.indexed)
  | collectImplementations =>
      exact withRegister_gives (h.collectImplementations_mirrors.gives fun _ _ hb => hb.1)
  | resolveRoots => exact (resolveRoots_mirrors h).gives fun _ _ ⟨heq, _⟩ => heq ▸ h
  | sort => exact .pure h.sorted

theorem after_gives (steps : List Step) : Trial.Gives (·.register.Indexed) (after steps) :=
  .foldlM (fun _ step h => perform_gives h step) steps Register.indexed_empty

/-- What is known of a draft for as long as its types are being merged. -/
structure Holds (draft : Draft) (types : List SchemaType) (definition : Option RootNames)
    (extensions : List RootNames) : Prop where
  indexed : draft.register.Indexed
  fresh : draft.register.Fresh
  types : draft.register.types = types
  definition : draft.definition = definition
  extensions : draft.extensions = extensions

theorem collect_mirrors (definitions : List (Definition Location)) {c : Collected}
    (h : draft.Holds c.types c.roots []) :
    ((definitions.filterMap Step.first?).foldlM perform draft).Mirrors
      (fun draft' c' => draft'.Holds c'.types c'.roots [])
      (definitions.foldlM Collected.add c) := by
  -- A definition is a step of the draft exactly if it adds to what is collected.
  induction definitions generalizing draft c with
  | nil => exact .pure h
  | cons d ds ih =>
      cases d with
      | type d =>
          have hadd := h.indexed.add_mirrors d
          rw [h.types] at hadd
          have hperform : (draft.perform (.addType d)).Mirrors
              (fun draft' c' => draft'.Holds c'.types c'.roots []) (c.add (.type d)) :=
            hadd.map fun _ _ hb =>
              ⟨hb.indexed, hb.fresh h.fresh, hb.types, h.definition, h.extensions⟩
          exact hperform.bind fun _ _ => ih
      | schema roots =>
          have hperform : (draft.perform (.define roots)).Mirrors
              (fun draft' c' => draft'.Holds c'.types c'.roots []) (c.add (.schema roots)) := by
            rw [perform, Collected.add, h.definition]
            split
            · exact .throw _
            · exact .pure ⟨h.indexed, h.fresh, h.types, rfl, h.extensions⟩
          exact hperform.bind fun _ _ => ih
      | extendSchema | extendType | directive => exact ih h

theorem extend_mirrors {types : List SchemaType} {definition : Option RootNames}
    {extensions : List RootNames} (h : draft.Holds types definition extensions)
    (definitions : List (Definition Location)) :
    ((definitions.filterMap Step.second?).foldlM perform draft).Mirrors
      (fun draft' types' => draft'.Holds types' definition
        (extensions ++ definitions.filterMap Definition.addedRoots?))
      (extendAll types definitions) := by
  induction definitions generalizing draft types extensions with
  | nil => exact .pure (by simpa using h)
  | cons d ds ih =>
      cases d with
      | extendType e =>
          have hextend := h.indexed.extend_mirrors e
          rw [h.types] at hextend
          have hperform : (draft.perform (.extendType e)).Mirrors
              (fun draft' types' => draft'.Holds types' definition extensions)
              (extendType types e) :=
            hextend.map_left fun _ _ hb =>
              ⟨hb.indexed, hb.fresh h.fresh, hb.types, h.definition, h.extensions⟩
          exact hperform.bind fun _ _ => ih
      | extendSchema roots =>
          have hadded : Holds { draft with extensions := draft.extensions ++ [roots] } types
              definition (extensions ++ [roots]) :=
            ⟨h.indexed, h.fresh, h.types, h.definition, by rw [h.extensions]⟩
          have hrest := ih hadded
          rw [List.append_assoc] at hrest
          exact hrest
      | schema | type | directive => exact ih h

theorem complete_mirrors {types : List SchemaType} {definition : Option RootNames}
    {extensions : List RootNames} (h : draft.Holds types definition extensions) :
    ([Step.addBuiltins, .collectImplementations, .resolveRoots].foldlM perform draft).Mirrors
      (fun draft s => draft.register.Indexed ∧ draft.Shows s)
      (do
        checkInterfaces (addBuiltins types)
        let roots ← namedRoots (addBuiltins types) definition extensions
        withRoots (addBuiltins types) roots) := by
  obtain ⟨r, hr, hbuiltins⟩ := h.indexed.addBuiltins_mirrors
  rw [h.types] at hbuiltins
  have hperform : draft.perform .addBuiltins = pure (draft.withRegister r) := by
    rw [perform, hr]
    rfl
  simp only [List.foldlM_cons, List.foldlM_nil, bind_pure, hperform, pure_bind]
  have hcollect := hbuiltins.indexed.collectImplementations_mirrors
  rw [hbuiltins.types] at hcollect
  have hcollected : ((draft.withRegister r).perform .collectImplementations).Mirrors
      (fun draft' _ => draft'.register.Indexed ∧ draft'.register.types = addBuiltins types
        ∧ (∀ s : Schema, s.types = addBuiltins types → draft'.register.rows = s.rows)
        ∧ draft'.definition = definition ∧ draft'.extensions = extensions)
      (checkInterfaces (addBuiltins types)) :=
    -- The roots are not known yet, but the rows of a schema are the same whatever they are.
    hcollect.map_left fun _ _ ⟨hindexed, htypes, hrows⟩ =>
      ⟨hindexed, htypes, fun s hs => hrows s hs (hbuiltins.fresh h.fresh), h.definition,
        h.extensions⟩
  refine hcollected.bind ?_
  rintro draft' _ ⟨hindexed, htypes, hrows, hdefinition, hextensions⟩
  have hroots := resolveRoots_mirrors hindexed
  rw [htypes, hdefinition, hextensions] at hroots
  refine hroots.mono ?_
  rintro draft'' s ⟨hregister, hs, hquery, hmutation, hsubscription⟩
  rw [hregister]
  exact ⟨hindexed, by rw [hregister, hrows s hs], hquery, hmutation, hsubscription⟩

theorem sort_mirrors {s : Schema} (h : draft.register.Indexed) (hs : draft.Shows s) (sort : Bool) :
    ((if sort then [Step.sort] else []).foldlM perform draft).Mirrors
      (fun draft s => draft.register.Indexed ∧ draft.Shows s)
      (.ok (if sort then s.sorted else s)) := by
  cases sort with
  | false => exact .pure ⟨h, hs⟩
  | true => exact .pure ⟨h.sorted, h.sorted_rows hs.rows, hs.query, hs.mutation, hs.subscription⟩

theorem after_mirrors (sort : Bool) (d : Document) :
    (after (steps sort d.definitions)).Mirrors
      (fun draft s => draft.register.Indexed ∧ draft.Shows s) (Schema.ofDocument sort d) := by
  have hmap : Schema.ofDocument sort d
      = Schema.ofDefinitions d.definitions >>= fun s => .ok (if sort then s.sorted else s) := by
    rw [Schema.ofDocument]
    cases Schema.ofDefinitions d.definitions <;> rfl
  have hstart : start.Holds [] none [] :=
    ⟨Register.indexed_empty, Register.fresh_empty, rfl, rfl, rfl⟩
  have hcollect := collect_mirrors d.definitions (c := ⟨[], none⟩) hstart
  rw [hmap, Schema.ofDefinitions, after, steps, List.foldlM_append, List.foldlM_append,
    List.foldlM_append, bind_assoc, bind_assoc, bind_assoc]
  refine hcollect.bind fun draft collected h => ?_
  rw [bind_assoc]
  refine (extend_mirrors h d.definitions).bind fun draft types h => ?_
  refine (complete_mirrors h).bind ?_
  rintro draft s ⟨hindexed, hshows⟩
  exact sort_mirrors hindexed hshows sort

/--
For every document, sorted or not, no step breaks off, and after each the index of the draft
agrees with its rows: lookups find each type and nothing else, and no extension that passes its
checks is left out. What all steps come to is the schema of the document, of which the index
finds what a search finds.
-/
theorem after_agrees (sort : Bool) (d : Document) :
    (∀ k, (after ((steps sort d.definitions).take k)).Gives (·.register.Agrees))
      ∧ (after (steps sort d.definitions)).Mirrors
          (fun draft s => draft.Shows s
            ∧ ∀ name, draft.register.get? name = some ((s.type? name).map s.row))
          (Schema.ofDocument sort d) := by
  constructor
  · intro k
    exact (after_gives ((steps sort d.definitions).take k)).mono fun _ h => h.agrees
  · refine (after_mirrors sort d).mono ?_
    rintro draft s ⟨hindexed, hshows⟩
    exact ⟨hshows, hindexed.get?_rows hshows.rows⟩

/-- A type that is extended, and that is the second as it is read and the last in order. -/
def registeredSource : Source :=
  ⟨"registered", "interface N\x7ba:Int\x7d type Z implements N\x7ba:Int\x7d
type Query\x7bz:Z\x7d extend type Z\x7bb:Int\x7d"⟩

theorem after_agrees_reordered :
    ∃ d read ordered row, Document.load [registeredSource] = .ok (some d)
      ∧ (after (steps false d.definitions)).run = some (.ok read)
      ∧ read.register.Agrees ∧ read.register.index["Z"]? = some 1
      ∧ read.register.get? "Z" = some (some row) ∧ row.type.body.fields.map (·.name) = ["a", "b"]
      ∧ (after (steps true d.definitions)).run = some (.ok ordered)
      ∧ ordered.register.Agrees ∧ ordered.register.index["Z"]? = some 7 := by
  have hbuilt : (Document.load [registeredSource]).toOption.join.any (fun d =>
      (Schema.ofDocument false d).toOption.any fun s =>
        s.types.map (·.name) == ["N", "Z", "Query", "String", "Int", "Float", "Boolean", "ID"]
          && (s.type? "Z").any fun t => t.body.fields.map (·.name) == ["a", "b"]) = true := by
    decide +kernel
  obtain ⟨d, hload, hd⟩ := Except.exists_some_of_any hbuilt
  obtain ⟨s, hs, hfacts⟩ := Except.exists_ok_of_any hd
  simp only [Bool.and_eq_true, beq_iff_eq, Option.any_eq_true] at hfacts
  obtain ⟨hnames, z, hz, hfields⟩ := hfacts
  have hsorted : Schema.ofDocument true d = .ok s.sorted := by
    obtain ⟨s', hs', rfl⟩ := Except.map_ok.1 hs
    exact Except.map_ok.2 ⟨s', hs', rfl⟩
  have hsortedNames : s.sorted.types.map (·.name)
      = ["Boolean", "Float", "ID", "Int", "N", "Query", "String", "Z"] := by
    rw [s.sorted_names, hnames]
    exact sortOn_eq (by decide) (by decide) fun _ _ _ _ h => h
  -- A draft that all steps have led to agrees, and shows the names of the schema.
  have hends : ∀ sort s', Schema.ofDocument sort d = .ok s' →
      ∃ draft, (after (steps sort d.definitions)).run = some (.ok draft)
        ∧ draft.register.Agrees ∧ draft.register.names = s'.types.map (·.name)
        ∧ ∀ name, draft.register.get? name = some ((s'.type? name).map s'.row) := by
    intro sort s' hs'
    obtain ⟨hgives, hmirrors⟩ := after_agrees sort d
    rw [hs'] at hmirrors
    obtain ⟨draft, hrun, hshows, hget⟩ := hmirrors
    obtain ⟨outcome, houtcome, hagrees⟩ := hgives (steps sort d.definitions).length
    rw [List.take_length, hrun] at houtcome
    exact ⟨draft, hrun, hagrees draft (Option.some.inj houtcome).symm, hshows.names, hget⟩
  obtain ⟨read, hread, hagrees, hreadNames, hget⟩ := hends false s hs
  obtain ⟨ordered, hordered, hagrees', horderedNames, -⟩ := hends true s.sorted hsorted
  refine ⟨d, read, ordered, s.row z, hload, hread, hagrees, ?_, ?_, hfields, hordered, hagrees', ?_⟩
  · rw [Register.indexed_iff.1 hagrees.indexed, hreadNames, hnames]
    rfl
  · rw [hget, hz]
    rfl
  · rw [Register.indexed_iff.1 hagrees'.indexed, horderedNames, hsortedNames]
    rfl

end Draft

end SchemaGraph
