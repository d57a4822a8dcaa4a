import SchemaGraph.Proofs.Changing
import SchemaGraph.Proofs.Fitting
import SchemaGraph.Proofs.Linking

/-!
# Schemas do not depend on locations

Every definition carries the location at which it stands, and a schema keeps these
locations; but nothing is decided by them. If all locations are changed in the same way
before a schema is made, the schema is the same but for that change. And if there was
none to be made, there is still none for the same reason: the error has the same fault,
and its location is changed as all others are. The directives in a definition are kept in
the same way, and are not looked at either.

This says more than that what is refused stays refused, so the predicates that tell when
definitions are accepted do not help here: of several faults it has to be the same one
that is reported. The steps are therefore gone through one by one, each with all that
may come of it.
-/

namespace SchemaGraph

open Sdl

section

variable {ε ε' α α' β β' σ σ' : Type}

/-- An outcome with its failure or its result changed. -/
def bimap (e : ε → ε') (g : α → α') : Except ε α → Except ε' α'
  | .error x => .error (e x)
  | .ok a => .ok (g a)

variable {e : ε → ε'} {g : α → α'} {h : β → β'}

theorem bind_bimap {k : α → Except ε β} {k' : α' → Except ε' β'}
    (hk : ∀ a, k' (g a) = bimap e h (k a)) (x : Except ε α) :
    bimap e g x >>= k' = bimap e h (x >>= k) := by
  cases x with
  | error _ => rfl
  | ok a => exact hk a

theorem map_bimap {k : α → β} {k' : α' → β'} (hk : ∀ a, k' (g a) = h (k a)) (x : Except ε α) :
    (bimap e g x).map k' = bimap e h (x.map k) := by
  cases x with
  | error _ => rfl
  | ok a => exact congrArg Except.ok (hk a)

theorem foldlM_bimap {step : σ → α → Except ε σ} {step' : σ' → α' → Except ε' σ'}
    {k : σ → σ'} (hstep : ∀ s a, step' (k s) (g a) = bimap e k (step s a)) (as : List α) (s : σ) :
    (as.map g).foldlM step' (k s) = bimap e k (as.foldlM step s) := by
  induction as generalizing s with
  | nil => rfl
  | cons a as ih =>
      rw [List.map_cons, List.foldlM_cons, List.foldlM_cons, hstep]
      exact bind_bimap ih (step s a)

end

namespace Sdl

section

variable {μ ν : Type} (c : Change μ ν)

theorem TypeBody.inputFields_alter (b : TypeBody μ) :
    (b.alter c).inputFields = b.inputFields.map (·.alter c) := by
  cases b <;> rfl

theorem TypeBody.values_alter (b : TypeBody μ) :
    (b.alter c).values = b.values.map (·.alter c) := by
  cases b <;> rfl

theorem TypeBody.unionMembers_alter (b : TypeBody μ) :
    (b.alter c).unionMembers = b.unionMembers := by
  cases b <;> rfl

theorem TypeBody.alter_merge (b b' : TypeBody μ) :
    (b.merge b').alter c = (b.alter c).merge (b'.alter c) := by
  cases b <;> cases b' <;> simp [TypeBody.merge, TypeBody.alter]

theorem TypeDef.alter_extend (d e : TypeDef μ) :
    (d.extend e).alter c = (d.alter c).extend (e.alter c) := by
  simp [TypeDef.extend, TypeDef.alter, TypeBody.alter_merge]

end

end Sdl

/-- Definitions with all locations changed. -/
def relocated (f : Location → Location) (ds : List (Definition Location)) :
    List (Definition Location) := ds.map (·.map f)

/-- An error with its location changed. -/
def SchemaError.relocate (f : Location → Location) (e : SchemaError) : SchemaError :=
  ⟨e.fault, e.location.map f⟩

section

variable (c : Change Location Location)

/-- The change of what may have no location. -/
def Change.optional : Change (Option Location) (Option Location) :=
  ⟨Option.map c.mark, c.directives⟩

/-- Definitions, changed. -/
abbrev altered (ds : List (Definition Location)) : List (Definition Location) :=
  ds.map (·.alter c)

/-- Types of a schema, changed. -/
abbrev alteredTypes (types : List SchemaType) : List SchemaType := types.map (·.alter c.optional)

/-- A schema with its types changed. -/
def Schema.alter (s : Schema) : Schema := { s with types := alteredTypes c s.types }

/-- A type is changed before it is known whether it has a location, or after that. -/
theorem Sdl.TypeDef.alter_some (d : TypeDef Location) :
    (d.alter c).map some = (d.map some).alter c.optional := by
  rw [← alter_mark, ← alter_mark, alter_alter, alter_alter]
  rfl

end

variable {c : Change Location Location}

section

variable {μ ν : Type}

theorem firstDuplicate_map {α β γ : Type} [BEq α] (g : β → γ) (seen : List α)
    (entries : List (α × β)) :
    firstDuplicate seen (entries.map (Prod.map id g))
      = (firstDuplicate seen entries).map (Prod.map id g) := by
  induction entries generalizing seen with
  | nil => rfl
  | cons entry entries ih =>
      rw [List.map_cons, firstDuplicate, firstDuplicate, Prod.map_fst, id_eq, ih]
      split <;> rfl

theorem duplicateArgument_alter (c : Change μ ν) (fields : List (FieldDef μ)) :
    duplicateArgument (fields.map (·.alter c))
      = (duplicateArgument fields).map (Prod.map id (Prod.map id c.mark)) := by
  have hfield : ∀ d : FieldDef μ,
      (firstDuplicate [] ((d.alter c).arguments.map fun a => (a.name, a.mark))).map
          (fun found => (d.name, found))
        = ((firstDuplicate [] (d.arguments.map fun a => (a.name, a.mark))).map
            fun found => (d.name, found)).map (Prod.map id (Prod.map id c.mark)) := by
    intro d
    have harguments := firstDuplicate_map c.mark [] (d.arguments.map fun a => (a.name, a.mark))
    rw [List.map_map] at harguments
    rw [FieldDef.alter, List.map_map, Option.map_map]
    refine (congrArg (Option.map _) harguments).trans ?_
    rw [Option.map_map]
    rfl
  rw [duplicateArgument, List.findSome?_map, duplicateArgument, List.map_findSome?]
  exact congrArg (List.findSome? · fields) (funext hfield)

end

theorem checkMembers_alter (d : TypeDef Location) :
    checkMembers (d.alter c) = bimap (·.relocate c.mark) id (checkMembers d) := by
  rw [checkMembers, TypeDef.body_alter, TypeBody.members_alter, firstDuplicate_map,
    TypeBody.fields_alter, duplicateArgument_alter, checkMembers]
  cases firstDuplicate [] d.body.members with
  | some _ => rfl
  | none => cases duplicateArgument d.body.fields <;> rfl

section

variable (types : List SchemaType)

theorem lookupType_alter (name : String) :
    lookupType (alteredTypes c types) name
      = (lookupType types name).map (·.alter c.optional) := List.find?_map

theorem addType_alter (d : TypeDef Location) :
    addType (alteredTypes c types) (d.alter c)
      = bimap (·.relocate c.mark) (alteredTypes c) (addType types d) := by
  rw [addType, addType, lookupType_alter, Option.isSome_map, checkMembers_alter,
    TypeDef.name_alter, apply_ite (bimap _ _)]
  split
  · rfl
  · cases checkMembers d with
    | error _ => rfl
    | ok _ => simp [bimap, TypeDef.alter_some]

/-- What has been collected, changed. -/
def Collected.alter (c : Change Location Location) (collected : Collected) : Collected :=
  { collected with types := alteredTypes c collected.types }

theorem Collected.add_alter (collected : Collected) (d : Definition Location) :
    (collected.alter c).add (d.alter c)
      = bimap (·.relocate c.mark) (·.alter c) (collected.add d) := by
  cases d with
  | type d =>
      have hadd := addType_alter (c := c) collected.types d
      refine (congrArg (Except.map fun types => { collected with types := types }) hadd).trans ?_
      refine map_bimap (fun types => ?_) (addType collected.types d)
      rfl
  | schema roots =>
      rw [Definition.alter, add, add, apply_ite (bimap _ _)]
      rfl
  | extendSchema | extendType | directive => rfl

theorem collect_alter (ds : List (Definition Location)) :
    collect (altered c ds) = bimap (·.relocate c.mark) (·.alter c) (collect ds) :=
  foldlM_bimap Collected.add_alter ds ⟨[], none⟩

theorem extendNamed_alter (e : TypeDef Location) (t : SchemaType) :
    extendNamed (e.alter c) (t.alter c.optional) = (extendNamed e t).alter c.optional := by
  rw [extendNamed, TypeDef.name_alter, TypeDef.name_alter, TypeDef.alter_some, extendNamed,
    apply_ite (TypeDef.alter _), TypeDef.alter_extend]

theorem extendType_alter (e : TypeDef Location) :
    extendType (alteredTypes c types) (e.alter c)
      = bimap (·.relocate c.mark) (alteredTypes c) (extendType types e) := by
  rw [extendType, extendType, lookupType_alter, checkMembers_alter, TypeDef.name_alter,
    TypeDef.body_alter, TypeBody.members_alter, TypeDef.mark_alter]
  cases lookupType types e.name with
  | none => rfl
  | some target =>
      have hknown : (target.body.alter c.optional).members.map Prod.fst
          = target.body.members.map Prod.fst := by
        rw [TypeBody.members_alter, List.map_map]
        rfl
      simp only [Option.map_some, TypeDef.body_alter, TypeBody.kind_alter, hknown]
      rw [apply_ite (bimap _ _)]
      split
      · rfl
      cases checkMembers e with
      | error _ => rfl
      | ok _ =>
          simp only [bimap, List.find?_map, Function.comp_def, Prod.map_fst, id_eq]
          cases e.body.members.find? fun m => (target.body.members.map Prod.fst).contains m.1 with
          | some _ => rfl
          | none =>
              refine congrArg Except.ok ?_
              rw [List.map_map, alteredTypes, List.map_map]
              exact List.map_congr_left fun t _ => extendNamed_alter e t

theorem extensions_altered (ds : List (Definition Location)) :
    (altered c ds).filterMap Definition.extension?
      = (ds.filterMap Definition.extension?).map (·.alter c) := by
  rw [altered, List.filterMap_map, List.map_filterMap]
  refine List.filterMap_congr fun d _ => ?_
  cases d <;> rfl

theorem extendAll_alter (ds : List (Definition Location)) :
    extendAll (alteredTypes c types) (altered c ds)
      = bimap (·.relocate c.mark) (alteredTypes c) (extendAll types ds) := by
  rw [extendAll, extensions_altered]
  exact foldlM_bimap extendType_alter _ types

theorem addBuiltins_alter :
    addBuiltins (alteredTypes c types) = alteredTypes c (addBuiltins types) := by
  have hbuiltin : ∀ name, (builtinScalar name).alter c.optional = builtinScalar name :=
    fun _ => rfl
  simp [addBuiltins, lookupType_alter, Function.comp_def, hbuiltin]

theorem implementsOther?_alter (t : SchemaType) :
    implementsOther? (alteredTypes c types) (t.alter c.optional)
      = (implementsOther? types t).map (·.relocate c.mark) := by
  rw [implementsOther?, TypeDef.body_alter, TypeBody.interfaces_alter, implementsOther?,
    List.map_findSome?]
  refine congrArg (List.findSome? · t.body.interfaces) (funext fun name => ?_)
  rw [lookupType_alter, Function.comp_apply]
  cases lookupType types name with
  | none => rfl
  | some other =>
      simp only [Option.map_some, TypeDef.body_alter, TypeBody.kind_alter]
      split <;> rfl

theorem checkInterfaces_alter :
    checkInterfaces (alteredTypes c types)
      = bimap (·.relocate c.mark) id (checkInterfaces types) := by
  have hfind : (alteredTypes c types).findSome? (implementsOther? (alteredTypes c types))
      = (types.findSome? (implementsOther? types)).map (·.relocate c.mark) := by
    rw [List.findSome?_map, List.map_findSome?]
    exact congrArg (List.findSome? · types) (funext fun t => implementsOther?_alter types t)
  rw [checkInterfaces, hfind, checkInterfaces]
  cases types.findSome? (implementsOther? types) <;> rfl

end

section

variable {f : Location → Location} (types : List SchemaType)

/-- Roots are named without a location, and so are the faults in naming them. -/
theorem addRoot_relocate (added roots : RootNames) (o : Operation) :
    addRoot added roots o = bimap (·.relocate f) id (addRoot added roots o) := by
  rw [addRoot]
  cases added.get o with
  | none => rfl
  | some type =>
      simp only
      split <;> rfl

theorem addRoots_relocate (roots added : RootNames) :
    addRoots roots added = bimap (·.relocate f) id (addRoots roots added) := by
  have h := foldlM_bimap (g := id) (addRoot_relocate (f := f) added) Operation.all roots
  rwa [List.map_id] at h

theorem namedRoots_alter (definition : Option RootNames) (extensions : List RootNames) :
    namedRoots (alteredTypes c types) definition extensions
      = bimap (·.relocate c.mark) id (namedRoots types definition extensions) := by
  have himplied : impliedRoots (alteredTypes c types) = impliedRoots types := by
    simp [impliedRoots, lookupType_alter, Function.comp_def]
  have hfold : ∀ (extensions : List RootNames) (roots : RootNames),
      extensions.foldlM addRoots roots
        = bimap (·.relocate c.mark) id (extensions.foldlM addRoots roots) := by
    intro extensions roots
    have h := foldlM_bimap (g := id) (addRoots_relocate (f := c.mark)) extensions roots
    rwa [List.map_id] at h
  cases definition with
  | some definition => exact hfold extensions definition
  | none =>
      cases extensions with
      | nil => exact congrArg Except.ok himplied
      | cons added extensions => exact hfold (added :: extensions) .empty

theorem checkRoot_alter (o : Operation) (name : String) :
    checkRoot (alteredTypes c types) o name
      = bimap (·.relocate c.mark) id (checkRoot types o name) := by
  rw [checkRoot, lookupType_alter, checkRoot]
  cases lookupType types name with
  | none => rfl
  | some t =>
      simp only [Option.map_some, TypeDef.body_alter, TypeBody.kind_alter]
      split <;> rfl

theorem checkRoot?_alter (o : Operation) (name? : Option String) :
    checkRoot? (alteredTypes c types) o name?
      = bimap (·.relocate c.mark) id (checkRoot? types o name?) := by
  cases name? with
  | none => rfl
  | some name => exact checkRoot_alter types o name

theorem withRoots_alter (roots : RootNames) :
    withRoots (alteredTypes c types) roots
      = bimap (·.relocate c.mark) (·.alter c) (withRoots types roots) := by
  rw [withRoots, withRoots]
  cases roots.query with
  | none => rfl
  | some query =>
      simp only [checkRoot_alter, checkRoot?_alter]
      refine bind_bimap (fun _ => ?_) _
      refine bind_bimap (fun _ => ?_) _
      refine bind_bimap (fun _ => ?_) _
      rfl

end

theorem addedRoots_altered (ds : List (Definition Location)) :
    (altered c ds).filterMap Definition.addedRoots? = ds.filterMap Definition.addedRoots? := by
  rw [altered, List.filterMap_map]
  refine List.filterMap_congr fun d _ => ?_
  cases d <;> rfl

/-- What comes of changed definitions is what comes of the definitions, changed. -/
theorem Schema.ofDefinitions_alter (ds : List (Definition Location)) :
    ofDefinitions (altered c ds)
      = bimap (·.relocate c.mark) (·.alter c) (ofDefinitions ds) := by
  rw [ofDefinitions, collect_alter, addedRoots_altered, ofDefinitions]
  refine bind_bimap (fun collected => ?_) _
  rw [show (collected.alter c).types = alteredTypes c collected.types from rfl, extendAll_alter]
  refine bind_bimap (fun types => ?_) _
  simp only [addBuiltins_alter, checkInterfaces_alter, namedRoots_alter, withRoots_alter]
  refine bind_bimap (fun _ => ?_) _
  refine bind_bimap (fun _ => ?_) _
  rfl

end SchemaGraph
