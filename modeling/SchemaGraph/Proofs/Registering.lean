import SchemaGraph.Proofs.Indexing
import SchemaGraph.Proofs.Sorting
import SchemaGraph.Proofs.Trials

/-!
# Merging definitions in a register

Here types are merged in a register, and each type that is asked for is looked up by the
index: whether a type is there already, what an extension extends, what a type implements,
what a root is. A step can be refused, as it can be where types are searched for. It can also
break off, namely where the index leads behind the rows; and the merging of an extension, like
the recording of an implementing type, is left out without a word where the index has no row
for it.

Neither happens in a register whose index agrees with its rows. There each step comes out as
it does by search, and leaves a register of that kind. While types are merged, `Becomes` says
what the rows hold. The types that implement an interface are recorded one by one in the end,
which comes to what `Schema.implementors` reads off the types.
-/

namespace SchemaGraph

open Sdl

namespace Row

/-- A row with an extension added to its type. -/
def extend (row : Row) (e : TypeDef Location) : Row :=
  { row with type := row.type.extend (e.map some) }

/-- A row with an extension added to its type, if it is the one that is extended. -/
def extendNamed (e : TypeDef Location) (row : Row) : Row :=
  if row.name = e.name then row.extend e else row

/-- An interface's row with one more type that implements it, unless that is recorded. -/
def record (row : Row) (implementor : String) : Row :=
  if row.type.body.kind = .interface then
    { row with implementors := addNew row.implementors [implementor] }
  else row

/-- A row with all that it holds in order. -/
def sorted (row : Row) : Row := ⟨row.type.sorted, sortNames row.implementors⟩

end Row

namespace Register

variable (r : Register)

/-- The row of a name, by the index. -/
def look (name : String) : Trial (Option Row) := ExceptT.lift (r.get? name)

/-- As `addType`. -/
def add (d : TypeDef Location) : Trial Register := do
  if (← r.look d.name).isSome then
    throw ⟨.duplicateType d.name, some d.mark⟩
  else
    Trial.of (checkMembers d)
    return r.push ⟨d.map some, []⟩

/-- Refuses an extension that does not fit the type that it names. -/
def checkExtension (e : TypeDef Location) : Trial Unit := do
  match ← r.look e.name with
  | none => throw ⟨.extendsUndefined e.name, some e.mark⟩
  | some target =>
    if target.type.body.kind ≠ e.body.kind then
      throw ⟨.extendsOtherKind e.name target.type.body.kind e.body.kind, some e.mark⟩
    else
      Trial.of (checkMembers e)
      let known := target.type.body.members.map Prod.fst
      match e.body.members.find? (known.contains ·.1) with
      | some (member, _) => throw ⟨.duplicateMember e.name member, some e.mark⟩
      | none => return ()

/-- Adds an extension to the type that it names, if the index has a row for the name. -/
def merge? (e : TypeDef Location) : Option Register := r.modify? e.name (·.extend e)

/-- As `extendType`. Nothing is merged, without a word, if there is no row to merge into. -/
def extend (e : TypeDef Location) : Trial Register := do
  r.checkExtension e
  return (r.merge? e).getD r

/-- Adds a built-in scalar that is not there yet. -/
def addBuiltin (name : String) : Trial Register := do
  if (← r.look name).isNone then return r.push ⟨builtinScalar name, []⟩ else return r

/-- As `addBuiltins`. -/
def addBuiltins : Trial Register := builtinScalars.foldlM addBuiltin r

/--
Takes down that a type implements the interface of a name, and refuses what is no
interface. Names of no type are let pass.
-/
def note (t : SchemaType) (found : List (String × String)) (name : String) :
    Trial (List (String × String)) := do
  match ← r.look name with
  | none => return found
  | some other =>
    if other.type.body.kind = .interface then return found ++ [(name, t.name)]
    else throw ⟨.implementsOther t.name name other.type.body.kind, t.mark⟩

/-- As `checkInterfaces`: the interfaces that types implement, each with the type. -/
def implementations : Trial (List (String × String)) :=
  r.rows.foldlM (fun found row => row.type.body.interfaces.foldlM (r.note row.type) found) []

/-- Records with an interface that a type implements it, unless that is recorded already. -/
def record (r : Register) (found : String × String) : Register :=
  (r.modify? found.1 (·.record found.2)).getD r

/-- Records with all interfaces which types implement them. -/
def collectImplementations : Trial Register := do
  return (← r.implementations).foldl record r

/-- Brings the rows into the order of their names, and what they hold into order. -/
def sorted : Register := reindex { r with rows := (sortOn Row.name r.rows).map Row.sorted }

/-- As `impliedRoots`. -/
def impliedRoots : Trial RootNames := do
  let named (o : Operation) : Trial (Option String) :=
    return (← r.look o.title).map fun _ => o.title
  return ⟨← named .query, ← named .mutation, ← named .subscription⟩

/-- As `namedRoots`. -/
def namedRoots (definition : Option RootNames) (extensions : List RootNames) : Trial RootNames :=
  match definition, extensions with
  | none, [] => r.impliedRoots
  | definition, extensions => Trial.of (extensions.foldlM addRoots (definition.getD .empty))

/-- As `checkRoot`. -/
def checkRoot (o : Operation) (name : String) : Trial Unit := do
  match ← r.look name with
  | none => throw ⟨.rootUndefined o name, none⟩
  | some row =>
    if row.type.body.kind = .object then return ()
    else throw ⟨.rootNotObject o name row.type.body.kind, row.type.mark⟩

/-- As `checkRoot?`. -/
def checkRoot? (o : Operation) : Option String → Trial Unit
  | none => return ()
  | some name => r.checkRoot o name

/--
What can be relied on in a register: that its index agrees with its rows, that lookups find
what there is, and that an extension whose checks have passed is merged.
-/
structure Agrees : Prop where
  indexed : r.Indexed
  finds : r.Finds
  merges : ∀ e, (r.checkExtension e).run = some (.ok ()) →
    ∃ r', r.merge? e = some r' ∧ (r.extend e).run = some (.ok r')

end Register

/-! ## Steps come out as they do by search

A look into the index is a search through the rows (`look_eq`). With that, and with what
is known of rows that are added or changed, each step of a register is line by line the
step of the same name that searches; what is left to show is what the rows are behind it.
As long as types are merged no row has an implementing type (`Fresh`), so the rows say no
more than the types do. -/

/-- The row that a schema makes of one of its types. -/
def Schema.row (s : Schema) (t : SchemaType) : Row :=
  ⟨t, if t.body.kind = .interface then s.implementors t.name else []⟩

/-- The rows of a schema. -/
def Schema.rows (s : Schema) : List Row := s.types.map s.row

theorem Schema.map_name_rows (s : Schema) : s.rows.map Row.name = s.types.map (·.name) := by
  rw [Schema.rows, List.map_map]
  rfl

/-- Why `t` cannot implement what has this name, if it belongs to a type that is no interface. -/
def noInterface? (types : List SchemaType) (t : SchemaType) (name : String) : Option SchemaError :=
  match lookupType types name with
  | none => none
  | some other =>
    if other.body.kind = .interface then none
    else some ⟨.implementsOther t.name name other.body.kind, t.mark⟩

/-- The name of an interface, with the name of a type that implements it. -/
def implementation (types : List SchemaType) (t : SchemaType) (name : String) :
    List (String × String) :=
  match lookupType types name with
  | none => []
  | some other => if other.body.kind = .interface then [(name, t.name)] else []

/-- The interfaces that a type implements, each with the type. -/
def implementations (types : List SchemaType) (t : SchemaType) : List (String × String) :=
  t.body.interfaces.flatMap (implementation types t)

/-- What is found under the name of an interface, once each, are the types that implement it. -/
theorem implementors_found {s : Schema} (h : (s.types.map (·.name)).Nodup) {t : SchemaType}
    (ht : t ∈ s.types) (hkind : t.body.kind = .interface) :
    addNew [] (((s.types.flatMap (implementations s.types)).filter (·.1 == t.name)).map Prod.snd)
      = s.implementors t.name := by
  have hlookup : lookupType s.types t.name = some t := (lookupType_eq_some h).2 ⟨ht, rfl⟩
  have hone : ∀ u name, ((implementation s.types u name).filter (·.1 == t.name)).map Prod.snd
      = if name = t.name then [u.name] else [] := by
    intro u name
    rw [implementation]
    by_cases hname : name = t.name
    · simp [hname, hlookup, hkind]
    · cases lookupType s.types name with
      | none => simp [hname]
      | some other =>
          simp only
          split <;> simp [hname]
  have hfound : ∀ u, ((implementations s.types u).filter (·.1 == t.name)).map Prod.snd
      = (u.body.interfaces.filter (· == t.name)).map fun _ => u.name := by
    intro u
    rw [implementations]
    generalize u.body.interfaces = names
    induction names with
    | nil => rfl
    | cons name names ih =>
        rw [List.flatMap_cons, List.filter_append, List.map_append, ih, hone, List.filter_cons]
        by_cases hname : name = t.name <;> simp [hname]
  have hcontains : ∀ u : SchemaType, u.body.interfaces.contains t.name
      = !(u.body.interfaces.filter (· == t.name)).isEmpty := by
    intro u
    rw [Bool.eq_iff_iff, List.contains_iff_mem, Bool.not_eq_true', List.isEmpty_eq_false_iff,
      ne_eq, List.filter_eq_nil_iff]
    simp
  have hdistinct := eraseDups_flatMap_key h fun u : SchemaType =>
    u.body.interfaces.filter (· == t.name)
  rw [List.filter_flatMap, List.map_flatMap, Schema.implementors]
  simp only [hfound, hcontains]
  exact (distinct_eq_eraseDups _).trans hdistinct

theorem Schema.sorted_names (s : Schema) :
    s.sorted.types.map (·.name) = sortNames (s.types.map (·.name)) := by
  have hmap : sortOn id ((s.types.map TypeDef.sorted).map TypeDef.name)
      = s.sorted.types.map (·.name) := sortOn_map TypeDef.name id (fun _ => rfl) _
  rw [← hmap, List.map_map]
  rfl

namespace Row

theorem extendNamed_type (e : TypeDef Location) (row : Row) :
    (row.extendNamed e).type = SchemaGraph.extendNamed e row.type := by
  unfold extendNamed SchemaGraph.extendNamed
  exact apply_ite Row.type _ _ _

theorem extendNamed_name (e : TypeDef Location) (row : Row) :
    (row.extendNamed e).name = row.name := by
  rw [Row.name, extendNamed_type, SchemaGraph.extendNamed_name]
  rfl

/-- A row with one more type that implements its interface, if that has this name. -/
def recordNamed (found : String × String) (row : Row) : Row :=
  if row.name = found.1 then row.record found.2 else row

/-- A row with all types that implement its interface. -/
def recordAll (found : List (String × String)) (row : Row) : Row :=
  found.foldl (fun row pair => row.recordNamed pair) row

theorem record_type (implementor : String) (row : Row) :
    (row.record implementor).type = row.type := by
  unfold record
  split <;> rfl

theorem recordNamed_type (found : String × String) (row : Row) :
    (row.recordNamed found).type = row.type := by
  unfold recordNamed
  split
  · exact record_type _ _
  · rfl

theorem recordNamed_name (found : String × String) (row : Row) :
    (row.recordNamed found).name = row.name := congrArg TypeDef.name (recordNamed_type found row)

theorem recordAll_type (found : List (String × String)) (row : Row) :
    (row.recordAll found).type = row.type := by
  induction found generalizing row with
  | nil => rfl
  | cons pair found ih => exact (ih (row.recordNamed pair)).trans (recordNamed_type pair row)

theorem recordAll_name (found : List (String × String)) (row : Row) :
    (row.recordAll found).name = row.name := congrArg TypeDef.name (recordAll_type found row)

/-- What is recorded in the row of an interface: all that is found under its name, once each. -/
theorem recordAll_eq (found : List (String × String)) (row : Row) :
    row.recordAll found = if row.type.body.kind = .interface then
        ⟨row.type, addNew row.implementors ((found.filter (·.1 == row.name)).map Prod.snd)⟩
      else row := by
  induction found generalizing row with
  | nil => simp [recordAll, addNew]
  | cons pair found ih =>
      have hcons : row.recordAll (pair :: found) = (row.recordNamed pair).recordAll found := rfl
      rw [hcons, ih, recordNamed_type, recordNamed_name, recordNamed, record]
      by_cases hname : row.name = pair.1
      · rw [if_pos hname, List.filter_cons_of_pos (by simp [hname])]
        split <;> rfl
      · rw [if_neg hname, List.filter_cons_of_neg (by simpa using Ne.symm hname)]

theorem extendNamed_implementors (e : TypeDef Location) (row : Row) :
    (row.extendNamed e).implementors = row.implementors := by
  unfold extendNamed
  split <;> rfl

end Row

namespace Register

/-- Whether no implementing types have been recorded yet. -/
def Fresh (r : Register) : Prop := ∀ row ∈ r.rows, row.implementors = []

/-- Whether a register has become one of these types, in which lookups can be trusted. -/
structure Becomes (r r' : Register) (types : List SchemaType) : Prop where
  indexed : r'.Indexed
  types : r'.types = types
  fresh : r.Fresh → r'.Fresh

variable {r : Register}

theorem lookupType_types (name : String) :
    lookupType r.types name = (r.rows.find? (·.name == name)).map Row.type := by
  rw [lookupType, types, List.find?_map]
  rfl

theorem map_name_types : r.types.map (·.name) = r.names := by
  rw [types, names, List.map_map]
  rfl

theorem types_map {f : Row → Row} {g : SchemaType → SchemaType}
    (htype : ∀ row, (f row).type = g row.type) :
    types { r with rows := r.rows.map f } = r.types.map g := by
  rw [types, types, List.map_map, List.map_map]
  exact List.map_congr_left fun row _ => htype row

theorem Becomes.trans {r' r'' : Register} {types types' : List SchemaType}
    (h : r.Becomes r' types) (h' : r'.Becomes r'' types') : r.Becomes r'' types' :=
  ⟨h'.indexed, h'.types, fun hfresh => h'.fresh (h.fresh hfresh)⟩

theorem fresh_empty : empty.Fresh := fun _ hrow => nomatch hrow

theorem Fresh.push (h : r.Fresh) (t : SchemaType) : (r.push ⟨t, []⟩).Fresh := by
  intro row hrow
  rcases List.mem_append.1 hrow with hrow | hrow
  · exact h row hrow
  · rw [List.mem_singleton.1 hrow]

theorem types_push (row : Row) : (r.push row).types = r.types ++ [row.type] := List.map_append

namespace Indexed

variable (h : r.Indexed)

include h

theorem look_eq (name : String) : r.look name = pure (r.rows.find? (·.name == name)) := by
  rw [look, h.get?_eq]
  rfl

/-- If a register holds the rows of a schema, a look into its index finds the schema's types. -/
theorem get?_rows {s : Schema} (hrows : r.rows = s.rows) (name : String) :
    r.get? name = some ((s.type? name).map s.row) := by
  rw [h.get?_eq, hrows, Schema.rows, List.find?_map]
  rfl

theorem becomes_push {t : SchemaType} (hnew : t.name ∉ r.names) :
    r.Becomes (r.push ⟨t, []⟩) (r.types ++ [t]) :=
  ⟨h.push hnew, types_push _, fun hfresh => hfresh.push t⟩

theorem add_mirrors (d : TypeDef Location) :
    (r.add d).Mirrors r.Becomes (addType r.types d) := by
  rw [add, addType, h.look_eq, pure_bind, lookupType_types, Option.isSome_map]
  cases hfound : r.rows.find? (·.name == d.name) with
  | some row => exact .throw _
  | none =>
      cases checkMembers d with
      | error e => exact .throw e
      | ok => exact .pure (h.becomes_push (not_mem_names_of_find? hfound))

/-- Where the checks of an extension pass, there is a row of its name. -/
theorem checkExtension_mirrors (e : TypeDef Location) :
    (r.checkExtension e).Mirrors
      (fun _ types => types = r.types.map (extendNamed e) ∧ e.name ∈ r.names)
      (extendType r.types e) := by
  rw [checkExtension, extendType, h.look_eq, pure_bind, lookupType_types]
  cases hfound : r.rows.find? (·.name == e.name) with
  | none => exact .throw _
  | some target =>
      simp only [Option.map_some]
      split
      · exact .throw _
      · cases checkMembers e with
        | error e => exact .throw e
        | ok =>
            dsimp only
            rw [Trial.of_ok_bind]
            cases e.body.members.find? ((target.type.body.members.map Prod.fst).contains ·.1) with
            | some member => exact .throw _
            | none => exact .pure ⟨rfl, mem_names_of_find? hfound⟩

theorem merge?_eq {e : TypeDef Location} (hname : e.name ∈ r.names) :
    r.merge? e = some { r with rows := r.rows.map (Row.extendNamed e) } := h.modify?_eq hname _

/-- An extension whose checks have passed is merged. -/
theorem merges {e : TypeDef Location} (hchecked : (r.checkExtension e).run = some (.ok ())) :
    ∃ r', r.merge? e = some r' ∧ (r.extend e).run = some (.ok r') := by
  have hcheck : r.checkExtension e = Trial.of (.ok ()) := hchecked
  have hmirrors := h.checkExtension_mirrors e
  cases hextend : extendType r.types e with
  | error error =>
      rw [hextend, hcheck] at hmirrors
      cases hmirrors
  | ok types =>
      rw [hextend] at hmirrors
      obtain ⟨-, -, -, hname⟩ := hmirrors
      refine ⟨_, h.merge?_eq hname, ?_⟩
      rw [extend, hcheck, Trial.of_ok_bind, h.merge?_eq hname]
      rfl

theorem agrees : r.Agrees where
  indexed := h
  finds := h.finds
  merges _ := h.merges

theorem extend_mirrors (e : TypeDef Location) :
    (r.extend e).Mirrors r.Becomes (extendType r.types e) := by
  rw [extend, bind_pure_comp]
  refine (h.checkExtension_mirrors e).map_left fun _ types ⟨htypes, hname⟩ => ?_
  rw [h.merge?_eq hname, Option.getD_some]
  refine ⟨h.map (Row.extendNamed_name e), htypes ▸ types_map (Row.extendNamed_type e), ?_⟩
  intro hfresh row' hrow'
  obtain ⟨row, hrow, rfl⟩ := List.mem_map.1 hrow'
  exact (Row.extendNamed_implementors e row).trans (hfresh row hrow)

theorem foldlM_addBuiltin {scalars : List String} (hscalars : scalars.Nodup) :
    (scalars.foldlM addBuiltin r).Mirrors r.Becomes
      (.ok (r.types ++ (scalars.filter (· ∉ r.names)).map builtinScalar)) := by
  induction scalars generalizing r with
  | nil => exact .pure ⟨h, by simp, id⟩
  | cons name scalars ih =>
      rw [List.nodup_cons] at hscalars
      rw [List.foldlM_cons, addBuiltin, h.look_eq, pure_bind]
      cases hfound : r.rows.find? (·.name == name) with
      | some row =>
          have hname := mem_names_of_find? hfound
          rw [List.filter_cons_of_neg (by simpa using hname)]
          exact ih h hscalars.2
      | none =>
          have hnew := not_mem_names_of_find? hfound
          have hpush := h.becomes_push (t := builtinScalar name) hnew
          -- No scalar behind `name` has that name, so the ones that are new stay new.
          have hrest : scalars.filter (· ∉ (r.push ⟨builtinScalar name, []⟩).names)
              = scalars.filter (· ∉ r.names) := by
            refine List.filter_congr fun other hother => ?_
            have hne : other ≠ name := fun heq => hscalars.1 (heq ▸ hother)
            simp [names_push, Row.name, builtinScalar, hne]
          have hmirrors := ih hpush.indexed hscalars.2
          rw [hrest, hpush.types, List.append_assoc] at hmirrors
          rw [List.filter_cons_of_pos (by simpa using hnew)]
          exact hmirrors.mono fun _ _ => hpush.trans

theorem addBuiltins_mirrors :
    r.addBuiltins.Mirrors r.Becomes (.ok (SchemaGraph.addBuiltins r.types)) := by
  rw [addBuiltins_eq, map_name_types]
  exact h.foldlM_addBuiltin (by decide)

/-! ## Implementing types

A schema looks for the types that implement an interface, while a register takes down all
pairs of an interface and such a type, and then records them one by one. Going through the
pairs comes to taking, for each row, those of its own name (`foldl_record`). The rows are
those of the schema after that for two reasons: nothing had been recorded before, and as
no two types have one name, no pair belongs to two rows. -/

theorem note_eq (t : SchemaType) (found : List (String × String)) (name : String) :
    r.note t found name = match noInterface? r.types t name with
      | some e => throw e
      | none => pure (found ++ implementation r.types t name) := by
  rw [note, h.look_eq, pure_bind, noInterface?, implementation, lookupType_types]
  cases r.rows.find? (·.name == name) with
  | none => simp
  | some row =>
      simp only [Option.map_some]
      split <;> simp [*]

theorem implementations_eq :
    r.implementations = match r.types.findSome? (implementsOther? r.types) with
      | some e => throw e
      | none => pure (r.types.flatMap (SchemaGraph.implementations r.types)) := by
  have hrow := fun found (row : Row) =>
    Trial.foldlM_gather (h.note_eq row.type) row.type.body.interfaces found
  rw [Register.implementations, Trial.foldlM_gather hrow, types, List.findSome?_map,
    List.flatMap_map]
  rfl

theorem record_eq (found : String × String) :
    r.record found = { r with rows := r.rows.map (Row.recordNamed found) } := by
  by_cases hname : found.1 ∈ r.names
  · rw [record, h.modify?_eq hname, Option.getD_some]
    rfl
  · have hrows : r.rows.map (Row.recordNamed found) = r.rows := by
      refine (List.map_congr_left fun row hrow => ?_).trans (List.map_id _)
      exact if_neg (not_mem_names.1 hname row hrow)
    rw [record, h.modify?_eq_none hname, Option.getD_none, hrows]

/-- Recording implementing types goes through the rows, and takes for each what is of its name. -/
theorem foldl_record (found : List (String × String)) :
    found.foldl record r = { r with rows := r.rows.map (Row.recordAll found) } := by
  induction found generalizing r with
  | nil => exact congrArg (Register.mk · r.index) (List.map_id _).symm
  | cons pair found ih =>
      rw [List.foldl_cons, h.record_eq, ih (h.map (Row.recordNamed_name pair)), List.map_map]
      rfl

/-- Where nothing was recorded before, recording leaves the rows of a schema. -/
theorem map_recordAll (hfresh : r.Fresh) {s : Schema} (hs : s.types = r.types) :
    r.rows.map (Row.recordAll (r.types.flatMap (SchemaGraph.implementations r.types)))
      = s.rows := by
  have hnames : (s.types.map (·.name)).Nodup := by
    rw [hs, map_name_types]
    exact h.distinct
  rw [Schema.rows, hs, Register.types, List.map_map]
  refine List.map_congr_left fun row hrow => ?_
  have hmem : row.type ∈ s.types := hs ▸ List.mem_map_of_mem hrow
  rw [Row.recordAll_eq, hfresh row hrow, Function.comp, Schema.row]
  split
  · next hkind =>
      rw [← implementors_found hnames hmem hkind, hs]
      rfl
  · rw [← hfresh row hrow]

theorem collectImplementations_mirrors :
    r.collectImplementations.Mirrors
      (fun r' _ => r'.Indexed ∧ r'.types = r.types
        ∧ ∀ s : Schema, s.types = r.types → r.Fresh → r'.rows = s.rows)
      (checkInterfaces r.types) := by
  rw [collectImplementations, h.implementations_eq, checkInterfaces]
  cases r.types.findSome? (implementsOther? r.types) with
  | some e => exact .throw e
  | none =>
      rw [pure_bind, h.foldl_record]
      refine .pure ⟨h.map (Row.recordAll_name _), ?_, fun _ hs hfresh => h.map_recordAll hfresh hs⟩
      exact (types_map (Row.recordAll_type _)).trans (List.map_id _)

theorem sorted : r.sorted.Indexed := by
  have hnames : ((sortOn Row.name r.rows).map Row.sorted).map Row.name
      = (sortOn Row.name r.rows).map Row.name := by
    rw [List.map_map]
    rfl
  refine indexed_reindex ?_
  rw [names, hnames]
  exact ((sortOn_perm Row.name r.rows).map Row.name).nodup_iff.2 h.distinct

theorem sorted_rows {s : Schema} (hrows : r.rows = s.rows) : r.sorted.rows = s.sorted.rows := by
  have hnames : (s.types.map (·.name)).Nodup := by
    rw [← s.map_name_rows, ← hrows]
    exact h.distinct
  have hsorted : ∀ t, Row.sorted (s.row t) = s.sorted.row t.sorted := by
    intro t
    have hkind : t.sorted.body.kind = t.body.kind := TypeBody.kind_sorted t.body
    have hname : t.sorted.name = t.name := rfl
    have hnil : sortNames [] = [] := List.mergeSort_nil
    rw [Row.sorted, Schema.row, Schema.row, hkind, hname, Schema.implementors_sorted hnames,
      apply_ite sortNames, hnil]
  calc r.sorted.rows
      = (sortOn Row.name (s.types.map s.row)).map Row.sorted := by
        rw [← Schema.rows, ← hrows]
        rfl
    _ = sortOn Row.name ((s.types.map TypeDef.sorted).map s.sorted.row) :=
        map_sortOn_map Row.name Row.name (g := Row.sorted) (fun _ => rfl) hsorted s.types
    _ = s.sorted.rows := sortOn_map (·.name) Row.name (fun _ => rfl) (s.types.map TypeDef.sorted)

theorem impliedRoots_eq : r.impliedRoots = pure (SchemaGraph.impliedRoots r.types) := by
  have hnamed : ∀ name, (lookupType r.types name).map (·.name)
      = (r.rows.find? (·.name == name)).map fun _ => name := by
    intro name
    rw [lookupType_types, Option.map_map]
    cases hfound : r.rows.find? (·.name == name) with
    | none => rfl
    | some row => exact congrArg some ((find?_row h).1 hfound).2
  simp only [impliedRoots, SchemaGraph.impliedRoots, h.look_eq, pure_bind, hnamed]

theorem namedRoots_mirrors (definition : Option RootNames) (extensions : List RootNames) :
    (r.namedRoots definition extensions).Mirrors Eq
      (SchemaGraph.namedRoots r.types definition extensions) := by
  match definition, extensions with
  | none, [] =>
      rw [namedRoots, h.impliedRoots_eq]
      exact .pure rfl
  | some _, _ | none, _ :: _ => exact .of _

theorem checkRoot_mirrors (o : Operation) (name : String) :
    (r.checkRoot o name).Mirrors Eq (SchemaGraph.checkRoot r.types o name) := by
  rw [checkRoot, SchemaGraph.checkRoot, h.look_eq, pure_bind, lookupType_types]
  cases r.rows.find? (·.name == name) with
  | none => exact .throw _
  | some row =>
      simp only [Option.map_some]
      split
      · exact .pure rfl
      · exact .throw _

theorem checkRoot?_mirrors (o : Operation) (name : Option String) :
    (r.checkRoot? o name).Mirrors Eq (SchemaGraph.checkRoot? r.types o name) := by
  cases name with
  | none => exact .pure rfl
  | some name => exact h.checkRoot_mirrors o name

end Indexed

end Register

end SchemaGraph
