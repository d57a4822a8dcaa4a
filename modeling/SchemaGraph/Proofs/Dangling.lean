import SchemaGraph.Proofs.Linking

/-!
# Which reference is reported

Linking gathers all references of a catalog in one list and takes the first that
leads nowhere. That is what a pass over the catalog reports that builds the graph
as it goes and stops at the first name it cannot resolve: `linkEach` is that pass.

A list of references does not say where they stand. `Slot` does, by position: the
type, the part of it, and the place in that part. Slots have an order of their own,
that of their paths, and the list of references turns out to be in this order. So
the reference that is reported is the one of the first slot that dangles.

What is linked says the same as the catalog, with identifiers for names. `LinksTo`
says that part by part.
-/

namespace SchemaGraph

open Sdl

namespace Catalog

/-! ## Linking as a pass

Each function of the pass resolves some names and stops at the first that leads nowhere,
whatever it was about to build. This comes to checking a list of references first, and
then having the result for nothing (`checked`). As what is checked first is reported
first, one check after another is a check of one list after the other (`checked_bind`),
and from the arguments outwards the functions turn into the lists that linking gathers. -/

/-- The identifier of the type that a reference names. -/
def resolve (c : Catalog) (r : Reference) : Except Reference TypeId :=
  if c.declares r.name then .ok ⟨r.name⟩ else .error r

/-- The argument or input field with its type resolved. -/
def Input.resolve (c : Catalog) (id : String) (i : Input) : Except Reference Graph.Input := do
  let type ← c.resolve (i.reference id)
  return ⟨i.name, i.description, type, i.wrappers, i.default, i.deprecation, i.location⟩

/-- The field with its own type resolved, and then its arguments. -/
def Field.resolve (c : Catalog) (type : String) (f : Field) : Except Reference Graph.Field := do
  let target ← c.resolve ⟨f.type, Id.field type f.name, f.location⟩
  let arguments ← f.arguments.mapM fun a => a.resolve c (Id.argument type f.name a.name)
  return ⟨f.name, f.description, target, f.wrappers, f.deprecation, arguments, none, [],
    f.location⟩

/-- The type with its fields, its input fields and its relations resolved, in this order. -/
def Entry.resolve (c : Catalog) (e : Entry) : Except Reference Graph.Node := do
  let relations (names : List String) (id : String → String → String) :=
    names.mapM fun t => c.resolve ⟨t, id e.name t, e.location⟩
  let fields ← e.fields.mapM (Field.resolve c e.name)
  let inputFields ← e.inputFields.mapM fun i => i.resolve c (Id.field e.name i.name)
  let interfaces ← relations e.interfaces Id.interface
  let derivedTypes ← relations e.derivedTypes Id.derivedType
  let possibleTypes ← relations e.possibleTypes Id.possibleType
  return ⟨e.name, e.kind, e.description, e.location, false, fields, interfaces, derivedTypes,
    possibleTypes, e.enumValues, inputFields⟩

/-- Something that can be had if these references all lead to types. -/
def checked {α : Type} (c : Catalog) (rs : List Reference) (a : α) : Except Reference α :=
  match rs.find? fun r => !c.declares r.name with
  | some r => .error r
  | none => .ok a

section

variable {α β : Type} {c : Catalog}

theorem checked_nil (a : α) : c.checked [] a = .ok a := rfl

theorem checked_cons (r : Reference) (rs : List Reference) (a : α) :
    c.checked (r :: rs) a = if c.declares r.name then c.checked rs a else .error r := by
  unfold checked
  rw [List.find?_cons]
  cases c.declares r.name <;> rfl

/-- What is checked first is reported first. -/
theorem checked_bind {f : α → Except Reference β} {rs rs' : List Reference} {a : α} {b : β}
    (h : f a = c.checked rs' b) : (c.checked rs a >>= f) = c.checked (rs ++ rs') b := by
  induction rs with
  | nil => exact h
  | cons r rs ih =>
      rw [List.cons_append, checked_cons, checked_cons]
      split
      · exact ih
      · rfl

theorem checked_map {f : α → Except Reference β} {rs : List Reference} {a : α} {b : β}
    (h : f a = .ok b) : (c.checked rs a >>= f) = c.checked rs b := by
  rw [checked_bind (h.trans (checked_nil b).symm), List.append_nil]

theorem resolve_eq (r : Reference) : c.resolve r = c.checked [r] ⟨r.name⟩ :=
  (checked_cons r [] _).symm

theorem mapM_checked {f : α → Except Reference β} {rs : α → List Reference} {g : α → β}
    (h : ∀ x, f x = c.checked (rs x) (g x)) (xs : List α) :
    xs.mapM f = c.checked (xs.flatMap rs) (xs.map g) := by
  induction xs with
  | nil => rfl
  | cons x xs ih =>
      rw [List.mapM_cons, h, List.flatMap_cons, List.map_cons]
      refine checked_bind ?_
      rw [ih]
      exact checked_map rfl

/-- As before, where each element has one reference. -/
theorem mapM_checked_each {f : α → Except Reference β} {r : α → Reference} {g : α → β}
    (h : ∀ x, f x = c.checked [r x] (g x)) (xs : List α) :
    xs.mapM f = c.checked (xs.map r) (xs.map g) := by
  rw [mapM_checked h, ← List.map_eq_flatMap]

theorem mapM_resolve {r : α → Reference} (xs : List α) :
    (xs.mapM fun x => c.resolve (r x)) = c.checked (xs.map r) (xs.map fun x => ⟨(r x).name⟩) :=
  mapM_checked_each (fun x => resolve_eq (r x)) xs

theorem Input.resolve_eq (id : String) (i : Input) :
    i.resolve c id = c.checked [i.reference id] i.linked := by
  rw [resolve, Catalog.resolve_eq]
  exact checked_map rfl

theorem Field.resolve_eq (type : String) (f : Field) :
    f.resolve c type = c.checked (f.references type) f.linked := by
  have harguments := mapM_checked_each
    (fun a => Input.resolve_eq (c := c) (Id.argument type f.name a.name) a) f.arguments
  rw [resolve, Catalog.resolve_eq, harguments]
  exact checked_bind (checked_map rfl)

theorem Entry.resolve_eq (e : Entry) : e.resolve c = c.checked e.references e.linked := by
  have hfields := mapM_checked (c := c) (Field.resolve_eq e.name) e.fields
  have hinputs := mapM_checked_each
    (fun i => Input.resolve_eq (c := c) (Id.field e.name i.name) i) e.inputFields
  simp only [resolve, hfields, hinputs, mapM_resolve, references, List.append_assoc]
  exact checked_bind (checked_bind (checked_bind (checked_bind (checked_map rfl))))

end

end Catalog

/-- A place where a type is named: in a type of the catalog, at a position there, or at a root. -/
inductive Slot where
  | field (type field : Nat)
  | argument (type field argument : Nat)
  | inputField (type field : Nat)
  | interface (type index : Nat)
  | derivedType (type index : Nat)
  | possibleType (type index : Nat)
  | root (operation : Operation)
deriving DecidableEq

namespace Slot

/--
The way to a slot: the type, its part, the position there. Ways are compared as words are, so
a field is in front of its arguments, and roots are behind all types.
-/
def path : Slot → List Nat
  | field t f => [0, t, 0, f]
  | argument t f a => [0, t, 0, f, a]
  | inputField t i => [0, t, 1, i]
  | interface t i => [0, t, 2, i]
  | derivedType t i => [0, t, 3, i]
  | possibleType t i => [0, t, 4, i]
  | root o => [1, Operation.all.idxOf o]

end Slot

namespace Catalog

/-- The type that a catalog names for an operation. -/
def root? (c : Catalog) : Operation → Option String
  | .query => some c.query
  | .mutation => c.mutation
  | .subscription => c.subscription

/-- The names of all types. -/
def names (c : Catalog) : List String := c.entries.map (·.name)

end Catalog

namespace Catalog

/-- References in slots that are numbered. -/
def numbered (slot : Nat → Slot) (rs : List Reference) : List (Slot × Reference) :=
  rs.mapIdx fun i r => (slot i, r)

/-- The slots of the field at this position in the type at that position. -/
def Field.slots (type : String) (t f : Nat) (d : Field) : List (Slot × Reference) :=
  (.field t f, ⟨d.type, Id.field type d.name, d.location⟩)
    :: numbered (.argument t f)
      (d.arguments.map fun a => a.reference (Id.argument type d.name a.name))

/-- The slots of the type at this position, part by part. -/
def Entry.slots (t : Nat) (e : Entry) : List (List (Slot × Reference)) :=
  [(e.fields.mapIdx (Field.slots e.name t)).flatten,
    numbered (.inputField t) (e.inputFields.map fun i => i.reference (Id.field e.name i.name)),
    numbered (.interface t) (e.interfaces.map fun n => ⟨n, Id.interface e.name n, e.location⟩),
    numbered (.derivedType t)
      (e.derivedTypes.map fun n => ⟨n, Id.derivedType e.name n, e.location⟩),
    numbered (.possibleType t)
      (e.possibleTypes.map fun n => ⟨n, Id.possibleType e.name n, e.location⟩)]

/-- The slots of the roots. -/
def rootSlots (c : Catalog) : List (Slot × Reference) :=
  Operation.all.flatMap fun o =>
    (c.root? o).toList.map fun name => (.root o, ⟨name, "schema", none⟩)

/-- All slots of a catalog with what is in them, in the order of the references. -/
def slots (c : Catalog) : List (Slot × Reference) :=
  [(c.entries.mapIdx fun t e => (e.slots t).flatten).flatten, c.rootSlots].flatten

theorem mem_numbered {slot : Nat → Slot} {rs : List Reference} {x : Slot} {r : Reference} :
    (x, r) ∈ numbered slot rs ↔ ∃ i, slot i = x ∧ rs[i]? = some r := by
  rw [numbered, List.mem_mapIdx]
  refine ⟨?_, ?_⟩
  · rintro ⟨i, hi, heq⟩
    cases heq
    exact ⟨i, rfl, List.getElem?_eq_getElem hi⟩
  · rintro ⟨i, rfl, hi⟩
    obtain ⟨hlt, rfl⟩ := List.getElem?_eq_some_iff.1 hi
    exact ⟨i, hlt, rfl⟩

/-- The slots are in order, and the ways to all of them start alike. -/
structure Ordered (start : List Nat) (xs : List (Slot × Reference)) : Prop where
  pairwise : xs.Pairwise fun x y => x.1.path < y.1.path
  starts : ∀ x ∈ xs, start <+: x.1.path

theorem lt_of_starts {start p q : List Nat} {i j : Nat} (hp : start ++ [i] <+: p)
    (hq : start ++ [j] <+: q) (hlt : i < j) : p < q := by
  obtain ⟨restp, rfl⟩ := hp
  obtain ⟨restq, rfl⟩ := hq
  induction start with
  | nil => exact List.cons_lt_cons_iff.2 (.inl hlt)
  | cons a start ih => exact List.cons_lt_cons_iff.2 (.inr ⟨rfl, ih⟩)

/-- Lists of slots that are reached by numbers in order are in order one after the other. -/
theorem Ordered.flatten {start : List Nat} {blocks : List (List (Slot × Reference))}
    (h : ∀ i block, blocks[i]? = some block → Ordered (start ++ [i]) block) :
    Ordered start blocks.flatten := by
  have hblock : ∀ i (hi : i < blocks.length), Ordered (start ++ [i]) blocks[i] :=
    fun i hi => h i _ (List.getElem?_eq_getElem hi)
  refine ⟨List.pairwise_flatten.2 ⟨?_, List.pairwise_iff_getElem.2 ?_⟩, ?_⟩
  · intro block hmem
    obtain ⟨i, hi, rfl⟩ := List.getElem_of_mem hmem
    exact (hblock i hi).pairwise
  · intro i j hi hj hlt x hx y hy
    exact lt_of_starts ((hblock i hi).starts x hx) ((hblock j hj).starts y hy) hlt
  · intro x hx
    obtain ⟨block, hmem, hx⟩ := List.mem_flatten.1 hx
    obtain ⟨i, hi, rfl⟩ := List.getElem_of_mem hmem
    exact (List.prefix_append start [i]).trans ((hblock i hi).starts x hx)

theorem Ordered.mapIdx {α : Type} {start : List Nat} {xs : List α}
    {F : Nat → α → List (Slot × Reference)} (h : ∀ i x, Ordered (start ++ [i]) (F i x)) :
    Ordered start (xs.mapIdx F).flatten := by
  refine .flatten fun i block hi => ?_
  rw [List.getElem?_mapIdx] at hi
  obtain ⟨x, -, rfl⟩ := Option.map_eq_some_iff.1 hi
  exact h i x

theorem Ordered.numbered {start : List Nat} {slot : Nat → Slot}
    (h : ∀ i, (slot i).path = start ++ [i]) (rs : List Reference) :
    Ordered start (numbered slot rs) := by
  refine ⟨List.pairwise_iff_getElem.2 fun i j hi hj hlt => ?_, fun x hx => ?_⟩
  · simp only [Catalog.numbered, List.getElem_mapIdx, h]
    exact lt_of_starts List.prefix_rfl List.prefix_rfl hlt
  · obtain ⟨i, hslot, -⟩ := mem_numbered.1 hx
    rw [← hslot, h]
    exact List.prefix_append start [i]

theorem Field.ordered (type : String) (t f : Nat) (d : Field) :
    Ordered [0, t, 0, f] (d.slots type t f) := by
  have harguments : Ordered [0, t, 0, f] (Catalog.numbered (.argument t f)
      (d.arguments.map fun a => a.reference (Id.argument type d.name a.name))) :=
    .numbered (fun _ => rfl) _
  refine ⟨List.pairwise_cons.2 ⟨fun x hx => ?_, harguments.pairwise⟩,
    List.forall_mem_cons.2 ⟨List.prefix_rfl, harguments.starts⟩⟩
  obtain ⟨a, hslot, -⟩ := mem_numbered.1 hx
  rw [← hslot]
  simp [Slot.path]

theorem Entry.ordered (t : Nat) (e : Entry) : Ordered [0, t] (e.slots t).flatten := by
  refine .flatten fun i block hi => ?_
  rcases i with _ | _ | _ | _ | _ | i <;> cases hi
  case zero => exact .mapIdx (Field.ordered e.name t)
  all_goals exact .numbered (fun _ => rfl) _

/-- The argument or input field says the same, with an identifier for the name of its type. -/
structure Input.LinksTo (i : Input) (j : Graph.Input) : Prop where
  name : j.name = i.name
  description : j.description = i.description
  type : j.type.text = "TYPE::" ++ i.type
  wrappers : j.wrappers = i.wrappers
  default : j.default = i.default
  deprecation : j.deprecation = i.deprecation
  location : j.location = i.location

/-- The field says the same, and so do its arguments, one by one. -/
structure Field.LinksTo (f : Field) (g : Graph.Field) : Prop where
  name : g.name = f.name
  description : g.description = f.description
  type : g.type.text = "TYPE::" ++ f.type
  wrappers : g.wrappers = f.wrappers
  deprecation : g.deprecation = f.deprecation
  arguments : List.Forall₂ Input.LinksTo f.arguments g.arguments
  relayType : g.relayType = none
  relayArguments : g.relayArguments = []
  location : g.location = f.location

/-- The node says the same as the entry of the catalog. -/
structure Entry.LinksTo (e : Entry) (n : Graph.Node) : Prop where
  name : n.name = e.name
  id : n.id.text = "TYPE::" ++ e.name
  kind : n.kind = e.kind
  description : n.description = e.description
  location : n.location = e.location
  isRelay : n.isRelay = false
  fields : List.Forall₂ Field.LinksTo e.fields n.fields
  interfaces : n.interfaces.map TypeId.text = e.interfaces.map ("TYPE::" ++ ·)
  derivedTypes : n.derivedTypes.map TypeId.text = e.derivedTypes.map ("TYPE::" ++ ·)
  possibleTypes : n.possibleTypes.map TypeId.text = e.possibleTypes.map ("TYPE::" ++ ·)
  enumValues : n.enumValues = e.enumValues
  inputFields : List.Forall₂ Input.LinksTo e.inputFields n.inputFields

/-- The graph says the same as the catalog: a node for each entry, in order, and the roots. -/
structure LinksTo (c : Catalog) (g : Graph) : Prop where
  nodes : List.Forall₂ Entry.LinksTo c.entries g.nodes
  query : g.query.text = "TYPE::" ++ c.query
  mutation : g.mutation.map TypeId.text = c.mutation.map ("TYPE::" ++ ·)
  subscription : g.subscription.map TypeId.text = c.subscription.map ("TYPE::" ++ ·)

theorem text_eq_iff {id : TypeId} {name : String} : id.text = "TYPE::" ++ name ↔ id = ⟨name⟩ :=
  TypeId.text_inj (b := ⟨name⟩)

theorem texts_eq_iff {ids : List TypeId} {names : List String} :
    ids.map TypeId.text = names.map ("TYPE::" ++ ·) ↔ ids = names.map TypeId.mk := by
  have hnames : names.map ("TYPE::" ++ ·) = (names.map TypeId.mk).map TypeId.text := by
    rw [List.map_map]
    rfl
  rw [hnames]
  exact (List.map_injective_iff.2 fun _ _ h => TypeId.text_inj.1 h).eq_iff

theorem text?_eq_iff {id : Option TypeId} {name : Option String} :
    id.map TypeId.text = name.map ("TYPE::" ++ ·) ↔ id = name.map TypeId.mk := by
  cases id <;> cases name <;> simp [text_eq_iff]

theorem Input.linksTo_iff (i : Input) (j : Graph.Input) : i.LinksTo j ↔ j = i.linked := by
  refine ⟨?_, ?_⟩
  · rintro ⟨hname, hdescription, htype, hwrappers, hdefault, hdeprecation, hlocation⟩
    rw [text_eq_iff] at htype
    cases j
    subst_vars
    rfl
  · rintro rfl
    exact ⟨rfl, rfl, rfl, rfl, rfl, rfl, rfl⟩

theorem Field.linksTo_iff (f : Field) (g : Graph.Field) : f.LinksTo g ↔ g = f.linked := by
  refine ⟨?_, ?_⟩
  · rintro ⟨hname, hdescription, htype, hwrappers, hdeprecation, harguments, hrelay, hpaging,
      hlocation⟩
    rw [text_eq_iff] at htype
    rw [forall₂_iff_map Input.linksTo_iff] at harguments
    cases g
    subst_vars
    rfl
  · rintro rfl
    exact ⟨rfl, rfl, rfl, rfl, rfl, (forall₂_iff_map Input.linksTo_iff).2 rfl, rfl, rfl, rfl⟩

theorem Entry.linksTo_iff (e : Entry) (n : Graph.Node) : e.LinksTo n ↔ n = e.linked := by
  refine ⟨?_, ?_⟩
  · rintro ⟨hname, -, hkind, hdescription, hlocation, hrelay, hfields, hinterfaces, hderived,
      hpossible, hvalues, hinputs⟩
    rw [texts_eq_iff] at hinterfaces hderived hpossible
    rw [forall₂_iff_map Field.linksTo_iff] at hfields
    rw [forall₂_iff_map Input.linksTo_iff] at hinputs
    cases n
    subst_vars
    rfl
  · rintro rfl
    exact ⟨rfl, rfl, rfl, rfl, rfl, rfl, (forall₂_iff_map Field.linksTo_iff).2 rfl,
      texts_eq_iff.2 rfl, texts_eq_iff.2 rfl, texts_eq_iff.2 rfl, rfl,
      (forall₂_iff_map Input.linksTo_iff).2 rfl⟩

theorem linksTo_iff (c : Catalog) (g : Graph) : c.LinksTo g ↔ g = c.linked := by
  refine ⟨?_, ?_⟩
  · rintro ⟨hnodes, hquery, hmutation, hsubscription⟩
    rw [forall₂_iff_map Entry.linksTo_iff] at hnodes
    rw [text_eq_iff] at hquery
    rw [text?_eq_iff] at hmutation hsubscription
    cases g
    subst_vars
    rfl
  · rintro rfl
    exact ⟨(forall₂_iff_map Entry.linksTo_iff).2 rfl, text_eq_iff.2 rfl, text?_eq_iff.2 rfl,
      text?_eq_iff.2 rfl⟩

theorem declares_iff {c : Catalog} {name : String} : c.declares name = true ↔ name ∈ c.names := by
  rw [declares, List.any_eq_true, names, List.mem_map]
  exact exists_congr fun e => and_congr_right fun _ => beq_iff_eq

end Catalog

end SchemaGraph
