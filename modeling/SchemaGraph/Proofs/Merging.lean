import Mathlib.Data.List.Nodup
import SchemaGraph.Proofs.Lists
import SchemaGraph.Schema.Build

/-!
# What merging makes of definitions

A schema is built by two folds over the definitions of a document: the first
collects types, the second adds extensions to them. Each step either refuses or
does what can be said without it, so the types that come out have a closed form:
those that are declared, in order, each with the extensions of its name.

Both steps refuse whatever would give two things one name. That is an invariant
of the list of types, and the second fold depends on it: an extension is checked
against the first type of its name but added to all of them, which is the same
only because there is no other.
-/

namespace SchemaGraph

open Sdl

variable {μ ν : Type}

theorem Except.bind_ok {ε α β : Type} {x : Except ε α} {f : α → Except ε β} {b : β} :
    (x >>= f) = .ok b ↔ ∃ a, x = .ok a ∧ f a = .ok b := by
  cases x with
  | error e => simp [bind, Except.bind]
  | ok a => simp [bind, Except.bind]

theorem Except.bind_error {ε α β : Type} {x : Except ε α} {f : α → Except ε β} {e : ε} :
    (x >>= f) = .error e ↔ x = .error e ∨ ∃ a, x = .ok a ∧ f a = .error e := by
  cases x with
  | error e => simp [bind, Except.bind]
  | ok a => simp [bind, Except.bind]

theorem Except.map_ok {ε α β : Type} {x : Except ε α} {f : α → β} {b : β} :
    x.map f = .ok b ↔ ∃ a, x = .ok a ∧ f a = b := by
  cases x with
  | error e => simp [Except.map]
  | ok a => simp [Except.map]

theorem Except.exists_ok {ε α : Type} {x : Except ε α} (h : x.toOption.isSome = true) :
    ∃ a, x = .ok a := by
  cases x with
  | error e => cases h
  | ok a => exact ⟨a, rfl⟩

theorem Except.exists_ok_of_any {ε α : Type} {x : Except ε α} {p : α → Bool}
    (h : x.toOption.any p = true) : ∃ a, x = .ok a ∧ p a = true := by
  cases x with
  | error e => cases h
  | ok a => exact ⟨a, rfl, h⟩

theorem Except.exists_some_of_any {ε α : Type} {x : Except ε (Option α)} {p : α → Bool}
    (h : x.toOption.join.any p = true) : ∃ a, x = .ok (some a) ∧ p a = true := by
  cases x with
  | error e => cases h
  | ok found =>
      cases found with
      | none => cases h
      | some a => exact ⟨a, rfl, h⟩

theorem foldlM_cons_ok {ε α σ : Type} {f : σ → α → Except ε σ} {a : α} {as : List α} {s t : σ} :
    (a :: as).foldlM f s = .ok t ↔ ∃ mid, f s a = .ok mid ∧ as.foldlM f mid = .ok t := by
  rw [List.foldlM_cons, Except.bind_ok]

/-- Where a fold fails, one of its steps fails. -/
theorem foldlM_error {ε α σ : Type} {f : σ → α → Except ε σ} {as : List α} {s : σ} {e : ε}
    (h : as.foldlM f s = .error e) : ∃ t, ∃ a ∈ as, f t a = .error e := by
  induction as generalizing s with
  | nil => cases h
  | cons a as ih =>
      rw [List.foldlM_cons] at h
      obtain ha | ⟨t, -, has⟩ := Except.bind_error.1 h
      · exact ⟨s, a, List.mem_cons_self, ha⟩
      · obtain ⟨t, b, hb, hfails⟩ := ih has
        exact ⟨t, b, List.mem_cons_of_mem _ hb, hfails⟩

/-- No two members of a type have one name, and neither do two arguments of a field. -/
structure Sdl.TypeBody.NamesOnce (b : TypeBody μ) : Prop where
  members : (b.members.map Prod.fst).Nodup
  arguments : ∀ f ∈ b.fields, (f.arguments.map (·.name)).Nodup

/-- No two types have one name, and neither do two members of one type. -/
structure NamesOnce (ts : List (TypeDef μ)) : Prop where
  types : (ts.map (·.name)).Nodup
  bodies : ∀ t ∈ ts, t.body.NamesOnce

theorem checkMembers_ok {d : TypeDef Location} (h : checkMembers d = .ok ()) :
    d.body.NamesOnce := by
  unfold checkMembers at h
  split at h
  · cases h
  · next hmembers =>
      split at h
      · cases h
      · next harguments =>
          refine ⟨(firstDuplicate_eq_none_iff.1 hmembers).1, fun f hf => ?_⟩
          have hf' := List.findSome?_eq_none_iff.1 harguments f hf
          rw [Option.map_eq_none_iff] at hf'
          simpa [Function.comp_def] using (firstDuplicate_eq_none_iff.1 hf').1

theorem Sdl.TypeBody.members_map (f : μ → ν) (b : TypeBody μ) :
    (b.map f).members.map Prod.fst = b.members.map Prod.fst := by
  cases b <;> simp [TypeBody.map, TypeBody.members, FieldDef.map, InputDef.map, EnumValueDef.map]

theorem Sdl.TypeBody.fields_map (f : μ → ν) (b : TypeBody μ) :
    (b.map f).fields = b.fields.map (·.map f) := by
  cases b <;> rfl

theorem Sdl.TypeBody.NamesOnce.map {b : TypeBody μ} (h : b.NamesOnce) (f : μ → ν) :
    (b.map f).NamesOnce := by
  refine ⟨by rw [TypeBody.members_map]; exact h.members, fun g hg => ?_⟩
  rw [TypeBody.fields_map] at hg
  obtain ⟨d, hd, rfl⟩ := List.mem_map.1 hg
  simpa [FieldDef.map, InputDef.map, Function.comp_def] using h.arguments d hd

theorem lookupType_eq_none {types : List SchemaType} {name : String} :
    lookupType types name = none ↔ name ∉ types.map (·.name) := by
  simp only [lookupType, List.find?_eq_none, List.mem_map, not_exists, not_and, beq_iff_eq]

/-- If names are declared once, the type of a name is the one that is found. -/
theorem lookupType_eq_some {types : List SchemaType} (h : (types.map (·.name)).Nodup)
    {t : SchemaType} {name : String} :
    lookupType types name = some t ↔ t ∈ types ∧ t.name = name := find?_key_iff h

/-- The type that a definition declares. -/
def Sdl.Definition.type? : Definition μ → Option (TypeDef μ)
  | type d => some d
  | _ => none

/-- The types that are declared, in order. -/
def declared (definitions : List (Definition μ)) : List (TypeDef μ) :=
  definitions.filterMap Definition.type?

theorem declared_cons (d : Definition μ) (ds : List (Definition μ)) :
    declared (d :: ds) = declared [d] ++ declared ds := List.filterMap_append (l := [d])

theorem addType_ok {types types' : List SchemaType} {d : TypeDef Location}
    (h : addType types d = .ok types') :
    d.name ∉ types.map (·.name) ∧ d.body.NamesOnce ∧ types' = types ++ [d.map some] := by
  unfold addType at h
  split at h
  · cases h
  · next hnew =>
      split at h
      · cases h
      · next hmembers =>
          cases h
          rw [Bool.not_eq_true, Option.isSome_eq_false_iff, Option.isNone_iff_eq_none] at hnew
          exact ⟨lookupType_eq_none.1 hnew, checkMembers_ok hmembers, rfl⟩

theorem NamesOnce.concat {types : List SchemaType} (h : NamesOnce types) {t : SchemaType}
    (hnew : t.name ∉ types.map (·.name)) (ht : t.body.NamesOnce) : NamesOnce (types ++ [t]) := by
  refine ⟨?_, ?_⟩
  · rw [List.map_append, List.nodup_append]
    refine ⟨h.types, by simp, ?_⟩
    rintro name hname _ (_ | ⟨_, ⟨⟩⟩) rfl
    exact hnew hname
  · intro u hu
    rcases List.mem_append.1 hu with hu | hu
    · exact h.bodies u hu
    · rw [List.mem_singleton.1 hu]
      exact ht

theorem Collected.add_ok {c c' : Collected} {d : Definition Location} (h : c.add d = .ok c')
    (hc : NamesOnce c.types) :
    c'.types = c.types ++ (declared [d]).map (·.map some) ∧ NamesOnce c'.types := by
  cases d with
  | type t =>
      obtain ⟨types, htypes, rfl⟩ := Except.map_ok.1 h
      obtain ⟨hnew, honce, rfl⟩ := addType_ok htypes
      exact ⟨rfl, hc.concat hnew (honce.map some)⟩
  | schema roots =>
      simp only [Collected.add] at h
      split at h
      · cases h
      · cases h
        simpa [declared, Definition.type?] using hc
  | extendSchema | extendType | directive =>
      cases h
      simpa [declared, Definition.type?] using hc

theorem collect_ok {ds : List (Definition Location)} {c : Collected} (h : collect ds = .ok c) :
    c.types = (declared ds).map (·.map some) ∧ NamesOnce c.types := by
  have hfold : ∀ {ds : List (Definition Location)} {c c' : Collected},
      ds.foldlM Collected.add c = .ok c' → NamesOnce c.types →
        c'.types = c.types ++ (declared ds).map (·.map some) ∧ NamesOnce c'.types := by
    intro ds
    induction ds with
    | nil =>
        intro c c' h hc
        cases h
        simpa [declared] using hc
    | cons d ds ih =>
        intro c c' h hc
        obtain ⟨mid, hd, hds⟩ := foldlM_cons_ok.1 h
        obtain ⟨hmid, honce⟩ := Collected.add_ok hd hc
        obtain ⟨htypes, honce'⟩ := ih hds honce
        refine ⟨?_, honce'⟩
        rw [htypes, hmid, declared_cons d ds, List.map_append, List.append_assoc]
  exact hfold h ⟨List.nodup_nil, by simp⟩

/-! ## Extending

As names are declared once, the type that an extension is checked against is the only one
it is added to. So a step that is not refused is a map over the types (`extendNamed`), and
all steps together extend each type by the extensions of its own name, in their order
(`extendBy`). That they are of the kind of the type has to be carried along: bodies of two
kinds do not merge, and members would be lost. -/

/-- The extensions of the type with this name, in order. -/
def extensionsOf (definitions : List (Definition μ)) (name : String) : List (TypeDef μ) :=
  (definitions.filterMap Definition.extension?).filter (·.name == name)

theorem Sdl.TypeBody.kind_merge (b c : TypeBody μ) : (b.merge c).kind = b.kind := by
  cases b <;> cases c <;> rfl

theorem Sdl.TypeBody.kind_map (f : μ → ν) (b : TypeBody μ) : (b.map f).kind = b.kind := by
  cases b <;> rfl

theorem Sdl.TypeBody.fields_merge {b c : TypeBody μ} (h : c.kind = b.kind) :
    (b.merge c).fields = b.fields ++ c.fields := by
  cases b <;> cases c <;> first | rfl | cases h

theorem Sdl.TypeBody.members_merge {b c : TypeBody μ} (h : c.kind = b.kind) :
    (b.merge c).members = b.members ++ c.members := by
  cases b <;> cases c <;> first | (simp [TypeBody.merge, TypeBody.members]; done) | cases h

theorem Sdl.TypeBody.NamesOnce.merge {b c : TypeBody μ} (hb : b.NamesOnce) (hc : c.NamesOnce)
    (hkind : c.kind = b.kind)
    (hnew : ∀ m ∈ c.members, m.1 ∉ b.members.map Prod.fst) : (b.merge c).NamesOnce := by
  refine ⟨?_, ?_⟩
  · rw [TypeBody.members_merge hkind, List.map_append, List.nodup_append]
    refine ⟨hb.members, hc.members, ?_⟩
    rintro name hname _ hc rfl
    obtain ⟨m, hm, rfl⟩ := List.mem_map.1 hc
    exact hnew m hm hname
  · intro f hf
    rw [TypeBody.fields_merge hkind] at hf
    rcases List.mem_append.1 hf with hf | hf
    · exact hb.arguments f hf
    · exact hc.arguments f hf

/-- A type with one extension, if it is the one that is extended. -/
def extendNamed (e : TypeDef Location) (t : SchemaType) : SchemaType :=
  if t.name = e.name then t.extend (e.map some) else t

theorem extendNamed_name (e : TypeDef Location) (t : SchemaType) :
    (extendNamed e t).name = t.name := by
  unfold extendNamed
  split <;> rfl

theorem extendNamed_kind (e : TypeDef Location) (t : SchemaType) :
    (extendNamed e t).body.kind = t.body.kind := by
  unfold extendNamed
  split
  · exact TypeBody.kind_merge _ _
  · rfl

theorem map_extendNamed_names (e : TypeDef Location) (types : List SchemaType) :
    (types.map (extendNamed e)).map (·.name) = types.map (·.name) := by
  rw [List.map_map]
  exact List.map_congr_left fun t _ => extendNamed_name e t

/-- What an extension that is not refused does to types whose names are declared once. -/
theorem extendType_ok {types types' : List SchemaType} {e : TypeDef Location}
    (h : extendType types e = .ok types') (hn : NamesOnce types) :
    types' = types.map (extendNamed e)
      ∧ (∀ t ∈ types, t.name = e.name → e.body.kind = t.body.kind)
      ∧ NamesOnce types' := by
  unfold extendType at h
  split at h
  · cases h
  next target htarget =>
  split at h
  · cases h
  next hkind =>
  split at h
  · cases h
  next hmembers =>
  dsimp only at h
  split at h
  · cases h
  next hnew =>
  cases h
  -- The checks are made for `target` only, and there is no other type of its name.
  have hsame : ∀ t ∈ types, t.name = e.name → t = target := by
    intro t ht hname
    have := (lookupType_eq_some hn.types).2 ⟨ht, hname⟩
    exact Option.some.inj (this.symm.trans htarget)
  have hkinds : ∀ t ∈ types, t.name = e.name → e.body.kind = t.body.kind := by
    intro t ht hname
    rw [hsame t ht hname]
    exact (Decidable.not_not.1 hkind).symm
  refine ⟨rfl, hkinds, ?_, ?_⟩
  · exact map_extendNamed_names e types ▸ hn.types
  · intro u hu
    obtain ⟨t, ht, rfl⟩ := List.mem_map.1 hu
    split
    · next hname =>
        refine (hn.bodies t ht).merge ((checkMembers_ok hmembers).map some)
          ((TypeBody.kind_map _ _).trans (hkinds t ht hname)) fun m hm => ?_
        have hm' : m.1 ∈ e.body.members.map Prod.fst := by
          rw [← TypeBody.members_map some]
          exact List.mem_map_of_mem hm
        obtain ⟨m', hmem, heq⟩ := List.mem_map.1 hm'
        have := List.find?_eq_none.1 hnew m' hmem
        rw [hsame t ht hname, ← heq]
        simpa using this
    · exact hn.bodies t ht

/-- A type with extensions added one after the other. -/
def extendBy (es : List (TypeDef Location)) (t : SchemaType) : SchemaType :=
  es.foldl (fun t e => t.extend (e.map some)) t

theorem extendBy_filter_cons (e : TypeDef Location) (es : List (TypeDef Location))
    (t : SchemaType) :
    extendBy ((e :: es).filter (·.name == t.name)) t
      = extendBy (es.filter (·.name == (extendNamed e t).name)) (extendNamed e t) := by
  rw [extendNamed_name]
  by_cases hname : t.name = e.name
  · rw [List.filter_cons_of_pos (by simp [hname]), extendNamed, if_pos hname]
    rfl
  · rw [List.filter_cons_of_neg (by simpa using Ne.symm hname), extendNamed, if_neg hname]

/-- Extensions are added type by type, and each is of the kind of its type. -/
theorem foldlM_extendType_ok {es : List (TypeDef Location)} {types types' : List SchemaType}
    (h : es.foldlM extendType types = .ok types') (hn : NamesOnce types) :
    types' = types.map (fun t => extendBy (es.filter (·.name == t.name)) t)
      ∧ (∀ t ∈ types, ∀ e ∈ es, t.name = e.name → e.body.kind = t.body.kind)
      ∧ NamesOnce types' := by
  induction es generalizing types with
  | nil =>
      cases h
      exact ⟨(List.map_id' _).symm, by simp, hn⟩
  | cons e es ih =>
      obtain ⟨mid, he, hes⟩ := foldlM_cons_ok.1 h
      obtain ⟨rfl, hkind, honce⟩ := extendType_ok he hn
      obtain ⟨rfl, hkinds, honce'⟩ := ih hes honce
      refine ⟨?_, ?_, honce'⟩
      · rw [List.map_map]
        exact List.map_congr_left fun t _ => (extendBy_filter_cons e es t).symm
      · rintro t ht e' (_ | ⟨_, he'⟩) hname
        · exact hkind t ht hname
        · have := hkinds _ (List.mem_map_of_mem ht) e' he' (by rwa [extendNamed_name])
          rwa [extendNamed_kind] at this

/-- The built-in scalars that a document does not declare itself. -/
def undeclaredScalars (definitions : List (Definition μ)) : List String :=
  builtinScalars.filter fun name => name ∉ (declared definitions).map (·.name)

/-- A declared type with all extensions of its name. -/
def extended (definitions : List (Definition Location)) (d : TypeDef Location) : SchemaType :=
  extendBy (extensionsOf definitions d.name) (d.map some)

theorem extendBy_name (es : List (TypeDef Location)) (t : SchemaType) :
    (extendBy es t).name = t.name := by
  induction es generalizing t with
  | nil => rfl
  | cons e es ih => exact ih (t.extend (e.map some))

theorem addBuiltins_eq (types : List SchemaType) :
    addBuiltins types
      = types ++ (builtinScalars.filter (· ∉ types.map (·.name))).map builtinScalar := by
  have hnone : ∀ name, (lookupType types name).isNone = decide (name ∉ types.map (·.name)) := by
    intro name
    rw [Bool.eq_iff_iff, Option.isNone_iff_eq_none, lookupType_eq_none, decide_eq_true_iff]
  rw [addBuiltins]
  simp only [hnone]

theorem NamesOnce.addBuiltins {types : List SchemaType} (h : NamesOnce types) :
    NamesOnce (addBuiltins types) := by
  rw [addBuiltins_eq]
  refine ⟨?_, ?_⟩
  · have hscalars : ∀ names : List String, (names.map builtinScalar).map (·.name) = names := by
      intro names
      rw [List.map_map]
      exact List.map_id names
    rw [List.map_append, List.nodup_append, hscalars]
    refine ⟨h.types, List.Nodup.filter _ (by decide), ?_⟩
    rintro name hname _ hmem rfl
    simp only [List.mem_filter, decide_eq_true_eq] at hmem
    exact hmem.2 hname
  · intro t ht
    rcases List.mem_append.1 ht with ht | ht
    · exact h.bodies t ht
    · obtain ⟨name, -, rfl⟩ := List.mem_map.1 ht
      exact ⟨List.nodup_nil, by simp [builtinScalar, TypeBody.fields]⟩

theorem withRoots_ok {types : List SchemaType} {roots : RootNames} {s : Schema}
    (h : withRoots types roots = .ok s) :
    s.types = types ∧ some s.query = roots.query ∧ s.mutation = roots.mutation
      ∧ s.subscription = roots.subscription := by
  unfold withRoots at h
  split at h
  · cases h
  · next query hquery =>
      obtain ⟨-, -, h⟩ := Except.bind_ok.1 h
      obtain ⟨-, -, h⟩ := Except.bind_ok.1 h
      obtain ⟨-, -, h⟩ := Except.bind_ok.1 h
      cases h
      exact ⟨rfl, hquery.symm, rfl, rfl⟩

/-- The types of a schema: those that are declared, extended, and the built-in scalars. -/
theorem ofDefinitions_types {ds : List (Definition Location)} {s : Schema}
    (h : Schema.ofDefinitions ds = .ok s) :
    s.types = (declared ds).map (extended ds) ++ (undeclaredScalars ds).map builtinScalar
      ∧ (∀ d ∈ declared ds, ∀ e ∈ extensionsOf ds d.name, e.body.kind = d.body.kind)
      ∧ NamesOnce s.types := by
  unfold Schema.ofDefinitions at h
  obtain ⟨collected, hcollect, h⟩ := Except.bind_ok.1 h
  obtain ⟨types, hextend, h⟩ := Except.bind_ok.1 h
  obtain ⟨-, -, h⟩ := Except.bind_ok.1 h
  obtain ⟨roots, -, h⟩ := Except.bind_ok.1 h
  obtain ⟨hcollected, honce⟩ := collect_ok hcollect
  obtain ⟨htypes, hkinds, honce'⟩ := foldlM_extendType_ok hextend honce
  have hextended : types = (declared ds).map (extended ds) := by
    rw [htypes, hcollected, List.map_map]
    rfl
  have hnames : types.map (·.name) = (declared ds).map (·.name) := by
    rw [hextended, List.map_map]
    exact List.map_congr_left fun d _ => extendBy_name _ _
  rw [(withRoots_ok h).1]
  refine ⟨?_, ?_, honce'.addBuiltins⟩
  · rw [addBuiltins_eq, hnames, hextended]
    rfl
  · intro d hd e he
    obtain ⟨he, hname⟩ := List.mem_filter.1 he
    have hmem : d.map some ∈ collected.types := hcollected ▸ List.mem_map_of_mem hd
    have hkind := hkinds _ hmem e he (beq_iff_eq.1 hname).symm
    exact hkind.trans (TypeBody.kind_map _ _)

theorem sortOn_perm {α : Type} (key : α → String) (entries : List α) :
    (sortOn key entries).Perm entries := List.mergeSort_perm _ _

theorem sortFields_perm (fields : List (FieldDef μ)) :
    (sortFields fields).Perm (fields.map FieldDef.sorted) := sortOn_perm _ _

theorem Sdl.TypeBody.members_sorted (b : TypeBody μ) :
    (b.sorted.members.map Prod.fst).Perm (b.members.map Prod.fst) := by
  have hfields : ∀ fields : List (FieldDef μ),
      ((sortFields fields).map (·.name)).Perm (fields.map (·.name)) := by
    intro fields
    have := (sortFields_perm fields).map (·.name)
    rwa [List.map_map] at this
  cases b with
  | scalar | union => exact .refl _
  | object _ fields | interface _ fields =>
      simpa [TypeBody.sorted, TypeBody.members, Function.comp_def] using hfields fields
  | enum values =>
      simpa [TypeBody.sorted, TypeBody.members, Function.comp_def] using
        (sortOn_perm (·.name) values).map (·.name)
  | input fields =>
      simpa [TypeBody.sorted, TypeBody.members, Function.comp_def] using
        (sortOn_perm (·.name) fields).map (·.name)

theorem Sdl.TypeBody.mem_fields_sorted {b : TypeBody μ} {f : FieldDef μ}
    (h : f ∈ b.sorted.fields) : ∃ f' ∈ b.fields, f = f'.sorted := by
  cases b with
  | scalar | union | enum | input => simp [TypeBody.sorted, TypeBody.fields] at h
  | object _ fields | interface _ fields =>
      obtain ⟨f', hf', rfl⟩ := List.mem_map.1 ((sortFields_perm fields).mem_iff.1 h)
      exact ⟨f', hf', rfl⟩

theorem Sdl.TypeBody.NamesOnce.sorted {b : TypeBody μ} (h : b.NamesOnce) :
    b.sorted.NamesOnce := by
  refine ⟨?_, ?_⟩
  · exact (TypeBody.members_sorted b).nodup_iff.2 h.members
  · intro f hf
    obtain ⟨f', hf', rfl⟩ := TypeBody.mem_fields_sorted hf
    exact ((sortOn_perm (·.name) f'.arguments).map (·.name)).nodup_iff.2 (h.arguments f' hf')

theorem Schema.sorted_types_perm (s : Schema) :
    s.sorted.types.Perm (s.types.map TypeDef.sorted) := sortOn_perm _ _

theorem NamesOnce.sorted {s : Schema} (h : NamesOnce s.types) : NamesOnce s.sorted.types := by
  have hperm := s.sorted_types_perm
  refine ⟨?_, ?_⟩
  · have hnames := hperm.map (·.name)
    rw [List.map_map] at hnames
    exact hnames.nodup_iff.2 h.types
  · intro t ht
    obtain ⟨t', ht', rfl⟩ := List.mem_map.1 (hperm.mem_iff.1 ht)
    exact (h.bodies t' ht').sorted

/-- In the schema of a document, sorted or not, all names are declared once. -/
theorem Schema.ofDocument_namesOnce {sort : Bool} {d : Document} {s : Schema}
    (h : Schema.ofDocument sort d = .ok s) : NamesOnce s.types := by
  obtain ⟨s', hs', rfl⟩ := Except.map_ok.1 h
  obtain ⟨-, -, honce⟩ := ofDefinitions_types hs'
  cases sort with
  | false => exact honce
  | true => exact honce.sorted

end SchemaGraph
