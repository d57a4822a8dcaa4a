import SchemaGraph.Proofs.Merging

/-!
# Which definitions make up a schema

Definitions are checked one after the other while they are merged, and a check
sees only what has been merged before it. `Makes` says what all checks together
come to, in terms of the definitions as a whole: it does not mention an order in
which anything is looked at, and so it can be compared for two lists of
definitions that say the same thing in different ways.

Half of each equivalence is that the steps refuse nothing that fits. For
extensions this rests on the types that come out at the end: if no name is
declared twice in them, then none was declared twice on the way, since merging
only ever adds members.
-/

namespace SchemaGraph

open Sdl

variable {μ : Type}

theorem checkMembers_iff {d : TypeDef Location} : checkMembers d = .ok () ↔ d.body.NamesOnce := by
  refine ⟨checkMembers_ok, fun h => ?_⟩
  have hmembers : firstDuplicate [] d.body.members = none :=
    firstDuplicate_eq_none_iff.2 ⟨h.members, by simp⟩
  have harguments : duplicateArgument d.body.fields = none := by
    refine List.findSome?_eq_none_iff.2 fun f hf => ?_
    rw [Option.map_eq_none_iff, firstDuplicate_eq_none_iff, List.map_map]
    exact ⟨h.arguments f hf, by simp⟩
  rw [checkMembers, hmembers]
  simp only [harguments]

theorem addType_iff {types types' : List SchemaType} {d : TypeDef Location}
    (hnames : (types.map (·.name)).Nodup) :
    addType types d = .ok types' ↔
      d.body.NamesOnce ∧ (types'.map (·.name)).Nodup ∧ types' = types ++ [d.map some] := by
  have hnodup : ((types ++ [d.map some]).map (·.name)).Nodup ↔ d.name ∉ types.map (·.name) := by
    rw [List.map_append, List.map_singleton, ← List.concat_eq_append, List.nodup_concat]
    exact and_iff_left hnames
  refine ⟨fun h => ?_, ?_⟩
  · obtain ⟨hnew, honce, rfl⟩ := addType_ok h
    exact ⟨honce, hnodup.2 hnew, rfl⟩
  · rintro ⟨honce, hnew, rfl⟩
    have hnone := lookupType_eq_none.2 (hnodup.1 hnew)
    rw [addType, hnone, if_neg (by simp), checkMembers_iff.2 honce]

/-- The roots that a schema definition names. -/
def Sdl.Definition.schemaRoots? : Definition μ → Option RootNames
  | schema roots => some roots
  | _ => none

/-- The schema definitions, of which there should be one at most. -/
def schemaDefinitions (ds : List (Definition μ)) : List RootNames :=
  ds.filterMap Definition.schemaRoots?

theorem exists_toList_of_append {α : Type} {as bs : List α} {o : Option α}
    (h : o.toList = as ++ bs) : ∃ o' : Option α, o'.toList = as := by
  match as, o, h with
  | [], _, _ => exact ⟨none, rfl⟩
  | [a], _, _ => exact ⟨some a, rfl⟩
  | _ :: _ :: _, none, h => cases h
  | _ :: _ :: _, some _, h => cases h

theorem toList_inj {α : Type} {o o' : Option α} : o.toList = o'.toList ↔ o = o' := by
  cases o <;> cases o' <;> simp

theorem Collected.unchanged_iff {c c' : Collected} (hc : (c.types.map (·.name)).Nodup) :
    c = c' ↔ (c'.types.map (·.name)).Nodup ∧ c'.types = c.types
      ∧ c'.roots.toList = c.roots.toList := by
  obtain ⟨types, roots⟩ := c
  obtain ⟨types', roots'⟩ := c'
  rw [toList_inj, mk.injEq]
  refine ⟨?_, ?_⟩
  · rintro ⟨rfl, rfl⟩
    exact ⟨hc, rfl, rfl⟩
  · rintro ⟨-, rfl, rfl⟩
    exact ⟨rfl, rfl⟩

theorem Collected.add_iff {c c' : Collected} {d : Definition Location}
    (hc : (c.types.map (·.name)).Nodup) :
    c.add d = .ok c' ↔
      (∀ t ∈ declared [d], t.body.NamesOnce) ∧ (c'.types.map (·.name)).Nodup
        ∧ c'.types = c.types ++ (declared [d]).map (·.map some)
        ∧ c'.roots.toList = c.roots.toList ++ schemaDefinitions [d] := by
  cases d with
  | type t =>
      obtain ⟨types, roots⟩ := c
      obtain ⟨types', roots'⟩ := c'
      have hdeclared : declared [Definition.type t] = [t] := rfl
      have hschemas : schemaDefinitions [Definition.type t] = [] := rfl
      simp only [add, Except.map_ok, addType_iff hc, hdeclared, hschemas,
        List.forall_mem_singleton, List.append_nil, toList_inj, mk.injEq, List.map_cons,
        List.map_nil]
      refine ⟨?_, ?_⟩
      · rintro ⟨_, hadded, rfl, rfl⟩
        exact ⟨hadded.1, hadded.2.1, hadded.2.2, rfl⟩
      · rintro ⟨honce, hnodup, htypes, rfl⟩
        exact ⟨_, ⟨honce, hnodup, htypes⟩, rfl, rfl⟩
  | schema added =>
      have hdeclared : declared [Definition.schema (μ := Location) added] = [] := rfl
      have hschemas : schemaDefinitions [Definition.schema (μ := Location) added] = [added] := rfl
      rw [hdeclared, hschemas]
      obtain ⟨types, roots⟩ := c
      cases roots with
      | some first => cases hroots : c'.roots <;> simp [add]
      | none => simpa [add] using unchanged_iff (c := ⟨types, some added⟩) hc
  | extendSchema | extendType | directive =>
      simpa [add, declared, schemaDefinitions, Definition.type?, Definition.schemaRoots?,
        List.filterMap_cons] using unchanged_iff hc

theorem schemaDefinitions_cons (d : Definition μ) (ds : List (Definition μ)) :
    schemaDefinitions (d :: ds) = schemaDefinitions [d] ++ schemaDefinitions ds :=
  List.filterMap_append (l := [d])

theorem foldlM_add_iff {ds : List (Definition Location)} {c c' : Collected}
    (hc : (c.types.map (·.name)).Nodup) :
    ds.foldlM Collected.add c = .ok c' ↔
      (∀ t ∈ declared ds, t.body.NamesOnce) ∧ (c'.types.map (·.name)).Nodup
        ∧ c'.types = c.types ++ (declared ds).map (·.map some)
        ∧ c'.roots.toList = c.roots.toList ++ schemaDefinitions ds := by
  induction ds generalizing c with
  | nil =>
      simpa [pure, Except.pure, declared, schemaDefinitions] using Collected.unchanged_iff hc
  | cons d ds ih =>
      rw [foldlM_cons_ok, declared_cons, schemaDefinitions_cons]
      refine ⟨?_, ?_⟩
      · rintro ⟨mid, hd, hds⟩
        obtain ⟨honce, hnodup, htypes, hroots⟩ := (Collected.add_iff hc).1 hd
        obtain ⟨honce', hnodup', htypes', hroots'⟩ := (ih hnodup).1 hds
        refine ⟨List.forall_mem_append.2 ⟨honce, honce'⟩, hnodup', ?_, ?_⟩
        · rw [htypes', htypes, List.map_append, List.append_assoc]
        · rw [hroots', hroots, List.append_assoc]
      · rintro ⟨honce, hnodup, htypes, hroots⟩
        obtain ⟨honce, honce'⟩ := List.forall_mem_append.1 honce
        rw [List.map_append, ← List.append_assoc] at htypes
        rw [← List.append_assoc] at hroots
        -- What is there after the first definition is part of what is there at the end.
        obtain ⟨roots, hmid⟩ := exists_toList_of_append hroots
        have hsome : ((c.types ++ (declared [d]).map (·.map some)).map (·.name)).Nodup := by
          rw [htypes, List.map_append] at hnodup
          exact (List.nodup_append.1 hnodup).1
        refine ⟨⟨_, roots⟩, (Collected.add_iff hc).2 ⟨honce, hsome, rfl, hmid⟩,
          (ih hsome).2 ⟨honce', hnodup, htypes, ?_⟩⟩
        rw [hroots, hmid]

theorem collect_iff {ds : List (Definition Location)} {c : Collected} :
    collect ds = .ok c ↔
      (∀ t ∈ declared ds, t.body.NamesOnce) ∧ ((declared ds).map (·.name)).Nodup
        ∧ c.types = (declared ds).map (·.map some)
        ∧ c.roots.toList = schemaDefinitions ds := by
  have hnames : ((declared ds).map (·.map some)).map (·.name) = (declared ds).map (·.name) := by
    rw [List.map_map]
    rfl
  rw [collect, foldlM_add_iff (c := ⟨[], none⟩) List.nodup_nil]
  refine and_congr_right fun _ => ⟨?_, ?_⟩
  · rintro ⟨hnodup, htypes, hroots⟩
    rw [htypes, List.nil_append, hnames] at hnodup
    exact ⟨hnodup, htypes, hroots⟩
  · rintro ⟨hnodup, htypes, hroots⟩
    refine ⟨?_, htypes, hroots⟩
    rwa [htypes, hnames]

theorem Sdl.TypeBody.NamesOnce.of_map {ν : Type} {b : TypeBody μ} {f : μ → ν}
    (h : (b.map f).NamesOnce) : b.NamesOnce := by
  refine ⟨by rw [← TypeBody.members_map f]; exact h.members, fun g hg => ?_⟩
  have hmem : g.map f ∈ (b.map f).fields := TypeBody.fields_map f b ▸ List.mem_map_of_mem hg
  simpa [FieldDef.map, InputDef.map, Function.comp_def] using h.arguments _ hmem

/-- Members are only ever added, so what is named once in the end is named once before. -/
theorem Sdl.TypeBody.NamesOnce.of_merge {b c : TypeBody μ} (h : (b.merge c).NamesOnce)
    (hkind : c.kind = b.kind) :
    b.NamesOnce ∧ c.NamesOnce ∧ ∀ m ∈ c.members, m.1 ∉ b.members.map Prod.fst := by
  have hmembers := h.members
  rw [TypeBody.members_merge hkind, List.map_append, List.nodup_append] at hmembers
  have harguments := h.arguments
  rw [TypeBody.fields_merge hkind] at harguments
  obtain ⟨hb, hc⟩ := List.forall_mem_append.1 harguments
  refine ⟨⟨hmembers.1, hb⟩, ⟨hmembers.2.1, hc⟩, fun m hm hmem => ?_⟩
  exact hmembers.2.2 m.1 hmem m.1 (List.mem_map_of_mem hm) rfl

theorem extendType_iff {types types' : List SchemaType} {e : TypeDef Location}
    (hn : NamesOnce types) :
    extendType types e = .ok types' ↔
      (∃ t ∈ types, t.name = e.name ∧ e.body.kind = t.body.kind)
        ∧ NamesOnce types' ∧ types' = types.map (extendNamed e) := by
  refine ⟨fun h => ?_, ?_⟩
  · obtain ⟨htypes, hkinds, honce⟩ := extendType_ok h hn
    refine ⟨?_, honce, htypes⟩
    cases htarget : lookupType types e.name with
    | none =>
        rw [extendType, htarget] at h
        cases h
    | some t =>
        obtain ⟨ht, hname⟩ := (lookupType_eq_some hn.types).1 htarget
        exact ⟨t, ht, hname, hkinds t ht hname⟩
  · rintro ⟨⟨t, ht, hname, hkind⟩, honce, rfl⟩
    have htarget := (lookupType_eq_some hn.types).2 ⟨ht, hname⟩
    have hbody := honce.bodies _ (List.mem_map_of_mem ht)
    rw [extendNamed, if_pos hname] at hbody
    obtain ⟨-, he, hnew⟩ := hbody.of_merge ((TypeBody.kind_map some e.body).trans hkind)
    have hknown : e.body.members.find? (fun m => (t.body.members.map Prod.fst).contains m.1)
        = none := by
      rw [List.find?_eq_none]
      intro m hm hmem
      have hm' : m.1 ∈ (e.body.map (some (α := Location))).members.map Prod.fst :=
        TypeBody.members_map some e.body ▸ List.mem_map_of_mem hm
      obtain ⟨m', hm', heq⟩ := List.mem_map.1 hm'
      exact hnew m' hm' (heq ▸ List.contains_iff_mem.1 hmem)
    rw [extendType, htarget]
    simp only [hkind, ne_eq, not_true_eq_false, if_false, checkMembers_iff.2 he.of_map]
    rw [hknown]
    rfl

theorem extendBy_namesOnce {es : List (TypeDef Location)} {t : SchemaType}
    (h : (extendBy es t).body.NamesOnce) (hkind : ∀ e ∈ es, e.body.kind = t.body.kind) :
    t.body.NamesOnce := by
  induction es generalizing t with
  | nil => exact h
  | cons e es ih =>
      have he := hkind e List.mem_cons_self
      have hkinds : ∀ e' ∈ es, e'.body.kind = (t.extend (e.map some)).body.kind := fun e' he' =>
        (hkind e' (List.mem_cons_of_mem _ he')).trans (TypeBody.kind_merge _ _).symm
      exact ((ih h hkinds).of_merge ((TypeBody.kind_map some e.body).trans he)).1

theorem NamesOnce.extendNamed {types : List SchemaType} (hn : NamesOnce types)
    {e : TypeDef Location} {es : List (TypeDef Location)}
    (hall : ∀ e' ∈ es, ∃ t ∈ types, t.name = e'.name ∧ e'.body.kind = t.body.kind)
    (h : NamesOnce (types.map fun t => extendBy ((e :: es).filter (·.name == t.name)) t)) :
    NamesOnce (types.map (extendNamed e)) := by
  refine ⟨map_extendNamed_names e types ▸ hn.types, fun u hu => ?_⟩
  obtain ⟨t, ht, rfl⟩ := List.mem_map.1 hu
  have hbody := h.bodies _ (List.mem_map_of_mem ht)
  rw [extendBy_filter_cons] at hbody
  refine extendBy_namesOnce hbody fun e' he' => ?_
  obtain ⟨he', hname⟩ := List.mem_filter.1 he'
  obtain ⟨u, hu, hname', hkind⟩ := hall e' he'
  rw [extendNamed_name, beq_iff_eq] at hname
  obtain rfl := List.inj_on_of_nodup_map hn.types hu ht (hname'.trans hname)
  rw [hkind, extendNamed_kind]

/-- If names are declared once, all that is asked of an extension is a type of its kind. -/
theorem foldlM_extendType_iff {es : List (TypeDef Location)} {types types' : List SchemaType}
    (hn : NamesOnce types) :
    es.foldlM extendType types = .ok types' ↔
      (∀ e ∈ es, ∃ t ∈ types, t.name = e.name ∧ e.body.kind = t.body.kind)
        ∧ NamesOnce types'
        ∧ types' = types.map fun t => extendBy (es.filter (·.name == t.name)) t := by
  induction es generalizing types with
  | nil =>
      simp only [List.foldlM_nil, pure, Except.pure, Except.ok.injEq, List.not_mem_nil,
        false_implies, implies_true, true_and, List.filter_nil]
      refine ⟨?_, ?_⟩
      · rintro rfl
        exact ⟨hn, (List.map_id' _).symm⟩
      · rintro ⟨-, rfl⟩
        exact (List.map_id' _).symm
  | cons e es ih =>
      have hmap : (types.map (extendNamed e)).map
            (fun t => extendBy (es.filter (·.name == t.name)) t)
          = types.map fun t => extendBy ((e :: es).filter (·.name == t.name)) t := by
        rw [List.map_map]
        exact List.map_congr_left fun t _ => (extendBy_filter_cons e es t).symm
      have htargets : (∀ e' ∈ es, ∃ t ∈ types.map (extendNamed e),
            t.name = e'.name ∧ e'.body.kind = t.body.kind)
          ↔ ∀ e' ∈ es, ∃ t ∈ types, t.name = e'.name ∧ e'.body.kind = t.body.kind := by
        simp only [List.mem_map, exists_exists_and_eq_and, extendNamed_name, extendNamed_kind]
      simp only [foldlM_cons_ok, extendType_iff hn, List.forall_mem_cons]
      refine ⟨?_, ?_⟩
      · rintro ⟨_, ⟨htarget, honce, rfl⟩, hes⟩
        obtain ⟨hall, honce', htypes⟩ := (ih honce).1 hes
        exact ⟨⟨htarget, htargets.1 hall⟩, honce', htypes.trans hmap⟩
      · rintro ⟨⟨htarget, hall⟩, honce', htypes⟩
        have honce := hn.extendNamed hall (htypes ▸ honce')
        exact ⟨_, ⟨htarget, honce, rfl⟩,
          (ih honce).2 ⟨htargets.2 hall, honce', htypes.trans hmap.symm⟩⟩

theorem checkInterfaces_iff {types : List SchemaType} :
    checkInterfaces types = .ok () ↔
      ∀ t ∈ types, ∀ name ∈ t.body.interfaces, ∀ u, lookupType types name = some u →
        u.body.kind = .interface := by
  have hnone : checkInterfaces types = .ok ()
      ↔ types.findSome? (implementsOther? types) = none := by
    unfold checkInterfaces
    cases types.findSome? (implementsOther? types) <;> simp
  rw [hnone, List.findSome?_eq_none_iff]
  refine forall₂_congr fun t _ => ?_
  rw [implementsOther?, List.findSome?_eq_none_iff]
  refine forall₂_congr fun name _ => ?_
  cases lookupType types name <;> simp

theorem Sdl.RootNames.ext_get {roots roots' : RootNames} (h : ∀ o, roots.get o = roots'.get o) :
    roots = roots' := by
  obtain ⟨query, mutation, subscription⟩ := roots
  obtain ⟨query', mutation', subscription'⟩ := roots'
  obtain rfl : query = query' := h .query
  obtain rfl : mutation = mutation' := h .mutation
  obtain rfl : subscription = subscription' := h .subscription
  rfl

theorem addRoot_iff {added roots roots' : RootNames} {o : Operation} :
    addRoot added roots o = .ok roots' ↔
      ∀ p, (roots'.get p).toList
        = (roots.get p).toList ++ if p = o then (added.get o).toList else [] := by
  unfold addRoot
  cases hadded : added.get o with
  | none =>
      simp only [Except.ok.injEq, Option.toList_none, ite_self, List.append_nil, toList_inj]
      exact ⟨fun h p => h ▸ rfl, fun h => RootNames.ext_get fun p => (h p).symm⟩
  | some type =>
      simp only [Option.toList_some]
      split
      · next hroot =>
          obtain ⟨first, hfirst⟩ := Option.isSome_iff_exists.1 hroot
          refine iff_of_false (fun h => nomatch h) fun h => ?_
          have ho := h o
          rw [hfirst, if_pos rfl] at ho
          cases hroots' : roots'.get o <;> simp [hroots'] at ho
      · next hroot =>
          rw [Bool.not_eq_true, Option.isSome_eq_false_iff, Option.isNone_iff_eq_none] at hroot
          have hset : ∀ p, ((roots.set type o).get p).toList
              = (roots.get p).toList ++ if p = o then [type] else [] := by
            intro p
            rw [RootNames.get_set]
            split
            · next hp => simp [hp, hroot]
            · simp
          rw [Except.ok.injEq]
          refine ⟨fun h p => h ▸ hset p, fun h => RootNames.ext_get fun p => ?_⟩
          rw [← toList_inj, hset, h]

theorem addRoots_iff {roots added roots' : RootNames} :
    addRoots roots added = .ok roots' ↔
      ∀ o, (roots'.get o).toList = (roots.get o).toList ++ (added.get o).toList := by
  simp only [addRoots, Operation.all, List.foldlM_cons, List.foldlM_nil, Except.bind_ok,
    addRoot_iff, pure, Except.pure, Except.ok.injEq]
  refine ⟨?_, fun h => ?_⟩
  · rintro ⟨first, hfirst, second, hsecond, third, hthird, rfl⟩ o
    rw [hthird, hsecond, hfirst]
    cases o <;> simp
  · refine ⟨⟨roots'.query, roots.mutation, roots.subscription⟩, fun p => ?_,
      ⟨roots'.query, roots'.mutation, roots.subscription⟩, fun p => ?_, roots', fun p => ?_, rfl⟩
    · cases p with
      | query => simpa [RootNames.get] using h .query
      | mutation | subscription => simp [RootNames.get]
    · cases p with
      | mutation => simpa [RootNames.get] using h .mutation
      | query | subscription => simp [RootNames.get]
    · cases p with
      | subscription => simpa [RootNames.get] using h .subscription
      | query | mutation => simp [RootNames.get]

/-- All that is named for an operation, in order. -/
def namedFor (named : List RootNames) (o : Operation) : List String :=
  named.flatMap fun roots => (roots.get o).toList

theorem foldlM_addRoots_iff {named : List RootNames} {roots roots' : RootNames} :
    named.foldlM addRoots roots = .ok roots' ↔
      ∀ o, (roots'.get o).toList = (roots.get o).toList ++ namedFor named o := by
  induction named generalizing roots with
  | nil =>
      simp only [List.foldlM_nil, pure, Except.pure, Except.ok.injEq, namedFor, List.flatMap_nil,
        List.append_nil, toList_inj]
      exact ⟨fun h o => h ▸ rfl, fun h => RootNames.ext_get fun o => (h o).symm⟩
  | cons added named ih =>
      have hcons : ∀ o, namedFor (added :: named) o
          = (added.get o).toList ++ namedFor named o := fun o => List.flatMap_cons
      simp only [foldlM_cons_ok, addRoots_iff, ih, hcons, ← List.append_assoc]
      refine ⟨?_, fun h => ?_⟩
      · rintro ⟨mid, hmid, hrest⟩ o
        rw [hrest, hmid]
      · choose mid hmid using fun o => exists_toList_of_append (h o)
        have hget : ∀ o, (RootNames.mk (mid .query) (mid .mutation) (mid .subscription)).get o
            = mid o := fun o => by cases o <;> rfl
        exact ⟨_, fun o => by rw [hget, hmid], fun o => by rw [hget, hmid, h]⟩

/-- Whether these are the roots that definitions and extensions of the schema name. -/
def NamesRoots (types : List SchemaType) (named : List RootNames) (roots : RootNames) : Prop :=
  if named = [] then roots = impliedRoots types
  else ∀ o, (roots.get o).toList = namedFor named o

theorem namedRoots_iff {types : List SchemaType} {definition : Option RootNames}
    {extensions : List RootNames} {roots : RootNames} :
    namedRoots types definition extensions = .ok roots ↔
      NamesRoots types (definition.toList ++ extensions) roots := by
  have hfold : ∀ first : Option RootNames,
      extensions.foldlM addRoots (first.getD .empty) = .ok roots
        ↔ ∀ o, (roots.get o).toList = namedFor (first.toList ++ extensions) o := by
    intro first
    rw [foldlM_addRoots_iff]
    refine forall_congr' fun o => ?_
    cases first <;> cases o <;> simp [namedFor, RootNames.empty, RootNames.get]
  unfold namedRoots NamesRoots
  split
  · rw [Except.ok.injEq]
    simp [eq_comm]
  · next hsome =>
      rw [hfold, if_neg]
      intro hnil
      obtain ⟨hdefinition, hextensions⟩ := List.append_eq_nil_iff.1 hnil
      exact hsome (Option.toList_eq_nil_iff.1 hdefinition) hextensions

/-- The roots of a schema. -/
def Schema.rootNames (s : Schema) : RootNames := ⟨some s.query, s.mutation, s.subscription⟩

theorem checkRoot_iff {types : List SchemaType} {o : Operation} {name : String} :
    checkRoot types o name = .ok () ↔
      ∃ t, lookupType types name = some t ∧ t.body.kind = .object := by
  unfold checkRoot
  cases lookupType types name with
  | none => simp
  | some t =>
      by_cases hkind : t.body.kind = .object
      · simp [hkind]
      · simp [hkind]

theorem checkRoot?_iff {types : List SchemaType} {o : Operation} {root : Option String} :
    checkRoot? types o root = .ok () ↔
      ∀ name, root = some name → ∃ t, lookupType types name = some t ∧ t.body.kind = .object := by
  cases root with
  | none => simp [checkRoot?]
  | some name => simp [checkRoot?, checkRoot_iff]

theorem Except.bind_unit_ok {ε β : Type} {x : Except ε Unit} {f : Unit → Except ε β} {b : β} :
    (x >>= f) = .ok b ↔ x = .ok () ∧ f () = .ok b := by
  rw [Except.bind_ok]
  exact ⟨fun ⟨_, h⟩ => h, fun h => ⟨(), h⟩⟩

theorem withRoots_iff {types : List SchemaType} {roots : RootNames} {s : Schema} :
    withRoots types roots = .ok s ↔
      s.types = types ∧ s.rootNames = roots
        ∧ ∀ o name, roots.get o = some name →
          ∃ t, lookupType types name = some t ∧ t.body.kind = .object := by
  obtain ⟨types', query', mutation', subscription'⟩ := s
  obtain ⟨query, mutation, subscription⟩ := roots
  cases query with
  | none => simp [withRoots, Schema.rootNames]
  | some query =>
      have hall : (∀ o name, (RootNames.mk (some query) mutation subscription).get o = some name →
            ∃ t, lookupType types name = some t ∧ t.body.kind = .object)
          ↔ (∃ t, lookupType types query = some t ∧ t.body.kind = .object)
            ∧ (∀ name, mutation = some name →
                ∃ t, lookupType types name = some t ∧ t.body.kind = .object)
            ∧ ∀ name, subscription = some name →
                ∃ t, lookupType types name = some t ∧ t.body.kind = .object := by
        refine ⟨fun h => ⟨h .query query rfl, h .mutation, h .subscription⟩, ?_⟩
        rintro ⟨hquery, hmutation, hsubscription⟩ o name hname
        cases o with
        | query => cases hname; exact hquery
        | mutation => exact hmutation name hname
        | subscription => exact hsubscription name hname
      rw [hall]
      simp only [withRoots, Except.bind_unit_ok, checkRoot_iff, checkRoot?_iff,
        pure, Except.pure, Except.ok.injEq, Schema.mk.injEq, Schema.rootNames, RootNames.mk.injEq,
        Option.some.injEq]
      refine ⟨?_, ?_⟩
      · rintro ⟨hquery, hmutation, hsubscription, rfl, rfl, rfl, rfl⟩
        exact ⟨rfl, ⟨rfl, rfl, rfl⟩, hquery, hmutation, hsubscription⟩
      · rintro ⟨rfl, ⟨rfl, rfl, rfl⟩, hquery, hmutation, hsubscription⟩
        exact ⟨hquery, hmutation, hsubscription, rfl, rfl, rfl, rfl⟩

/-! ## What all checks come to

`Makes` has one field for each rule, and each is about the definitions as a whole or about
the types that they come to. That accepted definitions keep the rules is read off the
checks that have passed. For the other direction the checks are run once more: a check on
the way sees a part of what there is in the end, and passes because the rule holds of the
whole. Only the kind of an extension is checked against a single type, the first of its
name; but then there is no second one (`extension_kinds`). -/

/-- The types that definitions come to: the declared ones, extended, and the other scalars. -/
def typesOf (ds : List (Definition Location)) : List SchemaType :=
  (declared ds).map (extended ds) ++ (undeclaredScalars ds).map builtinScalar

/-- The extensions of types, in order. -/
def typeExtensions (ds : List (Definition μ)) : List (TypeDef μ) :=
  ds.filterMap Definition.extension?

/-- All that is said about roots: schema definitions first, then the extensions of them. -/
def rootDefinitions (ds : List (Definition μ)) : List RootNames :=
  schemaDefinitions ds ++ ds.filterMap Definition.addedRoots?

/-- Whether definitions fit together, and a schema is what they make up. -/
structure Makes (ds : List (Definition Location)) (s : Schema) : Prop where
  types : s.types = typesOf ds
  once : NamesOnce s.types
  extensions : ∀ e ∈ typeExtensions ds,
    ∃ d ∈ declared ds, d.name = e.name ∧ e.body.kind = d.body.kind
  schemas : (schemaDefinitions ds).length ≤ 1
  interfaces : ∀ t ∈ s.types, ∀ name ∈ t.body.interfaces, ∀ u ∈ s.types, u.name = name →
    u.body.kind = .interface
  roots : NamesRoots s.types (rootDefinitions ds) s.rootNames
  objects : ∀ o name, s.rootNames.get o = some name →
    ∃ t ∈ s.types, t.name = name ∧ t.body.kind = .object

/-- If no two types have one name, an extension is of the kind of the type it names. -/
theorem extension_kinds {ds : List (Definition μ)}
    (hnames : ((declared ds).map (·.name)).Nodup)
    (hbases : ∀ e ∈ typeExtensions ds,
      ∃ d ∈ declared ds, d.name = e.name ∧ e.body.kind = d.body.kind) :
    ∀ d ∈ declared ds, ∀ e ∈ extensionsOf ds d.name, e.body.kind = d.body.kind := by
  intro d hd e he
  obtain ⟨he, hname⟩ := List.mem_filter.1 he
  obtain ⟨d', hd', hname', hkind⟩ := hbases e he
  have hsame := hname'.trans (beq_iff_eq.1 hname)
  rwa [List.inj_on_of_nodup_map hnames hd' hd hsame] at hkind

theorem extended_names (ds : List (Definition Location)) :
    ((declared ds).map (extended ds)).map (·.name) = (declared ds).map (·.name) := by
  rw [List.map_map]
  exact List.map_congr_left fun d _ => extendBy_name _ _

theorem addBuiltins_extended (ds : List (Definition Location)) :
    addBuiltins ((declared ds).map (extended ds)) = typesOf ds := by
  rw [addBuiltins_eq, extended_names]
  rfl

namespace Makes

variable {ds : List (Definition Location)} {s : Schema} (h : Makes ds s)

include h

theorem declared_names : ((declared ds).map (·.name)).Nodup := by
  have hnames := h.once.types
  rw [h.types, typesOf, List.map_append, extended_names] at hnames
  exact (List.nodup_append.1 hnames).1

theorem kinds : ∀ d ∈ declared ds, ∀ e ∈ extensionsOf ds d.name, e.body.kind = d.body.kind :=
  extension_kinds h.declared_names h.extensions

theorem extended_once : NamesOnce ((declared ds).map (extended ds)) := by
  refine ⟨?_, fun t ht => h.once.bodies t (h.types ▸ List.mem_append_left _ ht)⟩
  rw [extended_names]
  exact h.declared_names

theorem declared_once : ∀ d ∈ declared ds, d.body.NamesOnce := by
  intro d hd
  have hbody := h.extended_once.bodies _ (List.mem_map_of_mem hd)
  refine (extendBy_namesOnce hbody fun e he => ?_).of_map
  exact (h.kinds d hd e he).trans (TypeBody.kind_map _ _).symm

theorem lookupType_iff {name : String} {t : SchemaType} :
    lookupType (typesOf ds) name = some t ↔ t ∈ s.types ∧ t.name = name := by
  rw [← h.types]
  exact lookupType_eq_some h.once.types

theorem head?_schemaDefinitions :
    (schemaDefinitions ds).head?.toList = schemaDefinitions ds := by
  have hlength := h.schemas
  match schemaDefinitions ds, hlength with
  | [], _ | [_], _ => rfl

/--
Only the roots remain to be found where the types and the schema definitions are those of
definitions that fit together.
-/
theorem ofDefinitions_eq {ds' : List (Definition Location)} (hdeclared : declared ds' = declared ds)
    (hextensions : typeExtensions ds' = typeExtensions ds)
    (hschemas : schemaDefinitions ds' = schemaDefinitions ds) :
    Schema.ofDefinitions ds'
      = namedRoots s.types (schemaDefinitions ds).head? (ds'.filterMap Definition.addedRoots?)
        >>= withRoots s.types := by
  have hcollected : NamesOnce ((declared ds).map (·.map (some (α := Location)))) := by
    refine ⟨?_, fun t ht => ?_⟩
    · rw [List.map_map]
      exact h.declared_names
    · obtain ⟨d, hd, rfl⟩ := List.mem_map.1 ht
      exact (h.declared_once d hd).map some
  have hcollect : collect ds'
      = .ok ⟨(declared ds).map (·.map some), (schemaDefinitions ds).head?⟩ :=
    collect_iff.2 ⟨hdeclared ▸ h.declared_once, hdeclared ▸ h.declared_names, by rw [hdeclared],
      h.head?_schemaDefinitions.trans hschemas.symm⟩
  have hextend : extendAll ((declared ds).map (·.map some)) ds'
      = .ok ((declared ds).map (extended ds)) := by
    rw [extendAll, show ds'.filterMap Definition.extension? = typeExtensions ds from hextensions]
    refine (foldlM_extendType_iff hcollected).2 ⟨fun e he => ?_, h.extended_once, ?_⟩
    · obtain ⟨d, hd, hname, hkind⟩ := h.extensions e he
      exact ⟨d.map some, List.mem_map_of_mem hd, hname,
        hkind.trans (TypeBody.kind_map _ _).symm⟩
    · rw [List.map_map]
      rfl
  have hinterfaces : checkInterfaces (typesOf ds) = .ok () := by
    refine checkInterfaces_iff.2 fun t ht name hname u hu => ?_
    obtain ⟨hu, hname'⟩ := h.lookupType_iff.1 hu
    exact h.interfaces t (h.types ▸ ht) name hname u hu hname'
  rw [h.types]
  simp only [Schema.ofDefinitions, hcollect, bind, Except.bind, hextend, addBuiltins_extended,
    hinterfaces]

theorem ofDefinitions : Schema.ofDefinitions ds = .ok s := by
  have hnamed : namedRoots s.types (schemaDefinitions ds).head?
      (ds.filterMap Definition.addedRoots?) = .ok s.rootNames := by
    rw [namedRoots_iff, h.head?_schemaDefinitions]
    exact h.roots
  have hwith : withRoots s.types s.rootNames = .ok s := by
    refine withRoots_iff.2 ⟨rfl, rfl, fun o name hname => ?_⟩
    obtain ⟨t, ht, hname, hkind⟩ := h.objects o name hname
    exact ⟨t, (lookupType_eq_some h.once.types).2 ⟨ht, hname⟩, hkind⟩
  rw [h.ofDefinitions_eq rfl rfl rfl, hnamed]
  exact hwith

end Makes

/-- Definitions make up a schema exactly if they fit together, and it is the one that they make. -/
theorem ofDefinitions_iff {ds : List (Definition Location)} {s : Schema} :
    Schema.ofDefinitions ds = .ok s ↔ Makes ds s := by
  refine ⟨fun h => ?_, Makes.ofDefinitions⟩
  obtain ⟨htypes, -, honce⟩ := ofDefinitions_types h
  simp only [Schema.ofDefinitions, Except.bind_ok] at h
  obtain ⟨collected, hcollect, types, hextend, _, hinterfaces, roots, hnamed, hwith⟩ := h
  obtain ⟨-, hnames, hcollected, hschemas⟩ := collect_iff.1 hcollect
  obtain ⟨hwithTypes, hwithRoots, hobjects⟩ := withRoots_iff.1 hwith
  rw [← hwithTypes] at hinterfaces hnamed hobjects
  refine ⟨htypes, honce, fun e he => ?_, ?_, ?_, ?_, fun o name hname => ?_⟩
  · have hall := ((foldlM_extendType_iff (collect_ok hcollect).2).1 hextend).1
    obtain ⟨t, ht, hname, hkind⟩ := hall e he
    rw [hcollected] at ht
    obtain ⟨d, hd, rfl⟩ := List.mem_map.1 ht
    exact ⟨d, hd, hname, hkind.trans (TypeBody.kind_map _ _)⟩
  · rw [← hschemas]
    cases collected.roots <;> simp
  · intro t ht name hname u hu hname'
    exact checkInterfaces_iff.1 hinterfaces t ht name hname u
      ((lookupType_eq_some honce.types).2 ⟨hu, hname'⟩)
  · rw [hwithRoots, rootDefinitions, ← hschemas]
    exact namedRoots_iff.1 hnamed
  · obtain ⟨t, ht, hkind⟩ := hobjects o name (hwithRoots ▸ hname)
    obtain ⟨ht, hname⟩ := (lookupType_eq_some honce.types).1 ht
    exact ⟨t, ht, hname, hkind⟩

/-! ## Definitions that fit alike

No check sees more of a type than its name and its kind, the interfaces it implements, and
the names of its members and of their arguments; and the order of these makes no
difference to any. Types that agree in all this resemble each other. The same definitions
in another order come to such types, and so do extensions that are written into what they
extend, so one transfer of `Makes` settles both. -/

/-- The names of the arguments of each field. -/
def Sdl.TypeBody.argumentNames (b : TypeBody μ) : List (List String) :=
  b.fields.map fun f => f.arguments.map (·.name)

/-- Whether two types look alike to all checks. -/
structure Sdl.TypeDef.Resembles (t t' : TypeDef μ) : Prop where
  name : t'.name = t.name
  kind : t'.body.kind = t.body.kind
  interfaces : ∀ name, name ∈ t'.body.interfaces ↔ name ∈ t.body.interfaces
  members : (t'.body.members.map Prod.fst).Perm (t.body.members.map Prod.fst)
  arguments : t'.body.argumentNames.Perm t.body.argumentNames

theorem Sdl.TypeDef.Resembles.refl (t : TypeDef μ) : t.Resembles t :=
  ⟨rfl, rfl, fun _ => Iff.rfl, .refl _, .refl _⟩

theorem Sdl.TypeDef.Resembles.namesOnce {t t' : TypeDef μ} (h : t.Resembles t')
    (ht : t.body.NamesOnce) : t'.body.NamesOnce := by
  refine ⟨h.members.nodup_iff.2 ht.members, fun f' hf' => ?_⟩
  have hmem := h.arguments.mem_iff.1 (List.mem_map_of_mem hf')
  obtain ⟨f, hf, heq⟩ := List.mem_map.1 hmem
  exact heq ▸ ht.arguments f hf

theorem lookupType_map_name (types : List SchemaType) (name : String) :
    (lookupType types name).map (·.name)
      = if name ∈ types.map (·.name) then some name else none := by
  split
  · next hmem =>
      obtain ⟨t, ht⟩ := Option.ne_none_iff_exists'.1 fun hnone => lookupType_eq_none.1 hnone hmem
      have hname : t.name = name := by simpa using List.find?_some ht
      rw [ht, Option.map_some, hname]
  · next hmem => rw [lookupType_eq_none.2 hmem, Option.map_none]

/-- Nothing about roots depends on an order: for no operation may there be two. -/
theorem NamesRoots.perm {types types' : List SchemaType} {named named' : List RootNames}
    {roots : RootNames} (h : NamesRoots types named roots)
    (htypes : (types'.map (·.name)).Perm (types.map (·.name))) (hnamed : named'.Perm named) :
    NamesRoots types' named' roots := by
  unfold NamesRoots at h ⊢
  by_cases hnil : named = []
  · rw [if_pos hnil] at h
    rw [if_pos (List.perm_nil.1 (hnil ▸ hnamed)), h]
    simp only [impliedRoots, lookupType_map_name, htypes.mem_iff]
  · rw [if_neg hnil] at h
    rw [if_neg fun hnil' : named' = [] => hnil (List.nil_perm.1 (hnil' ▸ hnamed))]
    intro o
    have hperm : (namedFor named' o).Perm (roots.get o).toList := by
      rw [h o]
      exact hnamed.flatMap_right _
    cases hroot : roots.get o with
    | none =>
        rw [hroot] at hperm
        exact (List.perm_nil.1 hperm).symm
    | some name =>
        rw [hroot] at hperm
        exact (List.perm_singleton.1 hperm).symm

/-- What fits together still does in another form that no check can tell from the first one. -/
theorem Makes.transfer {ds ds' : List (Definition Location)} {s s' : Schema} (h : Makes ds s)
    (htypes : s'.types = typesOf ds')
    (hnames : (s'.types.map (·.name)).Perm (s.types.map (·.name)))
    (hfrom : ∀ t' ∈ s'.types, ∃ t ∈ s.types, t.Resembles t')
    (hto : ∀ t ∈ s.types, ∃ t' ∈ s'.types, t.Resembles t')
    (hextensions : ∀ e ∈ typeExtensions ds',
      ∃ d ∈ declared ds', d.name = e.name ∧ e.body.kind = d.body.kind)
    (hschemas : (schemaDefinitions ds').Perm (schemaDefinitions ds))
    (hnamed : (rootDefinitions ds').Perm (rootDefinitions ds))
    (hroots : s'.rootNames = s.rootNames) : Makes ds' s' where
  types := htypes
  once := by
    refine ⟨hnames.nodup_iff.2 h.once.types, fun t' ht' => ?_⟩
    obtain ⟨t, ht, hsame⟩ := hfrom t' ht'
    exact hsame.namesOnce (h.once.bodies t ht)
  extensions := hextensions
  schemas := hschemas.length_eq ▸ h.schemas
  interfaces := by
    intro t' ht' name hname u' hu' hname'
    obtain ⟨t, ht, hsame⟩ := hfrom t' ht'
    obtain ⟨u, hu, hsame'⟩ := hfrom u' hu'
    rw [hsame'.kind]
    exact h.interfaces t ht name ((hsame.interfaces name).1 hname) u hu
      (hsame'.name.symm.trans hname')
  roots := hroots ▸ h.roots.perm hnames hnamed
  objects := by
    intro o name hname
    obtain ⟨t, ht, hname', hkind⟩ := h.objects o name (hroots ▸ hname)
    obtain ⟨t', ht', hsame⟩ := hto t ht
    exact ⟨t', ht', hsame.name.trans hname', hsame.kind.trans hkind⟩

end SchemaGraph
