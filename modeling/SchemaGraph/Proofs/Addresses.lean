import SchemaGraph.Proofs.Identifiers

/-!
# An identifier leads to its entity, and nothing else does

To find an entity a graph first reads off its identifier the type that it belongs
to, and then looks among the parts of that type, one sort of them after the
other. So there are two ways to go wrong: an identifier might name another type
than the one that holds the entity, or what is found first might not be what the
identifier was written for.

Neither happens. The name of the type comes first in every path and is not
empty, so it can be read off; and no two entities have one identifier, so
whatever is found under it is the only thing there is to find. The second part
needs to be said of the search as a whole only: each of its stages finds nothing
but what has the identifier, and that is enough.
-/

namespace SchemaGraph

open Sdl

namespace Id

theorem afterColons?_append {front rest : List Char} (h : ':' ∉ front) :
    afterColons? (front ++ ':' :: ':' :: rest) = some rest := by
  induction front with
  | nil => rfl
  | cons c cs ih =>
      obtain ⟨hc, hcs⟩ := not_or.1 (List.mem_cons.not.1 h)
      rw [List.cons_append, afterColons?, ih hcs]
      rintro cs' rfl -
      exact hc rfl

theorem untilColons_append {front : List Char} (h : ':' ∉ front) (names : List String) :
    untilColons (front ++ trail names) = front := by
  induction front with
  | nil => cases names <;> rfl
  | cons c cs ih =>
      obtain ⟨hc, hcs⟩ := not_or.1 (List.mem_cons.not.1 h)
      rw [List.cons_append, untilColons, ih hcs]
      rintro cs' rfl -
      exact hc rfl

/-- The type that an identifier belongs to is the one that its path starts from. -/
theorem owner?_join {tag name : String} {names : List String} (htag : Plain tag)
    (hname : Plain name) (hne : name.toList ≠ []) :
    owner? (join tag (name :: names)) = some ⟨name⟩ := by
  have hpath : (join tag (name :: names)).toList
      = tag.toList ++ ':' :: ':' :: (name.toList ++ trail names) := by
    rw [join_toList]
    rfl
  rw [owner?, hpath, afterColons?_append htag]
  simp only [untilColons_append hname]
  split
  · next hnil => exact absurd hnil hne
  · next c cs hcs => rw [← hcs, String.ofList_toList]

end Id

namespace Graph

/-- Whether an entity belongs to a type and has this identifier. -/
inductive Node.Owns (n : Node) : String → Entity → Prop
  | type : n.Owns n.id.text (.type n)
  | field {f} (member : f ∈ n.fields) : n.Owns (Id.field n.name f.name) (.field n.name f)
  | argument {f a} (member : f ∈ n.fields) (argument : a ∈ f.arguments ++ f.relayArguments) :
      n.Owns (Id.argument n.name f.name a.name) (.input a)
  | inputField {i} (member : i ∈ n.inputFields) :
      n.Owns (Id.field n.name i.name) (.input i)
  | interface {t} (member : t ∈ n.interfaces) :
      n.Owns (Id.interface n.name t.name) (.relation t)
  | derivedType {t} (member : t ∈ n.derivedTypes) :
      n.Owns (Id.derivedType n.name t.name) (.relation t)
  | possibleType {t} (member : t ∈ n.possibleTypes) :
      n.Owns (Id.possibleType n.name t.name) (.relation t)

/-- All entities that belong to a type, with their identifiers. -/
def Node.entities (n : Node) : List (String × Entity) :=
  (n.id.text, .type n) :: ((n.fieldsById.map (fun p => (p.1, .field n.name p.2))
    ++ n.inputsById.map fun p => (p.1, .input p.2))
    ++ n.relationsById.map fun p => (p.1, .relation p.2))

variable {g : Graph} {n : Node} {key : String}

theorem Node.map_fst_entities (n : Node) : n.entities.map Prod.fst = n.identifiers := by
  simp [entities, identifiers, Function.comp_def]

theorem Node.mem_fieldsById {f : Field} :
    (key, f) ∈ n.fieldsById ↔ f ∈ n.fields ∧ Id.field n.name f.name = key := by
  simp only [fieldsById, List.mem_map, Prod.mk.injEq]
  refine ⟨?_, ?_⟩
  · rintro ⟨f, hf, rfl, rfl⟩
    exact ⟨hf, rfl⟩
  · rintro ⟨hf, rfl⟩
    exact ⟨f, hf, rfl, rfl⟩

theorem Node.mem_inputsById {i : Input} :
    (key, i) ∈ n.inputsById ↔
      (∃ f ∈ n.fields, i ∈ f.arguments ++ f.relayArguments
        ∧ Id.argument n.name f.name i.name = key)
      ∨ i ∈ n.inputFields ∧ Id.field n.name i.name = key := by
  simp only [inputsById, argumentsById, List.mem_append, List.mem_flatMap, List.mem_map,
    Prod.mk.injEq]
  refine ⟨?_, ?_⟩
  · rintro (⟨f, hf, a, ha, rfl, rfl⟩ | ⟨i, hi, rfl, rfl⟩)
    · exact .inl ⟨f, hf, ha, rfl⟩
    · exact .inr ⟨hi, rfl⟩
  · rintro (⟨f, hf, ha, rfl⟩ | ⟨hi, rfl⟩)
    · exact .inl ⟨f, hf, i, ha, rfl, rfl⟩
    · exact .inr ⟨i, hi, rfl, rfl⟩

theorem Node.mem_relationsById {t : TypeId} :
    (key, t) ∈ n.relationsById ↔
      (t ∈ n.interfaces ∧ Id.interface n.name t.name = key)
      ∨ (t ∈ n.derivedTypes ∧ Id.derivedType n.name t.name = key)
      ∨ t ∈ n.possibleTypes ∧ Id.possibleType n.name t.name = key := by
  have hmem : ∀ {ids : List TypeId} {relation : String → String},
      (key, t) ∈ ids.map (fun t => (relation t.name, t)) ↔ t ∈ ids ∧ relation t.name = key := by
    intro ids relation
    simp only [List.mem_map, Prod.mk.injEq]
    refine ⟨?_, ?_⟩
    · rintro ⟨t, ht, rfl, rfl⟩
      exact ⟨ht, rfl⟩
    · rintro ⟨ht, rfl⟩
      exact ⟨t, ht, rfl, rfl⟩
  rw [relationsById, List.mem_append, List.mem_append, hmem, hmem, hmem, or_assoc]

theorem Node.mem_entities {e : Entity} : (key, e) ∈ n.entities ↔ n.Owns key e := by
  simp only [entities, List.mem_cons, List.mem_append, List.mem_map, Prod.mk.injEq, Prod.exists]
  refine ⟨?_, ?_⟩
  · rintro (⟨rfl, rfl⟩ | (⟨_, f, h, rfl, rfl⟩ | ⟨_, i, h, rfl, rfl⟩) | ⟨_, t, h, rfl, rfl⟩)
    · exact .type
    · obtain ⟨hf, rfl⟩ := mem_fieldsById.1 h
      exact .field hf
    · rcases mem_inputsById.1 h with ⟨f, hf, hi, rfl⟩ | ⟨hi, rfl⟩
      · exact .argument hf hi
      · exact .inputField hi
    · rcases mem_relationsById.1 h with ⟨ht, rfl⟩ | ⟨ht, rfl⟩ | ⟨ht, rfl⟩
      · exact .interface ht
      · exact .derivedType ht
      · exact .possibleType ht
  · intro h
    cases h with
    | type => exact .inl ⟨rfl, rfl⟩
    | field hf => exact .inr (.inl (.inl ⟨_, _, mem_fieldsById.2 ⟨hf, rfl⟩, rfl, rfl⟩))
    | argument hf ha =>
        exact .inr (.inl (.inr ⟨_, _, mem_inputsById.2 (.inl ⟨_, hf, ha, rfl⟩), rfl, rfl⟩))
    | inputField hi =>
        exact .inr (.inl (.inr ⟨_, _, mem_inputsById.2 (.inr ⟨hi, rfl⟩), rfl, rfl⟩))
    | interface ht => exact .inr (.inr ⟨_, _, mem_relationsById.2 (.inl ⟨ht, rfl⟩), rfl, rfl⟩)
    | derivedType ht =>
        exact .inr (.inr ⟨_, _, mem_relationsById.2 (.inr (.inl ⟨ht, rfl⟩)), rfl, rfl⟩)
    | possibleType ht =>
        exact .inr (.inr ⟨_, _, mem_relationsById.2 (.inr (.inr ⟨ht, rfl⟩)), rfl, rfl⟩)

theorem Node.Owns.mem_identifiers {e : Entity} (h : n.Owns key e) : key ∈ n.identifiers := by
  rw [← n.map_fst_entities]
  exact List.mem_map_of_mem (mem_entities.2 h)

theorem owner?_mem (h : g.owner? key = some n) : n ∈ g.nodes := by
  obtain ⟨id, -, hn⟩ := Option.bind_eq_some_iff.1 h
  exact (mem_of_node? hn).1

theorem field?_mem {f : Field} (h : g.field? key = some (n, f)) :
    n ∈ g.nodes ∧ f ∈ n.fields ∧ Id.field n.name f.name = key := by
  obtain ⟨m, hm, h⟩ := Option.bind_eq_some_iff.1 h
  obtain ⟨f', hf', heq⟩ := Option.map_eq_some_iff.1 h
  cases heq
  exact ⟨owner?_mem hm, Node.mem_fieldsById.1 (mem_of_lookup hf')⟩

theorem input?_mem {i : Input} (h : g.input? key = some i) :
    ∃ n ∈ g.nodes, (key, i) ∈ n.inputsById := by
  obtain ⟨m, hm, h⟩ := Option.bind_eq_some_iff.1 h
  exact ⟨m, owner?_mem hm, mem_of_lookup h⟩

theorem relation?_mem {t : TypeId} (h : g.relation? key = some t) :
    ∃ n ∈ g.nodes, (key, t) ∈ n.relationsById := by
  obtain ⟨m, hm, h⟩ := Option.bind_eq_some_iff.1 h
  exact ⟨m, owner?_mem hm, mem_of_lookup h⟩

theorem entity?_owned {e : Entity} (h : g.entity? key = some e) :
    ∃ n ∈ g.nodes, n.Owns key e := by
  unfold entity? at h
  split at h
  · next n hn =>
      cases h
      obtain ⟨hmem, rfl⟩ := type?_eq_some hn
      exact ⟨n, hmem, .type⟩
  split at h
  · next n f hfound =>
      cases h
      obtain ⟨hmem, hf, rfl⟩ := field?_mem hfound
      exact ⟨n, hmem, .field hf⟩
  split at h
  · next i hi =>
      cases h
      obtain ⟨n, hmem, hi⟩ := input?_mem hi
      refine ⟨n, hmem, Node.mem_entities.1 ?_⟩
      simp only [Node.entities, List.mem_cons, List.mem_append, List.mem_map]
      exact .inr (.inl (.inr ⟨_, hi, rfl⟩))
  · obtain ⟨t, ht, rfl⟩ := Option.map_eq_some_iff.1 h
    obtain ⟨n, hmem, ht⟩ := relation?_mem ht
    refine ⟨n, hmem, Node.mem_entities.1 ?_⟩
    simp only [Node.entities, List.mem_cons, List.mem_append, List.mem_map]
    exact .inr (.inr ⟨_, ht, rfl⟩)

/-- Types are told apart by name, entities by identifier, and no type's name is empty. -/
structure Addressed (g : Graph) : Prop where
  resolved : g.Resolved
  named : g.WellNamed
  names : ∀ n ∈ g.nodes, n.name.toList ≠ []

namespace Addressed

variable (hg : g.Addressed)

include hg

theorem nodup_identifiers : g.identifiers.Nodup :=
  identifiers_nodup_of hg.resolved (fun n hn => (hg.named n hn).once)
    fun n hn => (hg.named n hn).plain

theorem relation_plain (hn : n ∈ g.nodes) :
    ∀ t ∈ n.interfaces ++ n.derivedTypes ++ n.possibleTypes, Plain t.name := by
  intro t ht
  have hid : t ∈ n.typeIds := Node.mem_typeIds.2 (.inr (.inr (by simpa [or_assoc] using ht)))
  obtain ⟨m, hm, rfl⟩ := hg.resolved.resolves t (mem_typeIds_of_node hn hid)
  exact (hg.named m hm).plain.name

/-- The type that holds an entity is read off its identifier, and is found. -/
theorem owner (hn : n ∈ g.nodes) (hkey : key ∈ n.identifiers) :
    Id.owner? key = some n.id ∧ g.owner? key = some n := by
  have howner : Id.owner? key = some n.id := by
    rw [Node.identifiers_eq] at hkey
    obtain ⟨⟨tag, path⟩, hp, rfl⟩ := List.mem_map.1 hkey
    obtain ⟨htag, hplain⟩ := Node.paths_plain (hg.named n hn).plain (hg.relation_plain hn) _ hp
    have hhead := Node.head_of_mem_paths hp
    cases path with
    | nil => cases hhead
    | cons name names =>
        cases hhead
        exact Id.owner?_join htag (hplain _ List.mem_cons_self) (hg.names n hn)
  refine ⟨howner, ?_⟩
  rw [Graph.owner?, howner]
  exact hg.resolved.node?_id hn

theorem nodup_entities (hn : n ∈ g.nodes) : (n.entities.map Prod.fst).Nodup := by
  rw [Node.map_fst_entities]
  exact (List.nodup_flatMap.1 hg.nodup_identifiers).1 n hn

/-- One identifier, one entity. -/
theorem owns_unique {m : Node} {e e' : Entity} (hn : n ∈ g.nodes) (hm : m ∈ g.nodes)
    (h : n.Owns key e) (h' : m.Owns key e') : e = e' := by
  have hsame := (hg.owner hn h.mem_identifiers).2.symm.trans (hg.owner hm h'.mem_identifiers).2
  cases hsame
  have hpair := List.inj_on_of_nodup_map (hg.nodup_entities hn) (Node.mem_entities.2 h)
    (Node.mem_entities.2 h') rfl
  exact (Prod.mk.inj hpair).2

theorem nodup_keys (hn : n ∈ g.nodes) :
    (n.fieldsById.map Prod.fst).Nodup ∧ (n.inputsById.map Prod.fst).Nodup
      ∧ (n.relationsById.map Prod.fst).Nodup := by
  have hnodup := hg.nodup_entities hn
  rw [Node.map_fst_entities, Node.identifiers, List.nodup_cons, List.nodup_append,
    List.nodup_append] at hnodup
  obtain ⟨-, ⟨hfields, hinputs, -⟩, hrelations, -⟩ := hnodup
  exact ⟨hfields, hinputs, hrelations⟩

theorem field?_of_mem {f : Field} (hn : n ∈ g.nodes) (hf : f ∈ n.fields) :
    g.field? (Id.field n.name f.name) = some (n, f) := by
  have howned := Node.Owns.field (n := n) hf
  rw [Graph.field?, (hg.owner hn howned.mem_identifiers).2, Option.bind_some,
    lookup_of_mem (hg.nodup_keys hn).1 (Node.mem_fieldsById.2 ⟨hf, rfl⟩), Option.map_some]

theorem input?_of_mem {i : Input} (hn : n ∈ g.nodes) (hi : (key, i) ∈ n.inputsById) :
    g.input? key = some i := by
  have hkey : key ∈ n.identifiers :=
    List.mem_cons_of_mem _ (List.mem_append_left _
      (List.mem_append_right _ (List.mem_map_of_mem hi)))
  rw [Graph.input?, (hg.owner hn hkey).2, Option.bind_some,
    lookup_of_mem (hg.nodup_keys hn).2.1 hi]

theorem relation?_of_mem {t : TypeId} (hn : n ∈ g.nodes) (ht : (key, t) ∈ n.relationsById) :
    g.relation? key = some t := by
  have hkey : key ∈ n.identifiers :=
    List.mem_cons_of_mem _ (List.mem_append_right _ (List.mem_map_of_mem ht))
  rw [Graph.relation?, (hg.owner hn hkey).2, Option.bind_some,
    lookup_of_mem (hg.nodup_keys hn).2.2 ht]

/-- A search finds something under every identifier, if not yet what it belongs to. -/
theorem entity?_isSome {e : Entity} (hn : n ∈ g.nodes) (h : n.Owns key e) :
    ∃ e', g.entity? key = some e' := by
  rw [← Option.isSome_iff_exists, entity?]
  split
  · rfl
  next hnotype =>
  split
  · rfl
  next hnofield =>
  split
  · rfl
  next hnoinput =>
  -- Each stage that would have found the entity has been passed without finding any.
  cases h with
  | type => rw [type?_text, hg.resolved.node?_id hn] at hnotype; cases hnotype
  | field hf => rw [hg.field?_of_mem hn hf] at hnofield; cases hnofield
  | argument hf ha =>
      rw [hg.input?_of_mem hn (Node.mem_inputsById.2 (.inl ⟨_, hf, ha, rfl⟩))] at hnoinput
      cases hnoinput
  | inputField hi =>
      rw [hg.input?_of_mem hn (Node.mem_inputsById.2 (.inr ⟨hi, rfl⟩))] at hnoinput
      cases hnoinput
  | interface ht =>
      rw [hg.relation?_of_mem hn (Node.mem_relationsById.2 (.inl ⟨ht, rfl⟩))]
      rfl
  | derivedType ht =>
      rw [hg.relation?_of_mem hn (Node.mem_relationsById.2 (.inr (.inl ⟨ht, rfl⟩)))]
      rfl
  | possibleType ht =>
      rw [hg.relation?_of_mem hn (Node.mem_relationsById.2 (.inr (.inr ⟨ht, rfl⟩)))]
      rfl

theorem entity?_eq_some {e : Entity} :
    g.entity? key = some e ↔ ∃ n ∈ g.nodes, n.Owns key e := by
  refine ⟨entity?_owned, ?_⟩
  rintro ⟨n, hn, h⟩
  obtain ⟨e', he'⟩ := hg.entity?_isSome hn h
  obtain ⟨m, hm, h'⟩ := entity?_owned he'
  rw [he', hg.owns_unique hn hm h h']

end Addressed

/-- So it is in all graphs that come of sources, however they are normalised. -/
theorem rewrite_addressed {sources : List Source} {d : Document} {sort : Bool} {g : Graph}
    (hload : Document.load sources = .ok (some d)) (hlink : ofDocument sort d = .ok g)
    (steps : List Rewrite) : (g.rewrite steps).Addressed := by
  have hnames := ofDocument_isName hload hlink
  have hnamed : g.WellNamed := fun n hn => ⟨ofDocument_namesOnce hlink n hn, (hnames n hn).plain⟩
  refine ⟨rewrite_resolved hlink steps, hnamed.rewrite steps, fun n hn => ?_⟩
  -- Normalisation renames no type.
  have hname : n.name ∈ g.nodes.map (·.name) :=
    (narrows_rewrite g steps).names ▸ List.mem_map_of_mem hn
  obtain ⟨m, hm, heq⟩ := List.mem_map.1 hname
  exact heq ▸ (hnames m hm).name.ne_nil

/--
In every graph that comes of sources, however it is normalised, a text leads to
an entity exactly if it is its identifier; the same holds of the searches for
fields alone and for arguments and input fields alone. And the type that an
identifier says it belongs to is the one that holds the entity.
-/
theorem lookups_exact {sources : List Source} {d : Document} {sort : Bool} {g₀ g : Graph}
    {steps : List Rewrite} (hload : Document.load sources = .ok (some d))
    (hlink : ofDocument sort d = .ok g₀) (hg : g = g₀.rewrite steps) (key : String) :
    (∀ e, g.entity? key = some e ↔ ∃ n ∈ g.nodes, n.Owns key e)
      ∧ (∀ n f, g.field? key = some (n, f) ↔
          n ∈ g.nodes ∧ f ∈ n.fields ∧ Id.field n.name f.name = key)
      ∧ (∀ i, g.input? key = some i ↔ ∃ n ∈ g.nodes,
          (∃ f ∈ n.fields, i ∈ f.arguments ++ f.relayArguments
            ∧ Id.argument n.name f.name i.name = key)
          ∨ i ∈ n.inputFields ∧ Id.field n.name i.name = key)
      ∧ ∀ n ∈ g.nodes, ∀ e, n.Owns key e → Id.owner? key = some n.id ∧ g.owner? key = some n := by
  have h : g.Addressed := hg ▸ rewrite_addressed hload hlink steps
  refine ⟨fun e => h.entity?_eq_some, fun n f => ⟨field?_mem, ?_⟩, fun i => ⟨fun hi => ?_, ?_⟩,
    fun n hn e he => h.owner hn he.mem_identifiers⟩
  · rintro ⟨hn, hf, rfl⟩
    exact h.field?_of_mem hn hf
  · obtain ⟨n, hn, hi⟩ := input?_mem hi
    exact ⟨n, hn, Node.mem_inputsById.1 hi⟩
  · rintro ⟨n, hn, hi⟩
    exact h.input?_of_mem hn (Node.mem_inputsById.2 hi)

theorem lookups_exact_crowded :
    ∃ d g₀, Document.load [crowdedSource] = .ok (some d) ∧ ofDocument false d = .ok g₀ ∧
      ∀ e, (g₀.rewrite [.normalizeRelay .standard]).entity? "ARGUMENT::Query::a::first" = some e ↔
        ∃ n ∈ (g₀.rewrite [.normalizeRelay .standard]).nodes,
          n.Owns "ARGUMENT::Query::a::first" e := by
  have hbuilt : (build .standard [crowdedSource]).toOption.join.isSome = true := by
    decide +kernel
  obtain ⟨g, hg⟩ := exists_build hbuilt
  obtain ⟨d, g₀, hload, hlink, -⟩ := build_ok hg
  exact ⟨d, g₀, hload, hlink,
    (lookups_exact hload hlink rfl "ARGUMENT::Query::a::first").1⟩

end Graph

end SchemaGraph
