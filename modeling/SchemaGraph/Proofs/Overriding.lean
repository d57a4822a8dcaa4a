import SchemaGraph.Proofs.Acceptance

/-!
# Which of the named roots counts

A schema definition or an extension is a block of entries, and blocks are told apart in
two ways. Within a block a later entry takes the place of an earlier one for the same
operation, and nothing is reported. Between blocks no entry takes the place of another:
if two of them name a type for one operation, there is no schema.

What is read keeps of a block only the types that count. So the entries are taken from
the grammar: `BlockForm` derives what a definition is together with its entries, and
derives from a text just what the text is read as.
-/

namespace SchemaGraph

open Sdl

variable {μ ν : Type}

namespace Sdl

/-- A schema definition or extension from its keyword on, with all its entries. -/
inductive EntriesForm : Form μ (List (Operation × String))
  | intro {m ts ts₁ directives entries rest}
      (directed : Star DirectiveForm ts directives ts₁)
      (braced : BracedForm RootEntryForm ts₁ entries rest) :
      EntriesForm (⟨.name "schema", m⟩ :: ts) entries rest

/-- A definition, with its entries if it is a schema definition or extension. -/
inductive BlockForm : Form μ (Definition μ × Option (List (Operation × String)))
  | schema {ts ts₁ description entries rest}
      (described : DescriptionForm ts description ts₁) (defined : EntriesForm ts₁ entries rest) :
      BlockForm ts (.schema (.ofEntries entries), some entries) rest
  | extendSchema {m ts entries rest} (defined : EntriesForm ts entries rest) :
      BlockForm (⟨.name "extend", m⟩ :: ts) (.extendSchema (.ofEntries entries), some entries) rest
  | other {ts d rest} (defined : DefinitionForm ts d rest) (schema : d.schemaRoots? = none)
      (extension : d.addedRoots? = none) : BlockForm ts (d, none) rest

/-- The types that a definition names for operations, if it is a schema definition or extension. -/
def Definition.roots? (d : Definition μ) : Option RootNames := d.schemaRoots?.or d.addedRoots?

theorem BlockForm.definition {ts rest : List (Lexeme μ)}
    {b : Definition μ × Option (List (Operation × String))} (h : BlockForm ts b rest) :
    DefinitionForm ts b.1 rest ∧ b.1.roots? = b.2.map .ofEntries := by
  cases h with
  | schema described defined =>
      obtain ⟨directed, braced⟩ := defined
      exact ⟨.schema described (.intro directed braced), rfl⟩
  | extendSchema defined =>
      obtain ⟨directed, braced⟩ := defined
      exact ⟨.extendSchema (.intro directed braced), rfl⟩
  | other defined schema extension =>
      exact ⟨defined, by rw [Definition.roots?, schema, extension]; rfl⟩

/-- Every definition is a block, or has no entries. -/
theorem DefinitionForm.exists_block {ts rest : List (Lexeme μ)} {d : Definition μ}
    (h : DefinitionForm ts d rest) : ∃ entries, BlockForm ts (d, entries) rest := by
  cases h with
  | schema described defined =>
      obtain ⟨directed, braced⟩ := defined
      exact ⟨_, .schema described (.intro directed braced)⟩
  | extendSchema defined =>
      obtain ⟨directed, braced⟩ := defined
      exact ⟨_, .extendSchema (.intro directed braced)⟩
  | directive described defined => exact ⟨none, .other (.directive described defined) rfl rfl⟩
  | extendType defined => exact ⟨none, .other (.extendType defined) rfl rfl⟩
  | type described defined => exact ⟨none, .other (.type described defined) rfl rfl⟩

theorem Definition.roots?_map (f : μ → ν) (d : Definition μ) : (d.map f).roots? = d.roots? := by
  cases d <;> rfl

theorem Star.blocks {ts rest : List (Lexeme μ)}
    {bs : List (Definition μ × Option (List (Operation × String)))}
    (h : Star BlockForm ts bs rest) :
    Star DefinitionForm ts (bs.map Prod.fst) rest
      ∧ (bs.map Prod.fst).filterMap Definition.roots?
        = (bs.filterMap Prod.snd).map RootNames.ofEntries := by
  induction h with
  | nil => exact ⟨.nil, rfl⟩
  | @cons ts mid rest b bs head _ ih =>
      obtain ⟨hdefinition, hroots⟩ := head.definition
      refine ⟨.cons hdefinition ih.1, ?_⟩
      rw [List.map_cons, List.filterMap_cons, List.filterMap_cons, hroots, ih.2]
      cases b.2 <;> rfl

theorem Star.exists_blocks {ts rest : List (Lexeme μ)} {ds : List (Definition μ)}
    (h : Star DefinitionForm ts ds rest) : ∃ bs, Star BlockForm ts bs rest := by
  induction h with
  | nil => exact ⟨[], .nil⟩
  | cons head _ ih =>
      obtain ⟨entries, hblock⟩ := head.exists_block
      obtain ⟨bs, hbs⟩ := ih
      exact ⟨_, .cons hblock hbs⟩

theorem RootNames.ofEntries_get (entries : List (Operation × String)) (o : Operation) :
    (ofEntries entries).get o = entries.reverse.lookup o := by
  cases o <;> rfl

end Sdl

/-- The definitions of a source, with the entries of those that have entries. -/
def Source.Blocked (s : Source)
    (bs : List (Definition Span × Option (List (Operation × String)))) : Prop :=
  Star BlockForm (lexemes s.text.toList) bs []

/-- The blocks of some sources: the entries of each schema definition and extension, in order. -/
def Blocks (sources : List Source) (blocks : List (List (Operation × String))) : Prop :=
  ∃ bss, List.Forall₂ Source.Blocked sources bss ∧ blocks = bss.flatten.filterMap Prod.snd

theorem rootDefinitions_perm (ds : List (Definition μ)) :
    (rootDefinitions ds).Perm (ds.filterMap Definition.roots?) := by
  induction ds with
  | nil => exact .refl _
  | cons d ds ih =>
      cases d with
      | schema roots => exact ih.cons roots
      | extendSchema roots => exact List.perm_middle.trans (ih.cons roots)
      | type | extendType | directive => exact ih

theorem exists_blocked {fs : List Fragment}
    (hderives : ∀ f ∈ fs, Derives (lexemes f.source.text.toList) f.definitions) :
    ∃ bss, List.Forall₂ Source.Blocked (fs.map Fragment.source) bss := by
  induction fs with
  | nil => exact ⟨[], .nil⟩
  | cons f fs ih =>
      obtain ⟨hf, hfs⟩ := List.forall_mem_cons.1 hderives
      obtain ⟨bs, hbs⟩ := Star.exists_blocks hf
      obtain ⟨bss, hbss⟩ := ih hfs
      exact ⟨bs :: bss, .cons hbs hbss⟩

/-- The fragments of a document name for operations what the blocks of their sources name. -/
theorem blocked_roots {fs : List Fragment}
    (hderives : ∀ f ∈ fs, Derives (lexemes f.source.text.toList) f.definitions)
    {bss : List (List (Definition Span × Option (List (Operation × String))))}
    (h : List.Forall₂ Source.Blocked (fs.map Fragment.source) bss) :
    (fs.flatMap Fragment.located).filterMap Definition.roots?
      = (bss.flatten.filterMap Prod.snd).map RootNames.ofEntries := by
  induction fs generalizing bss with
  | nil =>
      cases h
      rfl
  | cons f fs ih =>
      obtain ⟨hf, hfs⟩ := List.forall_mem_cons.1 hderives
      rw [List.map_cons] at h
      cases h with
      | @cons _ bs _ bss hbs hbss =>
          obtain ⟨hderived, hroots⟩ := Star.blocks hbs
          have hlocated : f.located.filterMap Definition.roots?
              = (bs.filterMap Prod.snd).map RootNames.ofEntries := by
            rw [← hroots, ← hf.unique hderived, Fragment.located, List.filterMap_map]
            exact List.filterMap_congr fun d _ => Definition.roots?_map _ d
          rw [List.flatMap_cons, List.filterMap_append, hlocated, ih hfs hbss, List.flatten_cons,
            List.filterMap_append, List.map_append]

/-- A block names a type for just the operations of its entries. -/
theorem lookup_reverse_ne_none {es : List (Operation × String)} {o : Operation} :
    es.reverse.lookup o ≠ none ↔ o ∈ es.map Prod.fst := by
  simp [List.lookup_eq_none_iff]

section

variable {blocks : List (List (Operation × String))} {roots : RootNames}
  (hroots : ∀ o, (roots.get o).toList = namedFor (blocks.map RootNames.ofEntries) o)

include hroots

theorem blocks_disjoint : blocks.Pairwise fun earlier later =>
    (earlier.map Prod.fst).Disjoint (later.map Prod.fst) := by
  have honce := exists_namesFor_iff.1 ⟨roots, hroots⟩
  rw [List.pairwise_map] at honce
  refine honce.imp fun {earlier later} h o hearlier hlater => ?_
  simp only [RootNames.ofEntries_get] at h
  exact lookup_reverse_ne_none.2 hearlier (h o (lookup_reverse_ne_none.2 hlater))

theorem get_eq_some_iff {o : Operation} {type : String} :
    roots.get o = some type ↔ ∃ es ∈ blocks, es.reverse.lookup o = some type := by
  rw [← Option.mem_toList, hroots, mem_namedFor]
  simp only [List.mem_map, exists_exists_and_eq_and, RootNames.ofEntries_get]

/-- Where no block names an operation twice, nothing takes the place of anything. -/
theorem blocks_nodup (hblocks : ∀ es ∈ blocks, (es.map Prod.fst).Nodup) :
    (blocks.flatten.map Prod.fst).Nodup ∧ ∀ e ∈ blocks.flatten, roots.get e.1 = some e.2 := by
  refine ⟨?_, fun e he => ?_⟩
  · rw [List.map_flatten, List.nodup_flatten, List.forall_mem_map, List.pairwise_map]
    exact ⟨hblocks, blocks_disjoint hroots⟩
  · obtain ⟨es, hes, he⟩ := List.mem_flatten.1 he
    have hnodup : (es.reverse.map Prod.fst).Nodup := by
      rw [List.map_reverse, List.nodup_reverse]
      exact hblocks es hes
    exact (get_eq_some_iff hroots).2
      ⟨es, hes, lookup_of_mem hnodup (List.mem_reverse.2 he)⟩

end

/--
The sources of a schema fall into blocks of entries, and no two blocks name a type for one
operation. Of the entries of a block for one operation it is the last whose type is the
root, so entries that stand before it are overridden. Where no block names an operation
twice, each operation is named once, and the type that is named is its root.
-/
theorem Schema.ofDocument_blocks {sources : List Source} {sort : Bool} {d : Document} {s : Schema}
    (hload : Document.load sources = .ok (some d)) (hs : Schema.ofDocument sort d = .ok s) :
    (∃ blocks, Blocks sources blocks) ∧ ∀ blocks, Blocks sources blocks →
      (blocks.Pairwise fun earlier later =>
        (earlier.map Prod.fst).Disjoint (later.map Prod.fst))
      ∧ (blocks ≠ [] → ∀ o type, s.rootNames.get o = some type ↔
        ∃ es ∈ blocks, es.reverse.lookup o = some type)
      ∧ ((∀ es ∈ blocks, (es.map Prod.fst).Nodup) →
        (blocks.flatten.map Prod.fst).Nodup
          ∧ ∀ e ∈ blocks.flatten, s.rootNames.get e.1 = some e.2) := by
  obtain ⟨hsources, hderives⟩ := Document.load_ok hload
  rw [← hsources]
  refine ⟨?_, fun blocks hblocks => ?_⟩
  · obtain ⟨bss, hbss⟩ := exists_blocked hderives
    exact ⟨_, bss, hbss, rfl⟩
  obtain ⟨bss, hbss, rfl⟩ := hblocks
  have hnamed : d.definitions.filterMap Definition.roots?
      = (bss.flatten.filterMap Prod.snd).map RootNames.ofEntries := blocked_roots hderives hbss
  generalize bss.flatten.filterMap Prod.snd = blocks at hnamed
  by_cases hnone : blocks = []
  · simp [hnone]
  have hroots : ∀ o, (s.rootNames.get o).toList
      = namedFor (blocks.map RootNames.ofEntries) o := by
    obtain ⟨s', hs', rfl⟩ := Except.map_ok.1 hs
    have hmakes := (ofDefinitions_iff.1 hs').roots.perm (.refl _)
      (rootDefinitions_perm d.definitions).symm
    rw [hnamed, NamesRoots, if_neg (by simpa using hnone)] at hmakes
    cases sort <;> exact hmakes
  exact ⟨blocks_disjoint hroots, fun _ o type => get_eq_some_iff hroots, blocks_nodup hroots⟩

/-- One block with two entries for one operation, of which the first is overridden. -/
def twiceSource : Source :=
  ⟨"twice", "schema\x7bquery:A query:B\x7dtype A\x7bx:Int\x7dtype B\x7by:Int\x7d"⟩

theorem blocks_twice : Blocks [twiceSource] [[(.query, "A"), (.query, "B")]] := by
  have hlexemes : lexemes twiceSource.text.toList
      = [⟨.name "schema", ⟨0, 6⟩⟩, ⟨.punct .braceOpen, ⟨6, 7⟩⟩, ⟨.name "query", ⟨7, 12⟩⟩,
        ⟨.punct .colon, ⟨12, 13⟩⟩, ⟨.name "A", ⟨13, 14⟩⟩, ⟨.name "query", ⟨15, 20⟩⟩,
        ⟨.punct .colon, ⟨20, 21⟩⟩, ⟨.name "B", ⟨21, 22⟩⟩, ⟨.punct .braceClose, ⟨22, 23⟩⟩,
        ⟨.name "type", ⟨23, 27⟩⟩, ⟨.name "A", ⟨28, 29⟩⟩, ⟨.punct .braceOpen, ⟨29, 30⟩⟩,
        ⟨.name "x", ⟨30, 31⟩⟩, ⟨.punct .colon, ⟨31, 32⟩⟩, ⟨.name "Int", ⟨32, 35⟩⟩,
        ⟨.punct .braceClose, ⟨35, 36⟩⟩, ⟨.name "type", ⟨36, 40⟩⟩, ⟨.name "B", ⟨41, 42⟩⟩,
        ⟨.punct .braceOpen, ⟨42, 43⟩⟩, ⟨.name "y", ⟨43, 44⟩⟩, ⟨.punct .colon, ⟨44, 45⟩⟩,
        ⟨.name "Int", ⟨45, 48⟩⟩, ⟨.punct .braceClose, ⟨48, 49⟩⟩] := by
    decide +kernel
  have hfield : ∀ {field m m' m''} {rest : List (Lexeme Span)}, FieldForm
      (⟨.name field, m⟩ :: ⟨.punct .colon, m'⟩ :: ⟨.name "Int", m''⟩ :: rest)
      ⟨none, field, [], .named "Int", [], m⟩ rest := .intro .absent .absent .named .nil
  have htype : ∀ {name field m₀ m₁ m₂ m₃ m₄ m₅ m₆} {rest : List (Lexeme Span)}, ∃ d, BlockForm
      (⟨.name "type", m₀⟩ :: ⟨.name name, m₁⟩ :: ⟨.punct .braceOpen, m₂⟩ :: ⟨.name field, m₃⟩
        :: ⟨.punct .colon, m₄⟩ :: ⟨.name "Int", m₅⟩ :: ⟨.punct .braceClose, m₆⟩ :: rest)
      (d, none) rest := by
    intro name field m₀ m₁ m₂ m₃ m₄ m₅ m₆ rest
    have hfields : BracedForm FieldForm (⟨.punct .braceOpen, m₂⟩ :: ⟨.name field, m₃⟩
        :: ⟨.punct .colon, m₄⟩ :: ⟨.name "Int", m₅⟩ :: ⟨.punct .braceClose, m₆⟩ :: rest) [_] rest :=
      .present (.cons hfield .nil)
    have hbody := BodyForm.object .absent .nil hfields
    have htypeDef := @TypeDefForm.intro Span none .object m₀ name m₁ _ _ _ hbody
    exact ⟨_, .other (.type .absent htypeDef) rfl rfl⟩
  have hentry : ∀ {type m m' m''} {rest : List (Lexeme Span)}, RootEntryForm
      (⟨.name "query", m⟩ :: ⟨.punct .colon, m'⟩ :: ⟨.name type, m''⟩ :: rest)
      (.query, type) rest := by
    intro type m m' m'' rest
    exact @RootEntryForm.intro _ .query type m m' m'' rest
  obtain ⟨second, hsecond⟩ := htype
  obtain ⟨third, hthird⟩ := htype
  have hblocked : twiceSource.Blocked [(.schema (.ofEntries [(.query, "A"), (.query, "B")]),
      some [(.query, "A"), (.query, "B")]), (second, none), (third, none)] := by
    rw [Source.Blocked, hlexemes]
    apply Star.cons
    case head =>
      apply BlockForm.schema .absent
      apply EntriesForm.intro .nil
      apply EnclosedForm.present
      exact .cons hentry (.cons hentry .nil)
    case tail => exact .cons hsecond (.cons hthird .nil)
  exact ⟨[_], .cons hblocked .nil, rfl⟩

theorem Schema.ofDocument_blocks_twice :
    ∃ d s, Document.load [twiceSource] = .ok (some d) ∧ Schema.ofDocument false d = .ok s
      ∧ Blocks [twiceSource] [[(.query, "A"), (.query, "B")]]
      ∧ s.rootNames.get .query = some "B" := by
  have hbuilt : (Document.load [twiceSource]).toOption.join.any (fun d =>
      (Schema.ofDocument false d).toOption.isSome) = true := by
    decide +kernel
  obtain ⟨d, hload, hd⟩ := Except.exists_some_of_any hbuilt
  obtain ⟨s, hs⟩ := Except.exists_ok hd
  obtain ⟨-, hlast, -⟩ := (ofDocument_blocks hload hs).2 _ blocks_twice
  exact ⟨d, s, hload, hs, blocks_twice,
    (hlast (by simp) .query "B").2 ⟨_, List.mem_singleton_self _, rfl⟩⟩

end SchemaGraph
