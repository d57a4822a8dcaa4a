import SchemaGraph.Proofs.Linking
import SchemaGraph.Proofs.Reading
import SchemaGraph.Proofs.Spans

/-!
# Where names come from

Every name in a graph was once a name in a text, or it is that of a built-in
scalar. So what holds of all names that the lexer finds holds of all names in a
graph, whatever has been merged, sorted or moved in between: it is what the lexer
takes for a name. Two things about such names matter to identifiers. None is
empty, and none has a colon in it, since no name starts or goes on with one.

The way from the text to the tree follows the grammar. A rule passes lexemes on
to the rules under it as a suffix of its own, so a property of all names in what
it was given is still one of all names in what it passes on.
-/

namespace SchemaGraph

open Sdl

variable {μ ν : Type}

/-- Whether a name has no colon in it. -/
def Plain (name : String) : Prop := ':' ∉ name.toList

instance (name : String) : Decidable (Plain name) :=
  inferInstanceAs (Decidable (':' ∉ name.toList))

/-- Whether some characters are such as the lexer takes for a name. -/
def Sdl.isNameText : List Char → Bool
  | [] => false
  | c :: cs => isNameStart c && cs.all isNameRest

/-- Whether the lexer takes a text for a name. -/
def IsName (name : String) : Prop := isNameText name.toList = true

instance (name : String) : Decidable (IsName name) :=
  inferInstanceAs (Decidable (isNameText name.toList = true))

theorem IsName.exists_cons {name : String} (h : IsName name) :
    ∃ c cs, name.toList = c :: cs ∧ isNameStart c = true ∧ ∀ d ∈ cs, isNameRest d = true := by
  unfold IsName isNameText at h
  split at h
  · cases h
  · next c cs hname =>
      obtain ⟨hstart, hrest⟩ := Bool.and_eq_true_iff.1 h
      exact ⟨c, cs, hname, hstart, List.all_eq_true.1 hrest⟩

theorem IsName.plain {name : String} (h : IsName name) : Plain name := by
  obtain ⟨c, cs, hname, hstart, hrest⟩ := h.exists_cons
  rw [Plain, hname, List.mem_cons, not_or]
  refine ⟨?_, ?_⟩
  · rintro rfl
    exact absurd hstart (by decide)
  · intro hmem
    exact absurd (hrest ':' hmem) (by decide)

theorem IsName.ne_nil {name : String} (h : IsName name) : name.toList ≠ [] := by
  obtain ⟨c, cs, hname, -, -⟩ := h.exists_cons
  rw [hname]
  exact List.cons_ne_nil c cs

/-- Whether a property holds of all names among some lexemes. -/
def NamesHold (P : String → Prop) (ts : List (Lexeme μ)) : Prop :=
  ∀ l ∈ ts, ∀ name, l.token = .name name → P name

theorem NamesHold.suffix {P : String → Prop} {ts us : List (Lexeme μ)} (h : NamesHold P ts)
    (hus : us <:+ ts) : NamesHold P us := fun l hl => h l (hus.subset hl)

theorem NamesHold.head {P : String → Prop} {name : String} {m : μ} {ts : List (Lexeme μ)}
    (h : NamesHold P (⟨.name name, m⟩ :: ts)) : P name := h _ List.mem_cons_self name rfl

namespace Sdl

/-- The only pieces that are names are those that start like one. -/
theorem Piece.step_name {c : Char} {cs : List Char} {name : String}
    (h : (Piece.step c cs).token = some (.name name)) :
    isNameStart c = true ∧ name = String.ofList (c :: cs.takeWhile isNameRest) := by
  unfold Piece.step at h
  split at h
  · cases h
  split at h
  · cases h
  split at h
  · next hstart =>
      simp only [run, Option.some.injEq, Token.name.injEq] at h
      exact ⟨hstart, h.symm⟩
  split at h
  · unfold string at h
    split at h
    · split at h <;> cases h
    · cases h
    · split at h <;> cases h
  split at h
  · unfold directive at h
    split at h
    · split at h <;> cases h
    · cases h
  split at h
  · cases h
  · unfold number at h
    split at h
    · dsimp only at h
      split at h <;> cases h
    · cases h

theorem Piece.step_isName {c : Char} {cs : List Char} {name : String}
    (h : (Piece.step c cs).token = some (.name name)) : IsName name := by
  obtain ⟨hstart, rfl⟩ := Piece.step_name h
  have hrest := List.all_takeWhile (p := isNameRest) (l := cs)
  rw [IsName, String.toList_ofList, isNameText, hstart, hrest, Bool.true_and]

theorem pieces_isName {cs : List Char} {p : Piece} {name : String} (hp : p ∈ pieces cs)
    (h : p.token = some (.name name)) : IsName name := by
  obtain ⟨c, cs, rfl⟩ := exists_step_of_mem_pieces hp
  exact Piece.step_isName h

theorem lexemes_isName (text : List Char) : NamesHold IsName (lexemes text) := by
  intro l hl name hname
  obtain ⟨before, found, after, hcuts⟩ := exists_cut hl
  exact pieces_isName hcuts.piece (congrArg some hname)

end Sdl

/-- Whether a property holds of the names of a field and of its arguments. -/
def Sdl.FieldDef.NamesHold (P : String → Prop) (f : FieldDef μ) : Prop :=
  P f.name ∧ ∀ a ∈ f.arguments, P a.name

/-- Whether a property holds of the names of all fields, arguments and input fields. -/
structure Sdl.TypeBody.NamesHold (P : String → Prop) (b : TypeBody μ) : Prop where
  fields : ∀ f ∈ b.fields, f.NamesHold P
  inputFields : ∀ i ∈ b.inputFields, P i.name

/-- Whether a property holds of the name of a type and of those in it. -/
structure Sdl.TypeDef.NamesHold (P : String → Prop) (d : TypeDef μ) : Prop where
  name : P d.name
  body : d.body.NamesHold P

namespace Sdl

variable {α : Type} {P : String → Prop} {ts rest : List (Lexeme μ)}

/-- What each item of a repetition has from the lexemes it starts with, all of them have. -/
theorem Star.forall_mem {R : Form μ α} {as : List α} {Q : α → Prop} (h : Star R ts as rest)
    (hts : SchemaGraph.NamesHold P ts) (hR : ∀ {us a mid}, R us a mid → After mid us)
    (hQ : ∀ {us a mid}, R us a mid → SchemaGraph.NamesHold P us → Q a) : ∀ a ∈ as, Q a := by
  induction h with
  | nil => simp
  | cons head _ ih =>
      intro a ha
      rcases List.mem_cons.1 ha with rfl | ha
      · exact hQ head hts
      · exact ih (hts.suffix (hR head).suffix) a ha

theorem EnclosedForm.forall_mem {opening close : Punctuator} {R : Form μ α} {as : List α}
    {Q : α → Prop} (h : EnclosedForm opening close R ts as rest)
    (hts : SchemaGraph.NamesHold P ts) (hR : ∀ {us a mid}, R us a mid → After mid us)
    (hQ : ∀ {us a mid}, R us a mid → SchemaGraph.NamesHold P us → Q a) : ∀ a ∈ as, Q a := by
  cases h with
  | absent => simp
  | present items => exact items.forall_mem (hts.suffix (List.suffix_cons _ _)) hR hQ

theorem InputForm.name_holds {d : InputDef μ} (h : InputForm ts d rest)
    (hts : SchemaGraph.NamesHold P ts) : P d.name := by
  cases h with
  | intro described => exact (hts.suffix described.after.suffix).head

theorem FieldForm.names_hold {d : FieldDef μ} (h : FieldForm ts d rest)
    (hts : SchemaGraph.NamesHold P ts) : d.NamesHold P := by
  cases h with
  | intro described argued =>
      have hname := hts.suffix described.after.suffix
      refine ⟨hname.head, ?_⟩
      exact argued.forall_mem (hname.suffix (List.suffix_cons _ _)) (fun h => h.shorter.1)
        InputForm.name_holds

theorem BodyForm.names_hold {kind : TypeKind} {b : TypeBody μ} (h : BodyForm kind ts b rest)
    (hts : SchemaGraph.NamesHold P ts) : b.NamesHold P := by
  cases h with
  | scalar | union | enum =>
      constructor <;> simp [TypeBody.fields, TypeBody.inputFields]
  | object implementing directed braced | interface implementing directed braced =>
      have hbraced := hts.suffix (directed.directive_after.trans implementing.after).suffix
      exact ⟨braced.forall_mem hbraced (fun h => h.shorter.1) FieldForm.names_hold,
        by simp [TypeBody.inputFields]⟩
  | input directed braced =>
      have hbraced := hts.suffix directed.directive_after.suffix
      exact ⟨by simp [TypeBody.fields],
        braced.forall_mem hbraced (fun h => h.shorter.1) InputForm.name_holds⟩

theorem TypeDefForm.names_hold {description : Option String} {d : TypeDef μ}
    (h : TypeDefForm description ts d rest) (hts : SchemaGraph.NamesHold P ts) :
    d.NamesHold P := by
  cases h with
  | intro bodied =>
      have hname := hts.suffix (List.suffix_cons _ _)
      exact ⟨hname.head, bodied.names_hold (hname.suffix (List.suffix_cons _ _))⟩

/-- Whether a property holds of all names in what a definition declares or extends. -/
def Definition.NamesHold (P : String → Prop) (d : Definition μ) : Prop :=
  ∀ t, d.type? = some t ∨ d.extension? = some t → t.NamesHold P

theorem DefinitionForm.names_hold {d : Definition μ} (h : DefinitionForm ts d rest)
    (hts : SchemaGraph.NamesHold P ts) : d.NamesHold P := by
  cases h with
  | schema | directive | extendSchema =>
      intro t ht
      simp [Definition.type?, Definition.extension?] at ht
  | extendType defined =>
      intro t ht
      simp only [Definition.type?, Definition.extension?, reduceCtorEq, Option.some.injEq,
        false_or] at ht
      exact ht ▸ defined.names_hold (hts.suffix (List.suffix_cons _ _))
  | type described defined =>
      intro t ht
      simp only [Definition.type?, Definition.extension?, reduceCtorEq, Option.some.injEq,
        or_false] at ht
      exact ht ▸ defined.names_hold (hts.suffix described.after.suffix)

theorem Derives.names_hold {ds : List (Definition μ)} (h : Derives ts ds)
    (hts : SchemaGraph.NamesHold P ts) : ∀ d ∈ ds, d.NamesHold P :=
  Star.forall_mem h hts (fun h => h.shorter.1) DefinitionForm.names_hold

theorem FieldDef.NamesHold.map {f : FieldDef μ} (h : f.NamesHold P) (g : μ → ν) :
    (f.map g).NamesHold P := by
  refine ⟨h.1, fun a ha => ?_⟩
  obtain ⟨b, hb, rfl⟩ := List.mem_map.1 ha
  exact h.2 b hb

theorem TypeBody.NamesHold.map {b : TypeBody μ} (h : b.NamesHold P) (g : μ → ν) :
    (b.map g).NamesHold P := by
  refine ⟨?_, ?_⟩
  · intro f hf
    rw [TypeBody.fields_map] at hf
    obtain ⟨f', hf', rfl⟩ := List.mem_map.1 hf
    exact (h.fields f' hf').map g
  · intro i hi
    rw [TypeBody.inputFields_map] at hi
    obtain ⟨i', hi', rfl⟩ := List.mem_map.1 hi
    exact h.inputFields i' hi'

theorem TypeDef.NamesHold.map {d : TypeDef μ} (h : d.NamesHold P) (g : μ → ν) :
    (d.map g).NamesHold P := ⟨h.name, h.body.map g⟩

theorem TypeBody.NamesHold.merge {b c : TypeBody μ} (hb : b.NamesHold P) (hc : c.NamesHold P) :
    (b.merge c).NamesHold P := by
  by_cases hkind : c.kind = b.kind
  · refine ⟨?_, ?_⟩
    · rw [TypeBody.fields_merge hkind]
      exact List.forall_mem_append.2 ⟨hb.fields, hc.fields⟩
    · rw [TypeBody.inputFields_merge hkind]
      exact List.forall_mem_append.2 ⟨hb.inputFields, hc.inputFields⟩
  · have hsame : b.merge c = b := by
      cases b <;> cases c <;> first | rfl | exact absurd rfl hkind
    rw [hsame]
    exact hb

theorem TypeBody.NamesHold.sorted {b : TypeBody μ} (h : b.NamesHold P) : b.sorted.NamesHold P := by
  refine ⟨?_, ?_⟩
  · intro f hf
    obtain ⟨f', hf', rfl⟩ := TypeBody.mem_fields_sorted hf
    refine ⟨(h.fields f' hf').1, fun a ha => (h.fields f' hf').2 a ?_⟩
    exact (sortOn_perm _ _).mem_iff.1 ha
  · intro i hi
    cases b with
    | scalar | object | interface | union | enum =>
        simp [TypeBody.sorted, TypeBody.inputFields] at hi
    | input fields => exact h.inputFields i ((sortOn_perm _ _).mem_iff.1 hi)

end Sdl

theorem extendBy_names_hold {P : String → Prop} {es : List (TypeDef Location)} {t : SchemaType}
    (ht : t.NamesHold P) (hes : ∀ e ∈ es, e.NamesHold P) : (extendBy es t).NamesHold P := by
  induction es generalizing t with
  | nil => exact ht
  | cons e es ih =>
      have he := hes e List.mem_cons_self
      exact ih ⟨ht.name, ht.body.merge (he.body.map some)⟩
        fun e' he' => hes e' (List.mem_cons_of_mem _ he')

/-- What holds of all names in some definitions, and of the scalars, holds of all in a schema. -/
theorem ofDefinitions_names_hold {P : String → Prop} {ds : List (Definition Location)} {s : Schema}
    (h : Schema.ofDefinitions ds = .ok s) (hds : ∀ d ∈ ds, d.NamesHold P)
    (hscalars : ∀ name ∈ builtinScalars, P name) : ∀ t ∈ s.types, t.NamesHold P := by
  obtain ⟨htypes, -, -⟩ := ofDefinitions_types h
  intro t ht
  rw [htypes] at ht
  rcases List.mem_append.1 ht with ht | ht
  · obtain ⟨d, hd, rfl⟩ := List.mem_map.1 ht
    obtain ⟨d', hd', hdeclared⟩ := List.mem_filterMap.1 hd
    refine extendBy_names_hold ((hds d' hd' d (.inl hdeclared)).map some) fun e he => ?_
    obtain ⟨e', he', hextension⟩ := List.mem_filterMap.1 (List.mem_filter.1 he).1
    exact hds e' he' e (.inr hextension)
  · obtain ⟨name, hname, rfl⟩ := List.mem_map.1 ht
    refine ⟨hscalars name (List.mem_filter.1 hname).1, ?_⟩
    constructor <;> simp [builtinScalar, TypeBody.fields, TypeBody.inputFields]

theorem Schema.sorted_names_hold {P : String → Prop} {s : Schema}
    (h : ∀ t ∈ s.types, t.NamesHold P) : ∀ t ∈ s.sorted.types, t.NamesHold P := by
  intro t ht
  obtain ⟨t', ht', rfl⟩ := List.mem_map.1 (s.sorted_types_perm.mem_iff.1 ht)
  exact ⟨(h t' ht').name, (h t' ht').body.sorted⟩

/-- Whether a property holds of the name of a type and of those in it. -/
structure Graph.Node.NamesHold (P : String → Prop) (n : Node) : Prop where
  name : P n.name
  fields : ∀ f ∈ n.fields, P f.name ∧ ∀ a ∈ f.arguments ++ f.relayArguments, P a.name
  inputFields : ∀ i ∈ n.inputFields, P i.name

theorem Sdl.TypeDef.NamesHold.linked {P : String → Prop} {s : Schema} {t : SchemaType}
    (h : t.NamesHold P) : (Catalog.Entry.ofType s t).linked.NamesHold P := by
  by_cases hbuiltin : t.name ∈ builtinScalars
  · rw [Catalog.Entry.ofType_builtin hbuiltin]
    refine ⟨h.name, ?_, ?_⟩ <;> simp [Catalog.Entry.linked, Catalog.Entry.bare]
  · rw [Catalog.Entry.ofType_eq hbuiltin]
    refine ⟨h.name, fun f hf => ?_, fun i hi => ?_⟩
    · simp only [Catalog.Entry.linked, List.map_map, List.mem_map] at hf
      obtain ⟨f', hf', rfl⟩ := hf
      refine ⟨(h.body.fields f' hf').1, fun a ha => ?_⟩
      simp only [Function.comp_apply, Catalog.Field.linked, Catalog.Field.ofDef, List.map_map,
        List.append_nil, List.mem_map] at ha
      obtain ⟨a', ha', rfl⟩ := ha
      exact (h.body.fields f' hf').2 a' ha'
    · simp only [Catalog.Entry.linked, List.map_map, List.mem_map] at hi
      obtain ⟨i', hi', rfl⟩ := hi
      exact h.body.inputFields i' hi'

theorem Sdl.Definition.NamesHold.map {P : String → Prop} {d : Definition μ} (h : d.NamesHold P)
    (g : μ → ν) : (d.map g).NamesHold P := by
  intro t ht
  cases d with
  | schema | extendSchema | directive =>
      simp [Definition.map, Definition.type?, Definition.extension?] at ht
  | type d =>
      simp only [Definition.map, Definition.type?, Definition.extension?, reduceCtorEq,
        Option.some.injEq, or_false] at ht
      exact ht ▸ (h d (.inl rfl)).map g
  | extendType e =>
      simp only [Definition.map, Definition.type?, Definition.extension?, reduceCtorEq,
        Option.some.injEq, false_or] at ht
      exact ht ▸ (h e (.inr rfl)).map g

theorem Document.definitions_isName {sources : List Source} {doc : Document}
    (h : Document.load sources = .ok (some doc)) : ∀ d ∈ doc.definitions, d.NamesHold IsName := by
  obtain ⟨-, hderives⟩ := Document.load_ok h
  intro d hd
  obtain ⟨f, hf, hd⟩ := List.mem_flatMap.1 hd
  obtain ⟨d', hd', rfl⟩ := List.mem_map.1 hd
  exact ((hderives f hf).names_hold (lexemes_isName _) d' hd').map _

/-- In a graph of sources all names are such as the lexer finds. -/
theorem Graph.ofDocument_isName {sources : List Source} {d : Document} {sort : Bool} {g : Graph}
    (hload : Document.load sources = .ok (some d)) (hlink : ofDocument sort d = .ok g) :
    ∀ n ∈ g.nodes, n.NamesHold IsName := by
  obtain ⟨s, hs, hlink⟩ := ofDocument_ok hlink
  have hnames : ∀ t ∈ s.types, t.NamesHold IsName := by
    obtain ⟨s', hs', rfl⟩ := Except.map_ok.1 hs
    have h := ofDefinitions_names_hold hs' (Document.definitions_isName hload) (by decide)
    cases sort with
    | false => exact h
    | true => exact Schema.sorted_names_hold h
  intro n hn
  rw [(Catalog.link_ok hlink).1, Catalog.ofSchema, List.map_map] at hn
  obtain ⟨t, ht, rfl⟩ := List.mem_map.1 hn
  exact (hnames t (List.mem_filter.1 ht).1).linked

theorem Graph.Node.NamesHold.plain {n : Node} (h : n.NamesHold IsName) : n.NamesHold Plain :=
  ⟨h.name.plain, fun f hf => ⟨(h.fields f hf).1.plain, fun a ha => ((h.fields f hf).2 a ha).plain⟩,
    fun i hi => (h.inputFields i hi).plain⟩

end SchemaGraph
