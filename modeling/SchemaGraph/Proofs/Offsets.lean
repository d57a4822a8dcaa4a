import SchemaGraph.Graph.Build
import SchemaGraph.Proofs.Advancing
import SchemaGraph.Proofs.Lookahead
import SchemaGraph.Proofs.Pinpointing
import SchemaGraph.Proofs.Sites

/-!
# No text is cut wrong

From a text to a graph, offsets of bytes come up in three places: while the text falls
into lexemes, when the place of a definition is told by line and column, and when a report
shows what it is about. Each stage is told here with the cuts that may fail in it, and is
found to come out as the stage itself, whatever the sources are and whatever they are read
as. So no text can make a cut fail.

Offsets go from the first place to the other two by the marks of lexemes alone. A reader
keeps marks of lexemes that it has taken, and fails at a lexeme that it was given or at
the end of the text. So each place and each excerpt that is asked for is one of the
places where the text can be cut: where a lexeme starts, where it stops, and the end.
-/

namespace SchemaGraph

open Text Sdl

/-- The forms that a text can be read as on their own. -/
inductive Entry where
  | document
  | type
  | value
  | directive
  | directiveDefinition
  | schema
  | field
  | inputValue
  | enumValue

namespace Entry

/-- What is read. -/
def Result : Entry → Type
  | document => List (Definition Span)
  | type => TypeExpr
  | value => Value
  | directive => Directive
  | directiveDefinition => String
  | schema => RootNames
  | field => FieldDef Span
  | inputValue => InputDef Span
  | enumValue => EnumValueDef Span

/-- The reader of the form. -/
def reader : (e : Entry) → Reader Span e.Result
  | document => Sdl.definitions
  | type => Sdl.typeExpr
  | value => Sdl.value
  | directive => Sdl.directive
  | directiveDefinition => Sdl.directiveDefinition
  | schema => Sdl.schemaRoots
  | field => Sdl.fieldDef
  | inputValue => Sdl.inputDef
  | enumValue => Sdl.enumValueDef

/-- The sites whose marks are kept with what is read; what has no type around it is in none. -/
def sites : (e : Entry) → e.Result → List (Site Span)
  | document, ds => ds.flatMap Definition.sites
  | field, d => d.sites ""
  | inputValue, d => [d.site (.input "")]
  | enumValue, d => [d.site ""]
  | type, _ | value, _ | directive, _ | directiveDefinition, _ | schema, _ => []

end Entry

namespace Source

variable (s : Source)

/-- As `location`. -/
def location? (offset : Nat) : Option Location :=
  Location.ofOffset? s.path s.text.toList offset

/-- As `report`. -/
def report? (u : Unexpected Span) : Option Report := do
  let text := s.text.toList
  let length := byteLength text
  let span := match u.found with
    | some t => t.mark
    | none => ⟨length, length⟩
  let shown ← excerpt? text span
  let location ← s.location? span.start
  return ⟨.parse, u.message, some location, some shown⟩

/-- As `read`. -/
def read? {α : Type} (reader : Reader Span α) : Option (Except Report α) := do
  match reader (← lexemes? s.text.toList) with
  | .ok (a, _) => return .ok a
  | .error u => return .error (← s.report? u)

end Source

namespace Fragment

/-- As `ofSource`. -/
def ofSource? (s : Source) : Option (Except Report Fragment) := do
  match ← s.read? Sdl.definitions with
  | .ok ds => return .ok ⟨s, ds⟩
  | .error r => return .error r

/-- The locations of all that a fragment declares. -/
def locations? (f : Fragment) : Option (List Location) :=
  f.sites.mapM fun x => f.source.location? x.mark.start

end Fragment

namespace Document

/-- As `readAll`. -/
def readAll? : List Source → Option (Except Report (List Fragment))
  | [] => some (.ok [])
  | s :: rest => do
    match ← Fragment.ofSource? s with
    | .error r => return .error r
    | .ok f =>
      match ← readAll? rest with
      | .error r => return .error r
      | .ok fs => return .ok (f :: fs)

/-- As `load`. -/
def load? : List Source → Option (Except Report (Option Document))
  | [] => some (.ok none)
  | s :: rest => do
    match ← readAll? (s :: rest) with
    | .error r => return .error r
    | .ok fs => return .ok (some ⟨fs⟩)

end Document

namespace Graph

/-- As `dropDeprecated`: for each type the fields that go are counted. -/
def dropDeprecated? (g : Graph) : Option Graph := do
  let _ ← g.nodes.mapM fun n =>
    sub? n.fields.length (n.fields.filter (·.deprecation.isNone)).length
  return g.dropDeprecated

/-- As `normalize`. -/
def normalize? (options : Options) (g : Graph) : Option Graph :=
  let collapsed := if options.skipRelayPattern then g.normalizeRelay options.relay else g
  if options.skipDeprecatedFields then collapsed.dropDeprecated? else some collapsed

/-- As `build`: all that has been read is located before the graph is made of it. -/
def build? (options : Options) (sources : List Source) : Option (Except Report (Option Graph)) := do
  match ← Document.load? sources with
  | .error r => return .error r
  | .ok none => return .ok none
  | .ok (some d) =>
    let _ ← d.fragments.mapM Fragment.locations?
    match ofDocument options.sortByAlphabet d with
    | .error r => return .error r
    | .ok g => return .ok (some (← g.normalize? options))

end Graph

/-- The span of a lexeme, or the empty one at the end of the text. -/
def Source.Marks (s : Source) (span : Span) : Prop :=
  (∃ l ∈ lexemes s.text.toList, l.mark = span)
    ∨ span = ⟨byteLength s.text.toList, byteLength s.text.toList⟩

theorem Source.Marks.cuts {s : Source} {span : Span} (h : s.Marks span) :
    ∃ before found after, s.text.toList = before ++ (found ++ after)
      ∧ span = ⟨byteLength before, byteLength before + byteLength found⟩ := by
  rcases h with ⟨l, hl, rfl⟩ | rfl
  · obtain ⟨before, found, after, hcuts⟩ := exists_cut hl
    exact ⟨before, found, after, hcuts.whole, hcuts.mark⟩
  · exact ⟨s.text.toList, [], [], by simp, rfl⟩

theorem Source.Marks.location? {s : Source} {span : Span} (h : s.Marks span) :
    s.location? span.start = some (s.location span.start) := by
  obtain ⟨before, found, after, htext, rfl⟩ := h.cuts
  rw [Source.location?, Source.location, htext]
  exact Location.ofOffset?_append s.path before (found ++ after)

theorem Source.Marks.excerpt? {s : Source} {span : Span} (h : s.Marks span) :
    SchemaGraph.excerpt? s.text.toList span = some (excerpt s.text.toList span) := by
  obtain ⟨before, found, after, htext, rfl⟩ := h.cuts
  rw [htext, excerpt_append]
  exact excerpt?_append before found after

/-! ## What readers do with marks

A source can be read as many things, and nothing is used of the readers but that each
foresees its form. A reader that does fails at a lexeme that it was given, or at the end
of them (`found_mem`); and the marks in what a form derives are those of lexemes that it
is derived from (`sites_mem`). So no reader comes up with an offset of its own. -/

namespace Entry

variable {e : Entry} {ts rest : List (Lexeme Span)}

/-- Each reader looks one lexeme ahead, and passes the sites of what it reads. -/
theorem exists_foresees (e : Entry) (n : Nat) : ∃ R : Form Span e.Result,
    Foresees n R e.reader ∧ ∀ us a mid, R us a mid → mid <:+ us → Passes us mid (e.sites a) := by
  cases e with
  | document => exact ⟨_, definitions_foresees, fun _ _ _ h _ => h.passes DefinitionForm.passes⟩
  | type => exact ⟨_, typeExpr_foresees n, fun _ _ _ _ h => .none h⟩
  | value => exact ⟨_, value_foresees n, fun _ _ _ _ h => .none h⟩
  | directive => exact ⟨_, directive_foresees, fun _ _ _ _ h => .none h⟩
  | directiveDefinition => exact ⟨_, directiveDefinition_foresees, fun _ _ _ _ h => .none h⟩
  | schema => exact ⟨_, schemaRoots_foresees, fun _ _ _ _ h => .none h⟩
  | field => exact ⟨_, fieldDef_foresees, fun _ _ _ h _ => h.passes ""⟩
  | inputValue => exact ⟨_, inputDef_foresees, fun _ _ _ h _ => h.passes (.input "")⟩
  | enumValue => exact ⟨_, enumValueDef_foresees, fun _ _ _ h _ => h.passes ""⟩

/-- A reader fails at a lexeme that it was given, or at the end. -/
theorem found_mem {u : Unexpected Span} (h : e.reader ts = .error u) {l : Lexeme Span}
    (hl : u.found = some l) : l ∈ ts := by
  obtain ⟨R, hR, -⟩ := e.exists_foresees ts.length
  obtain ⟨pre, rest, rfl, hfound, -⟩ := (hR.here (Nat.le_refl _)).error h
  exact List.mem_append_right _ (List.mem_of_mem_head? (hfound ▸ hl))

/-- What is kept of the marks are the marks of lexemes that the reader was given. -/
theorem sites_mem {a : e.Result} (h : e.reader ts = .ok (a, rest)) {x : Site Span}
    (hx : x ∈ e.sites a) : x.lexeme ∈ ts := by
  obtain ⟨R, hR, hpasses⟩ := e.exists_foresees ts.length
  obtain ⟨pre, rfl, -, hform⟩ := (hR.here (Nat.le_refl _)).ok h
  obtain ⟨taken, htaken, hsites⟩ := hpasses _ _ _ (hform rest) (List.suffix_append pre rest)
  rw [htaken]
  exact List.mem_append_left _ (hsites.subset (List.mem_map_of_mem hx))

end Entry

namespace Source

variable (s : Source)

theorem report?_eq {u : Unexpected Span}
    (h : ∀ l, u.found = some l → l ∈ lexemes s.text.toList) :
    s.report? u = some (s.report u) := by
  obtain ⟨expected, found⟩ := u
  cases found with
  | none =>
      have hmarks : s.Marks ⟨byteLength s.text.toList, byteLength s.text.toList⟩ := .inr rfl
      simp only [report?, hmarks.excerpt?, hmarks.location?, Option.bind_eq_bind, Option.bind_some]
      rfl
  | some l =>
      have hmarks : s.Marks l.mark := .inl ⟨l, h l rfl, rfl⟩
      simp only [report?, hmarks.excerpt?, hmarks.location?, Option.bind_eq_bind, Option.bind_some]
      rfl

theorem read?_eq (e : Entry) : s.read? e.reader = some (s.read e.reader) := by
  simp only [read?, read, lexemes?_eq, Option.bind_eq_bind, Option.bind_some]
  cases hread : e.reader (lexemes s.text.toList) with
  | ok p => rfl
  | error u =>
      have hreport := s.report?_eq fun l hl => Entry.found_mem hread hl
      simp only [hreport, Option.bind_some]
      rfl

/-- All that is kept of the marks can be located. -/
theorem locates {e : Entry} {a : e.Result} (h : s.read e.reader = .ok a) {x : Site Span}
    (hx : x ∈ e.sites a) : s.location? x.mark.start = some (s.locate x) := by
  rw [read] at h
  split at h
  · next p hread =>
      cases h
      have hmarks : s.Marks x.mark := .inl ⟨x.lexeme, Entry.sites_mem hread hx, rfl⟩
      exact hmarks.location?
  · cases h

end Source

namespace Fragment

theorem ofSource?_eq (s : Source) : ofSource? s = some (ofSource s) := by
  have hread : s.read? Sdl.definitions = some (s.read Sdl.definitions) := s.read?_eq .document
  simp only [ofSource?, ofSource, hread, Option.bind_eq_bind, Option.bind_some]
  cases s.read Sdl.definitions with
  | ok ds => rfl
  | error r => rfl

theorem locations?_eq {f : Fragment}
    (h : Derives (lexemes f.source.text.toList) f.definitions) :
    f.locations? = some (f.sites.map f.source.locate) :=
  mapM_eq_some fun x hx =>
    Source.Marks.location? (.inl ⟨x.lexeme, f.lexeme_mem h hx, rfl⟩)

end Fragment

namespace Document

theorem readAll?_eq (sources : List Source) : readAll? sources = some (readAll sources) := by
  induction sources with
  | nil => rfl
  | cons s rest ih =>
      simp only [readAll?, readAll, Fragment.ofSource?_eq, ih, Option.bind_eq_bind,
        Option.bind_some]
      cases Fragment.ofSource s with
      | error r => rfl
      | ok f =>
          simp only
          cases readAll rest with
          | error r => rfl
          | ok fs => rfl

theorem load?_eq (sources : List Source) : load? sources = some (load sources) := by
  cases sources with
  | nil => rfl
  | cons s rest =>
      simp only [load?, load, readAll?_eq, Option.bind_eq_bind, Option.bind_some]
      cases readAll (s :: rest) with
      | error r => rfl
      | ok fs => rfl

end Document

namespace Graph

theorem dropDeprecated?_eq (g : Graph) : g.dropDeprecated? = some g.dropDeprecated := by
  have hcounted := mapM_eq_some fun n (_ : n ∈ g.nodes) =>
    sub?_of_le (List.length_filter_le (fun f : Field => f.deprecation.isNone) n.fields)
  simp only [dropDeprecated?, hcounted, Option.bind_eq_bind, Option.bind_some]
  rfl

theorem normalize?_eq (options : Options) (g : Graph) :
    g.normalize? options = some (g.normalize options) := by
  simp only [normalize?, normalize]
  split
  · exact dropDeprecated?_eq _
  · rfl

theorem build?_eq (options : Options) (sources : List Source) :
    build? options sources = some (build options sources) := by
  simp only [build?, build, Document.load?_eq, Option.bind_eq_bind, Option.bind_some]
  cases hload : Document.load sources with
  | error r => rfl
  | ok loaded =>
      cases loaded with
      | none => rfl
      | some d =>
          have hderives := (Document.load_ok hload).2
          have hlocated := mapM_eq_some fun f hf => Fragment.locations?_eq (hderives f hf)
          simp only [hlocated, Option.bind_some]
          cases ofDocument options.sortByAlphabet d with
          | error r => rfl
          | ok g =>
              simp only [normalize?_eq, Option.bind_some]
              rfl

/--
Whatever the sources are, a graph is built of them, or it is reported why there is none,
without a cut that fails or a difference below zero. Whatever a text is read as, it is
read or reported on in the same way, and what is kept of the marks can be located. And
wherever a lexeme stands, as well as at the end of a text, the place and the excerpt are
there to be told.
-/
theorem offsets_sound :
    (∀ options sources, build? options sources = some (build options sources))
      ∧ ∀ s : Source, lexemes? s.text.toList = some (lexemes s.text.toList)
        ∧ (∀ e : Entry, s.read? e.reader = some (s.read e.reader)
          ∧ ∀ a, s.read e.reader = .ok a →
            ∀ x ∈ e.sites a, s.location? x.mark.start = some (s.locate x))
        ∧ ∀ span, s.Marks span →
          s.location? span.start = some (s.location span.start)
            ∧ excerpt? s.text.toList span = some (excerpt s.text.toList span) :=
  ⟨build?_eq, fun s => ⟨lexemes?_eq s.text.toList,
    fun e => ⟨s.read?_eq e, fun _ ha _ hx => s.locates ha hx⟩,
    fun _ hspan => ⟨hspan.location?, hspan.excerpt?⟩⟩⟩

/-- A byte order mark, a block with an accent over lines that end in two characters, and a type. -/
def accentedSource : Source := ⟨"accents", "\uFEFF\"\"\"\r\n  \u00e9\r\n\"\"\" type Query{a:ID}"⟩

theorem offsets_sound_accented :
    ∃ (ds : List (Definition Span)) (x : Site Span) (l : Lexeme Span),
      accentedSource.read Sdl.definitions = .ok ds ∧ x ∈ Entry.document.sites ds
        ∧ accentedSource.location? x.mark.start = some (accentedSource.locate x)
        ∧ l ∈ lexemes accentedSource.text.toList
        ∧ excerpt? accentedSource.text.toList l.mark
          = some (excerpt accentedSource.text.toList l.mark) := by
  have hread : (accentedSource.read Sdl.definitions).toOption.any
      (fun ds => !(Entry.document.sites ds).isEmpty) = true := by decide +kernel
  have hlexemes : (lexemes accentedSource.text.toList).isEmpty = false := by decide +kernel
  obtain ⟨-, hsource⟩ := offsets_sound
  obtain ⟨-, hentries, hmarks⟩ := hsource accentedSource
  cases hds : accentedSource.read Sdl.definitions with
  | error r =>
      rw [hds] at hread
      cases hread
  | ok ds =>
      rw [hds] at hread
      have hsites : (!(Entry.document.sites ds).isEmpty) = true := hread
      rw [Bool.not_eq_true'] at hsites
      obtain ⟨x, hx⟩ := List.exists_mem_of_ne_nil _ (List.isEmpty_eq_false_iff.1 hsites)
      obtain ⟨l, hl⟩ := List.exists_mem_of_ne_nil _ (List.isEmpty_eq_false_iff.1 hlexemes)
      exact ⟨ds, x, l, rfl, hx, (hentries .document).2 ds hds x hx, hl,
        (hmarks l.mark (.inl ⟨l, hl, rfl⟩)).2⟩

end Graph

end SchemaGraph
