import SchemaGraph.Document
import SchemaGraph.Proofs.Places

/-!
# What a text declares, and where

A text declares types and extensions, and in them fields with their arguments,
enum values and input fields. `Definition.sites` lists all of these in the order
in which they are written, each with the word that it starts with: the keyword of
a type, the name of anything else.

Each rule of the grammar takes the words of what it declares from the lexemes in
front of what it leaves over, and in that order. So the words of a whole text are
some of its lexemes in their order, and as lexemes do not overlap, what is
declared later stands at a later place.
-/

namespace SchemaGraph

open Sdl

variable {μ ν α : Type}

/-- What can be declared: a type, an extension of one, or a part of either. -/
inductive Subject where
  | type (name : String)
  | extension (name : String)
  | field (type name : String)
  | argument (type field name : String)
  | value (type name : String)
  | input (type name : String)
deriving DecidableEq

/-- Where something is declared, and the word that stands there. -/
structure Site (μ : Type) where
  subject : Subject
  word : String
  mark : μ

/-- The same site under another mark. -/
def Site.map (f : μ → ν) (x : Site μ) : Site ν := ⟨x.subject, x.word, f x.mark⟩

/-- The name that a declaration starts with. -/
def Site.lexeme (x : Site μ) : Lexeme μ := ⟨.name x.word, x.mark⟩

namespace Sdl

/-- An argument or an input field. -/
def InputDef.site (subject : String → Subject) (d : InputDef μ) : Site μ :=
  ⟨subject d.name, d.name, d.mark⟩

/-- A field of the type with this name, and after it its arguments. -/
def FieldDef.sites (type : String) (d : FieldDef μ) : List (Site μ) :=
  ⟨.field type d.name, d.name, d.mark⟩ :: d.arguments.map (·.site (.argument type d.name))

/-- A value of the enum type with this name. -/
def EnumValueDef.site (type : String) (d : EnumValueDef μ) : Site μ :=
  ⟨.value type d.name, d.name, d.mark⟩

/-- All that is declared in the type with this name. -/
def TypeBody.sites (type : String) : TypeBody μ → List (Site μ)
  | scalar => []
  | object _ fields => fields.flatMap (·.sites type)
  | interface _ fields => fields.flatMap (·.sites type)
  | union _ => []
  | enum values => values.map (·.site type)
  | input fields => fields.map (·.site (.input type))

/-- A type or an extension, and after it all that is declared in it. -/
def TypeDef.sites (subject : String → Subject) (d : TypeDef μ) : List (Site μ) :=
  ⟨subject d.name, d.body.kind.keyword, d.mark⟩ :: d.body.sites d.name

/-- What a definition declares. A schema and a directive are no types, and have no members. -/
def Definition.sites : Definition μ → List (Site μ)
  | type d => d.sites .type
  | extendType e => e.sites .extension
  | schema _ => []
  | extendSchema _ => []
  | directive _ => []

theorem FieldDef.sites_map (f : μ → ν) (type : String) (d : FieldDef μ) :
    (d.map f).sites type = (d.sites type).map (·.map f) := by
  simp only [sites, FieldDef.map, List.map_cons, List.map_map]
  rfl

theorem TypeBody.sites_map (f : μ → ν) (type : String) (b : TypeBody μ) :
    (b.map f).sites type = (b.sites type).map (·.map f) := by
  cases b with
  | scalar | union => rfl
  | object _ fields | interface _ fields =>
      simp only [TypeBody.map, sites, List.flatMap_map, List.map_flatMap, FieldDef.sites_map]
  | enum values | input fields =>
      simp only [TypeBody.map, sites, List.map_map]
      rfl

theorem TypeDef.sites_map (f : μ → ν) (subject : String → Subject) (d : TypeDef μ) :
    (d.map f).sites subject = (d.sites subject).map (·.map f) := by
  simp only [sites, TypeDef.map, TypeBody.kind_map, TypeBody.sites_map, List.map_cons]
  rfl

theorem Definition.sites_map (f : μ → ν) (d : Definition μ) :
    (d.map f).sites = d.sites.map (·.map f) := by
  cases d with
  | schema | extendSchema | directive => rfl
  | type d | extendType d => exact d.sites_map f _

theorem TypeBody.mem_sites_of_field {type : String} {b : TypeBody μ} {f : FieldDef μ} {x : Site μ}
    (hf : f ∈ b.fields) (hx : x ∈ f.sites type) : x ∈ b.sites type := by
  cases b with
  | object | interface => exact List.mem_flatMap.2 ⟨f, hf, hx⟩
  | scalar | union | enum | input => cases hf

theorem TypeBody.mem_sites_of_inputField {type : String} {b : TypeBody μ} {i : InputDef μ}
    (hi : i ∈ b.inputFields) : i.site (.input type) ∈ b.sites type := by
  cases b with
  | input => exact List.mem_map_of_mem hi
  | scalar | object | interface | union | enum => cases hi

/-- The sites are, in order, at lexemes that stand in `ts` in front of `rest`. -/
def Passes (ts rest : List (Lexeme μ)) (xs : List (Site μ)) : Prop :=
  ∃ taken, ts = taken ++ rest ∧ (xs.map Site.lexeme).Sublist taken

section

variable {ts mid rest : List (Lexeme μ)} {xs ys : List (Site μ)}

theorem Passes.none (h : rest <:+ ts) : Passes ts rest [] := by
  obtain ⟨taken, rfl⟩ := h
  exact ⟨taken, rfl, List.nil_sublist taken⟩

theorem Passes.append (h : Passes ts mid xs) (h' : Passes mid rest ys) :
    Passes ts rest (xs ++ ys) := by
  obtain ⟨taken, rfl, hxs⟩ := h
  obtain ⟨taken', rfl, hys⟩ := h'
  exact ⟨taken ++ taken', (List.append_assoc _ _ _).symm, by
    rw [List.map_append]
    exact hxs.append hys⟩

theorem Passes.after (h : Passes mid rest xs) (hmid : mid <:+ ts) : Passes ts rest xs :=
  (Passes.none hmid).append h

theorem Passes.before (h : Passes ts mid xs) (hrest : rest <:+ mid) : Passes ts rest xs := by
  simpa using h.append (.none hrest)

/-- The first lexeme is where the first site is. -/
theorem Passes.cons {x : Site μ} (h : Passes ts rest xs) :
    Passes (⟨.name x.word, x.mark⟩ :: ts) rest (x :: xs) := by
  obtain ⟨taken, rfl, hxs⟩ := h
  exact ⟨x.lexeme :: taken, rfl, hxs.cons_cons _⟩

theorem Star.passes {R : Form μ α} {f : α → List (Site μ)} {as : List α} (h : Star R ts as rest)
    (hR : ∀ {us a mid}, R us a mid → Passes us mid (f a)) : Passes ts rest (as.flatMap f) := by
  induction h with
  | nil => exact .none List.suffix_rfl
  | cons head _ ih => exact (hR head).append ih

theorem EnclosedForm.passes {opening close : Punctuator} {R : Form μ α} {f : α → List (Site μ)}
    {as : List α} (h : EnclosedForm opening close R ts as rest)
    (hR : ∀ {us a mid}, R us a mid → Passes us mid (f a)) : Passes ts rest (as.flatMap f) := by
  cases h with
  | absent => exact .none List.suffix_rfl
  | present items =>
      exact ((items.passes hR).before (List.suffix_cons _ _)).after (List.suffix_cons _ _)

theorem InputForm.passes {d : InputDef μ} (subject : String → Subject) (h : InputForm ts d rest) :
    Passes ts rest [d.site subject] := by
  cases h with
  | intro described typed defaulted directed =>
      have htail := (directed.directive_after.trans (defaulted.after.trans typed.shorter.1)).suffix
      exact (Passes.none (htail.trans (List.suffix_cons _ _))).cons.after described.after.suffix

theorem FieldForm.passes {d : FieldDef μ} (type : String) (h : FieldForm ts d rest) :
    Passes ts rest (d.sites type) := by
  cases h with
  | @intro _ _ _ _ _ _ name _ _ _ _ _ described argued typed directed =>
      have harguments := argued.passes (InputForm.passes (.argument type name))
      rw [← List.map_eq_flatMap] at harguments
      have htail := (directed.directive_after.trans typed.shorter.1).suffix
      exact (harguments.before (htail.trans (List.suffix_cons _ _))).cons.after
        described.after.suffix

theorem EnumValueForm.passes {d : EnumValueDef μ} (type : String) (h : EnumValueForm ts d rest) :
    Passes ts rest [d.site type] := by
  cases h with
  | intro described _ directed =>
      exact (Passes.none directed.directive_after.suffix).cons.after described.after.suffix

theorem BodyForm.kind_eq {kind : TypeKind} {b : TypeBody μ} (h : BodyForm kind ts b rest) :
    b.kind = kind := by
  cases h <;> rfl

theorem BodyForm.passes {kind : TypeKind} {b : TypeBody μ} (type : String)
    (h : BodyForm kind ts b rest) : Passes ts rest (b.sites type) := by
  have hsuffix := h.after.suffix
  cases h with
  | scalar | union => exact .none hsuffix
  | object implementing directed braced | interface implementing directed braced =>
      exact (braced.passes (FieldForm.passes type)).after
        (directed.directive_after.trans implementing.after).suffix
  | enum directed braced =>
      have hvalues := braced.passes (EnumValueForm.passes type)
      rw [← List.map_eq_flatMap] at hvalues
      exact hvalues.after directed.directive_after.suffix
  | input directed braced =>
      have hfields := braced.passes (InputForm.passes (.input type))
      rw [← List.map_eq_flatMap] at hfields
      exact hfields.after directed.directive_after.suffix

theorem TypeDefForm.passes {description : Option String} {d : TypeDef μ}
    (subject : String → Subject) (h : TypeDefForm description ts d rest) :
    Passes ts rest (d.sites subject) := by
  cases h with
  | @intro kind mark name m us body _ bodied =>
      have hbody := (bodied.passes name).after (List.suffix_cons ⟨.name name, m⟩ us)
      rw [← bodied.kind_eq]
      exact hbody.cons (x := ⟨subject name, body.kind.keyword, mark⟩)

theorem DefinitionForm.passes {d : Definition μ} (h : DefinitionForm ts d rest) :
    Passes ts rest d.sites := by
  have hsuffix := h.shorter.1.suffix
  cases h with
  | schema | directive | extendSchema => exact .none hsuffix
  | extendType defined => exact (defined.passes .extension).after (List.suffix_cons _ _)
  | type described defined => exact (defined.passes .type).after described.after.suffix

/-- What a text declares stands at names of the text, in the order in which it is declared. -/
theorem Derives.sites_sublist {ds : List (Definition μ)} (h : Derives ts ds) :
    ((ds.flatMap Definition.sites).map Site.lexeme).Sublist ts := by
  obtain ⟨taken, rfl, hsites⟩ := Star.passes h DefinitionForm.passes
  rwa [List.append_nil]

end

/-- The text of a name is the name. -/
theorem pieces_name {text : List Char} {p : Piece} {name : String} (hp : p ∈ pieces text)
    (h : p.token = some (.name name)) : p.text = name.toList := by
  obtain ⟨c, cs, rfl⟩ := exists_step_of_mem_pieces hp
  obtain ⟨hstart, rfl⟩ := Piece.step_name h
  rw [String.toList_ofList]
  exact congrArg (fun r => c :: r.tail) (step_nameStart hstart cs)

end Sdl

/-- What a source declares, in order. -/
def Fragment.sites (f : Fragment) : List (Site Span) := f.definitions.flatMap Definition.sites

/-- The location of what is declared in a source. -/
def Source.locate (s : Source) (x : Site Span) : Location := s.location x.mark.start

/--
Whether a link to what is declared leads to it: to a name in the source, which is
the word that the declaration starts with, and which a reader finds at the line
and the column of the link.
-/
structure Source.Leads (s : Source) (x : Site Span) : Prop where
  lexeme : x.lexeme ∈ lexemes s.text.toList
  word : IsName x.word
  shown : (s.locate x).place.Shows s.text.toList x.word.toList

/-- Whether one declaration stands before another, counted in bytes as in lines and columns. -/
structure Source.Orders (s : Source) (x y : Site Span) : Prop where
  offset : x.mark.start < y.mark.start
  place : (s.locate x).place.Before (s.locate y).place

section

variable {s : Source} {x y : Site Span}

/-- A text is cut in front of a name of it, and the name's location is where that part ends. -/
theorem Source.exists_cut_site (h : x.lexeme ∈ lexemes s.text.toList) :
    ∃ before after, s.text.toList = before ++ (x.word.toList ++ after)
      ∧ x.mark.start = Text.byteLength before
      ∧ (s.locate x).place = Place.origin.after before := by
  obtain ⟨before, found, after, hcuts⟩ := exists_cut h
  obtain rfl : found = x.word.toList := pieces_name hcuts.piece rfl
  have hstart : x.mark.start = Text.byteLength before := congrArg Span.start hcuts.mark
  refine ⟨before, after, hcuts.whole, hstart, ?_⟩
  rw [locate, location, hstart, hcuts.whole, Location.ofOffset_append]
  rfl

theorem Source.leads (h : x.lexeme ∈ lexemes s.text.toList) : s.Leads x := by
  have hword := lexemes_isName _ _ h x.word rfl
  obtain ⟨before, after, hwhole, -, hplace⟩ := exists_cut_site h
  refine ⟨h, hword, ?_⟩
  rw [hplace, hwhole]
  exact Place.shows_name hword before after

theorem Source.orders (hx : x.lexeme ∈ lexemes s.text.toList)
    (hy : y.lexeme ∈ lexemes s.text.toList) (hlt : x.mark.start < y.mark.start) :
    s.Orders x y := by
  obtain ⟨before, after, hwhole, hstart, hplace⟩ := exists_cut_site hx
  obtain ⟨before', after', hwhole', hstart', hplace'⟩ := exists_cut_site hy
  refine ⟨hlt, ?_⟩
  rw [hplace, hplace']
  rw [hstart, hstart'] at hlt
  exact Place.before_of_byteLength_lt (lexemes_isName _ _ hx x.word rfl)
    (hwhole.symm.trans hwhole') hlt

end

namespace Fragment

variable {f : Fragment} (h : Derives (lexemes f.source.text.toList) f.definitions)

include h

theorem lexeme_mem {x : Site Span} (hx : x ∈ f.sites) :
    x.lexeme ∈ lexemes f.source.text.toList :=
  h.sites_sublist.subset (List.mem_map_of_mem hx)

/-- Declarations of one source stand in the order in which they are listed. -/
theorem sites_ordered : f.sites.Pairwise f.source.Orders := by
  have hstarts := (lexemes_starts f.source.text.toList).sublist h.sites_sublist
  rw [List.pairwise_map] at hstarts
  exact hstarts.imp_of_mem fun hx hy hlt => Source.orders (lexeme_mem h hx) (lexeme_mem h hy) hlt

end Fragment

end SchemaGraph
