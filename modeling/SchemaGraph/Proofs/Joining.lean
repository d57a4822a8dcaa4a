import SchemaGraph.Proofs.Lookahead
import SchemaGraph.Proofs.Reordering
import SchemaGraph.Proofs.Seams

/-!
# Joined sources

A schema that is spread over sources may as well be one text, with a line end between
what were two sources. Behind a line end the lexemes are found as they were found
before, so what is left to see is that the definitions are. Many of them have parts at
their end that may be left out, and a part that is left out must not be taken from what
follows. The grammar derives a definition from its lexemes whatever is behind them; so
the definitions of all sources, one after the other, are a derivation of the joined
text, and there is no second one in which something else was taken.

The definitions are then the same ones in other places, and nothing is decided by
places: the outcome is the same but for locations, be it a graph or a report.
-/

namespace SchemaGraph

open Sdl

namespace Sdl

variable {μ ν κ α : Type}

theorem Star.append {R : Form μ α} {ts mid rest : List (Lexeme μ)} {as bs : List α}
    (h : Star R ts as mid) (h' : Star R mid bs rest) : Star R ts (as ++ bs) rest := by
  induction h with
  | nil => exact h'
  | cons head _ ih => exact .cons head (ih h')

theorem Derives.append [Inhabited μ] {ts us : List (Lexeme μ)} {ds es : List (Definition μ)}
    (h : Derives ts ds) (h' : Derives us es) : Derives (ts ++ us) (ds ++ es) := by
  have hforesees := definitions_foresees.here (Nat.le_refl ts.length)
  obtain ⟨pre, hpre, -, hforms⟩ := hforesees.ok (definitions_complete h)
  rw [List.append_nil] at hpre
  subst hpre
  exact (hforms us).append h'

/-- What the definitions of a text and those of one behind a line end are together. -/
theorem Derives.join {text more : List Char} {ds es : List (Definition Span)}
    (h : Derives (lexemes text) ds) (h' : Derives (lexemes more) es) :
    Derives (lexemes (text ++ '\n' :: more))
      (ds ++ es.map (·.map (Span.shift (Text.byteLength text + 1)))) := by
  rw [lexemes_append h.isValid]
  exact h.append (h'.remark _)

/-- Definitions without their marks. -/
def unmarked (ds : List (Definition μ)) : List (Definition Unit) := ds.map (·.map fun _ => ())

theorem unmarked_map (f : μ → ν) (ds : List (Definition μ)) :
    unmarked (ds.map (·.map f)) = unmarked ds := by
  simp only [unmarked, List.map_map, Function.comp_def, Definition.map_map]

theorem unmarked_append (ds es : List (Definition μ)) :
    unmarked (ds ++ es) = unmarked ds ++ unmarked es := List.map_append

end Sdl

/-- The sources as one, with a line end between them. -/
def Source.joined (path : String) (sources : List Source) : Source :=
  ⟨path, "\n".intercalate (sources.map Source.text)⟩

theorem Source.joined_singleton (path : String) (s : Source) :
    (joined path [s]).text.toList = s.text.toList := by
  simp [joined]

theorem Source.joined_cons (path : String) (s s' : Source) (sources : List Source) :
    (joined path (s :: s' :: sources)).text.toList
      = s.text.toList ++ '\n' :: (joined path (s' :: sources)).text.toList := by
  simp [joined, String.toList_intercalate]

theorem derives_joined (path : String) {fs : List Fragment} (hne : fs ≠ [])
    (hfs : ∀ f ∈ fs, Derives (lexemes f.source.text.toList) f.definitions) :
    ∃ ds, Derives (lexemes (Source.joined path (fs.map Fragment.source)).text.toList) ds
      ∧ unmarked ds = unmarked (fs.flatMap Fragment.definitions) := by
  induction fs with
  | nil => exact absurd rfl hne
  | cons f fs ih =>
      obtain ⟨hf, hrest⟩ := List.forall_mem_cons.1 hfs
      cases fs with
      | nil =>
          refine ⟨f.definitions, ?_, by simp⟩
          rw [List.map_singleton, Source.joined_singleton]
          exact hf
      | cons f' fs =>
          obtain ⟨ds, hds, hunmarked⟩ := ih (List.cons_ne_nil _ _) hrest
          refine ⟨_, Source.joined_cons path f.source f'.source _ ▸ hf.join hds, ?_⟩
          rw [List.flatMap_cons, unmarked_append, unmarked_append, unmarked_map, hunmarked]

/-- Graphs that are the same but for locations, or reports of one kind that say the same. -/
inductive SameOutcome : Except Report (Option Graph) → Except Report (Option Graph) → Prop
  | graph {g g' : Graph}
      (same : ∀ place, g.relocate (fun _ => place) = g'.relocate fun _ => place) :
      SameOutcome (.ok (some g)) (.ok (some g'))
  | report {r r' : Report} (kind : r.kind = r'.kind) (message : r.message = r'.message) :
      SameOutcome (.error r) (.error r')

theorem Document.exists_readAll {sources : List Source}
    (hreads : ∀ s ∈ sources, ∃ f, Fragment.ofSource s = .ok f) :
    ∃ fs, readAll sources = .ok fs := by
  induction sources with
  | nil => exact ⟨[], rfl⟩
  | cons s sources ih =>
      obtain ⟨⟨f, hf⟩, hrest⟩ := List.forall_mem_cons.1 hreads
      obtain ⟨fs, hfs⟩ := ih hrest
      exact ⟨f :: fs, readAll_iff.2 (.cons hf (readAll_iff.1 hfs))⟩

theorem relocated_located (place : Location) (f : Fragment) :
    relocated (fun _ => place) f.located
      = (unmarked f.definitions).map (·.map fun _ => place) := by
  simp only [relocated, Fragment.located, unmarked, List.map_map, Function.comp_def,
    Definition.map_map]

theorem Document.relocated_definitions (place : Location) (d : Document) :
    relocated (fun _ => place) d.definitions
      = (unmarked (d.fragments.flatMap Fragment.definitions)).map (·.map fun _ => place) := by
  have hfragment := funext (relocated_located place)
  simp only [relocated, unmarked, List.map_flatMap] at hfragment ⊢
  simp only [definitions, List.map_flatMap, hfragment]

namespace Graph

/-- Documents have the same outcome if no schema tells them apart but by locations. -/
theorem build_same {sources sources' : List Source} {d d' : Document}
    (hload : Document.load sources = .ok (some d))
    (hload' : Document.load sources' = .ok (some d'))
    (hsame : ∀ sort place,
      bimap (Report.relocate fun _ => place) (relocate fun _ => place)
          (ofDefinitions sort d.definitions)
        = bimap (Report.relocate fun _ => place) (relocate fun _ => place)
          (ofDefinitions sort d'.definitions)) (options : Options) :
    SameOutcome (build options sources) (build options sources') := by
  have hsame := hsame options.sortByAlphabet
  simp only [build, hload, hload', ofDocument_eq]
  generalize ofDefinitions options.sortByAlphabet d.definitions = outcome at hsame ⊢
  generalize ofDefinitions options.sortByAlphabet d'.definitions = outcome' at hsame ⊢
  cases outcome with
  | error r =>
      cases outcome' with
      | error r' =>
          have hreport := Except.error.inj (hsame default)
          exact .report (congrArg Report.kind hreport :) (congrArg Report.message hreport :)
      | ok _ => cases hsame default
  | ok g =>
      cases outcome' with
      | error _ => cases hsame default
      | ok g' =>
          refine .graph fun place => ?_
          rw [← normalize_relocate, ← normalize_relocate, Except.ok.inj (hsame place)]

/-- Documents that differ in nothing but locations have the same outcome. -/
theorem build_unlocated {sources sources' : List Source} {d d' : Document}
    (hload : Document.load sources = .ok (some d))
    (hload' : Document.load sources' = .ok (some d'))
    (h : ∀ place, relocated (fun _ => place) d.definitions
      = relocated (fun _ => place) d'.definitions) (options : Options) :
    SameOutcome (build options sources) (build options sources') := by
  refine build_same hload hload' (fun sort place => ?_) options
  rw [← ofDefinitions_relocate, ← ofDefinitions_relocate, h place]

/--
If each of some sources can be read, then so can the text of all of them, with a line
end between one and the next. The definitions in it are those of the sources one after
the other, but for the places at which they stand. With all options there is a graph of
both or of neither: graphs that are the same but for locations, or reports of one kind
that say the same.
-/
theorem build_joined {sources : List Source} (hsome : sources ≠ [])
    (hreads : ∀ s ∈ sources, ∃ f, Fragment.ofSource s = .ok f) (path : String) :
    ∃ fs f, List.Forall₂ (fun s f => Fragment.ofSource s = .ok f) sources fs
      ∧ Fragment.ofSource (.joined path sources) = .ok f
      ∧ unmarked f.definitions = unmarked (fs.flatMap Fragment.definitions)
      ∧ ∀ options, SameOutcome (build options sources) (build options [.joined path sources]) := by
  obtain ⟨fs, hfs⟩ := Document.exists_readAll hreads
  obtain ⟨hsources, hderives⟩ := Document.readAll_ok hfs
  obtain ⟨ds, hds, hunmarked⟩ := derives_joined path
    (fun hnil => hsome (by rw [← hsources, hnil, List.map_nil])) hderives
  rw [hsources] at hds
  have hjoined : Fragment.ofSource (.joined path sources) = .ok ⟨.joined path sources, ds⟩ :=
    Fragment.ofSource_ok.2 ⟨rfl, hds⟩
  have hload : Document.load sources = .ok (some ⟨fs⟩) := Document.load_iff.2 ⟨hsome, hfs⟩
  have hload' : Document.load [.joined path sources]
      = .ok (some ⟨[⟨.joined path sources, ds⟩]⟩) :=
    Document.load_iff.2 ⟨List.cons_ne_nil _ _, Document.readAll_iff.2 (.cons hjoined .nil)⟩
  refine ⟨fs, _, Document.readAll_iff.1 hfs, hjoined, hunmarked,
    build_unlocated hload hload' fun place => ?_⟩
  rw [Document.relocated_definitions, Document.relocated_definitions, ← hunmarked]
  simp

/-- A union without members before a comment, then a byte order mark and a description. -/
def seamSources : List Source :=
  [⟨"base", "type Query{a:U} union U # open"⟩,
    ⟨"more", "\uFEFF\"B\" type B{b:Int} extend union U=B"⟩]

theorem build_joined_seam :
    (∀ s ∈ seamSources, ∃ f, Fragment.ofSource s = .ok f)
      ∧ SameOutcome (build .standard seamSources)
        (build .standard [.joined "all" seamSources]) := by
  have hread : ∀ s ∈ seamSources, (Fragment.ofSource s).toOption.isSome = true := by
    decide +kernel
  have hreads : ∀ s ∈ seamSources, ∃ f, Fragment.ofSource s = .ok f :=
    fun s hs => Except.exists_ok (hread s hs)
  obtain ⟨-, -, -, -, -, houtcome⟩ := build_joined (List.cons_ne_nil _ _) hreads "all"
  exact ⟨hreads, houtcome .standard⟩

end Graph

end SchemaGraph
