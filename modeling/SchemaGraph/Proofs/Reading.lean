import SchemaGraph.Document
import SchemaGraph.Proofs.ReaderComplete

/-!
# What is read from sources

A source is read if the grammar derives its lexemes, and what is read is what
they derive. Since the reader gives one answer, there is one derived list of
definitions at most: the grammar is not ambiguous, though none of its rules says
so.
-/

namespace SchemaGraph

open Sdl

/-- The grammar derives no two lists of definitions from the same lexemes. -/
theorem Sdl.Derives.unique {μ : Type} {ts : List (Lexeme μ)} {ds ds' : List (Definition μ)}
    (h : Derives ts ds) (h' : Derives ts ds') : ds = ds' := by
  have heq := (definitions_complete h).symm.trans (definitions_complete h')
  rw [Except.ok.injEq, Prod.mk.injEq] at heq
  exact heq.1

theorem Sdl.definitions_ok {μ : Type} {ts : List (Lexeme μ)} {ds : List (Definition μ)} :
    (∃ rest, definitions ts = .ok (ds, rest)) ↔ Derives ts ds := by
  refine ⟨?_, ?_⟩
  · rintro ⟨rest, h⟩
    exact (definitions_sound h).1
  · intro h
    exact ⟨[], definitions_complete h⟩

theorem Source.read_ok {α : Type} {s : Source} {reader : Reader Span α} {a : α} :
    s.read reader = .ok a ↔ ∃ rest, reader (lexemes s.text.toList) = .ok (a, rest) := by
  unfold Source.read
  cases reader (lexemes s.text.toList) with
  | ok p => simp [Prod.ext_iff]
  | error u => simp

/-- A source is read exactly if the grammar derives what is in it. -/
theorem Fragment.ofSource_ok {s : Source} {f : Fragment} :
    Fragment.ofSource s = .ok f ↔
      f.source = s ∧ Derives (lexemes s.text.toList) f.definitions := by
  obtain ⟨source, ds⟩ := f
  rw [← Sdl.definitions_ok, ← Source.read_ok, Fragment.ofSource]
  cases s.read Sdl.definitions with
  | ok ds' => simp [eq_comm]
  | error r => simp

/--
A source is read exactly if none of its lexemes is a fault and the grammar
derives the definitions that are returned, and it derives no others.
-/
theorem Fragment.ofSource_eq_derived (s : Source) (ds : List (Definition Span)) :
    (Fragment.ofSource s = .ok ⟨s, ds⟩ ↔
      (∀ l ∈ lexemes s.text.toList, l.token.isValid = true)
        ∧ Derives (lexemes s.text.toList) ds)
      ∧ (∀ f, Fragment.ofSource s = .ok f → f.source = s)
      ∧ ∀ ds', Derives (lexemes s.text.toList) ds → Derives (lexemes s.text.toList) ds' →
        ds = ds' := by
  refine ⟨?_, fun f hf => (Fragment.ofSource_ok.1 hf).1, fun ds' h h' => h.unique h'⟩
  rw [Fragment.ofSource_ok]
  refine ⟨?_, ?_⟩
  · rintro ⟨-, h⟩
    exact ⟨h.isValid, h⟩
  · rintro ⟨-, h⟩
    exact ⟨rfl, h⟩

namespace Document

theorem readAll_ok {sources : List Source} {fs : List Fragment} (h : readAll sources = .ok fs) :
    fs.map Fragment.source = sources ∧
      ∀ f ∈ fs, Derives (lexemes f.source.text.toList) f.definitions := by
  induction sources generalizing fs with
  | nil =>
      cases h
      simp
  | cons s sources ih =>
      rw [readAll] at h
      split at h
      · cases h
      · next f hf =>
          split at h
          · cases h
          · next fs' hfs =>
              cases h
              obtain ⟨hsource, hderives⟩ := Fragment.ofSource_ok.1 hf
              obtain ⟨hsources, hall⟩ := ih hfs
              refine ⟨by rw [List.map_cons, hsource, hsources], ?_⟩
              rintro f' (_ | ⟨_, hf'⟩)
              · rw [hsource]
                exact hderives
              · exact hall f' hf'

/-- The fragments of a document are its sources in order, each with what is derived from it. -/
theorem load_ok {sources : List Source} {d : Document} (h : load sources = .ok (some d)) :
    d.fragments.map Fragment.source = sources ∧
      ∀ f ∈ d.fragments, Derives (lexemes f.source.text.toList) f.definitions := by
  cases sources with
  | nil => cases h
  | cons s sources =>
      rw [load] at h
      split at h
      · cases h
      · next fs hfs =>
          cases h
          exact readAll_ok hfs

end Document

end SchemaGraph
