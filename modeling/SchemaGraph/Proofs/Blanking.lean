import Mathlib.Data.List.Flatten
import SchemaGraph.Proofs.Padding
import SchemaGraph.Proofs.Stripping

/-!
# Texts without directives

In the text of a schema a space may be written over each directive that is no deprecation
and over each definition of a directive. What comes of the text stays the same, but for
the places at which things stand.

The lexemes that are written over stand in a row, so the text is cut in front of the first
of them and behind the last. What is in front of the first cut ends with a piece that is
no comment, since a comment would have gone on with the lexeme; so its tokens are still
found when a space comes next. Behind the second cut the text is taken apart as it was.
The induction over the parts of a text therefore carries along the pieces since the last
cut, and gives them up at the next one.

The lexemes that are left have the definitions without those directives. Their marks are
other ones now, which matters as little to a schema as the directives did.
-/

namespace SchemaGraph

open Sdl

/-- The text, which starts at an offset, with a space instead of each of these spans in turn. -/
def Text.spaced : Nat → List Char → List Span → List Char
  | _, text, [] => text
  | offset, text, span :: spans =>
    (splitAtByte (span.start - offset) text).1
      ++ ' ' :: spaced span.stop (splitAtByte (span.stop - offset) text).2 spans

theorem Text.spaced_cons {offset start stop : Nat} {before found after : List Char}
    (hstart : start = offset + byteLength before) (hstop : stop = start + byteLength found)
    (spans : List Span) :
    spaced offset (before ++ (found ++ after)) (⟨start, stop⟩ :: spans)
      = before ++ ' ' :: spaced stop after spans := by
  have hbefore : start - offset = byteLength before := by omega
  have hfound : stop - offset = byteLength (before ++ found) := by
    rw [byteLength_append]
    omega
  rw [spaced, hbefore, splitAtByte_byteLength, hfound, ← List.append_assoc,
    splitAtByte_byteLength]

namespace Sdl

/-- Where the last of some lexemes stops, or else the offset at which they would start. -/
def stopFrom : Nat → List (Lexeme Span) → Nat
  | offset, [] => offset
  | _, l :: ls => stopFrom l.mark.stop ls

/-- The first lexeme is a piece, and what is in front of it has no tokens. -/
theorem exists_cut_of_lexemesFrom_cons {offset : Nat} {ps : List Piece} {l : Lexeme Span}
    {ls : List (Lexeme Span)} (h : lexemesFrom offset ps = l :: ls) :
    ∃ gap p back, ps = gap ++ p :: back ∧ gap.filterMap Piece.token = []
      ∧ p.token = some l.token ∧ l.mark.start = offset + Text.byteLength (textOf gap)
      ∧ l.mark.stop = l.mark.start + Text.byteLength p.text
      ∧ lexemesFrom l.mark.stop back = ls := by
  induction ps generalizing offset with
  | nil => cases h
  | cons p ps ih =>
      rw [lexemesFrom] at h
      split at h
      · next token htoken =>
          obtain ⟨rfl, rfl⟩ := List.cons.inj h
          exact ⟨[], p, ps, rfl, rfl, htoken, rfl, rfl, rfl⟩
      · next hnone =>
          obtain ⟨gap, q, back, rfl, hgap, htoken, hstart, hstop, hback⟩ := ih h
          refine ⟨p :: gap, q, back, rfl, ?_, htoken, ?_, hstop, hback⟩
          · rw [List.filterMap_cons, hnone]
            exact hgap
          · rw [hstart, textOf_cons, Text.byteLength_append, Nat.add_assoc]

theorem exists_cut_of_lexemesFrom_append {offset : Nat} {ps : List Piece}
    {run ls : List (Lexeme Span)} (h : lexemesFrom offset ps = run ++ ls) :
    ∃ front back, ps = front ++ back
      ∧ stopFrom offset run = offset + Text.byteLength (textOf front)
      ∧ lexemesFrom (stopFrom offset run) back = ls := by
  induction run generalizing offset ps with
  | nil => exact ⟨[], ps, rfl, rfl, h⟩
  | cons l run ih =>
      obtain ⟨gap, p, back, rfl, -, -, hstart, hstop, hback⟩ := exists_cut_of_lexemesFrom_cons h
      obtain ⟨front, rest, rfl, hfront, hrest⟩ := ih hback
      refine ⟨gap ++ p :: front, rest, by simp, ?_, hrest⟩
      rw [stopFrom, hfront, hstop, hstart, textOf_append, textOf_cons, Text.byteLength_append,
        Text.byteLength_append]
      omega

/-- What a part spans in its text, if it is left out. -/
def Part.span? : Part Span → Option Span
  | kept _ => none
  | removed first others => some ⟨first.mark.start, stopFrom first.mark.stop others⟩

/-- A space instead of some token and all that follows leaves what is in front of it. -/
theorem tokens_space {text : List Char} {front back : List Piece} {p : Piece} {t : Token}
    (hpieces : pieces text = front ++ p :: back)
    (hvalid : ∀ q ∈ front, ∀ t, q.token = some t → t.isValid = true)
    (htoken : p.token = some t) (more : List Char) :
    tokens (textOf front ++ ' ' :: more) = front.filterMap Piece.token ++ tokens more := by
  obtain ⟨c, hhead, hcomment, -⟩ := exists_start hpieces htoken
  have hclosed := closed_of_isComment hpieces hhead hcomment
  rw [tokens_instead (eq_textOf hpieces ▸ hpieces) hvalid hclosed ⟨' ', by decide, rfl⟩,
    tokens_ignored (by decide)]

/-- Behind what is written over, the text is cut into pieces as it was. -/
theorem tokens_spaced {cut : List (Part Span)} {front ps : List Piece} {offset : Nat}
    (hpieces : pieces (textOf (front ++ ps)) = front ++ ps)
    (hvalid : ∀ p ∈ front ++ ps, ∀ t, p.token = some t → t.isValid = true)
    (hcut : lexemesFrom (offset + Text.byteLength (textOf front)) ps
      = cut.flatMap Part.lexemes) :
    tokens (Text.spaced offset (textOf (front ++ ps)) (cut.filterMap Part.span?))
      = front.filterMap Piece.token ++ (cut.flatMap Part.left).map Lexeme.token := by
  induction cut generalizing front ps offset with
  | nil =>
      have hps : ps.filterMap Piece.token = [] := by
        rw [← lexemesFrom_tokens, hcut]
        rfl
      rw [List.filterMap_nil, Text.spaced, tokens, hpieces, List.filterMap_append, hps]
      rfl
  | cons part cut ih =>
      cases part with
      | kept l =>
          -- Nothing is cut yet: up to the lexeme, the pieces wait together with those in front.
          obtain ⟨gap, p, back, rfl, hgap, htoken, hstart, hstop, hback⟩ :=
            exists_cut_of_lexemesFrom_cons hcut
          have hfront : front ++ (gap ++ p :: back) = front ++ gap ++ [p] ++ back := by simp
          have hoffset : offset + Text.byteLength (textOf (front ++ gap ++ [p])) = l.mark.stop := by
            rw [hstop, hstart]
            simp only [textOf_append, textOf_cons, textOf_nil, Text.byteLength_append,
              List.append_nil]
            omega
          rw [hfront] at hpieces hvalid ⊢
          have hlater := ih hpieces hvalid (hoffset ▸ hback)
          rw [List.filterMap_cons]
          refine hlater.trans ?_
          simp [List.filterMap_append, hgap, htoken, Part.left]
      | removed first others =>
          -- Here are two cuts, and behind the second the induction starts with no pieces in front.
          obtain ⟨gap, p, back, rfl, hgap, htoken, hstart, hstop, hback⟩ :=
            exists_cut_of_lexemesFrom_cons hcut
          obtain ⟨between, back, rfl, hbetween, hback⟩ := exists_cut_of_lexemesFrom_append hback
          have hfront : front ++ (gap ++ p :: (between ++ back))
              = front ++ gap ++ p :: (between ++ back) := (List.append_assoc ..).symm
          have hfound : front ++ gap ++ p :: (between ++ back)
              = front ++ gap ++ p :: between ++ back := by simp
          have htext : textOf (front ++ gap ++ p :: (between ++ back))
              = textOf (front ++ gap) ++ (textOf (p :: between) ++ textOf back) := by
            rw [← textOf_append, ← textOf_append]
            rfl
          rw [hfront] at hpieces hvalid ⊢
          have hrest : pieces (textOf back) = back := by
            rw [hfound, textOf_append] at hpieces
            exact pieces_drop hpieces
          have hlater := @ih [] back (stopFrom first.mark.stop others) hrest
            (fun q hq => hvalid q (hfound ▸ List.mem_append_right _ hq)) hback
          have hspan : first.mark.start = offset + Text.byteLength (textOf (front ++ gap)) := by
            rw [hstart, textOf_append, Text.byteLength_append, Nat.add_assoc]
          have hlength : stopFrom first.mark.stop others
              = first.mark.start + Text.byteLength (textOf (p :: between)) := by
            rw [hbetween, hstop, textOf_cons, Text.byteLength_append, Nat.add_assoc]
          calc tokens (Text.spaced offset (textOf (front ++ gap ++ p :: (between ++ back)))
                ((Part.removed first others :: cut).filterMap Part.span?))
              = tokens (textOf (front ++ gap) ++ ' ' :: Text.spaced
                  (stopFrom first.mark.stop others) (textOf back) (cut.filterMap Part.span?)) :=
                congrArg tokens (htext ▸ Text.spaced_cons hspan hlength _)
            _ = (front ++ gap).filterMap Piece.token ++ tokens (Text.spaced
                  (stopFrom first.mark.stop others) (textOf back) (cut.filterMap Part.span?)) :=
                tokens_space hpieces (fun q hq => hvalid q (List.mem_append_left _ hq)) htoken _
            _ = front.filterMap Piece.token ++ (cut.flatMap Part.left).map Lexeme.token := by
                rw [List.filterMap_append, hgap, List.append_nil]
                exact congrArg _ hlater

/-- The text with a space instead of each part of it that is left out. -/
def strippedText (text : List Char) : List Char :=
  Text.spaced 0 text ((lexemeParts (lexemes text)).filterMap Part.span?)

section

variable {text : List Char} {ds : List (Definition Span)} (h : Derives (lexemes text) ds)

include h

/-- The tokens that are left are those of the lexemes that are left. -/
theorem Derives.tokens_strippedText :
    tokens (strippedText text)
      = ((lexemeParts (lexemes text)).flatMap Part.left).map Lexeme.token := by
  have hwhole : textOf (pieces text) = text := pieces_flatten text
  have hvalid := valid_of_tokens (List.append_nil (pieces text)).symm h.valid_tokens
  have htokens := @tokens_spaced (lexemeParts (lexemes text)) [] (pieces text) 0
    (congrArg pieces hwhole) hvalid h.partitions.lexemes.symm
  rwa [List.nil_append, hwhole] at htokens

theorem Derives.stripped_left : ∀ t ∈ tokens (strippedText text), t.isInert = false := by
  intro t ht
  rw [h.tokens_strippedText] at ht
  obtain ⟨l, hl, rfl⟩ := List.mem_map.1 ht
  obtain ⟨p, hp, hl⟩ := List.mem_flatMap.1 hl
  exact (h.partitions.inPlace p hp).left l hl

theorem Derives.stripped_text :
    ∃ f : Span → Span,
      Derives (lexemes (strippedText text)) ((strippedDefinitions ds).map (·.map f)) := by
  have hsublist : ((lexemeParts (lexemes text)).flatMap Part.left).Sublist (lexemes text) := by
    conv => rhs; rw [← h.partitions.lexemes]
    refine List.Sublist.flatMap_right _ fun part _ => ?_
    cases part with
    | kept l => exact .refl _
    | removed first others => exact List.nil_sublist _
  exact h.left.of_tokens ((lexemes_marks_nodup text).sublist (hsublist.map _))
    h.tokens_strippedText

end

section

variable {μ ν : Type}

theorem strippedDefinitions_map (f : μ → ν) (ds : List (Definition μ)) :
    strippedDefinitions (ds.map (·.map f))
      = (ds.filter fun d => !d.isDirective).map (·.alter ⟨f, deprecations⟩) := by
  have hkept : ∀ d : Definition μ, (d.map f).isDirective = d.isDirective := by
    intro d
    cases d <;> rfl
  simp only [strippedDefinitions, List.filter_map, List.map_map, Function.comp_def, hkept]
  refine List.map_congr_left fun d _ => ?_
  rw [← Definition.alter_mark, Definition.alter_alter]
  rfl

theorem map_strippedDefinitions (f : μ → ν) (ds : List (Definition μ)) :
    (strippedDefinitions ds).map (·.map f) = strippedDefinitions (ds.map (·.map f)) := by
  rw [strippedDefinitions_map, strippedDefinitions, List.map_map]
  refine List.map_congr_left fun d _ => ?_
  rw [Function.comp_apply, ← Definition.alter_mark, Definition.alter_alter]
  rfl

end

end Sdl

theorem collect_filter (ds : List (Definition Location)) (collected : Collected) :
    (ds.filter fun d => !d.isDirective).foldlM Collected.add collected
      = ds.foldlM Collected.add collected := by
  induction ds generalizing collected with
  | nil => rfl
  | cons d ds ih =>
      cases d with
      | directive name => exact ih collected
      | schema | extendSchema | type | extendType =>
          rw [List.filter_cons_of_pos rfl, List.foldlM_cons, List.foldlM_cons]
          exact congrArg _ (funext ih)

/-- Of the definition of a directive nothing is looked at. -/
theorem Schema.ofDefinitions_filter (ds : List (Definition Location)) :
    ofDefinitions (ds.filter fun d => !d.isDirective) = ofDefinitions ds := by
  have hfilterMap : ∀ {α : Type} (k : Definition Location → Option α),
      (∀ name, k (.directive name) = none) →
        (ds.filter fun d => !d.isDirective).filterMap k = ds.filterMap k := by
    intro α k hk
    rw [List.filterMap_filter]
    refine List.filterMap_congr fun d _ => ?_
    cases d with
    | directive name => exact (hk name).symm
    | schema | extendSchema | type | extendType => rfl
  simp only [ofDefinitions, collect, collect_filter, extendAll,
    hfilterMap Definition.extension? fun _ => rfl, hfilterMap Definition.addedRoots? fun _ => rfl]

/-- What comes of definitions without directives, relocated, is what comes of them. -/
theorem Graph.ofDefinitions_stripped (f : Location → Location) (sort : Bool)
    (ds : List (Definition Location)) :
    ofDefinitions sort (strippedDefinitions (relocated f ds))
      = bimap (·.relocate f) (·.relocate f) (ofDefinitions sort ds) := by
  have hfilter : ofDefinitions sort (ds.filter fun d => !d.isDirective)
      = ofDefinitions sort ds := by
    rw [ofDefinitions, Schema.ofDefinitions_filter, ofDefinitions]
  rw [relocated, strippedDefinitions_map, ← hfilter]
  exact ofDefinitions_alter deprecation?_deprecations sort _

/-- The source without definitions of directives and without directives but deprecations. -/
def Source.stripped (s : Source) : Source := s.withText (strippedText s.text.toList)

theorem Source.text_stripped (s : Source) :
    s.stripped.text.toList = strippedText s.text.toList := String.toList_ofList

theorem Fragment.ofSource_stripped {s : Source} {f : Fragment} (h : ofSource s = .ok f) :
    ∃ f', ofSource s.stripped = .ok f'
      ∧ unmarked f'.definitions = unmarked (strippedDefinitions f.definitions) := by
  obtain ⟨-, hderives⟩ := ofSource_ok.1 h
  obtain ⟨g, hstripped⟩ := hderives.stripped_text
  exact ⟨⟨_, (strippedDefinitions f.definitions).map (·.map g)⟩,
    ofSource_ok.2 ⟨rfl, s.text_stripped ▸ hstripped⟩, unmarked_map g _⟩

theorem Document.readAll_stripped {sources : List Source} {fs : List Fragment}
    (h : readAll sources = .ok fs) :
    ∃ fs', readAll (sources.map Source.stripped) = .ok fs'
      ∧ unmarked (fs'.flatMap Fragment.definitions)
        = unmarked (strippedDefinitions (fs.flatMap Fragment.definitions)) := by
  induction readAll_iff.1 h with
  | nil => exact ⟨[], rfl, rfl⟩
  | @cons s f sources fs hf hfs ih =>
      obtain ⟨f', hf', hsame⟩ := Fragment.ofSource_stripped hf
      obtain ⟨fs', hfs', hothers⟩ := ih (readAll_iff.2 hfs)
      refine ⟨f' :: fs', readAll_iff.2 (.cons hf' (readAll_iff.1 hfs')), ?_⟩
      rw [List.flatMap_cons, List.flatMap_cons, unmarked_append, strippedDefinitions_append,
        unmarked_append, hsame, hothers]

namespace Graph

/--
In each of some sources that can be read, a space may be written over each definition of a
directive, with its description, and over each directive but deprecations, with its
arguments. No more and no less than these is written over, and none of them is in the text
any more. The source can still be read, and its definitions are those from before without
the directives. With all options, where there were sources at all, there is a graph of both
or of neither: graphs that are the same but for locations, or reports of one kind that say
the same.
-/
theorem build_stripped {sources : List Source}
    (hreads : ∀ s ∈ sources, ∃ f, Fragment.ofSource s = .ok f) :
    (∀ s ∈ sources, Partitions (lexemeParts (lexemes s.text.toList)) (lexemes s.text.toList)
        ∧ (∀ t ∈ tokens s.stripped.text.toList, t.isInert = false)
        ∧ ∃ f f', Fragment.ofSource s = .ok f ∧ Fragment.ofSource s.stripped = .ok f'
          ∧ unmarked f'.definitions = unmarked (strippedDefinitions f.definitions))
      ∧ ∀ options,
        (sources = [] ∧ build options sources = .ok none
          ∧ build options (sources.map Source.stripped) = .ok none)
        ∨ SameOutcome (build options sources) (build options (sources.map Source.stripped)) := by
  refine ⟨fun s hs => ?_, fun options => ?_⟩
  · obtain ⟨f, hf⟩ := hreads s hs
    obtain ⟨-, hderives⟩ := Fragment.ofSource_ok.1 hf
    obtain ⟨f', hf', hsame⟩ := Fragment.ofSource_stripped hf
    exact ⟨hderives.partitions, s.text_stripped ▸ hderives.stripped_left, f, f', hf, hf', hsame⟩
  by_cases hsome : sources = []
  · subst hsome
    exact .inl ⟨rfl, rfl, rfl⟩
  obtain ⟨fs, hfs⟩ := Document.exists_readAll hreads
  obtain ⟨fs', hfs', hsame⟩ := Document.readAll_stripped hfs
  have hload : Document.load sources = .ok (some ⟨fs⟩) := Document.load_iff.2 ⟨hsome, hfs⟩
  have hload' : Document.load (sources.map Source.stripped) = .ok (some ⟨fs'⟩) :=
    Document.load_iff.2 ⟨by simpa using hsome, hfs'⟩
  refine .inr (build_same hload hload' (fun sort place => ?_) options)
  have hplaced : relocated (fun _ => place) (Document.mk fs').definitions
      = strippedDefinitions (relocated (fun _ => place) (Document.mk fs).definitions) := by
    rw [Document.relocated_definitions, Document.relocated_definitions, hsame, unmarked, unmarked,
      map_strippedDefinitions, map_strippedDefinitions]
  rw [← ofDefinitions_stripped, ← hplaced, ofDefinitions_relocate]

/-- A directive that is defined and applied, once with a comment before its arguments. -/
def directedSource : Source :=
  ⟨"directed",
    "\"\"directive@k on ENUM type Query@k\x7ba(b:Int@k(a:[\")\"])):Int@k#\n(a:1)@deprecated@k\x7d"⟩

theorem build_stripped_directed :
    (∀ s ∈ [directedSource], ∃ f, Fragment.ofSource s = .ok f)
      ∧ directedSource.stripped.text = "  type Query {a(b:Int ):Int @deprecated }"
      ∧ ∀ options, SameOutcome (build options [directedSource])
        (build options [directedSource.stripped]) := by
  have hread : (Fragment.ofSource directedSource).toOption.isSome = true := by
    decide +kernel
  have hreads : ∀ s ∈ [directedSource], ∃ f, Fragment.ofSource s = .ok f :=
    List.forall_mem_singleton.2 (Except.exists_ok hread)
  obtain ⟨-, houtcome⟩ := build_stripped hreads
  refine ⟨hreads, by decide +kernel, fun options => ?_⟩
  exact (houtcome options).resolve_left fun hnone => List.cons_ne_nil _ _ hnone.1

end Graph

end SchemaGraph
