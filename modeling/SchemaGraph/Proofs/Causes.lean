import SchemaGraph.Proofs.Literals
import SchemaGraph.Proofs.Offences
import SchemaGraph.Proofs.Offsets
import SchemaGraph.Proofs.Padding

/-!
# Why a string cannot be read

A string is read unit by unit up to where none is next. There a quote closes it, or a
backslash starts no escape, or its line ends, or the text does. `Halts` tells that place
by the units alone; since none of them is how another one begins, there is just one.

The report on a string that cannot be read is not told why. It looks for a quote up to
the next line feed, and blames an escape if there is one. But a quote may be one that an
escape writes, or may stand behind a carriage return, where the string is over already.
So the report blames an escape for strings in which there is nothing wrong but that they
are not closed, and it is those two kinds of quotes that make the difference.
-/

namespace SchemaGraph

open Text Sdl

/-- The source is refused at the lexeme `found` behind `before`, or at its end. -/
structure Source.Refuses (s : Source) (e : Entry) (r : Report) (u : Unexpected Span)
    (before found after : List Char) : Prop where
  fails : e.reader (lexemes s.text.toList) = .error u
  report : s.report u = r
  whole : s.text.toList = before ++ (found ++ after)
  mark : ∀ l, u.found = some l → l.mark = ⟨byteLength before, byteLength before + byteLength found⟩
  atEnd : u.found = none → found = [] ∧ after = []

theorem Source.read_error_iff {s : Source} {e : Entry} {r : Report} :
    s.read e.reader = .error r ↔ ∃ u before found after, s.Refuses e r u before found after := by
  rw [read]
  constructor
  · intro h
    split at h
    · cases h
    · next u hfails =>
        cases h
        cases hfound : u.found with
        | none => exact ⟨u, s.text.toList, [], [], hfails, rfl, by simp, by simp [hfound], by simp⟩
        | some l =>
            obtain ⟨before, found, after, hcuts⟩ := exists_cut (Entry.found_mem hfails hfound)
            refine ⟨u, before, found, after, hfails, rfl, hcuts.whole, ?_, by simp [hfound]⟩
            rintro l' hl'
            cases hfound.symm.trans hl'
            exact hcuts.mark
  · rintro ⟨u, before, found, after, h⟩
    rw [h.fails, ← h.report]

/-- The lexeme at which a reading has failed. -/
def Sdl.offending? {α : Type} : Except (Unexpected Span) α → Option (Lexeme Span)
  | .ok _ => none
  | .error u => u.found

theorem Source.exists_refuses {s : Source} {e : Entry} {l : Lexeme Span}
    {before found after : List Char}
    (hl : offending? (e.reader (lexemes s.text.toList)) = some l)
    (hwhole : s.text.toList = before ++ (found ++ after))
    (hmark : l.mark = ⟨byteLength before, byteLength before + byteLength found⟩) :
    ∃ r u, s.Refuses e r u before found after := by
  cases hread : e.reader (lexemes s.text.toList) with
  | ok p =>
      rw [hread] at hl
      cases hl
  | error u =>
      rw [hread] at hl
      have hfound : u.found = some l := hl
      refine ⟨_, u, hread, rfl, hwhole, fun l' hl' => ?_, fun hnone => ?_⟩
      · cases hfound.symm.trans hl'
        exact hmark
      · cases hnone.symm.trans hfound

namespace Sdl

/-- The token that stands behind `before` is what a step finds there. -/
theorem token_of_mem_lexemes {l : Lexeme Span} {before cs : List Char} {c : Char}
    (h : l ∈ lexemes (before ++ c :: cs)) (hstart : l.mark.start = byteLength before) :
    (Piece.step c cs).token = some l.token := by
  obtain ⟨ps, p, qs, hpieces, htoken, hstart', -⟩ := exists_cut_of_mem_lexemesFrom h
  have hlength : byteLength before = byteLength (textOf ps) := by
    rw [← hstart, hstart', Nat.zero_add, textOf]
  obtain ⟨d, tail, htext, hstep⟩ := step_of_pieces hpieces
  obtain ⟨-, hrest⟩ := append_inj_of_byteLength (eq_textOf hpieces) hlength
  rw [textOf_cons, htext, List.cons_append] at hrest
  obtain ⟨rfl, rfl⟩ := List.cons.inj hrest
  rw [hstep, htoken]

/-- Units of a string up to where none is next. -/
structure Halts (cs text rest : List Char) : Prop where
  cut : cs = text ++ rest
  body : ∃ value, BodyText text value
  halt : ∀ unit c, UnitText unit c → ¬ unit <+: rest

/-- No unit is how another one begins. -/
theorem UnitText.eq_of_begins {unit unit' : List Char} {c c' : Char} (h : UnitText unit c)
    (h' : UnitText unit' c') (hbegins : unit <+: unit') : unit = unit' := by
  have hhead : ∀ {d d' : Char} {ds ds' : List Char}, d :: ds <+: d' :: ds' → d = d' :=
    fun h => (List.cons_prefix_cons.1 h).1
  cases h with
  | plain quote slash feed ret =>
      cases h' with
      | plain => exact hbegins.eq_of_length rfl
      | short | codePoint => exact absurd (hhead hbegins) slash
  | short escape =>
      cases h' with
      | plain quote slash feed ret => exact absurd (hhead hbegins).symm slash
      | short => exact hbegins.eq_of_length rfl
      | codePoint =>
          obtain rfl := hhead (List.cons_prefix_cons.1 hbegins).2
          simp [shortEscapes] at escape
  | codePoint =>
      cases h' with
      | plain quote slash feed ret => exact absurd (hhead hbegins).symm slash
      | short => exact absurd hbegins.length_le (by simp)
      | codePoint => exact hbegins.eq_of_length rfl

theorem UnitText.ne_nil {unit : List Char} {c : Char} (h : UnitText unit c) : unit ≠ [] := by
  cases h <;> exact List.cons_ne_nil _ _

/-- Of two units that a text starts with, one is how the other begins. -/
theorem UnitText.eq_of_append {unit unit' rest rest' : List Char} {c c' : Char}
    (h : UnitText unit c) (h' : UnitText unit' c') (heq : unit ++ rest = unit' ++ rest') :
    unit = unit' := by
  rcases List.prefix_or_prefix_of_prefix (List.prefix_append unit rest)
    (heq ▸ List.prefix_append unit' rest') with hbegins | hbegins
  · exact h.eq_of_begins h' hbegins
  · exact (h'.eq_of_begins h hbegins).symm

theorem Halts.cons {unit cs text rest : List Char} {c : Char} (hunit : UnitText unit c)
    (h : Halts cs text rest) : Halts (unit ++ cs) (unit ++ text) rest := by
  obtain ⟨rfl, ⟨value, hbody⟩, hhalt⟩ := h
  exact ⟨(List.append_assoc _ _ _).symm, ⟨c :: value, hbody.cons hunit⟩, hhalt⟩

theorem exists_halts (cs : List Char) : ∃ text rest, Halts cs text rest := by
  by_cases h : ∃ unit c, UnitText unit c ∧ unit <+: cs
  · obtain ⟨unit, c, hunit, later, hcut⟩ := h
    have hshorter : later.length < cs.length := by
      have hpos := List.length_pos_of_ne_nil hunit.ne_nil
      rw [← hcut, List.length_append]
      omega
    obtain ⟨text, rest, hlater⟩ := exists_halts later
    exact ⟨unit ++ text, rest, hcut ▸ hlater.cons hunit⟩
  · exact ⟨[], cs, rfl, ⟨[], [], rfl, .nil⟩,
      fun unit c hunit hbegins => h ⟨unit, c, hunit, hbegins⟩⟩
termination_by cs.length
decreasing_by exact hshorter

theorem Halts.unique {cs text rest text' rest' : List Char} (h : Halts cs text rest)
    (h' : Halts cs text' rest') : text = text' ∧ rest = rest' := by
  obtain ⟨rfl, ⟨value, units, rfl, hunits⟩, hhalt⟩ := h
  obtain ⟨hcut, ⟨value', units', rfl, hunits'⟩, hhalt'⟩ := h'
  -- As long as there is a unit on one side there is the same one on the other.
  induction hunits generalizing units' value' with
  | nil =>
      cases hunits' with
      | nil => exact ⟨rfl, hcut⟩
      | cons hunit' _ =>
          refine absurd ?_ (hhalt _ _ hunit')
          rw [List.flatten_cons, List.append_assoc] at hcut
          exact ⟨_, hcut.symm⟩
  | @cons unit c units value hunit _ ih =>
      rw [List.flatten_cons, List.append_assoc] at hcut
      cases hunits' with
      | nil => exact absurd ⟨_, hcut⟩ (hhalt' _ _ hunit)
      | cons hunit' hunits' =>
          rw [List.flatten_cons, List.append_assoc] at hcut
          obtain rfl := hunit.eq_of_append hunit' hcut
          obtain ⟨htext, rfl⟩ := ih _ _ hunits' (List.append_cancel_left hcut)
          exact ⟨by rw [List.flatten_cons, List.flatten_cons, htext], rfl⟩

/-- A string halts at a quote, at a backslash, at a line end or at the end of the text. -/
theorem Halts.head? {cs text rest : List Char} (h : Halts cs text rest) :
    rest = [] ∨ ∃ c ∈ ['"', '\\', '\n', '\r'], rest.head? = some c := by
  cases rest with
  | nil => exact .inl rfl
  | cons c rest =>
      refine .inr ⟨c, ?_, rfl⟩
      by_contra hc
      simp only [List.mem_cons, List.not_mem_nil, or_false, not_or] at hc
      obtain ⟨quote, slash, feed, ret⟩ := hc
      exact h.halt [c] c (.plain quote slash feed ret) ⟨rest, rfl⟩

theorem Closes.halts {cs text value rest : List Char} (h : Closes cs text value rest) :
    Halts cs text ('"' :: rest) := by
  refine ⟨h.cut, ⟨value, h.body⟩, fun unit c hunit hbegins => ?_⟩
  cases hunit with
  | plain quote => exact quote (List.cons_prefix_cons.1 hbegins).1
  | short | codePoint => exact absurd (List.cons_prefix_cons.1 hbegins).1 (by decide)

/-- A string can be read if it halts at a quote, and only then. -/
theorem Halts.literal_eq_none_iff {cs text rest : List Char} (h : Halts cs text rest) :
    StringLiteral.literal cs = none ↔ rest.head? ≠ some '"' := by
  constructor
  · intro hnone hquote
    obtain ⟨after, rfl⟩ := List.head?_eq_some_iff.1 hquote
    obtain ⟨value, hbody⟩ := h.body
    have hcloses : Closes cs text value after := ⟨h.cut, hbody⟩
    cases hnone.symm.trans hcloses.literal
  · intro hquote
    rw [Option.eq_none_iff_forall_ne_some]
    intro scanned hscanned
    obtain ⟨body, hcloses, -⟩ := literal_eq_some_iff.1 hscanned
    obtain ⟨-, rfl⟩ := h.unique hcloses.halts
    exact hquote rfl

theorem UnitText.not_mem_feed {unit : List Char} {c : Char} (h : UnitText unit c) :
    '\n' ∉ unit := by
  have hdigit : ∀ {n d}, IsHexDigit n d → '\n' ≠ d := by
    rintro n _ (h | h) rfl <;> exact absurd (List.mem_of_getElem? h) (by decide)
  cases h with
  | plain _ _ feed _ => simpa using Ne.symm feed
  | short escape =>
      rintro hmem
      simp only [List.mem_cons, List.not_mem_nil, or_false] at hmem
      rcases hmem with hslash | rfl
      · exact absurd hslash (by decide)
      · simp [shortEscapes] at escape
  | codePoint first second third fourth =>
      simp [hdigit first, hdigit second, hdigit third, hdigit fourth]

theorem BodyText.not_mem_feed {text value : List Char} (h : BodyText text value) :
    '\n' ∉ text := by
  obtain ⟨units, rfl, hunits⟩ := h
  induction hunits with
  | nil => exact List.not_mem_nil
  | cons hunit _ ih =>
      rw [List.flatten_cons, List.mem_append, not_or]
      exact ⟨hunit.not_mem_feed, ih⟩

/-- Whether there is a quote before the next line feed. -/
def QuoteAhead (cs : List Char) : Prop := '"' ∈ cs.takeWhile (· != '\n')

theorem quoteAhead_append {text : List Char} (h : '\n' ∉ text) (rest : List Char) :
    QuoteAhead (text ++ rest) ↔ '"' ∈ text ∨ QuoteAhead rest := by
  have hall : ∀ c ∈ text, (c != '\n') = true := fun c hc =>
    bne_iff_ne.2 fun heq => h (heq ▸ hc)
  rw [QuoteAhead, List.takeWhile_append_of_pos hall, List.mem_append, QuoteAhead]

/-- The characters that a token which is not valid takes have no quote among them. -/
theorem quoteAhead_broken (cs : List Char) :
    QuoteAhead (StringLiteral.broken cs).2 ↔ QuoteAhead cs := by
  rw [StringLiteral.broken]
  split
  · next rest hdrop =>
      have hall : ∀ c ∈ cs.takeWhile StringLiteral.isPlain, c ≠ '"' ∧ c ≠ '\n' := fun c hc => by
        obtain ⟨quote, -, feed, -⟩ := isPlain_iff.1 (List.all_eq_true.1 List.all_takeWhile c hc)
        exact ⟨quote, feed⟩
      have hcut := List.takeWhile_append_dropWhile (p := StringLiteral.isPlain) (l := cs)
      rw [hdrop] at hcut
      conv => rhs; rw [← hcut, quoteAhead_append fun h => (hall _ h).2 rfl]
      exact (or_iff_right fun h => (hall _ h).1 rfl).symm
  · rfl

theorem stringFault_message_iff (rest : List Char) :
    ((stringFault rest).message = "Invalid escape sequence in string." ↔ QuoteAhead rest)
      ∧ ((stringFault rest).message = "Unterminated string." ↔ ¬ QuoteAhead rest) := by
  have hdiffer : LexicalFault.badEscape.message ≠ LexicalFault.unterminatedString.message := by
    decide
  have hahead : (rest.takeWhile (· != '\n')).contains '"' = true ↔ QuoteAhead rest :=
    List.contains_iff_mem
  rw [stringFault]
  split
  · next h =>
      have hquote := hahead.1 h
      exact ⟨iff_of_true rfl hquote, iff_of_false hdiffer (not_not_intro hquote)⟩
  · next h =>
      have hquote := mt hahead.2 h
      exact ⟨iff_of_false hdiffer.symm hquote, iff_of_true rfl hquote⟩

/-- A token that begins with a quote is a string if it halts at a quote, and else not valid. -/
theorem Piece.string_token {cs text rest : List Char} (h : Halts cs text rest)
    (hplain : ¬ ['"', '"'] <+: cs) :
    (rest.head? = some '"' → ∃ value, (string cs).token = some (.string value))
      ∧ (rest.head? ≠ some '"' → (string cs).token
        = some (.invalid (stringFault (StringLiteral.broken cs).2))) := by
  by_cases hempty : cs.head? = some '"'
  · -- The empty string, which halts where it starts.
    obtain ⟨after, rfl⟩ := List.head?_eq_some_iff.1 hempty
    have hcloses : Closes ('"' :: after) [] [] after := ⟨rfl, [], rfl, .nil⟩
    obtain ⟨-, rfl⟩ := h.unique hcloses.halts
    have hafter : after.head? ≠ some '"' := by
      intro hhead
      obtain ⟨more, rfl⟩ := List.head?_eq_some_iff.1 hhead
      exact hplain ⟨more, rfl⟩
    exact ⟨fun _ => ⟨"", by rw [string_of_empty hafter]⟩, fun hquote => absurd rfl hquote⟩
  constructor
  · intro hquote
    have hliteral := mt h.literal_eq_none_iff.1 (not_not_intro hquote)
    obtain ⟨s, hs⟩ := Option.ne_none_iff_exists'.1 hliteral
    exact ⟨_, by rw [string_of_literal hempty hs]⟩
  · intro hquote
    rw [string_of_broken hempty (h.literal_eq_none_iff.2 hquote)]

end Sdl

theorem Source.Refuses.message {s : Source} {e : Entry} {r : Report} {u : Unexpected Span}
    {before found after : List Char} (h : s.Refuses e r u before found after) :
    (∀ fault, u.found.map Lexeme.token = some (.invalid fault) → r.message = fault.message)
      ∧ ((∀ fault, u.found.map Lexeme.token ≠ some (.invalid fault)) →
        ∀ fault : LexicalFault, r.message ≠ fault.message) := by
  obtain rfl := h.report
  refine ⟨fun fault => Unexpected.message_fault, fun hvalid fault => ?_⟩
  have hmessage : (s.report u).message = _ := Unexpected.message_grammar hvalid
  rw [hmessage]
  exact Expectation.message_ne u.expected _ fault

/--
Where a text is refused at a token that begins with a quote and opens no block, the string
halts at one place. If that is a quote, the string can be read, and nothing is said about
how it is written. Otherwise it cannot, and the report is either that an escape in it is not
valid or that it is not closed: the first if an escape in front of that place writes a quote,
or if there is a quote behind it and before the next line feed, and else the second.
-/
theorem Source.Refuses.string_causes {s : Source} {e : Entry} {r : Report} {u : Unexpected Span}
    {before found after cs : List Char} (h : s.Refuses e r u before found after)
    (hquote : found ++ after = '"' :: cs) (hplain : ¬ ['"', '"'] <+: cs) :
    s.read e.reader = .error r ∧ ∃ text rest, Halts cs text rest
      ∧ (∀ text' rest', Halts cs text' rest' → text' = text ∧ rest' = rest)
      ∧ (rest = [] ∨ ∃ c ∈ ['"', '\\', '\n', '\r'], rest.head? = some c)
      ∧ (rest.head? = some '"' → ∀ fault : LexicalFault, r.message ≠ fault.message)
      ∧ (rest.head? ≠ some '"' →
        (r.message = "Invalid escape sequence in string." ↔ '"' ∈ text ∨ QuoteAhead rest)
        ∧ (r.message = "Unterminated string." ↔ '"' ∉ text ∧ ¬ QuoteAhead rest)) := by
  obtain ⟨text, rest, hhalts⟩ := exists_halts cs
  obtain ⟨l, hfound⟩ : ∃ l, u.found = some l := by
    rw [← Option.ne_none_iff_exists']
    intro hnone
    obtain ⟨rfl, rfl⟩ := h.atEnd hnone
    cases hquote
  have htoken : (Piece.string cs).token = some l.token := by
    have hmem := Entry.found_mem h.fails hfound
    rw [h.whole, hquote] at hmem
    exact token_of_mem_lexemes hmem (by rw [h.mark l hfound])
  obtain ⟨hfault, hvalid⟩ := h.message
  rw [hfound, Option.map_some, ← htoken] at hfault hvalid
  obtain ⟨hclosed, hbroken⟩ := Piece.string_token hhalts hplain
  refine ⟨read_error_iff.2 ⟨u, before, found, after, h⟩, text, rest, hhalts,
    fun _ _ h' => h'.unique hhalts, hhalts.head?, fun hhead => ?_, fun hhead => ?_⟩
  · obtain ⟨value, hvalue⟩ := hclosed hhead
    exact hvalid fun fault hinvalid => by cases hvalue.symm.trans hinvalid
  · obtain ⟨value, hbody⟩ := hhalts.body
    rw [hfault _ (hbroken hhead), ← not_or, ← quoteAhead_append hbody.not_mem_feed,
      ← hhalts.cut, ← quoteAhead_broken]
    exact stringFault_message_iff _

/-- A string that is not closed, with an escape in it that writes a quote. -/
def openSource : Source := ⟨"open", "\"a\\\"b"⟩

theorem Source.Refuses.string_causes_open :
    ∃ r u, openSource.Refuses .value r u [] ['"', 'a'] ['\\', '"', 'b']
      ∧ Halts ['a', '\\', '"', 'b'] ['a', '\\', '"', 'b'] []
      ∧ r.message = "Invalid escape sequence in string." := by
  have hfound : offending? (Entry.value.reader (lexemes openSource.text.toList))
      = some ⟨.invalid .badEscape, ⟨0, 2⟩⟩ := by decide +kernel
  obtain ⟨r, u, hrefuses⟩ : ∃ r u, openSource.Refuses .value r u [] ['"', 'a']
      ['\\', '"', 'b'] := Source.exists_refuses hfound (by decide) (by decide)
  have hbody : BodyText ['a', '\\', '"', 'b'] ['a', '"', 'b'] :=
    ⟨[['a'], ['\\', '"'], ['b']], rfl,
      .cons (.plain (by decide) (by decide) (by decide) (by decide))
        (.cons (.short (by decide))
          (.cons (.plain (by decide) (by decide) (by decide) (by decide)) .nil))⟩
  have hhalts : Halts ['a', '\\', '"', 'b'] ['a', '\\', '"', 'b'] [] :=
    ⟨rfl, ⟨_, hbody⟩, fun unit c hunit h => hunit.ne_nil (List.prefix_nil.1 h)⟩
  obtain ⟨-, text, rest, -, hunique, -, -, hsaid⟩ := hrefuses.string_causes rfl (by decide)
  obtain ⟨rfl, rfl⟩ := hunique _ _ hhalts
  obtain ⟨hescape, -⟩ := hsaid (by decide)
  exact ⟨r, u, hrefuses, hhalts, hescape.2 (.inl (by decide))⟩

end SchemaGraph
