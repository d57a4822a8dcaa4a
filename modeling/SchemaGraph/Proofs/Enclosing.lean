import SchemaGraph.Proofs.Literals

/-!
# What a block string encloses

A text is put into a block string by a backslash in front of each three quotes of it. To
take it out again, the block is read from left to right, where a backslash and three
quotes are read at once, as is any other character: the first three quotes that are left
over close the block. `Symbol` is what is read at once, and knows nothing of where a block
ends.

What may go wrong is that quotes come together which did not belong together: one or two
of the text with a closing one, or a backslash of the text with the closing three. Within
the text neither can happen, since three of its quotes are always behind a backslash, and
three quotes with a backslash of the text in front are behind two. So it can only happen
at its end, and it does not if the text ends in neither of them.
-/

namespace SchemaGraph.Sdl

open Text

namespace BlockString

/-- What opens a block string, and closes it. -/
def fence : List Char := ['"', '"', '"']

/-- A text as a block string holds it: with a backslash before each three quotes. -/
def escaped : List Char → List Char
  | [] => []
  | '"' :: '"' :: '"' :: cs => '\\' :: '"' :: '"' :: '"' :: escaped cs
  | c :: cs => c :: escaped cs

/-- What is read at once of a block string: a character, or three quotes behind a backslash. -/
inductive Symbol where
  | char (c : Char)
  | quotes
deriving DecidableEq

namespace Symbol

/-- How a symbol is written. -/
def text : Symbol → List Char
  | char c => [c]
  | quotes => ['\\', '"', '"', '"']

/-- What a symbol stands for. -/
def value : Symbol → List Char
  | char c => [c]
  | quotes => ['"', '"', '"']

end Symbol

/-- What symbols write, one after the other. -/
def written (ms : List Symbol) : List Char := ms.flatMap Symbol.text

/-- What symbols stand for, one after the other. -/
def meant (ms : List Symbol) : List Char := ms.flatMap Symbol.value

/-- The symbols of a text, from left to right. -/
def symbols : List Char → List Symbol
  | [] => []
  | '\\' :: '"' :: '"' :: '"' :: cs => .quotes :: symbols cs
  | c :: cs => .char c :: symbols cs

/-- Three quotes that are not behind a backslash, as symbols. -/
def closing : List Symbol := fence.map .char

/-- The symbols in front of the first three quotes that no backslash is before, and those behind. -/
structure Encloses (ms inside outside : List Symbol) : Prop where
  cut : ms = inside ++ (closing ++ outside)
  first : ∀ front, front ++ closing <+: ms → inside.length ≤ front.length

theorem Encloses.unique {ms inside outside inside' outside' : List Symbol}
    (h : Encloses ms inside outside) (h' : Encloses ms inside' outside') :
    inside = inside' ∧ outside = outside' := by
  have hlength : inside.length = inside'.length :=
    Nat.le_antisymm (h.first inside' ⟨outside', by rw [h'.cut, List.append_assoc]⟩)
      (h'.first inside ⟨outside, by rw [h.cut, List.append_assoc]⟩)
  obtain ⟨hinside, houtside⟩ := List.append_inj (h.cut.symm.trans h'.cut) hlength
  exact ⟨hinside, List.append_cancel_left houtside⟩

/-- The symbols of a text write the text. -/
theorem written_symbols (cs : List Char) : written (symbols cs) = cs := by
  fun_induction symbols cs with
  | case1 => rfl
  | case2 cs ih => exact congrArg (Symbol.quotes.text ++ ·) ih
  | case3 c cs _ ih => exact congrArg (c :: ·) ih

theorem written_append (ms ns : List Symbol) : written (ms ++ ns) = written ms ++ written ns :=
  List.flatMap_append

theorem symbols_quote (cs : List Char) : symbols ('"' :: cs) = .char '"' :: symbols cs := by
  rw [symbols]
  rintro _ ⟨⟩

theorem symbols_fence (cs : List Char) : symbols (fence ++ cs) = closing ++ symbols cs := by
  simp only [fence, closing, List.cons_append, List.nil_append, symbols_quote, List.map_cons,
    List.map_nil]

/-- Symbols that are characters are those of the text. -/
theorem prefix_of_symbols {found cs : List Char} (h : found.map .char <+: symbols cs) :
    found <+: cs := by
  obtain ⟨later, hlater⟩ := h
  refine ⟨written later, ?_⟩
  rw [← written_symbols cs, ← hlater, written_append]
  simp [written, Symbol.text, List.flatMap_map]

/-- Whether a scan says what the symbols of a text enclose, and fails if they enclose nothing. -/
def Finds (ms : List Symbol) : Option Scanned → Prop
  | some s => ∃ inside, Encloses ms inside (symbols s.rest) ∧ s.value = meant inside
      ∧ s.text = written inside ++ fence
  | none => ¬ closing <:+: ms

/-- A symbol in front with which no three quotes start is only put in front. -/
theorem Finds.cons {m : Symbol} {ms : List Symbol} (hm : ¬ closing <+: m :: ms)
    {found : Option Scanned} (h : Finds ms found) :
    Finds (m :: ms) (found.map (.prepend m.value m.text)) := by
  cases found with
  | none => exact fun hclosing => (List.infix_cons_iff.1 hclosing).elim hm h
  | some s =>
      obtain ⟨inside, ⟨hcut, hfirst⟩, hvalue, htext⟩ := h
      refine ⟨m :: inside, ⟨by rw [hcut]; rfl, fun front hfront => ?_⟩,
        congrArg (m.value ++ ·) hvalue, ?_⟩
      · cases front with
        | nil => exact absurd hfront hm
        | cons m' front => exact Nat.succ_le_succ (hfirst front (List.cons_prefix_cons.1 hfront).2)
      · exact (congrArg (m.text ++ ·) htext).trans (List.append_assoc _ _ _).symm

theorem scan_finds (cs : List Char) : Finds (symbols cs) (scan cs) := by
  fun_induction scan cs with
  | case1 => simp [Finds, symbols, closing, fence]
  | case2 cs ih => exact ih.cons fun h => by cases (List.cons_prefix_cons.1 h).1
  | case3 cs => exact ⟨[], ⟨symbols_fence cs, fun _ _ => Nat.zero_le _⟩, rfl, rfl⟩
  | case4 c cs hescape hfence ih =>
      have hsymbols : symbols (c :: cs) = .char c :: symbols cs := by
        rw [symbols]
        exact hescape
      have hclosing : ¬ closing <+: Symbol.char c :: symbols cs := by
        rw [← hsymbols]
        intro h
        obtain ⟨rest, hrest⟩ := prefix_of_symbols h
        obtain ⟨rfl, rfl⟩ := List.cons.inj hrest
        exact hfence rest rfl rfl
      rw [hsymbols]
      exact ih.cons hclosing

/-- A quote that an escaped text starts with is one of the text, where no three quotes start. -/
theorem exists_of_escaped {cs rest : List Char} (hne : cs ≠ [])
    (h : escaped cs ++ fence = '"' :: rest) :
    ∃ ds, cs = '"' :: ds ∧ escaped ds ++ fence = rest ∧ ¬ fence <+: cs := by
  revert h
  fun_cases escaped cs with
  | case1 => exact absurd rfl hne
  | case2 cs => rintro ⟨⟩
  | case3 c cs hfence =>
      intro h
      obtain ⟨rfl, hrest⟩ := List.cons.inj h
      refine ⟨cs, rfl, hrest, ?_⟩
      rintro ⟨tail, htail⟩
      exact hfence tail rfl (List.cons.inj htail).2.symm

/-- A text that does not end in a quote has other characters between its quotes and those behind. -/
theorem not_fence_prefix {cs : List Char} (hne : cs ≠ []) (hquote : cs.getLast? ≠ some '"') :
    ¬ fence <+: escaped cs ++ fence := by
  have htail : ∀ {ds : List Char}, ('"' :: ds).getLast? ≠ some '"' →
      ds ≠ [] ∧ ds.getLast? ≠ some '"' := by
    refine fun hds => ⟨?_, getLast?_ne_of_cons hds⟩
    rintro rfl
    exact hds rfl
  rintro ⟨rest, hrest⟩
  obtain ⟨ds, rfl, hds, hfence⟩ := exists_of_escaped hne hrest.symm
  obtain ⟨hne, hquote⟩ := htail hquote
  obtain ⟨es, rfl, hes, -⟩ := exists_of_escaped hne hds
  obtain ⟨hne, -⟩ := htail hquote
  obtain ⟨fs, rfl, -, -⟩ := exists_of_escaped hne hes
  exact hfence ⟨fs, rfl⟩

/-- An escaped text is the content of a block string unless it ends in a quote or a backslash. -/
theorem blockContent_escaped {cs : List Char} (hquote : cs.getLast? ≠ some '"')
    (hslash : cs.getLast? ≠ some '\\') : BlockContent cs (escaped cs ++ fence) := by
  fun_induction escaped cs with
  | case1 => exact .close
  | case2 cs ih =>
      exact .quotes (ih (getLast?_ne_of_cons (getLast?_ne_of_cons (getLast?_ne_of_cons hquote)))
        (getLast?_ne_of_cons (getLast?_ne_of_cons (getLast?_ne_of_cons hslash))))
  | case3 c cs hfence ih =>
      have hescaped : escaped (c :: cs) = c :: escaped cs := by
        rw [escaped]
        exact hfence
      refine .char ?_ ?_ (ih (getLast?_ne_of_cons hquote) (getLast?_ne_of_cons hslash))
      · have hprefix := not_fence_prefix (List.cons_ne_nil c cs) hquote
        rwa [hescaped] at hprefix
      · intro h
        obtain ⟨rfl, hrest⟩ := List.cons_prefix_cons.1 h
        refine not_fence_prefix ?_ (getLast?_ne_of_cons hquote) hrest
        rintro rfl
        exact hslash rfl

end BlockString

open BlockString

theorem lexemesAt_fence (offset : Nat) (cs : List Char) :
    lexemesAt offset (fence ++ cs) = match BlockString.scan cs with
      | some s =>
        ⟨.string (String.ofList (dedent s.value)),
            ⟨offset, offset + byteLength (fence ++ s.text)⟩⟩
          :: lexemesAt (offset + byteLength (fence ++ s.text)) s.rest
      | none =>
        ⟨.invalid .unterminatedBlock, ⟨offset, offset + byteLength fence⟩⟩
          :: lexemesAt (offset + byteLength fence) cs := by
  cases hscan : BlockString.scan cs with
  | some s =>
      refine lexemesAt_quote offset ('"' :: '"' :: cs) ?_
      rw [Piece.string, hscan]
      rfl
  | none =>
      refine lexemesAt_quote offset ('"' :: '"' :: cs) ?_
      rw [Piece.string, hscan]

theorem lexemesAt_encloses (before : List Char) {cs : List Char} {inside outside : List Symbol}
    (h : Encloses (symbols cs) inside outside) :
    lexemesAt (byteLength before) (fence ++ cs)
      = ⟨.string (String.ofList (dedent (meant inside))), ⟨byteLength before,
          byteLength (before ++ (fence ++ (written inside ++ fence)))⟩⟩
        :: lexemesAt (byteLength (before ++ (fence ++ (written inside ++ fence))))
          (written outside) := by
  have hfound := scan_finds cs
  rw [lexemesAt_fence]
  cases hscan : BlockString.scan cs with
  | none =>
      rw [hscan] at hfound
      exact absurd ⟨inside, outside, by rw [h.cut, List.append_assoc]⟩ hfound
  | some s =>
      rw [hscan] at hfound
      obtain ⟨found, hfound, hvalue, htext⟩ := hfound
      obtain ⟨rfl, rfl⟩ := h.unique hfound
      simp only [hvalue, htext, written_symbols, byteLength_append]

theorem exists_encloses {cs : List Char} (h : closing <:+: symbols cs) :
    ∃ inside outside, Encloses (symbols cs) inside outside := by
  have hfound := scan_finds cs
  cases hscan : BlockString.scan cs with
  | none =>
      rw [hscan] at hfound
      exact absurd h hfound
  | some s =>
      rw [hscan] at hfound
      obtain ⟨inside, hinside, -⟩ := hfound
      exact ⟨inside, _, hinside⟩

theorem lexemesAt_unclosed (before : List Char) {cs : List Char} (h : ¬ closing <:+: symbols cs) :
    lexemesAt (byteLength before) (fence ++ cs)
      = ⟨.invalid .unterminatedBlock, ⟨byteLength before, byteLength (before ++ fence)⟩⟩
        :: lexemesAt (byteLength (before ++ fence)) cs := by
  have hfound := scan_finds cs
  rw [lexemesAt_fence]
  cases hscan : BlockString.scan cs with
  | none => simp only [byteLength_append]
  | some s =>
      rw [hscan] at hfound
      obtain ⟨inside, hinside, -⟩ := hfound
      exact absurd ⟨inside, _, by rw [hinside.cut, List.append_assoc]⟩ h

/--
A text that ends neither in a quote nor in a backslash comes out of a block string as it
was put in, whatever follows, less the indentation that any block loses. And behind three
quotes that open a string there is one if three quotes follow which no backslash is right
before, in a reading from left to right; the first three of them close it, and what is in
front of them says what it is.
-/
theorem blockString_unescapes (before : List Char) :
    (∀ text rest : List Char, text.getLast? ≠ some '"' → text.getLast? ≠ some '\\' →
      lexemesAt (byteLength before) (fence ++ (escaped text ++ (fence ++ rest)))
        = ⟨.string (String.ofList (dedent text)), ⟨byteLength before,
            byteLength (before ++ (fence ++ (escaped text ++ fence)))⟩⟩
          :: lexemesAt (byteLength (before ++ (fence ++ (escaped text ++ fence)))) rest)
    ∧ ∀ cs : List Char,
      ((∃ s m ts, lexemesAt (byteLength before) (fence ++ cs) = ⟨.string s, m⟩ :: ts)
        ↔ closing <:+: symbols cs)
      ∧ (¬ closing <:+: symbols cs → lexemesAt (byteLength before) (fence ++ cs)
        = ⟨.invalid .unterminatedBlock, ⟨byteLength before, byteLength (before ++ fence)⟩⟩
          :: lexemesAt (byteLength (before ++ fence)) cs)
      ∧ (closing <:+: symbols cs → ∃ inside outside, Encloses (symbols cs) inside outside)
      ∧ ∀ inside outside, Encloses (symbols cs) inside outside →
        cs = written inside ++ (fence ++ written outside)
        ∧ lexemesAt (byteLength before) (fence ++ cs)
          = ⟨.string (String.ofList (dedent (meant inside))), ⟨byteLength before,
              byteLength (before ++ (fence ++ (written inside ++ fence)))⟩⟩
            :: lexemesAt (byteLength (before ++ (fence ++ (written inside ++ fence))))
              (written outside) := by
  refine ⟨fun text rest hquote hslash => ?_, fun cs => ?_⟩
  · have hscan := (blockContent_escaped hquote hslash).scan rest
    rw [List.append_assoc] at hscan
    rw [lexemesAt_fence, hscan]
    simp only [byteLength_append]
  refine ⟨⟨fun hstring => ?_, fun hclosing => ?_⟩, lexemesAt_unclosed before, exists_encloses,
    fun inside outside h => ⟨?_, lexemesAt_encloses before h⟩⟩
  · by_contra hunclosed
    obtain ⟨s, m, ts, hstring⟩ := hstring
    cases (lexemesAt_unclosed before hunclosed).symm.trans hstring
  · obtain ⟨inside, outside, h⟩ := exists_encloses hclosing
    exact ⟨_, _, _, lexemesAt_encloses before h⟩
  · conv => lhs; rw [← written_symbols cs, h.cut, written_append, written_append]
    rfl

/-- Four quotes and a backslash within the text, and a quote right behind the block. -/
theorem blockString_unescapes_quoted :
    "a\"\"\"\"\\b".toList.getLast? ≠ some '"' ∧ "a\"\"\"\"\\b".toList.getLast? ≠ some '\\'
      ∧ lexemesAt 2 "\"\"\"a\\\"\"\"\"\\b\"\"\"\" c".toList
        = ⟨.string "a\"\"\"\"\\b", ⟨2, 16⟩⟩ :: lexemesAt 16 "\" c".toList
      ∧ ∃ inside outside,
        Encloses (symbols "a\\\"\"\"\"\\b\"\"\"\" c".toList) inside outside := by
  obtain ⟨hescaped, hread⟩ := blockString_unescapes "  ".toList
  have hquoted := hescaped "a\"\"\"\"\\b".toList "\" c".toList (by decide) (by decide)
  have htext : fence ++ (escaped "a\"\"\"\"\\b".toList ++ (fence ++ "\" c".toList))
      = "\"\"\"a\\\"\"\"\"\\b\"\"\"\" c".toList := by
    decide
  have hvalue : String.ofList (dedent "a\"\"\"\"\\b".toList) = "a\"\"\"\"\\b" := by decide
  have hstart : byteLength "  ".toList = 2 := by decide
  have hstop :
      byteLength ("  ".toList ++ (fence ++ (escaped "a\"\"\"\"\\b".toList ++ fence))) = 16 := by
    decide
  rw [htext, hvalue, hstart, hstop] at hquoted
  obtain ⟨-, -, hencloses, -⟩ := hread "a\\\"\"\"\"\\b\"\"\"\" c".toList
  have hclosing : closing <:+: symbols "a\\\"\"\"\"\\b\"\"\"\" c".toList :=
    ⟨[.char 'a', .quotes, .char '"', .char '\\', .char 'b'], symbols "\" c".toList, by decide⟩
  exact ⟨by decide, by decide, hquoted, hencloses hclosing⟩

end SchemaGraph.Sdl
