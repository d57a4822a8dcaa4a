import SchemaGraph.Proofs.LongestMatch
import SchemaGraph.Proofs.Remainder
import SchemaGraph.Proofs.Remarking

/-!
# Text behind a line end

No valid token goes on over a line end unless it is a block string, and that one says
itself where it ends. So if more text is written behind a text whose tokens are all
valid, with a line end in between, then the tokens of both are found, as they were
found before. The line end matters twice: it ends a token that would go on with the
characters behind it, and it ends a comment. White space would do the first but not
the second.

The tokens behind the line end stand further back than they did, and nothing else about
them is different.
-/

namespace SchemaGraph

section

variable {rule : List Char → Prop} {cs more : List Char}
  {found? found?' : Option (List Char × List Char)}

theorem LongestAt.unique (h : LongestAt rule cs found?) (h' : LongestAt rule cs found?') :
    found? = found?' := by
  have hle : ∀ {o o' : Option (List Char × List Char)}, LongestAt rule cs o →
      LongestAt rule cs o' → ∀ {found rest}, o = some (found, rest) →
        ∃ found' rest', o' = some (found', rest') ∧ found.length ≤ found'.length := by
    intro o o' ho ho' found rest hfound
    exact ho'.longest (ho.sound hfound) ⟨rest, ho.append hfound⟩
  cases found? with
  | none =>
      cases found?' with
      | none => rfl
      | some q =>
          obtain ⟨_, _, hnone, -⟩ := hle h' h rfl
          cases hnone
  | some p =>
      obtain ⟨found, rest, rfl, hlength⟩ := hle h h' rfl
      obtain ⟨found', rest', hfound', hlength'⟩ := hle h' h rfl
      cases hfound'
      have hsplit := (h.append rfl).trans (h'.append rfl).symm
      obtain ⟨hfound, hrest⟩ := List.append_inj hsplit (Nat.le_antisymm hlength hlength')
      rw [← hfound, ← hrest]

/-- A match does not reach into what starts with a character that it cannot have. -/
theorem LongestAt.append_behind {q : Char → Bool} (h : LongestAt rule cs found?)
    (hrule : ∀ p, rule p → ∀ c ∈ p, q c = true) (hmore : Stops q more) :
    LongestAt rule (cs ++ more) (found?.map fun p => (p.1, p.2 ++ more)) where
  append {found rest} hfound := by
    obtain ⟨⟨front, back⟩, hfront, heq⟩ := Option.map_eq_some_iff.1 hfound
    cases heq
    rw [← List.append_assoc, h.append hfront]
  sound {found rest} hfound := by
    obtain ⟨⟨front, back⟩, hfront, heq⟩ := Option.map_eq_some_iff.1 hfound
    cases heq
    exact h.sound hfront
  longest {p} hp hprefix := by
    have hcs : p <+: cs := by
      rcases List.prefix_or_prefix_of_prefix hprefix (List.prefix_append cs more) with hcs | hcs
      · exact hcs
      obtain ⟨beyond, rfl⟩ := hcs
      have hover := (List.prefix_append_right_inj cs).1 hprefix
      cases beyond with
      | nil => simp
      | cons c beyond =>
          obtain ⟨tail, rfl⟩ := hover
          have hc := hrule _ hp c (List.mem_append_right _ List.mem_cons_self)
          rw [hmore c rfl] at hc
          cases hc
    obtain ⟨found, rest, rfl, hle⟩ := h.longest hp hcs
    exact ⟨found, rest ++ more, rfl, hle⟩

end

theorem takeWhile_behind {p : Char → Bool} {more : List Char} (h : Stops p more)
    (cs : List Char) : (cs ++ more).takeWhile p = cs.takeWhile p := by
  induction cs with
  | nil => exact takeWhile_append_stops (fun _ hc => nomatch hc) h
  | cons c cs ih =>
      rw [List.cons_append, List.takeWhile_cons, List.takeWhile_cons, ih]

theorem dropWhile_behind {p : Char → Bool} {more : List Char} (h : Stops p more)
    (cs : List Char) : (cs ++ more).dropWhile p = cs.dropWhile p ++ more := by
  induction cs with
  | nil => exact dropWhile_append_stops (fun _ hc => nomatch hc) h
  | cons c cs ih =>
      rw [List.cons_append, List.dropWhile_cons, List.dropWhile_cons, ih]
      split <;> rfl

namespace Text.Number

/-- Whether a character can stand in a number. -/
def isNumberChar (c : Char) : Bool := isRest c || c == '+' || c == '-'

theorem IsDigits.isNumberChar {cs : List Char} (h : IsDigits cs) :
    ∀ c ∈ cs, isNumberChar c = true := by
  intro c hc
  simp [Number.isNumberChar, isRest, h.2 c hc]

theorem IsWholePart.isNumberChar {cs : List Char} (h : IsWholePart cs) :
    ∀ c ∈ cs, isNumberChar c = true := by
  cases h with
  | plain digits => exact digits.isDigits.isNumberChar
  | minus digits => exact List.forall_mem_cons.2 ⟨rfl, digits.isDigits.isNumberChar⟩

theorem IsFraction.isNumberChar {cs : List Char} (h : IsFraction cs) :
    ∀ c ∈ cs, isNumberChar c = true := by
  obtain ⟨digits⟩ := h
  exact List.forall_mem_cons.2 ⟨rfl, digits.isNumberChar⟩

theorem IsExponent.isNumberChar {cs : List Char} (h : IsExponent cs) :
    ∀ c ∈ cs, isNumberChar c = true := by
  have hpower : ∀ {ds}, IsPower ds → ∀ c ∈ ds, Number.isNumberChar c = true := by
    intro ds power
    cases power with
    | plain digits => exact digits.isNumberChar
    | plus digits | minus digits => exact List.forall_mem_cons.2 ⟨rfl, digits.isNumberChar⟩
  cases h with
  | lower power | upper power => exact List.forall_mem_cons.2 ⟨rfl, hpower power⟩

section

variable {more : List Char} (hmore : Stops isNumberChar more)

include hmore

theorem optionally_behind {rule : List Char → Prop}
    {read? : List Char → Option (List Char × List Char)} (h : Longest rule read?)
    (hrule : ∀ p, rule p → ∀ c ∈ p, isNumberChar c = true) (cs : List Char) :
    optionally read? (cs ++ more)
      = ((optionally read? cs).1, (optionally read? cs).2 ++ more) := by
  rw [optionally, (h (cs ++ more)).unique ((h cs).append_behind hrule hmore), optionally]
  cases read? cs <;> rfl

theorem read?_behind (cs : List Char) :
    read? (cs ++ more) = (read? cs).map fun q => (q.1, q.2 ++ more) := by
  have hwhole := (readWhole?_longest (cs ++ more)).unique
    ((readWhole?_longest cs).append_behind (fun _ => IsWholePart.isNumberChar) hmore)
  rw [read?, hwhole, read?]
  cases readWhole? cs with
  | none => rfl
  | some q =>
      simp only [Option.map_some,
        optionally_behind hmore readFraction?_longest (fun _ => IsFraction.isNumberChar),
        optionally_behind hmore readExponent?_longest (fun _ => IsExponent.isNumberChar)]

end

end Text.Number

namespace Sdl

/-- The characters that end every token but a string, and start none. -/
def separators : List Char := [' ', ',', '\t', '\n', '\r', '\x0c', byteOrderMark, '#']

/-- Whether a text starts with such a character. -/
def Separated (more : List Char) : Prop := ∃ c ∈ separators, more.head? = some c

theorem Separated.stops {p : Char → Bool} {more : List Char} (h : Separated more)
    (hp : separators.all (!p ·) = true) : Stops p more := by
  obtain ⟨c, hc, hhead⟩ := h
  intro d hd
  cases hhead.symm.trans hd
  simpa using List.all_eq_true.1 hp c hc

/-- The step from a place, with more text behind what it leaves. -/
def Piece.Step.behind (s : Piece.Step) (more : List Char) : Piece.Step :=
  ⟨s.token, s.tail, s.rest ++ more⟩

theorem run_behind {token : List Char → Option Token} {p : Char → Bool} {more : List Char}
    (h : Stops p more) (cs : List Char) :
    Piece.run token p (cs ++ more) = (Piece.run token p cs).behind more := by
  rw [Piece.run, takeWhile_behind h, dropWhile_behind h]
  rfl

theorem scan_behind {block : List Char} {s : Scanned} (h : BlockString.scan block = some s)
    (more : List Char) :
    BlockString.scan (block ++ more) = some ⟨s.value, s.text, s.rest ++ more⟩ := by
  have hscan := (blockContent_of_scan h).scan (s.rest ++ more)
  rwa [← List.append_assoc, BlockString.scan_append h] at hscan

theorem literal_behind {cs : List Char} {s : Scanned} (h : StringLiteral.literal cs = some s)
    (more : List Char) :
    StringLiteral.literal (cs ++ more) = some ⟨s.value, s.text, s.rest ++ more⟩ := by
  obtain ⟨text, htext, content⟩ := stringContent_of_body (StringLiteral.literal_eq_body cs ▸ h)
  have hwhole : cs ++ more = text ++ '"' :: (s.rest ++ more) := by
    rw [← StringLiteral.literal_append h, htext]
    simp
  rw [StringLiteral.literal_eq_body, hwhole, content.body, htext]

section

variable {more : List Char} (hmore : Separated more)

include hmore

theorem number_behind (c : Char) (cs : List Char) :
    Piece.number c (cs ++ more) = (Piece.number c cs).behind more := by
  have hread := Text.Number.read?_behind (hmore.stops (by decide)) (c :: cs)
  rw [List.cons_append] at hread
  rw [Piece.number, hread, Piece.number]
  cases Text.Number.read? (c :: cs) <;> rfl

theorem directive_behind (cs : List Char) :
    Piece.directive (cs ++ more) = (Piece.directive cs).behind more := by
  cases cs with
  | nil =>
      have hstart : Stops isNameStart more := hmore.stops (by decide)
      cases more with
      | nil => rfl
      | cons c more =>
          rw [List.nil_append, Piece.directive, if_neg (by simp [hstart c rfl])]
          rfl
  | cons d ds =>
      rw [List.cons_append, Piece.directive, Piece.directive]
      split
      · rw [← List.cons_append]
        exact run_behind (hmore.stops (by decide)) _
      · rfl

theorem string_behind {cs : List Char} {token : Token}
    (h : (Piece.string cs).token = some token) (hvalid : token.isValid = true) :
    Piece.string (cs ++ more) = (Piece.string cs).behind more := by
  rw [Piece.string.eq_def cs] at h ⊢
  split at h
  · next block =>
      split at h
      · next s hs =>
          rw [List.cons_append, List.cons_append, Piece.string, scan_behind hs]
          rfl
      · cases h
        cases hvalid
  · next rest hblock =>
      have hquote : Stops (· == '"') more := hmore.stops (by decide)
      have hrest : (rest ++ more).head? ≠ some '"' := by
        cases rest with
        | nil => exact fun hhead => absurd (hquote '"' hhead) (by decide)
        | cons d ds =>
            rintro ⟨⟩
            exact hblock ds rfl
      rw [List.cons_append, Piece.string_of_empty hrest]
      rfl
  · next hblock hempty =>
      split at h
      · next s hs =>
          have hquote : (cs ++ more).head? ≠ some '"' := by
            cases cs with
            | nil => cases hs
            | cons d ds =>
                rintro ⟨⟩
                exact hempty ds rfl
          rw [Piece.string_of_literal hquote (literal_behind hs more)]
          rfl
      · cases h
        cases hvalid

theorem step_behind {c : Char} {cs : List Char} {token : Token}
    (h : (Piece.step c cs).token = some token) (hvalid : token.isValid = true) :
    Piece.step c (cs ++ more) = (Piece.step c cs).behind more := by
  by_cases hignored : isIgnored c = true
  · rw [Piece.step, if_pos hignored] at h
    cases h
  by_cases hcomment : c = '#'
  · rw [Piece.step, if_neg hignored, if_pos hcomment] at h
    cases h
  simp only [Piece.step, if_neg hignored, if_neg hcomment] at h ⊢
  split
  · exact run_behind (hmore.stops (p := isNameRest) (by decide)) cs
  next hstart =>
  rw [if_neg hstart] at h
  split
  · next hquote =>
      rw [if_pos hquote] at h
      exact string_behind hmore h hvalid
  split
  · exact directive_behind hmore cs
  cases Punctuator.ofChar? c with
  | some p => rfl
  | none => exact number_behind hmore c cs

end

/-- A comment ends before a line end, whatever comes after that. -/
theorem step_comment_behind (cs more : List Char) :
    Piece.step '#' (cs ++ '\n' :: more) = (Piece.step '#' cs).behind ('\n' :: more) := by
  have hstops : Stops isComment ('\n' :: more) := .cons (by decide) more
  have hstep : ∀ ds, Piece.step '#' ds = Piece.run (fun _ => none) isComment ds := fun _ => rfl
  rw [hstep, hstep]
  exact run_behind hstops cs

/-- A span that many bytes further back. -/
def Span.shift (k : Nat) (m : Span) : Span := ⟨m.start + k, m.stop + k⟩

theorem lexemesFrom_shift (offset k : Nat) (ps : List Piece) :
    lexemesFrom (offset + k) ps = remarked (Span.shift k) (lexemesFrom offset ps) := by
  induction ps generalizing offset with
  | nil => rfl
  | cons p ps ih =>
      have hrest := ih (offset + Text.byteLength p.text)
      rw [Nat.add_right_comm] at hrest
      rw [lexemesFrom, lexemesFrom]
      cases p.token with
      | none => exact hrest
      | some token =>
          simp only [hrest, List.map_cons, Lexeme.map, Span.shift, Nat.add_right_comm]

theorem lexemesAt_eq (offset : Nat) (text : List Char) :
    lexemesAt offset text = remarked (Span.shift offset) (lexemes text) := by
  have h := lexemesFrom_shift 0 offset (pieces text)
  rwa [Nat.zero_add] at h

theorem lexemesAt_ignoredRun {run : List Char} (h : ∀ c ∈ run, isIgnored c = true) (offset : Nat)
    (rest : List Char) :
    lexemesAt offset (run ++ rest) = lexemesAt (offset + Text.byteLength run) rest := by
  induction run generalizing offset with
  | nil => rfl
  | cons c run ih =>
      obtain ⟨hc, hrun⟩ := List.forall_mem_cons.1 h
      rw [List.cons_append, lexemesAt_ignored hc, ih hrun, Text.byteLength, Nat.add_assoc]

theorem lexemesAt_step {c : Char} {cs : List Char} {s : Piece.Step} (h : Piece.step c cs = s)
    (offset : Nat) :
    lexemesAt offset (c :: cs)
      = (s.token.map fun token =>
            ⟨token, ⟨offset, offset + Text.byteLength (c :: s.tail)⟩⟩).toList
          ++ lexemesAt (offset + Text.byteLength (c :: s.tail)) s.rest := by
  rw [lexemesAt, pieces]
  simp only [h, lexemesFrom]
  cases s.token <;> rfl

theorem separated_lineEnd (more : List Char) : Separated ('\n' :: more) :=
  ⟨'\n', by decide, rfl⟩

/-- A step that passes over white space is the only one that goes on behind its text. -/
theorem step_lineEnd {c : Char} (hignored : isIgnored c ≠ true) {cs : List Char}
    (hvalid : ∀ token, (Piece.step c cs).token = some token → token.isValid = true)
    (more : List Char) :
    Piece.step c (cs ++ '\n' :: more) = (Piece.step c cs).behind ('\n' :: more) := by
  by_cases hcomment : c = '#'
  · subst hcomment
    exact step_comment_behind cs more
  · obtain ⟨token, htoken, -⟩ := exists_begins (by simpa using hignored) hcomment cs
    exact step_behind (separated_lineEnd more) htoken (hvalid token htoken)

theorem lexemesAt_append (more : List Char) (text : List Char) :
    ∀ offset, (∀ l ∈ lexemesAt offset text, l.token.isValid = true) →
      lexemesAt offset (text ++ '\n' :: more)
        = lexemesAt offset text ++ lexemesAt (offset + Text.byteLength text + 1) more := by
  fun_induction pieces text with
  | case1 =>
      intro offset _
      rw [lexemesAt_nil]
      exact lexemesAt_ignored (c := '\n') (by decide) offset more
  | case2 c cs s ih =>
      intro offset hvalid
      have hwhole : c :: cs = c :: s.tail ++ s.rest :=
        congrArg (c :: ·) (Piece.step_append c cs).symm
      have hlength : Text.byteLength (c :: cs)
          = Text.byteLength (c :: s.tail) + Text.byteLength s.rest := by
        rw [hwhole, Text.byteLength_append]
      have hstep := lexemesAt_step (s := s) rfl offset
      have hrest := ih (offset + Text.byteLength (c :: s.tail)) fun l hl =>
        hvalid l (hstep ▸ List.mem_append_right _ hl)
      rw [hlength, ← Nat.add_assoc, hstep, List.append_assoc, ← hrest]
      by_cases hignored : isIgnored c = true
      · have hs : s = Piece.run (fun _ => none) isIgnored cs := if_pos hignored
        have hrun : ∀ d ∈ c :: s.tail, isIgnored d = true :=
          hs ▸ List.forall_mem_cons.2 ⟨hignored, List.all_eq_true.1 List.all_takeWhile⟩
        have htoken : s.token = none := hs ▸ rfl
        rw [htoken, hwhole, List.append_assoc]
        exact lexemesAt_ignoredRun hrun offset _
      · refine lexemesAt_step (step_lineEnd hignored (fun token htoken => ?_) more) offset
        refine hvalid ⟨token, offset, offset + Text.byteLength (c :: s.tail)⟩ ?_
        rw [hstep, show s.token = some token from htoken]
        exact List.mem_append_left _ List.mem_cons_self

/-- What is written behind a line end adds its lexemes to those of a text with valid ones. -/
theorem lexemes_append {text : List Char} (hvalid : ∀ l ∈ lexemes text, l.token.isValid = true)
    (more : List Char) :
    lexemes (text ++ '\n' :: more)
      = lexemes text ++ remarked (Span.shift (Text.byteLength text + 1)) (lexemes more) := by
  rw [← lexemesAt_eq, ← Nat.zero_add (Text.byteLength text)]
  exact lexemesAt_append more text 0 hvalid

end Sdl

end SchemaGraph
