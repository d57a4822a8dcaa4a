import SchemaGraph.Proofs.LiteralTexts
import SchemaGraph.Proofs.Names

/-!
# The texts of tokens

A token that was found in one text is found again in any other text that it is
written into. `Delimited` is the one condition on what comes after that serves
all tokens: nothing comes next, or a character that no token goes on with. The
commas, spaces and brackets between values are such. A string needs the condition
only if it is empty, since a third quote would turn it into the start of a block.

Lexemes are marked with their place, which is of no interest here. `Leads` keeps
no more of it than that there is one.
-/

namespace SchemaGraph

namespace Sdl

/-- Whether a token may go on with a character, or begin anew with it. -/
def continues (c : Char) : Bool := isNameRest c || c == '.' || c == '"'

/-- Nothing comes next that a token could go on with. -/
def Delimited (rest : List Char) : Prop := Stops continues rest

theorem Delimited.number {rest : List Char} (h : Delimited rest) :
    Stops Text.Number.isRest rest := by
  refine h.mono fun c hc => ?_
  simp only [Text.Number.isRest, Bool.or_eq_true, beq_iff_eq] at hc
  rcases hc with ((hc | rfl) | rfl) | rfl
  · simp [continues, isNameRest, Char.isAlphanum, hc]
  · rfl
  · rfl
  · rfl

/-- Whether some characters are a token, wherever they are written and delimited. -/
def TokenText (token : Token) (text : List Char) : Prop :=
  ∃ c tail, text = c :: tail ∧
    ∀ rest, Delimited rest → Piece.step c (tail ++ rest) = ⟨some token, tail, rest⟩

theorem isIgnored_of_nameStart {c : Char} (h : isNameStart c = true) : isIgnored c = false := by
  rw [← Bool.not_eq_true]
  intro hc
  simp only [isIgnored, Bool.or_eq_true, beq_iff_eq] at hc
  rcases hc with (((((rfl | rfl) | rfl) | rfl) | rfl) | rfl) | rfl <;> exact absurd h (by decide)

theorem step_nameStart {c : Char} (h : isNameStart c = true) (cs : List Char) :
    Piece.step c cs
      = Piece.run (fun name => some (.name (String.ofList (c :: name)))) isNameRest cs := by
  have hhash : c ≠ '#' := by
    rintro rfl
    exact absurd h (by decide)
  rw [Piece.step, if_neg (by simp [isIgnored_of_nameStart h]), if_neg hhash, if_pos h]

theorem tokenText_name {name : String} (h : IsName name) : TokenText (.name name) name.toList := by
  obtain ⟨c, cs, hname, hstart, hrest⟩ := h.exists_cons
  refine ⟨c, cs, hname, fun rest hdelimited => ?_⟩
  have hstops : Stops isNameRest rest := hdelimited.mono fun d hd => by simp [continues, hd]
  rw [step_nameStart hstart, Piece.run, takeWhile_append_stops hrest hstops,
    dropWhile_append_stops hrest hstops, ← hname, String.ofList_toList]

/-- What a number starts with starts nothing else. -/
theorem step_number {c : Char} (h : c.isDigit = true ∨ c = '-') (cs : List Char) :
    Piece.step c cs = Piece.number c cs := by
  have hclass : ∀ {p : Char → Bool}, p '-' = false → (∀ d, p d = true → d.isDigit = false) →
      p c = false := by
    intro p hminus hdigit
    rcases h with h | rfl
    · cases hp : p c with
      | false => rfl
      | true => rw [hdigit c hp] at h; cases h
    · exact hminus
  have hignored : isIgnored c = false := hclass (by decide) fun d hd => by
    simp only [isIgnored, Bool.or_eq_true, beq_iff_eq] at hd
    rcases hd with (((((rfl | rfl) | rfl) | rfl) | rfl) | rfl) | rfl <;> decide
  have hstart : isNameStart c = false := hclass (by decide) fun d hd => by
    simp only [isNameStart, Bool.or_eq_true, beq_iff_eq] at hd
    rcases hd with rfl | hd
    · decide
    · unfold Char.isAlpha Char.isUpper Char.isLower at hd
      unfold Char.isDigit
      grind
  have hsigns : (c == '#' || c == '"' || c == '@') = false :=
    hclass (p := fun c => c == '#' || c == '"' || c == '@') (by decide) fun d hd => by
      simp only [Bool.or_eq_true, beq_iff_eq] at hd
      rcases hd with (rfl | rfl) | rfl <;> decide
  simp only [Bool.or_eq_false_iff, beq_eq_false_iff_ne] at hsigns
  have hpunct : Punctuator.ofChar? c = none := by
    cases hp : Punctuator.ofChar? c with
    | none => rfl
    | some p =>
        obtain rfl := Punctuator.char_of_ofChar? hp
        rcases h with h | h <;> cases p <;> exact absurd h (by decide)
  rw [Piece.step, if_neg (by simp [hignored]), if_neg hsigns.1.1, if_neg (by simp [hstart]),
    if_neg hsigns.1.2, if_neg hsigns.2]
  simp only [hpunct]

/-- The token that a number is. -/
def numberToken (n : Text.Number) : Token :=
  if n.isWhole then .integer (String.ofList n.text) else .float (String.ofList n.text)

theorem tokenText_number {cs after : List Char} {n : Text.Number}
    (h : Text.Number.read? cs = some (n, after)) : TokenText (numberToken n) n.text := by
  cases htext : n.text with
  | nil => exact absurd htext (Text.Number.read?_text_ne_nil h)
  | cons c tail =>
      refine ⟨c, tail, rfl, fun rest hdelimited => ?_⟩
      have hread := Text.Number.read?_rereads h hdelimited.number
      rw [htext, List.cons_append] at hread
      rw [step_number (Text.Number.read?_head h htext), Piece.number]
      simp only [hread, htext, List.tail_cons, numberToken]

theorem string_ne_block {s rest : List Char} (hrest : Stops (· == '"') rest) :
    ∀ block, s.flatMap Value.escapeChar ++ '"' :: rest ≠ '"' :: '"' :: block := by
  intro block hblock
  cases s with
  | nil =>
      simp only [List.flatMap_nil, List.nil_append, List.cons.injEq, true_and] at hblock
      rw [hblock] at hrest
      exact absurd (hrest '"' rfl) (by decide)
  | cons c s =>
      obtain ⟨d, more, hd, hne⟩ := Value.escapeChar_cons c
      rw [List.flatMap_cons, hd] at hblock
      exact hne (List.cons.inj hblock).1

theorem tokenText_string (s : String) : TokenText (.string s) (Value.printString s).toList := by
  refine ⟨'"', s.toList.flatMap Value.escapeChar ++ ['"'], ?_, fun rest hdelimited => ?_⟩
  · simp [Value.printString]
  have hquotes : Stops (· == '"') rest := hdelimited.mono fun c hc => by
    simp only [beq_iff_eq] at hc
    simp [continues, hc]
  have hstep : ∀ cs, Piece.step '"' cs = Piece.string cs := fun _ => rfl
  rw [hstep, List.append_assoc, List.singleton_append, Piece.string.eq_def]
  split
  · next heq => exact absurd heq (string_ne_block hquotes _)
  · next after _ heq =>
      -- Only the empty string has its closing quote next.
      cases hs : s.toList with
      | nil =>
          rw [hs] at heq
          cases heq
          rw [← String.ofList_toList (s := s), hs]
          rfl
      | cons c cs =>
          rw [hs] at heq
          obtain ⟨d, more, hd, hne⟩ := Value.escapeChar_cons c
          rw [List.flatMap_cons, hd] at heq
          exact absurd (List.cons.inj heq).1 hne
  · rw [StringLiteral.literal_eq_body, StringLiteral.body_escaped]
    simp only [String.ofList_toList]

/-- The lexemes of a text that starts at `offset`. -/
def lexemesAt (offset : Nat) (text : List Char) : List (Lexeme Span) :=
  lexemesFrom offset (pieces text)

theorem lexemesAt_nil (offset : Nat) : lexemesAt offset [] = [] := by
  rw [lexemesAt, pieces, lexemesFrom]

/-- Some lexeme of a token, and the lexemes of the text after it. -/
def Leads (ts : List (Lexeme Span)) (token : Token) (rest : List Char) : Prop :=
  ∃ m offset, ts = ⟨token, m⟩ :: lexemesAt offset rest

theorem leads_of_step {c : Char} {tail rest : List Char} {token : Token} (offset : Nat)
    (h : Piece.step c (tail ++ rest) = ⟨some token, tail, rest⟩) :
    Leads (lexemesAt offset (c :: (tail ++ rest))) token rest := by
  refine ⟨⟨offset, offset + Text.byteLength (c :: tail)⟩, offset + Text.byteLength (c :: tail), ?_⟩
  rw [lexemesAt, pieces]
  simp only [h, lexemesFrom]
  rfl

theorem TokenText.leads {token : Token} {text rest : List Char} (h : TokenText token text)
    (hrest : Delimited rest) (offset : Nat) :
    Leads (lexemesAt offset (text ++ rest)) token rest := by
  obtain ⟨c, tail, rfl, hstep⟩ := h
  exact leads_of_step offset (hstep rest hrest)

/-- A punctuator is one wherever it stands. -/
theorem leads_punct (p : Punctuator) (rest : List Char) (offset : Nat) :
    Leads (lexemesAt offset (p.char :: rest)) (.punct p) rest := by
  have hstep : Piece.step p.char ([] ++ rest) = ⟨some (.punct p), [], rest⟩ := by
    cases p <;> rfl
  exact leads_of_step offset hstep

theorem lexemesAt_run {c : Char} (h : isIgnored c = true) (offset : Nat) (rest : List Char) :
    lexemesAt offset (c :: rest)
      = lexemesAt (offset + Text.byteLength (c :: rest.takeWhile isIgnored))
          (rest.dropWhile isIgnored) := by
  have hstep : Piece.step c rest
      = ⟨none, rest.takeWhile isIgnored, rest.dropWhile isIgnored⟩ := by
    rw [Piece.step, if_pos h]
    rfl
  rw [lexemesAt, pieces]
  simp only [hstep, lexemesFrom]
  rfl

theorem lexemesAt_ignored {c : Char} (h : isIgnored c = true) (offset : Nat) (rest : List Char) :
    lexemesAt offset (c :: rest) = lexemesAt (offset + c.utf8Size) rest := by
  rw [lexemesAt_run h]
  cases rest with
  | nil => simp [lexemesAt, pieces, lexemesFrom]
  | cons d ds =>
      cases hd : isIgnored d with
      | false =>
          -- The run ends here.
          have hstop : ¬ isIgnored d = true := by simp [hd]
          rw [List.takeWhile_cons_of_neg hstop, List.dropWhile_cons_of_neg hstop]
          rfl
      | true =>
          rw [List.takeWhile_cons_of_pos hd, List.dropWhile_cons_of_pos hd, lexemesAt_run hd]
          simp only [Text.byteLength, Nat.add_assoc]

end Sdl

end SchemaGraph
