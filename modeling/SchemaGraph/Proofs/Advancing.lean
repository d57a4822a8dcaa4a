import SchemaGraph.Proofs.LongestMatch
import SchemaGraph.Proofs.Scanning

/-!
# The lexer advances by bytes

From the offset at which a token ends the lexer goes on with what is left of the text
there. It cuts the text of the token out of the text, and so it does with the name of a
directive, which is the token without its first byte, and with what has to be known of a
token that is not valid. No cut ever fails, and the tokens are the lexemes of the text.

That there is anything to cut off is because a token is never empty, and because of what
characters each kind of token is made of. A string is told by the quotes it starts with:
one, two or three of them.
-/

namespace SchemaGraph.Sdl

open Text

/-- Why there is no token at the cursor. -/
def Cursor.fault? (cursor : Cursor) : Option LexicalFault := do
  match ← cursor.slice? with
  | '"' :: '"' :: '"' :: _ => return .unterminatedBlock
  | '"' :: _ => return stringFault (← cursor.remainder?)
  | c :: _ => return .unexpected c
  | [] => none

/-- The token at the cursor, of the same form as `found` but with its text cut from the text. -/
def Cursor.token? (cursor : Cursor) : Option Token → Option (Option Token)
  | some (.name _) => do return some (.name (String.ofList (← cursor.slice?)))
  | some (.directive _) => do
    return some (.directive (String.ofList (← from? 1 (← cursor.slice?))))
  | some (.integer _) => do return some (.integer (String.ofList (← cursor.slice?)))
  | some (.float _) => do return some (.float (String.ofList (← cursor.slice?)))
  | some (.invalid _) => do return some (.invalid (← cursor.fault?))
  | found => some found

/-- The quotes that a string starts with, at most three. -/
def quotes (cs : List Char) : List Char := (cs.takeWhile (· == '"')).take 3

/-- The token that starts with the quotes at the cursor, and where the cursor is behind it. -/
def stringToken? (cursor : Cursor) : Option (Cursor × Option Token) := do
  let (cursor, value) ← string? cursor
  match value with
  | some value => return (cursor, some (.string (String.ofList value)))
  | none => return (cursor, some (.invalid (← cursor.fault?)))

/-- The piece of a text that starts at an offset, with `c` and then `cs`. -/
def piece? (text : List Char) (offset : Nat) (c : Char) (cs : List Char) :
    Option (Cursor × Option Token) :=
  let start : Cursor := ⟨text, ⟨offset, offset⟩⟩
  if c = '"' then stringToken? (start.next (quotes (c :: cs)))
  else
    let s := Piece.step c cs
    let cursor := start.next (c :: s.tail)
    (cursor.token? s.token).map fun token => (cursor, token)

section

variable (before : List Char)

theorem fault?_string {found : List Char} (h : found.head? ≠ some '"') (rest : List Char) :
    (Cursor.between before ('"' :: found) rest).fault? = some (stringFault rest) := by
  simp only [Cursor.fault?, Cursor.between_slice?, Cursor.between_remainder?, Option.bind_eq_bind,
    Option.bind_some]
  split
  · next heq =>
      cases heq
      exact absurd rfl h
  · rfl
  · next hne heq =>
      cases heq
      exact absurd rfl hne
  · next heq => cases heq

theorem broken_head? (cs : List Char) : (StringLiteral.broken cs).1.head? ≠ some '"' := by
  rw [StringLiteral.broken]
  split
  · intro hhead
    have hplain := List.all_takeWhile (p := StringLiteral.isPlain) (l := cs)
    obtain ⟨tail, htail⟩ : ∃ tail, cs.takeWhile StringLiteral.isPlain = '"' :: tail :=
      List.head?_eq_some_iff.1 hhead
    rw [htail] at hplain
    cases hplain
  · intro hhead
    cases hhead

theorem quote_cases (cs : List Char) :
    (∃ block, cs = '"' :: '"' :: block) ∨ (∃ rest, cs = '"' :: rest ∧ rest.head? ≠ some '"')
      ∨ cs.head? ≠ some '"' := by
  by_cases hfirst : cs.head? = some '"'
  · obtain ⟨rest, rfl⟩ := List.head?_eq_some_iff.1 hfirst
    by_cases hsecond : rest.head? = some '"'
    · obtain ⟨block, rfl⟩ := List.head?_eq_some_iff.1 hsecond
      exact .inl ⟨block, rfl⟩
    · exact .inr (.inl ⟨rest, rfl, hsecond⟩)
  · exact .inr (.inr hfirst)

theorem takeWhile_quote {cs : List Char} (h : cs.head? ≠ some '"') :
    cs.takeWhile (· == '"') = [] := by
  cases cs with
  | nil => rfl
  | cons c cs =>
      refine List.takeWhile_cons_of_neg fun hc => h ?_
      rw [List.head?_cons, eq_of_beq hc]

theorem Piece.string_of_broken {cs : List Char} (hquote : cs.head? ≠ some '"')
    (h : StringLiteral.literal cs = none) :
    Piece.string cs = ⟨some (.invalid (stringFault (StringLiteral.broken cs).2)),
      (StringLiteral.broken cs).1, (StringLiteral.broken cs).2⟩ := by
  rw [Piece.string.eq_def]
  split
  · exact absurd rfl hquote
  · exact absurd rfl hquote
  · rw [h]

theorem stringToken?_eq {found rest cs : List Char} (hfound : quotes ('"' :: cs) = found)
    (hrest : found ++ rest = '"' :: cs) :
    stringToken? (.between before found rest)
      = some (.between before ('"' :: (Piece.string cs).tail) (Piece.string cs).rest,
        (Piece.string cs).token) := by
  obtain ⟨block, rfl⟩ | ⟨rest', rfl, hrest'⟩ | hhead := quote_cases cs
  · have hquotes : quotes ('"' :: '"' :: '"' :: block) = ['"', '"', '"'] := by
      simp [quotes]
    obtain rfl := hquotes.symm.trans hfound
    obtain rfl : rest = block := by simpa using hrest
    have hblock := block?_eq before ['"', '"', '"'] [] rest []
    have hstring : string? (.between before ['"', '"', '"'] rest)
        = block? (.between before ['"', '"', '"'] rest) rest [] 0 := by
      simp only [string?, Cursor.between_slice?, Cursor.between_remainder?, Option.bind_eq_bind,
        Option.bind_some]
    rw [stringToken?, hstring.trans hblock, Piece.string]
    cases BlockString.scan rest with
    | none =>
        simp [Cursor.fault?, Cursor.between_slice?]
    | some s => rfl
  · have hquotes : quotes ('"' :: '"' :: rest') = ['"', '"'] := by
      simp [quotes, takeWhile_quote hrest']
    obtain rfl := hquotes.symm.trans hfound
    obtain rfl : rest = rest' := by simpa using hrest
    rw [Piece.string_of_empty hrest', stringToken?, string?]
    simp [Cursor.between_slice?, Cursor.between_remainder?]
  · have hquotes : quotes ('"' :: cs) = ['"'] := by
      simp [quotes, takeWhile_quote hhead]
    obtain rfl := hquotes.symm.trans hfound
    obtain rfl : rest = cs := by simpa using hrest
    have hstring : string? (.between before ['"'] rest)
        = plain? (.between before ['"'] rest) rest 0 rest := by
      simp only [string?, Cursor.between_slice?, Cursor.between_remainder?, Option.bind_eq_bind,
        Option.bind_some]
    rw [stringToken?, hstring.trans (plain?_eq before rest)]
    cases hliteral : StringLiteral.literal rest with
    | none =>
        rw [Piece.string_of_broken hhead hliteral]
        simp [fault?_string before (broken_head? rest)]
    | some s =>
        rw [Piece.string_of_literal hhead hliteral]
        rfl

theorem token?_accounts {token : Token} {found : List Char} (h : Accounts token found)
    (hquote : found.head? ≠ some '"') (rest : List Char) :
    (Cursor.between before found rest).token? (some token) = some (some token) := by
  have hslice := Cursor.between_slice? before found rest
  obtain hrule | ⟨fault, rfl, hfails⟩ := h
  · cases hrule with
    | punct p => rfl
    | name | integer | float =>
        simp only [Cursor.token?, hslice, Option.bind_eq_bind, Option.bind_some]
        rfl
    | @directive c cs start rest =>
        have hfrom : from? 1 ('@' :: c :: cs) = some (c :: cs) := from?_byteLength ['@'] (c :: cs)
        simp only [Cursor.token?, hslice, hfrom, Option.bind_eq_bind, Option.bind_some]
        rfl
    | string | block => exact absurd rfl hquote
  · cases hfails with
    | @unexpected c start =>
        simp only [Cursor.token?, Cursor.fault?, hslice, Option.bind_eq_bind, Option.bind_some]
        rfl
    | string | escape | block => exact absurd rfl hquote

theorem token?_step {c : Char} (h : c ≠ '"') (cs rest : List Char) :
    (Cursor.between before (c :: (Piece.step c cs).tail) rest).token? (Piece.step c cs).token
      = some (Piece.step c cs).token := by
  by_cases hpassed : isIgnored c = true ∨ c = '#'
  · rw [(step_passed hpassed cs).1]
    rfl
  · obtain ⟨hignored, hcomment⟩ := not_or.1 hpassed
    obtain ⟨token, htoken, haccounts⟩ := step_stepsWell (eq_false_of_ne_true hignored) hcomment cs
    rw [htoken]
    exact token?_accounts before haccounts (by simpa using h) rest

theorem piece?_eq (c : Char) (cs : List Char) :
    piece? (before ++ c :: cs) (byteLength before) c cs
      = some (.between before (c :: (Piece.step c cs).tail) (Piece.step c cs).rest,
        (Piece.step c cs).token) := by
  have hnext : ∀ {found rest}, found ++ rest = c :: cs →
      Cursor.next ⟨before ++ c :: cs, ⟨byteLength before, byteLength before⟩⟩ found
        = .between before found rest := by
    rintro found rest h
    rw [Cursor.next, Cursor.between, h]
  rw [piece?]
  split
  · next hquote =>
      subst hquote
      have hprefix : quotes ('"' :: cs) <+: '"' :: cs :=
        (List.take_prefix _ _).trans (List.takeWhile_prefix _)
      obtain ⟨rest, hrest⟩ := hprefix
      rw [hnext hrest, stringToken?_eq before rfl hrest]
      rfl
  · next hquote =>
      have hcut : c :: (Piece.step c cs).tail ++ (Piece.step c cs).rest = c :: cs :=
        congrArg (c :: ·) (Piece.step_append c cs)
      simp only [hnext hcut, token?_step before hquote, Option.map_some]

end

/-- The tokens of a text from an offset on. -/
def lexemesFrom? (text : List Char) (offset : Nat) : Option (List (Lexeme Span)) :=
  match _hrest : from? offset text with
  | none => none
  | some [] => some []
  | some (c :: cs) =>
    match _hpiece : piece? text offset c cs with
    | none => none
    | some (cursor, token) =>
      (lexemesFrom? text cursor.span.stop).map fun ls =>
        match token with
        | some token => ⟨token, cursor.span⟩ :: ls
        | none => ls
termination_by byteLength text - offset
decreasing_by
  obtain ⟨before, rfl, rfl⟩ := from?_eq_some _hrest
  rw [piece?_eq] at _hpiece
  cases _hpiece
  have hpos := c.utf8Size_pos
  simp only [Cursor.between_stop, byteLength_append, byteLength]
  omega

/-- As `lexemes`. -/
def lexemes? (text : List Char) : Option (List (Lexeme Span)) := lexemesFrom? text 0

theorem lexemesFrom?_eq (before rest : List Char) :
    lexemesFrom? (before ++ rest) (byteLength before)
      = some (lexemesFrom (byteLength before) (pieces rest)) := by
  fun_induction pieces rest generalizing before with
  | case1 =>
      have hfrom := from?_byteLength before []
      rw [lexemesFrom?.eq_def]
      split
      · next heq => cases hfrom.symm.trans heq
      · rfl
      · next heq => cases hfrom.symm.trans heq
  | case2 c cs s ih =>
      have hfrom := from?_byteLength before (c :: cs)
      have hrest := ih (before ++ c :: s.tail)
      rw [List.append_assoc, List.cons_append, Piece.step_append, byteLength_append] at hrest
      rw [lexemesFrom?.eq_def]
      split
      · next heq => cases hfrom.symm.trans heq
      · next heq => cases hfrom.symm.trans heq
      · next heq =>
          cases hfrom.symm.trans heq
          split
          · next hpiece => cases (piece?_eq before c cs).symm.trans hpiece
          · next hpiece =>
              cases (piece?_eq before c cs).symm.trans hpiece
              refine (congrArg (Option.map _) hrest).trans ?_
              rw [Option.map_some, lexemesFrom]
              rfl

/-- No text makes the lexer cut it where it cannot be cut. -/
theorem lexemes?_eq (text : List Char) : lexemes? text = some (lexemes text) :=
  lexemesFrom?_eq [] text

end SchemaGraph.Sdl
