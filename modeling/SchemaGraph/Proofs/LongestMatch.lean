import SchemaGraph.Proofs.Relexing
import SchemaGraph.Proofs.TokenRules

/-!
# Every token is the longest match

The lexer decides by the first character what it is going to read, while the rules
of tokens know of no order in which they are tried. That it makes no difference has
two sides. What a step finds follows a rule; and a match of any rule at the same
place is covered by what the step finds, since the rule's first character leads the
step to the reader of that very rule, which finds the longest match.

What is passed over between two tokens comes in pieces, white space and comments in
turn, and has to be seen to be longest as a whole. A comment goes on with the
characters that tokens start with, so it is a comment's end that matters: it stops
only before a line end, or with the text.
-/

namespace SchemaGraph.Sdl

/-- The characters of a token that is not valid. -/
inductive Fails : LexicalFault → List Char → Prop
  | unexpected {c} (start : c ≠ '"') : Fails (.unexpected c) [c]
  | string (tail) : Fails .unterminatedString ('"' :: tail)
  | escape (tail) : Fails .badEscape ('"' :: tail)
  | block : Fails .unterminatedBlock ['"', '"', '"']

/-- What a token that starts with some character is, valid or not. -/
def Accounts (token : Token) (found : List Char) : Prop :=
  TokenRule token found ∨ ∃ fault, token = .invalid fault ∧ Fails fault found

/-- Whether the step from a place finds a token that accounts for what it takes. -/
def StepsWell (c : Char) (s : Piece.Step) : Prop :=
  ∃ token, s.token = some token ∧ Accounts token (c :: s.tail)

theorem unexpected_stepsWell {c : Char} (h : c ≠ '"') (cs : List Char) :
    StepsWell c (Piece.unexpected c cs) :=
  ⟨_, rfl, .inr ⟨_, rfl, .unexpected h⟩⟩

theorem string_stepsWell (cs : List Char) : StepsWell '"' (Piece.string cs) := by
  rw [Piece.string.eq_def]
  split
  · split
    · next s hs => exact ⟨_, rfl, .inl (.block (blockContent_of_scan hs))⟩
    · exact ⟨_, rfl, .inr ⟨_, rfl, .block⟩⟩
  · exact ⟨_, rfl, .inl (.string .nil)⟩
  · split
    · next s hs =>
        rw [StringLiteral.literal_eq_body] at hs
        obtain ⟨text, htext, content⟩ := stringContent_of_body hs
        exact ⟨_, rfl, .inl (htext ▸ .string content)⟩
    · refine ⟨_, rfl, .inr ⟨_, rfl, ?_⟩⟩
      rw [stringFault]
      split
      · exact .escape _
      · exact .string _

theorem numberToken_rule {n : Text.Number} (h : n.IsLiteral) :
    TokenRule (numberToken n) n.text := by
  rw [numberToken]
  split
  · next hwhole =>
      simp only [Text.Number.isWhole, Bool.and_eq_true, List.isEmpty_iff] at hwhole
      have htext : n.text = n.whole := by
        rw [Text.Number.text, hwhole.1, hwhole.2, List.append_nil, List.append_nil]
      exact htext ▸ .integer h.whole
  · next hpart =>
      simp only [Text.Number.isWhole, Bool.and_eq_true, List.isEmpty_iff] at hpart
      exact .float h (Decidable.not_and_iff_or_not.1 hpart)

theorem directive_stepsWell (cs : List Char) : StepsWell '@' (Piece.directive cs) := by
  rw [Piece.directive.eq_def]
  split
  · next d ds =>
      split
      · next hd =>
          refine ⟨_, rfl, .inl ?_⟩
          rw [Piece.run, List.takeWhile_cons_of_pos (isNameRest_of_start hd)]
          exact .directive hd (List.all_eq_true.1 List.all_takeWhile)
      · exact unexpected_stepsWell (by decide) _
  · exact unexpected_stepsWell (by decide) _

theorem number_stepsWell {c : Char} (h : c ≠ '"') (cs : List Char) :
    StepsWell c (Piece.number c cs) := by
  rw [Piece.number]
  split
  · next n rest hread =>
      have happend := Text.Number.read?_append hread
      have hliteral := Text.Number.read?_isLiteral hread
      have htext : c :: n.text.tail = n.text := by
        cases ht : n.text with
        | nil => exact absurd ht (Text.Number.read?_text_ne_nil hread)
        | cons d ds =>
            rw [ht] at happend
            rw [(List.cons.inj happend).1]
            rfl
      refine ⟨_, rfl, .inl ?_⟩
      rw [htext]
      exact numberToken_rule hliteral
  · exact unexpected_stepsWell h cs

theorem step_stepsWell {c : Char} (hignored : isIgnored c = false) (hcomment : c ≠ '#')
    (cs : List Char) : StepsWell c (Piece.step c cs) := by
  rw [Piece.step, if_neg (by simp [hignored]), if_neg hcomment]
  split
  · next hstart => exact ⟨_, rfl, .inl (.name hstart (List.all_eq_true.1 List.all_takeWhile))⟩
  split
  · next hquote =>
      subst hquote
      exact string_stepsWell cs
  split
  · next hsign =>
      subst hsign
      exact directive_stepsWell cs
  next hquote _ =>
  split
  · next p hp =>
      refine ⟨_, rfl, .inl ?_⟩
      rw [← Punctuator.char_of_ofChar? hp]
      exact .punct p
  · exact number_stepsWell hquote cs

/-! ## What rules match

Rule by rule, a match has to be held against what the step finds: its first character
leads the step to one reader, and this one takes at least as much (`Covers`). There is one
rule for which it does not. Two quotes are an empty string, but where a third one follows
them the step goes for a block string, and fails if that is not closed. There, and only
there, a token that is not valid stands where a rule has a match (`Begins`). -/

/-- Whether the step from a place finds a valid token that is at least as long as `p`. -/
def Covers (c : Char) (cs p : List Char) : Prop :=
  ∃ token, (Piece.step c cs).token = some token ∧ (∀ fault, token ≠ .invalid fault)
    ∧ p.length ≤ (Piece.step c cs).tail.length + 1

theorem Covers.of_step {c : Char} {cs p : List Char} {s : Piece.Step} {token : Token}
    (h : Piece.step c cs = s) (htoken : s.token = some token)
    (hvalid : ∀ fault, token ≠ .invalid fault) (hp : p.length ≤ s.tail.length + 1) :
    Covers c cs p :=
  ⟨token, h ▸ htoken, hvalid, h ▸ hp⟩

theorem covers_punct (p : Punctuator) (cs : List Char) : Covers p.char cs [p.char] := by
  have hstep : Piece.step p.char cs = ⟨some (.punct p), [], cs⟩ := by
    cases p <;> rfl
  exact .of_step hstep rfl (by simp) (Nat.le_refl _)

theorem covers_name {c : Char} {cs p : List Char} (hstart : isNameStart c = true)
    (hrest : ∀ d ∈ p, isNameRest d = true) (hp : p <+: cs) : Covers c cs (c :: p) :=
  .of_step (step_nameStart hstart cs) rfl (by simp)
    (Nat.succ_le_succ (length_le_takeWhile hrest hp))

theorem covers_directive {c : Char} {cs p : List Char} (hstart : isNameStart c = true)
    (hrest : ∀ d ∈ p, isNameRest d = true) (hp : c :: p <+: cs) :
    Covers '@' cs ('@' :: c :: p) := by
  obtain ⟨tail, rfl⟩ := hp
  have hstep : Piece.step '@' (c :: p ++ tail)
      = Piece.run (fun name => some (.directive (String.ofList name))) isNameRest
          (c :: p ++ tail) := by
    change Piece.directive (c :: (p ++ tail)) = _
    rw [Piece.directive, if_pos hstart]
    rfl
  refine .of_step hstep rfl (by simp) (Nat.succ_le_succ (length_le_takeWhile ?_ ⟨tail, rfl⟩))
  exact List.forall_mem_cons.2 ⟨isNameRest_of_start hstart, hrest⟩

theorem numberToken_valid (n : Text.Number) (fault : LexicalFault) :
    numberToken n ≠ .invalid fault := by
  rw [numberToken]
  split <;> simp

theorem covers_number {c : Char} {cs p : List Char} (h : Text.Number.IsNumber p)
    (hp : p <+: c :: cs) : Covers c cs p := by
  obtain ⟨d, tail, rfl, hhead⟩ := h.head
  obtain rfl := (List.cons_prefix_cons.1 hp).1
  obtain ⟨found, rest, hfound, hle⟩ := (Text.Number.read?_longest (d :: cs)).longest h hp
  obtain ⟨⟨n, rest⟩, hread, heq⟩ := Option.map_eq_some_iff.1 hfound
  cases heq
  have hstep : Piece.step d cs = ⟨some (numberToken n), n.text.tail, rest⟩ := by
    rw [step_number hhead, Piece.number, hread]
    rfl
  refine .of_step hstep rfl (numberToken_valid n) ?_
  rw [List.length_tail]
  simp only at hle
  omega

theorem step_quote (cs : List Char) : Piece.step '"' cs = Piece.string cs := rfl

theorem covers_block {raw text cs : List Char} (h : BlockContent raw text)
    (hp : '"' :: '"' :: text <+: cs) : Covers '"' cs ('"' :: '"' :: '"' :: text) := by
  obtain ⟨rest, rfl⟩ := hp
  have hstep : Piece.step '"' ('"' :: '"' :: text ++ rest)
      = ⟨some (.string (String.ofList (BlockString.dedent raw))), '"' :: '"' :: text, rest⟩ := by
    rw [step_quote, List.cons_append, List.cons_append, Piece.string, h.scan]
  exact .of_step hstep rfl (by simp) (Nat.le_refl _)

/-- An empty string is found unless its quotes could open a block string. -/
theorem covers_empty (cs : List Char) :
    Covers '"' ('"' :: cs) ['"', '"']
      ∨ (Piece.step '"' ('"' :: cs)).token = some (.invalid .unterminatedBlock) := by
  by_cases hquote : cs.head? = some '"'
  · obtain ⟨block, rfl⟩ := List.head?_eq_some_iff.1 hquote
    cases hscan : BlockString.scan block with
    | some s =>
        have hstep : Piece.step '"' ('"' :: '"' :: block)
            = ⟨some (.string (String.ofList (BlockString.dedent s.value))),
                '"' :: '"' :: s.text, s.rest⟩ := by
          rw [step_quote, Piece.string, hscan]
        exact .inl (.of_step hstep rfl (by simp) (by simp))
    | none =>
        refine .inr ?_
        rw [step_quote, Piece.string, hscan]
  · have hstep : Piece.step '"' ('"' :: cs) = ⟨some (.string ""), ['"'], cs⟩ := by
      rw [step_quote, Piece.string_of_empty hquote]
    exact .inl (.of_step hstep rfl (by simp) (Nat.le_refl _))

theorem covers_string {value text cs : List Char} (h : StringContent value text)
    (hp : text ++ ['"'] <+: cs) :
    Covers '"' cs ('"' :: (text ++ ['"']))
      ∨ (Piece.step '"' cs).token = some (.invalid .unterminatedBlock) := by
  obtain ⟨rest, rfl⟩ := hp
  rw [List.append_assoc, List.singleton_append]
  by_cases htext : text = []
  · subst htext
    exact covers_empty rest
  have hquote : (text ++ '"' :: rest).head? ≠ some '"' := by
    cases h with
    | nil => exact absurd rfl htext
    | plain char content =>
        rintro ⟨⟩
        exact absurd char (by decide)
    | escape | codePoint =>
        rintro ⟨⟩
  have hliteral := (StringLiteral.literal_eq_body _).trans (h.body rest)
  have hstep := (step_quote _).trans (Piece.string_of_literal hquote hliteral)
  exact .inl (.of_step hstep rfl (by simp) (Nat.le_refl _))

/-- What matches a rule is found, unless it is an empty string before another quote. -/
theorem TokenRule.covered {token : Token} {p : List Char} (h : TokenRule token p) {c : Char}
    {cs : List Char} (hp : p <+: c :: cs) :
    Covers c cs p ∨ (Piece.step c cs).token = some (.invalid .unterminatedBlock) := by
  cases h with
  | punct q =>
      obtain rfl := (List.cons_prefix_cons.1 hp).1
      exact .inl (covers_punct q cs)
  | name start rest =>
      obtain ⟨rfl, htail⟩ := List.cons_prefix_cons.1 hp
      exact .inl (covers_name start rest htail)
  | directive start rest =>
      obtain ⟨rfl, htail⟩ := List.cons_prefix_cons.1 hp
      exact .inl (covers_directive start rest htail)
  | integer whole =>
      refine .inl (covers_number ⟨p, [], by simp, ⟨p, [], by simp, whole, .inl rfl⟩, .inl rfl⟩ hp)
  | float literal part => exact .inl (covers_number literal.isNumber hp)
  | string content =>
      obtain ⟨rfl, htail⟩ := List.cons_prefix_cons.1 hp
      exact covers_string content htail
  | block content =>
      obtain ⟨rfl, htail⟩ := List.cons_prefix_cons.1 hp
      exact .inl (covers_block content htail)

/--
A token is what starts a text, which goes on with `rest` after it. A valid one is the
longest match of all rules. One that is not valid stands where no rule matches; only
the three quotes that fail to open a block string could have been an empty string.
-/
inductive Begins : Token → List Char → List Char → Prop
  | valid {token found rest} (rule : TokenRule token found)
      (longest : ∀ other p, TokenRule other p → p <+: found ++ rest → p.length ≤ found.length) :
      Begins token found rest
  | invalid {fault found rest} (fails : Fails fault found)
      (nothing : fault ≠ .unterminatedBlock →
        ∀ other p, TokenRule other p → ¬ p <+: found ++ rest) :
      Begins (.invalid fault) found rest

theorem TokenRule.not_invalid {token : Token} {cs : List Char} (h : TokenRule token cs)
    (fault : LexicalFault) : token ≠ .invalid fault := by
  cases h <;> simp

theorem exists_begins {c : Char} (hignored : isIgnored c = false) (hcomment : c ≠ '#')
    (cs : List Char) :
    ∃ token, (Piece.step c cs).token = some token
      ∧ Begins token (c :: (Piece.step c cs).tail) (Piece.step c cs).rest := by
  obtain ⟨token, htoken, haccounts⟩ := step_stepsWell hignored hcomment cs
  have hwhole : c :: (Piece.step c cs).tail ++ (Piece.step c cs).rest = c :: cs :=
    congrArg (c :: ·) (Piece.step_append c cs)
  refine ⟨token, htoken, ?_⟩
  rcases haccounts with hrule | ⟨fault, rfl, hfails⟩
  · refine .valid hrule fun other p hother hp => ?_
    rcases hother.covered (hwhole ▸ hp) with ⟨_, -, -, hle⟩ | hblock
    · exact hle
    · exact absurd (Option.some.inj (htoken.symm.trans hblock)) (hrule.not_invalid _)
  · refine .invalid hfails fun hfault other p hother hp => ?_
    rcases hother.covered (hwhole ▸ hp) with ⟨found, hfound, hvalid, -⟩ | hblock
    · exact hvalid _ (Option.some.inj (hfound.symm.trans htoken))
    · exact hfault (Token.invalid.inj (Option.some.inj (htoken.symm.trans hblock)))

/-- Characters that are passed over: white space, commas, byte order marks and comments. -/
inductive Ignorable : List Char → Prop
  | nil : Ignorable []
  | char {c cs} (ignored : isIgnored c = true) (rest : Ignorable cs) : Ignorable (c :: cs)
  | comment {text cs} (comment : ∀ c ∈ text, isComment c = true) (rest : Ignorable cs) :
      Ignorable ('#' :: (text ++ cs))

theorem Ignorable.append {cs ds : List Char} (h : Ignorable cs) (hds : Ignorable ds) :
    Ignorable (cs ++ ds) := by
  induction h with
  | nil => exact hds
  | char ignored rest ih => exact .char ignored ih
  | comment comment rest ih =>
      rw [List.cons_append, List.append_assoc]
      exact .comment comment ih

theorem ignorable_of_all {cs : List Char} (h : ∀ c ∈ cs, isIgnored c = true) : Ignorable cs := by
  induction cs with
  | nil => exact .nil
  | cons c cs ih =>
      obtain ⟨hc, hcs⟩ := List.forall_mem_cons.1 h
      exact .char hc (ih hcs)

/-- Behind a character that is passed over, it is as at the start. -/
theorem Ignorable.tail {c : Char} {cs : List Char} (hc : isIgnored c = true)
    (h : Ignorable (c :: cs)) : Ignorable cs := by
  generalize hwhole : c :: cs = whole at h
  cases h with
  | nil => cases hwhole
  | char ignored rest => exact (List.cons.inj hwhole).2 ▸ rest
  | comment comment rest =>
      rw [(List.cons.inj hwhole).1] at hc
      exact absurd hc (by decide)

theorem Ignorable.of_run {cs ds : List Char} (hcs : ∀ c ∈ cs, isIgnored c = true)
    (h : Ignorable (cs ++ ds)) : Ignorable ds := by
  induction cs with
  | nil => exact h
  | cons c cs ih =>
      obtain ⟨hc, hcs⟩ := List.forall_mem_cons.1 hcs
      exact ih hcs (h.tail hc)

/-- Behind a comment it is as at the start, wherever the comment was thought to end. -/
theorem Ignorable.of_comment {cs ds : List Char} (hcs : ∀ c ∈ cs, isComment c = true)
    (hds : Stops isComment ds) (h : Ignorable (cs ++ ds)) : Ignorable ds := by
  generalize hwhole : cs ++ ds = whole at h
  induction h generalizing cs with
  | nil => exact (List.append_eq_nil_iff.1 hwhole).2 ▸ .nil
  | @char c rest ignored hrest ih =>
      cases cs with
      | nil =>
          rw [List.nil_append] at hwhole
          exact hwhole ▸ .char ignored hrest
      | cons d cs => exact ih (List.forall_mem_cons.1 hcs).2 (List.cons.inj hwhole).2
  | @comment text rest comment hrest ih =>
      cases cs with
      | nil =>
          rw [List.nil_append] at hwhole
          exact hwhole ▸ .comment comment hrest
      | cons d cs =>
          have hcs := (List.forall_mem_cons.1 hcs).2
          rcases List.append_eq_append_iff.1 (List.cons.inj hwhole).2 with
            ⟨more, rfl, rfl⟩ | ⟨more, rfl, rfl⟩
          · cases more with
            | nil => exact hrest
            | cons e more =>
                have he := comment e (List.mem_append_right _ List.mem_cons_self)
                rw [hds e rfl] at he
                cases he
          · exact ih (fun c hc => hcs c (List.mem_append_right _ hc)) rfl

/-- Characters that are passed over, and behind which nothing more of the text is. -/
structure Gap (gap rest : List Char) : Prop where
  ignorable : Ignorable gap
  longest : ∀ p, Ignorable p → p <+: gap ++ rest → p.length ≤ gap.length

/--
The lexemes of a text that starts at an offset. Between them are gaps, each of them as
long as it can be, and what stands between two gaps is the token.
-/
inductive Tokenizes : Nat → List Char → List (Lexeme Span) → Prop
  | done {offset gap} (passed : Gap gap []) : Tokenizes offset gap []
  | token {offset start stop gap found rest token lexemes} (passed : Gap gap (found ++ rest))
      (begins : Begins token found rest) (hstart : start = offset + Text.byteLength gap)
      (hstop : stop = start + Text.byteLength found) (others : Tokenizes stop rest lexemes) :
      Tokenizes offset (gap ++ (found ++ rest)) (⟨token, ⟨start, stop⟩⟩ :: lexemes)

/-- Behind what has been passed over, it is as at the start. -/
structure Passed (gap text : List Char) : Prop where
  ignorable : Ignorable gap
  anew : ∀ p, p <+: text → Ignorable (gap ++ p) → Ignorable p

theorem Passed.nil (text : List Char) : Passed [] text := ⟨.nil, fun _ _ h => h⟩

theorem Passed.append {gap more text : List Char} (h : Passed gap (more ++ text))
    (hmore : Passed more text) : Passed (gap ++ more) text where
  ignorable := h.ignorable.append hmore.ignorable
  anew p hp hall := by
    rw [List.append_assoc] at hall
    exact hmore.anew p hp (h.anew _ ((List.prefix_append_right_inj more).2 hp) hall)

theorem Ignorable.head {c : Char} {cs : List Char} (h : Ignorable (c :: cs)) :
    isIgnored c = true ∨ c = '#' := by
  generalize hwhole : c :: cs = whole at h
  cases h with
  | nil => cases hwhole
  | char ignored rest => exact .inl ((List.cons.inj hwhole).1 ▸ ignored)
  | comment comment rest => exact .inr (List.cons.inj hwhole).1

theorem Passed.gap {gap text : List Char} (h : Passed gap text)
    (hstop : ∀ c cs, text = c :: cs → isIgnored c = false ∧ c ≠ '#') : Gap gap text where
  ignorable := h.ignorable
  longest p hp hprefix := by
    rcases Nat.le_total p.length gap.length with hle | hle
    · exact hle
    obtain ⟨more, rfl⟩ := List.prefix_of_prefix_length_le (List.prefix_append gap text) hprefix hle
    have hmore := (List.prefix_append_right_inj gap).1 hprefix
    cases more with
    | nil => simp
    | cons c more =>
        obtain ⟨tail, rfl⟩ := hmore
        obtain ⟨hignored, hcomment⟩ := hstop c _ rfl
        rcases (h.anew _ (List.prefix_append _ _) hp).head with hc | hc
        · rw [hc] at hignored
          cases hignored
        · exact absurd hc hcomment

theorem passed_run {c : Char} (h : isIgnored c = true) (cs : List Char) :
    Passed (c :: cs.takeWhile isIgnored) (cs.dropWhile isIgnored) := by
  have hall : ∀ d ∈ c :: cs.takeWhile isIgnored, isIgnored d = true :=
    List.forall_mem_cons.2 ⟨h, List.all_eq_true.1 List.all_takeWhile⟩
  exact ⟨ignorable_of_all hall, fun p _ hp => hp.of_run hall⟩

theorem passed_comment (cs : List Char) :
    Passed ('#' :: cs.takeWhile isComment) (cs.dropWhile isComment) := by
  have hall : ∀ d ∈ cs.takeWhile isComment, isComment d = true :=
    List.all_eq_true.1 List.all_takeWhile
  refine ⟨?_, fun p hprefix hp => ?_⟩
  · simpa using Ignorable.comment hall .nil
  · refine hp.of_comment (List.forall_mem_cons.2 ⟨by decide, hall⟩) fun c hc => ?_
    cases p with
    | nil => cases hc
    | cons d p =>
        cases hc
        obtain ⟨tail, htail⟩ := hprefix
        have hhead := List.head?_dropWhile_not isComment cs
        rw [← htail] at hhead
        simpa using hhead

theorem step_passed {c : Char} (h : isIgnored c = true ∨ c = '#') (cs : List Char) :
    (Piece.step c cs).token = none
      ∧ Passed (c :: (Piece.step c cs).tail) (Piece.step c cs).rest := by
  rw [Piece.step]
  split
  · next hc => exact ⟨rfl, passed_run hc cs⟩
  · next hc =>
      obtain rfl := h.resolve_left hc
      exact ⟨rfl, passed_comment cs⟩

/-- After some characters that are passed over, the rest of a text falls into lexemes. -/
theorem lexemesFrom_tokenizes (text : List Char) :
    ∀ offset gap, Passed gap text → Tokenizes offset (gap ++ text)
      (lexemesFrom (offset + Text.byteLength gap) (pieces text)) := by
  fun_induction pieces text with
  | case1 =>
      intro offset gap h
      rw [List.append_nil]
      exact .done (h.gap fun _ _ hnil => absurd hnil.symm (List.cons_ne_nil _ _))
  | case2 c cs s ih =>
      intro offset gap h
      have hwhole : c :: cs = c :: s.tail ++ s.rest :=
        congrArg (c :: ·) (Piece.step_append c cs).symm
      by_cases hc : isIgnored c = true ∨ c = '#'
      · obtain ⟨hnone, hpassed⟩ := step_passed hc cs
        have hrest := ih offset _ (Passed.append (hwhole ▸ h) hpassed)
        rw [List.append_assoc, Text.byteLength_append, ← Nat.add_assoc] at hrest
        rw [lexemesFrom, hnone, hwhole]
        exact hrest
      · obtain ⟨hignored, hcomment⟩ := not_or.1 hc
        obtain ⟨token, htoken, hbegins⟩ := exists_begins (by simpa using hignored) hcomment cs
        have hgap : Gap gap (c :: cs) := h.gap fun d ds hds => by
          cases hds
          exact ⟨by simpa using hignored, hcomment⟩
        rw [lexemesFrom, htoken, hwhole]
        refine .token (hwhole ▸ hgap) hbegins rfl rfl ?_
        exact ih (offset + Text.byteLength gap + Text.byteLength (c :: s.tail)) [] (Passed.nil _)

theorem Tokenizes.ordered {offset : Nat} {text : List Char} {ls : List (Lexeme Span)}
    (h : Tokenizes offset text ls) :
    (∀ l ∈ ls, offset ≤ l.mark.start) ∧ ls.Pairwise fun l m => l.mark.stop ≤ m.mark.start := by
  induction h with
  | done passed => exact ⟨List.forall_mem_nil _, .nil⟩
  | token passed begins hstart hstop others ih =>
      obtain ⟨hlater, hpairwise⟩ := ih
      refine ⟨fun l hl => ?_, List.pairwise_cons.2 ⟨hlater, hpairwise⟩⟩
      rcases List.mem_cons.1 hl with rfl | hl
      · exact hstart ▸ Nat.le_add_right _ _
      · have hle := hlater l hl
        omega

/--
The lexemes are the longest matches of the rules in turn. Each of them spans some
characters of the text, and none starts before the end of another one before it.
-/
theorem lexemes_tokenize (text : List Char) :
    Tokenizes 0 text (lexemes text)
      ∧ (∀ l ∈ lexemes text, ∃ before found after, text = before ++ (found ++ after)
        ∧ l.mark.start = Text.byteLength before ∧ l.mark.stop = Text.byteLength (before ++ found)
        ∧ l.mark.start < l.mark.stop ∧ l.mark.stop ≤ Text.byteLength text)
      ∧ (lexemes text).Pairwise fun l m => l.mark.stop ≤ m.mark.start := by
  have hcut : ∀ l ∈ lexemes text, ∃ before found after, text = before ++ (found ++ after)
      ∧ l.mark.start = Text.byteLength before ∧ l.mark.stop = Text.byteLength (before ++ found)
      ∧ l.mark.start < l.mark.stop ∧ l.mark.stop ≤ Text.byteLength text := by
    intro l hl
    obtain ⟨before, found, after, hcuts⟩ := exists_cut hl
    have hpos := Text.byteLength_pos (pieces_ne_nil hcuts.piece)
    refine ⟨before, found, after, hcuts.whole, ?_, ?_, ?_, ?_⟩
    all_goals simp only [hcuts.mark, hcuts.whole, Text.byteLength_append] at hpos ⊢
    all_goals omega
  have htokenizes : Tokenizes 0 text (lexemes text) := by
    simpa [Text.byteLength, lexemes] using lexemesFrom_tokenizes text 0 [] (Passed.nil text)
  exact ⟨htokenizes, hcut, htokenizes.ordered.2⟩

/-- An exponent that is not complete is no part of the number. -/
example : (lexemes "1.5e+".toList).map (·.token)
    = [.float "1.5", .name "e", .invalid (.unexpected '+')] := by
  decide +kernel

end SchemaGraph.Sdl
