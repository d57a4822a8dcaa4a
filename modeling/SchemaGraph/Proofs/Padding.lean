import SchemaGraph.Proofs.Joining

/-!
# Padding

What the language ignores may be written in front of and behind every token, and at
both ends of a text. Nothing that it could take part in is disturbed. A token in front
of it ends where it did, since no token but a string goes on with such characters and a
string says itself where it ends. What comes behind it is found as it was, provided that
each comment among it ends before the next token; a comment that is still open at the
end of the text may swallow what is written behind it, and there is nothing behind that.

A position between two pieces cuts the text where the lexer cut it. `step_instead` is
the one fact about steps: what a step leaves may be exchanged from any later cut on, if
only what comes instead starts with a character that starts no token.

With the same tokens, all that can have changed is where they stand.
-/

namespace SchemaGraph

open Sdl

theorem Stops.instead {p : Char → Bool} {between back more : List Char}
    (h : Stops p (between ++ back)) (hmore : Stops p more) : Stops p (between ++ more) := by
  cases between with
  | nil => exact hmore
  | cons c between => exact .cons (h c rfl) _

theorem stops_of_dropWhile {p : Char → Bool} {cs rest : List Char} (h : cs.dropWhile p = rest) :
    Stops p rest := by
  intro c hc
  subst h
  have hhead := List.head?_dropWhile_not p cs
  rw [hc] at hhead
  simpa using hhead

theorem Text.append_inj_of_byteLength {front back front' back' : List Char}
    (h : front ++ back = front' ++ back') (hlength : byteLength front = byteLength front') :
    front = front' ∧ back = back' := by
  have hsplit := splitAtByte_byteLength front back
  rw [h, hlength, splitAtByte_byteLength] at hsplit
  exact ⟨(congrArg Prod.fst hsplit).symm, (congrArg Prod.snd hsplit).symm⟩

namespace Sdl

theorem run_stops {token : List Char → Option Token} {p : Char → Bool} {cs rest : List Char}
    {found : Option Token} {tail : List Char} (h : Piece.run token p cs = ⟨found, tail, rest⟩) :
    Stops p rest :=
  stops_of_dropWhile (congrArg Piece.Step.rest h)

theorem run_tail {token : List Char → Option Token} {p : Char → Bool} {cs tail rest : List Char}
    {found : Option Token} (h : Piece.run token p cs = ⟨found, tail, rest⟩) :
    ∀ c ∈ tail, p c = true := by
  cases h
  exact List.all_eq_true.1 List.all_takeWhile

theorem run_all {token : List Char → Option Token} {p : Char → Bool} {tail rest : List Char}
    (htail : ∀ c ∈ tail, p c = true) (hrest : Stops p rest) :
    Piece.run token p (tail ++ rest) = ⟨token tail, tail, rest⟩ := by
  rw [Piece.run, takeWhile_append_stops htail hrest, dropWhile_append_stops htail hrest]

theorem step_directive {c : Char} (h : isNameStart c = true) (cs : List Char) :
    Piece.step '@' (c :: cs)
      = Piece.run (fun name => some (.directive (String.ofList name))) isNameRest (c :: cs) := by
  have hstep : Piece.step '@' (c :: cs) = Piece.directive (c :: cs) := rfl
  rw [hstep, Piece.directive, if_pos h]

theorem tokenRule_of_step {c : Char} {cs tail rest : List Char} {token : Token}
    (h : Piece.step c cs = ⟨some token, tail, rest⟩) (hvalid : token.isValid = true) :
    TokenRule token (c :: tail) := by
  have hignored : isIgnored c = false := by
    cases hc : isIgnored c with
    | false => rfl
    | true =>
        obtain ⟨hnone, -⟩ := step_passed (.inl hc) cs
        rw [h] at hnone
        cases hnone
  have hcomment : c ≠ '#' := by
    intro hc
    obtain ⟨hnone, -⟩ := step_passed (.inr hc) cs
    rw [h] at hnone
    cases hnone
  obtain ⟨token', htoken, haccounts⟩ := step_stepsWell hignored hcomment cs
  rw [h] at htoken haccounts
  cases htoken
  rcases haccounts with hrule | ⟨fault, rfl, -⟩
  · exact hrule
  · cases hvalid

end Sdl

namespace Text.Number

theorem text_injective {cs cs' after after' : List Char} {n n' : Number}
    (h : read? cs = some (n, after)) (h' : read? cs' = some (n', after'))
    (htext : n.text = n'.text) : n = n' := by
  have hn := read?_rereads h (stops_nil isRest)
  rw [htext, read?_rereads h' (stops_nil isRest)] at hn
  exact (Prod.mk.inj (Option.some.inj hn)).1.symm

theorem IsNumber.isNumberChar {cs : List Char} (h : IsNumber cs) :
    ∀ c ∈ cs, isNumberChar c = true := by
  obtain ⟨_, exponent, rfl, ⟨whole, fraction, rfl, hwhole, hfraction⟩, hexponent⟩ := h
  have hpart : ∀ {rule : List Char → Prop} {part : List Char}, part = [] ∨ rule part →
      (rule part → ∀ c ∈ part, Number.isNumberChar c = true) →
        ∀ c ∈ part, Number.isNumberChar c = true := by
    rintro rule part (rfl | hrule) hchars
    · exact List.forall_mem_nil _
    · exact hchars hrule
  intro c hc
  rcases List.mem_append.1 hc with hc | hc
  · rcases List.mem_append.1 hc with hc | hc
    · exact hwhole.isNumberChar c hc
    · exact hpart hfraction IsFraction.isNumberChar c hc
  · exact hpart hexponent IsExponent.isNumberChar c hc

/-- A number is not read into what comes instead of the text behind it. -/
theorem read?_instead {n : Number} {between back more : List Char}
    (h : read? (n.text ++ (between ++ back)) = some (n, between ++ back))
    (hmore : Stops isNumberChar more) :
    read? (n.text ++ (between ++ more)) = some (n, between ++ more) := by
  have hfound : LongestAt IsNumber (n.text ++ between) (some (n.text, between)) := by
    have hlongest := read?_longest (n.text ++ (between ++ back))
    rw [h] at hlongest
    refine ⟨?_, ?_, fun {p} hp hprefix => ?_⟩
    · rintro _ _ ⟨⟩
      rfl
    · rintro _ _ ⟨⟩
      exact hlongest.sound rfl
    · obtain ⟨found, rest, heq, hle⟩ := hlongest.longest hp
        (List.append_assoc _ _ _ ▸ hprefix.trans (List.prefix_append _ back))
      cases heq
      exact ⟨_, _, rfl, hle⟩
  have hbehind := hfound.append_behind (fun _ => IsNumber.isNumberChar) hmore
  rw [List.append_assoc] at hbehind
  obtain ⟨⟨n', rest⟩, hread, heq⟩ :=
    Option.map_eq_some_iff.1 ((read?_longest _).unique hbehind)
  obtain ⟨htext, rfl⟩ := Prod.mk.inj heq
  rw [hread, text_injective hread h htext]

end Text.Number

namespace Sdl

section

variable {between back more : List Char} (hmore : Separated more)

include hmore

theorem number_instead {c : Char} {tail : List Char} {token : Token}
    (h : Piece.number c (tail ++ (between ++ back)) = ⟨some token, tail, between ++ back⟩)
    (hvalid : token.isValid = true) :
    Piece.number c (tail ++ (between ++ more)) = ⟨some token, tail, between ++ more⟩ := by
  rw [Piece.number] at h
  split at h
  · next n rest hread =>
      simp only [Piece.Step.mk.injEq, Option.some.injEq] at h
      obtain ⟨rfl, rfl, rfl⟩ := h
      have happend := Text.Number.read?_append hread
      rw [← List.cons_append] at happend
      have htext : n.text = c :: n.text.tail := List.append_cancel_right happend
      rw [← List.cons_append, ← htext] at hread
      have hinstead := Text.Number.read?_instead hread (hmore.stops (by decide))
      rw [htext, List.cons_append] at hinstead
      rw [Piece.number, hinstead]
  · cases h
    cases hvalid

theorem string_instead {value text : List Char} (content : StringContent value text)
    {token : Option Token}
    (h : Piece.string (text ++ ['"'] ++ (between ++ back))
      = ⟨token, text ++ ['"'], between ++ back⟩) :
    Piece.string (text ++ ['"'] ++ (between ++ more))
      = ⟨some (.string (String.ofList value)), text ++ ['"'], between ++ more⟩ := by
  cases htext : text with
  | nil =>
      -- A third quote would have opened a block string, and none comes now.
      subst htext
      cases content
      have hquote : Stops (· == '"') (between ++ back) := by
        intro c hc
        obtain ⟨rest, hrest⟩ := List.head?_eq_some_iff.1 hc
        cases hcq : c == '"' with
        | false => exact hcq
        | true =>
            obtain rfl := beq_iff_eq.1 hcq
            rw [hrest, Piece.string.eq_def] at h
            simp only [List.nil_append, List.singleton_append] at h
            split at h <;> cases congrArg (List.length ∘ Piece.Step.tail) h
      refine Piece.string_of_empty fun hhead => ?_
      exact absurd (hquote.instead (hmore.stops (by decide)) '"' hhead) (by decide)
  | cons c cs =>
      have hquote : (c :: cs ++ '"' :: (between ++ more)).head? ≠ some '"' := by
        subst htext
        cases content with
        | plain char content =>
            rintro ⟨⟩
            exact absurd char (by decide)
        | escape | codePoint => rintro ⟨⟩
      rw [List.append_assoc, List.singleton_append]
      have hbody := content.body (between ++ more)
      rw [htext, ← StringLiteral.literal_eq_body] at hbody
      exact Piece.string_of_literal hquote hbody

/-- What comes instead of the text behind a token, from some cut on, leaves the token. -/
theorem step_instead {c : Char} {tail : List Char} {token : Token}
    (h : Piece.step c (tail ++ (between ++ back)) = ⟨some token, tail, between ++ back⟩)
    (hvalid : token.isValid = true) :
    Piece.step c (tail ++ (between ++ more)) = ⟨some token, tail, between ++ more⟩ := by
  have hrule := tokenRule_of_step h hvalid
  generalize hfound : c :: tail = found at hrule
  cases hrule with
  | punct p =>
      cases hfound
      cases p <;> rfl
  | name start rest =>
      cases hfound
      rw [step_nameStart start] at h ⊢
      exact run_all rest ((run_stops h).instead (hmore.stops (by decide)))
  | directive start rest =>
      cases hfound
      rw [List.cons_append, step_directive start] at h ⊢
      exact run_all (List.forall_mem_cons.2 ⟨isNameRest_of_start start, rest⟩)
        ((run_stops h).instead (hmore.stops (by decide)))
  | integer whole =>
      obtain ⟨d, ds, hd, hstart⟩ := whole.head
      cases hfound
      cases hd
      rw [step_number hstart] at h ⊢
      exact number_instead hmore h hvalid
  | float literal part =>
      obtain ⟨d, ds, hd, hstart⟩ := literal.isNumber.head
      cases hfound.trans hd
      rw [step_number hstart] at h ⊢
      exact number_instead hmore h hvalid
  | string content =>
      cases hfound
      rw [step_quote] at h ⊢
      exact string_instead hmore content h
  | block content =>
      cases hfound
      rw [step_quote, List.cons_append, List.cons_append, Piece.string, content.scan]

end

/-- The tokens of a text. -/
def tokens (text : List Char) : List Token := (pieces text).filterMap Piece.token

theorem lexemesFrom_tokens (offset : Nat) (ps : List Piece) :
    (lexemesFrom offset ps).map Lexeme.token = ps.filterMap Piece.token := by
  induction ps generalizing offset with
  | nil => rfl
  | cons p ps ih =>
      rw [lexemesFrom, List.filterMap_cons]
      cases p.token with
      | none => exact ih _
      | some token => exact congrArg (token :: ·) (ih _)

theorem tokens_step {c : Char} {cs : List Char} {s : Piece.Step} (h : Piece.step c cs = s) :
    tokens (c :: cs) = s.token.toList ++ tokens s.rest := by
  subst h
  rw [tokens, pieces, List.filterMap_cons]
  dsimp only
  cases (Piece.step c cs).token <;> rfl

theorem tokens_ignored {c : Char} (h : isIgnored c = true) (rest : List Char) :
    tokens (c :: rest) = tokens rest := by
  have hlexemes := congrArg (List.map Lexeme.token) (lexemesAt_ignored h 0 rest)
  rwa [lexemesAt, lexemesAt, lexemesFrom_tokens, lexemesFrom_tokens] at hlexemes

theorem step_comment (cs : List Char) :
    Piece.step '#' cs = Piece.run (fun _ => none) isComment cs := rfl

/-- There are no tokens in what may be passed over as a whole. -/
theorem Ignorable.tokens {text : List Char} (h : Ignorable text) : tokens text = [] := by
  unfold Sdl.tokens
  fun_induction pieces text with
  | case1 => rfl
  | case2 c cs s ih =>
      obtain ⟨hnone, hpassed⟩ := step_passed h.head cs
      have hwhole : c :: cs = c :: s.tail ++ s.rest :=
        congrArg (c :: ·) (Piece.step_append c cs).symm
      have hrest : Ignorable s.rest := hpassed.anew _ (List.prefix_refl _) (hwhole ▸ h)
      rw [List.filterMap_cons, hnone]
      exact ih hrest

/-- What may be written between tokens: what is passed over, each comment with a line end. -/
inductive Blank : List Char → Prop
  | nil : Blank []
  | char {c cs} (ignored : isIgnored c = true) (rest : Blank cs) : Blank (c :: cs)
  | comment {text c cs} (comment : ∀ d ∈ text, isComment d = true)
      (lineEnd : c = '\n' ∨ c = '\r') (rest : Blank cs) : Blank ('#' :: (text ++ c :: cs))

theorem blank_of_all {cs : List Char} (h : ∀ c ∈ cs, isIgnored c = true) : Blank cs := by
  induction cs with
  | nil => exact .nil
  | cons c cs ih =>
      obtain ⟨hc, hcs⟩ := List.forall_mem_cons.1 h
      exact .char hc (ih hcs)

theorem Blank.ignorable {pad : List Char} (h : Blank pad) : Ignorable pad := by
  induction h with
  | nil => exact .nil
  | char ignored rest ih => exact .char ignored ih
  | comment comment lineEnd rest ih =>
      refine .comment comment (.char ?_ ih)
      rcases lineEnd with rfl | rfl <;> decide

theorem Blank.separated {pad : List Char} (h : Blank pad) (hne : pad ≠ []) (rest : List Char) :
    Separated (pad ++ rest) := by
  cases h with
  | nil => exact absurd rfl hne
  | @char c cs ignored _ =>
      refine ⟨c, ?_, rfl⟩
      simpa [separators, isIgnored, or_assoc] using Or.inl ignored
  | comment => exact ⟨'#', by decide, rfl⟩

/-- The tokens behind a padding are found as if it were not there. -/
theorem Blank.tokens_append {pad : List Char} (h : Blank pad) (rest : List Char) :
    tokens (pad ++ rest) = tokens rest := by
  induction h with
  | nil => rfl
  | char ignored _ ih => rw [List.cons_append, tokens_ignored ignored, ih]
  | @comment text c cs comment lineEnd _ ih =>
      have hend : isComment c = false ∧ isIgnored c = true := by
        rcases lineEnd with rfl | rfl <;> decide
      have hstep : Piece.step '#' (text ++ c :: (cs ++ rest))
          = ⟨none, text, c :: (cs ++ rest)⟩ := by
        rw [step_comment]
        exact run_all comment (.cons hend.1 _)
      rw [List.cons_append, List.append_assoc, List.cons_append, tokens_step hstep,
        tokens_ignored hend.2, ih]
      rfl

/-! ## Cuts between pieces

A border is an offset, but what is known in front of it are pieces, and the induction of
`tokens_instead` is on these. Each token among them is found again, by `step_instead`.
White space may go on in what comes instead of the text behind the cut, and no token is
lost by that. Only a comment would take in tokens. But one that has another piece behind
it has ended there, so all that is asked is that the last piece is none (`Closed`). -/

/-- The text that some pieces make up. -/
def textOf (ps : List Piece) : List Char := (ps.map Piece.text).flatten

theorem textOf_nil : textOf [] = [] := rfl

theorem textOf_cons (p : Piece) (ps : List Piece) : textOf (p :: ps) = p.text ++ textOf ps := by
  rw [textOf, List.map_cons, List.flatten_cons]
  rfl

theorem textOf_append (ps qs : List Piece) : textOf (ps ++ qs) = textOf ps ++ textOf qs := by
  rw [textOf, List.map_append, List.flatten_append]
  rfl

theorem eq_textOf {text : List Char} {ps qs : List Piece} (h : pieces text = ps ++ qs) :
    text = textOf ps ++ textOf qs := by
  rw [← textOf_append, ← h]
  exact (pieces_flatten text).symm

theorem pieces_cons {p : Piece} {ps : List Piece} {more : List Char}
    (h : pieces (p.text ++ more) = p :: ps) :
    ∃ c tail, p.text = c :: tail ∧ Piece.step c (tail ++ more) = ⟨p.token, tail, more⟩
      ∧ pieces more = ps := by
  have hne : p.text ≠ [] := pieces_ne_nil (h ▸ List.mem_cons_self)
  obtain ⟨c, tail, htext⟩ := List.exists_cons_of_ne_nil hne
  rw [htext, List.cons_append, pieces] at h
  obtain ⟨hp, hps⟩ := List.cons.inj h
  have htail : (Piece.step c (tail ++ more)).tail = tail := by
    rw [← hp] at htext
    exact (List.cons.inj htext).2
  have hrest : (Piece.step c (tail ++ more)).rest = more := by
    have happend := Piece.step_append c (tail ++ more)
    rw [htail] at happend
    exact List.append_cancel_left happend
  have htoken : (Piece.step c (tail ++ more)).token = p.token := congrArg Piece.token hp
  refine ⟨c, tail, htext, ?_, hrest ▸ hps⟩
  generalize Piece.step c (tail ++ more) = s at htail hrest htoken
  obtain ⟨token, tail', rest⟩ := s
  cases htail
  cases hrest
  cases htoken
  rfl

theorem pieces_drop {ps qs : List Piece} {rest : List Char}
    (h : pieces (textOf ps ++ rest) = ps ++ qs) : pieces rest = qs := by
  induction ps with
  | nil => exact h
  | cons p ps ih =>
      rw [textOf_cons, List.append_assoc] at h
      obtain ⟨-, -, -, -, hrest⟩ := pieces_cons h
      exact ih hrest

/-- Each piece of a text is what one step finds where it stands. -/
theorem step_of_pieces {text : List Char} {ps qs : List Piece} {p : Piece}
    (h : pieces text = ps ++ p :: qs) :
    ∃ c tail, p.text = c :: tail
      ∧ Piece.step c (tail ++ textOf qs) = ⟨p.token, tail, textOf qs⟩ := by
  have hcut : pieces (textOf ps ++ (p.text ++ textOf qs)) = ps ++ p :: qs := by
    rw [← textOf_cons, ← eq_textOf h, h]
  obtain ⟨c, tail, htext, hstep, -⟩ := pieces_cons (pieces_drop hcut)
  exact ⟨c, tail, htext, hstep⟩

theorem step_of_comment {text : List Char} {ps qs : List Piece} {p : Piece}
    (h : pieces text = ps ++ p :: qs) (hhead : p.text.head? = some '#') :
    p.token = none ∧ (∃ tail, p.text = '#' :: tail ∧ ∀ c ∈ tail, isComment c = true)
      ∧ Stops isComment (textOf qs) := by
  obtain ⟨c, tail, htext, hstep⟩ := step_of_pieces h
  rw [htext] at hhead
  cases hhead
  rw [step_comment] at hstep
  exact ⟨(congrArg Piece.Step.token hstep).symm, ⟨tail, htext, run_tail hstep⟩, run_stops hstep⟩

/-- Whether the last of some pieces is no comment. -/
def Closed (ps : List Piece) : Prop := ∀ p, ps.getLast? = some p → p.text.head? ≠ some '#'

/-- A comment goes on with every character that can stand in one. -/
theorem closed_of_isComment {text : List Char} {ps qs : List Piece} {q : Piece} {c : Char}
    (h : pieces text = ps ++ q :: qs) (hq : q.text.head? = some c) (hc : isComment c = true) :
    Closed ps := by
  intro p hp hhead
  obtain ⟨init, rfl⟩ := List.getLast?_eq_some_iff.1 hp
  rw [List.append_assoc, List.singleton_append] at h
  obtain ⟨-, -, hstops⟩ := step_of_comment h hhead
  have hend := hstops c (by rw [textOf_cons, List.head?_append, hq]; rfl)
  rw [hc] at hend
  cases hend

theorem tokens_step_instead {c : Char} {tail between back more : List Char}
    {token : Option Token}
    (h : Piece.step c (tail ++ (between ++ back)) = ⟨token, tail, between ++ back⟩)
    (hvalid : ∀ t, token = some t → t.isValid = true) (hcomment : c = '#' → between ≠ [])
    (hmore : Separated more) :
    tokens (c :: (tail ++ (between ++ more))) = token.toList ++ tokens (between ++ more) := by
  by_cases hignored : isIgnored c = true
  · -- The run may go on in what comes instead, which makes no difference to the tokens.
    rw [Piece.step, if_pos hignored] at h
    cases congrArg Piece.Step.token h
    rw [tokens_ignored hignored, (blank_of_all (run_tail h)).tokens_append]
    rfl
  by_cases hhash : c = '#'
  · subst hhash
    rw [step_comment] at h
    have htoken : token = none := (congrArg Piece.Step.token h).symm
    obtain ⟨d, ds, rfl⟩ := List.exists_cons_of_ne_nil (hcomment rfl)
    have hstep : Piece.step '#' (tail ++ (d :: ds ++ more)) = ⟨token, tail, d :: ds ++ more⟩ := by
      rw [step_comment, htoken]
      exact run_all (run_tail h) (Stops.cons (run_stops h d rfl) (ds ++ more))
    exact tokens_step hstep
  · obtain ⟨t, htoken, -⟩ := exists_begins (by simpa using hignored) hhash
      (tail ++ (between ++ back))
    rw [h] at htoken
    subst htoken
    exact tokens_step (step_instead hmore h (hvalid t rfl))

/-- What comes instead of the text behind a cut leaves the tokens in front of it. -/
theorem tokens_instead {ps qs : List Piece} {back more : List Char}
    (h : pieces (textOf ps ++ back) = ps ++ qs)
    (hvalid : ∀ p ∈ ps, ∀ t, p.token = some t → t.isValid = true) (hclosed : Closed ps)
    (hmore : Separated more) :
    tokens (textOf ps ++ more) = ps.filterMap Piece.token ++ tokens more := by
  induction ps with
  | nil => rfl
  | cons p ps ih =>
      obtain ⟨hp, hps⟩ := List.forall_mem_cons.1 hvalid
      rw [textOf_cons, List.append_assoc, List.cons_append] at h
      obtain ⟨c, tail, htext, hstep, hrest⟩ := pieces_cons h
      have hcomment : c = '#' → textOf ps ≠ [] := by
        rintro rfl hnil
        cases ps with
        | nil => exact hclosed p rfl (by rw [htext]; rfl)
        | cons q ps =>
            have hmem : q ∈ pieces (textOf (q :: ps) ++ back) := by
              rw [hrest]
              exact List.mem_cons_self
            have hq : q.text ≠ [] := pieces_ne_nil hmem
            simp [textOf, hq] at hnil
      have hlater := ih hrest hps fun q hq =>
        hclosed q (by rw [List.getLast?_cons, hq]; rfl)
      rw [textOf_cons, List.append_assoc, htext, List.cons_append,
        tokens_step_instead hstep hp hcomment hmore, hlater, List.filterMap_cons]
      cases p.token <;> rfl

/-! ## Borders

Three of the four kinds of borders are cuts at which no comment is open. At the start
there is nothing in front; a lexeme that ends at a border is no comment; and in front of a
lexeme, a comment would have gone on with its first character. At the end of a text one
may be open. It takes in the padding up to the first line end, but the two are passed over
as a whole, and there is nothing behind them that could be lost. -/

/-- The places in a text at which nothing is cut in two: its ends, and those of its lexemes. -/
inductive Border (text : List Char) : Nat → Prop
  | start : Border text 0
  | stop : Border text (Text.byteLength text)
  | before {l} (lexeme : l ∈ lexemes text) : Border text l.mark.start
  | behind {l} (lexeme : l ∈ lexemes text) : Border text l.mark.stop

theorem valid_of_tokens {text : List Char} {ps qs : List Piece} (h : pieces text = ps ++ qs)
    (hvalid : ∀ t ∈ tokens text, t.isValid = true) :
    ∀ p ∈ ps, ∀ t, p.token = some t → t.isValid = true := by
  intro p hp t ht
  refine hvalid t ?_
  rw [tokens, h]
  exact List.mem_filterMap.2 ⟨p, List.mem_append_left _ hp, ht⟩

/-- Padding between two pieces leaves the tokens of a text. -/
theorem tokens_padded_cut {text pad : List Char} {ps qs : List Piece}
    (h : pieces text = ps ++ qs) (hvalid : ∀ t ∈ tokens text, t.isValid = true)
    (hclosed : Closed ps) (hpad : Blank pad) :
    tokens (textOf ps ++ (pad ++ textOf qs)) = tokens text := by
  by_cases hne : pad = []
  · rw [hne, List.nil_append, ← eq_textOf h]
  have hcut : pieces (textOf ps ++ textOf qs) = ps ++ qs := eq_textOf h ▸ h
  rw [tokens_instead hcut (valid_of_tokens h hvalid) hclosed (hpad.separated hne _),
    hpad.tokens_append, tokens, tokens, h, List.filterMap_append, pieces_drop hcut]

/-- A token starts neither with the sign of a comment nor with a line end. -/
theorem exists_start {text : List Char} {ps qs : List Piece} {p : Piece} {t : Token}
    (h : pieces text = ps ++ p :: qs) (ht : p.token = some t) :
    ∃ c, p.text.head? = some c ∧ isComment c = true ∧ c ≠ '#' := by
  obtain ⟨c, tail, htext, hstep⟩ := step_of_pieces h
  have hstart : ¬(isIgnored c = true ∨ c = '#') := by
    intro hpassed
    obtain ⟨hnone, -⟩ := step_passed hpassed (tail ++ textOf qs)
    rw [hstep] at hnone
    cases hnone.symm.trans ht
  obtain ⟨hignored, hhash⟩ := not_or.1 hstart
  refine ⟨c, by rw [htext]; rfl, ?_, hhash⟩
  by_contra hend
  have hend : c = '\n' ∨ c = '\r' := by
    simpa [isComment, Decidable.imp_iff_not_or] using hend
  rcases hend with rfl | rfl <;> exact hignored (by decide)

/-- A comment that is open at the end of a text takes some of the padding, or all of it. -/
theorem tokens_padded_end {text pad : List Char}
    (hvalid : ∀ t ∈ tokens text, t.isValid = true) (hpad : Blank pad) :
    tokens (text ++ pad) = tokens text := by
  by_cases hclosed : Closed (pieces text)
  · have hwhole := (List.append_nil (pieces text)).symm
    have hpadded := tokens_padded_cut hwhole hvalid hclosed hpad
    have htext : textOf (pieces text) = text := pieces_flatten text
    rwa [htext, textOf_nil, List.append_nil] at hpadded
  obtain ⟨p, hlast, hhead⟩ : ∃ p, (pieces text).getLast? = some p ∧ p.text.head? = some '#' := by
    simpa [Closed] using hclosed
  obtain ⟨init, hinit⟩ := List.getLast?_eq_some_iff.1 hlast
  have hopen : Closed init := closed_of_isComment hinit hhead (by decide)
  obtain ⟨hnone, ⟨tail, htext, htail⟩, -⟩ := step_of_comment hinit hhead
  have hignorable : Ignorable (p.text ++ pad) := by
    rw [htext]
    exact .comment htail hpad.ignorable
  have hwhole := eq_textOf hinit
  have hcut : pieces (textOf init ++ textOf [p]) = init ++ [p] := hwhole ▸ hinit
  have hseparated : Separated (p.text ++ pad) := ⟨'#', by decide, by rw [htext]; rfl⟩
  rw [textOf_cons, textOf_nil, List.append_nil] at hwhole
  calc tokens (text ++ pad)
      = tokens (textOf init ++ (p.text ++ pad)) := by rw [hwhole, List.append_assoc]
    _ = init.filterMap Piece.token ++ tokens (p.text ++ pad) :=
        tokens_instead hcut (valid_of_tokens hinit hvalid) hopen hseparated
    _ = tokens text := by
        rw [hignorable.tokens, tokens, hinit, List.filterMap_append, List.filterMap_cons, hnone]
        rfl

/-- Padding at a border leaves the tokens of a text. -/
theorem tokens_padded {front back pad : List Char}
    (hat : Border (front ++ back) (Text.byteLength front))
    (hvalid : ∀ t ∈ tokens (front ++ back), t.isValid = true) (hpad : Blank pad) :
    tokens (front ++ (pad ++ back)) = tokens (front ++ back) := by
  generalize hoffset : Text.byteLength front = offset at hat
  cases hat with
  | start =>
      obtain rfl : front = [] := Text.byteLength_eq_zero.1 hoffset
      exact hpad.tokens_append back
  | stop =>
      obtain rfl : back = [] := Text.byteLength_eq_zero.1 (by
        rw [Text.byteLength_append] at hoffset
        omega)
      rw [List.append_nil] at hvalid ⊢
      rw [List.append_nil]
      exact tokens_padded_end hvalid hpad
  | before lexeme =>
      obtain ⟨ps, p, qs, hpieces, htoken, hstart, -⟩ := exists_cut_of_mem_lexemesFrom lexeme
      rw [Nat.zero_add] at hstart
      obtain ⟨c, hhead, hcomment, -⟩ := exists_start hpieces htoken
      have hpadded := tokens_padded_cut hpieces hvalid
        (closed_of_isComment hpieces hhead hcomment) hpad
      obtain ⟨rfl, rfl⟩ := Text.append_inj_of_byteLength (eq_textOf hpieces)
        (hoffset.trans hstart)
      exact hpadded
  | behind lexeme =>
      obtain ⟨ps, p, qs, hpieces, htoken, hstart, hstop⟩ := exists_cut_of_mem_lexemesFrom lexeme
      obtain ⟨c, hhead, -, hhash⟩ := exists_start hpieces htoken
      have hclosed : Closed (ps ++ [p]) := by
        intro q hq
        rw [List.getLast?_concat] at hq
        cases hq
        rw [hhead]
        exact fun h => hhash (Option.some.inj h)
      rw [List.append_cons] at hpieces
      have hpadded := tokens_padded_cut hpieces hvalid hclosed hpad
      obtain ⟨rfl, rfl⟩ := Text.append_inj_of_byteLength (eq_textOf hpieces) (by
        rw [hoffset, hstop, hstart, Nat.zero_add, textOf_append, Text.byteLength_append]
        simp [textOf])
      exact hpadded

theorem exists_remarked {μ ν : Type} [DecidableEq μ] [Inhabited ν] {ls : List (Lexeme μ)}
    {ls' : List (Lexeme ν)} (htokens : ls'.map Lexeme.token = ls.map Lexeme.token)
    (hmarks : (ls.map Lexeme.mark).Nodup) : ∃ f, ls' = remarked f ls := by
  induction ls generalizing ls' with
  | nil => exact ⟨fun _ => default, by simpa using htokens⟩
  | cons l ls ih =>
      cases ls' with
      | nil => cases htokens
      | cons l' ls' =>
          obtain ⟨hhead, htail⟩ := List.cons.inj htokens
          obtain ⟨hnew, hnodup⟩ := List.nodup_cons.1 hmarks
          obtain ⟨f, rfl⟩ := ih htail hnodup
          refine ⟨fun m => if m = l.mark then l'.mark else f m, ?_⟩
          have hothers : ∀ k ∈ ls, k.mark ≠ l.mark :=
            fun k hk heq => hnew (heq ▸ List.mem_map_of_mem hk)
          refine List.cons_eq_cons.2 ⟨?_, List.map_congr_left fun k hk => ?_⟩
          · obtain ⟨token, mark⟩ := l'
            cases hhead
            simp [Lexeme.map]
          · simp [Lexeme.map, hothers k hk]

theorem lexemes_tokens (text : List Char) : (lexemes text).map Lexeme.token = tokens text :=
  lexemesFrom_tokens 0 (pieces text)

theorem lexemes_marks_nodup (text : List Char) : ((lexemes text).map Lexeme.mark).Nodup := by
  refine List.pairwise_map.2 ((lexemes_starts text).imp fun hlt heq => ?_)
  exact absurd (congrArg Span.start heq) (Nat.ne_of_lt hlt)

/-- A text that has the tokens of a derivation has the definitions, but for their marks. -/
theorem Derives.of_tokens {ls : List (Lexeme Span)} {ds : List (Definition Span)}
    (h : Derives ls ds) (hmarks : (ls.map Lexeme.mark).Nodup) {text : List Char}
    (htokens : tokens text = ls.map Lexeme.token) :
    ∃ f : Span → Span, Derives (lexemes text) (ds.map (·.map f)) := by
  obtain ⟨f, hf⟩ := exists_remarked ((lexemes_tokens text).trans htokens) hmarks
  exact ⟨f, hf ▸ h.remark f⟩

theorem Derives.valid_tokens {text : List Char} {ds : List (Definition Span)}
    (h : Derives (lexemes text) ds) : ∀ t ∈ tokens text, t.isValid = true := by
  intro t ht
  rw [← lexemes_tokens] at ht
  obtain ⟨l, hl, rfl⟩ := List.mem_map.1 ht
  exact h.isValid l hl

/-- Padding at a border of a text with definitions changes no more than their marks. -/
theorem Derives.padded {front pad back : List Char} {ds : List (Definition Span)}
    (h : Derives (lexemes (front ++ back)) ds)
    (hat : Border (front ++ back) (Text.byteLength front)) (hpad : Blank pad) :
    ∃ f : Span → Span, Derives (lexemes (front ++ (pad ++ back))) (ds.map (·.map f)) := by
  refine h.of_tokens (lexemes_marks_nodup _) ?_
  rw [lexemes_tokens, tokens_padded hat h.valid_tokens hpad]

end Sdl

/-- The source with this text instead of its own. -/
def Source.withText (s : Source) (text : List Char) : Source := ⟨s.path, String.ofList text⟩

theorem Fragment.ofSource_padded {s : Source} {f : Fragment} (h : ofSource s = .ok f)
    {front pad back : List Char} (htext : s.text.toList = front ++ back)
    (hat : Border (front ++ back) (Text.byteLength front)) (hpad : Blank pad) :
    ∃ f', ofSource (s.withText (front ++ (pad ++ back))) = .ok f'
      ∧ unmarked f'.definitions = unmarked f.definitions := by
  obtain ⟨-, hderives⟩ := ofSource_ok.1 h
  rw [htext] at hderives
  obtain ⟨g, hpadded⟩ := hderives.padded hat hpad
  refine ⟨⟨_, f.definitions.map (·.map g)⟩, ofSource_ok.2 ⟨rfl, ?_⟩, unmarked_map g _⟩
  rwa [Source.withText, String.toList_ofList]

/-- Reading goes as it went with another source in the place of one, if both can be read. -/
theorem Document.readAll_instead {s s' : Source} {f f' : Fragment}
    (h : Fragment.ofSource s = .ok f) (h' : Fragment.ofSource s' = .ok f')
    (before after : List Source) :
    (∃ r, readAll (before ++ s :: after) = .error r ∧ readAll (before ++ s' :: after) = .error r)
      ∨ ∃ fs gs, readAll (before ++ s :: after) = .ok (fs ++ f :: gs)
        ∧ readAll (before ++ s' :: after) = .ok (fs ++ f' :: gs) := by
  induction before with
  | nil =>
      simp only [List.nil_append, readAll, h, h']
      cases readAll after with
      | error r => exact .inl ⟨r, rfl, rfl⟩
      | ok gs => exact .inr ⟨[], gs, rfl, rfl⟩
  | cons t before ih =>
      simp only [List.cons_append, readAll]
      cases Fragment.ofSource t with
      | error r => exact .inl ⟨r, rfl, rfl⟩
      | ok e =>
          rcases ih with ⟨r, hr, hr'⟩ | ⟨fs, gs, hfs, hfs'⟩
          · exact .inl ⟨r, by simp [hr], by simp [hr']⟩
          · exact .inr ⟨e :: fs, gs, by simp [hfs], by simp [hfs']⟩

namespace Graph

theorem build_unread {sources : List Source} {r : Report} (hsome : sources ≠ [])
    (h : Document.readAll sources = .error r) (options : Options) :
    build options sources = .error r := by
  cases sources with
  | nil => exact absurd rfl hsome
  | cons s sources => simp only [build, Document.load, h]

/-- Sources that can be read and that declare the same are as good as each other. -/
theorem build_instead {s s' : Source} {f f' : Fragment} (h : Fragment.ofSource s = .ok f)
    (h' : Fragment.ofSource s' = .ok f')
    (hsame : unmarked f'.definitions = unmarked f.definitions) (options : Options)
    (before after : List Source) :
    SameOutcome (build options (before ++ s :: after))
      (build options (before ++ s' :: after)) := by
  have hsome : ∀ t, before ++ t :: after ≠ [] := by simp
  rcases Document.readAll_instead h h' before after with ⟨r, hr, hr'⟩ | ⟨fs, gs, hfs, hfs'⟩
  · rw [build_unread (hsome s) hr, build_unread (hsome s') hr']
    exact .report rfl rfl
  · refine build_unlocated (Document.load_iff.2 ⟨hsome s, hfs⟩)
      (Document.load_iff.2 ⟨hsome s', hfs'⟩) (fun place => ?_) options
    rw [Document.relocated_definitions, Document.relocated_definitions]
    simp only [List.flatMap_append, List.flatMap_cons, unmarked_append, hsame]

/--
Padding at an end of a text that can be read, in front of one of its lexemes or behind one
leaves a text that can be read. Its definitions are the same but for the places at which
they stand, and with all options, among whatever other sources, what comes of it is the
same: a graph that differs in nothing but locations, or a report that says the same.
-/
theorem build_padded {s : Source} {f : Fragment} (h : Fragment.ofSource s = .ok f)
    {front pad back : List Char} (htext : s.text.toList = front ++ back)
    (hat : Border (front ++ back) (Text.byteLength front)) (hpad : Blank pad) :
    ∃ f', Fragment.ofSource (s.withText (front ++ (pad ++ back))) = .ok f'
      ∧ unmarked f'.definitions = unmarked f.definitions
      ∧ ∀ options before after, SameOutcome (build options (before ++ s :: after))
          (build options (before ++ s.withText (front ++ (pad ++ back)) :: after)) := by
  obtain ⟨f', hf', hsame⟩ := Fragment.ofSource_padded h htext hat hpad
  exact ⟨f', hf', hsame, build_instead h hf' hsame⟩

/-- An empty description right in front of a keyword, and a comment that is open at the end. -/
def tightSource : Source := ⟨"tight", "\"\"type Query{a(n:Int=1):Int}# open"⟩

theorem build_padded_tight :
    ∃ f f', Fragment.ofSource tightSource = .ok f
      ∧ Fragment.ofSource (tightSource.withText
          "\"\"\uFEFF#\"\r,type Query{a(n:Int=1):Int}# open".toList) = .ok f'
      ∧ unmarked f'.definitions = unmarked f.definitions
      ∧ SameOutcome (build .standard [tightSource]) (build .standard [tightSource.withText
          "\"\"\uFEFF#\"\r,type Query{a(n:Int=1):Int}# open".toList]) := by
  have hread : (Fragment.ofSource tightSource).toOption.isSome = true := by
    decide +kernel
  have hlexeme : (⟨.string "", 0, 2⟩ : Lexeme Span)
      ∈ lexemes (['"', '"'] ++ "type Query{a(n:Int=1):Int}# open".toList) := by
    decide +kernel
  have hat : Border (['"', '"'] ++ "type Query{a(n:Int=1):Int}# open".toList)
      (Text.byteLength ['"', '"']) := .behind hlexeme
  have hcomment : Blank ('#' :: (['"'] ++ '\r' :: [','])) :=
    .comment (List.forall_mem_singleton.2 rfl) (.inr rfl) (.char rfl .nil)
  have hpad : Blank ['\uFEFF', '#', '"', '\r', ','] := .char rfl hcomment
  have htext : ['"', '"'] ++ (['\uFEFF', '#', '"', '\r', ',']
      ++ "type Query{a(n:Int=1):Int}# open".toList)
      = "\"\"\uFEFF#\"\r,type Query{a(n:Int=1):Int}# open".toList := by
    decide +kernel
  obtain ⟨f, hf⟩ := Except.exists_ok hread
  obtain ⟨f', hf', hsame, houtcome⟩ := build_padded hf rfl hat hpad
  rw [htext] at hf'
  simp only [htext] at houtcome
  exact ⟨f, f', hf, hf', hsame, houtcome .standard [] []⟩

end Graph

end SchemaGraph
