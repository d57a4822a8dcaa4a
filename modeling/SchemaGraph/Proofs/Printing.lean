import SchemaGraph.Proofs.ReaderComplete
import SchemaGraph.Proofs.Relexing

/-!
# What is printed reads back

A printed value is made of the texts of its tokens, set apart by commas, spaces
and brackets. `Writes` says of a text that its lexemes derive a value, wherever
it stands and whatever comes after it that is delimited; this is what the
induction on the value carries, since the items of a list stand one behind the
other and each is what comes after the one before.

Not every tree is a value that could be read: a number might hold any text, and
an enum value any name. `Written` says what tokens a value must be made of, and
every value that is read is made of such, because they are tokens of a text.
-/

namespace SchemaGraph.Sdl

open Reader

variable {μ α : Type}

/-- The text in a token that is written as just that text. -/
def Token.ownText? : Token → Option String
  | .name text | .integer text | .float text => some text
  | _ => none

/-- Whether all such tokens are what the lexer finds of their texts. -/
def TextsHold (ts : List (Lexeme μ)) : Prop :=
  ∀ l ∈ ts, ∀ text, l.token.ownText? = some text → TokenText l.token text.toList

theorem TextsHold.suffix {ts us : List (Lexeme μ)} (h : TextsHold ts) (hus : us <:+ ts) :
    TextsHold us := fun l hl => h l (hus.subset hl)

/-- The numbers among the pieces of a text are numbers. -/
theorem Piece.step_numberToken {c : Char} {cs : List Char} {token : Token} {text : String}
    (h : (Piece.step c cs).token = some token) (htext : token.ownText? = some text)
    (hname : token ≠ .name text) :
    ∃ n rest, Text.Number.read? (c :: cs) = some (n, rest) ∧ token = numberToken n := by
  unfold Piece.step at h
  split at h
  · cases h
  split at h
  · cases h
  split at h
  · cases h
    cases htext
    exact absurd rfl hname
  split at h
  · unfold string at h
    split at h
    · split at h <;> cases h <;> cases htext
    · cases h
      cases htext
    · split at h <;> cases h <;> cases htext
  split at h
  · unfold directive at h
    split at h
    · split at h <;> cases h <;> cases htext
    · cases h
      cases htext
  split at h
  · cases h
    cases htext
  · unfold number at h
    split at h
    · next n rest hread =>
        cases h
        exact ⟨n, rest, hread, rfl⟩
    · cases h
      cases htext

theorem numberToken_ownText? (n : Text.Number) :
    (numberToken n).ownText? = some (String.ofList n.text) := by
  unfold numberToken
  split <;> rfl

theorem Piece.step_tokenText {c : Char} {cs : List Char} {token : Token} {text : String}
    (h : (Piece.step c cs).token = some token) (htext : token.ownText? = some text) :
    TokenText token text.toList := by
  by_cases hname : token = .name text
  · subst hname
    exact tokenText_name (Piece.step_isName h)
  · obtain ⟨n, rest, hread, rfl⟩ := Piece.step_numberToken h htext hname
    rw [numberToken_ownText?, Option.some.injEq] at htext
    rw [← htext, String.toList_ofList]
    exact tokenText_number hread

theorem pieces_tokenText {cs : List Char} {p : Piece} {token : Token} {text : String}
    (hp : p ∈ pieces cs) (h : p.token = some token) (htext : token.ownText? = some text) :
    TokenText token text.toList := by
  obtain ⟨c, cs, rfl⟩ := exists_step_of_mem_pieces hp
  exact Piece.step_tokenText h htext

theorem lexemes_textsHold (text : List Char) : TextsHold (lexemes text) := by
  intro l hl own hown
  obtain ⟨before, found, after, hcuts⟩ := exists_cut hl
  exact pieces_tokenText hcuts.piece rfl hown

/-- Whether a value is made of tokens that are found again where it is written. -/
inductive Value.Written : Value → Prop
  | int {text} (token : TokenText (.integer text) text.toList) : Written (.int text)
  | float {text} (token : TokenText (.float text) text.toList) : Written (.float text)
  | string {text} : Written (.string text)
  | boolean {b} : Written (.boolean b)
  | null : Written .null
  | enum {name} (token : TokenText (.name name) name.toList)
      (unreserved : name ∉ ["true", "false", "null"]) : Written (.enum name)
  | list {vs} (items : ∀ v ∈ vs, Written v) : Written (.list vs)
  | object {fs : List (String × Value)} (names : ∀ f ∈ fs, TokenText (.name f.1) f.1.toList)
      (values : ∀ f ∈ fs, Written f.2) : Written (.object fs)

/-- Each item of a repetition is derived from a suffix of what the repetition is derived from. -/
theorem Star.exists_of_mem {R : Form μ α} {ts rest : List (Lexeme μ)} {as : List α}
    (h : Star R ts as rest) (hR : ∀ {us a mid}, R us a mid → After mid us) {a : α} (ha : a ∈ as) :
    ∃ us mid, us <:+ ts ∧ R us a mid := by
  induction h with
  | nil => cases ha
  | cons head _ ih =>
      rcases List.mem_cons.1 ha with rfl | ha
      · exact ⟨_, _, List.suffix_refl _, head⟩
      · obtain ⟨us, mid, hus, hitem⟩ := ih ha
        exact ⟨us, mid, hus.trans (hR head).suffix, hitem⟩

/-- Every value that is derived from the tokens of a text is made of them. -/
theorem ValueForm.written {v : Value} {ts rest : List (Lexeme μ)} (h : ValueForm ts v rest)
    (hts : TextsHold ts) : v.Written := by
  match v, h with
  | _, .int => exact .int (hts _ List.mem_cons_self _ rfl)
  | _, .float => exact .float (hts _ List.mem_cons_self _ rfl)
  | _, .string => exact .string
  | _, .true | _, .false => exact .boolean
  | _, .null => exact .null
  | _, .enum hname => exact .enum (hts _ List.mem_cons_self _ rfl) hname
  | .list vs, .list items =>
      refine .list fun v hv => ?_
      obtain ⟨us, mid, hus, hv'⟩ := items.exists_of_mem (fun h => h.shorter.1) hv
      exact hv'.written (hts.suffix (hus.trans (List.suffix_cons _ _)))
  | .object fs, .object fields =>
      have hfields : ∀ f ∈ fs, TokenText (.name f.1) f.1.toList ∧ f.2.Written := by
        intro f hf
        obtain ⟨us, mid, hus, hf'⟩ :=
          fields.exists_of_mem (fun h => (h.shorter fun h => h.shorter.1).1) hf
        have hts' := hts.suffix (hus.trans (List.suffix_cons _ _))
        obtain ⟨item⟩ := hf'
        refine ⟨hts' _ List.mem_cons_self _ rfl, item.written (hts'.suffix ?_)⟩
        exact (List.suffix_cons _ _).trans (List.suffix_cons _ _)
      exact .object (fun f hf => (hfields f hf).1) fun f hf => (hfields f hf).2
termination_by v
decreasing_by
  · have := List.sizeOf_lt_of_mem hv
    simp_wf
    omega
  · have := List.sizeOf_lt_of_mem hf
    simp_wf
    simp at this
    omega

/-- Whether a text, wherever it stands and is delimited, derives `a` and no more than that. -/
def Writes (R : Form Span α) (a : α) (text : List Char) : Prop :=
  ∀ offset rest, Delimited rest →
    ∃ offset', R (lexemesAt offset (text ++ rest)) a (lexemesAt offset' rest)

theorem TokenText.writes {R : Form Span α} {a : α} {token : Token} {text : List Char}
    (h : TokenText token text) (hR : ∀ {m ts}, R (⟨token, m⟩ :: ts) a ts) : Writes R a text := by
  intro offset rest hrest
  obtain ⟨m, offset', hleads⟩ := h.leads hrest offset
  rw [hleads]
  exact ⟨offset', hR⟩

theorem lexemesAt_comma (offset : Nat) (rest : List Char) :
    ∃ offset', lexemesAt offset (", ".toList ++ rest) = lexemesAt offset' rest :=
  ⟨_, (lexemesAt_ignored (c := ',') (by decide) _ _).trans
    (lexemesAt_ignored (c := ' ') (by decide) _ _)⟩

theorem writes_intercalate {R : Form Span α} {as : List α} (text : α → String)
    (h : ∀ a ∈ as, Writes R a (text a).toList) :
    Writes (Star R) as (", ".intercalate (as.map text)).toList := by
  rw [String.toList_intercalate]
  induction as with
  | nil => exact fun offset rest _ => ⟨offset, .nil⟩
  | cons a as ih =>
      have ha := h a List.mem_cons_self
      have has := ih fun b hb => h b (List.mem_cons_of_mem _ hb)
      intro offset rest hrest
      cases as with
      | nil =>
          obtain ⟨offset', hitem⟩ := ha offset rest hrest
          exact ⟨offset', .cons (by simpa using hitem) .nil⟩
      | cons b bs =>
          -- After the first item comes a comma, and neither it nor the space matters.
          obtain ⟨offset₁, hitem⟩ := ha offset
            (", ".toList ++ (", ".toList.intercalate (((b :: bs).map text).map String.toList)
              ++ rest)) (.cons (by decide) _)
          obtain ⟨offset₂, hcomma⟩ := lexemesAt_comma offset₁
            (", ".toList.intercalate (((b :: bs).map text).map String.toList) ++ rest)
          obtain ⟨offset₃, hitems⟩ := has offset₂ rest hrest
          rw [hcomma] at hitem
          refine ⟨offset₃, .cons ?_ hitems⟩
          simpa [List.intercalate_cons_cons, List.append_assoc] using hitem

theorem Writes.labelled {R : Form Span α} {a : α} {name : String} {text : List Char}
    (hname : TokenText (.name name) name.toList) (h : Writes R a text) :
    Writes (LabelledForm R) (name, a) (name.toList ++ (": ".toList ++ text)) := by
  intro offset rest hrest
  rw [List.append_assoc, List.append_assoc]
  have hafter : Delimited (": ".toList ++ (text ++ rest)) := .cons (by decide) _
  obtain ⟨m, offset₁, hlabel⟩ := hname.leads hafter offset
  obtain ⟨m', offset₂, hcolon⟩ := leads_punct .colon (' ' :: (text ++ rest)) offset₁
  obtain ⟨offset₃, hitem⟩ := h (offset₂ + ' '.utf8Size) rest hrest
  refine ⟨offset₃, ?_⟩
  rw [hlabel]
  have hrest' : lexemesAt offset₁ (": ".toList ++ (text ++ rest))
      = ⟨.punct .colon, m'⟩ :: lexemesAt (offset₂ + ' '.utf8Size) (text ++ rest) :=
    hcolon.trans (congrArg _ (lexemesAt_ignored (by decide) _ _))
  rw [hrest']
  exact .intro hitem

/-- Items between brackets, with or without a space at either end. -/
theorem Writes.bracketed {R : Form Span α} {a : α} {text : List Char} (h : Writes R a text)
    {space : List Char} (hspace : space = [] ∨ space = [' ']) (opening close : Punctuator)
    (offset : Nat) (rest : List Char) :
    ∃ m ts m' offset',
      lexemesAt offset (opening.char :: (space ++ (text ++ (space ++ close.char :: rest))))
          = ⟨.punct opening, m⟩ :: ts
        ∧ R ts a (⟨.punct close, m'⟩ :: lexemesAt offset' rest) := by
  have hskip : ∀ offset rest, ∃ offset',
      lexemesAt offset (space ++ rest) = lexemesAt offset' rest := by
    intro offset rest
    rcases hspace with rfl | rfl
    · exact ⟨offset, rfl⟩
    · exact ⟨_, lexemesAt_ignored (by decide) _ _⟩
  have hdelimited : Delimited (space ++ close.char :: rest) := by
    rcases hspace with rfl | rfl
    · exact .cons (by cases close <;> decide) _
    · exact .cons (by decide) _
  obtain ⟨m, offset₁, hopening⟩ := leads_punct opening
    (space ++ (text ++ (space ++ close.char :: rest))) offset
  obtain ⟨offset₂, hfront⟩ := hskip offset₁ (text ++ (space ++ close.char :: rest))
  obtain ⟨offset₃, hitem⟩ := h offset₂ (space ++ close.char :: rest) hdelimited
  obtain ⟨offset₄, hback⟩ := hskip offset₃ (close.char :: rest)
  obtain ⟨m', offset', hclose⟩ := leads_punct close rest offset₄
  refine ⟨m, _, m', offset', hopening, ?_⟩
  rw [hfront, ← hclose, ← hback]
  exact hitem

theorem Value.printItems_eq (vs : List Value) : printItems vs = vs.map print := by
  induction vs with
  | nil => rfl
  | cons v vs ih => rw [printItems, ih, List.map_cons]

theorem Value.printFields_eq (fs : List (String × Value)) :
    printFields fs = fs.map fun f => f.1 ++ ": " ++ f.2.print := by
  induction fs with
  | nil => rfl
  | cons f fs ih => rw [printFields, ih, List.map_cons]

/-- What is printed of a value derives the value. -/
theorem Value.Written.writes {v : Value} (h : v.Written) :
    Writes ValueForm v v.print.toList := by
  induction h with
  | int token => exact token.writes .int
  | float token => exact token.writes .float
  | string => exact (tokenText_string _).writes .string
  | @boolean b =>
      cases b with
      | true => exact (tokenText_name (by decide)).writes .true
      | false => exact (tokenText_name (by decide)).writes .false
  | null => exact (tokenText_name (by decide)).writes .null
  | enum token unreserved => exact token.writes (.enum unreserved)
  | @list vs _ ih =>
      intro offset rest _
      obtain ⟨m, ts, m', offset', hts, hitems⟩ := (writes_intercalate _ ih).bracketed (.inl rfl)
        .bracketOpen .bracketClose offset rest
      refine ⟨offset', ?_⟩
      have htext : (Value.list vs).print.toList ++ rest
          = '[' :: ((", ".intercalate (vs.map print)).toList ++ ']' :: rest) := by
        simp [print, printItems_eq]
      rw [htext]
      exact hts ▸ .list hitems
  | @object fs names _ ih =>
      intro offset rest _
      have hfields : Writes (Star (LabelledForm ValueForm)) fs _ :=
        writes_intercalate (fun f => f.1 ++ ": " ++ f.2.print) fun f hf => by
          rw [String.toList_append, String.toList_append, List.append_assoc]
          exact (ih f hf).labelled (names f hf)
      -- Only an object that has fields is printed with spaces inside.
      cases fs with
      | nil =>
          obtain ⟨m, ts, m', offset', hts, hnone⟩ := hfields.bracketed (.inl rfl)
            .braceOpen .braceClose offset rest
          exact ⟨offset', hts ▸ .object hnone⟩
      | cons f fs =>
          obtain ⟨m, ts, m', offset', hts, hsome⟩ := hfields.bracketed (.inr rfl)
            .braceOpen .braceClose offset rest
          refine ⟨offset', ?_⟩
          have htext : (Value.object (f :: fs)).print.toList ++ rest
              = '\x7b' :: ([' '] ++ ((", ".intercalate ((f :: fs).map fun f =>
                f.1 ++ ": " ++ f.2.print)).toList ++ ([' '] ++ '\x7d' :: rest))) := by
            simp [print, printFields_eq]
          rw [htext]
          exact hts ▸ .object hsome

/-- What is printed of a value made of tokens reads as that value, to the end. -/
theorem Value.Written.value_print {v : Value} (h : v.Written) :
    value (lexemes v.print.toList) = .ok (v, []) := by
  obtain ⟨offset, hform⟩ := h.writes 0 [] (stops_nil _)
  rw [List.append_nil, lexemesAt_nil] at hform
  exact value_complete hform

end SchemaGraph.Sdl
