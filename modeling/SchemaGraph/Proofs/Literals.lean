import Mathlib.Tactic.IntervalCases
import SchemaGraph.Proofs.Advancing
import SchemaGraph.Proofs.Relexing

/-!
# What a string literal says

The body of a string is a row of units: characters that stand for themselves, and
escapes. `UnitText` tells a unit by its text and the character that it stands for,
`BodyText` a whole body by its units. Neither reads anything, and neither shares a
table with a reader: the escapes are listed, and a hexadecimal digit is a place in
the row of all digits.

A string is found where a body and a quote come next, and only there. That it does not
matter where the first escape stands is because the scan of plain characters and the
scan of escapes find the same: what the first has behind it when it hands over is a run
of plain characters, which the second would have taken as it is.
-/

namespace SchemaGraph.Sdl

open Text

/-- The escapes that are one character long, with what they stand for. -/
def shortEscapes : List (Char × Char) :=
  [('"', '"'), ('\\', '\\'), ('/', '/'), ('b', Char.ofNat 8), ('f', Char.ofNat 12),
    ('n', Char.ofNat 10), ('r', Char.ofNat 13), ('t', Char.ofNat 9)]

/-- Whether a character is the hexadecimal digit for a number, in either case. -/
def IsHexDigit (n : Nat) (c : Char) : Prop :=
  "0123456789abcdef".toList[n]? = some c ∨ "0123456789ABCDEF".toList[n]? = some c

/-- What writes a single character between the quotes of a string. -/
inductive UnitText : List Char → Char → Prop
  | plain {c} (quote : c ≠ '"') (slash : c ≠ '\\') (feed : c ≠ '\n') (ret : c ≠ '\r') :
      UnitText [c] c
  | short {e c} (escape : (e, c) ∈ shortEscapes) : UnitText ['\\', e] c
  | codePoint {a b c d e i j k l} (first : IsHexDigit i a) (second : IsHexDigit j b)
      (third : IsHexDigit k c) (fourth : IsHexDigit l d)
      (number : e.toNat = ((i * 16 + j) * 16 + k) * 16 + l) :
      UnitText ['\\', 'u', a, b, c, d] e

/-- What stands between the quotes of a string, and the value that it has. -/
def BodyText (text value : List Char) : Prop :=
  ∃ units, units.flatten = text ∧ List.Forall₂ UnitText units value

theorem escaped?_eq_some_iff {e c : Char} : escaped? e = some c ↔ (e, c) ∈ shortEscapes := by
  constructor
  · intro h
    rw [escaped?.eq_def] at h
    split at h <;> cases h <;> decide
  · intro h
    simp only [shortEscapes, List.mem_cons, Prod.mk.injEq, List.not_mem_nil, or_false] at h
    rcases h with h | h | h | h | h | h | h | h <;> obtain ⟨rfl, rfl⟩ := h <;> rfl

theorem IsHexDigit.lt {n : Nat} {c : Char} (h : IsHexDigit n c) : n < 16 := by
  rcases h with h | h <;> exact (List.getElem?_eq_some_iff.1 h).1

theorem char_le_iff {c d : Char} : c ≤ d ↔ c.toNat ≤ d.toNat := Iff.rfl

theorem hexDigit?_eq_some_iff {c : Char} {n : Nat} : hexDigit? c = some n ↔ IsHexDigit n c := by
  constructor
  · intro h
    obtain ⟨k, hk, hn⟩ : ∃ k, c.toNat = k ∧ (48 ≤ k ∧ k ≤ 57 ∧ n = k - 48
        ∨ 97 ≤ k ∧ k ≤ 102 ∧ n = k - 97 + 10 ∨ 65 ≤ k ∧ k ≤ 70 ∧ n = k - 65 + 10) := by
      refine ⟨_, rfl, ?_⟩
      simp only [hexDigit?, char_le_iff] at h
      split at h
      · next hc => cases h; exact .inl ⟨hc.1, hc.2, rfl⟩
      split at h
      · next hc => cases h; exact .inr (.inl ⟨hc.1, hc.2, rfl⟩)
      split at h
      · next hc => cases h; exact .inr (.inr ⟨hc.1, hc.2, rfl⟩)
      · cases h
    obtain rfl : Char.ofNat k = c := by rw [← hk, Char.ofNat_toNat]
    clear h hk
    obtain ⟨hlow, hhigh, rfl⟩ | ⟨hlow, hhigh, rfl⟩ | ⟨hlow, hhigh, rfl⟩ := hn
    · interval_cases k <;> exact .inl rfl
    · interval_cases k <;> exact .inl rfl
    · interval_cases k <;> exact .inr rfl
  · intro h
    have hn := h.lt
    rcases h with h | h <;> interval_cases n <;> cases h <;> rfl

theorem hexNumber?_eq_some_iff {a b c d : Char} {n : Nat} : hexNumber? a b c d = some n ↔
    ∃ i j k l, IsHexDigit i a ∧ IsHexDigit j b ∧ IsHexDigit k c ∧ IsHexDigit l d
      ∧ n = ((i * 16 + j) * 16 + k) * 16 + l := by
  simp only [← hexDigit?_eq_some_iff]
  rw [hexNumber?]
  constructor
  · intro h
    split at h
    · next i j k l hi hj hk hl =>
        cases h
        exact ⟨i, j, k, l, hi, hj, hk, hl, rfl⟩
    · cases h
  · rintro ⟨i, j, k, l, hi, hj, hk, hl, rfl⟩
    simp only [hi, hj, hk, hl]

theorem hexNumber?_lt {a b c d : Char} {n : Nat} (h : hexNumber? a b c d = some n) :
    n < 0x10000 := by
  obtain ⟨i, j, k, l, hi, hj, hk, hl, rfl⟩ := hexNumber?_eq_some_iff.1 h
  have := hi.lt
  have := hj.lt
  have := hk.lt
  have := hl.lt
  omega

/-- Below the surrogates and above them, every number of four digits is a character. -/
theorem ofCodePoint?_eq_some_iff {n : Nat} (h : n < 0x10000) {e : Char} :
    ofCodePoint? n = some e ↔ e.toNat = n := by
  constructor
  · intro he
    rw [ofCodePoint?] at he
    split at he
    · cases he
    · next hn =>
        cases he
        simp only [isHighSurrogate, isLowSurrogate, Bool.or_eq_true, Bool.and_eq_true,
          decide_eq_true_eq] at hn
        rw [Char.ofNat, dif_pos (by simp only [Nat.isValidChar]; omega)]
        rfl
  · rintro rfl
    have hvalid := e.valid
    have hn : ¬ (isHighSurrogate e.toNat || isLowSurrogate e.toNat) = true := by
      simp only [isHighSurrogate, isLowSurrogate, Bool.or_eq_true, Bool.and_eq_true,
        decide_eq_true_eq]
      have : e.toNat < 0xd800 ∨ 0xdfff < e.toNat ∧ e.toNat < 0x110000 := hvalid
      omega
    rw [ofCodePoint?, if_neg hn, Char.ofNat_toNat]

theorem isPlain_iff {c : Char} :
    StringLiteral.isPlain c = true ↔ c ≠ '"' ∧ c ≠ '\\' ∧ c ≠ '\n' ∧ c ≠ '\r' := by
  simp [StringLiteral.isPlain, and_assoc]

theorem codePoint?_eq_some_iff {a b c d e : Char} : StringLiteral.codePoint? a b c d = some e ↔
    ∃ i j k l, IsHexDigit i a ∧ IsHexDigit j b ∧ IsHexDigit k c ∧ IsHexDigit l d
      ∧ e.toNat = ((i * 16 + j) * 16 + k) * 16 + l := by
  have hpoint : ∀ n, hexNumber? a b c d = some n ∧ ofCodePoint? n = some e
      ↔ hexNumber? a b c d = some n ∧ e.toNat = n :=
    fun n => and_congr_right fun hn => ofCodePoint?_eq_some_iff (hexNumber?_lt hn)
  simp only [StringLiteral.codePoint?, Option.bind_eq_some_iff, hpoint, exists_eq_right']
  exact hexNumber?_eq_some_iff

theorem BodyText.cons {unit text value : List Char} {c : Char} (hunit : UnitText unit c)
    (h : BodyText text value) : BodyText (unit ++ text) (c :: value) := by
  obtain ⟨units, rfl, hunits⟩ := h
  exact ⟨unit :: units, rfl, .cons hunit hunits⟩

theorem StringContent.cons {unit text value : List Char} {c : Char} (hunit : UnitText unit c)
    (h : StringContent value text) : StringContent (c :: value) (unit ++ text) := by
  cases hunit with
  | plain quote slash feed ret => exact .plain (isPlain_iff.2 ⟨quote, slash, feed, ret⟩) h
  | short escape => exact .escape (escaped?_eq_some_iff.2 escape) h
  | codePoint first second third fourth number =>
      exact .codePoint
        (codePoint?_eq_some_iff.2 ⟨_, _, _, _, first, second, third, fourth, number⟩) h

/-- The body of a string is one that the readers take, with the same value. -/
theorem bodyText_iff {text value : List Char} : BodyText text value ↔ StringContent value text := by
  constructor
  · rintro ⟨units, rfl, hunits⟩
    induction hunits with
    | nil => exact .nil
    | cons hunit _ ih => exact .cons hunit ih
  · intro h
    induction h with
    | nil => exact ⟨[], rfl, .nil⟩
    | plain char _ ih =>
        obtain ⟨quote, slash, feed, ret⟩ := isPlain_iff.1 char
        exact .cons (.plain quote slash feed ret) ih
    | escape escape _ ih => exact .cons (.short (escaped?_eq_some_iff.1 escape)) ih
    | codePoint escape _ ih =>
        obtain ⟨_, _, _, _, hi, hj, hk, hl, hnumber⟩ := codePoint?_eq_some_iff.1 escape
        exact .cons (.codePoint hi hj hk hl hnumber) ih

/-- The string behind an opening quote: its body, what the body says, what follows its end. -/
structure Closes (cs text value rest : List Char) : Prop where
  cut : cs = text ++ '"' :: rest
  body : BodyText text value

theorem literal_eq_some_iff {cs : List Char} {s : Scanned} : StringLiteral.literal cs = some s ↔
    ∃ text, Closes cs text s.value s.rest ∧ s.text = text ++ ['"'] := by
  rw [StringLiteral.literal_eq_body]
  constructor
  · intro h
    obtain ⟨text, htext, hcontent⟩ := stringContent_of_body h
    have hcut := StringLiteral.body_append h
    rw [htext, List.append_assoc] at hcut
    exact ⟨text, ⟨hcut.symm, bodyText_iff.2 hcontent⟩, htext⟩
  · rintro ⟨text, ⟨hcut, hbody⟩, htext⟩
    rw [hcut, (bodyText_iff.1 hbody).body, ← htext]

theorem Closes.literal {cs text value rest : List Char} (h : Closes cs text value rest) :
    StringLiteral.literal cs = some ⟨value, text ++ ['"'], rest⟩ :=
  literal_eq_some_iff.2 ⟨text, h, rfl⟩

/-- Whatever the text, there is one quote at most that can close the string. -/
theorem Closes.unique {cs text value rest text' value' rest' : List Char}
    (h : Closes cs text value rest) (h' : Closes cs text' value' rest') :
    text = text' ∧ value = value' ∧ rest = rest' := by
  have heq := Option.some.inj (h.literal.symm.trans h'.literal)
  simp only [Scanned.mk.injEq] at heq
  exact ⟨List.append_cancel_right heq.2.1, heq.1, heq.2.2⟩

/-- Where a string ends and what it says, if it can be read. -/
def Attempt.found? (attempt : Attempt) : Option (Nat × List Char) :=
  attempt.2.map (attempt.1.span.stop, ·)

section

variable (before cs : List Char)

/-- Where the literal that follows `before` and a quote ends, and what it says. -/
def literalFound? : Option (Nat × List Char) :=
  (StringLiteral.literal cs).map fun s => (byteLength (before ++ '"' :: s.text), s.value)

theorem string?_found :
    (string? (.between before ['"'] cs)).map Attempt.found? = some (literalFound? before cs) := by
  have hplain := plain?_eq before cs
  simp only [string?, Cursor.between_slice?, Cursor.between_remainder?, Option.bind_eq_bind,
    Option.bind_some, hplain, literalFound?]
  cases StringLiteral.literal cs <;> simp [Attempt.found?, Cursor.between_stop]

theorem escapedString?_found :
    (escapedString? (.between before ['"'] cs) []).map Attempt.found?
      = some (literalFound? before cs) := by
  have hescaped := escapedFrom?_eq before ['"'] [] [] cs []
  simp only [escapedString?, Cursor.between_remainder?, Option.bind_eq_bind, Option.bind_some]
  rw [literalFound?, StringLiteral.literal_eq_body]
  refine (congrArg (Option.map Attempt.found?) hescaped).trans ?_
  cases StringLiteral.body cs <;> simp [Attempt.found?, Cursor.between_stop]

theorem literalFound?_eq_some_iff {stop : Nat} {value : List Char} :
    literalFound? before cs = some (stop, value) ↔ ∃ text rest, Closes cs text value rest
      ∧ stop = byteLength (before ++ '"' :: (text ++ ['"'])) := by
  constructor
  · intro h
    obtain ⟨s, hs, heq⟩ := Option.map_eq_some_iff.1 h
    cases heq
    obtain ⟨text, hcloses, htext⟩ := literal_eq_some_iff.1 hs
    exact ⟨text, s.rest, hcloses, by rw [htext]⟩
  · rintro ⟨text, rest, hcloses, rfl⟩
    rw [literalFound?, hcloses.literal]
    rfl

end

theorem lexemesAt_quote (offset : Nat) (cs : List Char) {token : Token} {tail rest : List Char}
    (h : Piece.string cs = ⟨some token, tail, rest⟩) : lexemesAt offset ('"' :: cs)
      = ⟨token, ⟨offset, offset + byteLength ('"' :: tail)⟩⟩
        :: lexemesAt (offset + byteLength ('"' :: tail)) rest := by
  have hstep : Piece.step '"' cs = ⟨some token, tail, rest⟩ := h
  rw [lexemesAt, pieces]
  simp only [hstep, lexemesFrom]
  rfl

/--
Behind an opening quote, unless the string is empty or a block, the lexer finds a string
where a body comes next and then a quote, and a token that is not valid elsewhere. The
string says what the body says and ends right behind that quote, the only one that can
close it. The scan that starts with plain characters fails on no text, and finds the same
as the scan of escapes would that starts at the opening quote.
-/
theorem plainString_decodes (before cs : List Char) (h : cs.head? ≠ some '"') :
    (∀ s m ts, lexemesAt (byteLength before) ('"' :: cs) = ⟨.string s, m⟩ :: ts ↔
      ∃ text rest, Closes cs text s.toList rest
        ∧ m = ⟨byteLength before, byteLength (before ++ '"' :: (text ++ ['"']))⟩
        ∧ ts = lexemesAt m.stop rest)
    ∧ ((¬ ∃ text value rest, Closes cs text value rest) →
      ∃ fault m ts, lexemesAt (byteLength before) ('"' :: cs) = ⟨.invalid fault, m⟩ :: ts)
    ∧ (∀ text value rest text' value' rest', Closes cs text value rest →
      Closes cs text' value' rest' → text = text' ∧ value = value' ∧ rest = rest')
    ∧ ∃ found?, (string? (.between before ['"'] cs)).map Attempt.found? = some found?
      ∧ (escapedString? (.between before ['"'] cs) []).map Attempt.found? = some found?
      ∧ ∀ stop value, found? = some (stop, value) ↔ ∃ text rest, Closes cs text value rest
        ∧ stop = byteLength (before ++ '"' :: (text ++ ['"'])) := by
  have hfound : ∀ {text value rest}, Closes cs text value rest →
      lexemesAt (byteLength before) ('"' :: cs) = ⟨.string (String.ofList value),
        ⟨byteLength before, byteLength (before ++ '"' :: (text ++ ['"']))⟩⟩
          :: lexemesAt (byteLength (before ++ '"' :: (text ++ ['"']))) rest := by
    intro text value rest hcloses
    rw [byteLength_append]
    exact lexemesAt_quote _ cs (Piece.string_of_literal h hcloses.literal)
  have hbroken : (¬ ∃ text value rest, Closes cs text value rest) →
      ∃ fault m ts, lexemesAt (byteLength before) ('"' :: cs) = ⟨.invalid fault, m⟩ :: ts := by
    intro hnone
    have hliteral : StringLiteral.literal cs = none := by
      rw [Option.eq_none_iff_forall_ne_some]
      intro s hs
      obtain ⟨text, hcloses, -⟩ := literal_eq_some_iff.1 hs
      exact hnone ⟨text, s.value, s.rest, hcloses⟩
    exact ⟨_, _, _, lexemesAt_quote _ cs (Piece.string_of_broken h hliteral)⟩
  refine ⟨fun s m ts => ⟨fun hlexemes => ?_, ?_⟩, hbroken, fun _ _ _ _ _ _ => Closes.unique,
    literalFound? before cs, string?_found before cs, escapedString?_found before cs,
    fun _ _ => literalFound?_eq_some_iff before cs⟩
  · by_cases hcloses : ∃ text value rest, Closes cs text value rest
    · obtain ⟨text, value, rest, hcloses⟩ := hcloses
      cases (hfound hcloses).symm.trans hlexemes
      rw [String.toList_ofList]
      exact ⟨text, rest, hcloses, rfl, rfl⟩
    · obtain ⟨fault, m', ts', hinvalid⟩ := hbroken hcloses
      cases hinvalid.symm.trans hlexemes
  · rintro ⟨text, rest, hcloses, rfl, rfl⟩
    have hlexemes := hfound hcloses
    rwa [String.ofList_toList] at hlexemes

/-- An escape of either kind between characters of two bytes, with a name behind the string. -/
theorem plainString_decodes_accented :
    "è\\\"\\u00E9ü\" x".toList.head? ≠ some '"'
      ∧ lexemesAt 3 ('"' :: "è\\\"\\u00E9ü\" x".toList)
        = ⟨.string "è\"éü", ⟨3, 17⟩⟩ :: lexemesAt 17 " x".toList := by
  have hquote : UnitText ['\\', '"'] '"' := .short (by decide)
  have hcode : UnitText ['\\', 'u', '0', '0', 'E', '9'] 'é' :=
    .codePoint (.inl rfl : IsHexDigit 0 '0') (.inl rfl : IsHexDigit 0 '0')
      (.inr rfl : IsHexDigit 14 'E') (.inl rfl : IsHexDigit 9 '9') rfl
  have hplain : ∀ c ∈ ['è', 'ü'], UnitText [c] c := by
    intro c hc
    obtain ⟨quote, slash, feed, ret⟩ := isPlain_iff.1 (List.all_eq_true.1
      (show ['è', 'ü'].all StringLiteral.isPlain = true from rfl) c hc)
    exact .plain quote slash feed ret
  have hbody : BodyText "è\\\"\\u00E9ü".toList "è\"éü".toList :=
    ⟨[['è'], ['\\', '"'], ['\\', 'u', '0', '0', 'E', '9'], ['ü']], rfl,
      .cons (hplain _ (by decide)) (.cons hquote (.cons hcode (.cons (hplain _ (by decide)) .nil)))⟩
  exact ⟨by decide, ((plainString_decodes "é ".toList _ (by decide)).1 _ _ _).2
    ⟨_, " x".toList, ⟨rfl, hbody⟩, rfl, rfl⟩⟩

end SchemaGraph.Sdl
