import Mathlib.Tactic.Set
import SchemaGraph.Sdl.StringLiteral
import SchemaGraph.Sdl.Value
import SchemaGraph.Text.Number

/-!
# The texts of literals

What is read of a number or a string in one text is read of it in any other text
that it is written into, provided that what comes after does not go on with it.
A number is a few runs of digits with marks in front, and the point and the
exponent mark end a run but not the number; so it has to be seen that what comes
after each part is the next part, or what comes after the number if there is none.

A string ends where it says it does. Of the two scans that read it the short one
is the long one with the first run of plain characters taken at once, and the
long one undoes every escape by itself.
-/

namespace SchemaGraph

/-- Whether a run of characters that satisfy `p` ends before `rest`. -/
def Stops (p : Char → Bool) (rest : List Char) : Prop := ∀ c, rest.head? = some c → p c = false

theorem Stops.cons {p : Char → Bool} {c : Char} (h : p c = false) (cs : List Char) :
    Stops p (c :: cs) := by
  intro d hd
  rw [List.head?_cons, Option.some.injEq] at hd
  exact hd ▸ h

theorem stops_nil (p : Char → Bool) : Stops p [] := fun _ h => by cases h

theorem Stops.mono {p q : Char → Bool} {rest : List Char} (h : Stops q rest)
    (hpq : ∀ c, p c = true → q c = true) : Stops p rest := by
  intro c hc
  cases hp : p c with
  | false => rfl
  | true => exact (hpq c hp).symm.trans (h c hc)

section

variable {p : Char → Bool} {cs rest : List Char}

theorem takeWhile_append_stops (hcs : ∀ c ∈ cs, p c = true) (hrest : Stops p rest) :
    (cs ++ rest).takeWhile p = cs := by
  rw [List.takeWhile_append_of_pos hcs]
  cases rest with
  | nil => rw [List.takeWhile_nil, List.append_nil]
  | cons c rest => rw [List.takeWhile_cons_of_neg (by simp [hrest c rfl]), List.append_nil]

theorem dropWhile_append_stops (hcs : ∀ c ∈ cs, p c = true) (hrest : Stops p rest) :
    (cs ++ rest).dropWhile p = rest := by
  rw [List.dropWhile_append_of_pos hcs]
  cases rest with
  | nil => rfl
  | cons c rest => exact List.dropWhile_cons_of_neg (by simp [hrest c rfl])

end

namespace Text.Number

/-- Whether what a reader of a part found is found again wherever `p` stops after it. -/
def Rereads (p : Char → Bool) (read? : List Char → Option (List Char × List Char)) : Prop :=
  ∀ ⦃cs ds after⦄, read? cs = some (ds, after) → ∀ ⦃rest⦄, Stops p rest →
    read? (ds ++ rest) = some (ds, rest)

theorem readDigits?_eq {cs ds after : List Char} (h : readDigits? cs = some (ds, after)) :
    ds = cs.takeWhile Char.isDigit ∧ ds ≠ [] := by
  unfold readDigits? at h
  split at h
  · cases h
  · next d more hd =>
      cases h
      exact ⟨hd.symm, List.cons_ne_nil d more⟩

theorem readDigits?_rereads : Rereads Char.isDigit readDigits? := by
  intro cs ds after h rest hrest
  obtain ⟨hds, hne⟩ := readDigits?_eq h
  have hall : ∀ c ∈ ds, c.isDigit = true := by
    rw [hds]
    exact List.all_eq_true.1 List.all_takeWhile
  rw [readDigits?, takeWhile_append_stops hall hrest, dropWhile_append_stops hall hrest]
  split
  · next hnil => exact absurd rfl hne
  · rfl

theorem readUnsigned?_rereads : Rereads Char.isDigit readUnsigned? := by
  intro cs ds after h rest hrest
  unfold readUnsigned? at h
  split at h
  · cases h
    rfl
  · next hzero =>
      have hfound := readDigits?_rereads h hrest
      obtain ⟨hds, hne⟩ := readDigits?_eq h
      -- The digits start like the text they were read from, and not with a zero.
      cases ds with
      | nil => exact absurd rfl hne
      | cons d ds =>
          have hd : d ≠ '0' := by
            rintro rfl
            have happend := readDigits?_append h
            exact hzero _ happend.symm
          rw [List.cons_append] at hfound ⊢
          rw [readUnsigned?.eq_def]
          split
          · next heq =>
              cases heq
              exact absurd rfl hd
          · exact hfound

/-- A part with a mark in front is found again if the part is. -/
theorem rereads_marked {p : Char → Bool} {part? : List Char → Option (List Char × List Char)}
    (read? : List Char → Option (List Char × List Char)) (mark : Char)
    (hread : ∀ cs, read? (mark :: cs) = (part? cs).map fun q => (mark :: q.1, q.2))
    (hpart : Rereads p part?) {cs ds after rest : List Char}
    (h : (part? cs).map (fun q => (mark :: q.1, q.2)) = some (ds, after)) (hrest : Stops p rest) :
    read? (ds ++ rest) = some (ds, rest) := by
  obtain ⟨⟨us, r⟩, hus, heq⟩ := Option.map_eq_some_iff.1 h
  cases heq
  rw [List.cons_append, hread, hpart hus hrest]
  rfl

theorem readDigits?_isDigit {cs ds after : List Char} (h : readDigits? cs = some (ds, after)) :
    ∃ d more, ds = d :: more ∧ d.isDigit = true := by
  obtain ⟨hds, hne⟩ := readDigits?_eq h
  cases ds with
  | nil => exact absurd rfl hne
  | cons d more =>
      have hall := List.all_eq_true.1 (List.all_takeWhile (p := Char.isDigit) (l := cs))
      exact ⟨d, more, rfl, hall d (hds ▸ List.mem_cons_self)⟩

theorem readUnsigned?_isDigit {cs ds after : List Char} (h : readUnsigned? cs = some (ds, after)) :
    ∃ d more, ds = d :: more ∧ d.isDigit = true := by
  unfold readUnsigned? at h
  split at h
  · cases h
    exact ⟨'0', [], rfl, rfl⟩
  · exact readDigits?_isDigit h

theorem readWhole?_head {cs ds after : List Char} (h : readWhole? cs = some (ds, after)) :
    ∃ c more, ds = c :: more ∧ (c.isDigit = true ∨ c = '-') := by
  unfold readWhole? at h
  split at h
  · obtain ⟨⟨us, r⟩, -, heq⟩ := Option.map_eq_some_iff.1 h
    cases heq
    exact ⟨'-', us, rfl, .inr rfl⟩
  · obtain ⟨d, more, rfl, hd⟩ := readUnsigned?_isDigit h
    exact ⟨d, more, rfl, .inl hd⟩

theorem read?_head {cs after tail : List Char} {n : Number} {c : Char}
    (h : read? cs = some (n, after)) (htext : n.text = c :: tail) : c.isDigit = true ∨ c = '-' := by
  unfold read? at h
  split at h
  · cases h
  next whole afterWhole hwhole =>
  simp only [Option.some.injEq, Prod.mk.injEq] at h
  obtain ⟨rfl, -⟩ := h
  obtain ⟨d, more, rfl, hd⟩ := readWhole?_head hwhole
  simp only [text, List.cons_append, List.cons.injEq] at htext
  exact htext.1 ▸ hd

theorem readWhole?_rereads : Rereads Char.isDigit readWhole? := by
  intro cs ds after h rest hrest
  cases cs with
  | nil => cases h
  | cons c cs =>
      by_cases hc : c = '-'
      · subst hc
        exact rereads_marked readWhole? '-' (fun _ => rfl) readUnsigned?_rereads h hrest
      · have hplain : readWhole? (c :: cs) = readUnsigned? (c :: cs) := by
          rw [readWhole?.eq_def]
          split
          · next heq =>
              cases heq
              exact absurd rfl hc
          · rfl
        rw [hplain] at h
        have hfound := readUnsigned?_rereads h hrest
        obtain ⟨d, more, rfl, hd⟩ := readUnsigned?_isDigit h
        rw [readWhole?.eq_def]
        split
        · next heq =>
            cases heq
            exact absurd hd (by decide)
        · exact hfound

theorem readFraction?_rereads : Rereads Char.isDigit readFraction? := by
  intro cs ds after h rest hrest
  unfold readFraction? at h
  split at h
  · exact rereads_marked readFraction? '.' (fun _ => rfl) readDigits?_rereads h hrest
  · cases h

theorem readPower?_rereads : Rereads Char.isDigit readPower? := by
  intro cs ds after h rest hrest
  unfold readPower? at h
  split at h
  · exact rereads_marked readPower? '+' (fun _ => rfl) readDigits?_rereads h hrest
  · exact rereads_marked readPower? '-' (fun _ => rfl) readDigits?_rereads h hrest
  · have hfound := readDigits?_rereads h hrest
    obtain ⟨d, more, rfl, hd⟩ := readDigits?_isDigit h
    rw [readPower?.eq_def]
    split
    · next heq =>
        cases heq
        exact absurd hd (by decide)
    · next heq =>
        cases heq
        exact absurd hd (by decide)
    · exact hfound

theorem readExponent?_rereads : Rereads Char.isDigit readExponent? := by
  intro cs ds after h rest hrest
  unfold readExponent? at h
  split at h
  · exact rereads_marked readExponent? 'e' (fun _ => rfl) readPower?_rereads h hrest
  · exact rereads_marked readExponent? 'E' (fun _ => rfl) readPower?_rereads h hrest
  · cases h

theorem readFraction?_head {cs ds after : List Char} (h : readFraction? cs = some (ds, after)) :
    ∃ more, ds = '.' :: more := by
  unfold readFraction? at h
  split at h
  · obtain ⟨⟨us, r⟩, -, heq⟩ := Option.map_eq_some_iff.1 h
    cases heq
    exact ⟨us, rfl⟩
  · cases h

theorem readExponent?_head {cs ds after : List Char} (h : readExponent? cs = some (ds, after)) :
    ∃ mark more, ds = mark :: more ∧ (mark = 'e' ∨ mark = 'E') := by
  unfold readExponent? at h
  split at h
  · obtain ⟨⟨us, r⟩, -, heq⟩ := Option.map_eq_some_iff.1 h
    cases heq
    exact ⟨'e', us, rfl, .inl rfl⟩
  · obtain ⟨⟨us, r⟩, -, heq⟩ := Option.map_eq_some_iff.1 h
    cases heq
    exact ⟨'E', us, rfl, .inr rfl⟩
  · cases h

/-- Whether a number may go on with a character. -/
def isRest (c : Char) : Bool := c.isDigit || c == '.' || c == 'e' || c == 'E'

theorem Stops.digits {rest : List Char} (h : Stops isRest rest) : Stops Char.isDigit rest :=
  h.mono fun c hc => by simp [isRest, hc]

theorem readFraction?_eq_none {rest : List Char} (h : Stops isRest rest) :
    readFraction? rest = none := by
  unfold readFraction?
  split
  · exact absurd (h '.' rfl) (by decide)
  · rfl

theorem readExponent?_eq_none {rest : List Char} (h : Stops isRest rest) :
    readExponent? rest = none := by
  unfold readExponent?
  split
  · exact absurd (h 'e' rfl) (by decide)
  · exact absurd (h 'E' rfl) (by decide)
  · rfl

/-- Whether or not an optional part was found, the same is found again. -/
theorem optionally_rereads {read? : List Char → Option (List Char × List Char)}
    (hread : Rereads Char.isDigit read?) {rest : List Char} (hrest : Stops Char.isDigit rest)
    (hnone : read? rest = none) (cs : List Char) :
    optionally read? ((optionally read? cs).1 ++ rest) = ((optionally read? cs).1, rest) := by
  cases hcs : read? cs with
  | none => simp [optionally, hcs, hnone]
  | some found =>
      obtain ⟨ds, after⟩ := found
      have hagain := hread hcs hrest
      simp only [optionally, hcs, hagain]

theorem optionally_fst (read? : List Char → Option (List Char × List Char)) (cs : List Char) :
    (optionally read? cs).1 = [] ∨
      ∃ ds after, read? cs = some (ds, after) ∧ (optionally read? cs).1 = ds := by
  cases hcs : read? cs with
  | none => exact .inl (by simp [optionally, hcs])
  | some found => exact .inr ⟨found.1, found.2, rfl, by simp [optionally, hcs]⟩

/-- A number that was found is found again where no character comes next that it goes on with. -/
theorem read?_rereads {cs after rest : List Char} {n : Number} (h : read? cs = some (n, after))
    (hrest : Stops isRest rest) : read? (n.text ++ rest) = some (n, rest) := by
  unfold read? at h
  split at h
  · cases h
  next whole afterWhole hwhole =>
  simp only [Option.some.injEq, Prod.mk.injEq] at h
  obtain ⟨rfl, -⟩ := h
  set fraction := optionally readFraction? afterWhole with hfraction
  set exponent := optionally readExponent? fraction.2 with hexponent
  have hfinal : optionally readExponent? (exponent.1 ++ rest) = (exponent.1, rest) :=
    optionally_rereads readExponent?_rereads (Stops.digits hrest) (readExponent?_eq_none hrest) _
  -- What follows the fraction is the exponent or, if there is none, what follows the number.
  have hafter : Stops Char.isDigit (exponent.1 ++ rest)
      ∧ readFraction? (exponent.1 ++ rest) = none := by
    rcases optionally_fst readExponent? fraction.2 with hnil | ⟨ds, r, hds, heq⟩
    · rw [hexponent, hnil]
      exact ⟨Stops.digits hrest, readFraction?_eq_none hrest⟩
    · rw [hexponent, heq]
      obtain ⟨mark, more, rfl, rfl | rfl⟩ := readExponent?_head hds
      · exact ⟨.cons (by decide) _, rfl⟩
      · exact ⟨.cons (by decide) _, rfl⟩
  have hmiddle : optionally readFraction? (fraction.1 ++ (exponent.1 ++ rest))
      = (fraction.1, exponent.1 ++ rest) :=
    optionally_rereads readFraction?_rereads hafter.1 hafter.2 _
  have hfront : Stops Char.isDigit (fraction.1 ++ (exponent.1 ++ rest)) := by
    rcases optionally_fst readFraction? afterWhole with hnil | ⟨ds, r, hds, heq⟩
    · rw [hfraction, hnil]
      exact hafter.1
    · rw [hfraction, heq]
      obtain ⟨more, rfl⟩ := readFraction?_head hds
      exact .cons (by decide) _
  have htext : whole ++ fraction.1 ++ exponent.1 ++ rest
      = whole ++ (fraction.1 ++ (exponent.1 ++ rest)) := by simp
  rw [text, htext, read?, readWhole?_rereads hwhole hfront]
  simp only [hmiddle, hfinal]

end Text.Number

namespace Sdl

namespace StringLiteral

theorem body_plain {c : Char} (h : isPlain c = true) (cs : List Char) :
    body (c :: cs) = (body cs).map (.prepend [c] [c]) := by
  have hc : c ≠ '\\' := by
    rintro rfl
    exact absurd h (by decide)
  rw [body.eq_def]
  split
  · next heq => cases heq
  · next heq =>
      cases heq
      exact absurd rfl hc
  · next heq =>
      cases heq
      exact absurd rfl hc
  · next heq =>
      cases heq
      rw [if_pos h]

/-- A quote, a backslash and a line end are not plain, and there the short scan stops. -/
theorem literal_plain {c : Char} (h : isPlain c = true) (cs : List Char) :
    literal (c :: cs) = (literal cs).map (.prepend [c] [c]) := by
  rw [literal, literal, List.dropWhile_cons_of_pos h, List.takeWhile_cons_of_pos h]
  cases cs.dropWhile isPlain with
  | nil => rfl
  | cons d ds =>
      by_cases hquote : d = '"'
      · subst hquote
        rfl
      · by_cases hslash : d = '\\'
        · subst hslash
          show (body ('\\' :: ds)).map _ = ((body ('\\' :: ds)).map _).map _
          rw [Option.map_map]
          rfl
        · simp [hquote, hslash]

/-- Both scans read the same literals, and read them alike. -/
theorem literal_eq_body (cs : List Char) : literal cs = body cs := by
  induction cs with
  | nil => rfl
  | cons c cs ih =>
      cases hc : isPlain c with
      | true => rw [literal_plain hc, body_plain hc, ih]
      | false =>
          have hstop : ¬ isPlain c = true := by simp [hc]
          rw [literal, List.dropWhile_cons_of_neg hstop, List.takeWhile_cons_of_neg hstop]
          by_cases hquote : c = '"'
          · subst hquote
            simp [body, hc]
          · by_cases hslash : c = '\\'
            · subst hslash
              show (body ('\\' :: cs)).map (.prepend [] []) = body ('\\' :: cs)
              exact congrFun Option.map_id_fun' _
            · rw [body.eq_def]
              simp [hquote, hslash, hc]

theorem codePoint?_control :
    ∀ n < 32, codePoint? '0' '0' (Value.upperHexDigit (n / 16)) (Value.upperHexDigit (n % 16))
      = some (Char.ofNat n) := by decide

theorem isPlain_of_not_escaped {c : Char} (hquote : c ≠ '"') (hslash : c ≠ '\\')
    (hfeed : c ≠ '\n') (hreturn : c ≠ '\r') : isPlain c = true := by
  simp [isPlain, hquote, hslash, hfeed, hreturn]

/-- An escaped character is read as one, in whatever form it is escaped. -/
theorem body_escapeChar (c : Char) (cs : List Char) :
    body (Value.escapeChar c ++ cs) = (body cs).map (.prepend [c] (Value.escapeChar c)) := by
  unfold Value.escapeChar
  split
  · next h => subst h; simp [body, Text.escaped?]
  next hquote =>
  split
  · next h => subst h; simp [body, Text.escaped?]
  next hslash =>
  split
  · next h => subst h; simp [body, Text.escaped?]
  next hfeed =>
  split
  · next h => subst h; simp [body, Text.escaped?]
  next hreturn =>
  split
  · next h => subst h; simp [body, Text.escaped?]
  split
  · next hcontrol =>
      have hcode := codePoint?_control c.toNat hcontrol
      rw [Char.ofNat_toNat] at hcode
      simp only [List.cons_append, List.nil_append, body, hcode]
  · exact body_plain (isPlain_of_not_escaped hquote hslash hfeed hreturn) cs

theorem body_escaped (s rest : List Char) :
    body (s.flatMap Value.escapeChar ++ '"' :: rest)
      = some ⟨s, s.flatMap Value.escapeChar ++ ['"'], rest⟩ := by
  induction s with
  | nil => simp [body, isPlain]
  | cons c s ih =>
      rw [List.flatMap_cons, List.append_assoc, body_escapeChar, ih]
      simp [Scanned.prepend]

end StringLiteral

/-- No character is escaped by a quote in front. -/
theorem Value.escapeChar_cons (c : Char) :
    ∃ d more, Value.escapeChar c = d :: more ∧ d ≠ '"' := by
  by_cases hc : c = '"'
  · exact ⟨'\\', ['"'], by simp [Value.escapeChar, hc], by decide⟩
  · unfold Value.escapeChar
    rw [if_neg hc]
    repeat' split
    all_goals first | exact ⟨_, _, rfl, by decide⟩ | exact ⟨_, _, rfl, hc⟩

end Sdl

end SchemaGraph
