import SchemaGraph.Graph.Json
import SchemaGraph.Json.Reader
import SchemaGraph.Proofs.TokenRules

/-!
# Reading what was written

A JSON text is written from the inside out and read from the left, so every part is read
back in front of whatever is written behind it. A string says itself where it ends, as do
arrays and objects. A number does not: it needs something behind it that no number goes
on with, and the commas and brackets between values are such.

The induction is on the value. The reader's depth only has to be enough for the nesting,
and the length of the text always is, which is also what the reader starts with.
-/

namespace SchemaGraph

open Text.Number (isRest)

namespace Json

theorem hexNumber?_control :
    ∀ n < 32, Text.hexNumber? '0' '0' (Nat.digitChar (n / 16)) (Nat.digitChar (n % 16))
      = some n := by decide

theorem readString?_plain {c : Char} (hquote : c ≠ '"') (hslash : c ≠ '\\')
    (hshown : ¬ c.toNat < 0x20) (cs : List Char) :
    readString? (c :: cs) = (readString? cs).map fun (inner, rest) => (c :: inner, rest) := by
  rw [readString?.eq_def]
  split
  · next heq => cases heq
  · next heq => exact absurd (List.cons.inj heq).1 hslash
  · next heq => exact absurd (List.cons.inj heq).1 hslash
  · next heq =>
      cases heq
      rw [if_neg hquote, if_neg (by simp [hslash, hshown])]

theorem unescape_plain {c : Char} (hslash : c ≠ '\\') (cs : List Char) :
    unescape (c :: cs) = (unescape cs).map (c :: ·) := by
  rw [unescape.eq_def]
  split
  · next heq => cases heq
  · next heq => exact absurd (List.cons.inj heq).1 hslash
  · next heq => exact absurd (List.cons.inj heq).1 hslash
  · next heq =>
      cases heq
      rfl

theorem readString?_short {e c : Char} (h : Text.escaped? e = some c) (cs : List Char) :
    readString? ('\\' :: e :: cs)
      = (readString? cs).map fun (inner, rest) => ('\\' :: e :: inner, rest) := by
  rw [readString?.eq_def]
  split
  · next heq => cases heq
  · next heq =>
      cases heq
      cases h
  · next heq =>
      cases heq
      rw [h]
      rfl
  · next hne heq =>
      cases heq
      exact (hne _ _ rfl rfl).elim

theorem unescape_short {e c : Char} (h : Text.escaped? e = some c) (cs : List Char) :
    unescape ('\\' :: e :: cs) = (unescape cs).map (c :: ·) := by
  rw [unescape.eq_def]
  split
  · next heq => cases heq
  · next heq =>
      cases heq
      cases h
  · next heq =>
      cases heq
      rw [h]
  · next hne heq =>
      cases heq
      exact (hne _ _ rfl rfl).elim

theorem unescape_control {c : Char} (h : c.toNat < 0x20) (cs : List Char) :
    unescape ('\\' :: 'u' :: '0' :: '0' :: Nat.digitChar (c.toNat / 16)
      :: Nat.digitChar (c.toNat % 16) :: cs) = (unescape cs).map (c :: ·) := by
  have hhigh : Text.isHighSurrogate c.toNat = false := by
    simp only [Text.isHighSurrogate, Bool.and_eq_false_iff, decide_eq_false_iff_not]
    omega
  have hlow : Text.isLowSurrogate c.toNat = false := by
    simp only [Text.isLowSurrogate, Bool.and_eq_false_iff, decide_eq_false_iff_not]
    omega
  simp [unescape, hexNumber?_control c.toNat h, hhigh, hlow, Text.ofCodePoint?]

/-- An escaped character is taken as it is written, and stands for the character. -/
theorem escapeChar_read (c : Char) (cs : List Char) :
    readString? (escapeChar c ++ cs)
        = (readString? cs).map (fun (inner, rest) => (escapeChar c ++ inner, rest))
      ∧ unescape (escapeChar c ++ cs) = (unescape cs).map (c :: ·) := by
  have hshort : ∀ {e d : Char}, Text.escaped? e = some d → c = d →
      readString? (['\\', e] ++ cs)
          = (readString? cs).map (fun (inner, rest) => (['\\', e] ++ inner, rest))
        ∧ unescape (['\\', e] ++ cs) = (unescape cs).map (c :: ·) := by
    rintro e d he rfl
    exact ⟨readString?_short he cs, unescape_short he cs⟩
  unfold escapeChar
  split
  · next h => exact hshort rfl h
  next hquote =>
  split
  · next h => exact hshort rfl h
  next hslash =>
  split
  · next h => exact hshort rfl h
  split
  · next h => exact hshort rfl h
  split
  · next h => exact hshort rfl h
  split
  · next h => exact hshort rfl h
  split
  · next h => exact hshort rfl h
  split
  · next hcontrol =>
      refine ⟨?_, unescape_control hcontrol cs⟩
      simp only [List.cons_append, List.nil_append, readString?,
        hexNumber?_control c.toNat hcontrol, Option.isSome_some, if_true]
  · next hshown =>
      exact ⟨readString?_plain hquote hslash hshown cs, unescape_plain hslash cs⟩

theorem readString?_escape (s rest : List Char) :
    readString? (s.flatMap escapeChar ++ '"' :: rest) = some (s.flatMap escapeChar, rest) := by
  induction s with
  | nil => rfl
  | cons c s ih =>
      rw [List.flatMap_cons, List.append_assoc, (escapeChar_read c _).1, ih]
      rfl

theorem unescape_escape (s : List Char) : unescape (s.flatMap escapeChar) = some s := by
  induction s with
  | nil => rfl
  | cons c s ih =>
      rw [List.flatMap_cons, (escapeChar_read c _).2, ih]
      rfl

theorem textOf?_escape (s : String) : textOf? (escape s) = some s := by
  rw [textOf?, escape, String.toList_ofList, unescape_escape, Option.map_some,
    String.ofList_toList]

end Json

namespace Text.Number

theorem IsUnsigned.readUnsigned? {ds rest : List Char} (h : IsUnsigned ds)
    (hrest : Stops Char.isDigit rest) : readUnsigned? (ds ++ rest) = some (ds, rest) := by
  cases h with
  | zero => rfl
  | digits digits start =>
      obtain ⟨d, ds, rfl⟩ := List.exists_cons_of_ne_nil digits.1
      have hread : readDigits? (d :: ds ++ rest) = some (d :: ds, rest) := by
        rw [readDigits?, takeWhile_append_stops digits.2 hrest,
          dropWhile_append_stops digits.2 hrest]
      rw [readUnsigned?.eq_def]
      split
      · next heq => exact absurd (congrArg some (List.cons.inj heq).1) start
      · exact hread

/-- Digits alone are a number. -/
theorem IsUnsigned.read? {ds rest : List Char} (h : IsUnsigned ds) (hrest : Stops isRest rest) :
    read? (ds ++ rest) = some (⟨ds, [], []⟩, rest) := by
  have hwhole : readWhole? (ds ++ rest) = some (ds, rest) := by
    rw [readWhole?.eq_def]
    split
    · next heq =>
        obtain ⟨hne, hdigits⟩ := h.isDigits
        obtain ⟨d, ds, rfl⟩ := List.exists_cons_of_ne_nil hne
        have hd := hdigits d List.mem_cons_self
        rw [(List.cons.inj heq).1] at hd
        cases hd
    · exact h.readUnsigned? (Stops.digits hrest)
  simp only [Number.read?, hwhole, optionally, readFraction?_eq_none hrest,
    readExponent?_eq_none hrest]

theorem head_toDigits {n : Nat} (h : 0 < n) : (Nat.toDigits 10 n).head? ≠ some '0' := by
  induction n using Nat.strongRecOn with
  | ind n ih =>
      by_cases hlt : n < 10
      · have hdigit : ∀ k < 10, 0 < k → Nat.digitChar k ≠ '0' := by decide
        rw [Nat.toDigits_of_lt_base hlt]
        exact fun heq => hdigit n hlt h (Option.some.inj heq)
      · have hfirst := ih (n / 10) (Nat.div_lt_self h (by decide)) (by omega)
        rw [Nat.toDigits_of_base_le (by decide) (Nat.le_of_not_lt hlt), List.head?_append]
        cases hds : Nat.toDigits 10 (n / 10) with
        | nil => exact absurd hds Nat.toDigits_ne_nil
        | cons d ds =>
            rw [hds] at hfirst
            exact hfirst

theorem toDigits_isUnsigned (n : Nat) : IsUnsigned (Nat.toDigits 10 n) := by
  have hdigits : IsDigits (Nat.toDigits 10 n) :=
    ⟨Nat.toDigits_ne_nil, fun _ hc => Nat.isDigit_of_mem_toDigits (by decide) (by decide) hc⟩
  cases n with
  | zero => exact .zero
  | succ n => exact .digits hdigits (head_toDigits n.succ_pos)

end Text.Number

namespace JsonValue

/-! ## Values

Arrays and objects are read by one loop, which is told what closes them and how an item
is read. So the loop is followed once (`readItems?_commaed`), for items of any sort that
are read back in front of whatever stops a number. A comma does, and so do both closing
signs, so that the condition is met behind every item. What the induction on the value
adds is that the items of a value are such, and that each is shorter than the value. -/

theorem writtenItems_eq (items : List JsonValue) : writtenItems items = items.map written := by
  induction items with
  | nil => rfl
  | cons item items ih => rw [writtenItems, ih, List.map_cons]

theorem writtenMembers_eq (members : List (String × JsonValue)) :
    writtenMembers members = members.map fun m => (m.1, m.2.written) := by
  induction members with
  | nil => rfl
  | cons m members ih => rw [writtenMembers, ih, List.map_cons]

end JsonValue

namespace Json

theorem renderItems_eq (items : List Json) : renderItems items = items.map render := by
  induction items with
  | nil => rfl
  | cons item items ih => rw [renderItems, ih, List.map_cons]

theorem renderMembers_eq (members : List (String × Json)) :
    renderMembers members = members.map fun m => "\"" ++ m.1 ++ "\":" ++ m.2.render := by
  induction members with
  | nil => rfl
  | cons m members ih => rw [renderMembers, ih, List.map_cons]

/-- The texts, with commas in between. -/
def commaed (texts : List (List Char)) : List Char := [','].intercalate texts

/-- Whether a character is neither a blank nor closes anything. -/
def isOpening (c : Char) : Bool :=
  !(c == ' ' || c == '\n' || c == '\t' || c == '\r' || c == ']' || c == '\x7d')

theorem skipBlanks_opening {c : Char} (h : isOpening c = true) (cs : List Char) :
    skipBlanks (c :: cs) = c :: cs := by
  simp only [isOpening, Bool.not_eq_true', Bool.or_eq_false_iff] at h
  rw [skipBlanks, List.dropWhile_cons_of_neg]
  simp [h]

theorem commaed_cons_cons (t u : List Char) (texts : List (List Char)) :
    commaed (t :: u :: texts) = t ++ ',' :: commaed (u :: texts) := by
  rw [commaed, List.intercalate_cons_cons, List.append_assoc]
  rfl

theorem readItems?_step {α : Type} {close : Char}
    {item : List Char → Option (α × List Char)} {cs rest : List Char} {a : α} {c : Char}
    (h : item cs = some (a, c :: rest)) (hblank : skipBlanks (c :: rest) = c :: rest)
    (limit : Nat) :
    readItems? close item (limit + 1) cs
      = if c = close then some ([a], rest)
        else if c = ',' then
          (readItems? close item limit rest).map fun (as, rest) => (a :: as, rest)
        else none := by
  simp only [readItems?, h, hblank]

/-- Items that are read in front of whatever stops a number are read one after the other. -/
theorem readItems?_commaed {α β : Type} {close : Char} (hclose : close = ']' ∨ close = '\x7d')
    {item : List Char → Option (α × List Char)} {text : β → List Char} {value : β → α}
    {x : β} {xs : List β} (hitem : ∀ y ∈ x :: xs, ∀ rest, Stops isRest rest →
      item (text y ++ rest) = some (value y, rest))
    {limit : Nat} (hlimit : xs.length < limit) (rest : List Char) :
    readItems? close item limit (commaed ((x :: xs).map text) ++ close :: rest)
      = some ((x :: xs).map value, rest) := by
  induction xs generalizing x limit with
  | nil =>
      obtain ⟨limit, rfl⟩ := Nat.exists_eq_add_of_lt hlimit
      have hstops : Stops isRest (close :: rest) := by
        rcases hclose with rfl | rfl <;> exact .cons (by decide) rest
      have hblank : skipBlanks (close :: rest) = close :: rest := by
        rcases hclose with rfl | rfl <;> rfl
      have htext : commaed ([x].map text) = text x := by simp [commaed]
      rw [htext, readItems?_step (hitem x List.mem_cons_self _ hstops) hblank, if_pos rfl]
      rfl
  | cons x' xs ih =>
      obtain ⟨limit, rfl⟩ := Nat.exists_eq_add_of_lt hlimit
      obtain ⟨hx, hxs⟩ := List.forall_mem_cons.1 hitem
      have hcomma : ',' ≠ close := by
        rcases hclose with rfl | rfl <;> decide
      have hlimit' : xs.length < (x' :: xs).length + limit := by
        rw [List.length_cons]
        omega
      rw [List.map_cons, List.map_cons, commaed_cons_cons, List.append_assoc, List.cons_append,
        readItems?_step (hx _ (.cons (by decide) _)) rfl, if_neg hcomma, if_pos rfl,
        ← List.map_cons, ih hxs hlimit']
      rfl

theorem length_commaed (t : List Char) (texts : List (List Char)) :
    texts.length ≤ (commaed (t :: texts)).length := by
  induction texts generalizing t with
  | nil => exact Nat.zero_le _
  | cons u texts ih =>
      have hle := ih u
      simp only [commaed_cons_cons, List.length_append, List.length_cons]
      omega

theorem length_le_commaed {t : List Char} {texts : List (List Char)} (h : t ∈ texts) :
    t.length ≤ (commaed texts).length := by
  induction texts with
  | nil => cases h
  | cons u texts ih =>
      cases texts with
      | nil =>
          rw [List.mem_singleton.1 h]
          simp [commaed]
      | cons v texts =>
          rw [commaed_cons_cons, List.length_append, List.length_cons]
          rcases List.mem_cons.1 h with rfl | h
          · omega
          · have hle := ih h
            omega

theorem readClosed?_commaed {α β : Type} {close : Char} (hclose : close = ']' ∨ close = '\x7d')
    {item : List Char → Option (α × List Char)} {text : β → List Char} {value : β → α}
    {xs : List β} (hitem : ∀ y ∈ xs, ∀ rest, Stops isRest rest →
      item (text y ++ rest) = some (value y, rest))
    (hopens : ∀ y ∈ xs, ∃ c cs, text y = c :: cs ∧ isOpening c = true) (rest : List Char) :
    readClosed? close item (commaed (xs.map text) ++ close :: rest)
      = some (xs.map value, rest) := by
  cases xs with
  | nil =>
      have hskip : skipBlanks (close :: rest) = close :: rest := by
        rcases hclose with rfl | rfl <;> rfl
      simp [commaed, readClosed?, hskip]
  | cons x xs =>
      obtain ⟨c, cs, hx, hc⟩ := hopens x List.mem_cons_self
      have hne : c ≠ close := by
        rintro rfl
        rcases hclose with rfl | rfl <;> exact absurd hc (by decide)
      obtain ⟨tail, htail⟩ : ∃ tail,
          commaed ((x :: xs).map text) ++ close :: rest = c :: tail := by
        cases xs with
        | nil => exact ⟨_, by simp [commaed, hx]; rfl⟩
        | cons x' xs =>
            exact ⟨_, by rw [List.map_cons, List.map_cons, commaed_cons_cons, hx]; rfl⟩
      have hlimit : xs.length < (commaed ((x :: xs).map text) ++ close :: rest).length := by
        have hle := length_commaed (text x) (xs.map text)
        rw [List.length_map] at hle
        simp only [List.map_cons, List.length_append, List.length_cons]
        omega
      have hread := readItems?_commaed hclose hitem hlimit rest
      rw [readClosed?]
      rw [htail, skipBlanks_opening hc]
      simp only [hne, if_false]
      rw [← htail]
      exact hread

end Json

namespace JsonValue

open Json

/-- The characters that a value is written with. -/
def chars (v : JsonValue) : List Char := v.written.render.toList

theorem chars_number (n : Nat) : chars (.number n) = Nat.toDigits 10 n := by
  rw [chars, written, render, Nat.toString_eq_ofList_toDigits, String.toList_ofList]

theorem chars_text (s : String) :
    chars (.text s) = '"' :: (s.toList.flatMap escapeChar ++ ['"']) := by
  simp [chars, written, Json.text, escape, render]

theorem chars_array (items : List JsonValue) :
    chars (.array items) = '[' :: (commaed (items.map chars) ++ [']']) := by
  simp [chars, written, render, writtenItems_eq, renderItems_eq, commaed,
    String.toList_intercalate, Function.comp_def]
  rfl

/-- The characters that a member of an object is written with. -/
def memberChars (m : String × JsonValue) : List Char :=
  '"' :: (m.1.toList.flatMap escapeChar ++ '"' :: ':' :: chars m.2)

theorem chars_object (members : List (String × JsonValue)) :
    chars (.object members) = '\x7b' :: (commaed (members.map memberChars) ++ ['\x7d']) := by
  simp [chars, written, Json.record, escape, render, writtenMembers_eq, renderMembers_eq, commaed,
    String.toList_intercalate, Function.comp_def]
  rfl

theorem isOpening_of_isDigit {c : Char} (h : c.isDigit = true) : isOpening c = true := by
  rw [isOpening, Bool.not_eq_true', ← Bool.not_eq_true]
  intro hc
  simp only [Bool.or_eq_true, beq_iff_eq] at hc
  rcases hc with ((((rfl | rfl) | rfl) | rfl) | rfl) | rfl <;> exact absurd h (by decide)

theorem chars_opens (v : JsonValue) : ∃ c cs, chars v = c :: cs ∧ isOpening c = true := by
  cases v with
  | null => exact ⟨_, _, rfl, by decide⟩
  | bool value => cases value <;> exact ⟨_, _, rfl, by decide⟩
  | number n =>
      obtain ⟨hne, hdigits⟩ := (Text.Number.toDigits_isUnsigned n).isDigits
      obtain ⟨d, ds, hds⟩ := List.exists_cons_of_ne_nil hne
      exact ⟨d, ds, (chars_number n).trans hds,
        isOpening_of_isDigit (hdigits d (hds ▸ List.mem_cons_self))⟩
  | text s => exact ⟨_, _, chars_text s, by decide⟩
  | array items => exact ⟨_, _, chars_array items, by decide⟩
  | object members => exact ⟨_, _, chars_object members, by decide⟩

theorem readPlain?_digits {d : Char} (h : d.isDigit = true) (ds : List Char) :
    readPlain? (d :: ds) = (Text.Number.read? (d :: ds)).map fun (n, rest) =>
      (.number (String.ofList n.text), rest) := by
  have hword : ∀ {w : Char}, w.isDigit = false → ∀ ws, afterWord? (w :: ws) (d :: ds) = none := by
    intro w hw ws
    rw [afterWord?, if_neg]
    rintro rfl
    rw [h] at hw
    cases hw
  rw [readPlain?, hword (by decide), hword (by decide), hword (by decide)]

theorem readWithin?_number (n depth : Nat) {rest : List Char} (hrest : Stops isRest rest) :
    readWithin? (depth + 1) (Nat.toDigits 10 n ++ rest)
      = some (.number (toString n), rest) := by
  have hunsigned := Text.Number.toDigits_isUnsigned n
  have hread := hunsigned.read? hrest
  obtain ⟨hne, hdigits⟩ := hunsigned.isDigits
  rw [Nat.toString_eq_ofList_toDigits]
  generalize Nat.toDigits 10 n = digits at hread hne hdigits
  obtain ⟨d, ds, rfl⟩ := List.exists_cons_of_ne_nil hne
  have hd := hdigits d List.mem_cons_self
  rw [readWithin?, List.cons_append, skipBlanks_opening (isOpening_of_isDigit hd)]
  split
  · next heq =>
      cases heq
      cases hd
  · next heq =>
      cases heq
      cases hd
  · next heq =>
      cases heq
      cases hd
  · rw [readPlain?_digits hd, ← List.cons_append, hread]
    simp [Text.Number.text]

theorem readMember?_chars {value : List Char → Option (Json × List Char)} {m : String × JsonValue}
    {rest : List Char} (h : value (chars m.2 ++ rest) = some (m.2.written, rest)) :
    readMember? value (memberChars m ++ rest) = some ((escape m.1, m.2.written), rest) := by
  simp only [memberChars, List.cons_append, List.append_assoc]
  rw [readMember?, skipBlanks_opening rfl]
  simp only [readString?_escape]
  rw [skipBlanks_opening rfl]
  simp only [h, Option.map_some, escape]

theorem chars_pos (v : JsonValue) : 0 < (chars v).length := by
  obtain ⟨c, cs, hc, -⟩ := chars_opens v
  rw [hc]
  exact Nat.succ_pos _

/-- A value is read back in front of everything that stops a number. -/
theorem readWithin?_chars (v : JsonValue) {depth : Nat} (hdepth : (chars v).length ≤ depth)
    {rest : List Char} (hrest : Stops isRest rest) :
    readWithin? depth (chars v ++ rest) = some (v.written, rest) := by
  match depth, v with
  | 0, v => exact absurd (chars_pos v) (Nat.not_lt.2 hdepth)
  | depth + 1, .null => rfl
  | depth + 1, .bool value => cases value <;> rfl
  | depth + 1, .number n =>
      rw [chars_number]
      exact readWithin?_number n depth hrest
  | depth + 1, .text s =>
      rw [chars_text, List.cons_append, List.append_assoc, readWithin?, skipBlanks_opening rfl]
      simp only [List.singleton_append, readString?_escape]
      rfl
  | depth + 1, .array items =>
      rw [chars_array, List.length_cons, List.length_append] at hdepth
      have hitem : ∀ v ∈ items, ∀ rest, Stops isRest rest →
          readWithin? depth (chars v ++ rest) = some (v.written, rest) := by
        intro v hv rest hrest
        have hle := length_le_commaed (List.mem_map_of_mem (f := chars) hv)
        exact readWithin?_chars v (by omega) hrest
      have hread := readClosed?_commaed (.inl rfl) hitem (fun v _ => chars_opens v) rest
      rw [chars_array, List.cons_append, List.append_assoc, readWithin?, skipBlanks_opening rfl]
      simp only [List.singleton_append, hread]
      rw [written, writtenItems_eq]
      rfl
  | depth + 1, .object members =>
      rw [chars_object, List.length_cons, List.length_append] at hdepth
      have hmember : ∀ m ∈ members, ∀ rest, Stops isRest rest →
          readMember? (readWithin? depth) (memberChars m ++ rest)
            = some ((escape m.1, m.2.written), rest) := by
        intro m hm rest hrest
        have hle := length_le_commaed (List.mem_map_of_mem (f := memberChars) hm)
        have hvalue : (chars m.2).length ≤ (memberChars m).length := by
          simp only [memberChars, List.length_cons, List.length_append]
          omega
        exact readMember?_chars (readWithin?_chars m.2 (by omega) hrest)
      have hread := readClosed?_commaed (.inr rfl) hmember (fun m _ => ⟨_, _, rfl, rfl⟩) rest
      rw [chars_object, List.cons_append, List.append_assoc, readWithin?, skipBlanks_opening rfl]
      simp only [List.singleton_append, hread]
      rw [written, writtenMembers_eq, Json.record, List.map_map]
      rfl

/-- What is written is read back as it was written. -/
theorem ofText?_written (v : JsonValue) : Json.ofText? v.written.render = some v.written := by
  have hread := readWithin?_chars v (Nat.le_refl _) (stops_nil isRest)
  rw [List.append_nil] at hread
  simp only [ofText?, chars] at hread ⊢
  rw [hread]
  rfl

theorem natural?_toString (n : Nat) : natural? (toString n) = some n := by
  have hdigits := (Text.Number.toDigits_isUnsigned n).isDigits.2
  rw [Nat.toString_eq_ofList_toDigits, natural?, String.toList_ofList,
    if_pos (List.all_eq_true.2 hdigits), Nat.ofDigitChars_ten_toDigits]

theorem itemContents?_written {items : List JsonValue}
    (h : ∀ v ∈ items, v.written.content? = some v) :
    itemContents? (items.map written) = some items := by
  induction items with
  | nil => rfl
  | cons v items ih =>
      obtain ⟨hv, hitems⟩ := List.forall_mem_cons.1 h
      simp only [List.map_cons, itemContents?, hv, ih hitems]

theorem memberContents?_written {members : List (String × JsonValue)}
    (h : ∀ m ∈ members, m.2.written.content? = some m.2) :
    memberContents? (members.map fun m => (escape m.1, m.2.written)) = some members := by
  induction members with
  | nil => rfl
  | cons m members ih =>
      obtain ⟨hm, hmembers⟩ := List.forall_mem_cons.1 h
      simp only [List.map_cons, memberContents?, textOf?_escape, hm, ih hmembers]

theorem content?_written (v : JsonValue) : v.written.content? = some v := by
  match v with
  | .null => rfl
  | .bool value => rfl
  | .number n =>
      rw [written, content?, natural?_toString]
      rfl
  | .text s =>
      rw [written, Json.text, content?, textOf?_escape]
      rfl
  | .array items =>
      rw [written, writtenItems_eq, content?,
        itemContents?_written fun v hv => content?_written v]
      rfl
  | .object members =>
      rw [written, writtenMembers_eq, Json.record, content?, List.map_map]
      have hmembers := memberContents?_written fun m (hm : m ∈ members) => content?_written m.2
      exact congrArg (Option.map object) hmembers
termination_by v
decreasing_by
  · have := List.sizeOf_lt_of_mem hv
    simp_wf
    omega
  · have := List.sizeOf_lt_of_mem hm
    obtain ⟨name, v⟩ := m
    simp_wf
    simp at this
    omega

/-- What a text says that was written for a value is that value. -/
theorem content?_ofText?_written (v : JsonValue) :
    (Json.ofText? v.written.render).bind content? = some v := by
  rw [ofText?_written]
  exact content?_written v

end JsonValue

end SchemaGraph
