import SchemaGraph.Proofs.Lists
import SchemaGraph.Proofs.LiteralTexts
import SchemaGraph.Sdl.Lexeme

/-!
# The rules of tokens

What each kind of token looks like, said without reading anything: a rule tells of
some characters whether they are such a token, and not where in a text it ends. Most
rules have matches that are prefixes of one another, and a reader has to find the
longest one without having seen how the text goes on.

A number is the one that takes an argument. Its parts are read one after the other,
each as far as possible, and no part that was cut short would make up for it later:
a part goes on with characters that the next part does not start with.
-/

namespace SchemaGraph

/-- What is found at the start of a text is the longest match of a rule there, if any. -/
structure LongestAt (rule : List Char → Prop) (cs : List Char)
    (found? : Option (List Char × List Char)) : Prop where
  append : ∀ {found rest}, found? = some (found, rest) → found ++ rest = cs
  sound : ∀ {found rest}, found? = some (found, rest) → rule found
  longest : ∀ {p}, rule p → p <+: cs →
    ∃ found rest, found? = some (found, rest) ∧ p.length ≤ found.length

/-- Whether a reader finds the longest match of a rule at the start of every text. -/
def Longest (rule : List Char → Prop)
    (read? : List Char → Option (List Char × List Char)) : Prop :=
  ∀ cs, LongestAt rule cs (read? cs)

section

variable {rule rule' : List Char → Prop} {cs : List Char}
  {found? : Option (List Char × List Char)}

theorem LongestAt.congr (h : LongestAt rule cs found?)
    (hrule : ∀ p, p <+: cs → (rule' p ↔ rule p)) : LongestAt rule' cs found? where
  append := h.append
  sound {found rest} hfound :=
    (hrule found ⟨rest, h.append hfound⟩).2 (h.sound hfound)
  longest hp hcs := h.longest ((hrule _ hcs).1 hp) hcs

theorem longestAt_none (h : ∀ p, p <+: cs → ¬ rule p) : LongestAt rule cs none where
  append hfound := nomatch hfound
  sound hfound := nomatch hfound
  longest hp hcs := absurd hp (h _ hcs)

theorem LongestAt.marked (h : LongestAt rule cs found?) {mark : Char}
    (hrule : ∀ p, p <+: mark :: cs → (rule' p ↔ ∃ ds, p = mark :: ds ∧ rule ds)) :
    LongestAt rule' (mark :: cs) (found?.map fun q => (mark :: q.1, q.2)) where
  append {found rest} hfound := by
    obtain ⟨⟨ds, more⟩, hds, heq⟩ := Option.map_eq_some_iff.1 hfound
    cases heq
    exact congrArg (mark :: ·) (h.append hds)
  sound {found rest} hfound := by
    obtain ⟨⟨ds, more⟩, hds, heq⟩ := Option.map_eq_some_iff.1 hfound
    cases heq
    exact (hrule _ ⟨more, congrArg (mark :: ·) (h.append hds)⟩).2 ⟨ds, rfl, h.sound hds⟩
  longest {p} hp hcs := by
    obtain ⟨ds, rfl, hds⟩ := (hrule p hcs).1 hp
    obtain ⟨found, rest, hfound, hle⟩ := h.longest hds (List.cons_prefix_cons.1 hcs).2
    exact ⟨mark :: found, rest, by rw [hfound]; rfl, Nat.succ_le_succ hle⟩

end

namespace Text.Number

/-- One digit or more. -/
def IsDigits (cs : List Char) : Prop := cs ≠ [] ∧ ∀ c ∈ cs, c.isDigit = true

/-- A zero, or digits that do not start with one. -/
inductive IsUnsigned : List Char → Prop
  | zero : IsUnsigned ['0']
  | digits {ds} (digits : IsDigits ds) (start : ds.head? ≠ some '0') : IsUnsigned ds

/-- What stands before the point of a number. -/
inductive IsWholePart : List Char → Prop
  | plain {ds} (digits : IsUnsigned ds) : IsWholePart ds
  | minus {ds} (digits : IsUnsigned ds) : IsWholePart ('-' :: ds)

/-- A point and what stands after it. -/
inductive IsFraction : List Char → Prop
  | point {ds} (digits : IsDigits ds) : IsFraction ('.' :: ds)

/-- Digits, with or without a sign. -/
inductive IsPower : List Char → Prop
  | plain {ds} (digits : IsDigits ds) : IsPower ds
  | plus {ds} (digits : IsDigits ds) : IsPower ('+' :: ds)
  | minus {ds} (digits : IsDigits ds) : IsPower ('-' :: ds)

/-- An exponent mark and what stands after it. -/
inductive IsExponent : List Char → Prop
  | lower {ds} (power : IsPower ds) : IsExponent ('e' :: ds)
  | upper {ds} (power : IsPower ds) : IsExponent ('E' :: ds)

theorem IsUnsigned.isDigits {ds : List Char} (h : IsUnsigned ds) : IsDigits ds := by
  cases h with
  | zero => exact ⟨List.cons_ne_nil _ _, List.forall_mem_singleton.2 rfl⟩
  | digits digits _ => exact digits

/-- Digits do not start with anything else. -/
theorem IsDigits.not_prefix {ds cs : List Char} {mark : Char} (h : IsDigits ds)
    (hmark : mark.isDigit = false) : ¬ ds <+: mark :: cs := by
  intro hcs
  cases ds with
  | nil => exact h.1 rfl
  | cons d ds =>
      have hd := h.2 d List.mem_cons_self
      rw [(List.cons_prefix_cons.1 hcs).1, hmark] at hd
      cases hd

theorem readDigits?_longest : Longest IsDigits readDigits? := fun cs =>
  { append := readDigits?_append
    sound := fun h => by
      obtain ⟨hds, hne⟩ := readDigits?_eq h
      exact ⟨hne, hds ▸ List.all_eq_true.1 List.all_takeWhile⟩
    longest := fun {p} hp hcs => by
      have hlength := length_le_takeWhile hp.2 hcs
      rw [readDigits?]
      split
      · next hnil =>
          rw [hnil, List.length_nil, Nat.le_zero, List.length_eq_zero_iff] at hlength
          exact absurd hlength hp.1
      · next d ds hds => exact ⟨d :: ds, _, rfl, hds ▸ hlength⟩ }

theorem readUnsigned?_longest : Longest IsUnsigned readUnsigned? := by
  intro cs
  rw [readUnsigned?.eq_def]
  split
  · next cs =>
      refine ⟨?_, ?_, ?_⟩
      · rintro _ _ ⟨⟩
        rfl
      · rintro _ _ ⟨⟩
        exact .zero
      · intro p hp hcs
        refine ⟨_, _, rfl, ?_⟩
        cases hp with
        | zero => exact Nat.le_refl _
        | digits digits start =>
            obtain ⟨tail, htail⟩ := hcs
            cases p with
            | nil => exact absurd rfl digits.1
            | cons d ds =>
                cases htail
                exact absurd rfl start
  · next hzero =>
      refine (readDigits?_longest cs).congr fun p hp => ⟨IsUnsigned.isDigits, fun digits => ?_⟩
      refine .digits digits fun hstart => ?_
      obtain ⟨tail, rfl⟩ := hp
      cases p with
      | nil => cases hstart
      | cons d ds =>
          cases hstart
          exact hzero _ rfl

theorem readWhole?_longest : Longest IsWholePart readWhole? := by
  intro cs
  rw [readWhole?.eq_def]
  split
  · next cs =>
      refine (readUnsigned?_longest cs).marked fun p hp => ⟨fun h => ?_, ?_⟩
      · cases h with
        | plain digits => exact absurd hp (digits.isDigits.not_prefix (by decide))
        | minus digits => exact ⟨_, rfl, digits⟩
      · rintro ⟨ds, rfl, digits⟩
        exact .minus digits
  · next hminus =>
      refine (readUnsigned?_longest cs).congr fun p hp => ⟨fun h => ?_, .plain⟩
      cases h with
      | plain digits => exact digits
      | minus digits =>
          obtain ⟨tail, rfl⟩ := hp
          exact absurd rfl (hminus _)

theorem readFraction?_longest : Longest IsFraction readFraction? := by
  intro cs
  rw [readFraction?.eq_def]
  split
  · next cs =>
      refine (readDigits?_longest cs).marked fun p _ => ⟨?_, ?_⟩
      · rintro ⟨digits⟩
        exact ⟨_, rfl, digits⟩
      · rintro ⟨ds, rfl, digits⟩
        exact .point digits
  · next hpoint =>
      refine longestAt_none fun p hp h => ?_
      obtain ⟨digits⟩ := h
      obtain ⟨tail, rfl⟩ := hp
      exact hpoint _ rfl

theorem readPower?_longest : Longest IsPower readPower? := by
  intro cs
  rw [readPower?.eq_def]
  split
  · next cs =>
      refine (readDigits?_longest cs).marked fun p hp => ⟨fun h => ?_, ?_⟩
      · cases h with
        | plain digits => exact absurd hp (digits.not_prefix (by decide))
        | plus digits => exact ⟨_, rfl, digits⟩
        | minus digits => exact absurd (List.cons_prefix_cons.1 hp).1 (by decide)
      · rintro ⟨ds, rfl, digits⟩
        exact .plus digits
  · next cs =>
      refine (readDigits?_longest cs).marked fun p hp => ⟨fun h => ?_, ?_⟩
      · cases h with
        | plain digits => exact absurd hp (digits.not_prefix (by decide))
        | plus digits => exact absurd (List.cons_prefix_cons.1 hp).1 (by decide)
        | minus digits => exact ⟨_, rfl, digits⟩
      · rintro ⟨ds, rfl, digits⟩
        exact .minus digits
  · next hplus hminus =>
      refine (readDigits?_longest cs).congr fun p hp => ⟨fun h => ?_, .plain⟩
      obtain ⟨tail, rfl⟩ := hp
      cases h with
      | plain digits => exact digits
      | plus digits => exact absurd rfl (hplus _)
      | minus digits => exact absurd rfl (hminus _)

theorem readExponent?_longest : Longest IsExponent readExponent? := by
  intro cs
  rw [readExponent?.eq_def]
  split
  · next cs =>
      refine (readPower?_longest cs).marked fun p hp => ⟨fun h => ?_, ?_⟩
      · cases h with
        | lower power => exact ⟨_, rfl, power⟩
        | upper power => exact absurd (List.cons_prefix_cons.1 hp).1 (by decide)
      · rintro ⟨ds, rfl, power⟩
        exact .lower power
  · next cs =>
      refine (readPower?_longest cs).marked fun p hp => ⟨fun h => ?_, ?_⟩
      · cases h with
        | lower power => exact absurd (List.cons_prefix_cons.1 hp).1 (by decide)
        | upper power => exact ⟨_, rfl, power⟩
      · rintro ⟨ds, rfl, power⟩
        exact .upper power
  · next hlower hupper =>
      refine longestAt_none fun p hp h => ?_
      obtain ⟨tail, rfl⟩ := hp
      cases h with
      | lower power => exact hlower _ rfl
      | upper power => exact hupper _ rfl

/-! ## One part after another

To take the longest match of one part, and behind it that of the next, does not in general
give the longest match of both: with less of the first part there might be more of the
second. It does if the first part grows by characters (`GrowsBy`) with which the second
one does not start (`StartsOff`). Cut short, the first part would be followed by one of
the characters it grows by, and the second part could not start there. A number is put
together in this way twice: a fraction goes behind digits, and an exponent behind both. -/

/-- A part, and after it another one if there is one. -/
def Followed (first second : List Char → Prop) (cs : List Char) : Prop :=
  ∃ front back, cs = front ++ back ∧ first front ∧ (back = [] ∨ second back)

/-- Reads a part, and after it another one if there is one. -/
def readFollowed? (first? second? : List Char → Option (List Char × List Char))
    (cs : List Char) : Option (List Char × List Char) :=
  (first? cs).map fun q => (q.1 ++ (optionally second? q.2).1, (optionally second? q.2).2)

/-- Whether no match is empty, and characters that satisfy `q` make up all but its start. -/
def GrowsBy (q : Char → Bool) (rule : List Char → Prop) : Prop :=
  ∀ cs, rule cs → cs ≠ [] ∧ ∀ c ∈ cs.tail, q c = true

/-- Whether a match starts with something that does not satisfy `q`. -/
def StartsOff (q : Char → Bool) (rule : List Char → Prop) : Prop :=
  ∀ cs, rule cs → ∃ c tail, cs = c :: tail ∧ q c = false

section

variable {first second : List Char → Prop}
  {first? second? : List Char → Option (List Char × List Char)}

theorem optionally_rule (hsecond : Longest second second?) (cs : List Char) :
    (optionally second? cs).1 = [] ∨ second (optionally second? cs).1 := by
  rw [optionally]
  split
  · next found hfound => exact .inr ((hsecond cs).sound hfound)
  · exact .inl rfl

theorem optionally_longest (hsecond : Longest second second?) {cs p : List Char}
    (hp : p = [] ∨ second p) (hcs : p <+: cs) :
    p.length ≤ (optionally second? cs).1.length := by
  rcases hp with rfl | hp
  · exact Nat.zero_le _
  · obtain ⟨found, rest, hfound, hle⟩ := (hsecond cs).longest hp hcs
    rw [optionally, hfound]
    exact hle

theorem readFollowed?_longest {q : Char → Bool} (hfirst : Longest first first?)
    (hsecond : Longest second second?) (hgrows : GrowsBy q first) (hstarts : StartsOff q second) :
    Longest (Followed first second) (readFollowed? first? second?) := by
  intro cs
  refine ⟨?_, ?_, ?_⟩
  · intro found rest h
    obtain ⟨⟨front, more⟩, hfront, heq⟩ := Option.map_eq_some_iff.1 h
    cases heq
    rw [List.append_assoc, optionally_append fun {cs} => (hsecond cs).append]
    exact (hfirst cs).append hfront
  · intro found rest h
    obtain ⟨⟨front, more⟩, hfront, heq⟩ := Option.map_eq_some_iff.1 h
    cases heq
    exact ⟨front, _, rfl, (hfirst cs).sound hfront, optionally_rule hsecond more⟩
  · rintro p ⟨front, back, rfl, hfront, hback⟩ hcs
    obtain ⟨found, more, hfound, hle⟩ :=
      (hfirst cs).longest hfront ((List.prefix_append _ _).trans hcs)
    refine ⟨_, _, by rw [readFollowed?, hfound]; rfl, ?_⟩
    have happend := (hfirst cs).append hfound
    obtain ⟨u, rfl⟩ : front <+: found :=
      List.prefix_of_prefix_length_le ((List.prefix_append _ _).trans hcs) ⟨more, happend⟩ hle
    rw [← happend, List.append_assoc] at hcs
    have hrest : back <+: u ++ more := (List.prefix_append_right_inj front).1 hcs
    cases u with
    | nil =>
        simpa using optionally_longest hsecond hback hrest
    | cons c u =>
        rcases hback with rfl | hback
        · simp [Nat.add_assoc]
        · -- What was found goes on with a character that the second part does not start with.
          exfalso
          obtain ⟨d, tail, rfl, hd⟩ := hstarts back hback
          obtain rfl : d = c := (List.cons_prefix_cons.1 hrest).1
          have hall := (hgrows _ ((hfirst cs).sound hfound)).2
          cases front with
          | nil => exact (hgrows [] hfront).1 rfl
          | cons e front =>
              rw [hall d (List.mem_append_right _ List.mem_cons_self)] at hd
              cases hd

end

/-- What stands before the exponent of a number. -/
def IsDecimal : List Char → Prop := Followed IsWholePart IsFraction

/-- A number. -/
def IsNumber : List Char → Prop := Followed IsDecimal IsExponent

theorem IsWholePart.growsBy : GrowsBy Char.isDigit IsWholePart := by
  intro cs h
  cases h with
  | plain digits =>
      exact ⟨digits.isDigits.1, fun c hc => digits.isDigits.2 c (List.mem_of_mem_tail hc)⟩
  | minus digits => exact ⟨List.cons_ne_nil _ _, digits.isDigits.2⟩

theorem IsWholePart.head {cs : List Char} (h : IsWholePart cs) :
    ∃ c tail, cs = c :: tail ∧ (c.isDigit = true ∨ c = '-') := by
  cases h with
  | plain digits =>
      obtain ⟨hne, hdigits⟩ := digits.isDigits
      obtain ⟨d, ds, rfl⟩ := List.exists_cons_of_ne_nil hne
      exact ⟨d, ds, rfl, .inl (hdigits d List.mem_cons_self)⟩
  | minus digits => exact ⟨'-', _, rfl, .inr rfl⟩

theorem IsFraction.startsOff : StartsOff Char.isDigit IsFraction := by
  rintro cs ⟨digits⟩
  exact ⟨'.', _, rfl, by decide⟩

/-- Whether a number without exponent can go on with a character. -/
def isDecimalRest (c : Char) : Bool := c.isDigit || c == '.'

theorem IsDecimal.growsBy : GrowsBy isDecimalRest IsDecimal := by
  rintro cs ⟨front, back, rfl, hfront, hback⟩
  obtain ⟨hne, htail⟩ := IsWholePart.growsBy front hfront
  refine ⟨by simp [hne], fun c hc => ?_⟩
  rw [List.tail_append_of_ne_nil hne] at hc
  rcases List.mem_append.1 hc with hc | hc
  · simp [isDecimalRest, htail c hc]
  · rcases hback with rfl | hback
    · cases hc
    · cases hback with
      | point digits =>
          rcases List.mem_cons.1 hc with rfl | hc
          · decide
          · simp [isDecimalRest, digits.2 c hc]

theorem IsExponent.startsOff : StartsOff isDecimalRest IsExponent := by
  intro cs h
  cases h with
  | lower power => exact ⟨'e', _, rfl, by decide⟩
  | upper power => exact ⟨'E', _, rfl, by decide⟩

theorem IsNumber.head {cs : List Char} (h : IsNumber cs) :
    ∃ c tail, cs = c :: tail ∧ (c.isDigit = true ∨ c = '-') := by
  obtain ⟨_, exponent, rfl, ⟨_, fraction, rfl, whole, -⟩, -⟩ := h
  obtain ⟨c, tail, rfl, hc⟩ := whole.head
  exact ⟨c, _, rfl, hc⟩

theorem readNumber?_longest :
    Longest IsNumber (readFollowed? (readFollowed? readWhole? readFraction?) readExponent?) :=
  readFollowed?_longest (readFollowed?_longest readWhole?_longest readFraction?_longest
    IsWholePart.growsBy IsFraction.startsOff) readExponent?_longest
    IsDecimal.growsBy IsExponent.startsOff

/-- A number is read part by part. -/
theorem read?_eq (cs : List Char) :
    (read? cs).map (fun q => (q.1.text, q.2))
      = readFollowed? (readFollowed? readWhole? readFraction?) readExponent? cs := by
  rw [read?, readFollowed?, readFollowed?]
  cases readWhole? cs <;> rfl

theorem read?_longest (cs : List Char) :
    LongestAt IsNumber cs ((read? cs).map fun q => (q.1.text, q.2)) :=
  read?_eq cs ▸ readNumber?_longest cs

/-- The parts of what is read are parts of a number. -/
structure IsLiteral (n : Number) : Prop where
  whole : IsWholePart n.whole
  fraction : n.fraction = [] ∨ IsFraction n.fraction
  exponent : n.exponent = [] ∨ IsExponent n.exponent

theorem IsLiteral.isNumber {n : Number} (h : n.IsLiteral) : IsNumber n.text :=
  ⟨_, _, rfl, ⟨_, _, rfl, h.whole, h.fraction⟩, h.exponent⟩

theorem read?_isLiteral {cs rest : List Char} {n : Number} (h : read? cs = some (n, rest)) :
    n.IsLiteral := by
  rw [read?] at h
  split at h
  · cases h
  · next whole afterWhole hwhole =>
      cases h
      exact ⟨(readWhole?_longest cs).sound hwhole, optionally_rule readFraction?_longest _,
        optionally_rule readExponent?_longest _⟩

end Text.Number

/-! ## Strings

A block string is the one token whose end is found by looking ahead. The scan looks at up
to four characters to tell an escape or the closing quotes from others, and so it looks at
the text behind a token, where no rule can see anything. But the closing quotes belong to
the token, and they are long enough to settle what starts in front of them
(`BlockContent.prefix_of_append`), so the rule need only look at its own text. -/

namespace Sdl

/-- What stands between the quotes of a plain string, and the value that it has. -/
inductive StringContent : List Char → List Char → Prop
  | nil : StringContent [] []
  | plain {c value text} (char : StringLiteral.isPlain c = true)
      (content : StringContent value text) : StringContent (c :: value) (c :: text)
  | escape {e c value text} (escape : Text.escaped? e = some c)
      (content : StringContent value text) : StringContent (c :: value) ('\\' :: e :: text)
  | codePoint {a b c d e value text} (escape : StringLiteral.codePoint? a b c d = some e)
      (content : StringContent value text) :
      StringContent (e :: value) ('\\' :: 'u' :: a :: b :: c :: d :: text)

/--
What stands after the opening quotes of a block string, and the raw text that it is:
the first three quotes close it unless a backslash is right before them.
-/
inductive BlockContent : List Char → List Char → Prop
  | close : BlockContent [] ['"', '"', '"']
  | quotes {raw text} (content : BlockContent raw text) :
      BlockContent ('"' :: '"' :: '"' :: raw) ('\\' :: '"' :: '"' :: '"' :: text)
  | char {c raw text} (quotes : ¬ ['"', '"', '"'] <+: c :: text)
      (escape : ¬ ['\\', '"', '"', '"'] <+: c :: text) (content : BlockContent raw text) :
      BlockContent (c :: raw) (c :: text)

theorem StringLiteral.body_escape {e c : Char} (h : Text.escaped? e = some c) (cs : List Char) :
    body ('\\' :: e :: cs) = (body cs).map (.prepend [c] ['\\', e]) := by
  rw [body.eq_def]
  split
  · next heq => cases heq
  · next heq =>
      cases heq
      cases h
  · next heq =>
      cases heq
      rw [h]
  · next hne heq =>
      cases heq
      exact (hne _ _ rfl rfl).elim

theorem StringContent.body {value text : List Char} (h : StringContent value text)
    (rest : List Char) :
    StringLiteral.body (text ++ '"' :: rest) = some ⟨value, text ++ ['"'], rest⟩ := by
  induction h with
  | nil => rfl
  | plain char content ih =>
      rw [List.cons_append, StringLiteral.body_plain char, ih]
      rfl
  | escape escape content ih =>
      rw [List.cons_append, List.cons_append, StringLiteral.body_escape escape, ih]
      rfl
  | codePoint escape content ih =>
      simp only [List.cons_append, StringLiteral.body, escape, ih]
      rfl

theorem stringContent_of_body {cs : List Char} {s : Scanned} (h : StringLiteral.body cs = some s) :
    ∃ text, s.text = text ++ ['"'] ∧ StringContent s.value text := by
  fun_induction StringLiteral.body cs generalizing s with
  | case1 => cases h
  | case2 a b c d cs e he ih =>
      obtain ⟨t, ht, rfl⟩ := Option.map_eq_some_iff.1 h
      obtain ⟨text, htext, content⟩ := ih ht
      exact ⟨'\\' :: 'u' :: a :: b :: c :: d :: text, congrArg (['\\', 'u', a, b, c, d] ++ ·) htext,
        .codePoint he content⟩
  | case3 => cases h
  | case4 e cs _ c he ih =>
      obtain ⟨t, ht, rfl⟩ := Option.map_eq_some_iff.1 h
      obtain ⟨text, htext, content⟩ := ih ht
      exact ⟨'\\' :: e :: text, congrArg (['\\', e] ++ ·) htext, .escape he content⟩
  | case5 => cases h
  | case6 c cs _ _ hc ih =>
      obtain ⟨t, ht, rfl⟩ := Option.map_eq_some_iff.1 h
      obtain ⟨text, htext, content⟩ := ih ht
      exact ⟨c :: text, congrArg (c :: ·) htext, .plain hc content⟩
  | case7 =>
      cases h
      exact ⟨[], rfl, .nil⟩
  | case8 => cases h

theorem BlockContent.length_le {raw text : List Char} (h : BlockContent raw text) :
    3 ≤ text.length := by
  induction h with
  | close => exact Nat.le_refl _
  | quotes content ih =>
      simp only [List.length_cons]
      omega
  | char quotes escape content ih => exact Nat.le_succ_of_le ih

/-- The closing quotes are long enough to tell what starts in front of them. -/
theorem BlockContent.prefix_of_append {raw text rest mark : List Char} {c : Char}
    (h : BlockContent raw text) (hmark : mark.length ≤ 4) (hstart : mark <+: c :: (text ++ rest)) :
    mark <+: c :: text := by
  refine List.prefix_of_prefix_length_le hstart (List.prefix_append (c :: text) rest) ?_
  have := h.length_le
  simp only [List.length_cons]
  omega

theorem BlockContent.scan {raw text : List Char} (h : BlockContent raw text) (rest : List Char) :
    BlockString.scan (text ++ rest) = some ⟨raw, text, rest⟩ := by
  induction h with
  | close => rfl
  | quotes content ih =>
      simp only [List.cons_append, BlockString.scan, ih]
      rfl
  | @char c raw text quotes escape content ih =>
      rw [List.cons_append, BlockString.scan.eq_def]
      split
      · next heq => cases heq
      · next cs heq => exact absurd (content.prefix_of_append (by decide) ⟨cs, heq.symm⟩) escape
      · next cs heq => exact absurd (content.prefix_of_append (by decide) ⟨cs, heq.symm⟩) quotes
      · next heq =>
          cases heq
          rw [ih]
          rfl

theorem blockContent_of_scan {cs : List Char} {s : Scanned} (h : BlockString.scan cs = some s) :
    BlockContent s.value s.text := by
  fun_induction BlockString.scan cs generalizing s with
  | case1 => cases h
  | case2 cs ih =>
      obtain ⟨t, ht, rfl⟩ := Option.map_eq_some_iff.1 h
      exact .quotes (ih ht)
  | case3 cs =>
      cases h
      exact .close
  | case4 c cs hescape hquotes ih =>
      obtain ⟨t, ht, rfl⟩ := Option.map_eq_some_iff.1 h
      have happend := BlockString.scan_append ht
      refine .char ?_ ?_ (ih ht)
      · rintro ⟨tail, htail⟩
        obtain ⟨rfl, htext⟩ := List.cons.inj htail
        have htext : '"' :: '"' :: tail = t.text := htext
        exact hquotes (tail ++ t.rest) rfl (by rw [← happend, ← htext]; rfl)
      · rintro ⟨tail, htail⟩
        obtain ⟨rfl, htext⟩ := List.cons.inj htail
        have htext : '"' :: '"' :: '"' :: tail = t.text := htext
        exact hescape (tail ++ t.rest) rfl (by rw [← happend, ← htext]; rfl)

/-- A string that no second quote follows right away is read as a plain one. -/
theorem Piece.string_of_empty {rest : List Char} (h : rest.head? ≠ some '"') :
    string ('"' :: rest) = ⟨some (.string ""), ['"'], rest⟩ := by
  rw [string.eq_def]
  split
  · next heq =>
      cases heq
      exact absurd rfl h
  · next heq =>
      cases heq
      rfl
  · next hne => exact (hne _ rfl).elim

theorem Piece.string_of_literal {cs : List Char} (hquote : cs.head? ≠ some '"') {s : Scanned}
    (h : StringLiteral.literal cs = some s) :
    string cs = ⟨some (.string (String.ofList s.value)), s.text, s.rest⟩ := by
  rw [string.eq_def]
  split
  · exact absurd rfl hquote
  · exact absurd rfl hquote
  · rw [h]

/-- The characters that a token can be. A token that is not valid has no rule. -/
inductive TokenRule : Token → List Char → Prop
  | punct (p : Punctuator) : TokenRule (.punct p) [p.char]
  | name {c cs} (start : isNameStart c = true) (rest : ∀ d ∈ cs, isNameRest d = true) :
      TokenRule (.name (String.ofList (c :: cs))) (c :: cs)
  | directive {c cs} (start : isNameStart c = true) (rest : ∀ d ∈ cs, isNameRest d = true) :
      TokenRule (.directive (String.ofList (c :: cs))) ('@' :: c :: cs)
  | integer {cs} (whole : Text.Number.IsWholePart cs) :
      TokenRule (.integer (String.ofList cs)) cs
  | float {n : Text.Number} (literal : n.IsLiteral) (part : n.fraction ≠ [] ∨ n.exponent ≠ []) :
      TokenRule (.float (String.ofList n.text)) n.text
  | string {value text} (content : StringContent value text) :
      TokenRule (.string (String.ofList value)) ('"' :: (text ++ ['"']))
  | block {raw text} (content : BlockContent raw text) :
      TokenRule (.string (String.ofList (BlockString.dedent raw))) ('"' :: '"' :: '"' :: text)

end Sdl

end SchemaGraph
