/-!
# Number literals

A number is written as an optional minus sign, a whole part without leading
zeros, an optional fraction and an optional exponent. Reading takes the longest
such literal at the start of a text: a point or an exponent mark that no digit
follows is not part of it.
-/

namespace SchemaGraph.Text

/-- The three parts of a number literal, as they are written. -/
structure Number where
  whole : List Char
  fraction : List Char
  exponent : List Char
deriving DecidableEq

namespace Number

/-- The literal itself. -/
def text (n : Number) : List Char := n.whole ++ n.fraction ++ n.exponent

/-- Whether there is neither a fraction nor an exponent. -/
def isWhole (n : Number) : Bool := n.fraction.isEmpty && n.exponent.isEmpty

/-- Digits, at least one of them, and what follows. -/
def readDigits? (cs : List Char) : Option (List Char × List Char) :=
  match cs.takeWhile Char.isDigit with
  | [] => none
  | d :: ds => some (d :: ds, cs.dropWhile Char.isDigit)

/-- A whole part without its sign: a single zero, or digits that do not start with one. -/
def readUnsigned? : List Char → Option (List Char × List Char)
  | '0' :: cs => some (['0'], cs)
  | cs => readDigits? cs

/-- A whole part. -/
def readWhole? : List Char → Option (List Char × List Char)
  | '-' :: cs => (readUnsigned? cs).map fun (ds, rest) => ('-' :: ds, rest)
  | cs => readUnsigned? cs

/-- A point and the digits after it. -/
def readFraction? : List Char → Option (List Char × List Char)
  | '.' :: cs => (readDigits? cs).map fun (ds, rest) => ('.' :: ds, rest)
  | _ => none

/-- The digits of an exponent, which may have a sign. -/
def readPower? : List Char → Option (List Char × List Char)
  | '+' :: cs => (readDigits? cs).map fun (ds, rest) => ('+' :: ds, rest)
  | '-' :: cs => (readDigits? cs).map fun (ds, rest) => ('-' :: ds, rest)
  | cs => readDigits? cs

/-- An exponent mark and the power after it. -/
def readExponent? : List Char → Option (List Char × List Char)
  | 'e' :: cs => (readPower? cs).map fun (ds, rest) => ('e' :: ds, rest)
  | 'E' :: cs => (readPower? cs).map fun (ds, rest) => ('E' :: ds, rest)
  | _ => none

/-- What a reader finds, or nothing where it finds none. -/
def optionally (read? : List Char → Option (List Char × List Char)) (cs : List Char) :
    List Char × List Char :=
  match read? cs with
  | some found => found
  | none => ([], cs)

/-- The longest number literal at the start of a text, and what follows it. -/
def read? (cs : List Char) : Option (Number × List Char) :=
  match readWhole? cs with
  | none => none
  | some (whole, afterWhole) =>
    let fraction := optionally readFraction? afterWhole
    let exponent := optionally readExponent? fraction.2
    some (⟨whole, fraction.1, exponent.1⟩, exponent.2)

theorem readDigits?_append {cs ds rest : List Char} (h : readDigits? cs = some (ds, rest)) :
    ds ++ rest = cs := by
  rw [readDigits?] at h
  split at h
  · cases h
  · rename_i d more hd
    cases h
    rw [← hd, List.takeWhile_append_dropWhile]

theorem readUnsigned?_append {cs ds rest : List Char} (h : readUnsigned? cs = some (ds, rest)) :
    ds ++ rest = cs := by
  rw [readUnsigned?.eq_def] at h
  split at h
  · cases h; rfl
  · exact readDigits?_append h

theorem readWhole?_append {cs ds rest : List Char} (h : readWhole? cs = some (ds, rest)) :
    ds ++ rest = cs := by
  rw [readWhole?.eq_def] at h
  split at h
  · obtain ⟨⟨us, r⟩, hu, he⟩ := Option.map_eq_some_iff.1 h
    cases he
    exact congrArg ('-' :: ·) (readUnsigned?_append hu)
  · exact readUnsigned?_append h

theorem readFraction?_append {cs ds rest : List Char} (h : readFraction? cs = some (ds, rest)) :
    ds ++ rest = cs := by
  rw [readFraction?.eq_def] at h
  split at h
  · obtain ⟨⟨us, r⟩, hu, he⟩ := Option.map_eq_some_iff.1 h
    cases he
    exact congrArg ('.' :: ·) (readDigits?_append hu)
  · cases h

theorem readPower?_append {cs ds rest : List Char} (h : readPower? cs = some (ds, rest)) :
    ds ++ rest = cs := by
  rw [readPower?.eq_def] at h
  split at h
  · obtain ⟨⟨us, r⟩, hu, he⟩ := Option.map_eq_some_iff.1 h
    cases he
    exact congrArg ('+' :: ·) (readDigits?_append hu)
  · obtain ⟨⟨us, r⟩, hu, he⟩ := Option.map_eq_some_iff.1 h
    cases he
    exact congrArg ('-' :: ·) (readDigits?_append hu)
  · exact readDigits?_append h

theorem readExponent?_append {cs ds rest : List Char} (h : readExponent? cs = some (ds, rest)) :
    ds ++ rest = cs := by
  rw [readExponent?.eq_def] at h
  split at h
  · obtain ⟨⟨us, r⟩, hu, he⟩ := Option.map_eq_some_iff.1 h
    cases he
    exact congrArg ('e' :: ·) (readPower?_append hu)
  · obtain ⟨⟨us, r⟩, hu, he⟩ := Option.map_eq_some_iff.1 h
    cases he
    exact congrArg ('E' :: ·) (readPower?_append hu)
  · cases h

theorem optionally_append {read? : List Char → Option (List Char × List Char)}
    (h : ∀ {cs ds rest}, read? cs = some (ds, rest) → ds ++ rest = cs) (cs : List Char) :
    (optionally read? cs).1 ++ (optionally read? cs).2 = cs := by
  rw [optionally]
  split
  · rename_i found hf
    exact h hf
  · rfl

theorem read?_append {cs rest : List Char} {n : Number} (h : read? cs = some (n, rest)) :
    n.text ++ rest = cs := by
  rw [read?] at h
  split at h
  · cases h
  · rename_i whole afterWhole hw
    simp only [Option.some.injEq, Prod.mk.injEq] at h
    obtain ⟨rfl, rfl⟩ := h
    simp only [text]
    rw [List.append_assoc, optionally_append readExponent?_append, List.append_assoc,
      optionally_append readFraction?_append]
    exact readWhole?_append hw

theorem readDigits?_ne_nil {cs ds rest : List Char} (h : readDigits? cs = some (ds, rest)) :
    ds ≠ [] := by
  rw [readDigits?] at h
  split at h <;> cases h
  exact List.cons_ne_nil _ _

theorem readUnsigned?_ne_nil {cs ds rest : List Char} (h : readUnsigned? cs = some (ds, rest)) :
    ds ≠ [] := by
  rw [readUnsigned?.eq_def] at h
  split at h
  · cases h; exact List.cons_ne_nil _ _
  · exact readDigits?_ne_nil h

theorem readWhole?_ne_nil {cs ds rest : List Char} (h : readWhole? cs = some (ds, rest)) :
    ds ≠ [] := by
  rw [readWhole?.eq_def] at h
  split at h
  · obtain ⟨⟨us, r⟩, _, he⟩ := Option.map_eq_some_iff.1 h
    cases he
    exact List.cons_ne_nil _ _
  · exact readUnsigned?_ne_nil h

theorem read?_text_ne_nil {cs rest : List Char} {n : Number} (h : read? cs = some (n, rest)) :
    n.text ≠ [] := by
  rw [read?] at h
  split at h
  · cases h
  · rename_i whole afterWhole hw
    simp only [Option.some.injEq, Prod.mk.injEq] at h
    obtain ⟨rfl, rfl⟩ := h
    simp [text, readWhole?_ne_nil hw]

end Number

end SchemaGraph.Text
