import SchemaGraph.Proofs.Lists
import SchemaGraph.Proofs.LiteralTexts
import SchemaGraph.Proofs.Slices
import SchemaGraph.Proofs.TokenRules

/-!
# Scanning strings by bytes

A lexer that moves a cursor over bytes can leave the text or stop inside a character, at
every slice that it takes and every time that it moves on. Here the scans of strings are
told with these cases left open: of plain strings, of strings with escapes, of block
strings and the indentation of their lines. They never fail, and they find what is found
by the scans that go over characters.

One form of statement serves all of them: the cursor stands between two parts of the
text, and after the scan it stands between two others. Each loop over offsets is followed
along the text that it has behind it, of which the offset is the length.

A character of indentation is one byte long. That is why indentation may be measured in
bytes and taken off by bytes: also from a blank line, which has no say in how much is
taken off, and is all indentation.
-/

namespace SchemaGraph.Sdl

open Text

namespace BlockString

/-- As `indentOf`: the bytes of the line that are not left when its indentation is trimmed. -/
def indentOf? (line : List Char) : Option Nat :=
  sub? (byteLength line) (byteLength (line.dropWhile isIndent))

/-- As `commonIndent`. -/
def commonIndent? (lines : List (List Char)) : Option Nat :=
  ((lines.filter (!isBlank ·)).mapM indentOf?).map fun indents => indents.min?.getD 0

/-- A line from the byte `indent` on; a line that is shorter has nothing left. -/
def dedentLine? (indent : Nat) (line : List Char) : Option (List Char) :=
  if indent ≤ byteLength line then from? indent line else some []

/-- As `dedentLines`. -/
def dedentLines? : List (List Char) → Option (List (List Char))
  | [] => some []
  | first :: rest => do
    let indent ← commonIndent? rest
    return first :: (← rest.mapM (dedentLine? indent))

/-- As `dedent`. -/
def dedent? (raw : List Char) : Option (List Char) :=
  (dedentLines? (splitLines (unifyLineEnds raw))).map fun lines => joinLines (trimBlank lines)

theorem byteLength_indent {cs : List Char} (h : ∀ c ∈ cs, isIndent c = true) :
    byteLength cs = cs.length := by
  induction cs with
  | nil => rfl
  | cons c cs ih =>
      obtain ⟨hc, hcs⟩ := List.forall_mem_cons.1 h
      have hsize : c.utf8Size = 1 := by
        simp only [isIndent, Bool.or_eq_true, beq_iff_eq] at hc
        rcases hc with rfl | rfl <;> rfl
      rw [byteLength, ih hcs, hsize, List.length_cons, Nat.add_comm]

theorem all_takeWhile_isIndent (line : List Char) :
    ∀ c ∈ line.takeWhile isIndent, isIndent c = true :=
  List.all_eq_true.1 List.all_takeWhile

/-- A line takes as many bytes as what it shows, and as many more as it is indented by. -/
theorem byteLength_line (line : List Char) :
    byteLength line = byteLength (line.dropWhile isIndent) + indentOf line := by
  rw [indentOf, ← byteLength_indent (all_takeWhile_isIndent line), Nat.add_comm,
    ← byteLength_append, List.takeWhile_append_dropWhile]

theorem indentOf?_eq (line : List Char) : indentOf? line = some (indentOf line) := by
  rw [indentOf?, byteLength_line, sub?_add]

theorem commonIndent?_eq (lines : List (List Char)) :
    commonIndent? lines = some (commonIndent lines) := by
  rw [commonIndent?, mapM_eq_some fun line _ => indentOf?_eq line]
  rfl

theorem commonIndent_le {lines : List (List Char)} {line : List Char} (h : line ∈ lines)
    (hblank : isBlank line = false) : commonIndent lines ≤ indentOf line := by
  have hmem : indentOf line ∈ (lines.filter (!isBlank ·)).map indentOf :=
    List.mem_map_of_mem (List.mem_filter.2 ⟨h, by rw [hblank]; rfl⟩)
  rw [commonIndent]
  cases hmin : ((lines.filter (!isBlank ·)).map indentOf).min? with
  | none => exact Nat.zero_le _
  | some least => exact (List.min?_eq_some_iff.1 hmin).2 _ hmem

/-- Within the indentation of a line there is a character at every byte. -/
theorem from?_indent {n : Nat} {line : List Char} (h : n ≤ indentOf line) :
    from? n line = some (line.drop n) := by
  have htake : line.take n = (line.takeWhile isIndent).take n := by
    conv => lhs; rw [← List.takeWhile_append_dropWhile (p := isIndent) (l := line)]
    exact List.take_append_of_le_length h
  have hbytes : byteLength (line.take n) = n := by
    rw [htake, byteLength_indent fun c hc =>
      all_takeWhile_isIndent line c (List.mem_of_mem_take hc), List.length_take]
    exact Nat.min_eq_left h
  have hfrom := from?_byteLength (line.take n) (line.drop n)
  rwa [List.take_append_drop, hbytes] at hfrom

theorem byteLength_blank {line : List Char} (h : isBlank line = true) :
    byteLength line = indentOf line := by
  have hall : ∀ c ∈ line, isIndent c = true := List.all_eq_true.1 h
  have htake := takeWhile_append_stops hall (stops_nil isIndent)
  rw [List.append_nil] at htake
  rw [byteLength_indent hall, indentOf, htake]

theorem dedentLine?_eq {n : Nat} {line : List Char}
    (h : isBlank line = false → n ≤ indentOf line) : dedentLine? n line = some (line.drop n) := by
  rw [dedentLine?]
  by_cases hn : n ≤ indentOf line
  · have hle : indentOf line ≤ byteLength line := by
      rw [byteLength_line]
      exact Nat.le_add_left _ _
    rw [if_pos (Nat.le_trans hn hle), from?_indent hn]
  · -- Only a blank line can be shorter than what is taken off.
    have hblank : isBlank line = true := by
      cases hline : isBlank line with
      | true => rfl
      | false => exact absurd (h hline) hn
    rw [if_neg (byteLength_blank hblank ▸ hn), List.drop_eq_nil_of_le]
    rw [← byteLength_indent (List.all_eq_true.1 hblank), byteLength_blank hblank]
    omega

theorem dedent?_eq (raw : List Char) : dedent? raw = some (dedent raw) := by
  have hlines : ∀ lines, dedentLines? lines = some (dedentLines lines) := by
    rintro (_ | ⟨first, rest⟩)
    · rfl
    · have hrest := mapM_eq_some fun line (hline : line ∈ rest) =>
        dedentLine?_eq (commonIndent_le hline)
      simp only [dedentLines?, commonIndent?_eq, Option.bind_eq_bind, Option.bind_some, hrest]
      rfl
  rw [dedent?, hlines, Option.map_some, dedent]

end BlockString

/-! ## Scans with offsets

Which scan reads a string is told by the quotes at the cursor. A plain one is gone over
with its bytes counted, and at its first escape it is handed over to a scan with a cursor
of its own, which is inside what is left of the text and moves by parts. Each scan may
fail in two ways that must not be mixed up, and that is why there are two options in its
result: the outer one is empty if a cut goes wrong, the inner one if the string cannot be
read. -/

/-- Where the cursor is after a string, and the value of the string if it can be read. -/
abbrev Attempt : Type := Cursor × Option (List Char)

/--
Scans a block string from the byte `index` of what is left of the text on, after the raw
text `raw`.
-/
def block? (cursor : Cursor) (remainder raw : List Char) (index : Nat) : Option Attempt :=
  match h : from? index remainder with
  | none => none
  | some ('\\' :: '"' :: '"' :: '"' :: _) =>
    block? cursor remainder (raw ++ ['"', '"', '"']) (index + 4)
  | some ('"' :: '"' :: '"' :: _) => do
    let cursor ← cursor.bump? (index + 3)
    return (cursor, some (← BlockString.dedent? raw))
  | some (c :: _) => block? cursor remainder (raw ++ [c]) (index + c.utf8Size)
  | some [] => some (cursor, none)
termination_by byteLength remainder - index
decreasing_by
  all_goals
    obtain ⟨front, rfl, rfl⟩ := from?_eq_some h
    rw [byteLength_append, byteLength]
  · have hslash : Char.utf8Size '\\' = 1 := rfl
    omega
  · have hpos := Char.utf8Size_pos ‹_›
    omega

/-- The kinds of parts that a string with escapes is made of. -/
inductive StringPart where
  | text
  | codePoint
  | escape (c : Char)
  | close

namespace StringPart

/-- The part that comes first: its kind, its text, and what follows. -/
def read? : List Char → Option (StringPart × List Char × List Char)
  | [] => none
  | '\\' :: 'u' :: a :: b :: c :: d :: cs =>
    if (hexNumber? a b c d).isSome then some (.codePoint, ['\\', 'u', a, b, c, d], cs) else none
  | '\\' :: e :: cs => (escaped? e).map fun c => (.escape c, ['\\', e], cs)
  | c :: cs =>
    if StringLiteral.isPlain c then
      some (.text, c :: cs.takeWhile StringLiteral.isPlain, cs.dropWhile StringLiteral.isPlain)
    else if c = '"' then some (.close, ['"'], cs)
    else none

/-- What a part with the text `found` stands for: a code point without its first two characters. -/
def value? (found : List Char) : StringPart → Option (Option (List Char))
  | text => some (some found)
  | codePoint =>
    (from? 2 found).map fun
      | [a, b, c, d] => (StringLiteral.codePoint? a b c d).map ([·])
      | _ => none
  | escape c => some (some [c])
  | close => some (some [])

theorem read?_append {cs found rest : List Char} {part : StringPart}
    (h : read? cs = some (part, found, rest)) : found ++ rest = cs ∧ found ≠ [] := by
  rw [read?.eq_def] at h
  split at h
  · cases h
  · split at h
    · cases h
      exact ⟨rfl, List.cons_ne_nil _ _⟩
    · cases h
  · obtain ⟨e, -, hparts⟩ := Option.map_eq_some_iff.1 h
    cases hparts
    exact ⟨rfl, List.cons_ne_nil _ _⟩
  · split at h
    · cases h
      exact ⟨congrArg _ List.takeWhile_append_dropWhile, List.cons_ne_nil _ _⟩
    split at h
    · next hquote =>
        cases h
        exact ⟨hquote ▸ rfl, List.cons_ne_nil _ _⟩
    · cases h

end StringPart

/--
Scans a string with escapes to its closing quote. The cursor `sub` is inside what is left
of the text, at the part that has been read last, with `cs` behind it.
-/
def escapedFrom? (cursor sub : Cursor) (output cs : List Char) : Option Attempt :=
  match _h : StringPart.read? cs with
  | none => some (cursor, none)
  | some (.close, found, _) =>
    (cursor.bump? (sub.next found).span.stop).map fun cursor => (cursor, some output)
  | some (part, found, rest) =>
    match (sub.next found).slice?.bind part.value? with
    | none => none
    | some none => some (cursor, none)
    | some (some value) => escapedFrom? cursor (sub.next found) (output ++ value) rest
termination_by cs.length
decreasing_by
  have hpos := List.length_pos_iff.2 (StringPart.read?_append _h).2
  rw [← (StringPart.read?_append _h).1, List.length_append]
  omega

/-- Scans what is left of a string from its first escape on, after the text `output`. -/
def escapedString? (cursor : Cursor) (output : List Char) : Option Attempt := do
  let remainder ← cursor.remainder?
  escapedFrom? cursor ⟨remainder, ⟨0, 0⟩⟩ output remainder

/-- Scans a string without escapes. Behind the byte `index` of what is left, there is `cs`. -/
def plain? (cursor : Cursor) (remainder : List Char) (index : Nat) :
    List Char → Option Attempt
  | [] => some (cursor, none)
  | c :: cs =>
    if c = '\n' ∨ c = '\r' then some (cursor, none)
    else if c = '\\' then do
      let cursor ← cursor.bump? index
      escapedString? cursor (← slice? 0 index remainder)
    else if c = '"' then do
      let cursor ← cursor.bump? (index + 1)
      return (cursor, some (← slice? 0 index remainder))
    else plain? cursor remainder (index + c.utf8Size) cs

/-- Scans what starts with the quotes at the cursor. -/
def string? (cursor : Cursor) : Option Attempt := do
  let remainder ← cursor.remainder?
  match ← cursor.slice? with
  | ['"', '"'] => return (cursor, some [])
  | ['"', '"', '"'] => block? cursor remainder [] 0
  | ['"'] => plain? cursor remainder 0 remainder
  | _ => return (cursor, none)

section

variable {cursor : Cursor} {remainder raw cs : List Char} {index : Nat}

theorem block?_quotes (h : from? index remainder = some ('\\' :: '"' :: '"' :: '"' :: cs)) :
    block? cursor remainder raw index
      = block? cursor remainder (raw ++ ['"', '"', '"']) (index + 4) := by
  rw [block?.eq_def]
  split
  · next heq => cases h.symm.trans heq
  · rfl
  · next heq => cases h.symm.trans heq
  · next hne _ heq =>
      cases h.symm.trans heq
      exact (hne _ rfl rfl).elim
  · next heq => cases h.symm.trans heq

theorem block?_close (h : from? index remainder = some ('"' :: '"' :: '"' :: cs)) :
    block? cursor remainder raw index
      = (cursor.bump? (index + 3)).map fun cursor => (cursor, some (BlockString.dedent raw)) := by
  rw [block?.eq_def]
  split
  · next heq => cases h.symm.trans heq
  · next heq => cases h.symm.trans heq
  · simp only [BlockString.dedent?_eq, Option.bind_eq_bind, Option.bind_some]
    exact Option.map_eq_bind.symm
  · next hne heq =>
      cases h.symm.trans heq
      exact (hne _ rfl rfl).elim
  · next heq => cases h.symm.trans heq

theorem block?_char {c : Char} (h : from? index remainder = some (c :: cs))
    (hescape : ∀ tail, c = '\\' → cs ≠ '"' :: '"' :: '"' :: tail)
    (hclose : ∀ tail, c = '"' → cs ≠ '"' :: '"' :: tail) :
    block? cursor remainder raw index
      = block? cursor remainder (raw ++ [c]) (index + c.utf8Size) := by
  rw [block?.eq_def]
  split
  · next heq => cases h.symm.trans heq
  · next heq =>
      cases h.symm.trans heq
      exact (hescape _ rfl rfl).elim
  · next heq =>
      cases h.symm.trans heq
      exact (hclose _ rfl rfl).elim
  · next heq =>
      cases h.symm.trans heq
      rfl
  · next heq => cases h.symm.trans heq

theorem block?_nil (h : from? index remainder = some []) :
    block? cursor remainder raw index = some (cursor, none) := by
  rw [block?.eq_def]
  split <;> simp_all

end

section

variable (before found : List Char)

theorem block?_eq (front rest raw : List Char) :
    block? (.between before found (front ++ rest)) (front ++ rest) raw (byteLength front)
      = some ((BlockString.scan rest).elim (.between before found (front ++ rest), none) fun s =>
        (.between before (found ++ (front ++ s.text)) s.rest,
          some (BlockString.dedent (raw ++ s.value)))) := by
  fun_induction BlockString.scan rest generalizing raw front with
  | case1 => exact block?_nil (from?_byteLength front [])
  | case2 cs ih =>
      have hrest := ih (front ++ ['\\', '"', '"', '"']) (raw ++ ['"', '"', '"'])
      rw [List.append_assoc, byteLength_append] at hrest
      rw [block?_quotes (from?_byteLength front _)]
      refine hrest.trans ?_
      cases BlockString.scan cs with
      | none => rfl
      | some s => simp [Scanned.prepend]
  | case3 cs =>
      have hbump := Cursor.between_bump? before found cs (front ++ ['"', '"', '"'])
      rw [List.append_assoc, byteLength_append] at hbump
      rw [block?_close (from?_byteLength front _)]
      exact (congrArg _ hbump).trans (by simp)
  | case4 c cs hescape hclose ih =>
      have hrest := ih (front ++ [c]) (raw ++ [c])
      rw [List.append_assoc, byteLength_append] at hrest
      rw [block?_char (from?_byteLength front _) hescape hclose]
      refine hrest.trans ?_
      cases BlockString.scan cs with
      | none => rfl
      | some s => simp [Scanned.prepend]

end

/-- A string goes on with its parts as it does with its characters. -/
theorem StringLiteral.body_run {plain : List Char} (h : ∀ c ∈ plain, isPlain c = true)
    (rest : List Char) : body (plain ++ rest) = (body rest).map (.prepend plain plain) := by
  induction plain with
  | nil => exact (congrFun Option.map_id_fun' _).symm
  | cons c plain ih =>
      obtain ⟨hc, hplain⟩ := List.forall_mem_cons.1 h
      rw [List.cons_append, body_plain hc, ih hplain, Option.map_map]
      rfl

/-- Where no part comes next, the string cannot be read. -/
theorem StringPart.body_none {cs : List Char} (h : read? cs = none) :
    StringLiteral.body cs = none := by
  rw [read?.eq_def] at h
  split at h
  · rfl
  · next a b c d cs =>
      split at h
      · cases h
      · next hnumber =>
          rw [Option.not_isSome_iff_eq_none] at hnumber
          simp only [StringLiteral.body, StringLiteral.codePoint?, hnumber, Option.bind_none]
  · next e cs hne =>
      have he := Option.map_eq_none_iff.1 h
      rw [StringLiteral.body.eq_def]
      split
      · rfl
      · next heq =>
          cases heq
          exact (hne _ _ _ _ _ rfl rfl).elim
      · next heq =>
          cases heq
          rw [he]
      · next hslash heq =>
          cases heq
          exact (hslash _ _ rfl rfl).elim
  · next c cs _ hslash =>
      split at h
      · cases h
      next hplain =>
      split at h
      · cases h
      next hquote =>
      rw [StringLiteral.body.eq_def]
      split
      · rfl
      · next heq =>
          cases heq
          exact (hslash _ _ rfl rfl).elim
      · next heq =>
          cases heq
          exact (hslash _ _ rfl rfl).elim
      · next heq =>
          cases heq
          rw [if_neg hplain, if_neg hquote]

theorem StringPart.body_close {cs found rest : List Char}
    (h : read? cs = some (.close, found, rest)) :
    StringLiteral.body cs = some ⟨[], found, rest⟩ := by
  rw [read?.eq_def] at h
  split at h
  · cases h
  · split at h <;> cases h
  · obtain ⟨c, -, hparts⟩ := Option.map_eq_some_iff.1 h
    cases hparts
  · split at h
    · cases h
    split at h
    · next hquote =>
        cases h
        rw [hquote]
        rfl
    · cases h

/-- The value of a part, and how the string goes on behind it. -/
theorem StringPart.body_eq {cs found rest : List Char} {part : StringPart}
    (h : read? cs = some (part, found, rest)) (hpart : part ≠ .close) :
    ∃ value, part.value? found = some value ∧ StringLiteral.body cs
      = value.bind fun v => (StringLiteral.body rest).map (.prepend v found) := by
  rw [read?.eq_def] at h
  split at h
  · cases h
  · next a b c d cs =>
      split at h
      · cases h
        refine ⟨(StringLiteral.codePoint? a b c d).map ([·]), rfl, ?_⟩
        simp only [StringLiteral.body]
        cases StringLiteral.codePoint? a b c d with
        | none => rfl
        | some e => rfl
      · cases h
  · next e cs _ =>
      obtain ⟨c, hc, hparts⟩ := Option.map_eq_some_iff.1 h
      cases hparts
      exact ⟨_, rfl, StringLiteral.body_escape hc rest⟩
  · next c cs _ _ =>
      split at h
      · next hc =>
          cases h
          refine ⟨_, rfl, ?_⟩
          have hrun := List.all_takeWhile (p := StringLiteral.isPlain) (l := cs)
          have hbody := StringLiteral.body_run
            (List.forall_mem_cons.2 ⟨hc, List.all_eq_true.1 hrun⟩)
            (cs.dropWhile StringLiteral.isPlain)
          rwa [List.cons_append, List.takeWhile_append_dropWhile] at hbody
      split at h
      · cases h
        exact absurd rfl hpart
      · cases h

section

variable (before found : List Char)

theorem escapedFrom?_eq (front part cs output : List Char) :
    escapedFrom? (.between before found (front ++ (part ++ cs))) (.between front part cs) output cs
      = some ((StringLiteral.body cs).elim (.between before found (front ++ (part ++ cs)), none)
        fun s => (.between before (found ++ (front ++ (part ++ s.text))) s.rest,
          some (output ++ s.value))) := by
  induction hn : cs.length using Nat.strongRecOn generalizing front part cs output with
  | ind n ih =>
      rw [escapedFrom?.eq_def]
      split
      · next hread => rw [StringPart.body_none hread]; rfl
      · next closing rest hread =>
          obtain ⟨rfl, -⟩ := StringPart.read?_append hread
          have hbump := Cursor.between_bump? before found rest (front ++ part ++ closing)
          simp only [byteLength_append, List.append_assoc] at hbump
          rw [StringPart.body_close hread, Cursor.between_next, Cursor.between_stop,
            byteLength_append, Nat.add_assoc, hbump, Option.map_some, Option.elim_some,
            List.append_nil]
      · next kind taken rest hkind hread =>
          obtain ⟨rfl, htaken⟩ := StringPart.read?_append hread
          obtain ⟨value, hvalue, hbody⟩ := StringPart.body_eq hread hkind
          have hnext := Cursor.between_next front part rest taken
          have hslice : (Cursor.between (front ++ part) taken rest).slice?.bind kind.value?
              = some value := by
            rw [Cursor.between_slice?, Option.bind_some]
            exact hvalue
          rw [hbody, hnext, hslice]
          cases value with
          | none => rfl
          | some v =>
              have hshorter : rest.length < n := by
                have hpos := List.length_pos_iff.2 htaken
                rw [← hn, List.length_append]
                omega
              have hrest := ih _ hshorter (front ++ part) taken rest (output ++ v) rfl
              rw [List.append_assoc] at hrest
              refine hrest.trans ?_
              cases StringLiteral.body rest with
              | none => rfl
              | some s => simp [Scanned.prepend]

theorem plain?_run {cursor : Cursor} {remainder plain : List Char}
    (h : ∀ c ∈ plain, StringLiteral.isPlain c = true) (index : Nat) (rest : List Char) :
    plain? cursor remainder index (plain ++ rest)
      = plain? cursor remainder (index + byteLength plain) rest := by
  induction plain generalizing index with
  | nil => rfl
  | cons c plain ih =>
      obtain ⟨hc, hplain⟩ := List.forall_mem_cons.1 h
      simp only [StringLiteral.isPlain, Bool.and_eq_true, bne_iff_ne] at hc
      obtain ⟨⟨⟨hquote, hslash⟩, hfeed⟩, hreturn⟩ := hc
      rw [List.cons_append, plain?, if_neg (not_or.2 ⟨hfeed, hreturn⟩), if_neg hslash,
        if_neg hquote, ih hplain, byteLength, Nat.add_assoc]

theorem plain?_eq (cs : List Char) :
    plain? (.between before ['"'] cs) cs 0 cs
      = some ((StringLiteral.literal cs).elim
        (.between before ('"' :: (StringLiteral.broken cs).1) (StringLiteral.broken cs).2, none)
        fun s => (.between before ('"' :: s.text) s.rest, some s.value)) := by
  have hplain := List.all_eq_true.1 (List.all_takeWhile (p := StringLiteral.isPlain) (l := cs))
  have hcut := List.takeWhile_append_dropWhile (p := StringLiteral.isPlain) (l := cs)
  have hstop := List.head?_dropWhile_not StringLiteral.isPlain cs
  rw [StringLiteral.literal, StringLiteral.broken]
  generalize cs.takeWhile StringLiteral.isPlain = plain at *
  generalize cs.dropWhile StringLiteral.isPlain = rest at *
  subst hcut
  rw [plain?_run hplain, Nat.zero_add]
  cases rest with
  | nil => rfl
  | cons c rest =>
      by_cases hquote : c = '"'
      · subst hquote
        have hbump := Cursor.between_bump? before ['"'] rest (plain ++ ['"'])
        rw [List.append_assoc, byteLength_append] at hbump
        have hbump : Cursor.bump? (.between before ['"'] (plain ++ '"' :: rest))
            (byteLength plain + 1) = some (.between before ('"' :: (plain ++ ['"'])) rest) := hbump
        rw [plain?, if_neg (by decide), if_neg (by decide), if_pos rfl]
        simp only [hbump, slice?_front, Option.bind_eq_bind, Option.bind_some]
        rfl
      by_cases hslash : c = '\\'
      · subst hslash
        have hbump := Cursor.between_bump? before ['"'] ('\\' :: rest) plain
        have hescaped := escapedFrom?_eq before ('"' :: plain) [] [] ('\\' :: rest) plain
        rw [plain?, if_neg (by decide), if_pos rfl]
        simp only [hbump, slice?_front, Option.bind_eq_bind, Option.bind_some, escapedString?,
          Cursor.between_remainder?]
        refine hescaped.trans ?_
        show _ = some (((StringLiteral.body ('\\' :: rest)).map _).elim _ _)
        cases StringLiteral.body ('\\' :: rest) with
        | none => rfl
        | some s => rfl
      -- What is neither plain nor a quote nor a backslash ends the line.
      · have hend : c = '\n' ∨ c = '\r' := by
          simp only [List.head?_cons, StringLiteral.isPlain, Bool.and_eq_false_iff] at hstop
          simpa [hquote, hslash] using hstop
        rw [plain?, if_pos hend]
        simp [hquote, hslash]

end

end SchemaGraph.Sdl
