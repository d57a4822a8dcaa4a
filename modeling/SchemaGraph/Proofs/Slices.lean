import SchemaGraph.Proofs.Spans

/-!
# Slices that may fail

Where a text is cut by characters, no cut can go wrong. By bytes it can: an offset may be
past the end of the text, or inside a character, and the second offset of a slice may be
smaller than the first. Here the operations on bytes are told with these cases left open.
The result is `none` where there is no such slice, no such difference, or nowhere for a
cursor to go.

What can be cut off is what the text starts with: `cut?` finds the two parts of a text
if, and only if, the offset is the length of the first. So to show that an operation on
bytes does not fail is to show which parts of the text it is about.
-/

namespace SchemaGraph

namespace Text

/-- What is left of `m` without `n`, unless `n` is greater. -/
def sub? (m n : Nat) : Option Nat := if n ≤ m then some (m - n) else none

/-- The parts of a text on either side of an offset at which a character starts or the text ends. -/
def cut? : Nat → List Char → Option (List Char × List Char)
  | 0, cs => some ([], cs)
  | _ + 1, [] => none
  | n + 1, c :: cs =>
    if c.utf8Size ≤ n + 1 then
      (cut? (n + 1 - c.utf8Size) cs).map fun (front, back) => (c :: front, back)
    else none

/-- The text up to an offset. -/
def upTo? (offset : Nat) (cs : List Char) : Option (List Char) := (cut? offset cs).map Prod.fst

/-- The text from an offset on. -/
def from? (offset : Nat) (cs : List Char) : Option (List Char) := (cut? offset cs).map Prod.snd

/-- The text from one offset up to another. -/
def slice? (start stop : Nat) (cs : List Char) : Option (List Char) := do
  let size ← sub? stop start
  upTo? size (← from? start cs)

theorem sub?_add (m n : Nat) : sub? (m + n) m = some n := by
  rw [sub?, if_pos (Nat.le_add_right m n), Nat.add_sub_cancel_left]

theorem sub?_of_le {m n : Nat} (h : n ≤ m) : sub? m n = some (m - n) := if_pos h

theorem cut?_byteLength (before after : List Char) :
    cut? (byteLength before) (before ++ after) = some (before, after) := by
  induction before with
  | nil =>
      rw [byteLength, cut?]
      rfl
  | cons c cs ih =>
      have hpos := c.utf8Size_pos
      obtain ⟨n, hn⟩ : ∃ n, byteLength (c :: cs) = n + 1 := ⟨byteLength (c :: cs) - 1, by
        rw [byteLength]
        omega⟩
      have hrest : n + 1 - c.utf8Size = byteLength cs := by
        rw [← hn, byteLength, Nat.add_sub_cancel_left]
      rw [hn, List.cons_append, cut?, if_pos (by rw [← hn, byteLength]; omega), hrest, ih]
      rfl

/-- A text can be cut at the lengths of what it starts with, and nowhere else. -/
theorem cut?_eq_some_iff {n : Nat} {cs before after : List Char} :
    cut? n cs = some (before, after) ↔ cs = before ++ after ∧ n = byteLength before := by
  constructor
  · intro h
    fun_induction cut? n cs generalizing before with
    | case1 cs =>
        cases h
        exact ⟨rfl, rfl⟩
    | case2 => cases h
    | case3 n c cs hsize ih =>
        obtain ⟨⟨front, back⟩, hcut, hparts⟩ := Option.map_eq_some_iff.1 h
        cases hparts
        obtain ⟨rfl, hn⟩ := ih hcut
        refine ⟨rfl, ?_⟩
        rw [byteLength]
        omega
    | case4 => cases h
  · rintro ⟨rfl, rfl⟩
    exact cut?_byteLength before after

theorem from?_eq_some {n : Nat} {cs after : List Char} (h : from? n cs = some after) :
    ∃ before, cs = before ++ after ∧ n = byteLength before := by
  obtain ⟨⟨before, _⟩, hcut, rfl⟩ := Option.map_eq_some_iff.1 h
  exact ⟨before, cut?_eq_some_iff.1 hcut⟩

theorem from?_byteLength (before after : List Char) :
    from? (byteLength before) (before ++ after) = some after := by
  rw [from?, cut?_byteLength, Option.map_some]

theorem upTo?_byteLength (before after : List Char) :
    upTo? (byteLength before) (before ++ after) = some before := by
  rw [upTo?, cut?_byteLength, Option.map_some]

theorem slice?_byteLength (before found after : List Char) :
    slice? (byteLength before) (byteLength before + byteLength found) (before ++ (found ++ after))
      = some found := by
  simp only [slice?, sub?_add, from?_byteLength, Option.bind_eq_bind, Option.bind_some,
    upTo?_byteLength]

theorem slice?_front (front back : List Char) :
    slice? 0 (byteLength front) (front ++ back) = some front := by
  simpa [byteLength] using slice?_byteLength [] front back

end Text

namespace Sdl

open Text

/-- A lexer at work: the text, and the bytes of it that the token at hand takes so far. -/
structure Cursor where
  text : List Char
  span : Span

namespace Cursor

/-- The text of the token at hand. -/
def slice? (c : Cursor) : Option (List Char) := Text.slice? c.span.start c.span.stop c.text

/-- The text behind the token at hand. -/
def remainder? (c : Cursor) : Option (List Char) := Text.from? c.span.stop c.text

/-- Takes so many more bytes to the token at hand. -/
def bump? (c : Cursor) (n : Nat) : Option Cursor :=
  (Text.cut? (c.span.stop + n) c.text).map fun _ => ⟨c.text, ⟨c.span.start, c.span.stop + n⟩⟩

/-- Starts a token, which takes the characters `found`, behind the one at hand. -/
def next (c : Cursor) (found : List Char) : Cursor :=
  ⟨c.text, ⟨c.span.stop, c.span.stop + byteLength found⟩⟩

/-- The cursor at the token `found`, with `before` in front of it and `after` behind it. -/
def between (before found after : List Char) : Cursor :=
  ⟨before ++ (found ++ after), ⟨byteLength before, byteLength before + byteLength found⟩⟩

section

variable (before found after : List Char)

theorem between_stop :
    (Cursor.between before found after).span.stop = byteLength before + byteLength found := rfl

theorem between_slice? : (Cursor.between before found after).slice? = some found :=
  slice?_byteLength before found after

theorem between_remainder? : (Cursor.between before found after).remainder? = some after := by
  have hfrom := from?_byteLength (before ++ found) after
  rwa [List.append_assoc, byteLength_append] at hfrom

theorem between_bump? (more : List Char) :
    (Cursor.between before found (more ++ after)).bump? (byteLength more)
      = some (Cursor.between before (found ++ more) after) := by
  have hcut := cut?_byteLength (before ++ found ++ more) after
  simp only [byteLength_append, List.append_assoc] at hcut
  simp only [bump?, Cursor.between, hcut, Option.map_some, byteLength_append, List.append_assoc,
    Nat.add_assoc]

theorem between_next (token : List Char) :
    (Cursor.between before found (token ++ after)).next token
      = Cursor.between (before ++ found) token after := by
  simp only [next, Cursor.between, byteLength_append, List.append_assoc]

end

end Cursor

end Sdl

end SchemaGraph
