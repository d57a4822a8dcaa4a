import SchemaGraph.Proofs.Lists
import SchemaGraph.Proofs.Relexing

/-!
# Lines and columns

A location counts line ends and characters on the way to an offset. A reader goes
the other way: cuts the text into lines, takes the line with the given number and
goes to the given column. Both arrive at the same character, provided that it is
not the second half of a line end; a name never starts with such a character.

The way to a later offset leads on from an earlier one, and a name takes at least
one column, so a place behind the start of a name comes after it.
-/

namespace SchemaGraph

open Sdl

namespace Text

/-- Whether a character is part of a line, and of no line end. -/
def inLine (c : Char) : Bool := c != '\r' && c != '\n'

/-- The lines of a text that goes on a line of which `line` has been read. -/
def linesFrom (line : List Char) : List Char → List (List Char)
  | [] => [line]
  | '\r' :: '\n' :: cs => line :: linesFrom [] cs
  | c :: cs =>
    if c = '\r' ∨ c = '\n' then line :: linesFrom [] cs else linesFrom (line ++ [c]) cs

/-- The lines of a text: a carriage return, a line feed, or the two together end one. -/
def linesOf (text : List Char) : List (List Char) := linesFrom [] text

/--
The lines of a text, without the byte order marks in front of the first. A
carriage return, a line feed, or the two together end a line.
-/
def physicalLines (text : List Char) : List (List Char) :=
  linesFrom [] (text.dropWhile (· = byteOrderMark))

theorem linesFrom_cons {c : Char} (h : c ≠ '\r' ∧ c ≠ '\n') (line cs : List Char) :
    linesFrom line (c :: cs) = linesFrom (line ++ [c]) cs := by
  rw [linesFrom, if_neg (not_or.2 h)]
  exact fun _ hc => absurd hc h.1

/-- A line ends at a carriage return or a line feed, unless it ends one character later. -/
theorem linesFrom_break {c : Char} {cs : List Char} (h : c = '\r' ∨ c = '\n')
    (hcs : c = '\r' → cs.head? ≠ some '\n') (line : List Char) :
    linesFrom line (c :: cs) = line :: linesFrom [] cs := by
  rw [linesFrom, if_pos h]
  rintro rest hc rfl
  exact hcs hc rfl

theorem linesFrom_append {word : List Char} (h : ∀ c ∈ word, c ≠ '\r' ∧ c ≠ '\n')
    (line cs : List Char) : linesFrom line (word ++ cs) = linesFrom (line ++ word) cs := by
  induction word generalizing line with
  | nil => simp
  | cons c word ih =>
      rw [List.cons_append, linesFrom_cons (h c List.mem_cons_self),
        ih fun d hd => h d (List.mem_cons_of_mem _ hd), List.append_assoc]
      rfl

/-- What has been read of a line is how that line begins, and then it goes on to a line end. -/
theorem linesFrom_takeWhile (line cs : List Char) :
    ∃ later, linesFrom line cs = (line ++ cs.takeWhile inLine) :: later := by
  fun_induction linesFrom line cs with
  | case1 line => exact ⟨[], by simp⟩
  | case2 line cs _ => exact ⟨linesFrom [] cs, by simp [inLine]⟩
  | case3 line c cs _ hbreak _ =>
      have hc : inLine c = false := by rcases hbreak with rfl | rfl <;> rfl
      exact ⟨linesFrom [] cs, by simp [hc]⟩
  | case4 line c cs _ hbreak ih =>
      obtain ⟨later, hlater⟩ := ih
      have hc : inLine c = true := by simpa [inLine] using hbreak
      exact ⟨later, by simp [hlater, hc]⟩

/-- Every text is some byte order marks, or none, and what starts with another character. -/
theorem exists_marks (cs : List Char) :
    ∃ ms rest, cs = ms ++ rest ∧ (∀ c ∈ ms, c = byteOrderMark)
      ∧ rest.head? ≠ some byteOrderMark := by
  induction cs with
  | nil => exact ⟨[], [], rfl, by simp, by simp⟩
  | cons c cs ih =>
      by_cases hc : c = byteOrderMark
      · obtain ⟨ms, rest, rfl, hms, hrest⟩ := ih
        exact ⟨c :: ms, rest, rfl, List.forall_mem_cons.2 ⟨hc, hms⟩, hrest⟩
      · exact ⟨[], c :: cs, rfl, by simp, by simpa using hc⟩

theorem physicalLines_append {ms cs : List Char} (hms : ∀ c ∈ ms, c = byteOrderMark)
    (hcs : cs.head? ≠ some byteOrderMark) : physicalLines (ms ++ cs) = linesFrom [] cs := by
  rw [physicalLines, List.dropWhile_append_of_pos fun c hc => decide_eq_true (hms c hc)]
  cases cs with
  | nil => rfl
  | cons c cs =>
      rw [List.dropWhile_cons_of_neg]
      simpa using hcs

example : physicalLines "\uFEFFa\r\nb\r\rc\n".toList = [['a'], ['b'], [], ['c'], []] := by
  decide +kernel

end Text

/-- Whether a word stands at a line and a column of a text. -/
def Place.Shows (p : Place) (text word : List Char) : Prop :=
  0 < p.line ∧ 0 < p.column ∧
    ∃ line, (Text.physicalLines text)[p.line - 1]? = some line ∧ word <+: line.drop (p.column - 1)

/-- Whether a place is on a line before another, or on the same line in a column before it. -/
def Place.Before (p q : Place) : Prop := p.line < q.line ∨ p.line = q.line ∧ p.column < q.column

/-- The line and the column of a location. -/
def Location.place (l : Location) : Place := ⟨l.line, l.column⟩

namespace Place

theorem after_cons {c : Char} (h : c ≠ '\r') (p : Place) (cs : List Char) :
    p.after (c :: cs) = (p.step c).after cs := by
  rw [after]
  exact fun _ hc => absurd hc h

theorem nextLine_ne_origin {p : Place} (h : 0 < p.line) : p.nextLine ≠ origin := by
  rw [nextLine, origin, ne_eq, Place.mk.injEq]
  omega

/-- A character that ends no line takes a column, unless it is a mark at the very start. -/
theorem step_char {p : Place} {c : Char} (h : ¬(c = '\r' ∨ c = '\n'))
    (hmark : p = origin → c ≠ byteOrderMark) : p.step c = ⟨p.line, p.column + 1⟩ := by
  rw [step, if_neg h, if_neg fun hc => hmark hc.2 hc.1]

/-- What is no line end of two characters does not become one if no line feed is appended. -/
theorem whole_append {c : Char} {cs ys : List Char}
    (hend : ∀ rest, c = '\r' → cs = '\n' :: rest → False) (h : ys.head? ≠ some '\n') :
    ∀ rest, c = '\r' → cs ++ ys = '\n' :: rest → False := by
  intro rest hc hrest
  cases cs with
  | nil =>
      rw [List.nil_append] at hrest
      exact h (by rw [hrest]; rfl)
  | cons d cs => exact hend cs hc (by rw [(List.cons.inj hrest).1])

/-- Unless a line end is torn apart, a text is gone through part by part. -/
theorem after_append {ys : List Char} (h : ys.head? ≠ some '\n') (p : Place) (xs : List Char) :
    p.after (xs ++ ys) = (p.after xs).after ys := by
  fun_induction after p xs with
  | case1 p => rfl
  | case2 p cs ih => exact ih
  | case3 p c cs hend ih =>
      rw [← ih, List.cons_append, after]
      exact whole_append hend h

theorem origin_after_marks (ms cs : List Char) (h : ∀ c ∈ ms, c = byteOrderMark) :
    origin.after (ms ++ cs) = origin.after cs := by
  induction ms with
  | nil => rfl
  | cons c ms ih =>
      have hc := h c List.mem_cons_self
      subst hc
      rw [List.cons_append, after_cons (by decide)]
      exact ih fun d hd => h d (List.mem_cons_of_mem _ hd)

section

variable {p q : Place}

theorem Before.trans {r : Place} (h : p.Before q) (h' : q.Before r) : p.Before r := by
  unfold Before at h h' ⊢
  omega

theorem before_nextLine (p : Place) : p.Before p.nextLine := .inl (Nat.lt_succ_self _)

theorem before_nextColumn (p : Place) : p.Before ⟨p.line, p.column + 1⟩ :=
  .inr ⟨rfl, Nat.lt_succ_self _⟩

theorem Before.step (h : p.Before q) (c : Char) : p.Before (q.step c) := by
  unfold Place.step
  split
  · exact h.trans q.before_nextLine
  split
  · exact h
  · exact h.trans q.before_nextColumn

theorem Before.after (h : p.Before q) (cs : List Char) : p.Before (q.after cs) := by
  fun_induction Place.after q cs with
  | case1 q => exact h
  | case2 q cs ih => exact ih (h.trans q.before_nextLine)
  | case3 q c cs _ ih => exact ih (h.step c)

end

/-- The lines from `p` on: those that end before `q`, and the one that goes on there with `rest`. -/
def Reaches (p q : Place) (lines : List (List Char)) (rest : List Char) : Prop :=
  ∃ ended line, lines = ended ++ Text.linesFrom line rest ∧ p.line + ended.length = q.line
    ∧ line.length + 1 = q.column

theorem Reaches.nextLine {p q : Place} {lines : List (List Char)} {rest : List Char}
    (h : p.nextLine.Reaches q lines rest) (line : List Char) :
    p.Reaches q (line :: lines) rest := by
  obtain ⟨ended, line', rfl, hended, hcolumn⟩ := h
  refine ⟨line :: ended, line', rfl, ?_, hcolumn⟩
  rw [← hended, List.length_cons]
  exact (Nat.succ_add_eq_add_succ p.line ended.length).symm

/--
Going through a text ends the lines that are left behind, and the last one is
read up to the column that is reached.
-/
theorem reaches_after {p : Place} {line before rest : List Char} (hline : 0 < p.line)
    (hcolumn : line.length + 1 = p.column) (hmark : p = origin → before.head? ≠ some byteOrderMark)
    (hrest : rest.head? ≠ some '\n') :
    p.Reaches (p.after before) (Text.linesFrom line (before ++ rest)) rest := by
  fun_induction after p before generalizing line with
  | case1 p => exact ⟨[], line, rfl, rfl, hcolumn⟩
  | case2 p cs ih =>
      have hnext := ih (Nat.succ_pos _)
        (show ([] : List Char).length + 1 = p.nextLine.column from rfl)
        fun h => absurd h (nextLine_ne_origin hline)
      rw [List.cons_append, List.cons_append, Text.linesFrom]
      exact hnext.nextLine line
  | case3 p c cs hend ih =>
      rw [List.cons_append, Text.linesFrom]
      · by_cases hbreak : c = '\r' ∨ c = '\n'
        · rw [step, if_pos hbreak] at ih ⊢
          have hnext := ih (Nat.succ_pos _)
            (show ([] : List Char).length + 1 = p.nextLine.column from rfl)
            fun h => absurd h (nextLine_ne_origin hline)
          rw [if_pos hbreak]
          exact hnext.nextLine line
        · have hstep := step_char hbreak fun h hc => hmark h (congrArg some hc)
          rw [hstep] at ih ⊢
          rw [if_neg hbreak]
          refine ih hline (by simp [hcolumn]) fun h => ?_
          rw [origin, Place.mk.injEq] at h
          omega
      · exact whole_append hend hrest

end Place

namespace Sdl

/-- A name's characters neither end a line nor are passed over at the start of a text. -/
theorem isNameRest_ne {c : Char} (h : isNameRest c = true) :
    (c ≠ '\r' ∧ c ≠ '\n') ∧ c ≠ byteOrderMark := by
  refine ⟨⟨?_, ?_⟩, ?_⟩ <;> rintro rfl <;> exact absurd h (by decide)

end Sdl

theorem Place.shows_of_lines {p : Place} {text line word found : List Char}
    {ended later : List (List Char)}
    (hlines : Text.physicalLines text = ended ++ (line ++ word ++ found) :: later)
    (hended : 1 + ended.length = p.line) (hcolumn : line.length + 1 = p.column) :
    p.Shows text word := by
  refine ⟨by omega, by omega, line ++ word ++ found, ?_, ?_⟩
  · rw [hlines, ← hended, Nat.add_sub_cancel_left, List.getElem?_append_right (Nat.le_refl _),
      Nat.sub_self]
    rfl
  · rw [← hcolumn, Nat.add_sub_cancel, List.append_assoc, List.drop_left' rfl]
    exact List.prefix_append word found

/-- Where a name stands, its line and column lead to it. -/
theorem Place.shows_name {word : String} (hword : IsName word) (before after : List Char) :
    (origin.after before).Shows (before ++ (word.toList ++ after)) word.toList := by
  obtain ⟨c, cs, hname, hstart, hrest⟩ := hword.exists_cons
  obtain ⟨hbreak, hmark⟩ := isNameRest_ne (isNameRest_of_start hstart)
  obtain ⟨ms, before, rfl, hms, hbefore⟩ := Text.exists_marks before
  have hhead : (word.toList ++ after).head? = some c := by rw [hname]; rfl
  have hlines : Text.physicalLines (ms ++ before ++ (word.toList ++ after))
      = Text.linesFrom [] (before ++ (word.toList ++ after)) := by
    rw [List.append_assoc]
    refine Text.physicalLines_append hms ?_
    rw [List.head?_append, hhead]
    cases before with
    | nil => simpa using hmark
    | cons d before => simpa using hbefore
  have hreached : origin.Reaches (origin.after before)
      (Text.linesFrom [] (before ++ (word.toList ++ after))) (word.toList ++ after) :=
    reaches_after (Nat.succ_pos 0) rfl (fun _ => hbefore) (by rw [hhead]; simpa using hbreak.2)
  obtain ⟨ended, line, hcut, hended, hcolumn⟩ := hreached
  have hall : ∀ d ∈ word.toList, d ≠ '\r' ∧ d ≠ '\n' := by
    rw [hname, List.forall_mem_cons]
    exact ⟨hbreak, fun d hd => (isNameRest_ne (hrest d hd)).1⟩
  obtain ⟨later, hread⟩ := Text.linesFrom_takeWhile (line ++ word.toList) after
  rw [Text.linesFrom_append hall, hread] at hcut
  rw [origin_after_marks ms before hms]
  exact shows_of_lines (hlines.trans hcut) hended hcolumn

/-- Of two offsets that begin parts of one text, the lesser ends the lesser part in front. -/
theorem Text.exists_append_of_byteLength_lt {before rest before' rest' : List Char}
    (h : before ++ rest = before' ++ rest') (hlt : byteLength before < byteLength before') :
    ∃ c cs, before' = before ++ c :: cs ∧ rest = c :: (cs ++ rest') := by
  rcases List.append_eq_append_iff.1 h with ⟨between, rfl, rfl⟩ | ⟨between, rfl, rfl⟩
  · cases between with
    | nil => simp at hlt
    | cons c cs => exact ⟨c, cs, rfl, rfl⟩
  · rw [byteLength_append] at hlt
    omega

/-- What begins after the start of a name has a place after it. -/
theorem Place.before_of_byteLength_lt {word : String} (hword : IsName word)
    {before after before' rest' : List Char}
    (h : before ++ (word.toList ++ after) = before' ++ rest')
    (hlt : Text.byteLength before < Text.byteLength before') :
    (origin.after before).Before (origin.after before') := by
  obtain ⟨c, cs, hname, hstart, -⟩ := hword.exists_cons
  obtain ⟨hbreak, hmark⟩ := isNameRest_ne (isNameRest_of_start hstart)
  obtain ⟨d, ds, rfl, hrest⟩ := Text.exists_append_of_byteLength_lt h hlt
  rw [hname, List.cons_append, List.cons.injEq] at hrest
  obtain ⟨rfl, -⟩ := hrest
  rw [after_append (by simpa using hbreak.2), after_cons hbreak.1,
    step_char (not_or.2 hbreak) fun _ => hmark]
  exact (before_nextColumn _).after ds

end SchemaGraph
