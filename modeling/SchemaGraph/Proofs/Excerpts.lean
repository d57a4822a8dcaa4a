import SchemaGraph.Proofs.Causes
import SchemaGraph.Proofs.Dedenting

/-!
# The lines of an excerpt

A location counts all line ends in front of a token, and an excerpt cuts the text at line
feeds alone. So the last row above the carets is the line of the location, with its number,
only if no carriage return in front of the token is on its own; and what the row shows goes
on behind the end of the line if it is a carriage return. Moreover, an empty line at the end
of the text is not shown, and then the carets are below the line in front of it. Nothing
else is amiss.

What both have in common is the text in front of the token. Its lines are told in two ways,
by `linesOf` and by `splitLines`; as long as no carriage return is on its own they are the
same (`linesOf_eq_splitLines`), and the lines of the whole text go on from there.
-/

namespace SchemaGraph

open Text Sdl

namespace Text

/-- How many carriage returns of a text have no line feed behind them. -/
def loneReturns : List Char → Nat
  | [] => 0
  | '\r' :: '\n' :: cs => loneReturns cs
  | c :: cs => (if c = '\r' then 1 else 0) + loneReturns cs

/-- Whatever follows a text, the lines that end in it are those, and the last one goes on. -/
theorem exists_ended (line cs : List Char) : ∃ ended lead, linesFrom line cs = ended ++ [lead]
    ∧ ended.length = cs.count '\n' + loneReturns cs ∧ lead <:+ line ++ cs
    ∧ ∀ rest, rest.head? ≠ some '\n' →
      linesFrom line (cs ++ rest) = ended ++ linesFrom lead rest := by
  fun_induction linesFrom line cs with
  | case1 line => exact ⟨[], line, rfl, rfl, by simp, fun _ _ => rfl⟩
  | case2 line cs ih =>
      obtain ⟨ended, lead, hlines, hended, hlead, hrest⟩ := ih
      refine ⟨line :: ended, lead, by rw [hlines]; rfl, ?_, ?_, fun rest hhead => ?_⟩
      · simp [loneReturns, hended]
        omega
      · exact hlead.trans ⟨line ++ ['\r', '\n'], by simp⟩
      · rw [List.cons_append, List.cons_append, linesFrom, hrest rest hhead]
        rfl
  | case3 line c cs hend hbreak ih =>
      obtain ⟨ended, lead, hlines, hended, hlead, hrest⟩ := ih
      refine ⟨line :: ended, lead, by rw [hlines]; rfl, ?_, ?_, fun rest hhead => ?_⟩
      · rw [List.length_cons, hended, loneReturns]
        · rcases hbreak with rfl | rfl <;> simp <;> omega
        · exact hend
      · exact hlead.trans ⟨line ++ [c], by simp⟩
      · rw [List.cons_append, linesFrom, if_pos hbreak, hrest rest hhead]
        · rfl
        · exact Place.whole_append hend hhead
  | case4 line c cs hend hbreak ih =>
      obtain ⟨ended, lead, hlines, hended, hlead, hrest⟩ := ih
      obtain ⟨hreturn, hfeed⟩ := not_or.1 hbreak
      refine ⟨ended, lead, hlines, ?_, by simpa using hlead, fun rest hhead => ?_⟩
      · rw [hended, loneReturns, if_neg hreturn, List.count_cons_of_ne hfeed, Nat.zero_add]
        exact hend
      · rw [List.cons_append, linesFrom_cons ⟨hreturn, hfeed⟩, hrest rest hhead]

theorem dropReturn_cons {c : Char} (h : c ≠ '\r') (line : List Char) :
    dropReturn (c :: line) = c :: dropReturn line := by
  cases line with
  | nil => simp [dropReturn, h]
  | cons d line =>
      rw [dropReturn, dropReturn, List.getLast?_cons_cons]
      split <;> rfl

/-- Without carriage returns on their own, only line feeds end lines. -/
theorem linesOf_eq_splitLines {cs : List Char} (h : loneReturns cs = 0) :
    linesOf cs = (splitLines cs).map dropReturn := by
  rw [BlockString.linesOf_eq]
  fun_induction loneReturns cs with
  | case1 => rfl
  | case2 cs ih =>
      rw [BlockString.unifyLineEnds, splitLines, if_pos rfl, ih h]
      simp [splitLines, dropReturn]
  | case3 c cs hend ih =>
      have hc : c ≠ '\r' := by
        rintro rfl
        simp at h
      rw [if_neg hc, Nat.zero_add] at h
      have hlater := ih h
      rw [BlockString.unifyLineEnds, if_neg hc, splitLines, splitLines, hlater]
      · by_cases hfeed : c = '\n'
        · rw [if_pos hfeed, if_pos hfeed]
          rfl
        · rw [if_neg hfeed, if_neg hfeed]
          cases splitLines cs with
          | nil => simp [dropReturn, hc]
          | cons line lines => simp [dropReturn_cons hc]
      · exact hend

theorem getLast?_ne_return {cs : List Char} (h : loneReturns cs = 0) :
    cs.getLast? ≠ some '\r' := by
  fun_induction loneReturns cs with
  | case1 => simp
  | case2 cs ih =>
      intro hlast
      cases cs with
      | nil => simp at hlast
      | cons d cs => exact ih h (by simpa using hlast)
  | case3 c cs hend ih =>
      intro hlast
      cases cs with
      | nil =>
          obtain rfl : c = '\r' := by simpa using hlast
          simp at h
      | cons d cs => exact ih (Nat.eq_zero_of_add_eq_zero_left h) (by simpa using hlast)

theorem joinLines_append (above : List (List Char)) (line cs : List Char) :
    joinLines (above ++ [line]) ++ cs = joinLines (above ++ [line ++ cs]) := by
  induction above with
  | nil => rfl
  | cons first above ih =>
      cases above with
      | nil => simp [joinLines]
      | cons second above =>
          simp only [List.cons_append, joinLines, List.append_assoc] at ih ⊢
          rw [ih]

theorem splitLines_append_more {above : List (List Char)} {line more : List Char}
    (hlines : ∀ l ∈ above ++ [line], '\n' ∉ l) (hmore : '\n' ∉ more) :
    splitLines (joinLines (above ++ [line]) ++ more) = above ++ [line ++ more] := by
  rw [joinLines_append]
  refine splitLines_joinLines (by simp) fun l hl => ?_
  rcases List.mem_append.1 hl with hl | hl
  · exact hlines l (List.mem_append_left _ hl)
  · obtain rfl := List.mem_singleton.1 hl
    rw [List.mem_append, not_or]
    exact ⟨hlines line (List.mem_append_right _ List.mem_cons_self), hmore⟩

/-- The last line of a text, and those above it, which line feeds end. -/
theorem exists_splitLines (cs : List Char) : ∃ above line, splitLines cs = above ++ [line]
    ∧ above.length = cs.count '\n' ∧ (∀ l ∈ above ++ [line], '\n' ∉ l) ∧ line <:+ cs
    ∧ (line = [] ↔ ∀ c ∈ cs.getLast?, c = '\n') := by
  have hfeeds : ∀ l ∈ splitLines cs, '\n' ∉ l := fun l hl hfeed =>
    (mem_of_mem_splitLines hl hfeed).2 rfl
  have hlength := length_splitLines cs
  have hlast : ∀ {line : List Char}, '\n' ∉ line →
      (line = [] ↔ ∀ c ∈ line.getLast?, c = '\n') := by
    intro line hline
    refine ⟨fun hnil => by simp [hnil], fun hall => List.getLast?_eq_none_iff.1 ?_⟩
    rw [Option.eq_none_iff_forall_ne_some]
    intro c hc
    exact hline (hall c hc ▸ List.mem_of_getLast? hc)
  rcases exists_lastLine cs with hline | ⟨front, line, rfl, hline⟩
  · rw [splitLines_line hline] at hfeeds hlength
    exact ⟨[], cs, splitLines_line hline, Nat.succ.inj hlength, hfeeds, List.suffix_refl cs,
      hlast hline⟩
  · have hlines : splitLines (front ++ '\n' :: line) = splitLines front ++ [line] := by
      rw [splitLines_append, splitLines_line hline]
    rw [hlines] at hfeeds hlength
    refine ⟨splitLines front, line, hlines, by simpa using hlength, hfeeds,
      ⟨front ++ ['\n'], by simp⟩, ?_⟩
    cases line with
    | nil => simp
    | cons c line => simpa using hlast hline

theorem shownLines_eq {cs line : List Char} {above : List (List Char)}
    (h : splitLines cs = above ++ [line]) :
    shownLines cs = above.map dropReturn ++ (if line = [] then [] else [line]) := by
  rw [shownLines, h]
  simp only [List.dropLast_concat, List.getLast?_concat]
  cases line <;> simp

end Text

theorem Place.after_line (p : Place) (cs : List Char) :
    (p.after cs).line = p.line + (cs.count '\n' + loneReturns cs) := by
  fun_induction Place.after p cs with
  | case1 p => rfl
  | case2 p cs ih =>
      rw [ih, nextLine, loneReturns]
      simp
      omega
  | case3 p c cs hend ih =>
      rw [ih, loneReturns, step]
      · by_cases hbreak : c = '\r' ∨ c = '\n'
        · rw [if_pos hbreak, nextLine]
          rcases hbreak with rfl | rfl <;> simp <;> omega
        · obtain ⟨hreturn, hfeed⟩ := not_or.1 hbreak
          rw [if_neg hbreak, if_neg hreturn, List.count_cons_of_ne hfeed, Nat.zero_add]
          split <;> rfl
      · exact hend

/--
What an excerpt shows above the carets: of the lines that line feeds end, that with `found`
on it and the one above it, with their numbers.
-/
def excerptRows (before found after : List Char) : List (List Char × Nat) :=
  ((shownLines (before ++ (found ++ after.takeWhile (· != '\n')))).zipIdx 1).drop
    (before.count '\n' - 1)

/-- A row as it is printed. -/
def rowText (width : Nat) (row : List Char × Nat) : String := numberedLine width row.2 row.1

/-- What is printed below the rows: carets under `found`, or where it would stand. -/
def underline (width : Nat) (before found : List Char) : String :=
  blanks (width + 1) ++ " | " ++ blanks (byteLength ((splitLines before).getLast?.getD []))
    ++ String.ofList (List.replicate (max (byteLength found) 1) '^')

theorem numberedLines_eq (width first : Nat) (lines : List (List Char)) :
    numberedLines width first lines = (lines.zipIdx first).map (rowText width) := by
  induction lines generalizing first with
  | nil => rfl
  | cons line lines ih => rw [numberedLines, ih, List.zipIdx_cons, List.map_cons, rowText]

theorem not_mem_upTo {found : List Char} (h : '\n' ∉ found) (after : List Char) :
    '\n' ∉ found ++ after.takeWhile (· != '\n') := by
  rw [List.mem_append, not_or]
  refine ⟨h, fun hmem => ?_⟩
  simpa using List.mem_takeWhile_imp hmem

/-- The lines that are shown, and those above them, are cut where the text in front is. -/
theorem splitLines_upTo {before found line : List Char} {above : List (List Char)}
    (hlines : splitLines before = above ++ [line]) (hfeeds : ∀ l ∈ above ++ [line], '\n' ∉ l)
    (h : '\n' ∉ found) (after : List Char) :
    splitLines (before ++ (found ++ after.takeWhile (· != '\n')))
      = above ++ [line ++ (found ++ after.takeWhile (· != '\n'))] := by
  conv => lhs; rw [← joinLines_splitLines before, hlines]
  exact splitLines_append_more hfeeds (not_mem_upTo h after)

theorem excerptAround_eq {found : List Char} (h : '\n' ∉ found) (before after : List Char) :
    ∃ width, excerptAround before found after
      = "\n".intercalate ((excerptRows before found after).map (rowText width)) ++ "\n"
        ++ underline width before found := by
  obtain ⟨above, line, hlines, hcount, hfeeds, -, -⟩ := exists_splitLines before
  have hdrop : (above ++ [line]).drop (above.length - 1)
      = above.drop (above.length - 1) ++ [line] :=
    List.drop_append_of_le_length (Nat.sub_le _ _)
  have hkept : ∀ l ∈ above.drop (above.length - 1) ++ [line], '\n' ∉ l := by
    rw [← hdrop]
    exact fun l hl => hfeeds l (List.mem_of_mem_drop hl)
  -- The lines above the shown ones are left out before the text is cut anew, or after it is.
  have hbody : shownLines (joinLines (above.drop (above.length - 1) ++ [line])
      ++ (found ++ after.takeWhile (· != '\n')))
      = (shownLines (before ++ (found ++ after.takeWhile (· != '\n')))).drop
        (above.length - 1) := by
    rw [shownLines_eq (splitLines_append_more hkept (not_mem_upTo h after)),
      shownLines_eq (splitLines_upTo hlines hfeeds h after), List.map_drop]
    exact (List.drop_append_of_le_length (by simp)).symm
  have hfirst : above.length + 1 - ((above.drop (above.length - 1) ++ [line]).length - 1)
      = 1 + (above.length - 1) := by
    simp only [List.length_append, List.length_drop, List.length_cons, List.length_nil]
    omega
  have hcontains : ¬ found.contains '\n' = true := mt List.contains_iff_mem.1 h
  have hnumber : (above ++ [line]).length = above.length + 1 := List.length_append
  simp only [excerptAround, hlines, hnumber, Nat.add_sub_add_right above.length 1 1, hdrop,
    if_neg hcontains, List.append_assoc _ found, hbody, hfirst, numberedLines_eq, excerptRows,
    underline, ← hcount, zipIdx_drop, String.append_assoc]
  exact ⟨_, rfl⟩

/-! ## What the rows are

Three things can be amiss, and they show in two places. The number of the last row is not
that of the location if a carriage return in front of the token is on its own, or if the
token is nothing and its line is an empty one (`excerptRows_number`). If the number is
right, so are all the rows but for the end of the last one, which goes on behind a
carriage return (`exists_excerptRows`). So of rows that are lines of the text the number
tells that nothing is amiss in front, and their text that nothing is amiss behind. -/

/-- The rows are lines of the text, the last of them the one with this number. -/
def ShowsLines (rows : List (List Char × Nat)) (text : List Char) (number : Nat) : Prop :=
  rows ≠ [] ∧ rows <:+ ((linesOf text).zipIdx 1).take number

/-- Nothing is found, and nothing stands in front of it on its line. -/
def EndsBlank (before found : List Char) : Prop := found = [] ∧ ∀ c ∈ before.getLast?, c = '\n'

/-- What stands behind the end of the line, up to the next line feed. -/
def behindReturn (after : List Char) : List Char := (after.dropWhile inLine).takeWhile (· != '\n')

theorem take_numbered {ended later : List (List Char)} {line : List Char} {n : Nat}
    (h : ended.length + 1 = n) :
    ((ended ++ line :: later).zipIdx 1).take n = ended.zipIdx 1 ++ [(line, n)] := by
  subst h
  have hended : (ended.zipIdx 1).take (ended.length + 1) = ended.zipIdx 1 :=
    List.take_of_length_le (by simp)
  rw [List.zipIdx_append, List.take_append, List.zipIdx_cons, hended]
  simp [Nat.add_comm 1]

section

variable (before : List Char) {found after : List Char} (hfound : ∀ c ∈ found, inLine c = true)
  (hatEnd : found = [] → after = [])

theorem takeWhile_eq_behind (after : List Char) :
    after.takeWhile (· != '\n') = after.takeWhile inLine ++ behindReturn after := by
  have hall : ∀ c ∈ after.takeWhile inLine, (c != '\n') = true := fun c hc => by
    have hline := List.mem_takeWhile_imp hc
    simp only [inLine, Bool.and_eq_true] at hline
    exact hline.2
  conv => lhs; rw [← List.takeWhile_append_dropWhile (p := inLine) (l := after),
    List.takeWhile_append_of_pos hall]
  rfl

/-- Of a line end of two characters the first one is shown. -/
example : behindReturn "b\r\nc".toList = ['\r'] := by decide

include hfound hatEnd

theorem head?_ne_feed : (found ++ after).head? ≠ some '\n' := by
  cases found with
  | nil => simp [hatEnd rfl]
  | cons c found =>
      rintro ⟨⟩
      exact absurd (hfound '\n' List.mem_cons_self) (by decide)

/-- The lines down to the one on which something is found. -/
theorem exists_linesOf : ∃ ended lead later, linesOf before = ended ++ [lead]
    ∧ ended.length = before.count '\n' + loneReturns before ∧ lead <:+ before
    ∧ linesOf (before ++ (found ++ after))
      = ended ++ (lead ++ (found ++ after.takeWhile inLine)) :: later := by
  obtain ⟨ended, lead, hlines, hended, hlead, hrest⟩ := exists_ended [] before
  obtain ⟨later, hlater⟩ := linesFrom_takeWhile lead (found ++ after)
  refine ⟨ended, lead, later, hlines, hended, hlead, ?_⟩
  rw [linesOf, hrest _ (head?_ne_feed hfound hatEnd), hlater, List.takeWhile_append_of_pos hfound]

/-- The lines that are shown down to the one on which something is found. -/
theorem exists_shown : ∃ above line, splitLines before = above ++ [line]
    ∧ above.length = before.count '\n' ∧ line <:+ before
    ∧ (EndsBlank before found →
      shownLines (before ++ (found ++ after.takeWhile (· != '\n'))) = above.map dropReturn)
    ∧ (¬ EndsBlank before found →
      shownLines (before ++ (found ++ after.takeWhile (· != '\n')))
        = above.map dropReturn ++ [line ++ (found ++ after.takeWhile (· != '\n'))]) := by
  obtain ⟨above, line, hlines, hcount, hfeeds, hsuffix, hnil⟩ := exists_splitLines before
  have hfeed : '\n' ∉ found := fun h => absurd (hfound _ h) (by decide)
  have hshown := shownLines_eq (splitLines_upTo hlines hfeeds hfeed after)
  refine ⟨above, line, hlines, hcount, hsuffix, ?_, fun hblank => ?_⟩
  · rintro ⟨rfl, hblank⟩
    obtain rfl := hatEnd rfl
    simpa [hnil.2 hblank] using hshown
  · rw [hshown, if_neg]
    intro h
    rw [List.append_eq_nil_iff, List.append_eq_nil_iff] at h
    exact hblank ⟨h.2.1, hnil.1 h.1⟩

/-- When the number of the last row is the one that all line ends in front give. -/
theorem excerptRows_number : (excerptRows before found after).getLast?.map Prod.snd
      = some (before.count '\n' + loneReturns before + 1)
    ↔ loneReturns before = 0 ∧ ¬ EndsBlank before found := by
  obtain ⟨above, line, -, hcount, -, hblank, hshown⟩ :=
    exists_shown before hfound hatEnd
  rw [excerptRows, List.getLast?_drop, List.length_zipIdx, List.getLast?_zipIdx]
  by_cases hends : EndsBlank before found
  · rw [hblank hends, List.length_map, hcount]
    refine iff_of_false (fun h => ?_) fun h => h.2 hends
    obtain ⟨row, hrow, hnumber⟩ := Option.map_eq_some_iff.1 h
    split at hrow
    · cases hrow
    · obtain ⟨shown, -, rfl⟩ := Option.map_eq_some_iff.1 hrow
      simp only at hnumber
      omega
  · have hfew : ¬ before.count '\n' + 1 ≤ before.count '\n' - 1 := by omega
    rw [hshown hends, List.length_append, List.length_map, hcount, List.getLast?_concat,
      List.length_singleton, if_neg hfew]
    simp [hends]

/-- With no return on its own in front, only what stands behind the last line can be amiss. -/
theorem exists_excerptRows {ended later : List (List Char)} {lead : List Char}
    (hlines : linesOf before = ended ++ [lead])
    (hwhole : linesOf (before ++ (found ++ after))
      = ended ++ (lead ++ (found ++ after.takeWhile inLine)) :: later)
    (hreturns : loneReturns before = 0) (hends : ¬ EndsBlank before found) {number : Nat}
    (hnumber : ended.length + 1 = number) : ∃ rest, excerptRows before found after
        = rest ++ [(lead ++ (found ++ after.takeWhile inLine) ++ behindReturn after, number)]
      ∧ ShowsLines (rest ++ [(lead ++ (found ++ after.takeWhile inLine), number)])
        (before ++ (found ++ after)) number := by
  obtain ⟨above, line, habove, hcount, hsuffix, -, hshown⟩ :=
    exists_shown before hfound hatEnd
  -- A return at the end of the text in front would be on its own.
  have hline : dropReturn line = line := by
    refine if_neg fun hreturn => getLast?_ne_return hreturns ?_
    obtain ⟨front, rfl⟩ := hsuffix
    rw [List.getLast?_append, hreturn]
    rfl
  rw [linesOf_eq_splitLines hreturns, habove, List.map_append, List.map_singleton, hline] at hlines
  obtain ⟨rfl, hlead⟩ := List.append_inj' hlines rfl
  obtain rfl := List.singleton_inj.1 hlead
  rw [List.length_map] at hnumber
  have hfew : before.count '\n' - 1 ≤ ((above.map dropReturn).zipIdx 1).length := by
    rw [List.length_zipIdx, List.length_map, hcount]
    exact Nat.sub_le _ _
  refine ⟨((above.map dropReturn).zipIdx 1).drop (before.count '\n' - 1), ?_, by simp, ?_⟩
  · rw [excerptRows, hshown hends, takeWhile_eq_behind, List.zipIdx_append,
      List.drop_append_of_le_length hfew]
    simp [Nat.add_comm 1, hnumber]
  · rw [hwhole, take_numbered (by rw [List.length_map, hnumber])]
    obtain ⟨front, hfront⟩ :=
      List.drop_suffix (before.count '\n' - 1) ((above.map dropReturn).zipIdx 1)
    exact ⟨front, by rw [← List.append_assoc, hfront]⟩

/-- The rows are lines of the text just if nothing is amiss in front or behind. -/
theorem showsLines_iff {number : Nat}
    (hnumber : before.count '\n' + loneReturns before + 1 = number) :
    ShowsLines (excerptRows before found after) (before ++ (found ++ after)) number
      ↔ loneReturns before = 0 ∧ ¬ EndsBlank before found ∧ behindReturn after = [] := by
  obtain ⟨ended, lead, later, hlines, hended, -, hwhole⟩ :=
    exists_linesOf before hfound hatEnd
  have hlast : ended.length + 1 = number := by rw [hended, hnumber]
  constructor
  · -- The last row is the line of the location, so it has its number, and its text besides.
    rintro ⟨hne, front, hfront⟩
    rw [hwhole, take_numbered hlast] at hfront
    have hrow : (excerptRows before found after).getLast?
        = some (lead ++ (found ++ after.takeWhile inLine), number) := by
      rw [← List.getLast?_append_of_ne_nil front hne, hfront, List.getLast?_concat]
    have hrowNumber : (excerptRows before found after).getLast?.map Prod.snd = some number := by
      rw [hrow, Option.map_some]
    rw [← hnumber, excerptRows_number before hfound hatEnd] at hrowNumber
    obtain ⟨hreturns, hends⟩ := hrowNumber
    obtain ⟨rest, hrows, -⟩ :=
      exists_excerptRows before hfound hatEnd hlines hwhole hreturns hends hlast
    rw [hrows, List.getLast?_concat] at hrow
    refine ⟨hreturns, hends, ?_⟩
    simpa using hrow
  · rintro ⟨hreturns, hends, hbehind⟩
    obtain ⟨rest, hrows, hshows⟩ :=
      exists_excerptRows before hfound hatEnd hlines hwhole hreturns hends hlast
    rw [hbehind, List.append_nil] at hrows
    rwa [hrows]

end

/--
How a report shows the token `found`, which is on the line `line` of the text. The numbered
rows are printed above the carets. The last one has the number of the location just if no
carriage return in front of the token is on its own and its line is not an empty one at the
end of the text. Then the rows are the lines of the text down to that line, but for what is
shown behind the end of it. They are just those lines if nothing is shown there, and in no
other case.
-/
structure Report.ShowsToken (r : Report) (text before found after : List Char) (l : Location)
    (line : List Char) : Prop where
  place : r.location = some l
  counted : l.line = before.count '\n' + loneReturns before + 1
  named : (linesOf text)[l.line - 1]? = some line
  onLine : ∃ lead, lead <:+ before ∧ line = lead ++ (found ++ after.takeWhile inLine)
  printed : ∃ width, r.print = r.summary ++ "\n"
    ++ ("\n".intercalate ((excerptRows before found after).map (rowText width)) ++ "\n"
      ++ underline width before found)
  numbered : (excerptRows before found after).getLast?.map Prod.snd = some l.line
    ↔ loneReturns before = 0 ∧ ¬ EndsBlank before found
  shown : loneReturns before = 0 → ¬ EndsBlank before found → ∃ rest,
    excerptRows before found after = rest ++ [(line ++ behindReturn after, l.line)]
      ∧ ShowsLines (rest ++ [(line, l.line)]) text l.line
  exact : ShowsLines (excerptRows before found after) text l.line
    ↔ loneReturns before = 0 ∧ ¬ EndsBlank before found ∧ behindReturn after = []

namespace Source.Refuses

variable {s : Source} {e : Entry} {r : Report} {u : Unexpected Span}
  {before found after : List Char} (h : s.Refuses e r u before found after)

include h

theorem tells : r.location = some ⟨s.path, (Place.origin.after before).line,
      (Place.origin.after before).column⟩
    ∧ r.excerpt = some (excerptAround before found after) := by
  obtain rfl := h.report
  have hlocation := Location.ofOffset_append s.path before (found ++ after)
  have hexcerpt := excerpt_append before found after
  rw [← h.whole] at hlocation hexcerpt
  cases hfound : u.found with
  | none =>
      obtain ⟨rfl, rfl⟩ := h.atEnd hfound
      have hwhole : s.text.toList = before := by simpa using h.whole
      simp only [Source.report, hfound]
      rw [hwhole] at hlocation hexcerpt ⊢
      exact ⟨congrArg some hlocation, congrArg some hexcerpt⟩
  | some l =>
      simp only [Source.report, hfound, h.mark l hfound]
      exact ⟨congrArg some hlocation, congrArg some hexcerpt⟩

theorem after_eq_nil (hfound : found = []) : after = [] := by
  cases hnext : u.found with
  | none => exact (h.atEnd hnext).2
  | some l =>
      have hmark := h.mark l hnext
      obtain ⟨front, piece, back, hcuts⟩ := exists_cut (Entry.found_mem h.fails hnext)
      rw [hcuts.mark, hfound, byteLength, Nat.add_zero, Span.mk.injEq] at hmark
      have hpos : 0 < byteLength piece := byteLength_pos (pieces_ne_nil hcuts.piece)
      omega

/--
Whatever a text is read as, a report on a token without a line end in it, or on the end of
the text, names the line on which the token is, and shows it as told above.
-/
theorem excerpt_lines (hfound : ∀ c ∈ found, inLine c = true) :
    ∃ l line, r.ShowsToken s.text.toList before found after l line := by
  obtain ⟨hplace, hexcerpt⟩ := h.tells
  have hatEnd := h.after_eq_nil
  obtain ⟨ended, lead, later, hlines, hended, hlead, hwhole⟩ :=
    exists_linesOf before hfound hatEnd
  obtain ⟨width, hprinted⟩ := excerptAround_eq (fun hfeed => absurd (hfound _ hfeed) (by decide))
    before after
  have hcounted : (Place.origin.after before).line
      = before.count '\n' + loneReturns before + 1 := by
    rw [Place.after_line, Place.origin, Nat.add_comm]
  have hlast : ended.length + 1 = (Place.origin.after before).line := by rw [hcounted, hended]
  refine ⟨_, _, hplace, hcounted, ?_, ⟨lead, hlead, rfl⟩, ⟨width, ?_⟩, ?_, fun hreturns hends => ?_,
    ?_⟩
  · rw [h.whole, hwhole, ← hlast]
    simp
  · rw [Report.print, hexcerpt, hprinted]
  · rw [hcounted]
    exact excerptRows_number before hfound hatEnd
  · rw [h.whole]
    exact exists_excerptRows before hfound hatEnd hlines hwhole hreturns hends hlast
  · rw [h.whole]
    exact showsLines_iff before hfound hatEnd hcounted.symm

end Source.Refuses

/-- Two lines with a carriage return between them, and a character that starts no token. -/
def returnedSource : Source := ⟨"returned", "type Query{a:Int}\r?"⟩

theorem Source.Refuses.excerpt_lines_returned :
    ∃ r u l, returnedSource.Refuses .document r u "type Query{a:Int}\r".toList ['?'] []
      ∧ r.location = some l ∧ l.line = 2
      ∧ excerptRows "type Query{a:Int}\r".toList ['?'] [] = [("type Query{a:Int}\r?".toList, 1)]
      ∧ ¬ ShowsLines (excerptRows "type Query{a:Int}\r".toList ['?'] [])
        returnedSource.text.toList 2 := by
  have hfound : offending? (Entry.document.reader (lexemes returnedSource.text.toList))
      = some ⟨.invalid (.unexpected '?'), ⟨18, 19⟩⟩ := by decide +kernel
  obtain ⟨r, u, hrefuses⟩ : ∃ r u, returnedSource.Refuses .document r u
      "type Query{a:Int}\r".toList ['?'] [] :=
    Source.exists_refuses hfound (by decide) (by decide)
  obtain ⟨l, line, hshows⟩ := hrefuses.excerpt_lines (List.forall_mem_singleton.2 rfl)
  have hreturns : loneReturns "type Query{a:Int}\r".toList = 1 := by decide
  have hline : l.line = 2 := by
    rw [hshows.counted, hreturns]
    decide
  refine ⟨r, u, l, hrefuses, hshows.place, hline, by decide, fun h => ?_⟩
  rw [← hline, hshows.exact, hreturns] at h
  exact absurd h.1 (by decide)

end SchemaGraph
