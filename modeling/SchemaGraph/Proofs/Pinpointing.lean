import SchemaGraph.Proofs.Places
import SchemaGraph.Proofs.Slices

/-!
# Places and excerpts by bytes

To tell the line and the column of an offset, and to show the lines around a span, a text
is cut at offsets that have been worked out from other offsets: where the last line feed
is, where a line begins, how far a span reaches. Here both are told with the possibility
left open that such an offset is none of the text's, or that a difference of offsets or
of numbers of digits is negative.

Neither happens wherever a text can be cut at the offset, or at both ends of the span. For
then all offsets that are worked out are lengths of what the text starts with: a line feed
is one byte long, so the line behind it begins one byte further on. And no number of a
line that is shown has more digits than that of the last one.
-/

namespace SchemaGraph

open Text Sdl

/--
The number of the last line of a text, and the offset at which it begins. Up to the byte
`index` these are `line` and `start`.
-/
def lastLine (line start : Nat) : Nat → List Char → Nat × Nat
  | _, [] => (line, start)
  | index, '\r' :: '\n' :: cs => lastLine (line + 1) (index + 2) (index + 2) cs
  | index, c :: cs =>
    if c = '\r' ∨ c = '\n' then lastLine (line + 1) (index + 1) (index + 1) cs
    else lastLine line start (index + c.utf8Size) cs

/-- The column behind some characters of the line that begins at the offset `start`. -/
def columnAfter (start : Nat) (line : List Char) : Nat :=
  (if start = 0 then line.dropWhile (· == byteOrderMark) else line).length + 1

/-- As `Location.ofOffset`. -/
def Location.ofOffset? (path : String) (text : List Char) (offset : Nat) : Option Location := do
  let front ← upTo? (min offset (byteLength text)) text
  let (line, start) := lastLine 1 0 0 front
  return ⟨path, line, columnAfter start (← from? start front)⟩

/-- The place is on the line behind `ahead`, after the characters `here` of it. -/
structure Place.Stands (p : Place) (ahead here : List Char) : Prop where
  column : p.column = columnAfter (byteLength ahead) here
  first : ahead = [] → p.line = 1
  later : ahead ≠ [] → 1 < p.line

namespace Place

theorem columnAfter_nil (start : Nat) : columnAfter start [] = 1 := by
  rw [columnAfter]
  split <;> rfl

theorem Stands.step {p : Place} {ahead here : List Char} {c : Char} (h : p.Stands ahead here)
    (hc : ¬ (c = '\r' ∨ c = '\n')) : (p.step c).Stands ahead (here ++ [c]) := by
  rw [Place.step, if_neg hc]
  by_cases hahead : ahead = []
  · -- On the first line, a byte order mark takes no column as long as nothing else has.
    subst hahead
    have hcolumn : p.column = (here.dropWhile (· == byteOrderMark)).length + 1 := h.column
    have horigin : p = origin ↔ here.dropWhile (· == byteOrderMark) = [] := by
      obtain ⟨line, column⟩ := p
      obtain rfl : line = 1 := h.first rfl
      simp only at hcolumn
      simp [origin, hcolumn, ← List.length_eq_zero_iff]
    have hcolumnAfter : columnAfter (byteLength []) (here ++ [c])
        = ((here ++ [c]).dropWhile (· == byteOrderMark)).length + 1 := rfl
    refine ⟨?_, fun _ => ?_, fun hne => absurd rfl hne⟩
    · rw [hcolumnAfter, List.dropWhile_append]
      cases hrest : here.dropWhile (· == byteOrderMark) with
      | nil =>
          rw [hrest] at hcolumn
          by_cases hmark : c = byteOrderMark
          · subst hmark
            simp [horigin.2 hrest, byteOrderMark, origin]
          · have hmark' : c ≠ '\uFEFF' := hmark
            simp [hmark, hmark', hcolumn]
      | cons d ds =>
          have hnot : p ≠ origin := fun h => by
            rw [horigin.1 h] at hrest
            cases hrest
          simp [hnot, hcolumn, hrest]
    · split <;> exact h.first rfl
  · have hnot : p ≠ origin := by
      rintro rfl
      exact absurd (h.later hahead) (Nat.lt_irrefl 1)
    have hstart : byteLength ahead ≠ 0 := mt byteLength_eq_zero.1 hahead
    rw [if_neg fun h => hnot h.2]
    refine ⟨?_, fun hnil => absurd hnil hahead, h.later⟩
    simp only [h.column, columnAfter, if_neg hstart, List.length_append, List.length_singleton]

theorem Stands.nextLine {p : Place} {ahead here : List Char} (h : p.Stands ahead here)
    {feed : List Char} (hfeed : feed ≠ []) : p.nextLine.Stands (ahead ++ (here ++ feed)) [] := by
  have hne : ahead ++ (here ++ feed) ≠ [] := by simp [hfeed]
  refine ⟨(columnAfter_nil _).symm, fun hnil => absurd hnil hne, fun _ => ?_⟩
  have hline : 0 < p.line := by
    by_cases hahead : ahead = []
    · rw [h.first hahead]
      exact Nat.one_pos
    · exact Nat.lt_trans Nat.one_pos (h.later hahead)
  exact Nat.succ_lt_succ hline

/-- Scanning on keeps hold of where the line begins. -/
theorem Stands.after {p : Place} {ahead here : List Char} (h : p.Stands ahead here)
    (cs : List Char) :
    ∃ ahead' here', ahead ++ (here ++ cs) = ahead' ++ here' ∧ (p.after cs).Stands ahead' here'
      ∧ lastLine p.line (byteLength ahead) (byteLength ahead + byteLength here) cs
        = ((p.after cs).line, byteLength ahead') := by
  fun_induction Place.after p cs generalizing ahead here with
  | case1 => exact ⟨ahead, here, by simp, h, rfl⟩
  | case2 p cs ih =>
      obtain ⟨ahead', here', heq, hstands, hlast⟩ := ih (h.nextLine (List.cons_ne_nil '\r' ['\n']))
      refine ⟨ahead', here', ?_, hstands, ?_⟩
      · rw [← heq]
        simp
      · have hbytes : byteLength (ahead ++ (here ++ ['\r', '\n']))
            = byteLength ahead + byteLength here + 2 := by
          rw [byteLength_append, byteLength_append, Nat.add_assoc]
          rfl
        rw [hbytes] at hlast
        exact hlast
  | case3 p c cs hne ih =>
      by_cases hc : c = '\r' ∨ c = '\n'
      · have hstep : p.step c = p.nextLine := if_pos hc
        obtain ⟨ahead', here', heq, hstands, hlast⟩ :=
          ih (hstep ▸ h.nextLine (List.cons_ne_nil c []))
        refine ⟨ahead', here', ?_, hstands, ?_⟩
        · rw [← heq]
          simp
        · have hbytes : byteLength (ahead ++ (here ++ [c]))
              = byteLength ahead + byteLength here + 1 := by
            rw [byteLength_append, byteLength_append, Nat.add_assoc]
            rcases hc with rfl | rfl <;> rfl
          rw [hbytes, hstep] at hlast
          rw [lastLine, if_pos hc, hstep]
          · exact hlast
          · exact hne
      · obtain ⟨ahead', here', heq, hstands, hlast⟩ := ih (h.step hc)
        refine ⟨ahead', here', ?_, hstands, ?_⟩
        · rw [← heq]
          simp
        · have hline : (p.step c).line = p.line := by
            rw [Place.step, if_neg hc]
            split <;> rfl
          rw [hline, byteLength_append, ← Nat.add_assoc] at hlast
          rw [lastLine, if_neg hc]
          · exact hlast
          · exact hne

end Place

theorem Location.ofOffset?_append (path : String) (before after : List Char) :
    ofOffset? path (before ++ after) (byteLength before)
      = some (ofOffset path (before ++ after) (byteLength before)) := by
  have horigin : Place.origin.Stands [] [] :=
    ⟨(Place.columnAfter_nil 0).symm, fun _ => rfl, fun h => absurd rfl h⟩
  obtain ⟨ahead, here, heq, hstands, hlast⟩ := horigin.after before
  have hmin : min (byteLength before) (byteLength (before ++ after)) = byteLength before := by
    rw [byteLength_append]
    exact Nat.min_eq_left (Nat.le_add_right _ _)
  have hlast : lastLine 1 0 0 before = ((Place.origin.after before).line, byteLength ahead) := hlast
  have heq : before = ahead ++ here := heq
  have hfrom : from? (byteLength ahead) before = some here := heq ▸ from?_byteLength ahead here
  simp only [ofOffset_append, ofOffset?, hmin, upTo?_byteLength, hlast, hfrom, hstands.column,
    Option.bind_eq_bind, Option.bind_some]
  rfl

namespace Text

/-- The offset of the first line feed. -/
def firstFeed? : List Char → Option Nat
  | [] => none
  | c :: cs => if c = '\n' then some 0 else (firstFeed? cs).map (c.utf8Size + ·)

/-- The offset of the last line feed. -/
def lastFeed? : List Char → Option Nat
  | [] => none
  | c :: cs =>
    match lastFeed? cs with
    | some i => some (c.utf8Size + i)
    | none => if c = '\n' then some 0 else none

/-- The offset at which the last line begins. -/
def lineStart (cs : List Char) : Nat := (lastFeed? cs).elim 0 (· + 1)

/-- The number of the line in which an offset is. -/
def lineAt? (offset : Nat) (cs : List Char) : Option Nat :=
  (upTo? offset cs).map fun front => front.count '\n' + 1

/-- The offset at which the line before that of an offset begins, if there is one. -/
def previousStart? (offset : Nat) (cs : List Char) : Option Nat := do
  match lastFeed? (← upTo? offset cs) with
  | none => return 0
  | some feed => return lineStart (← upTo? feed cs)

/-- The offset at which the line of an offset ends. -/
def lineStop? (offset : Nat) (cs : List Char) : Option Nat := do
  return (firstFeed? (← from? offset cs)).elim (byteLength cs) (· + offset)

end Text

/-- As `numberedLine`: there has to be room for the number. -/
def numberedLine? (width number : Nat) (line : List Char) : Option String := do
  let digits := toString number
  let room ← sub? width digits.length
  return blanks (room + 1) ++ digits ++ " | " ++ String.ofList line

/-- As `numberedLines`. -/
def numberedLines? (width first : Nat) : List (List Char) → Option (List String)
  | [] => some []
  | line :: rest => do
    return (← numberedLine? width first line) :: (← numberedLines? width (first + 1) rest)

/-- As `excerpt`. -/
def excerpt? (text : List Char) (span : Span) : Option String := do
  let startLine ← lineAt? span.start text
  let start ← previousStart? span.start text
  let stop ← lineStop? span.stop text
  let body := shownLines (← slice? start stop text)
  let first ← lineAt? start text
  let last ← sub? (first + max body.length 1) 1
  let width := (toString last).length
  let numbered := "\n".intercalate (← numberedLines? width first body)
  if startLine = (← lineAt? span.stop text) then
    let indent ← sub? span.start (lineStart (← upTo? span.start text))
    let size ← sub? span.stop span.start
    return numbered ++ "\n" ++ blanks (width + 1) ++ " | " ++ blanks indent
      ++ String.ofList (List.replicate (max size 1) '^')
  else return numbered

/-- There is no excerpt where an offset is inside a character. -/
example : excerpt? ['\u00e9'] ⟨1, 2⟩ = none := by decide

/-! ## Lines

An excerpt finds its offsets by searching for line feeds, in the text in front of the span
and in the text behind. So the text in front is taken apart at its last line feed, and
what is in front of that once more. Each offset that is worked out is the length of one of
these parts; and the parts are also the last lines that splitting gives, which is how an
excerpt is told without offsets. -/

namespace Text

theorem firstFeed?_eq (cs : List Char) :
    firstFeed? cs = if '\n' ∈ cs then some (byteLength (cs.takeWhile (· != '\n'))) else none := by
  induction cs with
  | nil => rfl
  | cons c cs ih =>
      rw [firstFeed?]
      by_cases hc : c = '\n'
      · subst hc
        simp [byteLength]
      · rw [if_neg hc, ih]
        by_cases hcs : '\n' ∈ cs
        · simp [hc, hcs, byteLength]
        · simp [hcs, Ne.symm hc]

/-- Every text is one line, or there is a last line feed in it. -/
theorem exists_lastLine (cs : List Char) :
    '\n' ∉ cs ∨ ∃ front line, cs = front ++ '\n' :: line ∧ '\n' ∉ line := by
  induction cs with
  | nil => exact .inl (List.not_mem_nil)
  | cons c cs ih =>
      rcases ih with hcs | ⟨front, line, rfl, hline⟩
      · by_cases hc : c = '\n'
        · exact .inr ⟨[], cs, by rw [hc, List.nil_append], hcs⟩
        · exact .inl fun hmem => (List.mem_cons.1 hmem).elim (fun h => hc h.symm) hcs
      · exact .inr ⟨c :: front, line, rfl, hline⟩

theorem lastFeed?_line {line : List Char} (h : '\n' ∉ line) : lastFeed? line = none := by
  induction line with
  | nil => rfl
  | cons c cs ih =>
      rw [List.mem_cons, not_or] at h
      rw [lastFeed?, ih h.2]
      exact if_neg (Ne.symm h.1)

theorem lastFeed?_append {line : List Char} (h : '\n' ∉ line) (front : List Char) :
    lastFeed? (front ++ '\n' :: line) = some (byteLength front) := by
  induction front with
  | nil =>
      rw [List.nil_append, lastFeed?, lastFeed?_line h]
      rfl
  | cons c cs ih =>
      rw [List.cons_append, lastFeed?, ih]
      rfl

theorem splitLines_line {line : List Char} (h : '\n' ∉ line) : splitLines line = [line] := by
  induction line with
  | nil => rfl
  | cons c cs ih =>
      rw [List.mem_cons, not_or] at h
      rw [splitLines, if_neg (Ne.symm h.1), ih h.2]

theorem splitLines_append (front rest : List Char) :
    splitLines (front ++ '\n' :: rest) = splitLines front ++ splitLines rest := by
  induction front with
  | nil => simp [splitLines]
  | cons c cs ih =>
      rw [List.cons_append, splitLines, splitLines, ih]
      by_cases hc : c = '\n'
      · rw [if_pos hc, if_pos hc]
        rfl
      · rw [if_neg hc, if_neg hc]
        cases hlines : splitLines cs with
        | nil => exact absurd hlines (splitLines_ne_nil cs)
        | cons line lines => rfl

theorem length_splitLines (cs : List Char) : (splitLines cs).length = cs.count '\n' + 1 := by
  induction cs with
  | nil => rfl
  | cons c cs ih =>
      rw [splitLines]
      by_cases hc : c = '\n'
      · subst hc
        simp [ih]
      · rw [if_neg hc, List.count_cons_of_ne hc, ← ih]
        cases hlines : splitLines cs with
        | nil => exact absurd hlines (splitLines_ne_nil cs)
        | cons line lines => rfl

theorem lineStart_line {line : List Char} (h : '\n' ∉ line) : lineStart line = 0 := by
  rw [lineStart, lastFeed?_line h, Option.elim_none]

theorem lineStart_append {line : List Char} (h : '\n' ∉ line) (front : List Char) :
    lineStart (front ++ '\n' :: line) = byteLength (front ++ ['\n']) := by
  rw [lineStart, lastFeed?_append h, Option.elim_some, byteLength_append]
  rfl

/-- The last line of a text is what is left of it from where that line begins. -/
theorem exists_lineStart (cs : List Char) :
    ∃ top, cs = top ++ (splitLines cs).getLast?.getD [] ∧ lineStart cs = byteLength top := by
  rcases exists_lastLine cs with hline | ⟨front, line, rfl, hline⟩
  · exact ⟨[], by simp [splitLines_line hline], lineStart_line hline⟩
  · exact ⟨front ++ ['\n'], by simp [splitLines_append, splitLines_line hline],
      lineStart_append hline front⟩

/-- The last two lines of a text are what is left of it from where the first of them begins. -/
theorem exists_previousStart (cs : List Char) {shown : List Char} {lines : List (List Char)}
    (hlines : splitLines cs = lines) (hshown : joinLines (lines.drop (lines.length - 2)) = shown)
    (rest : List Char) :
    ∃ top, cs = top ++ shown ∧ previousStart? (byteLength cs) (cs ++ rest) = some (byteLength top)
      ∧ top.count '\n' + 1 = lines.length - ((lines.drop (lines.length - 2)).length - 1) := by
  subst hlines hshown
  simp only [previousStart?, upTo?_byteLength, Option.bind_eq_bind, Option.bind_some]
  rcases exists_lastLine cs with hline | ⟨front, line, rfl, hline⟩
  · refine ⟨[], ?_, ?_, ?_⟩
    · simp [splitLines_line hline, joinLines]
    · rw [lastFeed?_line hline]
      rfl
    · simp [splitLines_line hline]
  have hfront : upTo? (byteLength front) (front ++ '\n' :: line ++ rest) = some front := by
    rw [List.append_assoc]
    exact upTo?_byteLength front _
  rw [lastFeed?_append hline, splitLines_append, splitLines_line hline]
  simp only [hfront, Option.bind_some]
  rcases exists_lastLine front with hfirst | ⟨top, previous, rfl, hprevious⟩
  · refine ⟨[], ?_, ?_, ?_⟩
    · simp [splitLines_line hfirst, joinLines]
    · rw [lineStart_line hfirst]
      rfl
    · simp [splitLines_line hfirst]
  · refine ⟨top ++ ['\n'], ?_, ?_, ?_⟩
    · simp [splitLines_append, splitLines_line hprevious, joinLines]
    · rw [lineStart_append hprevious]
      rfl
    · simp [splitLines_append, splitLines_line hprevious, length_splitLines]

theorem lineStop?_eq (before after : List Char) :
    lineStop? (byteLength before) (before ++ after)
      = some (byteLength before + byteLength (after.takeWhile (· != '\n'))) := by
  simp only [lineStop?, from?_byteLength, firstFeed?_eq, Option.bind_eq_bind, Option.bind_some]
  split
  · rw [Option.elim_some, Nat.add_comm]
    rfl
  · next hfeed =>
      have hall : ∀ c ∈ after, (c != '\n') = true := fun c hc =>
        bne_iff_ne.2 fun h => hfeed (h ▸ hc)
      have htake := takeWhile_append_stops hall (stops_nil (· != '\n'))
      rw [List.append_nil] at htake
      rw [Option.elim_none, htake, byteLength_append]
      rfl

theorem lineAt?_eq (before after : List Char) :
    lineAt? (byteLength before) (before ++ after) = some (before.count '\n' + 1) := by
  rw [lineAt?, upTo?_byteLength, Option.map_some]

end Text

/-- A smaller number has no more digits. -/
theorem digits_mono {m n : Nat} (h : m ≤ n) : (toString m).length ≤ (toString n).length := by
  have hlength : ∀ k : Nat, (toString k).length = (Nat.toDigits 10 k).length :=
    fun k => String.length_ofList
  rw [hlength, hlength]
  refine (Nat.length_toDigits_le_iff (by decide) Nat.length_toDigits_pos).2 ?_
  exact Nat.lt_of_le_of_lt h
    ((Nat.length_toDigits_le_iff (by decide) Nat.length_toDigits_pos).1 (Nat.le_refl _))

theorem numberedLines?_eq {width first : Nat} {lines : List (List Char)}
    (h : ∀ n < first + lines.length, (toString n).length ≤ width) :
    numberedLines? width first lines = some (numberedLines width first lines) := by
  induction lines generalizing first with
  | nil => rfl
  | cons line lines ih =>
      have hfirst := sub?_of_le (h first (by simp))
      have hrest : numberedLines? width (first + 1) lines = _ := ih fun n hn => h n (by
        rw [List.length_cons]
        omega)
      simp only [numberedLines?, numberedLine?, hfirst, hrest, Option.bind_eq_bind,
        Option.bind_some]
      rfl

theorem excerpt?_append (before found after : List Char) :
    excerpt? (before ++ (found ++ after))
        ⟨byteLength before, byteLength before + byteLength found⟩
      = some (excerptAround before found after) := by
  obtain ⟨top, hbefore, hstart, hcount⟩ := exists_previousStart before rfl rfl
    (found ++ after)
  obtain ⟨ahead, hhere, hline⟩ := exists_lineStart before
  rw [excerptAround]
  generalize hshown : joinLines ((splitLines before).drop ((splitLines before).length - 2)) = shown
    at *
  generalize hhere' : (splitLines before).getLast?.getD [] = here at *
  have hstop := lineStop?_eq (before ++ found) after
  have hbody : slice? (byteLength top)
      (byteLength before + byteLength found + byteLength (after.takeWhile (· != '\n')))
      (before ++ (found ++ after)) = some (shown ++ found ++ after.takeWhile (· != '\n')) := by
    have hslice := slice?_byteLength top (shown ++ found ++ after.takeWhile (· != '\n'))
      (after.dropWhile (· != '\n'))
    simp only [byteLength_append, List.append_assoc, List.takeWhile_append_dropWhile] at hslice
    simp only [hbefore, byteLength_append, List.append_assoc, Nat.add_assoc]
    exact hslice
  have hfirst : lineAt? (byteLength top) (before ++ (found ++ after))
      = some (top.count '\n' + 1) := by
    rw [hbefore, List.append_assoc]
    exact lineAt?_eq _ _
  have hlast := lineAt?_eq (before ++ found) after
  have hindent : sub? (byteLength before) (lineStart before) = some (byteLength here) := by
    rw [hline, hhere, byteLength_append, sub?_add]
  rw [byteLength_append, List.append_assoc] at hstop hlast
  simp only [excerpt?, lineAt?_eq, hstart, hstop, hbody, hfirst, hlast, upTo?_byteLength, hindent,
    sub?_add, Option.bind_eq_bind, Option.bind_some, hcount]
  generalize (splitLines before).length
    - (((splitLines before).drop ((splitLines before).length - 2)).length - 1) = first
  generalize shownLines (shown ++ found ++ after.takeWhile (· != '\n')) = body
  have hnumbered : numberedLines? (toString (first + max body.length 1 - 1)).length first body
      = some (numberedLines (toString (first + max body.length 1 - 1)).length first body) :=
    numberedLines?_eq fun n hn => digits_mono (by omega)
  rw [sub?_of_le (by omega), Option.bind_some, hnumbered, Option.bind_some]
  by_cases hfeed : '\n' ∈ found
  · have hpos := List.count_pos_iff.2 hfeed
    rw [if_neg (by rw [List.count_append]; omega), if_pos (List.contains_iff_mem.2 hfeed)]
    rfl
  · have hzero := List.count_eq_zero.2 hfeed
    rw [if_pos (by rw [List.count_append]; omega), if_neg (mt List.contains_iff_mem.1 hfeed)]
    rfl

end SchemaGraph
