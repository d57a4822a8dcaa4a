import Mathlib.Data.List.DropRight
import Mathlib.Logic.Relation
import SchemaGraph.Proofs.Pinpointing
import SchemaGraph.Proofs.Places
import SchemaGraph.Proofs.Scanning

/-!
# Blocks without their indentation

What a block string stands for is told by its lines: the lines with something to show are
kept in their order, and the indentation that they share is taken from all but the first,
which begins behind the quotes and not at the margin. Blank lines are kept in between and
dropped at both ends.

All of this is a function of the lines alone, so it does not matter which line ends the
text is written with. That the margin does not matter either is since a line that shows
something shares it with all others, and then it is part of what is taken off; and where
only the first line shows something, no other line is left.
-/

namespace SchemaGraph

open Text

namespace Sdl.BlockString

/-- Cutting a text into lines is cutting it at its line feeds, once all line ends are such. -/
theorem exists_linesFrom (line cs : List Char) : ∃ first rest,
    splitLines (unifyLineEnds cs) = first :: rest
      ∧ linesFrom line cs = (line ++ first) :: rest := by
  fun_induction linesFrom line cs with
  | case1 line => exact ⟨[], [], rfl, by rw [List.append_nil]⟩
  | case2 line cs ih =>
      obtain ⟨first, rest, hsplit, hlines⟩ := ih
      exact ⟨[], first :: rest, by rw [unifyLineEnds, splitLines, if_pos rfl, hsplit],
        by rw [hlines, List.append_nil, List.nil_append]⟩
  | case3 line c cs hend hbreak ih =>
      obtain ⟨first, rest, hsplit, hlines⟩ := ih
      refine ⟨[], first :: rest, ?_, by rw [hlines, List.append_nil, List.nil_append]⟩
      have hfeed : (if c = '\r' then '\n' else c) = '\n' := by
        split
        · rfl
        · next hc => exact hbreak.resolve_left hc
      rw [unifyLineEnds, hfeed, splitLines, if_pos rfl, hsplit]
      exact hend
  | case4 line c cs hend hbreak ih =>
      obtain ⟨first, rest, hsplit, hlines⟩ := ih
      rw [not_or] at hbreak
      refine ⟨c :: first, rest, ?_, by rw [hlines, List.append_assoc, List.singleton_append]⟩
      rw [unifyLineEnds, if_neg hbreak.1, splitLines, if_neg hbreak.2, hsplit]
      exact hend

theorem linesOf_eq (cs : List Char) : linesOf cs = splitLines (unifyLineEnds cs) := by
  obtain ⟨first, rest, hsplit, hlines⟩ := exists_linesFrom [] cs
  rw [linesOf, hlines, hsplit, List.nil_append]

theorem not_mem_unifyLineEnds (cs : List Char) : '\r' ∉ unifyLineEnds cs := by
  fun_induction unifyLineEnds cs with
  | case1 => simp
  | case2 cs ih => simp [ih]
  | case3 c cs _ ih =>
      rw [List.mem_cons, not_or]
      refine ⟨?_, ih⟩
      split
      · decide
      · next hc => exact Ne.symm hc

theorem unifyLineEnds_eq {cs : List Char} (h : '\r' ∉ cs) : unifyLineEnds cs = cs := by
  fun_induction unifyLineEnds cs with
  | case1 => rfl
  | case2 cs ih => exact absurd List.mem_cons_self h
  | case3 c cs _ ih =>
      rw [List.mem_cons, not_or] at h
      rw [if_neg (Ne.symm h.1), ih h.2]

/-- Line ends are unified part by part, unless one of them is torn apart. -/
theorem unifyLineEnds_append {cs : List Char} (h : cs.getLast? ≠ some '\r') (rest : List Char) :
    unifyLineEnds (cs ++ rest) = unifyLineEnds cs ++ unifyLineEnds rest := by
  fun_induction unifyLineEnds cs with
  | case1 => rfl
  | case2 cs ih =>
      rw [List.cons_append, List.cons_append, unifyLineEnds,
        ih (getLast?_ne_of_cons (getLast?_ne_of_cons h)), List.cons_append]
  | case3 c cs hend ih =>
      rw [List.cons_append, unifyLineEnds, ih (getLast?_ne_of_cons h), List.cons_append]
      rintro more rfl hmore
      cases cs with
      | nil => exact h rfl
      | cons d cs => exact hend cs rfl (by rw [(List.cons.inj hmore).1])

end Sdl.BlockString

namespace Text

/-- Splitting undoes joining, unless there is nothing to join. -/
theorem splitLines_joinLines {lines : List (List Char)} (hne : lines ≠ [])
    (h : ∀ line ∈ lines, '\n' ∉ line) : splitLines (joinLines lines) = lines := by
  fun_induction joinLines lines with
  | case1 => exact absurd rfl hne
  | case2 line => exact splitLines_line (h line List.mem_cons_self)
  | case3 line rest hrest ih =>
      obtain ⟨hline, hlines⟩ := List.forall_mem_cons.1 h
      rw [splitLines_append, splitLines_line hline, ih hrest hlines, List.singleton_append]

theorem mem_joinLines {lines : List (List Char)} {c : Char} (h : c ∈ joinLines lines) :
    c = '\n' ∨ ∃ line ∈ lines, c ∈ line := by
  fun_induction joinLines lines with
  | case1 => cases h
  | case2 line => exact .inr ⟨line, List.mem_cons_self, h⟩
  | case3 line rest _ ih =>
      rcases List.mem_append.1 h with h | h
      · exact .inr ⟨line, List.mem_cons_self, h⟩
      rcases List.mem_cons.1 h with rfl | h
      · exact .inl rfl
      · refine (ih h).imp_right ?_
        rintro ⟨later, hlater, hc⟩
        exact ⟨later, List.mem_cons_of_mem line hlater, hc⟩

theorem mem_of_mem_splitLines {cs line : List Char} (h : line ∈ splitLines cs) {c : Char}
    (hc : c ∈ line) : c ∈ cs ∧ c ≠ '\n' := by
  induction cs generalizing line with
  | nil =>
      rw [splitLines, List.mem_singleton] at h
      subst h
      cases hc
  | cons d cs ih =>
      have hlater : ∀ {line'}, line' ∈ splitLines cs → c ∈ line' → c ∈ d :: cs ∧ c ≠ '\n' :=
        fun hline' hc' => (ih hline' hc').imp_left (List.mem_cons_of_mem d)
      rw [splitLines] at h
      split at h
      · rcases List.mem_cons.1 h with rfl | h
        · cases hc
        · exact hlater h hc
      next hd =>
      split at h
      · next hsplit => exact absurd hsplit (splitLines_ne_nil cs)
      · next first rest hsplit =>
          rw [hsplit] at hlater
          rcases List.mem_cons.1 h with rfl | h
          · rcases List.mem_cons.1 hc with rfl | hc
            · exact ⟨List.mem_cons_self, hd⟩
            · exact hlater List.mem_cons_self hc
          · exact hlater (List.mem_cons_of_mem first h) hc

end Text

namespace Sdl.BlockString

/-- Whether a line begins with `n` characters of indentation, or more. -/
def Loses (n : Nat) (line : List Char) : Prop :=
  n ≤ line.length ∧ ∀ c ∈ line.take n, c = ' ' ∨ c = '\t'

/-- The most that all those lines can lose that are not blank. -/
structure SharedIndent (lines : List (List Char)) (n : Nat) : Prop where
  shared : ∀ line ∈ lines, isBlank line = false → Loses n line
  most : (∃ line ∈ lines, isBlank line = false) →
    ∀ m, (∀ line ∈ lines, isBlank line = false → Loses m line) → m ≤ n

/-- For each line that is not blank, how many blank lines are before it; `n` already are. -/
def blanksBefore (n : Nat) : List (List Char) → List Nat
  | [] => []
  | line :: rest => if isBlank line then blanksBefore (n + 1) rest else n :: blanksBefore 0 rest

/-- How many blank lines there are between each line that is not blank and the next. -/
def gaps (lines : List (List Char)) : List Nat := (blanksBefore 0 lines).tail

theorem isIndent_iff {c : Char} : isIndent c = true ↔ c = ' ' ∨ c = '\t' := by
  rw [isIndent, Bool.or_eq_true, beq_iff_eq, beq_iff_eq]

theorem loses_iff {n : Nat} {line : List Char} : Loses n line ↔ n ≤ indentOf line := by
  constructor
  · rintro ⟨hlength, hindent⟩
    have hle := length_le_takeWhile (fun c hc => isIndent_iff.2 (hindent c hc))
      (List.take_prefix n line)
    rwa [List.length_take, Nat.min_eq_left hlength] at hle
  · intro h
    have htake : line.take n = (line.takeWhile isIndent).take n := by
      conv => lhs; rw [← List.takeWhile_append_dropWhile (p := isIndent) (l := line)]
      exact List.take_append_of_le_length h
    refine ⟨Nat.le_trans h (List.takeWhile_prefix isIndent).length_le, fun c hc => ?_⟩
    rw [htake] at hc
    exact isIndent_iff.1 (all_takeWhile_isIndent line c (List.mem_of_mem_take hc))

theorem commonIndent_shared (lines : List (List Char)) :
    SharedIndent lines (commonIndent lines) := by
  refine ⟨fun line hline hblank => loses_iff.2 (commonIndent_le hline hblank), ?_⟩
  rintro ⟨line, hline, hblank⟩ m hm
  have hmem : indentOf line ∈ (lines.filter (!isBlank ·)).map indentOf :=
    List.mem_map_of_mem (List.mem_filter.2 ⟨hline, by rw [hblank]; rfl⟩)
  rw [commonIndent]
  cases hmin : ((lines.filter (!isBlank ·)).map indentOf).min? with
  | none =>
      rw [List.min?_eq_none_iff] at hmin
      rw [hmin] at hmem
      cases hmem
  | some least =>
      obtain ⟨line, hline, rfl⟩ := List.mem_map.1 (List.min?_eq_some_iff.1 hmin).1
      obtain ⟨hline, hblank⟩ := List.mem_filter.1 hline
      rw [Bool.not_eq_true'] at hblank
      exact loses_iff.1 (hm line hline hblank)

theorem SharedIndent.unique {lines : List (List Char)} {m n : Nat} (h : SharedIndent lines m)
    (h' : SharedIndent lines n) (hlines : ∃ line ∈ lines, isBlank line = false) : m = n :=
  Nat.le_antisymm (h'.most hlines m h.shared) (h.most hlines n h'.shared)

theorem isBlank_margin {margin : List Char} (h : ∀ c ∈ margin, isIndent c = true)
    (line : List Char) : isBlank (margin ++ line) = isBlank line := by
  rw [isBlank, List.all_append, List.all_eq_true.2 h, Bool.true_and, isBlank]

/-- A margin in front of all lines is part of what they share. -/
theorem SharedIndent.margin {margin : List Char} (hmargin : ∀ c ∈ margin, isIndent c = true)
    {lines : List (List Char)} {n : Nat} (h : SharedIndent lines n) :
    SharedIndent (lines.map (margin ++ ·)) (margin.length + n) := by
  have hblank : ∀ line, isBlank (margin ++ line) = isBlank line := isBlank_margin hmargin
  have hindent : ∀ line, indentOf (margin ++ line) = margin.length + indentOf line := fun line => by
    rw [indentOf, List.takeWhile_append_of_pos hmargin, List.length_append, indentOf]
  constructor
  · intro _ hmem hshows
    obtain ⟨line, hline, rfl⟩ := List.mem_map.1 hmem
    rw [loses_iff, hindent]
    exact Nat.add_le_add_left (loses_iff.1 (h.shared line hline (hblank line ▸ hshows))) _
  · rintro ⟨_, hmem, hshows⟩ m hm
    obtain ⟨line, hline, rfl⟩ := List.mem_map.1 hmem
    have hle : m - margin.length ≤ n := by
      refine h.most ⟨line, hline, hblank line ▸ hshows⟩ _ fun line hline hshows => ?_
      have hloses := hm _ (List.mem_map_of_mem hline) ((hblank line).trans hshows)
      rw [loses_iff, hindent] at hloses
      exact loses_iff.2 (Nat.sub_le_iff_le_add'.2 hloses)
    omega

/-- What is taken off a line is indentation, also where the line is blank. -/
theorem isBlank_drop {n : Nat} {line : List Char} (h : isBlank line = false → Loses n line) :
    isBlank (line.drop n) = isBlank line := by
  cases hblank : isBlank line with
  | true =>
      have hall : ∀ c ∈ line, isIndent c = true := List.all_eq_true.1 hblank
      exact List.all_eq_true.2 fun c hc => hall c (List.mem_of_mem_drop hc)
  | false =>
      have htake : (line.take n).all isIndent = true :=
        List.all_eq_true.2 fun c hc => isIndent_iff.2 ((h hblank).2 c hc)
      have hwhole : isBlank line = ((line.take n).all isIndent && isBlank (line.drop n)) := by
        rw [isBlank, isBlank, ← List.all_append, List.take_append_drop]
      rw [← hblank, hwhole, htake, Bool.true_and]

theorem isBlank_of_mem_dropped {lines : List (List Char)}
    (h : ∀ line ∈ lines, isBlank line = true) (n : Nat) :
    ∀ line ∈ lines.map (List.drop n), isBlank line = true := by
  intro _ hmem
  obtain ⟨line, hline, rfl⟩ := List.mem_map.1 hmem
  rw [isBlank_drop fun hshows => absurd (h line hline) (by simp [hshows]), h line hline]

theorem trimBlank_eq (lines : List (List Char)) :
    trimBlank lines = (lines.dropWhile isBlank).rdropWhile isBlank := rfl

/-- The lines that are trimmed at either end are blank. -/
theorem exists_trimBlank (lines : List (List Char)) :
    ∃ above below, lines = above ++ (trimBlank lines ++ below)
      ∧ (∀ line ∈ above, isBlank line = true) ∧ ∀ line ∈ below, isBlank line = true := by
  refine ⟨lines.takeWhile isBlank, (lines.dropWhile isBlank).rtakeWhile isBlank, ?_,
    List.all_eq_true.1 List.all_takeWhile, fun line => List.mem_rtakeWhile_imp⟩
  rw [trimBlank_eq, List.rdropWhile_append_rtakeWhile, List.takeWhile_append_dropWhile]

theorem trimBlank_head {lines : List (List Char)} {line : List Char}
    (h : (trimBlank lines).head? = some line) : isBlank line = false := by
  obtain ⟨rest, hrest⟩ := List.head?_eq_some_iff.1 h
  obtain ⟨more, hmore⟩ := List.rdropWhile_prefix isBlank (lines.dropWhile isBlank)
  rw [← trimBlank_eq, hrest] at hmore
  have hhead := List.head?_dropWhile_not isBlank lines
  rw [← hmore] at hhead
  simpa using hhead

theorem trimBlank_last {lines : List (List Char)} {line : List Char}
    (h : (trimBlank lines).getLast? = some line) : isBlank line = false := by
  rw [trimBlank, List.getLast?_reverse] at h
  have hhead := List.head?_dropWhile_not isBlank (lines.dropWhile isBlank).reverse
  rw [h] at hhead
  simpa using hhead

/-- Of lines that are blank from the second on, at most the first is left. -/
theorem trimBlank_blank {first : List Char} {rest : List (List Char)}
    (h : ∀ line ∈ rest, isBlank line = true) : trimBlank (first :: rest) = trimBlank [first] := by
  have hreverse : ∀ line ∈ rest.reverse, isBlank line = true :=
    fun line hline => h line (List.mem_reverse.1 hline)
  cases hfirst : isBlank first with
  | true => simp [trimBlank, hfirst, List.dropWhile_eq_nil_iff.2 h]
  | false => simp [trimBlank, hfirst, List.dropWhile_append_of_pos hreverse]

theorem tail_blanksBefore (n : Nat) (lines : List (List Char)) :
    (blanksBefore n lines).tail = gaps lines := by
  induction lines generalizing n with
  | nil => rfl
  | cons line rest ih =>
      rw [gaps, blanksBefore, blanksBefore]
      split
      · rw [ih, ih]
      · rfl

theorem gaps_cons_blank {line : List Char} (h : isBlank line = true) (rest : List (List Char)) :
    gaps (line :: rest) = gaps rest := by
  rw [gaps, blanksBefore, if_pos h, tail_blanksBefore]

theorem blanksBefore_blank {lines : List (List Char)} (h : ∀ line ∈ lines, isBlank line = true)
    (n : Nat) : blanksBefore n lines = [] := by
  induction lines generalizing n with
  | nil => rfl
  | cons line rest ih =>
      obtain ⟨hline, hrest⟩ := List.forall_mem_cons.1 h
      rw [blanksBefore, if_pos hline, ih hrest]

theorem blanksBefore_append_blank {below : List (List Char)}
    (h : ∀ line ∈ below, isBlank line = true) (n : Nat) (lines : List (List Char)) :
    blanksBefore n (lines ++ below) = blanksBefore n lines := by
  induction lines generalizing n with
  | nil => exact blanksBefore_blank h n
  | cons line rest ih => rw [List.cons_append, blanksBefore, blanksBefore, ih, ih]

/-- Blank lines at either end are in no gap. -/
theorem gaps_append_blank {above below : List (List Char)}
    (habove : ∀ line ∈ above, isBlank line = true) (hbelow : ∀ line ∈ below, isBlank line = true)
    (lines : List (List Char)) : gaps (above ++ (lines ++ below)) = gaps lines := by
  induction above with
  | nil => rw [List.nil_append, gaps, blanksBefore_append_blank hbelow, gaps]
  | cons line above ih =>
      obtain ⟨hline, habove⟩ := List.forall_mem_cons.1 habove
      rw [List.cons_append, gaps_cons_blank hline, ih habove]

theorem blanksBefore_map {f : List Char → List Char} {lines : List (List Char)}
    (h : ∀ line ∈ lines, isBlank (f line) = isBlank line) (n : Nat) :
    blanksBefore n (lines.map f) = blanksBefore n lines := by
  induction lines generalizing n with
  | nil => rfl
  | cons line rest ih =>
      obtain ⟨hline, hrest⟩ := List.forall_mem_cons.1 h
      rw [List.map_cons, blanksBefore, blanksBefore, hline, ih hrest, ih hrest]

/-! ## The same text in other layouts

Two texts differ in layout only if their line ends differ in kind, or if all lines but the
first have one margin in front. The first difference is gone once line ends are unified.
The second one changes the lines and with them what they share: the margin is added to it,
and is taken off with it (`keptLines_margin`). That would not be so where no line from the
second on shows anything, as nothing is shared there; but then all these lines are blank,
and they are dropped with their margins or without. -/

/-- A line feed becomes a line end of another kind. -/
inductive Respells : List Char → List Char → Prop
  | both (before after : List Char) (h : before.getLast? ≠ some '\r') :
      Respells (before ++ '\n' :: after) (before ++ '\r' :: '\n' :: after)
  | alone (before after : List Char) (h : before.getLast? ≠ some '\r')
      (hafter : after.head? ≠ some '\n') :
      Respells (before ++ '\n' :: after) (before ++ '\r' :: after)

/-- A text with a margin in front of each of its lines but the first. -/
def indented (margin : List Char) : List Char → List Char
  | [] => []
  | '\r' :: '\n' :: cs => '\r' :: '\n' :: (margin ++ indented margin cs)
  | c :: cs =>
    if c = '\r' ∨ c = '\n' then c :: (margin ++ indented margin cs) else c :: indented margin cs

/-- With another line end of the same line the line ends are unified to the same. -/
theorem Respells.unifyLineEnds {raw raw' : List Char} (h : Respells raw raw') :
    unifyLineEnds raw' = unifyLineEnds raw := by
  cases h with
  | both before after h =>
      rw [unifyLineEnds_append h, unifyLineEnds_append h]
      rfl
  | alone before after h hafter =>
      have hreturn : BlockString.unifyLineEnds ('\r' :: after)
          = '\n' :: BlockString.unifyLineEnds after := by
        rw [BlockString.unifyLineEnds, if_pos rfl]
        rintro rest - rfl
        exact hafter rfl
      rw [unifyLineEnds_append h, unifyLineEnds_append h, hreturn]
      rfl

theorem indented_head? (margin cs : List Char) : (indented margin cs).head? = cs.head? := by
  fun_cases indented margin cs <;> rfl

/-- A margin goes in front of the lines from the second on. -/
theorem linesFrom_indented {margin : List Char} (h : ∀ c ∈ margin, isIndent c = true)
    (front line cs : List Char) : ∃ first rest, linesFrom line cs = first :: rest
      ∧ linesFrom (front ++ line) (indented margin cs)
        = (front ++ first) :: rest.map (margin ++ ·) := by
  have hchar : ∀ c ∈ margin, c ≠ '\r' ∧ c ≠ '\n' := by
    intro c hc
    rcases isIndent_iff.1 (h c hc) with rfl | rfl <;> decide
  -- What is behind a line end begins with the margin.
  have hnext : ∀ {cs : List Char}, (∀ front, ∃ first rest, linesFrom [] cs = first :: rest
        ∧ linesFrom (front ++ []) (indented margin cs)
          = (front ++ first) :: rest.map (margin ++ ·)) →
      linesFrom [] (margin ++ indented margin cs) = (linesFrom [] cs).map (margin ++ ·) := by
    intro cs ih
    obtain ⟨first, rest, hlines, hindented⟩ := ih margin
    rw [List.append_nil] at hindented
    rw [linesFrom_append hchar, List.nil_append, hindented, hlines, List.map_cons]
  fun_induction linesFrom line cs generalizing front with
  | case1 line => exact ⟨line, [], rfl, rfl⟩
  | case2 line cs ih => exact ⟨line, _, rfl, by rw [indented, linesFrom, hnext ih]⟩
  | case3 line c cs hend hbreak ih =>
      refine ⟨line, _, rfl, ?_⟩
      rw [indented, if_pos hbreak, linesFrom_break hbreak, hnext ih]
      · rintro rfl hfeed
        cases margin with
        | nil =>
            rw [List.nil_append, indented_head?] at hfeed
            obtain ⟨rest, rfl⟩ := List.head?_eq_some_iff.1 hfeed
            exact hend rest rfl rfl
        | cons d margin => exact (hchar d List.mem_cons_self).2 (Option.some.inj hfeed)
      · exact hend
  | case4 line c cs hend hbreak ih =>
      obtain ⟨first, rest, hlines, hindented⟩ := ih front
      refine ⟨first, rest, hlines, ?_⟩
      rw [indented, if_neg hbreak, linesFrom_cons (not_or.1 hbreak), List.append_assoc, hindented]
      exact hend

/-- The lines of a text less what they share and without the blank ones at either end. -/
def keptLines (first : List Char) (rest : List (List Char)) : List (List Char) :=
  trimBlank (first :: rest.map (List.drop (commonIndent rest)))

/-- What is shared is taken off together with the margin. -/
theorem keptLines_margin {margin : List Char} (h : ∀ c ∈ margin, isIndent c = true)
    (first : List Char) (rest : List (List Char)) :
    keptLines first (rest.map (margin ++ ·)) = keptLines first rest := by
  rw [keptLines, keptLines]
  by_cases hshows : ∃ line ∈ rest, isBlank line = false
  · have hcommon : commonIndent (rest.map (margin ++ ·)) = margin.length + commonIndent rest := by
      refine (commonIndent_shared _).unique ((commonIndent_shared rest).margin h) ?_
      obtain ⟨line, hline, hblank⟩ := hshows
      exact ⟨_, List.mem_map_of_mem hline, (isBlank_margin h line).trans hblank⟩
    have hdrop : ∀ line ∈ rest, (margin ++ line).drop (margin.length + commonIndent rest)
        = line.drop (commonIndent rest) := fun line _ => by
      rw [← List.drop_drop, List.drop_left]
    rw [hcommon, List.map_map]
    exact congrArg (trimBlank <| first :: ·) (List.map_congr_left hdrop)
  · -- Only the first line can show something.
    have hblank : ∀ line ∈ rest, isBlank line = true := fun line hline => by
      rw [← Bool.not_eq_false]
      exact fun hline' => hshows ⟨line, hline, hline'⟩
    have hmargin : ∀ line ∈ rest.map (margin ++ ·), isBlank line = true := by
      intro _ hmem
      obtain ⟨line, hline, rfl⟩ := List.mem_map.1 hmem
      rw [isBlank_margin h, hblank line hline]
    rw [trimBlank_blank (isBlank_of_mem_dropped hmargin _),
      trimBlank_blank (isBlank_of_mem_dropped hblank _)]

section

variable (first : List Char) (rest : List (List Char))

theorem isBlank_drop_commonIndent {line : List Char} (h : line ∈ rest) :
    isBlank (line.drop (commonIndent rest)) = isBlank line :=
  isBlank_drop ((commonIndent_shared rest).shared line h)

/-- The lines that show something are kept, less what they share. -/
theorem keptLines_shown : (keptLines first rest).filter (!isBlank ·)
    = [first].filter (!isBlank ·)
      ++ (rest.filter (!isBlank ·)).map (List.drop (commonIndent rest)) := by
  obtain ⟨above, below, hlines, habove, hbelow⟩ :=
    exists_trimBlank (first :: rest.map (List.drop (commonIndent rest)))
  have hnone : ∀ {lines : List (List Char)}, (∀ line ∈ lines, isBlank line = true) →
      lines.filter (!isBlank ·) = [] := fun hblank =>
    List.filter_eq_nil_iff.2 fun line hline => by simp [hblank line hline]
  have hfilter := congrArg (List.filter (!isBlank ·)) hlines
  rw [List.filter_append, List.filter_append, hnone habove, hnone hbelow, List.nil_append,
    List.append_nil] at hfilter
  rw [keptLines, ← hfilter, ← List.singleton_append, List.filter_append, List.filter_map]
  congr 2
  exact List.filter_congr fun line hline =>
    congrArg (! ·) (isBlank_drop_commonIndent rest hline)

theorem gaps_keptLines : gaps (keptLines first rest) = gaps (first :: rest) := by
  obtain ⟨above, below, hlines, habove, hbelow⟩ :=
    exists_trimBlank (first :: rest.map (List.drop (commonIndent rest)))
  have hgaps := gaps_append_blank habove hbelow (keptLines first rest)
  rw [keptLines, ← hlines] at hgaps
  have hblank : ∀ line ∈ rest, isBlank (line.drop (commonIndent rest)) = isBlank line :=
    fun _ => isBlank_drop_commonIndent rest
  rw [keptLines, ← hgaps, gaps, gaps, blanksBefore, blanksBefore, blanksBefore_map hblank,
    blanksBefore_map hblank]

variable {first rest} {raw : List Char}

/-- What a block string stands for, by its lines. -/
theorem dedent_eq (h : linesOf raw = first :: rest) :
    dedent raw = joinLines (keptLines first rest) := by
  rw [dedent, ← linesOf_eq, h, dedentLines, keptLines]

/-- No line that is kept has a line end in it. -/
theorem not_mem_keptLines (h : linesOf raw = first :: rest) {line : List Char}
    (hline : line ∈ keptLines first rest) : '\r' ∉ line ∧ '\n' ∉ line := by
  obtain ⟨above, below, hlines, -, -⟩ :=
    exists_trimBlank (first :: rest.map (List.drop (commonIndent rest)))
  have hwhole : ∃ whole ∈ linesOf raw, ∀ c ∈ line, c ∈ whole := by
    have hmem : line ∈ first :: rest.map (List.drop (commonIndent rest)) := by
      rw [hlines]
      exact List.mem_append_right _ (List.mem_append_left _ hline)
    rw [h]
    rcases List.mem_cons.1 hmem with rfl | hmem
    · exact ⟨line, List.mem_cons_self, fun c hc => hc⟩
    · obtain ⟨whole, hwhole, rfl⟩ := List.mem_map.1 hmem
      exact ⟨whole, List.mem_cons_of_mem _ hwhole, fun c hc => List.mem_of_mem_drop hc⟩
  obtain ⟨whole, hwhole, hsub⟩ := hwhole
  rw [linesOf_eq] at hwhole
  exact ⟨fun hc => not_mem_unifyLineEnds raw (mem_of_mem_splitLines hwhole (hsub _ hc)).1,
    fun hc => (mem_of_mem_splitLines hwhole (hsub _ hc)).2 rfl⟩

theorem not_mem_dedent (h : linesOf raw = first :: rest) : '\r' ∉ dedent raw := by
  rw [dedent_eq h]
  intro hc
  rcases mem_joinLines hc with hc | ⟨line, hline, hc⟩
  · exact absurd hc (by decide)
  · exact (not_mem_keptLines h hline).1 hc

/-- The lines of the value are those that are kept, unless none is. -/
theorem linesOf_dedent (h : linesOf raw = first :: rest) :
    keptLines first rest = [] ∧ dedent raw = []
      ∨ keptLines first rest ≠ [] ∧ linesOf (dedent raw) = keptLines first rest := by
  by_cases hkept : keptLines first rest = []
  · exact .inl ⟨hkept, by rw [dedent_eq h, hkept, joinLines]⟩
  · refine .inr ⟨hkept, ?_⟩
    rw [linesOf_eq, unifyLineEnds_eq (not_mem_dedent h), dedent_eq h]
    exact splitLines_joinLines hkept fun line hline => (not_mem_keptLines h hline).2

end

/--
What of the text `raw`, with the lines `first :: rest`, is kept in `value`. Its line ends
are line feeds, no blank line is left at either end, the lines that are not blank are those
of the text, from the second on less the `shared` characters, and there are as many blank
lines in between.
-/
structure Keeps (raw first : List Char) (rest : List (List Char)) (shared : Nat)
    (value : List Char) : Prop where
  whole : linesOf raw = first :: rest
  most : SharedIndent rest shared
  feeds : '\r' ∉ value
  ends : value = [] ∨ ∃ top bottom, (linesOf value).head? = some top
    ∧ (linesOf value).getLast? = some bottom ∧ isBlank top = false ∧ isBlank bottom = false
  shown : (linesOf value).filter (!isBlank ·)
    = [first].filter (!isBlank ·) ++ (rest.filter (!isBlank ·)).map (List.drop shared)
  between : gaps (linesOf value) = gaps (linesOf raw)

theorem dedent_keeps {raw first : List Char} {rest : List (List Char)}
    (h : linesOf raw = first :: rest) :
    Keeps raw first rest (commonIndent rest) (dedent raw) where
  whole := h
  most := commonIndent_shared rest
  feeds := not_mem_dedent h
  ends := by
    rcases linesOf_dedent h with ⟨-, hnone⟩ | ⟨hne, hlines⟩
    · exact .inl hnone
    · have htop := List.head?_eq_some_head hne
      have hbottom := List.getLast?_eq_some_getLast hne
      rw [hlines]
      exact .inr ⟨_, _, htop, hbottom, trimBlank_head htop, trimBlank_last hbottom⟩
  shown := by
    rw [← keptLines_shown]
    rcases linesOf_dedent h with ⟨hkept, hnone⟩ | ⟨-, hlines⟩
    · rw [hkept, hnone]
      rfl
    · rw [hlines]
  between := by
    rw [h, ← gaps_keptLines]
    rcases linesOf_dedent h with ⟨hkept, hnone⟩ | ⟨-, hlines⟩
    · rw [hkept, hnone]
      rfl
    · rw [hlines]

/--
What a block string stands for keeps the lines of its text, less the indentation that they
share. It does not depend on how the lines of the text end, nor on a margin that all of
them have but the first.
-/
theorem dedent_keepsText (raw : List Char) :
    (∃ first rest shared, Keeps raw first rest shared (dedent raw))
      ∧ (∀ raw', Relation.ReflTransGen Respells raw raw' → dedent raw' = dedent raw)
      ∧ ∀ margin, (∀ c ∈ margin, c = ' ' ∨ c = '\t') →
        dedent (indented margin raw) = dedent raw := by
  refine ⟨?_, fun raw' h => ?_, fun margin h => ?_⟩
  · obtain ⟨first, rest, -, hlines⟩ := exists_linesFrom [] raw
    exact ⟨_, _, _, dedent_keeps hlines⟩
  · induction h with
    | refl => rfl
    | tail _ hstep ih => rw [← ih, dedent, dedent, hstep.unifyLineEnds]
  · have hindent : ∀ c ∈ margin, isIndent c = true := fun c hc => isIndent_iff.2 (h c hc)
    obtain ⟨first, rest, hlines, hindented⟩ := linesFrom_indented hindent [] [] raw
    rw [dedent_eq hindented, dedent_eq hlines, List.nil_append, keptLines_margin hindent]

/-- Margins of spaces and tabs, a blank line, and line ends of all three kinds. -/
theorem dedent_keepsText_mixed :
    Relation.ReflTransGen Respells "a\n\n    b\n\t c\n".toList "a\r\n\r    b\n\t c\n".toList
      ∧ dedent "a\r\n\r    b\n\t c\n".toList = "a\n\n  b\nc".toList
      ∧ (∀ c ∈ "\t ".toList, c = ' ' ∨ c = '\t')
      ∧ dedent (indented "\t ".toList "a\n\n    b\n\t c\n".toList) = "a\n\n  b\nc".toList := by
  have hfirst : Respells "a\n\n    b\n\t c\n".toList "a\r\n\n    b\n\t c\n".toList :=
    .both ['a'] "\n    b\n\t c\n".toList (by decide)
  have hsecond : Respells "a\r\n\n    b\n\t c\n".toList "a\r\n\r    b\n\t c\n".toList :=
    .alone ['a', '\r', '\n'] "    b\n\t c\n".toList (by decide) (by decide)
  have hsteps := Relation.ReflTransGen.tail (.single hfirst) hsecond
  have hmargin : ∀ c ∈ "\t ".toList, c = ' ' ∨ c = '\t' := by simp
  have hvalue : dedent "a\n\n    b\n\t c\n".toList = "a\n\n  b\nc".toList := by decide
  obtain ⟨-, hrespelled, hindented⟩ := dedent_keepsText "a\n\n    b\n\t c\n".toList
  exact ⟨hsteps, (hrespelled _ hsteps).trans hvalue, hmargin, (hindented _ hmargin).trans hvalue⟩

end Sdl.BlockString

end SchemaGraph
