import SchemaGraph.Sdl.Lexeme
import SchemaGraph.Source.Excerpt

/-!
# Where lexemes stand

A span is a pair of byte offsets, and a text is cut by characters. The offsets in
the spans of lexemes are such that a text can be cut there: they are the lengths
of what comes before a lexeme and of what comes up to its end. So whatever is
told of a span can be told of the part of the text that it spans.
-/

namespace SchemaGraph

namespace Text

theorem splitAtByte_zero (cs : List Char) : splitAtByte 0 cs = ([], cs) := by
  cases cs with
  | nil => rfl
  | cons c cs =>
      have hpos := c.utf8Size_pos
      rw [splitAtByte, if_neg (by omega)]

/-- A text is cut where its first part ends. -/
theorem splitAtByte_byteLength (before after : List Char) :
    splitAtByte (byteLength before) (before ++ after) = (before, after) := by
  induction before with
  | nil => exact splitAtByte_zero after
  | cons c cs ih =>
      rw [byteLength, List.cons_append, splitAtByte, if_pos (Nat.le_add_right _ _),
        Nat.add_sub_cancel_left, ih]

theorem byteLength_pos {cs : List Char} (h : cs ≠ []) : 0 < byteLength cs := by
  cases cs with
  | nil => exact absurd rfl h
  | cons c cs =>
      have hpos := c.utf8Size_pos
      rw [byteLength]
      omega

theorem byteLength_eq_zero {cs : List Char} : byteLength cs = 0 ↔ cs = [] := by
  refine ⟨fun h => ?_, fun h => h ▸ rfl⟩
  rcases Decidable.em (cs = []) with hnil | hne
  · exact hnil
  · exact absurd h (Nat.ne_of_gt (byteLength_pos hne))

end Text

theorem Location.ofOffset_append (path : String) (before after : List Char) :
    Location.ofOffset path (before ++ after) (Text.byteLength before)
      = ⟨path, (Place.origin.after before).line, (Place.origin.after before).column⟩ := by
  rw [ofOffset, Text.splitAtByte_byteLength]

theorem excerpt_append (before found after : List Char) :
    excerpt (before ++ (found ++ after))
        ⟨Text.byteLength before, Text.byteLength before + Text.byteLength found⟩
      = excerptAround before found after := by
  simp only [excerpt, Text.splitAtByte_byteLength, Nat.add_sub_cancel_left]

namespace Sdl

/-- The lexeme is the text `found`, with `before` in front of it and `after` behind it. -/
structure Lexeme.Cuts (text : List Char) (l : Lexeme Span) (before found after : List Char) :
    Prop where
  whole : text = before ++ (found ++ after)
  piece : ⟨some l.token, found⟩ ∈ pieces text
  mark : l.mark = ⟨Text.byteLength before, Text.byteLength before + Text.byteLength found⟩

theorem exists_cut_of_mem_lexemesFrom {offset : Nat} {ps : List Piece} {l : Lexeme Span}
    (h : l ∈ lexemesFrom offset ps) :
    ∃ front p back, ps = front ++ p :: back ∧ p.token = some l.token
      ∧ l.mark.start = offset + Text.byteLength (front.map Piece.text).flatten
      ∧ l.mark.stop = l.mark.start + Text.byteLength p.text := by
  induction ps generalizing offset with
  | nil => cases h
  | cons p ps ih =>
      have hlater : l ∈ lexemesFrom (offset + Text.byteLength p.text) ps →
          ∃ front q back, p :: ps = front ++ q :: back ∧ q.token = some l.token
            ∧ l.mark.start = offset + Text.byteLength (front.map Piece.text).flatten
            ∧ l.mark.stop = l.mark.start + Text.byteLength q.text := by
        intro hl
        obtain ⟨front, q, back, rfl, htoken, hstart, hstop⟩ := ih hl
        refine ⟨p :: front, q, back, rfl, htoken, ?_, hstop⟩
        simp only [hstart, List.map_cons, List.flatten_cons, Text.byteLength_append]
        omega
      rw [lexemesFrom] at h
      split at h
      · next token htoken =>
          rcases List.mem_cons.1 h with rfl | h
          · exact ⟨[], p, ps, rfl, htoken, rfl, rfl⟩
          · exact hlater h
      · exact hlater h

/-- The span of a lexeme cuts the text in three, and the part in the middle is the lexeme. -/
theorem exists_cut {text : List Char} {l : Lexeme Span} (h : l ∈ lexemes text) :
    ∃ before found after, l.Cuts text before found after := by
  obtain ⟨front, p, back, hps, htoken, hstart, hstop⟩ := exists_cut_of_mem_lexemesFrom h
  have htext := pieces_flatten text
  simp only [hps, List.map_append, List.map_cons, List.flatten_append, List.flatten_cons] at htext
  refine ⟨_, p.text, _, htext.symm, ?_, ?_⟩
  · rw [hps, ← htoken]
    exact List.mem_append_right _ List.mem_cons_self
  · rw [Nat.zero_add] at hstart
    obtain ⟨token, start, stop⟩ := l
    simp only at hstart hstop
    rw [hstop, hstart]

/-- Each piece of a text is what one step finds, from some character on. -/
theorem exists_step_of_mem_pieces {text : List Char} {p : Piece} (h : p ∈ pieces text) :
    ∃ c cs, p = ⟨(Piece.step c cs).token, c :: (Piece.step c cs).tail⟩ := by
  fun_induction pieces text with
  | case1 => cases h
  | case2 c cs s ih =>
      rcases List.mem_cons.1 h with rfl | h
      · exact ⟨c, cs, rfl⟩
      · exact ih h

theorem pieces_ne_nil {text : List Char} {p : Piece} (h : p ∈ pieces text) : p.text ≠ [] := by
  obtain ⟨c, cs, rfl⟩ := exists_step_of_mem_pieces h
  exact List.cons_ne_nil _ _

theorem lexemesFrom_starts {offset : Nat} {ps : List Piece} (h : ∀ p ∈ ps, p.text ≠ []) :
    (lexemesFrom offset ps).Pairwise (·.mark.start < ·.mark.start) := by
  induction ps generalizing offset with
  | nil => exact .nil
  | cons p ps ih =>
      obtain ⟨hp, hps⟩ := List.forall_mem_cons.1 h
      rw [lexemesFrom]
      split
      · refine List.pairwise_cons.2 ⟨fun l hl => ?_, ih hps⟩
        obtain ⟨front, q, back, -, -, hstart, -⟩ := exists_cut_of_mem_lexemesFrom hl
        have hpos := Text.byteLength_pos hp
        simp only [hstart]
        omega
      · exact ih hps

/-- Each lexeme starts behind the start of those before it. -/
theorem lexemes_starts (text : List Char) :
    (lexemes text).Pairwise (·.mark.start < ·.mark.start) :=
  lexemesFrom_starts fun _ => pieces_ne_nil

end Sdl

end SchemaGraph
