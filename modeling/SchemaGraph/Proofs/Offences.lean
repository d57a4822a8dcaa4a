import SchemaGraph.Document
import SchemaGraph.Proofs.Lookahead
import SchemaGraph.Proofs.ReaderComplete
import SchemaGraph.Proofs.Spans

/-!
# Errors are reported where they are

A text that is no document goes wrong somewhere: up to some token it could still
become one, and with that token it cannot any more. That token is what a report
is about, and the end of the text counts as one here.

The readers foresee what the grammar derives, so a reader that fails has taken
what can be gone on with and fails at what cannot. Faults of tokens are no part of
any document. So a fault is reported as such if nothing was wrong before it, and
it is not noticed if something was.
-/

namespace SchemaGraph

open Sdl

namespace Sdl

variable {μ : Type}

/-- Whether some document starts with these lexemes. -/
def Viable (ts : List (Lexeme μ)) : Prop := ∃ us ds, Derives (ts ++ us) ds

/-- No document has a fault in it. -/
theorem Viable.isValid {ts : List (Lexeme μ)} (h : Viable ts) :
    ∀ l ∈ ts, l.token.isValid = true := by
  obtain ⟨us, ds, hderives⟩ := h
  exact fun l hl => hderives.isValid l (List.mem_append_left us hl)

theorem getElem?_toList_append {s t : String} {i : Nat} {c : Char} (h : s.toList[i]? = some c) :
    (s ++ t).toList[i]? = some c := by
  obtain ⟨hi, -⟩ := List.getElem?_eq_some_iff.1 h
  rw [String.toList_append, List.getElem?_append_left hi, h]

theorem Expectation.message_first (expected : Expectation) (found : String) :
    expected = .listEnd
      ∨ (expected.message found).toList[0]? ∈ [some 'E', some 'S', some 'D'] := by
  -- Some messages do not tell what was found.
  have hfixed : ∀ e ∈ [unreservedName, onKeyword, schemaKeyword, directiveKeyword, schemaEnd,
      describedDefinition, undescribedExtension],
      (message "" e).toList[0]? ∈ [some 'E', some 'S', some 'D'] := by decide
  cases expected with
  | listEnd => exact .inl rfl
  | punct | name =>
      exact .inr (List.mem_cons.2 (.inl (getElem?_toList_append (getElem?_toList_append
        (getElem?_toList_append (by decide))))))
  | typeDefinition =>
      exact .inr (List.mem_cons.2 (.inl (getElem?_toList_append
        (getElem?_toList_append (by decide)))))
  | unreservedName => exact .inr (hfixed .unreservedName (by decide))
  | onKeyword => exact .inr (hfixed .onKeyword (by decide))
  | schemaKeyword => exact .inr (hfixed .schemaKeyword (by decide))
  | directiveKeyword => exact .inr (hfixed .directiveKeyword (by decide))
  | schemaEnd => exact .inr (hfixed .schemaEnd (by decide))
  | describedDefinition => exact .inr (hfixed .describedDefinition (by decide))
  | undescribedExtension => exact .inr (hfixed .undescribedExtension (by decide))
  | _ => exact .inr (List.mem_cons.2 (.inl (getElem?_toList_append (by decide))))

theorem LexicalFault.message_first (fault : LexicalFault) :
    ∃ c ∈ ['U', 'I'], fault.message.toList[0]? = some c := by
  cases fault with
  | unterminatedBlock | unterminatedString => exact ⟨'U', by simp, by decide⟩
  | badEscape => exact ⟨'I', by simp, by decide⟩
  | unexpected c =>
      exact ⟨'U', by simp, getElem?_toList_append (getElem?_toList_append (by decide))⟩

theorem LexicalFault.message_ne (fault : LexicalFault) : fault.message ≠ "Unterminated list" := by
  cases fault with
  | unexpected c =>
      intro h
      have hthird : (unexpected c).message.toList[2]? = some 'e' :=
        getElem?_toList_append (getElem?_toList_append (by decide))
      rw [h] at hthird
      exact absurd hthird (by decide)
  | _ => decide

/-- What is said of a fault is never said of a token that is not expected. -/
theorem Expectation.message_ne (expected : Expectation) (found : String) (fault : LexicalFault) :
    expected.message found ≠ fault.message := by
  rcases expected.message_first found with rfl | hfirst
  · exact fun h => fault.message_ne h.symm
  · intro h
    obtain ⟨c, hc, hfault⟩ := fault.message_first
    rw [h, hfault] at hfirst
    simp only [List.mem_cons, List.not_mem_nil, or_false] at hc
    rcases hc with rfl | rfl <;> exact absurd hfirst (by decide)

end Sdl

theorem Sdl.Unexpected.message_fault {u : Unexpected Span} {fault : LexicalFault}
    (h : u.found.map Lexeme.token = some (.invalid fault)) : u.message = fault.message := by
  obtain ⟨expected, found⟩ := u
  obtain ⟨⟨token, m⟩, rfl, rfl⟩ := Option.map_eq_some_iff.1 h
  rfl

theorem Sdl.Unexpected.message_grammar {u : Unexpected Span}
    (h : ∀ fault, u.found.map Lexeme.token ≠ some (.invalid fault)) :
    u.message = u.expected.message (u.found.elim "End" (·.token.describe)) := by
  obtain ⟨expected, found⟩ := u
  cases found with
  | none => rfl
  | some l =>
      obtain ⟨token, m⟩ := l
      cases token with
      | invalid fault => exact absurd rfl (h fault)
      | _ => rfl

end SchemaGraph
