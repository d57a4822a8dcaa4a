import SchemaGraph.Proofs.Derivation

/-!
# What each step of a reader takes

A reader that succeeds has taken something definite from the front of its
lexemes. Here that is said once for the ways to put readers together and once
for each reader of a single lexeme, always as an equivalence: read from left to
right the lemmas take a reader that succeeded apart, read from right to left
they put one together from lexemes that are known.

`peek` is all the lookahead there is. Every choice that a reader makes is a
question about it, and the lemmas on choices put the question so.
-/

namespace SchemaGraph.Sdl.Reader

variable {μ α β : Type} {ts rest : List (Lexeme μ)}

theorem bind_ok {r : Reader μ α} {f : α → Reader μ β} {b : β} :
    (r >>= f) ts = .ok (b, rest) ↔
      ∃ a mid, r ts = .ok (a, mid) ∧ f a mid = .ok (b, rest) := by
  show (r ts >>= fun p => f p.1 p.2) = .ok (b, rest) ↔ _
  cases r ts with
  | error e => simp [bind, Except.bind]
  | ok p =>
      refine ⟨?_, ?_⟩
      · intro h
        exact ⟨p.1, p.2, rfl, h⟩
      · rintro ⟨a, mid, hp, h⟩
        cases hp
        exact h

theorem bind_error {r : Reader μ α} {f : α → Reader μ β} {e : Unexpected μ} :
    (r >>= f) ts = .error e ↔
      r ts = .error e ∨ ∃ a mid, r ts = .ok (a, mid) ∧ f a mid = .error e := by
  show (r ts >>= fun p => f p.1 p.2) = .error e ↔ _
  cases r ts with
  | error e' => simp [bind, Except.bind]
  | ok p =>
      refine ⟨?_, ?_⟩
      · intro h
        exact .inr ⟨p.1, p.2, rfl, h⟩
      · rintro (h | ⟨a, mid, hp, h⟩)
        · cases h
        · cases hp
          exact h

theorem pure_ok {a b : α} : (pure a : Reader μ α) ts = .ok (b, rest) ↔ a = b ∧ ts = rest := by
  show Except.ok (a, ts) = .ok (b, rest) ↔ _
  rw [Except.ok.injEq, Prod.mk.injEq]

theorem map_ok {f : α → β} {r : Reader μ α} {b : β} :
    (f <$> r) ts = .ok (b, rest) ↔ ∃ a, r ts = .ok (a, rest) ∧ f a = b := by
  show (r >>= fun a => pure (f a)) ts = .ok (b, rest) ↔ _
  simp only [bind_ok, pure_ok]
  refine ⟨?_, ?_⟩
  · rintro ⟨a, mid, hr, hf, rfl⟩
    exact ⟨a, hr, hf⟩
  · rintro ⟨a, hr, hf⟩
    exact ⟨a, rest, hr, hf, rfl⟩

theorem get_ok {us : List (Lexeme μ)} :
    (get : Reader μ _) ts = .ok (us, rest) ↔ ts = us ∧ ts = rest := by
  show Except.ok (ts, ts) = .ok (us, rest) ↔ _
  rw [Except.ok.injEq, Prod.mk.injEq]

theorem fail_ok {expected : Expectation} {a : α} :
    (fail expected : Reader μ α) ts = .ok (a, rest) ↔ False := by
  simp [fail]

theorem ite_ok {c : Prop} [Decidable c] {r s : Reader μ α} {a : α} :
    (if c then r else s) ts = .ok (a, rest) ↔
      c ∧ r ts = .ok (a, rest) ∨ ¬ c ∧ s ts = .ok (a, rest) := by
  split <;> rename_i h <;> simp [h]

/-- The next token, or none at the end. -/
def peek (ts : List (Lexeme μ)) : Option Token := ts.head?.map Lexeme.token

@[simp] theorem peek_nil : peek ([] : List (Lexeme μ)) = none := rfl

@[simp] theorem peek_cons {token : Token} {m : μ} : peek (⟨token, m⟩ :: ts) = some token := rfl

theorem peek_eq_none : peek ts = none ↔ ts = [] := by
  simp [peek]

theorem notAt_iff {p : Punctuator} : notAt p ts = true ↔ peek ts ≠ some (.punct p) := by
  cases ts <;> simp [notAt, peek]

theorem atEndOr_iff {p : Punctuator} :
    atEndOr p ts = true ↔ peek ts = none ∨ peek ts = some (.punct p) := by
  cases ts <;> simp [atEndOr, peek]

theorem notAtDirective_iff :
    notAtDirective ts = true ↔ ∀ name, peek ts ≠ some (.directive name) := by
  cases ts with
  | nil => simp [notAtDirective]
  | cons t us => obtain ⟨token, m⟩ := t; cases token <;> simp [notAtDirective]

theorem atKeyword_iff {word : String} :
    atKeyword word ts = true ↔ peek ts = some (.name word) := by
  cases ts with
  | nil => simp [atKeyword]
  | cons t us => obtain ⟨token, m⟩ := t; cases token <;> simp [atKeyword]

theorem punct_ok {p : Punctuator} {expected : Expectation} {u : Unit} :
    punct p expected ts = .ok (u, rest) ↔ ∃ m, ts = ⟨.punct p, m⟩ :: rest := by
  unfold punct
  split
  · next q m us =>
      by_cases h : q = p
      · simp [h]
      · simp [h, fail_ok]
  · next h =>
      simp only [fail_ok, false_iff, not_exists]
      rintro m rfl
      exact h _ _ _ rfl

theorem markedName_ok {expected : Expectation} {text : String} {m : μ} :
    markedName expected ts = .ok ((text, m), rest) ↔ ts = ⟨.name text, m⟩ :: rest := by
  unfold markedName
  split
  · simp [and_assoc]
  · next h =>
      simp only [fail_ok, false_iff]
      rintro rfl
      exact h _ _ _ rfl

theorem name_ok {expected : Expectation} {text : String} :
    name expected ts = .ok (text, rest) ↔ ∃ m, ts = ⟨.name text, m⟩ :: rest := by
  simp [name, map_ok, markedName_ok]

theorem keyword_ok {word : String} {expected : Expectation} {u : Unit} :
    keyword word expected ts = .ok (u, rest) ↔ ∃ m, ts = ⟨.name word, m⟩ :: rest := by
  unfold keyword
  split
  · next text m us =>
      by_cases h : text = word
      · simp [h]
      · simp [h, fail_ok]
  · next h =>
      simp only [fail_ok, false_iff, not_exists]
      rintro m rfl
      exact h _ _ _ rfl

theorem punct?_ok {p : Punctuator} {b : Bool} :
    punct? p ts = .ok (b, rest) ↔
      b = true ∧ (∃ m, ts = ⟨.punct p, m⟩ :: rest) ∨
        b = false ∧ peek ts ≠ some (.punct p) ∧ ts = rest := by
  cases ts with
  | nil => simp [punct?]
  | cons t us =>
      obtain ⟨token, m⟩ := t
      cases token with
      | punct q =>
          by_cases h : q = p
          · simp [punct?, h]
          · simp [punct?, h]
      | _ => simp [punct?]

theorem keyword?_ok {word : String} {b : Bool} :
    keyword? word ts = .ok (b, rest) ↔
      b = true ∧ (∃ m, ts = ⟨.name word, m⟩ :: rest) ∨
        b = false ∧ peek ts ≠ some (.name word) ∧ ts = rest := by
  cases ts with
  | nil => simp [keyword?]
  | cons t us =>
      obtain ⟨token, m⟩ := t
      cases token with
      | name text =>
          by_cases h : text = word
          · simp [keyword?, h]
          · simp [keyword?, h]
      | _ => simp [keyword?]

theorem description?_ok {d : Option String} :
    description? ts = .ok (d, rest) ↔
      (∃ text m, some text = d ∧ ts = ⟨.string text, m⟩ :: rest) ∨
        none = d ∧ (∀ text, peek ts ≠ some (.string text)) ∧ ts = rest := by
  cases ts with
  | nil => simp [description?]
  | cons t us =>
      obtain ⟨token, m⟩ := t
      cases token with
      | string text =>
          refine ⟨?_, ?_⟩
          · intro h
            cases h
            exact .inl ⟨text, m, rfl, rfl⟩
          · rintro (⟨_, _, rfl, h⟩ | ⟨_, h, _⟩)
            · cases h
              rfl
            · exact absurd rfl (h text)
      | _ => simp [description?]

theorem if_punct?_ok {p : Punctuator} {r s : Reader μ α} {a : α} :
    (do if ← punct? p then r else s : Reader μ α) ts = .ok (a, rest) ↔
      (∃ m us, ts = ⟨.punct p, m⟩ :: us ∧ r us = .ok (a, rest)) ∨
        peek ts ≠ some (.punct p) ∧ s ts = .ok (a, rest) := by
  simp only [bind_ok, punct?_ok]
  refine ⟨?_, ?_⟩
  · rintro ⟨b, mid, ⟨rfl, m, rfl⟩ | ⟨rfl, hne, rfl⟩, h⟩
    · exact .inl ⟨m, mid, rfl, by simpa using h⟩
    · exact .inr ⟨hne, by simpa using h⟩
  · rintro (⟨m, us, rfl, h⟩ | ⟨hne, h⟩)
    · exact ⟨true, us, .inl ⟨rfl, m, rfl⟩, by simpa using h⟩
    · exact ⟨false, ts, .inr ⟨rfl, hne, rfl⟩, by simpa using h⟩

theorem if_keyword?_ok {word : String} {r s : Reader μ α} {a : α} :
    (do if ← keyword? word then r else s : Reader μ α) ts = .ok (a, rest) ↔
      (∃ m us, ts = ⟨.name word, m⟩ :: us ∧ r us = .ok (a, rest)) ∨
        peek ts ≠ some (.name word) ∧ s ts = .ok (a, rest) := by
  simp only [bind_ok, keyword?_ok]
  refine ⟨?_, ?_⟩
  · rintro ⟨b, mid, ⟨rfl, m, rfl⟩ | ⟨rfl, hne, rfl⟩, h⟩
    · exact .inl ⟨m, mid, rfl, by simpa using h⟩
    · exact .inr ⟨hne, by simpa using h⟩
  · rintro (⟨m, us, rfl, h⟩ | ⟨hne, h⟩)
    · exact ⟨true, us, .inl ⟨rfl, m, rfl⟩, by simpa using h⟩
    · exact ⟨false, ts, .inr ⟨rfl, hne, rfl⟩, by simpa using h⟩

end SchemaGraph.Sdl.Reader
