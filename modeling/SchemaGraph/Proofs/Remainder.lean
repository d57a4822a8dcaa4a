import SchemaGraph.Proofs.Derivation

/-!
# What derivations leave over

A derivation takes lexemes from the front, each of them a token that some rule
admits; so it leaves a suffix, and no faults are in what it took. And a form
that can be repeated takes at least one lexeme. That is what makes every
repetition end: a repetition whose items could be empty would derive one text in
infinitely many ways, and a reader of it would need a budget that no length of
the text bounds.

All this is read off the rules one by one. Only a value needs an induction of its
own, because its rule refers to itself from inside a repetition.
-/

namespace SchemaGraph.Sdl

/-- Whether a token is one that the language has. -/
def Token.isValid : Token → Bool
  | .invalid _ => false
  | _ => true

variable {μ α : Type} {ts rest : List (Lexeme μ)}

/-- `rest` is what stands in `ts` after some lexemes that are no faults. -/
def After (rest ts : List (Lexeme μ)) : Prop :=
  ∃ taken, ts = taken ++ rest ∧ ∀ l ∈ taken, l.token.isValid = true

/-- `rest` is what stands after at least one lexeme of `ts`. -/
def Shorter (rest ts : List (Lexeme μ)) : Prop := After rest ts ∧ rest.length < ts.length

theorem After.refl : After ts ts := ⟨[], rfl, by simp⟩

theorem After.trans {mid : List (Lexeme μ)} (h : After rest mid) (hm : After mid ts) :
    After rest ts := by
  obtain ⟨taken, rfl, hvalid⟩ := h
  obtain ⟨taken', rfl, hvalid'⟩ := hm
  refine ⟨taken' ++ taken, (List.append_assoc _ _ _).symm, fun l hl => ?_⟩
  rcases List.mem_append.1 hl with hl | hl
  · exact hvalid' l hl
  · exact hvalid l hl

theorem After.skip {l : Lexeme μ} (h : l.token.isValid = true) : After ts (l :: ts) :=
  ⟨[l], rfl, by simpa using h⟩

theorem After.suffix (h : After rest ts) : rest <:+ ts := by
  obtain ⟨taken, rfl, -⟩ := h
  exact List.suffix_append _ _

theorem After.length_le (h : After rest ts) : rest.length ≤ ts.length := h.suffix.length_le

theorem Shorter.cons {l : Lexeme μ} (hl : l.token.isValid = true) (h : After rest ts) :
    Shorter rest (l :: ts) := by
  have hle := h.length_le
  exact ⟨h.trans (.skip hl), by simp only [List.length_cons]; omega⟩

theorem Shorter.of_after_right {mid : List (Lexeme μ)} (h : Shorter rest mid) (hm : After mid ts) :
    Shorter rest ts := by
  have hle := hm.length_le
  exact ⟨h.1.trans hm, by have := h.2; omega⟩

/-- A repetition leaves a suffix if each of its own items does. -/
theorem Star.after {R : Form μ α} {as : List α} (h : Star R ts as rest)
    (hR : ∀ a ∈ as, ∀ {us mid}, R us a mid → After mid us) : After rest ts := by
  induction h with
  | nil => exact .refl
  | cons head _ ih =>
      have hhead := hR _ List.mem_cons_self head
      exact (ih fun a ha => hR a (List.mem_cons_of_mem _ ha)).trans hhead

theorem EnclosedForm.after {opening close : Punctuator} {R : Form μ α} {as : List α}
    (h : EnclosedForm opening close R ts as rest)
    (hR : ∀ a ∈ as, ∀ {us mid}, R us a mid → After mid us) : After rest ts := by
  cases h with
  | absent => exact .refl
  | present items =>
      have hmid := (After.skip (by rfl)).trans (items.after hR)
      exact hmid.trans (.skip (by rfl))

theorem PrecededForm.shorter {p : Punctuator} {R : Form μ α} {a : α}
    (h : PrecededForm p R ts a rest) (hR : ∀ {us mid}, R us a mid → After mid us) :
    Shorter rest ts := by
  cases h with
  | intro item => exact .cons (by rfl) (hR item)

theorem SeparatedForm.after {p : Punctuator} {R : Form μ α} {as : List α}
    (h : SeparatedForm p R ts as rest) (hR : ∀ {a us mid}, R us a mid → After mid us) :
    After rest ts := by
  cases h with
  | bare first others => exact (others.after fun _ _ _ _ h => (h.shorter hR).1).trans (hR first)
  | led first others =>
      exact (others.after fun _ _ _ _ h => (h.shorter hR).1).trans (first.shorter hR).1

theorem NameForm.shorter {text : String} (h : NameForm ts text rest) : Shorter rest ts := by
  cases h with
  | intro => exact .cons (by rfl) (.refl)

theorem DescriptionForm.after {d : Option String} (h : DescriptionForm ts d rest) :
    After rest ts := by
  cases h with
  | absent => exact .refl
  | present => exact .skip (by rfl)

theorem LabelledForm.shorter {R : Form μ α} {a : String × α} (h : LabelledForm R ts a rest)
    (hR : ∀ {us mid}, R us a.2 mid → After mid us) : Shorter rest ts := by
  cases h with
  | intro item => exact .cons (by rfl) ((hR item).trans (.skip (by rfl)))

theorem TypeForm.shorter {t : TypeExpr} (h : TypeForm ts t rest) : Shorter rest ts := by
  induction h with
  | named => exact .cons (by rfl) (.refl)
  | namedNonNull => exact .cons (by rfl) (.skip (by rfl))
  | list _ ih => exact .cons (by rfl) ((After.skip (by rfl)).trans ih.1)
  | listNonNull _ ih =>
      exact .cons (by rfl) (((After.skip (by rfl)).trans (.skip (by rfl))).trans ih.1)

/-- The rule of values goes through repetitions of itself, so the induction is on the value. -/
theorem ValueForm.shorter {v : Value} {ts rest : List (Lexeme μ)} (h : ValueForm ts v rest) :
    Shorter rest ts := by
  match v, h with
  | _, .int | _, .float | _, .string | _, .true | _, .false | _, .null | _, .enum _ =>
      exact .cons (by rfl) (.refl)
  | .list vs, .list items =>
      have hmid := items.after fun v hv _ _ h => (ValueForm.shorter h).1
      exact .cons (by rfl) ((After.skip (by rfl)).trans hmid)
  | .object fs, .object fields =>
      have hmid := fields.after fun f hf _ _ h =>
        (h.shorter fun h => (ValueForm.shorter h).1).1
      exact .cons (by rfl) ((After.skip (by rfl)).trans hmid)
termination_by v
decreasing_by
  · have := List.sizeOf_lt_of_mem hv
    simp_wf
    omega
  · have := List.sizeOf_lt_of_mem hf
    obtain ⟨name, v⟩ := f
    simp_wf
    simp at this
    omega

theorem DirectiveForm.shorter {d : Directive} (h : DirectiveForm ts d rest) : Shorter rest ts := by
  cases h with
  | intro arguments =>
      exact .cons (by rfl) (arguments.after fun _ _ _ _ h => (h.shorter fun h => h.shorter.1).1)

theorem Star.directive_after {ds : List Directive} (h : Star DirectiveForm ts ds rest) :
    After rest ts := h.after fun _ _ _ _ h => h.shorter.1

theorem DefaultForm.after {v : Option Value} (h : DefaultForm ts v rest) : After rest ts := by
  cases h with
  | absent => exact .refl
  | present value => exact value.shorter.1.trans (.skip (by rfl))

theorem InputForm.shorter {d : InputDef μ} (h : InputForm ts d rest) : Shorter rest ts := by
  cases h with
  | intro described typed defaulted directed =>
      have htail := directed.directive_after.trans (defaulted.after.trans typed.shorter.1)
      exact (Shorter.cons (by rfl) (htail.trans (.skip (by rfl)))).of_after_right described.after

theorem FieldForm.shorter {d : FieldDef μ} (h : FieldForm ts d rest) : Shorter rest ts := by
  cases h with
  | intro described argued typed directed =>
      have hargued := argued.after fun _ _ _ _ h => h.shorter.1
      have htail := directed.directive_after.trans typed.shorter.1
      exact (Shorter.cons (by rfl) ((htail.trans (.skip (by rfl))).trans hargued)).of_after_right
        described.after

theorem EnumValueForm.shorter {d : EnumValueDef μ} (h : EnumValueForm ts d rest) :
    Shorter rest ts := by
  cases h with
  | intro described _ directed =>
      exact (Shorter.cons (by rfl) directed.directive_after).of_after_right described.after

theorem RootEntryForm.shorter {e : Operation × String} (h : RootEntryForm ts e rest) :
    Shorter rest ts := by
  cases h with
  | intro => exact .cons (by rfl) ((After.skip (by rfl)).trans (.skip (by rfl)))

theorem ImplementsForm.after {names : List String} (h : ImplementsForm ts names rest) :
    After rest ts := by
  cases h with
  | absent => exact .refl
  | present interfaces =>
      exact (interfaces.after fun h => h.shorter.1).trans (.skip (by rfl))

theorem MembersForm.after {names : List String} (h : MembersForm ts names rest) :
    After rest ts := by
  cases h with
  | absent => exact .refl
  | present members => exact (members.after fun h => h.shorter.1).trans (.skip (by rfl))

theorem BodyForm.after {kind : TypeKind} {body : TypeBody μ} (h : BodyForm kind ts body rest) :
    After rest ts := by
  cases h with
  | scalar directed => exact directed.directive_after
  | object implementing directed braced | interface implementing directed braced =>
      have hbraced := braced.after fun _ _ _ _ h => h.shorter.1
      exact hbraced.trans (directed.directive_after.trans implementing.after)
  | union directed joined => exact joined.after.trans directed.directive_after
  | enum directed braced =>
      exact (braced.after fun _ _ _ _ h => h.shorter.1).trans directed.directive_after
  | input directed braced =>
      exact (braced.after fun _ _ _ _ h => h.shorter.1).trans directed.directive_after

theorem TypeDefForm.shorter {description : Option String} {d : TypeDef μ}
    (h : TypeDefForm description ts d rest) : Shorter rest ts := by
  cases h with
  | intro bodied => exact .cons (by rfl) (bodied.after.trans (.skip (by rfl)))

theorem SchemaForm.shorter {roots : RootNames} (h : SchemaForm ts roots rest) :
    Shorter rest ts := by
  cases h with
  | intro directed braced =>
      have hbraced := braced.after fun _ _ _ _ h => h.shorter.1
      exact .cons (by rfl) (hbraced.trans directed.directive_after)

theorem PlaceForm.shorter {text : String} (h : PlaceForm ts text rest) : Shorter rest ts := by
  cases h with
  | intro => exact .cons (by rfl) (.refl)

theorem RepeatableForm.after {u : Unit} (h : RepeatableForm ts u rest) : After rest ts := by
  cases h with
  | absent => exact .refl
  | present => exact .skip (by rfl)

theorem DirectiveDefForm.shorter {name : String} (h : DirectiveDefForm ts name rest) :
    Shorter rest ts := by
  cases h with
  | intro argued repeating placed =>
      have hplaced := placed.after fun h => h.shorter.1
      have hon := (hplaced.trans (.skip (by rfl))).trans repeating.after
      have hargued := hon.trans (argued.after fun _ _ _ _ h => h.shorter.1)
      exact .cons (by rfl) (hargued.trans (.skip (by rfl)))

theorem DefinitionForm.shorter {d : Definition μ} (h : DefinitionForm ts d rest) :
    Shorter rest ts := by
  cases h with
  | schema described defined => exact defined.shorter.of_after_right described.after
  | directive described defined => exact defined.shorter.of_after_right described.after
  | extendSchema defined => exact .cons (by rfl) defined.shorter.1
  | extendType defined => exact .cons (by rfl) defined.shorter.1
  | type described defined => exact defined.shorter.of_after_right described.after

/-- Nothing in a document that the grammar derives is a fault. -/
theorem Derives.isValid {ds : List (Definition μ)} (h : Derives ts ds) :
    ∀ l ∈ ts, l.token.isValid = true := by
  obtain ⟨taken, htaken, hvalid⟩ := Star.after h fun _ _ _ _ h => h.shorter.1
  rw [htaken, List.append_nil]
  exact hvalid

end SchemaGraph.Sdl
