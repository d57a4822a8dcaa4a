import Mathlib.Data.List.Induction
import SchemaGraph.Proofs.ReaderSteps
import SchemaGraph.Proofs.Remainder

/-!
# What a reader accepts, the grammar derives

One lemma for each reader and its form: what the reader took is derived by the
form, and what it left is what the derivation leaves.

A repetition costs one thing more. `many` runs on a budget, and a budget could
run out before the lexeme that ends the repetition, so its lemma asks for items
that take at least one lexeme. `Remainder` has settled that on derivations, and
a reader of an item inherits it through the very lemma that says it is sound.
-/

namespace SchemaGraph.Sdl

open Reader

variable {μ α : Type} {ts rest : List (Lexeme μ)}

theorem many_sound {done : List (Lexeme μ) → Bool} {item : Reader μ α} {R : Form μ α}
    (hitem : ∀ {us a mid}, item us = .ok (a, mid) → R us a mid)
    (hR : ∀ {us a mid}, R us a mid → Shorter mid us) (hdone : done [] = true)
    {as : List α} (h : many done item ts = .ok (as, rest)) :
    Star R ts as rest ∧ done rest = true := by
  have hconsumes : item.Consumes := fun _ _ _ h => (hR (hitem h)).2
  generalize hn : ts.length = n
  induction n using Nat.strongRecOn generalizing ts as with
  | ind n ih =>
      subst hn
      rw [many_eq hconsumes hdone] at h
      split at h
      · next hd =>
          cases h
          exact ⟨.nil, hd⟩
      · split at h
        · cases h
        · next a mid hi =>
            split at h
            · cases h
            · next as' rest' hm =>
                cases h
                obtain ⟨hstar, hd⟩ := ih mid.length (hconsumes hi) hm rfl
                exact ⟨.cons (hitem hi) hstar, hd⟩

section

variable {item : Reader μ α} {R : Form μ α} {as : List α}
  (hitem : ∀ {us a mid}, item us = .ok (a, mid) → R us a mid)

include hitem

theorem closed_sound (hR : ∀ {us a mid}, R us a mid → Shorter mid us) {close : Punctuator}
    {expected : Expectation} (h : closed close expected item ts = .ok (as, rest)) :
    ∃ m, Star R ts as (⟨.punct close, m⟩ :: rest) := by
  simp only [closed, bind_ok, punct_ok, pure_ok] at h
  obtain ⟨as', mid, hmany, -, mid', ⟨m, rfl⟩, rfl, rfl⟩ := h
  exact ⟨m, (many_sound hitem hR rfl hmany).1⟩

theorem enclosed?_sound (hR : ∀ {us a mid}, R us a mid → Shorter mid us)
    {opening close : Punctuator} {expected : Expectation}
    (h : enclosed? opening close expected item ts = .ok (as, rest)) :
    EnclosedForm opening close R ts as rest := by
  rw [enclosed?, if_punct?_ok] at h
  rcases h with ⟨m, us, rfl, hclosed⟩ | ⟨-, hnil⟩
  · obtain ⟨m', items⟩ := closed_sound hitem hR hclosed
    exact .present items
  · obtain ⟨rfl, rfl⟩ := pure_ok.1 hnil
    exact .absent

theorem separated_sound (hR : ∀ {us a mid}, R us a mid → After mid us) {p : Punctuator}
    (h : separated p item ts = .ok (as, rest)) : SeparatedForm p R ts as rest := by
  have hpreceded : ∀ {us a mid}, (do punct p (.punct p); item) us = .ok (a, mid) →
      PrecededForm p R us a mid := by
    intro us a mid hi
    simp only [bind_ok, punct_ok] at hi
    obtain ⟨-, us', ⟨m, rfl⟩, hi⟩ := hi
    exact .intro (hitem hi)
  simp only [separated, bind_ok, punct?_ok, pure_ok] at h
  obtain ⟨b, us, hled, a, mid, hfirst, as', mid', hmany, rfl, rfl⟩ := h
  obtain ⟨others, -⟩ := many_sound hpreceded (fun h => h.shorter hR) rfl hmany
  rcases hled with ⟨-, m, rfl⟩ | ⟨-, -, rfl⟩
  · exact .led (.intro (hitem hfirst)) others
  · exact .bare (hitem hfirst) others

theorem labelled_sound {what : String} {a : String × α}
    (h : labelled what item ts = .ok (a, rest)) : LabelledForm R ts a rest := by
  simp only [labelled, bind_ok, name_ok, punct_ok, pure_ok] at h
  obtain ⟨label, us, ⟨m, rfl⟩, -, us', ⟨m', rfl⟩, a', mid, hi, rfl, rfl⟩ := h
  exact .intro (hitem hi)

end

theorem name_sound {expected : Expectation} {text : String}
    (h : name expected ts = .ok (text, rest)) : NameForm ts text rest := by
  obtain ⟨m, rfl⟩ := name_ok.1 h
  exact .intro

theorem description?_sound {d : Option String} (h : description? ts = .ok (d, rest)) :
    DescriptionForm ts d rest := by
  rcases description?_ok.1 h with ⟨text, m, rfl, rfl⟩ | ⟨rfl, -, rfl⟩
  · exact .present
  · exact .absent

theorem bang_ok {t u : TypeExpr} :
    bang t ts = .ok (u, rest) ↔
      (∃ m, ts = ⟨.punct .exclam, m⟩ :: rest ∧ .nonNull t = u) ∨
        peek ts ≠ some (.punct .exclam) ∧ t = u ∧ ts = rest := by
  rw [bang, if_punct?_ok]
  simp only [pure_ok]
  refine ⟨?_, ?_⟩
  · rintro (⟨m, us, rfl, h, rfl⟩ | h)
    · exact .inl ⟨m, rfl, h⟩
    · exact .inr h
  · rintro (⟨m, rfl, h⟩ | h)
    · exact .inl ⟨m, rest, rfl, h, rfl⟩
    · exact .inr h

theorem typeExpr_sound {t : TypeExpr} (h : typeExpr ts = .ok (t, rest)) : TypeForm ts t rest := by
  induction ts using typeExpr.induct generalizing t rest with
  | case1 text m ts =>
      rw [typeExpr] at h
      rcases bang_ok.1 h with ⟨m', rfl, rfl⟩ | ⟨-, rfl, rfl⟩
      · exact .namedNonNull
      · exact .named
  | case2 m ts e he ih => rw [typeExpr, he] at h; cases h
  | case3 m ts t mid ht ih =>
      rw [typeExpr, ht] at h
      simp only [bind_ok, punct_ok, bang_ok] at h
      obtain ⟨-, us, ⟨m', rfl⟩, ⟨m'', rfl, rfl⟩ | ⟨-, rfl, rfl⟩⟩ := h
      · exact .listNonNull (ih ht)
      · exact .list (ih ht)
  | case4 ts hname hlist =>
      rw [typeExpr] at h
      · exact absurd h (by simp [fail_ok])
      · exact hname
      · exact hlist

theorem ValueForm.ofName {text : String} {m : μ} :
    ValueForm (⟨.name text, m⟩ :: ts) (Value.ofName text) ts := by
  unfold Value.ofName
  split
  · exact .true
  · exact .false
  · exact .null
  · next htrue hfalse hnull =>
      exact .enum (by simpa using ⟨htrue, hfalse, hnull⟩)

theorem valueWithin_sound {depth : Nat} {v : Value} (h : valueWithin depth ts = .ok (v, rest)) :
    ValueForm ts v rest := by
  induction depth generalizing ts v rest with
  | zero => exact absurd h (by simp [valueWithin, fail_ok])
  | succ depth ih =>
      unfold valueWithin at h
      split at h
      · cases h; exact .int
      · cases h; exact .float
      · cases h; exact .string
      · cases h; exact .ofName
      · obtain ⟨vs, hvs, rfl⟩ := map_ok.1 h
        obtain ⟨m, items⟩ := closed_sound ih ValueForm.shorter hvs
        exact .list items
      · obtain ⟨fs, hfs, rfl⟩ := map_ok.1 h
        obtain ⟨m, fields⟩ := closed_sound (labelled_sound ih)
          (fun h => h.shorter fun h => h.shorter.1) hfs
        exact .object fields
      · exact (fail_ok.1 h).elim

theorem value_sound {v : Value} (h : value ts = .ok (v, rest)) : ValueForm ts v rest :=
  valueWithin_sound h

theorem directive_sound {d : Directive} (h : directive ts = .ok (d, rest)) :
    DirectiveForm ts d rest := by
  unfold directive at h
  split at h
  · obtain ⟨args, hargs, rfl⟩ := map_ok.1 h
    exact .intro (enclosed?_sound (labelled_sound value_sound)
      (fun h => h.shorter fun h => h.shorter.1) hargs)
  · exact (fail_ok.1 h).elim

theorem directives_sound {ds : List Directive} (h : directives ts = .ok (ds, rest)) :
    Star DirectiveForm ts ds rest :=
  (many_sound directive_sound DirectiveForm.shorter rfl h).1

theorem default?_sound {v : Option Value} (h : default? ts = .ok (v, rest)) :
    DefaultForm ts v rest := by
  rcases if_punct?_ok.1 h with ⟨m, us, rfl, hvalue⟩ | ⟨-, hnone⟩
  · obtain ⟨v, hv, rfl⟩ := map_ok.1 hvalue
    exact .present (value_sound hv)
  · obtain ⟨rfl, rfl⟩ := pure_ok.1 hnone
    exact .absent

theorem inputDef_sound {d : InputDef μ} (h : inputDef ts = .ok (d, rest)) :
    InputForm ts d rest := by
  simp only [inputDef, bind_ok, Prod.exists, markedName_ok, punct_ok, pure_ok] at h
  obtain ⟨description, us, hdescription, name, mark, us₀, rfl, -, us₁, ⟨m, rfl⟩, type, us₂,
    htype, default, us₃, hdefault, ds, us₄, hds, rfl, rfl⟩ := h
  exact .intro (description?_sound hdescription) (typeExpr_sound htype) (default?_sound hdefault)
    (directives_sound hds)

theorem argumentDefs_sound {ds : List (InputDef μ)} (h : argumentDefs ts = .ok (ds, rest)) :
    ArgumentsForm ts ds rest :=
  enclosed?_sound inputDef_sound InputForm.shorter h

theorem argumentsOrColon_ok {u : Unit} :
    argumentsOrColon ts = .ok (u, rest) ↔
      (peek ts = some (.punct .colon) ∨ peek ts = some (.punct .parenOpen)) ∧ ts = rest := by
  unfold argumentsOrColon
  split
  · simp
  · simp
  · next hcolon hopen =>
      simp only [fail_ok, false_iff, not_and]
      cases ts with
      | nil => simp
      | cons t us =>
          obtain ⟨token, m⟩ := t
          rintro (h | h)
          · cases h
            exact (hcolon _ _ rfl).elim
          · cases h
            exact (hopen _ _ rfl).elim

theorem fieldDef_sound {d : FieldDef μ} (h : fieldDef ts = .ok (d, rest)) :
    FieldForm ts d rest := by
  simp only [fieldDef, bind_ok, Prod.exists, markedName_ok, argumentsOrColon_ok, punct_ok,
    pure_ok] at h
  obtain ⟨description, us, hdescription, name, mark, us₀, rfl, -, us₀', ⟨-, rfl⟩, arguments, us₁,
    hargs, -, us₂, ⟨m, rfl⟩, type, us₃, htype, ds, us₄, hds, rfl, rfl⟩ := h
  exact .intro (description?_sound hdescription) (argumentDefs_sound hargs)
    (typeExpr_sound htype) (directives_sound hds)

theorem enumValueName_ok {text : String} {m : μ} :
    enumValueName ts = .ok ((text, m), rest) ↔
      ts = ⟨.name text, m⟩ :: rest ∧ text ∉ ["true", "false", "null"] := by
  unfold enumValueName
  split
  · next text' m' us =>
      by_cases hreserved : text' = "true" ∨ text' = "false" ∨ text' = "null"
      · rw [if_pos hreserved, fail_ok]
        grind
      · rw [if_neg hreserved]
        grind
  · next h =>
      simp only [fail_ok, false_iff, not_and]
      rintro rfl
      exact (h _ _ _ rfl).elim

theorem enumValueDef_sound {d : EnumValueDef μ} (h : enumValueDef ts = .ok (d, rest)) :
    EnumValueForm ts d rest := by
  simp only [enumValueDef, bind_ok, Prod.exists, enumValueName_ok, pure_ok] at h
  obtain ⟨description, us, hdescription, name, mark, us₁, ⟨rfl, hname⟩, ds, us₂, hds, rfl, rfl⟩ :=
    h
  exact .intro (description?_sound hdescription) hname (directives_sound hds)

theorem implemented_sound {names : List String} (h : implemented ts = .ok (names, rest)) :
    ImplementsForm ts names rest := by
  rcases if_keyword?_ok.1 h with ⟨m, us, rfl, hnames⟩ | ⟨-, hnil⟩
  · exact .present (separated_sound name_sound (fun h => h.shorter.1) hnames)
  · obtain ⟨rfl, rfl⟩ := pure_ok.1 hnil
    exact .absent

theorem unionMembers_sound {names : List String} (h : unionMembers ts = .ok (names, rest)) :
    MembersForm ts names rest := by
  rcases if_punct?_ok.1 h with ⟨m, us, rfl, hnames⟩ | ⟨-, hnil⟩
  · exact .present (separated_sound name_sound (fun h => h.shorter.1) hnames)
  · obtain ⟨rfl, rfl⟩ := pure_ok.1 hnil
    exact .absent

theorem typeBody_sound {kind : TypeKind} {body : TypeBody μ}
    (h : typeBody kind ts = .ok (body, rest)) : BodyForm kind ts body rest := by
  cases kind with
  | scalar =>
      simp only [typeBody, bind_ok, pure_ok] at h
      obtain ⟨ds, us, hds, rfl, rfl⟩ := h
      exact .scalar (directives_sound hds)
  | object =>
      simp only [typeBody, bind_ok, pure_ok] at h
      obtain ⟨names, us, hnames, ds, us', hds, fields, us'', hfields, rfl, rfl⟩ := h
      exact .object (implemented_sound hnames) (directives_sound hds)
        (enclosed?_sound fieldDef_sound FieldForm.shorter hfields)
  | interface =>
      simp only [typeBody, bind_ok, pure_ok] at h
      obtain ⟨names, us, hnames, ds, us', hds, fields, us'', hfields, rfl, rfl⟩ := h
      exact .interface (implemented_sound hnames) (directives_sound hds)
        (enclosed?_sound fieldDef_sound FieldForm.shorter hfields)
  | union =>
      simp only [typeBody, bind_ok, pure_ok] at h
      obtain ⟨ds, us, hds, names, us', hnames, rfl, rfl⟩ := h
      exact .union (directives_sound hds) (unionMembers_sound hnames)
  | enum =>
      simp only [typeBody, bind_ok, pure_ok] at h
      obtain ⟨ds, us, hds, values, us', hvalues, rfl, rfl⟩ := h
      exact .enum (directives_sound hds)
        (enclosed?_sound enumValueDef_sound EnumValueForm.shorter hvalues)
  | input =>
      simp only [typeBody, bind_ok, pure_ok] at h
      obtain ⟨ds, us, hds, fields, us', hfields, rfl, rfl⟩ := h
      exact .input (directives_sound hds)
        (enclosed?_sound inputDef_sound InputForm.shorter hfields)

theorem TypeKind.ofKeyword?_eq_some {text : String} {kind : TypeKind} :
    TypeKind.ofKeyword? text = some kind ↔ text = kind.keyword := by
  refine ⟨?_, ?_⟩
  · intro h
    unfold TypeKind.ofKeyword? at h
    split at h <;> cases h <;> rfl
  · rintro rfl
    cases kind <;> rfl

theorem typeKeyword_ok {kind : TypeKind} {m : μ} :
    typeKeyword ts = .ok ((kind, m), rest) ↔ ts = ⟨.name kind.keyword, m⟩ :: rest := by
  unfold typeKeyword
  split
  · next text m' us =>
      cases hk : TypeKind.ofKeyword? text with
      | none =>
          simp only [fail_ok, false_iff]
          intro he
          cases he
          rw [TypeKind.ofKeyword?_eq_some.2 rfl] at hk
          cases hk
      | some kind' =>
          obtain rfl := TypeKind.ofKeyword?_eq_some.1 hk
          refine ⟨?_, ?_⟩
          · intro h
            cases h
            rfl
          · intro h
            simp only [List.cons.injEq, Lexeme.mk.injEq, Token.name.injEq] at h
            obtain ⟨⟨hword, rfl⟩, rfl⟩ := h
            rw [TypeKind.ofKeyword?_eq_some.2 hword] at hk
            cases hk
            rfl
  · next h =>
      simp only [fail_ok, false_iff]
      rintro rfl
      exact h _ _ _ rfl

theorem typeDef_sound {description : Option String} {d : TypeDef μ}
    (h : typeDef description ts = .ok (d, rest)) : TypeDefForm description ts d rest := by
  simp only [typeDef, bind_ok, Prod.exists, typeKeyword_ok, name_ok, pure_ok] at h
  obtain ⟨kind, mark, us, rfl, name, us', ⟨m, rfl⟩, body, us'', hbody, rfl, rfl⟩ := h
  exact .intro (typeBody_sound hbody)

theorem Operation.ofWord?_eq_some {text : String} {o : Operation} :
    Operation.ofWord? text = some o ↔ text = o.word := by
  refine ⟨?_, ?_⟩
  · intro h
    unfold Operation.ofWord? at h
    split at h <;> cases h <;> rfl
  · rintro rfl
    exact Operation.ofWord?_word o

theorem operation_ok {o : Operation} :
    operation ts = .ok (o, rest) ↔ ∃ m, ts = ⟨.name o.word, m⟩ :: rest := by
  unfold operation
  split
  · next text m us =>
      cases ho : Operation.ofWord? text with
      | none =>
          simp only [fail_ok, false_iff, not_exists]
          intro m' he
          cases he
          rw [Operation.ofWord?_word] at ho
          cases ho
      | some o' =>
          obtain rfl := Operation.ofWord?_eq_some.1 ho
          refine ⟨?_, ?_⟩
          · intro h
            cases h
            exact ⟨m, rfl⟩
          · rintro ⟨m', h⟩
            simp only [List.cons.injEq, Lexeme.mk.injEq, Token.name.injEq] at h
            obtain ⟨⟨hword, -⟩, rfl⟩ := h
            rw [hword, Operation.ofWord?_word] at ho
            cases ho
            rfl
  · next h =>
      simp only [fail_ok, false_iff, not_exists]
      rintro m rfl
      exact h _ _ _ rfl

theorem rootEntry_sound {e : Operation × String} (h : rootEntry ts = .ok (e, rest)) :
    RootEntryForm ts e rest := by
  simp only [rootEntry, bind_ok, operation_ok, punct_ok, name_ok, pure_ok] at h
  obtain ⟨o, us, ⟨m, rfl⟩, -, us', ⟨m', rfl⟩, name, us'', ⟨m'', rfl⟩, rfl, rfl⟩ := h
  exact .intro

/-- Setting the roots one entry after the other leaves for each the last that is named. -/
theorem foldl_set_eq_ofEntries (entries : List (Operation × String)) :
    entries.foldl (fun roots (o, type) => roots.set type o) .empty
      = RootNames.ofEntries entries := by
  induction entries using List.reverseRecOn with
  | nil => rfl
  | append_singleton entries e ih =>
      obtain ⟨o, type⟩ := e
      rw [List.foldl_append, ih]
      cases o <;> simp [RootNames.ofEntries, RootNames.set, List.lookup_cons] <;>
        exact ⟨rfl, rfl⟩

theorem schemaRoots_sound {roots : RootNames} (h : schemaRoots ts = .ok (roots, rest)) :
    SchemaForm ts roots rest := by
  simp only [schemaRoots, bind_ok, keyword_ok, pure_ok] at h
  obtain ⟨-, us, ⟨m, rfl⟩, ds, us', hds, entries, us'', hentries, rfl, rfl⟩ := h
  rw [foldl_set_eq_ofEntries]
  exact .intro (directives_sound hds)
    (enclosed?_sound rootEntry_sound RootEntryForm.shorter hentries)

theorem directiveLocation_sound {text : String} (h : directiveLocation ts = .ok (text, rest)) :
    PlaceForm ts text rest := by
  unfold directiveLocation at h
  split at h
  · next text' m us =>
      by_cases hplace : text' ∈ directiveLocations
      · rw [if_pos hplace] at h
        cases h
        exact .intro hplace
      · rw [if_neg hplace] at h
        exact (fail_ok.1 h).elim
  · exact (fail_ok.1 h).elim

theorem directiveName_ok {name : String} :
    directiveName ts = .ok (name, rest) ↔ ∃ m, ts = ⟨.directive name, m⟩ :: rest := by
  unfold directiveName
  split
  · simp
  · next h =>
      simp only [fail_ok, false_iff, not_exists]
      rintro m rfl
      exact h _ _ _ rfl

theorem directiveDefinition_sound {name : String}
    (h : directiveDefinition ts = .ok (name, rest)) : DirectiveDefForm ts name rest := by
  simp only [directiveDefinition, bind_ok, keyword_ok, directiveName_ok, keyword?_ok,
    pure_ok] at h
  obtain ⟨-, us, ⟨m, rfl⟩, name, us₀, ⟨m', rfl⟩, arguments, us₁, hargs, b, us₂, hrepeatable, -,
    us₃, ⟨m'', rfl⟩, places, us₄, hplaces, rfl, rfl⟩ := h
  have hrepeating : RepeatableForm us₁ () (⟨.name "on", m''⟩ :: us₃) := by
    rcases hrepeatable with ⟨-, m, rfl⟩ | ⟨-, -, rfl⟩
    · exact .present
    · exact .absent
  exact .intro (argumentDefs_sound hargs) hrepeating
    (separated_sound directiveLocation_sound (fun h => h.shorter.1) hplaces)

theorem extension_sound {d : Definition μ} (h : extension ts = .ok (d, rest)) :
    DefinitionForm ts d rest := by
  simp only [extension, bind_ok, keyword_ok, get_ok, ite_ok, pure_ok] at h
  obtain ⟨-, us, ⟨m, rfl⟩, us', us'', ⟨rfl, rfl⟩, ⟨-, roots, us''', hroots, rfl, rfl⟩ |
    ⟨-, e, us''', he, rfl, rfl⟩⟩ := h
  · exact .extendSchema (schemaRoots_sound hroots)
  · exact .extendType (typeDef_sound he)

theorem definition_sound {d : Definition μ} (h : definition ts = .ok (d, rest)) :
    DefinitionForm ts d rest := by
  simp only [definition, bind_ok, get_ok, ite_ok, fail_ok, pure_ok] at h
  obtain ⟨description, us, hdescription, us', us'', ⟨rfl, rfl⟩, h⟩ := h
  have hdescribed := description?_sound hdescription
  rcases h with ⟨-, hfalse⟩ | ⟨-, ⟨-, roots, us', hroots, rfl, rfl⟩ |
    ⟨-, ⟨-, name, us', hname, rfl, rfl⟩ | ⟨-, ⟨-, ⟨-, hfalse⟩ | ⟨hnone, hextension⟩⟩ |
      ⟨-, e, us', he, rfl, rfl⟩⟩⟩⟩
  · exact hfalse.elim
  · exact .schema hdescribed (schemaRoots_sound hroots)
  · exact .directive hdescribed (directiveDefinition_sound hname)
  · exact hfalse.elim
  · cases hdescribed with
    | absent => exact extension_sound hextension
    | present => exact absurd rfl hnone
  · exact .type hdescribed (typeDef_sound he)

theorem definitions_sound {ds : List (Definition μ)} (h : definitions ts = .ok (ds, rest)) :
    Derives ts ds ∧ rest = [] := by
  obtain ⟨hstar, hrest⟩ := many_sound definition_sound DefinitionForm.shorter rfl h
  obtain rfl := List.isEmpty_iff.1 hrest
  exact ⟨hstar, rfl⟩

end SchemaGraph.Sdl
