import SchemaGraph.Proofs.Foresight
import SchemaGraph.Proofs.ReaderSound

/-!
# The grammar needs one lexeme ahead

Each reader of the grammar foresees its form. Nothing has to be argued here but
what a form is made of, as the parts of a reader and the ways to put them together
have been looked at already.

Two readers call themselves. A type reference does so right after a bracket, with
fewer lexemes left. A value is read with a limit to its depth, and the limit
depends on how many lexemes there are, so that first of all it must be seen to
make no difference.
-/

namespace SchemaGraph.Sdl

open Reader

variable {μ α β : Type} {n : Nat} {ts : List (Lexeme μ)}

/-! ## Values and their depth

Two limits read alike what has no more lexemes than either of them. The induction is on
one limit, and what it needs of lists and objects is that readers of items which agree on
fewer lexemes can be exchanged in a repetition (`closed_congr`). With the limit gone, a
value in brackets is a repetition of `value` itself, behind the bracket (`value_list`,
`value_object`), and `value_foresees` goes by the number of lexemes instead. -/

theorem bind_congr_ok {r : Reader μ α} {f g : α → Reader μ β}
    (h : ∀ a mid, r ts = .ok (a, mid) → f a mid = g a mid) : (r >>= f) ts = (r >>= g) ts := by
  show (r ts >>= fun p => f p.1 p.2) = (r ts >>= fun p => g p.1 p.2)
  cases hr : r ts with
  | error e => rfl
  | ok p => exact h p.1 p.2 hr

theorem map_congr_ok {r r' : Reader μ α} {f : α → β} (h : r ts = r' ts) :
    (f <$> r) ts = (f <$> r') ts := by
  show (r ts >>= _) = (r' ts >>= _)
  rw [h]

section

variable {item item' : Reader μ α} (h : ∀ us, us.length ≤ ts.length → item us = item' us)

include h

theorem many_congr {done : List (Lexeme μ) → Bool} (hitem : item.Consumes)
    (hitem' : item'.Consumes) (hdone : done [] = true) :
    many done item ts = many done item' ts := by
  generalize hk : ts.length = k
  induction k using Nat.strongRecOn generalizing ts with
  | ind k ih =>
      subst hk
      rw [many_eq hitem hdone, many_eq hitem' hdone, h ts (Nat.le_refl _)]
      split
      · rfl
      · split
        · rfl
        · next a mid hi =>
            have hlt := hitem' hi
            have hmid := ih mid.length hlt (fun us hus => h us (by omega)) rfl
            simp only [hmid]

theorem closed_congr (close : Punctuator) (expected : Expectation) (hitem : item.Consumes)
    (hitem' : item'.Consumes) : closed close expected item ts = closed close expected item' ts := by
  show (many _ item ts >>= _) = (many _ item' ts >>= _)
  rw [many_congr h hitem hitem' rfl]

theorem labelled_congr (what : String) : labelled what item ts = labelled what item' ts := by
  refine bind_congr_ok fun label us hlabel => bind_congr_ok fun _ vs hcolon => ?_
  obtain ⟨m, rfl⟩ := name_ok.1 hlabel
  obtain ⟨m', rfl⟩ := punct_ok.1 hcolon
  show (item vs >>= _) = (item' vs >>= _)
  rw [h vs (by simp; omega)]

end

theorem labelled_consumes {what : String} {item : Reader μ α} (h : item.Consumes) :
    (labelled what item).Consumes := by
  intro us a mid hok
  simp only [labelled, bind_ok, name_ok, punct_ok, pure_ok] at hok
  obtain ⟨label, vs, ⟨m, rfl⟩, -, vs', ⟨m', rfl⟩, b, rest, hb, rfl, rfl⟩ := hok
  have hlt := h hb
  simp only [List.length_cons]
  omega

theorem valueWithin_consumes (depth : Nat) : (valueWithin depth : Reader μ Value).Consumes :=
  fun _ _ _ h => (valueWithin_sound h).shorter.2

/-- The depth is of no account if it is no less than the number of lexemes. -/
theorem valueWithin_congr {depth depth' : Nat} (h : ts.length ≤ depth) (h' : ts.length ≤ depth') :
    valueWithin depth ts = valueWithin depth' ts := by
  induction depth generalizing depth' ts with
  | zero =>
      obtain rfl := List.length_eq_zero_iff.1 (Nat.le_zero.1 h)
      cases depth' <;> rfl
  | succ depth ih =>
      cases ts with
      | nil => cases depth' <;> rfl
      | cons t us =>
          obtain ⟨depth', rfl⟩ : ∃ d, depth' = d + 1 := ⟨depth' - 1, by simp at h'; omega⟩
          simp only [List.length_cons, Nat.add_le_add_iff_right] at h h'
          have hitem : ∀ vs : List (Lexeme μ), vs.length ≤ us.length →
              valueWithin depth vs = valueWithin depth' vs :=
            fun vs hvs => ih (by omega) (by omega)
          have hdepth : (valueWithin depth : Reader μ _).Consumes := valueWithin_consumes depth
          have hdepth' : (valueWithin depth' : Reader μ _).Consumes := valueWithin_consumes depth'
          obtain ⟨token, m⟩ := t
          cases token with
          | punct p =>
              cases p with
              | bracketOpen => exact map_congr_ok (closed_congr hitem _ _ hdepth hdepth')
              | braceOpen =>
                  refine map_congr_ok (closed_congr (fun vs hvs => ?_) _ _
                    (labelled_consumes hdepth) (labelled_consumes hdepth'))
                  exact labelled_congr (fun ws hws => hitem ws (Nat.le_trans hws hvs)) _
              | _ => rfl
          | _ => rfl

theorem value_consumes : (value : Reader μ Value).Consumes :=
  fun _ _ _ h => (value_sound h).shorter.2

theorem value_eq {depth : Nat} (h : ts.length ≤ depth) : valueWithin depth ts = value ts :=
  valueWithin_congr h (Nat.le_refl _)

theorem value_list (m : μ) (us : List (Lexeme μ)) :
    value (⟨.punct .bracketOpen, m⟩ :: us)
      = (Value.list <$> closed .bracketClose (.punct .bracketClose) value) us :=
  map_congr_ok (closed_congr (fun _ => value_eq) _ _ (valueWithin_consumes _) value_consumes)

theorem value_object (m : μ) (us : List (Lexeme μ)) :
    value (⟨.punct .braceOpen, m⟩ :: us)
      = (Value.object <$> closed .braceClose (.punct .braceClose)
          (labelled "object field" value)) us := by
  refine map_congr_ok (closed_congr (fun vs hvs => ?_) _ _
    (labelled_consumes (valueWithin_consumes _)) (labelled_consumes value_consumes))
  exact labelled_congr (fun ws hws => value_eq (Nat.le_trans hws hvs)) _

theorem bang_foresees {T : Form μ TypeExpr} {t : TypeExpr} (habsent : ∀ us, T us t us)
    (hpresent : ∀ us m, T (⟨.punct .exclam, m⟩ :: us) (.nonNull t) us) :
    Foresees n T (bang t) :=
  (punct?_foresees .exclam).ifNext (.pure hpresent) (.pure habsent)

theorem typeExpr_list (m : μ) (us : List (Lexeme μ)) :
    typeExpr (⟨.punct .bracketOpen, m⟩ :: us)
      = (do let item ← typeExpr; punct .bracketClose .listEnd; bang (.list item)) us := by
  rw [typeExpr]
  show _ = (typeExpr us >>= fun p => _)
  cases typeExpr us <;> rfl

theorem argumentsOrColon_foresees :
    Foresees n (fun us _ rest => us = rest) (argumentsOrColon : Reader μ Unit) := by
  have hopens : Extends (fun us _ rest => us = rest : Form μ Unit) [] := ⟨[], (), fun _ => rfl⟩
  refine ⟨hopens, fun {ts} _ => ?_⟩
  by_cases h : peek ts = some (.punct .colon) ∨ peek ts = some (.punct .parenOpen)
  · refine .stays (a := ()) (fun vs hvs => argumentsOrColon_ok.2 ⟨?_, rfl⟩) fun _ => rfl
    rwa [peek_congr hvs]
  · refine .fails .argumentsOrColon hopens fun vs hvs => ?_
    rw [← peek_congr hvs] at h
    unfold argumentsOrColon
    split
    · exact absurd (.inl rfl) h
    · exact absurd (.inr rfl) h
    · rfl

theorem notAtDirective_congr {us vs : List (Lexeme μ)} (h : us.head? = vs.head?) :
    notAtDirective us = notAtDirective vs := by
  rw [Bool.eq_iff_iff, notAtDirective_iff, notAtDirective_iff, peek_congr h]

theorem isEmpty_congr {us vs : List (Lexeme μ)} (h : us.head? = vs.head?) :
    us.isEmpty = vs.isEmpty := by
  rw [Bool.eq_iff_iff, List.isEmpty_iff, List.isEmpty_iff, ← List.head?_eq_none_iff, h,
    List.head?_eq_none_iff]

theorem atKeyword_congr {us vs : List (Lexeme μ)} (h : us.head? = vs.head?) (word : String) :
    atKeyword word us = atKeyword word vs := by
  rw [Bool.eq_iff_iff, atKeyword_iff, atKeyword_iff, peek_congr h]

variable [Inhabited μ]

theorem bracketed_foresees (h : Foresees n TypeForm (typeExpr : Reader μ _)) (m : μ) :
    Foresees n (fun us t rest => TypeForm (⟨.punct .bracketOpen, m⟩ :: us) t rest)
      (do let item ← typeExpr; punct .bracketClose .listEnd; bang (.list item)) := by
  refine h.bind fun item => (punct_foresees _ _).bind fun _ => bang_foresees ?_ ?_
  · intro us vs hclose ws hitem
    cases hclose
    exact .list hitem
  · intro us m' vs hclose ws hitem
    cases hclose
    exact .listNonNull hitem

theorem typeExpr_foresees (n : Nat) : Foresees n TypeForm (typeExpr : Reader μ _) := by
  have hopens : Extends (TypeForm : Form μ _) [] :=
    ⟨[⟨.name "a", default⟩], .named "a", fun _ => .named⟩
  induction n using Nat.strongRecOn with
  | ind n ih =>
      refine .of_cons hopens ⟨.typeReference, rfl⟩ fun ⟨token, m⟩ us hus => ?_
      cases token with
      | name text =>
          exact .skips (fun vs => by rw [typeExpr]) (fun h => h) ((bang_foresees
            (fun _ => .named) fun _ _ => .namedNonNull).here (Nat.le_refl us.length))
      | punct p =>
          cases p with
          | bracketOpen =>
              exact .skips (typeExpr_list m) (fun h => h)
                ((bracketed_foresees (ih us.length hus) m).here (Nat.le_refl _))
          | _ => exact .fails_cons hopens fun _ => rfl
      | _ => exact .fails_cons hopens fun _ => rfl

theorem value_foresees (n : Nat) : Foresees n ValueForm (value : Reader μ _) := by
  have hopens : Extends (ValueForm : Form μ _) [] :=
    ⟨[⟨.name "a", default⟩], .enum "a", fun _ => .enum (by simp)⟩
  induction n using Nat.strongRecOn with
  | ind n ih =>
      refine .of_cons hopens ⟨.constant, rfl⟩ fun ⟨token, m⟩ us hus => ?_
      cases token with
      | name => exact .takes (fun _ => rfl) fun _ => .ofName
      | integer => exact .takes (fun _ => rfl) fun _ => .int
      | float => exact .takes (fun _ => rfl) fun _ => .float
      | string => exact .takes (fun _ => rfl) fun _ => .string
      | punct p =>
          cases p with
          | bracketOpen =>
              have hitems := (ih us.length hus).closed .bracketClose (.punct .bracketClose)
                value_consumes
              exact .skips (value_list m) (fun h => h)
                ((hitems.map fun ⟨_, h⟩ => .list h).here (Nat.le_refl _))
          | braceOpen =>
              have hfields := ((ih us.length hus).labelled "object field").closed .braceClose
                (.punct .braceClose) (labelled_consumes value_consumes)
              exact .skips (value_object m) (fun h => h)
                ((hfields.map fun ⟨_, h⟩ => .object h).here (Nat.le_refl _))
          | _ => exact .fails_cons hopens fun _ => rfl
      | _ => exact .fails_cons hopens fun _ => rfl

theorem applied_foresees : Foresees n (EnclosedForm .parenOpen .parenClose (LabelledForm ValueForm))
    (enclosed? .parenOpen .parenClose (.punct .parenClose) (labelled "argument" value)
      : Reader μ _) :=
  ((value_foresees n).labelled _).enclosed? _ _ _ (labelled_consumes value_consumes)

theorem directive_foresees : Foresees n DirectiveForm (directive : Reader μ _) := by
  have hopens : Extends (DirectiveForm : Form μ _) [] :=
    ⟨[⟨.directive "a", default⟩], ⟨"a", []⟩, fun _ => .intro .absent⟩
  refine .of_cons hopens ⟨.appliedDirective, rfl⟩ fun ⟨token, m⟩ us _ => ?_
  cases token with
  | directive name =>
      exact .skips (fun _ => rfl) (fun h => h)
        ((applied_foresees.map fun h => .intro h).here (Nat.le_refl us.length))
  | _ => exact .fails_cons hopens fun _ => rfl

theorem directives_foresees : Foresees n (Star DirectiveForm) (directives : Reader μ _) :=
  directive_foresees.many (consumes_of_sound directive_sound DirectiveForm.shorter) rfl
    fun _ _ h => notAtDirective_congr h

theorem default?_foresees : Foresees n DefaultForm (default? : Reader μ _) :=
  (punct?_foresees _).ifNext ((value_foresees n).map fun hv _ => .present hv)
    (.pure fun _ => .absent)

theorem inputDef_foresees : Foresees n InputForm (inputDef : Reader μ _) := by
  refine description?_foresees.bind fun description => ?_
  refine (markedName_foresees _).bind fun ⟨name, mark⟩ => ?_
  refine (punct_foresees _ _).bind fun _ => (typeExpr_foresees n).bind fun type => ?_
  refine default?_foresees.bind fun default => directives_foresees.bind fun ds => .pure ?_
  intro ts _ directed _ defaulted _ typed _ hcolon _ hname _ described
  cases hcolon
  cases hname
  exact .intro described typed defaulted directed

theorem argumentDefs_foresees : Foresees n ArgumentsForm (argumentDefs : Reader μ _) :=
  inputDef_foresees.enclosed? _ _ _ (consumes_of_sound inputDef_sound InputForm.shorter)

theorem fieldDef_foresees : Foresees n FieldForm (fieldDef : Reader μ _) := by
  refine description?_foresees.bind fun description => ?_
  refine (markedName_foresees _).bind fun ⟨name, mark⟩ => ?_
  refine argumentsOrColon_foresees.bind fun _ => argumentDefs_foresees.bind fun arguments => ?_
  refine (punct_foresees _ _).bind fun _ => (typeExpr_foresees n).bind fun type => ?_
  refine directives_foresees.bind fun ds => .pure ?_
  intro ts _ directed _ typed _ hcolon _ argued _ hnext _ hname _ described
  cases hcolon
  cases hnext
  cases hname
  exact .intro described argued typed directed

/-- A name that a value of an enum type may have, and its mark. -/
inductive UnreservedForm : Form μ (String × μ)
  | intro {text mark us} (unreserved : text ∉ ["true", "false", "null"]) :
      UnreservedForm (⟨.name text, mark⟩ :: us) (text, mark) us

theorem enumValueName_foresees : Foresees n UnreservedForm (enumValueName : Reader μ _) := by
  refine .token ⟨[⟨.name "a", default⟩], ("a", default), fun _ => .intro (by simp)⟩
    ⟨.enumValue, rfl⟩ fun ⟨token, m⟩ => ?_
  cases token with
  | name text =>
      by_cases h : text = "true" ∨ text = "false" ∨ text = "null"
      · exact .inr ⟨.unreservedName, fun vs => if_pos h⟩
      · exact .inl ⟨(text, m), fun vs => if_neg h, fun _ => .intro (by simpa using h)⟩
  | _ => exact .inr ⟨.enumValue, fun _ => rfl⟩

theorem enumValueDef_foresees : Foresees n EnumValueForm (enumValueDef : Reader μ _) := by
  refine description?_foresees.bind fun description => ?_
  refine enumValueName_foresees.bind fun ⟨name, mark⟩ => directives_foresees.bind fun ds => .pure ?_
  intro ts _ directed _ hname _ described
  cases hname with
  | intro unreserved => exact .intro described unreserved directed

theorem names_foresees (p : Punctuator) (expected : Expectation) :
    Foresees n (SeparatedForm p NameForm) (separated p (name expected) : Reader μ _) :=
  (name_foresees expected).separated p (fun h => h.shorter.1) name_sound

theorem implemented_foresees : Foresees n ImplementsForm (implemented : Reader μ _) :=
  (keyword?_foresees _).ifNext ((names_foresees _ _).mono fun h _ => .present h)
    (.pure fun _ => .absent)

theorem unionMembers_foresees : Foresees n MembersForm (unionMembers : Reader μ _) :=
  (punct?_foresees _).ifNext ((names_foresees _ _).mono fun h _ => .present h)
    (.pure fun _ => .absent)

theorem fields_foresees :
    Foresees n (BracedForm FieldForm) (braced .closingBrace fieldDef : Reader μ _) :=
  fieldDef_foresees.enclosed? _ _ _ (consumes_of_sound fieldDef_sound FieldForm.shorter)

theorem enumValues_foresees :
    Foresees n (BracedForm EnumValueForm) (braced .enumValue enumValueDef : Reader μ _) :=
  enumValueDef_foresees.enclosed? _ _ _
    (consumes_of_sound enumValueDef_sound EnumValueForm.shorter)

theorem inputFields_foresees :
    Foresees n (BracedForm InputForm) (braced .closingBrace inputDef : Reader μ _) :=
  inputDef_foresees.enclosed? _ _ _ (consumes_of_sound inputDef_sound InputForm.shorter)

theorem typeBody_foresees (kind : TypeKind) :
    Foresees n (BodyForm kind) (typeBody kind : Reader μ _) := by
  cases kind with
  | scalar =>
      exact directives_foresees.bind fun ds => .pure fun ts us directed => .scalar directed
  | object =>
      exact implemented_foresees.bind fun names => directives_foresees.bind fun ds =>
        fields_foresees.bind fun fields => .pure fun ts _ braced _ directed _ implementing =>
          .object implementing directed braced
  | interface =>
      exact implemented_foresees.bind fun names => directives_foresees.bind fun ds =>
        fields_foresees.bind fun fields => .pure fun ts _ braced _ directed _ implementing =>
          .interface implementing directed braced
  | union =>
      exact directives_foresees.bind fun ds => unionMembers_foresees.bind fun names =>
        .pure fun ts _ joined _ directed => .union directed joined
  | enum =>
      exact directives_foresees.bind fun ds => enumValues_foresees.bind fun values =>
        .pure fun ts _ braced _ directed => .enum directed braced
  | input =>
      exact directives_foresees.bind fun ds => inputFields_foresees.bind fun fields =>
        .pure fun ts _ braced _ directed => .input directed braced

/-- The keyword of a kind of types, and its mark. -/
inductive KindForm : Form μ (TypeKind × μ)
  | intro {kind : TypeKind} {mark us} :
      KindForm (⟨.name kind.keyword, mark⟩ :: us) (kind, mark) us

theorem typeKeyword_foresees : Foresees n KindForm (typeKeyword : Reader μ _) := by
  refine .token ⟨[⟨.name TypeKind.scalar.keyword, default⟩], (.scalar, default), fun _ => .intro⟩
    ⟨.typeDefinition, rfl⟩ fun ⟨token, m⟩ => ?_
  cases token with
  | name text =>
      cases hk : TypeKind.ofKeyword? text with
      | some kind =>
          obtain rfl := TypeKind.ofKeyword?_eq_some.1 hk
          exact .inl ⟨(kind, m), fun vs => by simp [typeKeyword, hk], fun _ => .intro⟩
      | none => exact .inr ⟨.typeDefinition, fun vs => by simp [typeKeyword, hk, fail]⟩
  | _ => exact .inr ⟨.typeDefinition, fun _ => rfl⟩

theorem typeDef_foresees (description : Option String) :
    Foresees n (TypeDefForm description) (typeDef description : Reader μ _) := by
  refine typeKeyword_foresees.bind fun ⟨kind, mark⟩ => (name_foresees _).bind fun name => ?_
  refine (typeBody_foresees kind).bind fun body => .pure fun ts _ bodied _ hname _ hkeyword => ?_
  cases hname
  cases hkeyword
  exact .intro bodied

/-- The word for an operation. -/
inductive OperationForm : Form μ Operation
  | intro {o : Operation} {m us} : OperationForm (⟨.name o.word, m⟩ :: us) o us

theorem operation_foresees : Foresees n OperationForm (operation : Reader μ _) := by
  refine .token ⟨[⟨.name Operation.query.word, default⟩], .query, fun _ => .intro⟩
    ⟨.operationType, rfl⟩ fun ⟨token, m⟩ => ?_
  cases token with
  | name text =>
      cases ho : Operation.ofWord? text with
      | some o =>
          obtain rfl := Operation.ofWord?_eq_some.1 ho
          exact .inl ⟨o, fun vs => by simp [operation, ho], fun _ => .intro⟩
      | none => exact .inr ⟨.operationType, fun vs => by simp [operation, ho, fail]⟩
  | _ => exact .inr ⟨.operationType, fun _ => rfl⟩

theorem rootEntry_foresees : Foresees n RootEntryForm (rootEntry : Reader μ _) := by
  refine operation_foresees.bind fun o => (punct_foresees _ _).bind fun _ => ?_
  refine (name_foresees _).bind fun type => .pure fun ts _ htype _ hcolon _ hword => ?_
  cases htype
  cases hcolon
  cases hword
  exact .intro

theorem entries_foresees :
    Foresees n (BracedForm RootEntryForm) (braced .schemaEnd rootEntry : Reader μ _) :=
  rootEntry_foresees.enclosed? _ _ _ (consumes_of_sound rootEntry_sound RootEntryForm.shorter)

theorem schemaRoots_foresees : Foresees n SchemaForm (schemaRoots : Reader μ _) := by
  refine (keyword_foresees _ _).bind fun _ => directives_foresees.bind fun ds => ?_
  refine entries_foresees.bind fun entries => .pure fun ts _ braced _ directed _ hword => ?_
  cases hword
  rw [foldl_set_eq_ofEntries]
  exact .intro directed braced

theorem directiveLocation_foresees : Foresees n PlaceForm (directiveLocation : Reader μ _) := by
  have hplace : "QUERY" ∈ directiveLocations := by simp [directiveLocations]
  refine .token ⟨[⟨.name "QUERY", default⟩], "QUERY", fun _ => .intro hplace⟩
    ⟨.directiveLocation, rfl⟩ fun ⟨token, m⟩ => ?_
  cases token with
  | name text =>
      by_cases h : text ∈ directiveLocations
      · exact .inl ⟨text, fun vs => if_pos h, fun _ => .intro h⟩
      · exact .inr ⟨.directiveLocation, fun vs => if_neg h⟩
  | _ => exact .inr ⟨.directiveLocation, fun _ => rfl⟩

/-- The name of a directive. -/
inductive DirectiveNameForm : Form μ String
  | intro {name m us} : DirectiveNameForm (⟨.directive name, m⟩ :: us) name us

theorem directiveName_foresees : Foresees n DirectiveNameForm (directiveName : Reader μ _) := by
  refine .token ⟨[⟨.directive "a", default⟩], "a", fun _ => .intro⟩ ⟨.name "directive", rfl⟩
    fun ⟨token, m⟩ => ?_
  cases token with
  | directive name => exact .inl ⟨name, fun _ => rfl, fun _ => .intro⟩
  | _ => exact .inr ⟨.name "directive", fun _ => rfl⟩

theorem places_foresees : Foresees n (SeparatedForm .pipe PlaceForm)
    (separated .pipe directiveLocation : Reader μ _) :=
  directiveLocation_foresees.separated _ (fun h => h.shorter.1) directiveLocation_sound

theorem directiveDefinition_foresees :
    Foresees n DirectiveDefForm (directiveDefinition : Reader μ _) := by
  refine (keyword_foresees _ _).bind fun _ => directiveName_foresees.bind fun name => ?_
  refine argumentDefs_foresees.bind fun arguments => (keyword?_foresees _).bind fun b => ?_
  refine (keyword_foresees _ _).bind fun _ => places_foresees.bind fun places => .pure ?_
  intro ts _ placed _ hon _ hrepeatable _ argued _ hname _ hword
  cases hname
  cases hword
  cases hon
  cases hrepeatable with
  | absent => exact .intro argued .absent placed
  | present => exact .intro argued .present placed

theorem extension_foresees : Foresees n DefinitionForm (extension : Reader μ _) := by
  refine (keyword_foresees _ _).bind fun _ => .get_bind ?_ fun us => ?_
  · intro us vs h
    simp only [atKeyword_congr h]
  · split
    · refine schemaRoots_foresees.bind fun roots => .pure fun ts us defined vs hword => ?_
      cases hword
      exact .extendSchema defined
    · refine (typeDef_foresees none).bind fun e => .pure fun ts us defined vs hword => ?_
      cases hword
      exact .extendType defined

theorem definition_foresees : Foresees n DefinitionForm (definition : Reader μ _) := by
  refine description?_foresees.bind fun description => .get_bind ?_ fun us => ?_
  · intro us vs h
    simp only [atKeyword_congr h, isEmpty_congr h]
  · have hopens : Extends (Residual DescriptionForm description DefinitionForm : Form μ _) [] :=
      ⟨[⟨.name "schema", default⟩], .schema (.ofEntries []),
        fun _ _ described => .schema described (.intro .nil .absent)⟩
    split
    · exact .fail hopens
    · split
      · exact schemaRoots_foresees.bind fun roots => .pure fun _ _ defined _ described =>
          .schema described defined
      · split
        · exact directiveDefinition_foresees.bind fun name => .pure fun _ _ defined _ described =>
            .directive described defined
        · split
          · cases description with
            | some _ => exact .fail hopens
            | none =>
                refine extension_foresees.mono fun h us habsent => ?_
                cases habsent
                exact h
          · exact (typeDef_foresees description).bind fun d => .pure fun _ _ defined _ described =>
              .type described defined

theorem definitions_foresees : Foresees n (Star DefinitionForm) (definitions : Reader μ _) :=
  definition_foresees.many (consumes_of_sound definition_sound DefinitionForm.shorter) rfl
    fun _ _ h => isEmpty_congr h

end SchemaGraph.Sdl
