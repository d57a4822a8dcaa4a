import SchemaGraph.Proofs.ReaderSound

/-!
# What the grammar derives, a reader accepts

The other direction needs to know what comes next. A derivation may leave out an
optional part, and the reader will leave it out too only if the lexeme it sees
does not start that part. So each lemma asks of the lexemes left over that they
do not go on with what was read, and the work of this file is to find the
weakest such condition that the surrounding rule can always meet.

For the members of a type it is `Boundary`: a string, a name or a closing
punctuator is next, or nothing. A definition needs `Ends`, which also excludes
the word `implements`: it is an ordinary name for a member, but right after the
name of a type it opens a list of interfaces. Every member and every definition
starts in such a way itself, which is what lets a repetition of them be read one
after the other.
-/

namespace SchemaGraph.Sdl

open Reader

variable {μ α : Type} {ts rest : List (Lexeme μ)}

/-- Whether a token can stand after a member of a type. -/
def Token.isBoundary : Token → Bool
  | .string _ | .name _ | .punct .parenClose | .punct .braceClose => true
  | _ => false

/-- Nothing is next that a member of a type could go on with. -/
def Boundary (ts : List (Lexeme μ)) : Prop := ∀ t, peek ts = some t → t.isBoundary = true

/-- Nothing is next that a definition could go on with. -/
def Ends (ts : List (Lexeme μ)) : Prop :=
  Boundary ts ∧ peek ts ≠ some (.name "implements")

theorem Boundary.of_peek {t : Token} (h : peek ts = some t) (ht : t.isBoundary = true) :
    Boundary ts := by
  intro u hu
  rw [h] at hu
  cases hu
  exact ht

theorem Boundary.peek_ne {t : Token} (h : Boundary ts) (ht : t.isBoundary = false) :
    peek ts ≠ some t := by
  intro hp
  rw [h t hp] at ht
  cases ht

theorem ends_nil : Ends ([] : List (Lexeme μ)) := ⟨by simp [Boundary], by simp⟩

theorem DescriptionForm.boundary {d : Option String} {name : String} {m : μ}
    (h : DescriptionForm ts d (⟨.name name, m⟩ :: rest)) : Boundary ts := by
  cases h with
  | absent => exact .of_peek rfl rfl
  | present => exact .of_peek rfl rfl

theorem DescriptionForm.ends {d : Option String} {name : String} {m : μ}
    (h : DescriptionForm ts d (⟨.name name, m⟩ :: rest)) (hname : name ≠ "implements") :
    Ends ts := by
  refine ⟨h.boundary, ?_⟩
  cases h with
  | absent => simpa using hname
  | present => simp

/-- Directives either start with one or are none at all. -/
theorem Star.peek_directive {ds : List Directive} (h : Star DirectiveForm ts ds rest) {t : Token}
    (hd : ∀ name, t ≠ .directive name) (hrest : peek rest ≠ some t) : peek ts ≠ some t := by
  cases h with
  | nil => exact hrest
  | cons head _ =>
      cases head with
      | intro => rw [peek_cons]; exact fun h => hd _ (Option.some.inj h).symm

/--
Items are read one after the other if each is read when `F` holds of what it
leaves, and `F` holds where an item starts and where the repetition ends.
-/
theorem many_complete {done : List (Lexeme μ) → Bool} {item : Reader μ α} {R : Form μ α}
    {F : List (Lexeme μ) → Prop} {as : List α} (h : Star R ts as rest)
    (hR : ∀ {us a mid}, R us a mid → Shorter mid us)
    (hgo : ∀ {us a mid}, R us a mid → done us = false ∧ F us)
    (hitem : ∀ {us a mid}, us.length ≤ ts.length → R us a mid → F mid → item us = .ok (a, mid))
    (hF : F rest) (hdone : done rest = true) : many done item ts = .ok (as, rest) := by
  -- A limit of as many steps as there are lexemes is never reached: each item takes one.
  have hlimit : ∀ limit, ts.length ≤ limit → manyUpTo done item limit ts = .ok (as, rest) := by
    induction h with
    | nil =>
        intro limit _
        cases limit with
        | zero => rfl
        | succ limit => rw [manyUpTo, if_pos hdone]
    | @cons us mid rest a as head tail ih =>
        intro limit hle
        have hlt := (hR head).2
        obtain ⟨limit, rfl⟩ : ∃ n, limit = n + 1 := ⟨limit - 1, by omega⟩
        have hmid : F mid := by
          cases tail with
          | nil => exact hF
          | cons next _ => exact (hgo next).2
        have htail := ih (fun hle' => hitem (by omega)) hF hdone limit (by omega)
        rw [manyUpTo, if_neg (by simp [(hgo head).1]), hitem (Nat.le_refl _) head hmid]
        simp only [htail]
  exact hlimit ts.length (Nat.le_refl _)

section

variable {item : Reader μ α} {R : Form μ α} {F : List (Lexeme μ) → Prop} {as : List α}
  {close : Punctuator}

theorem closed_complete {m : μ} {expected : Expectation}
    (h : Star R ts as (⟨.punct close, m⟩ :: rest))
    (hR : ∀ {us a mid}, R us a mid → Shorter mid us)
    (hgo : ∀ {us a mid}, R us a mid → peek us ≠ some (.punct close) ∧ F us)
    (hitem : ∀ {us a mid}, us.length ≤ ts.length → R us a mid → F mid → item us = .ok (a, mid))
    (hF : F (⟨.punct close, m⟩ :: rest)) : closed close expected item ts = .ok (as, rest) := by
  have hstart : ∀ {us a mid}, R us a mid → atEndOr close us = false ∧ F us := by
    intro us a mid hus
    refine ⟨?_, (hgo hus).2⟩
    rw [← Bool.not_eq_true, atEndOr_iff, peek_eq_none]
    rintro (rfl | hclose)
    · exact absurd (hR hus).2 (by simp)
    · exact (hgo hus).1 hclose
  have hmany := many_complete h hR hstart hitem hF
    (atEndOr_iff.2 (.inr rfl))
  simp only [closed, bind_ok, punct_ok, pure_ok]
  exact ⟨as, _, hmany, (), rest, ⟨m, rfl⟩, rfl, rfl⟩

theorem enclosed?_complete {opening : Punctuator} {expected : Expectation}
    (h : EnclosedForm opening close R ts as rest)
    (hR : ∀ {us a mid}, R us a mid → Shorter mid us)
    (hgo : ∀ {us a mid}, R us a mid → peek us ≠ some (.punct close) ∧ F us)
    (hitem : ∀ {us a mid}, us.length ≤ ts.length → R us a mid → F mid → item us = .ok (a, mid))
    (hF : ∀ m, F (⟨.punct close, m⟩ :: rest)) (hrest : peek rest ≠ some (.punct opening)) :
    enclosed? opening close expected item ts = .ok (as, rest) := by
  rw [enclosed?, if_punct?_ok]
  cases h with
  | absent => exact .inr ⟨hrest, rfl⟩
  | present items =>
      refine .inl ⟨_, _, rfl, closed_complete items hR hgo (fun hle => hitem ?_) (hF _)⟩
      exact Nat.le_trans hle (by simp)

theorem separated_complete {p : Punctuator} (h : SeparatedForm p R ts as rest)
    (hR : ∀ {us a mid}, R us a mid → After mid us)
    (hgo : ∀ {us a mid}, R us a mid → peek us ≠ some (.punct p))
    (hitem : ∀ {us a mid}, R us a mid → item us = .ok (a, mid))
    (hrest : peek rest ≠ some (.punct p)) : separated p item ts = .ok (as, rest) := by
  have hothers : ∀ {us as}, Star (PrecededForm p R) us as rest →
      many (notAt p) (do punct p (.punct p); item) us = .ok (as, rest) := by
    intro us as hstar
    refine many_complete (F := fun _ => True) hstar (fun h => h.shorter hR) ?_ ?_ trivial
      (notAt_iff.2 hrest)
    · intro us a mid hus
      cases hus with
      | intro => exact ⟨by simp [notAt], trivial⟩
    · intro us a mid _ hus _
      cases hus with
      | intro hi =>
          simp only [bind_ok, punct_ok]
          exact ⟨(), _, ⟨_, rfl⟩, hitem hi⟩
  simp only [separated, bind_ok, punct?_ok, pure_ok]
  cases h with
  | bare first others =>
      exact ⟨false, ts, .inr ⟨rfl, hgo first, rfl⟩, _, _, hitem first, _, _, hothers others,
        rfl, rfl⟩
  | led first others =>
      cases first with
      | intro hi =>
          exact ⟨true, _, .inl ⟨rfl, _, rfl⟩, _, _, hitem hi, _, _, hothers others, rfl, rfl⟩

theorem labelled_complete {what : String} {a : String × α} (h : LabelledForm R ts a rest)
    (hitem : ∀ {us}, us.length ≤ ts.length → R us a.2 rest → item us = .ok (a.2, rest)) :
    labelled what item ts = .ok (a, rest) := by
  cases h with
  | intro hi =>
      simp only [labelled, bind_ok, name_ok, punct_ok, pure_ok]
      exact ⟨_, _, ⟨_, rfl⟩, (), _, ⟨_, rfl⟩, _, _, hitem (by simp; omega) hi, rfl, rfl⟩

end

theorem name_complete {expected : Expectation} {text : String} (h : NameForm ts text rest) :
    name expected ts = .ok (text, rest) := by
  cases h with
  | intro => exact name_ok.2 ⟨_, rfl⟩

theorem NameForm.peek_ne {text : String} (h : NameForm ts text rest) (p : Punctuator) :
    peek ts ≠ some (.punct p) := by
  cases h with
  | intro => simp

theorem description?_complete {d : Option String} (h : DescriptionForm ts d rest)
    (hrest : ∀ text, peek rest ≠ some (.string text)) : description? ts = .ok (d, rest) := by
  cases h with
  | absent => exact description?_ok.2 (.inr ⟨rfl, hrest, rfl⟩)
  | present => exact description?_ok.2 (.inl ⟨_, _, rfl, rfl⟩)

theorem typeExpr_complete {t : TypeExpr} (h : TypeForm ts t rest)
    (hrest : peek rest ≠ some (.punct .exclam)) : typeExpr ts = .ok (t, rest) := by
  induction h with
  | named => rw [typeExpr]; exact bang_ok.2 (.inr ⟨hrest, rfl, rfl⟩)
  | namedNonNull => rw [typeExpr]; exact bang_ok.2 (.inl ⟨_, rfl, rfl⟩)
  | list _ ih =>
      rw [typeExpr, ih (by simp)]
      simp only [bind_ok, punct_ok, bang_ok]
      exact ⟨(), _, ⟨_, rfl⟩, .inr ⟨hrest, trivial, rfl⟩⟩
  | listNonNull _ ih =>
      rw [typeExpr, ih (by simp)]
      simp only [bind_ok, punct_ok, bang_ok]
      exact ⟨(), _, ⟨_, rfl⟩, .inl ⟨_, rfl, trivial⟩⟩

theorem ValueForm.peek_ne_close {v : Value} (h : ValueForm ts v rest) :
    peek ts ≠ some (.punct .bracketClose) := by
  cases h <;> simp

theorem LabelledForm.peek_ne {R : Form μ α} {a : String × α} (h : LabelledForm R ts a rest)
    (p : Punctuator) : peek ts ≠ some (.punct p) := by
  cases h with
  | intro => simp

theorem Value.ofName_of_notMem {text : String} (h : text ∉ ["true", "false", "null"]) :
    Value.ofName text = .enum text := by
  unfold Value.ofName
  split
  · simp at h
  · simp at h
  · simp at h
  · rfl

/-- A value is nested no deeper than it has lexemes, so that many levels read it. -/
theorem valueWithin_complete {depth : Nat} {v : Value} (h : ValueForm ts v rest)
    (hdepth : ts.length ≤ depth) : valueWithin depth ts = .ok (v, rest) := by
  induction depth generalizing ts v rest with
  | zero =>
      have hlt := h.shorter.2
      omega
  | succ depth ih =>
      cases h with
      | int | float | string | «true» | «false» | null => rfl
      | enum hname =>
          show Except.ok (Value.ofName _, rest) = _
          rw [Value.ofName_of_notMem hname]
      | list items =>
          rw [valueWithin, map_ok]
          simp only [List.length_cons] at hdepth
          refine ⟨_, closed_complete (F := fun _ => True) items ValueForm.shorter
            (fun h => ⟨h.peek_ne_close, trivial⟩) (fun hle h _ => ih h (by omega)) trivial, rfl⟩
      | object fields =>
          rw [valueWithin, map_ok]
          simp only [List.length_cons] at hdepth
          refine ⟨_, closed_complete (F := fun _ => True) fields
            (fun h => h.shorter fun h => h.shorter.1) (fun h => ⟨h.peek_ne _, trivial⟩)
            (fun hle h _ => labelled_complete h fun hle' h => ih h (by omega)) trivial, rfl⟩

theorem value_complete {v : Value} (h : ValueForm ts v rest) : value ts = .ok (v, rest) :=
  valueWithin_complete h (Nat.le_refl _)

theorem directive_complete {d : Directive} (h : DirectiveForm ts d rest)
    (hrest : peek rest ≠ some (.punct .parenOpen)) : directive ts = .ok (d, rest) := by
  cases h with
  | intro arguments =>
      rw [directive, map_ok]
      exact ⟨_, enclosed?_complete (F := fun _ => True) arguments
        (fun h => h.shorter fun h => h.shorter.1) (fun h => ⟨h.peek_ne _, trivial⟩)
        (fun _ h _ => labelled_complete h fun _ h => value_complete h) (fun _ => trivial) hrest,
        rfl⟩

theorem directives_complete {ds : List Directive} (h : Star DirectiveForm ts ds rest)
    (hparen : peek rest ≠ some (.punct .parenOpen))
    (hdirective : ∀ name, peek rest ≠ some (.directive name)) :
    directives ts = .ok (ds, rest) := by
  refine many_complete (F := fun us => peek us ≠ some (.punct .parenOpen)) h
    DirectiveForm.shorter ?_ (fun _ h hF => directive_complete h hF) hparen
    (notAtDirective_iff.2 hdirective)
  intro us d mid hus
  cases hus with
  | intro => exact ⟨rfl, by simp⟩

theorem directives_complete_of_boundary {ds : List Directive} (h : Star DirectiveForm ts ds rest)
    (hrest : Boundary rest) : directives ts = .ok (ds, rest) :=
  directives_complete h (hrest.peek_ne rfl) fun _ => hrest.peek_ne rfl

theorem default?_complete {v : Option Value} (h : DefaultForm ts v rest)
    (hrest : peek rest ≠ some (.punct .equal)) : default? ts = .ok (v, rest) := by
  rw [default?, if_punct?_ok]
  cases h with
  | absent => exact .inr ⟨hrest, rfl⟩
  | present value => exact .inl ⟨_, _, rfl, map_ok.2 ⟨_, value_complete value, rfl⟩⟩

theorem inputDef_complete {d : InputDef μ} (h : InputForm ts d rest) (hrest : Boundary rest) :
    inputDef ts = .ok (d, rest) := by
  cases h with
  | @intro _ ts₁ ts₂ ts₃ _ description name mark m type default ds described typed defaulted
      directed =>
      have hdefault : peek ts₃ ≠ some (.punct .equal) :=
        directed.peek_directive (by simp) (hrest.peek_ne rfl)
      have hexclam : peek ts₂ ≠ some (.punct .exclam) := by
        cases defaulted with
        | absent => exact directed.peek_directive (by simp) (hrest.peek_ne rfl)
        | present => simp
      simp only [inputDef, bind_ok, Prod.exists, markedName_ok, punct_ok, pure_ok]
      exact ⟨description, _, description?_complete described (by simp), name, mark, _, rfl, (),
        ts₁, ⟨m, rfl⟩, type, ts₂, typeExpr_complete typed hexclam, default, ts₃,
        default?_complete defaulted hdefault, ds, rest,
        directives_complete_of_boundary directed hrest, rfl, rfl⟩

/-- Members of a type, each read up to a boundary, are read up to what closes them. -/
theorem members_complete {opening close : Punctuator} {expected : Expectation}
    {item : Reader μ α} {R : Form μ α} {as : List α} (h : EnclosedForm opening close R ts as rest)
    (hclose : (Token.punct close).isBoundary = true)
    (hR : ∀ {us a mid}, R us a mid → Shorter mid us)
    (hstart : ∀ {us a mid}, R us a mid → peek us ≠ some (.punct close) ∧ Boundary us)
    (hitem : ∀ {us a mid}, R us a mid → Boundary mid → item us = .ok (a, mid))
    (hrest : peek rest ≠ some (.punct opening)) :
    enclosed? opening close expected item ts = .ok (as, rest) :=
  enclosed?_complete h hR hstart (fun _ => hitem) (fun _ => .of_peek rfl hclose) hrest

theorem DescriptionForm.peek_ne {d : Option String} {name : String} {m : μ}
    (h : DescriptionForm ts d (⟨.name name, m⟩ :: rest)) (p : Punctuator) :
    peek ts ≠ some (.punct p) := by
  cases h <;> simp

theorem InputForm.starts {d : InputDef μ} (h : InputForm ts d rest) (p : Punctuator) :
    peek ts ≠ some (.punct p) ∧ Boundary ts := by
  cases h with
  | intro described => exact ⟨described.peek_ne p, described.boundary⟩

theorem FieldForm.starts {d : FieldDef μ} (h : FieldForm ts d rest) (p : Punctuator) :
    peek ts ≠ some (.punct p) ∧ Boundary ts := by
  cases h with
  | intro described => exact ⟨described.peek_ne p, described.boundary⟩

theorem EnumValueForm.starts {d : EnumValueDef μ} (h : EnumValueForm ts d rest) (p : Punctuator) :
    peek ts ≠ some (.punct p) ∧ Boundary ts := by
  cases h with
  | intro described => exact ⟨described.peek_ne p, described.boundary⟩

theorem argumentDefs_complete {ds : List (InputDef μ)} (h : ArgumentsForm ts ds rest)
    (hrest : peek rest ≠ some (.punct .parenOpen)) : argumentDefs ts = .ok (ds, rest) :=
  members_complete h rfl InputForm.shorter (fun h => h.starts _) inputDef_complete hrest

theorem fieldDef_complete {d : FieldDef μ} (h : FieldForm ts d rest) (hrest : Boundary rest) :
    fieldDef ts = .ok (d, rest) := by
  cases h with
  | @intro _ ts₁ ts₂ ts₃ _ description name mark m arguments type ds described argued typed
      directed =>
      have hnext : peek ts₁ = some (.punct .colon) ∨ peek ts₁ = some (.punct .parenOpen) := by
        cases argued with
        | absent => exact .inl rfl
        | present => exact .inr rfl
      have hexclam : peek ts₃ ≠ some (.punct .exclam) :=
        directed.peek_directive (by simp) (hrest.peek_ne rfl)
      simp only [fieldDef, bind_ok, Prod.exists, markedName_ok, argumentsOrColon_ok, punct_ok,
        pure_ok]
      exact ⟨description, _, description?_complete described (by simp), name, mark, ts₁, rfl, (),
        ts₁, ⟨hnext, rfl⟩, arguments, _, argumentDefs_complete argued (by simp), (), ts₂,
        ⟨m, rfl⟩, type, ts₃, typeExpr_complete typed hexclam, ds, rest,
        directives_complete_of_boundary directed hrest, rfl, rfl⟩

theorem enumValueDef_complete {d : EnumValueDef μ} (h : EnumValueForm ts d rest)
    (hrest : Boundary rest) : enumValueDef ts = .ok (d, rest) := by
  cases h with
  | @intro _ ts₁ _ description name mark ds described unreserved directed =>
      simp only [enumValueDef, bind_ok, Prod.exists, enumValueName_ok, pure_ok]
      exact ⟨description, _, description?_complete described (by simp), name, mark, ts₁,
        ⟨rfl, unreserved⟩, ds, rest, directives_complete_of_boundary directed hrest, rfl, rfl⟩

/-! ## Types

A type is a row of parts that may all be left out: interfaces, directives, and members in
braces. So what comes next behind one of them may be the start of any later one, or what
is behind the type. Conditions on what is left are therefore handed on from the back to
the front: a token that does not start a part and is not next behind it is not next in
front of it either (`EnclosedForm.peek_ne`, `Star.peek_directive`). -/

theorem implemented_complete {names : List String} (h : ImplementsForm ts names rest)
    (hword : peek rest ≠ some (.name "implements"))
    (hampersand : peek rest ≠ some (.punct .ampersand)) : implemented ts = .ok (names, rest) := by
  rw [implemented, if_keyword?_ok]
  cases h with
  | absent => exact .inr ⟨hword, rfl⟩
  | present interfaces =>
      exact .inl ⟨_, _, rfl, separated_complete interfaces (fun h => h.shorter.1)
        (fun h => h.peek_ne _) name_complete hampersand⟩

theorem unionMembers_complete {names : List String} (h : MembersForm ts names rest)
    (hequal : peek rest ≠ some (.punct .equal)) (hpipe : peek rest ≠ some (.punct .pipe)) :
    unionMembers ts = .ok (names, rest) := by
  rw [unionMembers, if_punct?_ok]
  cases h with
  | absent => exact .inr ⟨hequal, rfl⟩
  | present members =>
      exact .inl ⟨_, _, rfl, separated_complete members (fun h => h.shorter.1)
        (fun h => h.peek_ne _) name_complete hpipe⟩

/-- Braces, or what follows a type without them, are no part of the directives before them. -/
theorem EnclosedForm.peek_ne {R : Form μ α} {as : List α} {t : Token}
    (h : BracedForm R ts as rest) (ht : t ≠ .punct .braceOpen) (hrest : peek rest ≠ some t) :
    peek ts ≠ some t := by
  cases h with
  | absent => exact hrest
  | present => exact fun he => ht (Option.some.inj he).symm

theorem directives_complete_of_braced {ds : List Directive} {mid : List (Lexeme μ)}
    {R : Form μ α} {as : List α} (h : Star DirectiveForm ts ds mid)
    (hbraced : BracedForm R mid as rest) (hrest : Boundary rest) :
    directives ts = .ok (ds, mid) :=
  directives_complete h (hbraced.peek_ne (by simp) (hrest.peek_ne rfl))
    fun _ => hbraced.peek_ne (by simp) (hrest.peek_ne rfl)

theorem implemented_complete_of_braced {names : List String} {ds : List Directive}
    {us mid : List (Lexeme μ)} {R : Form μ α} {as : List α} (h : ImplementsForm ts names us)
    (directed : Star DirectiveForm us ds mid) (hbraced : BracedForm R mid as rest)
    (hrest : Ends rest) : implemented ts = .ok (names, us) :=
  implemented_complete h
    (directed.peek_directive (by simp) (hbraced.peek_ne (by simp) hrest.2))
    (directed.peek_directive (by simp) (hbraced.peek_ne (by simp) (hrest.1.peek_ne rfl)))

theorem typeBody_complete {kind : TypeKind} {body : TypeBody μ} (h : BodyForm kind ts body rest)
    (hrest : Ends rest) : typeBody kind ts = .ok (body, rest) := by
  have hbrace : peek rest ≠ some (.punct .braceOpen) := hrest.1.peek_ne rfl
  cases h with
  | scalar directed =>
      simp only [typeBody, bind_ok, pure_ok]
      exact ⟨_, _, directives_complete_of_boundary directed hrest.1, trivial, rfl⟩
  | object implementing directed braced | interface implementing directed braced =>
      simp only [typeBody, bind_ok, pure_ok]
      exact ⟨_, _, implemented_complete_of_braced implementing directed braced hrest, _, _,
        directives_complete_of_braced directed braced hrest.1, _, _,
        members_complete braced rfl FieldForm.shorter (fun h => h.starts _) fieldDef_complete
          hbrace, rfl, rfl⟩
  | @union _ mid _ _ _ directed joined =>
      have hmid : ∀ t, t ≠ .punct .equal → peek rest ≠ some t → peek mid ≠ some t := by
        intro t ht hne
        cases joined with
        | absent => exact hne
        | present => exact fun he => ht (Option.some.inj he).symm
      simp only [typeBody, bind_ok, pure_ok]
      exact ⟨_, _, directives_complete directed (hmid _ (by simp) (hrest.1.peek_ne rfl))
          fun _ => hmid _ (by simp) (hrest.1.peek_ne rfl), _, _,
        unionMembers_complete joined (hrest.1.peek_ne rfl) (hrest.1.peek_ne rfl), rfl, rfl⟩
  | enum directed braced =>
      simp only [typeBody, bind_ok, pure_ok]
      exact ⟨_, _, directives_complete_of_braced directed braced hrest.1, _, _,
        members_complete braced rfl EnumValueForm.shorter (fun h => h.starts _)
          enumValueDef_complete hbrace, rfl, rfl⟩
  | input directed braced =>
      simp only [typeBody, bind_ok, pure_ok]
      exact ⟨_, _, directives_complete_of_braced directed braced hrest.1, _, _,
        members_complete braced rfl InputForm.shorter (fun h => h.starts _)
          inputDef_complete hbrace, rfl, rfl⟩

theorem typeDef_complete {description : Option String} {d : TypeDef μ}
    (h : TypeDefForm description ts d rest) (hrest : Ends rest) :
    typeDef description ts = .ok (d, rest) := by
  cases h with
  | intro bodied =>
      simp only [typeDef, bind_ok, Prod.exists, typeKeyword_ok, name_ok, pure_ok]
      exact ⟨_, _, _, rfl, _, _, ⟨_, rfl⟩, _, _, typeBody_complete bodied hrest, rfl, rfl⟩

theorem RootEntryForm.peek_ne {e : Operation × String} (h : RootEntryForm ts e rest)
    (p : Punctuator) : peek ts ≠ some (.punct p) := by
  cases h with
  | intro => simp

theorem rootEntry_complete {e : Operation × String} (h : RootEntryForm ts e rest) :
    rootEntry ts = .ok (e, rest) := by
  cases h with
  | intro =>
      simp only [rootEntry, bind_ok, operation_ok, punct_ok, name_ok, pure_ok]
      exact ⟨_, _, ⟨_, rfl⟩, (), _, ⟨_, rfl⟩, _, _, ⟨_, rfl⟩, rfl, rfl⟩

theorem schemaRoots_complete {roots : RootNames} (h : SchemaForm ts roots rest)
    (hrest : Boundary rest) : schemaRoots ts = .ok (roots, rest) := by
  cases h with
  | intro directed braced =>
      have hclose : peek rest ≠ some (.punct .braceOpen) := hrest.peek_ne rfl
      simp only [schemaRoots, bind_ok, keyword_ok, pure_ok, foldl_set_eq_ofEntries]
      exact ⟨(), _, ⟨_, rfl⟩, _, _, directives_complete_of_braced directed braced hrest, _, _,
        enclosed?_complete (F := fun _ => True) braced RootEntryForm.shorter
          (fun h => ⟨h.peek_ne _, trivial⟩) (fun _ h _ => rootEntry_complete h)
          (fun _ => trivial) hclose, rfl, rfl⟩

theorem PlaceForm.peek_ne {text : String} (h : PlaceForm ts text rest) (p : Punctuator) :
    peek ts ≠ some (.punct p) := by
  cases h with
  | intro => simp

theorem directiveLocation_complete {text : String} (h : PlaceForm ts text rest) :
    directiveLocation ts = .ok (text, rest) := by
  cases h with
  | intro place => exact if_pos place

theorem directiveDefinition_complete {name : String} (h : DirectiveDefForm ts name rest)
    (hrest : Boundary rest) : directiveDefinition ts = .ok (name, rest) := by
  cases h with
  | @intro m m' m'' _ ts₁ ts₂ _ arguments places _ argued repeating placed =>
      have hparen : peek ts₁ ≠ some (.punct .parenOpen) := by
        cases repeating <;> simp
      have hrepeatable : ∃ b, keyword? "repeatable" ts₁ = .ok (b, ⟨.name "on", m''⟩ :: ts₂) := by
        cases repeating with
        | absent => exact ⟨false, keyword?_ok.2 (.inr ⟨rfl, by simp, rfl⟩)⟩
        | present => exact ⟨true, keyword?_ok.2 (.inl ⟨rfl, _, rfl⟩)⟩
      obtain ⟨b, hb⟩ := hrepeatable
      have hplaces := separated_complete placed (fun h => h.shorter.1) (fun h => h.peek_ne _)
        directiveLocation_complete (hrest.peek_ne rfl)
      simp only [directiveDefinition, bind_ok, keyword_ok, directiveName_ok, pure_ok]
      exact ⟨(), _, ⟨m, rfl⟩, name, _, ⟨m', rfl⟩, arguments, ts₁,
        argumentDefs_complete argued hparen, b, _, hb, (), ts₂, ⟨m'', rfl⟩, places, rest, hplaces,
        rfl, rfl⟩

theorem DefinitionForm.ends {d : Definition μ} (h : DefinitionForm ts d rest) : Ends ts := by
  cases h with
  | schema described defined =>
      cases defined with
      | intro => exact described.ends (by simp)
  | directive described defined =>
      cases defined with
      | intro => exact described.ends (by simp)
  | extendSchema | extendType => exact DescriptionForm.absent.ends (by simp)
  | type described defined =>
      cases defined with
      | @intro kind => exact described.ends (by cases kind <;> simp [TypeKind.keyword])

theorem extension_complete_schema {m : μ} {roots : RootNames} (h : SchemaForm ts roots rest)
    (hrest : Ends rest) :
    extension (⟨.name "extend", m⟩ :: ts) = .ok (.extendSchema roots, rest) := by
  have hschema : peek ts = some (.name "schema") := by
    cases h with
    | intro => rfl
  simp only [extension, bind_ok, keyword_ok, get_ok, ite_ok, pure_ok, atKeyword_iff]
  exact ⟨(), ts, ⟨m, rfl⟩, ts, ts, ⟨rfl, rfl⟩,
    .inl ⟨hschema, roots, rest, schemaRoots_complete h hrest.1, rfl, rfl⟩⟩

theorem extension_complete_type {m : μ} {e : TypeDef μ} (h : TypeDefForm none ts e rest)
    (hrest : Ends rest) :
    extension (⟨.name "extend", m⟩ :: ts) = .ok (.extendType e, rest) := by
  have hschema : peek ts ≠ some (.name "schema") := by
    cases h with
    | @intro kind => cases kind <;> simp [TypeKind.keyword]
  simp only [extension, bind_ok, keyword_ok, get_ok, ite_ok, pure_ok, atKeyword_iff]
  exact ⟨(), ts, ⟨m, rfl⟩, ts, ts, ⟨rfl, rfl⟩,
    .inr ⟨hschema, e, rest, typeDef_complete h hrest, rfl, rfl⟩⟩

theorem definition_complete {d : Definition μ} (h : DefinitionForm ts d rest)
    (hrest : Ends rest) : definition ts = .ok (d, rest) := by
  simp only [definition, bind_ok, get_ok, ite_ok, fail_ok, pure_ok, atKeyword_iff]
  cases h with
  | schema described defined =>
      cases defined with
      | intro directed braced =>
          exact ⟨_, _, description?_complete described (by simp), _, _, ⟨rfl, rfl⟩,
            .inr ⟨by simp, .inl ⟨rfl, _, _,
              schemaRoots_complete (.intro directed braced) hrest.1, rfl, rfl⟩⟩⟩
  | directive described defined =>
      cases defined with
      | intro argued repeating placed =>
          exact ⟨_, _, description?_complete described (by simp), _, _, ⟨rfl, rfl⟩,
            .inr ⟨by simp, .inr ⟨by simp, .inl ⟨rfl, _, _,
              directiveDefinition_complete (.intro argued repeating placed) hrest.1, rfl, rfl⟩⟩⟩⟩
  | extendSchema defined =>
      exact ⟨_, _, description?_complete .absent (by simp), _, _, ⟨rfl, rfl⟩,
        .inr ⟨by simp, .inr ⟨by simp, .inr ⟨by simp, .inl ⟨rfl,
          .inr ⟨by simp, extension_complete_schema defined hrest⟩⟩⟩⟩⟩⟩
  | extendType defined =>
      exact ⟨_, _, description?_complete .absent (by simp), _, _, ⟨rfl, rfl⟩,
        .inr ⟨by simp, .inr ⟨by simp, .inr ⟨by simp, .inl ⟨rfl,
          .inr ⟨by simp, extension_complete_type defined hrest⟩⟩⟩⟩⟩⟩
  | type described defined =>
      cases defined with
      | @intro kind mark name m us body _ bodied =>
          have hword : ∀ word, word ∈ ["schema", "directive", "extend"] →
              peek (⟨.name kind.keyword, mark⟩ :: us) ≠ some (.name word) := by
            intro word hmem
            rw [peek_cons]
            rintro ⟨rfl⟩
            cases kind <;> simp [TypeKind.keyword] at hmem
          exact ⟨_, _, description?_complete described (by simp), _, _, ⟨rfl, rfl⟩,
            .inr ⟨by simp, .inr ⟨hword _ (by simp), .inr ⟨hword _ (by simp),
              .inr ⟨hword _ (by simp), _, _, typeDef_complete (.intro bodied) hrest, rfl, rfl⟩⟩⟩⟩⟩

theorem definitions_complete {ds : List (Definition μ)} (h : Derives ts ds) :
    definitions ts = .ok (ds, []) := by
  refine many_complete (F := Ends) h DefinitionForm.shorter (fun h => ⟨?_, h.ends⟩)
    (fun _ => definition_complete) ends_nil rfl
  rw [← Bool.not_eq_true, List.isEmpty_iff]
  rintro rfl
  exact absurd h.shorter.2 (by simp)

end SchemaGraph.Sdl
