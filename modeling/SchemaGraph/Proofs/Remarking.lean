import SchemaGraph.Proofs.Changing
import SchemaGraph.Proofs.ReaderComplete

/-!
# Derivations of changed lexemes

A rule of the grammar asks for tokens. The marks that come with them are handed on to
the definitions, and no rule looks at one. Directives may stand in any number wherever
they may stand at all. So let lexemes be changed, such that each but the name of a directive
stays in its place, whatever its mark is then, and such that directives in a row are
directives again. What is derived from them is then changed in the same way. There is one
lemma for each form, and none of them has to do more than put the rule together again.

The one thing that could go wrong is that directives are derived of less than was meant:
without its arguments a directive is one just as well. So it has to be known of each rule
that no parenthesis comes behind the last of its directives.

Lexemes that differ in nothing but their marks are the case in which all directives stay.
-/

namespace SchemaGraph.Sdl

open Reader

variable {μ ν α β : Type}

/-- The same token under another mark. -/
def Lexeme.map (f : μ → ν) (l : Lexeme μ) : Lexeme ν := ⟨l.token, f l.mark⟩

/-- No parenthesis is next, so that a directive in front has all its arguments. -/
abbrev NoArguments (ts : List (Lexeme μ)) : Prop := peek ts ≠ some (.punct .parenOpen)

/-- Each lexeme stays in its place, under another mark; names of directives need not. -/
structure Remarks (f : μ → ν) (T : List (Lexeme μ) → List (Lexeme ν)) : Prop where
  punct : ∀ p m ts, T (⟨.punct p, m⟩ :: ts) = ⟨.punct p, f m⟩ :: T ts
  name : ∀ text m ts, T (⟨.name text, m⟩ :: ts) = ⟨.name text, f m⟩ :: T ts
  integer : ∀ text m ts, T (⟨.integer text, m⟩ :: ts) = ⟨.integer text, f m⟩ :: T ts
  float : ∀ text m ts, T (⟨.float text, m⟩ :: ts) = ⟨.float text, f m⟩ :: T ts
  string : ∀ value m ts, T (⟨.string value, m⟩ :: ts) = ⟨.string value, f m⟩ :: T ts

/-- Lexemes are changed as definitions are: their marks, and directives in a row. -/
structure Carries (c : Change μ ν) (T : List (Lexeme μ) → List (Lexeme ν)) : Prop
    extends Remarks c.mark T where
  directives : ∀ {ts rest ds}, Star DirectiveForm ts ds rest → NoArguments rest →
    Star DirectiveForm (T ts) (c.directives ds) (T rest)

variable {ts rest : List (Lexeme μ)}

theorem ValueForm.noArguments {v : Value} (h : ValueForm ts v rest) : NoArguments ts := by
  cases h <;> simp

theorem MembersForm.noArguments {names : List String} (h : MembersForm ts names rest)
    (hrest : NoArguments rest) : NoArguments ts := by
  cases h with
  | absent => exact hrest
  | present => simp

section

variable {f : μ → ν} {T : List (Lexeme μ) → List (Lexeme ν)} (hT : Remarks f T)

section

variable {R : Form μ α} {R' : Form ν β} {g : α → β} {as : List α}

theorem Star.carry (h : Star R ts as rest) (hstart : ∀ {us a mid}, R us a mid → NoArguments us)
    (hrest : NoArguments rest)
    (hR : ∀ a ∈ as, ∀ {us mid}, R us a mid → NoArguments mid → R' (T us) (g a) (T mid)) :
    Star R' (T ts) (as.map g) (T rest) := by
  induction h with
  | nil => exact .nil
  | cons head tail ih =>
      obtain ⟨ha, has⟩ := List.forall_mem_cons.1 hR
      refine .cons (ha head ?_) (ih hrest has)
      cases tail with
      | nil => exact hrest
      | cons next _ => exact hstart next

include hT

theorem EnclosedForm.carry {opening close : Punctuator}
    (h : EnclosedForm opening close R ts as rest)
    (hstart : ∀ {us a mid}, R us a mid → NoArguments us) (hclose : close ≠ .parenOpen)
    (hR : ∀ a ∈ as, ∀ {us mid}, R us a mid → NoArguments mid → R' (T us) (g a) (T mid)) :
    EnclosedForm opening close R' (T ts) (as.map g) (T rest) := by
  cases h with
  | absent => exact .absent
  | present items =>
      have hitems := items.carry (T := T) hstart (by simpa using hclose) hR
      rw [hT.punct] at hitems ⊢
      exact .present hitems

end

section

variable {R : Form μ α} {R' : Form ν α} {as : List α}

/-- Parts with neither marks nor directives in them are derived as they were. -/
theorem Star.carry_same (h : Star R ts as rest)
    (hstart : ∀ {us a mid}, R us a mid → NoArguments us) (hrest : NoArguments rest)
    (hR : ∀ a ∈ as, ∀ {us mid}, R us a mid → R' (T us) a (T mid)) :
    Star R' (T ts) as (T rest) :=
  List.map_id as ▸ h.carry (g := id) hstart hrest fun a ha _ _ hus _ => hR a ha hus

include hT

theorem EnclosedForm.carry_same {opening close : Punctuator}
    (h : EnclosedForm opening close R ts as rest)
    (hstart : ∀ {us a mid}, R us a mid → NoArguments us) (hclose : close ≠ .parenOpen)
    (hR : ∀ a ∈ as, ∀ {us mid}, R us a mid → R' (T us) a (T mid)) :
    EnclosedForm opening close R' (T ts) as (T rest) :=
  List.map_id as ▸ h.carry (g := id) hT hstart hclose fun a ha _ _ hus _ => hR a ha hus

theorem PrecededForm.carry {p : Punctuator} {a : α} (h : PrecededForm p R ts a rest)
    (hR : ∀ {us mid}, R us a mid → R' (T us) a (T mid)) :
    PrecededForm p R' (T ts) a (T rest) := by
  cases h with
  | intro item =>
      rw [hT.punct]
      exact .intro (hR item)

theorem SeparatedForm.carry {p : Punctuator} (h : SeparatedForm p R ts as rest)
    (hp : p ≠ .parenOpen) (hrest : NoArguments rest)
    (hR : ∀ a, ∀ {us mid}, R us a mid → R' (T us) a (T mid)) :
    SeparatedForm p R' (T ts) as (T rest) := by
  have hstart : ∀ {us a mid}, PrecededForm p R us a mid → NoArguments us := by
    intro us a mid hus
    cases hus with
    | intro => simpa using hp
  cases h with
  | bare first others =>
      exact .bare (hR _ first)
        (others.carry_same hstart hrest fun a _ _ _ h => h.carry hT (hR a))
  | led first others =>
      exact .led (first.carry hT (hR _))
        (others.carry_same hstart hrest fun a _ _ _ h => h.carry hT (hR a))

theorem LabelledForm.carry {a : String × α} (h : LabelledForm R ts a rest)
    (hR : ∀ {us mid}, R us a.2 mid → R' (T us) a.2 (T mid)) :
    LabelledForm R' (T ts) a (T rest) := by
  cases h with
  | intro item =>
      rw [hT.name, hT.punct]
      exact .intro (hR item)

end

include hT

theorem NameForm.carry {text : String} (h : NameForm ts text rest) :
    NameForm (T ts) text (T rest) := by
  cases h with
  | intro =>
      rw [hT.name]
      exact .intro

theorem DescriptionForm.carry {d : Option String} (h : DescriptionForm ts d rest) :
    DescriptionForm (T ts) d (T rest) := by
  cases h with
  | absent => exact .absent
  | present =>
      rw [hT.string]
      exact .present

theorem TypeForm.carry {t : TypeExpr} (h : TypeForm ts t rest) : TypeForm (T ts) t (T rest) := by
  induction h with
  | named =>
      rw [hT.name]
      exact .named
  | namedNonNull =>
      rw [hT.name, hT.punct]
      exact .namedNonNull
  | list _ ih =>
      rw [hT.punct] at ih ⊢
      exact .list ih
  | listNonNull _ ih =>
      rw [hT.punct, hT.punct] at ih
      rw [hT.punct]
      exact .listNonNull ih

/-- The rule of values goes through repetitions of itself, so the induction is on the value. -/
theorem ValueForm.carry {v : Value} {ts rest : List (Lexeme μ)} (h : ValueForm ts v rest) :
    ValueForm (T ts) v (T rest) := by
  match v, h with
  | _, .int => exact hT.integer .. ▸ .int
  | _, .float => exact hT.float .. ▸ .float
  | _, .string => exact hT.string .. ▸ .string
  | _, .true => exact hT.name .. ▸ .true
  | _, .false => exact hT.name .. ▸ .false
  | _, .null => exact hT.name .. ▸ .null
  | _, .enum name => exact hT.name .. ▸ .enum name
  | .list vs, .list items =>
      have hitems := items.carry_same (T := T) ValueForm.noArguments (by simp)
        fun v hv _ _ h => ValueForm.carry h
      rw [hT.punct] at hitems ⊢
      exact .list hitems
  | .object fs, .object fields =>
      have hfields := fields.carry_same (T := T) (fun h => h.peek_ne _) (by simp)
        fun p hp _ _ h => h.carry hT fun h => ValueForm.carry h
      rw [hT.punct] at hfields ⊢
      exact .object hfields
termination_by v
decreasing_by
  · have := List.sizeOf_lt_of_mem hv
    simp_wf
    omega
  · have := List.sizeOf_lt_of_mem hp
    obtain ⟨name, v⟩ := p
    simp_wf
    simp at this
    omega

/-- A directive whose name stays in its place as well. -/
theorem DirectiveForm.carry {d : Directive} (h : DirectiveForm ts d rest)
    (hname : ∀ m us, T (⟨.directive d.name, m⟩ :: us) = ⟨.directive d.name, f m⟩ :: T us) :
    DirectiveForm (T ts) d (T rest) := by
  cases h with
  | intro arguments =>
      rw [hname]
      exact .intro (arguments.carry_same hT (fun h => h.peek_ne _) (by decide)
        fun _ _ _ _ h => h.carry hT fun h => h.carry hT)

theorem DefaultForm.carry {v : Option Value} (h : DefaultForm ts v rest) :
    DefaultForm (T ts) v (T rest) := by
  cases h with
  | absent => exact .absent
  | present value =>
      rw [hT.punct]
      exact .present (value.carry hT)

theorem ImplementsForm.carry {names : List String} (h : ImplementsForm ts names rest)
    (hrest : NoArguments rest) : ImplementsForm (T ts) names (T rest) := by
  cases h with
  | absent => exact .absent
  | present interfaces =>
      rw [hT.name]
      exact .present (interfaces.carry hT (by decide) hrest fun _ _ _ h => h.carry hT)

theorem MembersForm.carry {names : List String} (h : MembersForm ts names rest)
    (hrest : NoArguments rest) : MembersForm (T ts) names (T rest) := by
  cases h with
  | absent => exact .absent
  | present members =>
      rw [hT.punct]
      exact .present (members.carry hT (by decide) hrest fun _ _ _ h => h.carry hT)

theorem PlaceForm.carry {text : String} (h : PlaceForm ts text rest) :
    PlaceForm (T ts) text (T rest) := by
  cases h with
  | intro place =>
      rw [hT.name]
      exact .intro place

theorem RootEntryForm.carry {e : Operation × String} (h : RootEntryForm ts e rest) :
    RootEntryForm (T ts) e (T rest) := by
  cases h with
  | intro =>
      rw [hT.name, hT.punct, hT.name]
      exact .intro

end

/-! ## Parts with marks and directives

Where directives come last in a form, what is behind the form must not start with a
parenthesis, so each lemma asks for this and each rule passes it on. Behind the last part
of a rule it is what the rule itself is asked for; behind any other part it can be seen,
as no part that may follow directives starts with a parenthesis. -/

section

variable {c : Change μ ν} {T : List (Lexeme μ) → List (Lexeme ν)} (hT : Carries c T)

include hT

theorem InputForm.carry {d : InputDef μ} (h : InputForm ts d rest) (hrest : NoArguments rest) :
    InputForm (T ts) (d.alter c) (T rest) := by
  cases h with
  | intro described typed defaulted directed =>
      have hdescribed := described.carry hT.toRemarks
      rw [hT.name, hT.punct] at hdescribed
      exact .intro hdescribed (typed.carry hT.toRemarks) (defaulted.carry hT.toRemarks)
        (hT.directives directed hrest)

theorem FieldForm.carry {d : FieldDef μ} (h : FieldForm ts d rest) (hrest : NoArguments rest) :
    FieldForm (T ts) (d.alter c) (T rest) := by
  cases h with
  | intro described argued typed directed =>
      have hdescribed := described.carry hT.toRemarks
      have hargued := argued.carry hT.toRemarks (fun h => (h.starts _).1) (by decide)
        fun _ _ _ _ h hmid => h.carry hT hmid
      rw [hT.name] at hdescribed
      rw [hT.punct] at hargued
      exact .intro hdescribed hargued (typed.carry hT.toRemarks) (hT.directives directed hrest)

theorem EnumValueForm.carry {d : EnumValueDef μ} (h : EnumValueForm ts d rest)
    (hrest : NoArguments rest) : EnumValueForm (T ts) (d.alter c) (T rest) := by
  cases h with
  | intro described unreserved directed =>
      have hdescribed := described.carry hT.toRemarks
      rw [hT.name] at hdescribed
      exact .intro hdescribed unreserved (hT.directives directed hrest)

theorem BodyForm.carry {kind : TypeKind} {body : TypeBody μ} (h : BodyForm kind ts body rest)
    (hrest : NoArguments rest) : BodyForm kind (T ts) (body.alter c) (T rest) := by
  cases h with
  | scalar directed => exact .scalar (hT.directives directed hrest)
  | object implementing directed braced =>
      have hbraced := braced.peek_ne (by simp) hrest
      exact .object (implementing.carry hT.toRemarks (directed.peek_directive (by simp) hbraced))
        (hT.directives directed hbraced)
        (braced.carry hT.toRemarks (fun h => (h.starts _).1) (by decide)
          fun _ _ _ _ h hmid => h.carry hT hmid)
  | interface implementing directed braced =>
      have hbraced := braced.peek_ne (by simp) hrest
      exact .interface
        (implementing.carry hT.toRemarks (directed.peek_directive (by simp) hbraced))
        (hT.directives directed hbraced)
        (braced.carry hT.toRemarks (fun h => (h.starts _).1) (by decide)
          fun _ _ _ _ h hmid => h.carry hT hmid)
  | union directed joined =>
      exact .union (hT.directives directed (joined.noArguments hrest))
        (joined.carry hT.toRemarks hrest)
  | enum directed braced =>
      exact .enum (hT.directives directed (braced.peek_ne (by simp) hrest))
        (braced.carry hT.toRemarks (fun h => (h.starts _).1) (by decide)
          fun _ _ _ _ h hmid => h.carry hT hmid)
  | input directed braced =>
      exact .input (hT.directives directed (braced.peek_ne (by simp) hrest))
        (braced.carry hT.toRemarks (fun h => (h.starts _).1) (by decide)
          fun _ _ _ _ h hmid => h.carry hT hmid)

theorem TypeDefForm.carry {description : Option String} {d : TypeDef μ}
    (h : TypeDefForm description ts d rest) (hrest : NoArguments rest) :
    TypeDefForm description (T ts) (d.alter c) (T rest) := by
  cases h with
  | intro bodied =>
      rw [hT.name, hT.name]
      exact .intro (bodied.carry hT hrest)

theorem SchemaForm.carry {roots : RootNames} (h : SchemaForm ts roots rest)
    (hrest : NoArguments rest) : SchemaForm (T ts) roots (T rest) := by
  cases h with
  | intro directed braced =>
      rw [hT.name]
      exact .intro (hT.directives directed (braced.peek_ne (by simp) hrest))
        (braced.carry_same hT.toRemarks (fun h => h.peek_ne _) (by decide)
          fun _ _ _ _ h => h.carry hT.toRemarks)

/-- The definition of a directive, in which the name of the directive stays in its place. -/
theorem DirectiveDefForm.carry {name : String} (h : DirectiveDefForm ts name rest)
    (hname : ∀ m us, T (⟨.directive name, m⟩ :: us) = ⟨.directive name, c.mark m⟩ :: T us)
    (hrest : NoArguments rest) : DirectiveDefForm (T ts) name (T rest) := by
  cases h with
  | intro argued repeating placed =>
      have hargued := argued.carry hT.toRemarks (fun h => (h.starts _).1) (by decide)
        fun _ _ _ _ h hmid => h.carry hT hmid
      have hplaced := placed.carry hT.toRemarks (by decide) hrest fun _ _ _ h =>
        h.carry hT.toRemarks
      rw [hT.name, hname]
      cases repeating with
      | absent =>
          rw [hT.name] at hargued
          exact .intro hargued .absent hplaced
      | present =>
          rw [hT.name, hT.name] at hargued
          exact .intro hargued .present hplaced

theorem DefinitionForm.carry {d : Definition μ} (h : DefinitionForm ts d rest)
    (hname : ∀ name, d = .directive name →
      ∀ m us, T (⟨.directive name, m⟩ :: us) = ⟨.directive name, c.mark m⟩ :: T us)
    (hrest : NoArguments rest) : DefinitionForm (T ts) (d.alter c) (T rest) := by
  cases h with
  | schema described defined =>
      exact .schema (described.carry hT.toRemarks) (defined.carry hT hrest)
  | directive described defined =>
      exact .directive (described.carry hT.toRemarks) (defined.carry hT (hname _ rfl) hrest)
  | extendSchema defined =>
      rw [hT.name]
      exact .extendSchema (defined.carry hT hrest)
  | extendType defined =>
      rw [hT.name]
      exact .extendType (defined.carry hT hrest)
  | type described defined =>
      exact .type (described.carry hT.toRemarks) (defined.carry hT hrest)

end

section

variable (f : μ → ν)

/-- The same tokens under other marks. -/
abbrev remarked (ts : List (Lexeme μ)) : List (Lexeme ν) := ts.map (Lexeme.map f)

theorem remarks_remarked : Remarks f (remarked f) where
  punct _ _ _ := rfl
  name _ _ _ := rfl
  integer _ _ _ := rfl
  float _ _ _ := rfl
  string _ _ _ := rfl

theorem carries_remarked : Carries ⟨f, id⟩ (remarked f) where
  toRemarks := remarks_remarked f
  directives := by
    intro ts rest ds h hrest
    induction h with
    | nil => exact .nil
    | cons head _ ih => exact .cons (head.carry (remarks_remarked f) fun _ _ => rfl) (ih hrest)

end

/-- Lexemes under other marks are definitions under other marks. -/
theorem Derives.remark {ds : List (Definition μ)} (h : Derives ts ds) (f : μ → ν) :
    Derives (remarked f ts) (ds.map (·.map f)) := by
  refine Star.carry h (fun h => h.ends.1.peek_ne rfl) (by simp) fun d _ us mid hd hmid => ?_
  rw [← d.alter_mark f]
  exact hd.carry (carries_remarked f) (fun _ _ _ _ => rfl) hmid

end SchemaGraph.Sdl
