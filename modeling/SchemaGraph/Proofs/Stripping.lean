import SchemaGraph.Proofs.Joining

/-!
# Directives that may be left out

Of the directives that are applied in a text only deprecations are ever looked at, and of
a directive's own definition nothing is. The lexemes of both may be left out, and what is
left is still derived: each rule that has directives in it allows any number of them.

Which lexemes these are is told definition by definition, as the readers take them. A
directive's own definition goes as a whole, and in every other definition each directive
that is no deprecation goes with its arguments. Since a definition is derived from its
lexemes whatever is behind them, the definitions can be gone through one by one, each
as if the text ended with it, and what is left of them is put in a row again.

A directive that could not be read would stay. What is left is therefore derived with a
fault in the place of each directive that has stayed; no rule derives a fault, so there
is none.
-/

namespace SchemaGraph

open Sdl

/-- The deprecations among some directives. -/
def deprecations (ds : List Directive) : List Directive := ds.filter (·.name == "deprecated")

/-- Directives that are no deprecations are left out, and marks stay as they are. -/
def Change.stripping {μ : Type} : Change μ μ := ⟨id, deprecations⟩

theorem deprecation?_deprecations (ds : List Directive) :
    deprecation? (deprecations ds) = deprecation? ds := by
  have hfind : (deprecations ds).find? (·.name == "deprecated")
      = ds.find? (·.name == "deprecated") := by
    simp only [deprecations, List.find?_filter, and_self, Bool.decide_eq_true]
  rw [deprecation?, deprecation?, hfind]

namespace Sdl

open Reader

variable {μ α β : Type}

/-- Whether this is the definition of a directive. -/
def Definition.isDirective : Definition μ → Bool
  | directive _ => true
  | _ => false

/-- Definitions without those of directives, and without directives that are no deprecations. -/
def strippedDefinitions (ds : List (Definition μ)) : List (Definition μ) :=
  (ds.filter fun d => !d.isDirective).map (·.alter .stripping)

theorem strippedDefinitions_append (ds es : List (Definition μ)) :
    strippedDefinitions (ds ++ es) = strippedDefinitions ds ++ strippedDefinitions es := by
  rw [strippedDefinitions, List.filter_append, List.map_append]
  rfl

/-- Whether a lexeme is the name of a directive that is no deprecation. -/
def Token.isInert : Token → Bool
  | .directive text => text != "deprecated"
  | _ => false

/-- A lexeme that stays, or some in a row that are left out. -/
inductive Part (μ : Type) where
  | kept (lexeme : Lexeme μ)
  | removed (first : Lexeme μ) (others : List (Lexeme μ))

/-- The lexemes of a part. -/
def Part.lexemes : Part μ → List (Lexeme μ)
  | kept l => [l]
  | removed first others => first :: others

/-- The lexemes of a part that stay. -/
def Part.left : Part μ → List (Lexeme μ)
  | kept l => [l]
  | removed _ _ => []

/-- What a reader reads, together with the lexemes that it takes. -/
def withLexemes (r : Reader μ α) : Reader μ (α × List (Lexeme μ)) := fun ts =>
  match r ts with
  | .ok (a, rest) => .ok ((a, ts.take (ts.length - rest.length)), rest)
  | .error u => .error u

/-- The lexemes behind the first, if the next are a directive that is no deprecation. -/
def inert? (l : Lexeme μ) (ts : List (Lexeme μ)) : Option (List (Lexeme μ)) :=
  if l.token.isInert then
    (withLexemes directive (l :: ts)).toOption.map fun p => p.1.2.tail
  else none

/--
The parts of a definition that is no directive's own, from some lexeme on: each directive
that is no deprecation is left out with its arguments. The first lexemes are passed over.
-/
def directiveParts : Nat → List (Lexeme μ) → List (Part μ)
  | _, [] => []
  | passed + 1, _ :: ts => directiveParts passed ts
  | 0, l :: ts =>
    match inert? l ts with
    | some others => .removed l others :: directiveParts others.length ts
    | none => .kept l :: directiveParts 0 ts

/-- The parts of a definition that has these lexemes. -/
def Definition.parts : Definition μ → List (Lexeme μ) → List (Part μ)
  | .directive _, first :: others => [.removed first others]
  | _, ts => directiveParts 0 ts

/-- The parts of all definitions of a text. -/
def lexemeParts (ts : List (Lexeme μ)) : List (Part μ) :=
  match many List.isEmpty (withLexemes definition) ts with
  | .ok (runs, _) => runs.flatMap fun p => p.1.parts p.2
  | .error _ => ts.map .kept

/--
What stays is in its place: it is no directive but a deprecation. And so is what is left
out: it is a directive that is no deprecation, or else the definition of a directive.
-/
inductive Part.InPlace : Part μ → Prop
  | kept {l : Lexeme μ} (active : l.token.isInert = false) : InPlace (.kept l)
  | applied {first : Lexeme μ} {others : List (Lexeme μ)} {d : Directive}
      (inert : d.name ≠ "deprecated") (form : DirectiveForm (first :: others) d []) :
      InPlace (.removed first others)
  | defined {first : Lexeme μ} {others : List (Lexeme μ)} {name : String}
      (form : DefinitionForm (first :: others) (.directive name) []) :
      InPlace (.removed first others)

/-- The parts are all of the lexemes in their order, and each of them is in place. -/
structure Partitions (ps : List (Part μ)) (ts : List (Lexeme μ)) : Prop where
  lexemes : ps.flatMap Part.lexemes = ts
  inPlace : ∀ p ∈ ps, p.InPlace

theorem Part.InPlace.left {p : Part μ} (h : p.InPlace) :
    ∀ l ∈ p.left, l.token.isInert = false := by
  cases h with
  | kept active => exact List.forall_mem_singleton.2 active
  | applied | defined => exact List.forall_mem_nil _

theorem directiveParts_drop (passed : Nat) (ts : List (Lexeme μ)) :
    directiveParts passed ts = directiveParts 0 (ts.drop passed) := by
  induction ts generalizing passed with
  | nil => cases passed <;> rfl
  | cons l ts ih =>
      cases passed with
      | zero => rfl
      | succ passed =>
          rw [directiveParts, List.drop_succ_cons]
          exact ih passed

section

variable {l : Lexeme μ} {ts : List (Lexeme μ)}

theorem directiveParts_some {others : List (Lexeme μ)} (h : inert? l ts = some others) :
    directiveParts 0 (l :: ts)
      = .removed l others :: directiveParts 0 (ts.drop others.length) := by
  rw [directiveParts, h, ← directiveParts_drop]

theorem directiveParts_none (h : inert? l ts = none) :
    directiveParts 0 (l :: ts) = .kept l :: directiveParts 0 ts := by
  rw [directiveParts, h]

end

/-! ## Lexemes that are taken

Which lexemes are left out is found by reading, so what a reader takes has to be known as
lexemes and not just by what is left behind it. A form that is read with foresight derives
the same from the lexemes that were taken, whatever is behind them (`RunForm`). Two things
come of this. A definition can be cut out of its text and is still that definition; and
what has been found to be a directive is one by itself (`inert?_eq_some`). -/

variable {ts rest : List (Lexeme μ)}

theorem withLexemes_ok {r : Reader μ α} {a : α} {run : List (Lexeme μ)}
    (h : r (run ++ rest) = .ok (a, rest)) :
    withLexemes r (run ++ rest) = .ok ((a, run), rest) := by
  have hlength : (run ++ rest).length - rest.length = run.length := by
    rw [List.length_append]
    omega
  rw [withLexemes, h]
  simp only [hlength, List.take_left']

/-- What is derived together with its lexemes, whatever is behind them. -/
def RunForm (R : Form μ α) : Form μ (α × List (Lexeme μ)) := fun ts p rest =>
  ts = p.2 ++ rest ∧ ∀ vs, R (p.2 ++ vs) p.1 vs

theorem RunForm.derived {R : Form μ α} {p : α × List (Lexeme μ)} (h : RunForm R ts p rest) :
    R ts p.1 rest := by
  obtain ⟨rfl, hp⟩ := h
  exact hp rest

theorem RunForm.alone {R : Form μ α} {p : α × List (Lexeme μ)} (h : RunForm R ts p rest) :
    R p.2 p.1 [] := by
  have hform := h.2 []
  rwa [List.append_nil] at hform

theorem RunForm.read {R : Form μ α} {r : Reader μ α} {p : α × List (Lexeme μ)}
    (h : RunForm R ts p rest) (hr : ∀ {us a}, R us a rest → r us = .ok (a, rest)) :
    withLexemes r ts = .ok (p, rest) := by
  obtain ⟨rfl, hp⟩ := h
  exact withLexemes_ok (hr (hp rest))

theorem Foresees.exists_run {R : Form μ α} {r : Reader μ α} (h : ∀ n, Foresees n R r) {a : α}
    (hread : r ts = .ok (a, rest)) : ∃ run, RunForm R ts (a, run) rest := by
  obtain ⟨run, hrun, -, hforms⟩ := ((h ts.length).here (Nat.le_refl _)).ok hread
  exact ⟨run, hrun, hforms⟩

theorem Foresees.run {R : Form μ α} {r : Reader μ α} (h : ∀ n, Foresees n R r)
    {p : α × List (Lexeme μ)} (hread : withLexemes r ts = .ok (p, rest)) :
    RunForm R ts p rest := by
  cases hr : r ts with
  | error e =>
      rw [withLexemes, hr] at hread
      cases hread
  | ok found =>
      obtain ⟨run, rfl, hforms⟩ := Foresees.exists_run h hr
      rw [withLexemes_ok hr] at hread
      cases hread
      exact ⟨rfl, hforms⟩

theorem DirectiveForm.taken {d : Directive} (h : DirectiveForm ts d rest) :
    ∃ m others, ts = ⟨.directive d.name, m⟩ :: (others ++ rest) := by
  obtain ⟨⟨taken, htaken, -⟩, hlt⟩ := h.shorter
  cases h with
  | @intro name m us args _ arguments =>
      cases taken with
      | nil =>
          rw [htaken, List.nil_append] at hlt
          omega
      | cons l others =>
          obtain ⟨-, hus⟩ := List.cons.inj htaken
          exact ⟨m, others, congrArg _ hus⟩

section

variable [Inhabited μ]

/-- The lexemes that are found are a directive, and no deprecation. -/
theorem inert?_eq_some {l : Lexeme μ} {others : List (Lexeme μ)} (h : inert? l ts = some others) :
    (∃ rest, ts = others ++ rest) ∧ (Part.removed l others).InPlace := by
  rw [inert?] at h
  split at h
  case isFalse => cases h
  case isTrue hinert =>
    cases hread : withLexemes directive (l :: ts) with
    | error e =>
        rw [hread] at h
        cases h
    | ok found =>
        obtain ⟨⟨d, run⟩, rest⟩ := found
        have hrun := Foresees.run (fun _ => directive_foresees) hread
        obtain ⟨m, others', hcons⟩ := hrun.alone.taken
        rw [List.append_nil] at hcons
        obtain rfl : run = ⟨.directive d.name, m⟩ :: others' := hcons
        obtain ⟨rfl, hts⟩ := List.cons.inj hrun.1
        rw [hread] at h
        cases h
        exact ⟨⟨rest, hts⟩, .applied (by simpa [Token.isInert] using hinert) hrun.alone⟩

/-- Nothing is lost or changed by cutting lexemes into parts. -/
theorem directiveParts_lexemes (passed : Nat) (ts : List (Lexeme μ)) :
    (directiveParts passed ts).flatMap Part.lexemes = ts.drop passed := by
  induction ts generalizing passed with
  | nil => cases passed <;> rfl
  | cons l ts ih =>
      cases passed with
      | succ passed => exact ih passed
      | zero =>
          rw [List.drop_zero]
          cases hl : inert? l ts with
          | none =>
              rw [directiveParts_none hl, List.flatMap_cons, ih]
              rfl
          | some others =>
              obtain ⟨⟨rest, rfl⟩, -⟩ := inert?_eq_some hl
              rw [directiveParts_some hl, ← directiveParts_drop, List.flatMap_cons, ih,
                List.drop_left]
              rfl

theorem Definition.parts_lexemes (d : Definition μ) (ts : List (Lexeme μ)) :
    (d.parts ts).flatMap Part.lexemes = ts := by
  unfold Definition.parts
  split
  · rw [List.flatMap_singleton]
    rfl
  · rw [directiveParts_lexemes, List.drop_zero]

/-- Parts are in place if no directive stays that is no deprecation. -/
theorem directiveParts_inPlace {passed : Nat} {ts : List (Lexeme μ)}
    (h : ∀ l ∈ (directiveParts passed ts).flatMap Part.left, l.token.isInert = false) :
    ∀ p ∈ directiveParts passed ts, p.InPlace := by
  induction ts generalizing passed with
  | nil => cases passed <;> exact List.forall_mem_nil _
  | cons l ts ih =>
      cases passed with
      | succ passed => exact ih h
      | zero =>
          cases hl : inert? l ts with
          | none =>
              rw [directiveParts_none hl] at h ⊢
              obtain ⟨hkept, hothers⟩ := List.forall_mem_cons.1 h
              exact List.forall_mem_cons.2 ⟨.kept hkept, ih hothers⟩
          | some others =>
              rw [directiveParts_some hl, ← directiveParts_drop] at h ⊢
              exact List.forall_mem_cons.2 ⟨(inert?_eq_some hl).2, ih h⟩

end

/-- A directive that stays, though it is no deprecation, becomes what no rule derives. -/
def Lexeme.blamed (l : Lexeme μ) : Lexeme μ :=
  if l.token.isInert then ⟨.invalid default, l.mark⟩ else l

/-- What stays of the lexemes of a definition that is no directive's own. -/
def stripped (ts : List (Lexeme μ)) : List (Lexeme μ) :=
  ((directiveParts 0 ts).flatMap Part.left).map Lexeme.blamed

/-- A lexeme that is no directive's name stays where it is. -/
theorem stripped_cons {l : Lexeme μ} (h : l.token.isInert = false) :
    stripped (l :: ts) = l :: stripped ts := by
  have hl : inert? l ts = none := if_neg (by simp [h])
  have hblamed : l.blamed = l := if_neg (by simp [h])
  rw [stripped, directiveParts_none hl]
  exact congrArg (· :: stripped ts) hblamed

theorem remarks_stripped : Remarks id (stripped : List (Lexeme μ) → List (Lexeme μ)) where
  punct _ _ _ := stripped_cons rfl
  name _ _ _ := stripped_cons rfl
  integer _ _ _ := stripped_cons rfl
  float _ _ _ := stripped_cons rfl
  string _ _ _ := stripped_cons rfl

/-- A directive that is no deprecation is left out as a whole. -/
theorem DirectiveForm.stripped_eq {d : Directive} (h : DirectiveForm ts d rest)
    (hd : d.name ≠ "deprecated") (hrest : NoArguments rest) : stripped ts = stripped rest := by
  have hread := directive_complete h hrest
  obtain ⟨m, others, rfl⟩ := h.taken
  have hinert : (Token.directive d.name).isInert = true := by simpa [Token.isInert] using hd
  have hfound : inert? ⟨.directive d.name, m⟩ (others ++ rest) = some others := by
    rw [inert?, if_pos hinert, ← List.cons_append, withLexemes_ok hread]
    rfl
  rw [stripped, directiveParts_some hfound, List.drop_left]
  rfl

/-- Of directives in a row the deprecations are left. -/
theorem Star.deprecations_left {ds : List Directive} (h : Star DirectiveForm ts ds rest)
    (hrest : NoArguments rest) :
    Star DirectiveForm (stripped ts) (deprecations ds) (stripped rest) := by
  induction h with
  | nil => exact .nil
  | @cons ts mid rest d ds head tail ih =>
      have hmid : NoArguments mid := tail.peek_directive (by simp) hrest
      by_cases hd : d.name = "deprecated"
      · rw [deprecations, List.filter_cons_of_pos (by simpa using hd)]
        refine .cons (head.carry remarks_stripped fun m us => stripped_cons ?_) (ih hrest)
        simp [Token.isInert, hd]
      · rw [deprecations, List.filter_cons_of_neg (by simpa using hd), head.stripped_eq hd hmid]
        exact ih hrest

theorem carries_stripped : Carries .stripping (stripped : List (Lexeme μ) → List (Lexeme μ)) where
  toRemarks := remarks_stripped
  directives := Star.deprecations_left

section

variable {d : Definition μ} (h : DefinitionForm ts d [])

include h

/-- What is left of a definition that is the whole of a text. -/
theorem DefinitionForm.derives_blamed :
    Derives (((d.parts ts).flatMap Part.left).map Lexeme.blamed) (strippedDefinitions [d]) := by
  cases hd : d.isDirective with
  | true =>
      obtain ⟨name, rfl⟩ : ∃ name, d = .directive name := by
        cases d with
        | directive name => exact ⟨name, rfl⟩
        | _ => cases hd
      cases ts with
      | nil => exact absurd h.shorter.2 (Nat.lt_irrefl 0)
      | cons first others => exact .nil
  | false =>
      have hparts : ((d.parts ts).flatMap Part.left).map Lexeme.blamed = stripped ts := by
        cases d with
        | directive => cases hd
        | _ => rfl
      have hkept : strippedDefinitions [d] = [d.alter .stripping] := by
        rw [strippedDefinitions, List.filter_cons_of_pos (by rw [hd]; rfl)]
        rfl
      rw [hparts, hkept]
      refine .cons (h.carry carries_stripped (fun name hname => ?_) (by simp)) .nil
      rw [hname] at hd
      cases hd

/-- As what is left is derived, there is nothing in it that no rule derives. -/
theorem DefinitionForm.parts_left :
    ∀ l ∈ (d.parts ts).flatMap Part.left, l.token.isInert = false := by
  intro l hl
  by_contra hinert
  -- A directive that has stayed would be blamed, and the fault would have been derived.
  have hvalid := h.derives_blamed.isValid _ (List.mem_map_of_mem hl)
  rw [Lexeme.blamed, if_pos (by simpa using hinert)] at hvalid
  cases hvalid

theorem DefinitionForm.derives_left :
    Derives ((d.parts ts).flatMap Part.left) (strippedDefinitions [d]) := by
  have hblamed : ((d.parts ts).flatMap Part.left).map Lexeme.blamed
      = (d.parts ts).flatMap Part.left :=
    (List.map_congr_left fun l hl => if_neg (by simp [h.parts_left l hl])).trans (List.map_id _)
  exact hblamed ▸ h.derives_blamed

theorem DefinitionForm.parts_inPlace [Inhabited μ] : ∀ p ∈ d.parts ts, p.InPlace := by
  have hleft := h.parts_left
  unfold Definition.parts at hleft ⊢
  split at hleft
  · exact List.forall_mem_singleton.2 (.defined h)
  · exact directiveParts_inPlace hleft

end

theorem Star.flatMap_runs {R : Form μ α} {runs : List (α × List (Lexeme μ))}
    (h : Star (RunForm R) ts runs rest) : runs.flatMap Prod.snd ++ rest = ts := by
  induction h with
  | nil => rfl
  | cons head _ ih => rw [List.flatMap_cons, List.append_assoc, ih, ← head.1]

theorem Star.forall_runs {R : Form μ α} {runs : List (α × List (Lexeme μ))}
    (h : Star (RunForm R) ts runs rest) : ∀ p ∈ runs, R p.2 p.1 [] := by
  induction h with
  | nil => exact List.forall_mem_nil _
  | cons head _ ih =>
      exact List.forall_mem_cons.2 ⟨head.alone, ih⟩

section

variable [Inhabited μ]

theorem Star.exists_runs {ds : List (Definition μ)} (h : Star DefinitionForm ts ds rest)
    (hrest : Ends rest) :
    ∃ runs, Star (RunForm DefinitionForm) ts runs rest ∧ runs.map Prod.fst = ds := by
  induction h with
  | nil => exact ⟨[], .nil, rfl⟩
  | @cons ts mid rest d ds head tail ih =>
      obtain ⟨runs, hruns, hds⟩ := ih hrest
      have hmid : Ends mid := by
        cases tail with
        | nil => exact hrest
        | cons next _ => exact next.ends
      obtain ⟨run, hrun⟩ := Foresees.exists_run (fun _ => definition_foresees)
        (definition_complete head hmid)
      exact ⟨(d, run) :: runs, .cons hrun hruns, congrArg (d :: ·) hds⟩

/-- The parts of a text are those of its definitions, each of which can stand by itself. -/
theorem Derives.exists_runs {ds : List (Definition μ)} (h : Derives ts ds) :
    ∃ runs : List (Definition μ × List (Lexeme μ)), runs.map Prod.fst = ds
      ∧ runs.flatMap Prod.snd = ts ∧ lexemeParts ts = runs.flatMap (fun p => p.1.parts p.2)
      ∧ ∀ p ∈ runs, DefinitionForm p.2 p.1 [] := by
  obtain ⟨runs, hruns, hds⟩ := Star.exists_runs h ends_nil
  have hstart : ∀ {us : List (Lexeme μ)} {p : Definition μ × List (Lexeme μ)}
      {mid : List (Lexeme μ)}, RunForm DefinitionForm us p mid →
        us.isEmpty = false ∧ Ends us := by
    intro us p mid hus
    refine ⟨?_, hus.derived.ends⟩
    have hlt := hus.derived.shorter.2
    rw [← Bool.not_eq_true, List.isEmpty_iff_length_eq_zero]
    omega
  have hread : many List.isEmpty (withLexemes definition) ts = .ok (runs, []) :=
    many_complete hruns (fun h => h.derived.shorter) hstart
      (fun _ h hmid => h.read fun h => definition_complete h hmid) ends_nil rfl
  have hts := hruns.flatMap_runs
  rw [List.append_nil] at hts
  exact ⟨runs, hds, hts, by rw [lexemeParts, hread], hruns.forall_runs⟩

variable {ds : List (Definition μ)} (h : Derives ts ds)

include h

/-- Exactly those lexemes of a text are left out that nothing looks at. -/
theorem Derives.partitions : Partitions (lexemeParts ts) ts := by
  obtain ⟨runs, -, hts, hparts, hforms⟩ := h.exists_runs
  rw [hparts]
  refine ⟨?_, fun p hp => ?_⟩
  · rw [List.flatMap_assoc]
    simp only [Definition.parts_lexemes]
    exact hts
  · obtain ⟨run, hrun, hp⟩ := List.mem_flatMap.1 hp
    exact (hforms run hrun).parts_inPlace p hp

/-- The lexemes that stay are those of the definitions without their directives. -/
theorem Derives.left : Derives ((lexemeParts ts).flatMap Part.left) (strippedDefinitions ds) := by
  obtain ⟨runs, rfl, -, hparts, hforms⟩ := h.exists_runs
  rw [hparts]
  clear hparts h
  induction runs with
  | nil => exact .nil
  | cons p runs ih =>
      obtain ⟨hp, hruns⟩ := List.forall_mem_cons.1 hforms
      rw [List.flatMap_cons, List.flatMap_append, List.map_cons, ← List.singleton_append,
        strippedDefinitions_append]
      exact hp.derives_left.append (ih hruns)

end

end Sdl

end SchemaGraph
