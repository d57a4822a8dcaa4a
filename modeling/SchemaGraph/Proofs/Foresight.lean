import SchemaGraph.Proofs.Lists
import SchemaGraph.Proofs.ReaderSteps
import SchemaGraph.Proofs.Remainder

/-!
# One lexeme ahead

A reader decides by the next lexeme alone, and never goes on if it cannot come to
a good end. Both are said at once, for a reader and the form that it reads:

* where it succeeds, it would have succeeded in the same way with anything else
  behind the next lexeme, and the form derives what it took;
* where it fails, it has found fault with the next lexeme, it would have found the
  same fault with anything else behind that, and what it took before can be gone
  on with in such a way that the form derives it.

These properties are kept by all ways to put readers together. Forms ask nothing
of what comes after them, so what a reader took can be gone on with by going on
with the part that failed, and then with any derivation of the parts that were
still to come. For this it has to be known of each form that it derives anything.

The bound on the number of lexemes is for the readers that call themselves.
-/

namespace SchemaGraph.Sdl

open Reader

variable {μ α β : Type} {n : Nat} {ts : List (Lexeme μ)}

/-- Whether something can be added to `pre` so that the form derives it. -/
def Extends (R : Form μ α) (pre : List (Lexeme μ)) : Prop :=
  ∃ us a, ∀ rest, R (pre ++ (us ++ rest)) a rest

/-- What the reader does with `ts` depends on no more than what it takes and the next lexeme. -/
structure ForeseesAt (R : Form μ α) (r : Reader μ α) (ts : List (Lexeme μ)) : Prop where
  ok : ∀ {a rest}, r ts = .ok (a, rest) → ∃ pre, ts = pre ++ rest
    ∧ (∀ vs, vs.head? = rest.head? → r (pre ++ vs) = .ok (a, vs)) ∧ ∀ vs, R (pre ++ vs) a vs
  error : ∀ {e}, r ts = .error e → ∃ pre rest, ts = pre ++ rest ∧ e.found = rest.head?
    ∧ (∀ vs, vs.head? = rest.head? → r (pre ++ vs) = .error e) ∧ Extends R pre

/-- The form derives something, and this is how the reader of it reads at most `n` lexemes. -/
structure Foresees (n : Nat) (R : Form μ α) (r : Reader μ α) : Prop where
  opens : Extends R []
  here : ∀ {ts}, ts.length ≤ n → ForeseesAt R r ts

/-- What is still to be derived after `a` has been, for all of it to be derived by `T`. -/
abbrev Residual (R : Form μ α) (a : α) (T : Form μ β) : Form μ β :=
  fun mid b rest => ∀ ts, R ts a mid → T ts b rest

theorem peek_congr {us vs : List (Lexeme μ)} (h : us.head? = vs.head?) : peek us = peek vs :=
  congrArg (Option.map Lexeme.token) h

theorem atEndOr_congr {us vs : List (Lexeme μ)} (h : us.head? = vs.head?) (p : Punctuator) :
    atEndOr p us = atEndOr p vs := by
  rw [Bool.eq_iff_iff, atEndOr_iff, atEndOr_iff, peek_congr h]

theorem notAt_congr {us vs : List (Lexeme μ)} (h : us.head? = vs.head?) (p : Punctuator) :
    notAt p us = notAt p vs := by
  rw [Bool.eq_iff_iff, notAt_iff, notAt_iff, peek_congr h]

/-! ## One step at one place

Readers in a row are asked about different lexemes: the second about those that the first
has left, and what it is to derive depends on what the first has read (`Residual`). So
`ForeseesAt` is about one reader at one place. If the second one fails, what both took is
gone on with as the second can be. If the first one fails, it is brought to an end, and
gone on with by what the second may start with; so the form of the second has to derive
something whatever the first has read. -/

section

variable {R : Form μ α} {r : Reader μ α}

theorem ForeseesAt.agrees {r' : Reader μ α} (h : ∀ vs, vs.head? = ts.head? → r vs = r' vs)
    (hr : ForeseesAt R r' ts) : ForeseesAt R r ts := by
  refine ⟨fun {a rest} hok => ?_, fun {e} herror => ?_⟩
  · rw [h ts rfl] at hok
    obtain ⟨pre, rfl, hsame, hR⟩ := hr.ok hok
    refine ⟨pre, rfl, fun vs hvs => ?_, hR⟩
    rw [h _ (head?_append_congr hvs), hsame vs hvs]
  · rw [h ts rfl] at herror
    obtain ⟨pre, rest, rfl, hfound, hsame, hR⟩ := hr.error herror
    refine ⟨pre, rest, rfl, hfound, fun vs hvs => ?_, hR⟩
    rw [h _ (head?_append_congr hvs), hsame vs hvs]

theorem ForeseesAt.stays {a : α} (h : ∀ vs, vs.head? = ts.head? → r vs = .ok (a, vs))
    (hR : ∀ vs, R vs a vs) : ForeseesAt R r ts := by
  refine ⟨fun {b rest} hok => ?_, fun {e} herror => ?_⟩
  · rw [h ts rfl] at hok
    cases hok
    exact ⟨[], rfl, h, hR⟩
  · rw [h ts rfl] at herror
    cases herror

theorem ForeseesAt.fails (expected : Expectation) (hR : Extends R [])
    (h : ∀ vs, vs.head? = ts.head? → r vs = .error ⟨expected, vs.head?⟩) :
    ForeseesAt R r ts := by
  refine ⟨fun {b rest} hok => ?_, fun {e} herror => ?_⟩
  · rw [h ts rfl] at hok
    cases hok
  · rw [h ts rfl] at herror
    cases herror
    exact ⟨[], ts, rfl, rfl, fun vs hvs => hvs ▸ h vs hvs, hR⟩

/-- A reader that takes a lexeme and goes on as another one. -/
theorem ForeseesAt.skips {Q : Form μ α} {q : Reader μ α} {t : Lexeme μ}
    (h : ∀ vs, r (t :: vs) = q vs) (hQ : ∀ {vs a rest}, Q vs a rest → R (t :: vs) a rest)
    (hq : ForeseesAt Q q ts) : ForeseesAt R r (t :: ts) := by
  refine ⟨fun {a rest} hok => ?_, fun {e} herror => ?_⟩
  · rw [h] at hok
    obtain ⟨pre, rfl, hsame, hpre⟩ := hq.ok hok
    exact ⟨t :: pre, rfl, fun vs hvs => (h _).trans (hsame vs hvs), fun vs => hQ (hpre vs)⟩
  · rw [h] at herror
    obtain ⟨pre, rest, rfl, hfound, hsame, us, a, hpre⟩ := hq.error herror
    exact ⟨t :: pre, rest, rfl, hfound, fun vs hvs => (h _).trans (hsame vs hvs), us, a,
      fun vs => hQ (hpre vs)⟩

theorem ForeseesAt.takes {a : α} {t : Lexeme μ} (h : ∀ vs, r (t :: vs) = .ok (a, vs))
    (hR : ∀ vs, R (t :: vs) a vs) : ForeseesAt R r (t :: ts) := by
  refine .skips (Q := fun vs b rest => b = a ∧ vs = rest) (q := pure a) h ?_
    (.stays (fun _ _ => rfl) fun _ => ⟨rfl, rfl⟩)
  rintro vs _ _ ⟨rfl, rfl⟩
  exact hR vs

theorem ForeseesAt.fails_nil {expected : Expectation} (hR : Extends R [])
    (h : r [] = .error ⟨expected, none⟩) : ForeseesAt R r [] := by
  refine .fails expected hR fun vs hvs => ?_
  rw [List.head?_nil, List.head?_eq_none_iff] at hvs
  exact hvs ▸ h

theorem ForeseesAt.fails_cons {expected : Expectation} {t : Lexeme μ} (hR : Extends R [])
    (h : ∀ vs, r (t :: vs) = .error ⟨expected, some t⟩) : ForeseesAt R r (t :: ts) := by
  refine .fails expected hR fun vs hvs => ?_
  rw [List.head?_cons, List.head?_eq_some_iff] at hvs
  obtain ⟨vs, rfl⟩ := hvs
  exact h vs

/-- What `r` can be brought to an end with is gone on with by what `f` may start with. -/
theorem Extends.residual {T : Form μ β} {pre : List (Lexeme μ)} (h : Extends R pre)
    (hT : ∀ a, Extends (Residual R a T) []) : Extends T pre := by
  obtain ⟨us, a, hpre⟩ := h
  obtain ⟨us', b, hopens⟩ := hT a
  refine ⟨us ++ us', b, fun rest => ?_⟩
  rw [List.append_assoc]
  exact hopens rest _ (hpre (us' ++ rest))

theorem ForeseesAt.bind {T : Form μ β} {f : α → Reader μ β} (hr : ForeseesAt R r ts)
    (hf : ∀ {a mid}, r ts = .ok (a, mid) → ForeseesAt (Residual R a T) (f a) mid)
    (hT : ∀ a, Extends (Residual R a T) []) : ForeseesAt T (r >>= f) ts := by
  refine ⟨fun {b rest} hok => ?_, fun {e} herror => ?_⟩
  · obtain ⟨a, mid, ha, hb⟩ := bind_ok.1 hok
    obtain ⟨pre, rfl, hsame, hpre⟩ := hr.ok ha
    obtain ⟨pre', rfl, hsame', hpre'⟩ := (hf ha).ok hb
    refine ⟨pre ++ pre', (List.append_assoc ..).symm, fun vs hvs => ?_, fun vs => ?_⟩
    · rw [List.append_assoc]
      exact bind_ok.2 ⟨a, _, hsame _ (head?_append_congr hvs), hsame' vs hvs⟩
    · rw [List.append_assoc]
      exact hpre' vs _ (hpre _)
  · rcases bind_error.1 herror with ha | ⟨a, mid, ha, hb⟩
    · obtain ⟨pre, rest, rfl, hfound, hsame, hpre⟩ := hr.error ha
      exact ⟨pre, rest, rfl, hfound, fun vs hvs => bind_error.2 (.inl (hsame vs hvs)),
        hpre.residual hT⟩
    · obtain ⟨pre, rfl, hsame, hpre⟩ := hr.ok ha
      obtain ⟨pre', rest, rfl, hfound, hsame', us, b, hpre'⟩ := (hf ha).error hb
      refine ⟨pre ++ pre', rest, (List.append_assoc ..).symm, hfound, fun vs hvs => ?_, us, b,
        fun vs => ?_⟩
      · rw [List.append_assoc]
        exact bind_error.2 (.inr ⟨a, _, hsame _ (head?_append_congr hvs), hsame' vs hvs⟩)
      · rw [List.append_assoc]
        exact hpre' vs _ (hpre _)

theorem ForeseesAt.map {T : Form μ β} {f : α → β} (hr : ForeseesAt R r ts)
    (h : ∀ {ts a rest}, R ts a rest → T ts (f a) rest) : ForeseesAt T (f <$> r) ts :=
  hr.bind (fun _ => .stays (fun _ _ => rfl) fun _ _ ha => h ha)
    fun a => ⟨[], f a, fun _ _ ha => h ha⟩

theorem Foresees.pure {a : α} (h : ∀ ts, R ts a ts) : Foresees n R (pure a) :=
  ⟨⟨[], a, h⟩, fun _ => .stays (fun _ _ => rfl) h⟩

theorem Foresees.fail {expected : Expectation} (h : Extends R []) :
    Foresees n R (fail expected) := ⟨h, fun _ => .fails expected h fun _ _ => rfl⟩

theorem Foresees.bind {T : Form μ β} {f : α → Reader μ β} (hr : Foresees n R r)
    (hf : ∀ a, Foresees n (Residual R a T) (f a)) : Foresees n T (r >>= f) := by
  refine ⟨hr.opens.residual fun a => (hf a).opens, fun {ts} hts => ?_⟩
  refine (hr.here hts).bind (fun {a mid} ha => (hf a).here ?_) fun a => (hf a).opens
  obtain ⟨pre, rfl, -⟩ := (hr.here hts).ok ha
  exact Nat.le_trans (by simp) hts

theorem Foresees.map {T : Form μ β} {f : α → β} (hr : Foresees n R r)
    (h : ∀ {ts a rest}, R ts a rest → T ts (f a) rest) : Foresees n T (f <$> r) :=
  hr.bind fun _ => .pure fun _ _ ha => h ha

theorem Foresees.mono {T : Form μ α} (hr : Foresees n R r)
    (h : ∀ {ts a rest}, R ts a rest → T ts a rest) : Foresees n T r := by
  have hmap : Foresees n T (id <$> r) := hr.map h
  rwa [id_map] at hmap

/-- A reader that is chosen by the next lexeme. -/
theorem Foresees.get_bind {f : List (Lexeme μ) → Reader μ α}
    (hf : ∀ us vs, us.head? = vs.head? → f us = f vs) (h : ∀ us, Foresees n R (f us)) :
    Foresees n R (get >>= f) :=
  ⟨(h []).opens, fun {ts} hts =>
    .agrees (fun vs hvs => congrFun (hf vs ts hvs) vs) ((h ts).here hts)⟩

/-- A repetition that is not at its end is one item and the repetition. -/
theorem many_step {done : List (Lexeme μ) → Bool} (hitem : r.Consumes) (hdone : done [] = true)
    (h : ¬ done ts = true) : many done r ts = (do return (← r) :: (← many done r)) ts := by
  rw [many_eq hitem hdone, if_neg h]
  show _ = (r ts >>= fun p => many done r p.2 >>= fun q => Except.ok (p.1 :: q.1, q.2))
  cases r ts with
  | error e => rfl
  | ok p =>
      obtain ⟨a, mid⟩ := p
      dsimp only [bind, Except.bind]
      cases many done r mid <;> rfl

theorem Foresees.many {done : List (Lexeme μ) → Bool} (hr : Foresees n R r) (hitem : r.Consumes)
    (hdone : done [] = true) (hhead : ∀ us vs, us.head? = vs.head? → done us = done vs) :
    Foresees n (Star R) (many done r) := by
  refine ⟨⟨[], [], fun rest => .nil⟩, fun {ts} hts => ?_⟩
  generalize hk : ts.length = k
  induction k using Nat.strongRecOn generalizing ts with
  | ind k ih =>
      subst hk
      by_cases hd : done ts = true
      · refine .stays (a := []) (fun vs hvs => ?_) fun _ => .nil
        rw [many_eq hitem hdone, if_pos ((hhead vs ts hvs).trans hd)]
      · have hagrees : ∀ vs, vs.head? = ts.head? →
            Reader.many done r vs = (do return (← r) :: (← Reader.many done r)) vs :=
          fun vs hvs => many_step hitem hdone (by rwa [hhead vs ts hvs])
        refine .agrees hagrees ((hr.here hts).bind (fun {a mid} ha => ?_) fun a => ?_)
        · have hlt := hitem ha
          exact (ih _ hlt (by omega) rfl).map fun has _ ha => .cons ha has
        · exact ⟨[], [a], fun rest _ ha => .cons ha .nil⟩

/-- A reader that fails at the end of the text is told by what it does with a next lexeme. -/
theorem Foresees.of_cons (hR : Extends R []) (hnil : ∃ expected, r [] = .error ⟨expected, none⟩)
    (hcons : ∀ t us, us.length < n → ForeseesAt R r (t :: us)) : Foresees n R r := by
  refine ⟨hR, fun {ts} hts => ?_⟩
  cases ts with
  | nil =>
      obtain ⟨expected, h⟩ := hnil
      exact .fails_nil hR h
  | cons t us => exact hcons t us hts

/-- A reader that takes one lexeme, or fails at it. -/
theorem Foresees.token (hR : Extends R []) (hnil : ∃ expected, r [] = .error ⟨expected, none⟩)
    (hcons : ∀ t, (∃ a, (∀ vs, r (t :: vs) = .ok (a, vs)) ∧ ∀ vs, R (t :: vs) a vs)
      ∨ ∃ expected, ∀ vs, r (t :: vs) = .error ⟨expected, some t⟩) : Foresees n R r := by
  refine .of_cons hR hnil fun t us _ => ?_
  rcases hcons t with ⟨a, h, ha⟩ | ⟨expected, h⟩
  · exact .takes h ha
  · exact .fails_cons hR h

end

/-- This token. -/
inductive TokenForm (t : Token) : Form μ Unit
  | intro {m us} : TokenForm t (⟨t, m⟩ :: us) () us

/-- This token, or nothing. -/
inductive OptionalForm (t : Token) : Form μ Bool
  | absent {us} : OptionalForm t us false us
  | present {m us} : OptionalForm t (⟨t, m⟩ :: us) true us

/-- A name and its mark. -/
inductive MarkedForm : Form μ (String × μ)
  | intro {text mark us} : MarkedForm (⟨.name text, mark⟩ :: us) (text, mark) us

/-- A reader that takes a token if it is next, and says whether it was. -/
theorem Foresees.token? {t : Token} {r : Reader μ Bool}
    (h : ∀ {us b rest}, r us = .ok (b, rest) ↔
      b = true ∧ (∃ m, us = ⟨t, m⟩ :: rest) ∨ b = false ∧ peek us ≠ some t ∧ us = rest) :
    Foresees n (OptionalForm t) r := by
  refine ⟨⟨[], false, fun _ => .absent⟩, fun {ts} _ => ?_⟩
  by_cases hnext : ∃ m us, ts = ⟨t, m⟩ :: us
  · obtain ⟨m, us, rfl⟩ := hnext
    exact .takes (fun _ => h.2 (.inl ⟨rfl, m, rfl⟩)) fun _ => .present
  · refine .stays (fun vs hvs => h.2 (.inr ⟨rfl, ?_, rfl⟩)) fun _ => .absent
    rw [peek_congr hvs]
    cases ts with
    | nil => simp
    | cons l ts =>
        rintro ⟨rfl⟩
        exact hnext ⟨l.mark, ts, rfl⟩

/-- A choice by whether a token is next, which is taken then. -/
theorem Foresees.ifNext {t : Token} {R : Form μ α} {next : Reader μ Bool} {r s : Reader μ α}
    (hnext : Foresees n (OptionalForm t) next)
    (hr : Foresees n (fun us a rest => ∀ m, R (⟨t, m⟩ :: us) a rest) r) (hs : Foresees n R s) :
    Foresees n R (do if ← next then r else s) := by
  refine hnext.bind fun b => ?_
  cases b with
  | true =>
      refine hr.mono fun ha us hpresent => ?_
      cases hpresent
      exact ha _
  | false =>
      refine hs.mono fun ha us habsent => ?_
      cases habsent
      exact ha

theorem punct?_foresees (p : Punctuator) :
    Foresees n (OptionalForm (.punct p)) (punct? p : Reader μ Bool) := .token? punct?_ok

theorem keyword?_foresees (word : String) :
    Foresees n (OptionalForm (.name word)) (keyword? word : Reader μ Bool) := .token? keyword?_ok

theorem description?_foresees : Foresees n DescriptionForm (description? : Reader μ _) := by
  refine ⟨⟨[], none, fun _ => .absent⟩, fun {ts} _ => ?_⟩
  by_cases h : ∃ text, peek ts = some (.string text)
  · obtain ⟨text, h⟩ := h
    cases ts with
    | nil => cases h
    | cons t ts =>
        obtain ⟨token, m⟩ := t
        cases h
        exact .takes (fun _ => rfl) fun _ => .present
  · refine .stays (fun vs hvs => description?_ok.2 (.inr ⟨rfl, ?_, rfl⟩)) fun _ => .absent
    rw [peek_congr hvs]
    exact fun text htext => h ⟨text, htext⟩

theorem consumes_of_sound {R : Form μ α} {item : Reader μ α}
    (hitem : ∀ {us a mid}, item us = .ok (a, mid) → R us a mid)
    (hR : ∀ {us a mid}, R us a mid → Shorter mid us) : item.Consumes :=
  fun _ _ _ h => (hR (hitem h)).2

variable [Inhabited μ]

theorem punct_foresees (p : Punctuator) (expected : Expectation) :
    Foresees n (TokenForm (.punct p)) (punct p expected : Reader μ Unit) := by
  refine .token ⟨[⟨.punct p, default⟩], (), fun _ => .intro⟩ ⟨expected, rfl⟩ fun ⟨token, m⟩ => ?_
  cases token with
  | punct q =>
      by_cases h : q = p
      · exact .inl ⟨(), fun vs => if_pos h, fun vs => h ▸ .intro⟩
      · exact .inr ⟨expected, fun vs => if_neg h⟩
  | _ => exact .inr ⟨expected, fun _ => rfl⟩

theorem keyword_foresees (word : String) (expected : Expectation) :
    Foresees n (TokenForm (.name word)) (keyword word expected : Reader μ Unit) := by
  refine .token ⟨[⟨.name word, default⟩], (), fun _ => .intro⟩ ⟨expected, rfl⟩ fun ⟨token, m⟩ => ?_
  cases token with
  | name text =>
      by_cases h : text = word
      · exact .inl ⟨(), fun vs => if_pos h, fun vs => h ▸ .intro⟩
      · exact .inr ⟨expected, fun vs => if_neg h⟩
  | _ => exact .inr ⟨expected, fun _ => rfl⟩

theorem markedName_foresees (expected : Expectation) :
    Foresees n MarkedForm (markedName expected : Reader μ _) := by
  refine .token ⟨[⟨.name "a", default⟩], ("a", default), fun _ => .intro⟩ ⟨expected, rfl⟩
    fun ⟨token, m⟩ => ?_
  cases token with
  | name text => exact .inl ⟨(text, m), fun _ => rfl, fun _ => .intro⟩
  | _ => exact .inr ⟨expected, fun _ => rfl⟩

theorem name_foresees (expected : Expectation) :
    Foresees n NameForm (name expected : Reader μ _) := by
  refine (markedName_foresees expected).map fun h => ?_
  cases h
  exact .intro

section

variable {R : Form μ α} {item : Reader μ α}

theorem Foresees.closed (close : Punctuator) (expected : Expectation) (hr : Foresees n R item)
    (hitem : item.Consumes) :
    Foresees n (fun ts as rest => ∃ m, Star R ts as (⟨.punct close, m⟩ :: rest))
      (closed close expected item) := by
  have hmany := hr.many hitem rfl fun _ _ h => atEndOr_congr h close
  refine hmany.bind fun as => (punct_foresees close expected).bind fun _ => ?_
  refine .pure fun ts us hclose vs has => ?_
  cases hclose
  exact ⟨_, has⟩

theorem Foresees.enclosed? (opening close : Punctuator) (expected : Expectation)
    (hr : Foresees n R item) (hitem : item.Consumes) :
    Foresees n (EnclosedForm opening close R) (enclosed? opening close expected item) := by
  exact (punct?_foresees opening).ifNext ((hr.closed close expected hitem).mono
    fun ⟨_, has⟩ _ => .present has) (.pure fun _ => .absent)

theorem Foresees.separated (p : Punctuator) (hr : Foresees n R item)
    (hR : ∀ {us a mid}, R us a mid → After mid us)
    (hitem : ∀ {us a mid}, item us = .ok (a, mid) → R us a mid) :
    Foresees n (SeparatedForm p R) (separated p item) := by
  have hpreceded : Foresees n (PrecededForm p R) (do punct p (.punct p); item) := by
    refine (punct_foresees p (.punct p)).bind fun _ => hr.mono fun ha us hp => ?_
    cases hp
    exact .intro ha
  have hconsumes : Consumes (do punct p (.punct p); item) := by
    intro us a mid h
    simp only [bind_ok, punct_ok] at h
    obtain ⟨-, us', ⟨m, rfl⟩, h⟩ := h
    have hle := (hR (hitem h)).length_le
    simp only [List.length_cons]
    omega
  have hmany := hpreceded.many hconsumes rfl fun _ _ h => notAt_congr h p
  refine (punct?_foresees p).bind fun b => hr.bind fun a => hmany.bind fun as => ?_
  refine .pure fun ts us has vs ha ws hled => ?_
  cases hled with
  | absent => exact .bare ha has
  | present => exact .led (.intro ha) has

theorem Foresees.labelled (what : String) (hr : Foresees n R item) :
    Foresees n (LabelledForm R) (labelled what item) := by
  refine (name_foresees (.name what)).bind fun label =>
    (punct_foresees .colon (.punct .colon)).bind fun _ => hr.bind fun a => ?_
  refine .pure fun ts us ha vs hcolon ws hlabel => ?_
  cases hlabel
  cases hcolon
  exact .intro ha

end

end SchemaGraph.Sdl
