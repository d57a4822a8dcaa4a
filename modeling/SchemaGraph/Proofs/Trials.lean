import SchemaGraph.Schema.Fault

/-!
# Trials

A trial is a computation that may be refused, and that may also break off with no outcome
at all. `Gives` says of a trial that it does not break off, and what holds of its result
unless it is refused. `Mirrors` compares it with a computation that cannot break off: it is
refused with the same error, or ends with something that is related to the other's result.

Both are handed on from step to step by `bind`, so that what is known of single steps is
known of all that is put together from them.
-/

namespace SchemaGraph

/-- What may be refused, and may also have no outcome at all. -/
abbrev Trial := ExceptT SchemaError Option

namespace Trial

variable {α β γ δ σ τ : Type}

/-- A trial whose outcome is known. -/
def of (x : Except SchemaError α) : Trial α := ExceptT.mk (some x)

/-- Whether a trial has an outcome, and one with this property unless it is refused. -/
def Gives (P : α → Prop) (t : Trial α) : Prop :=
  ∃ outcome, t.run = some outcome ∧ ∀ a, outcome = .ok a → P a

/-- Whether a trial is refused as an outcome is, or ends with what is related to the result. -/
def Mirrors (R : α → β → Prop) (t : Trial α) : Except SchemaError β → Prop
  | .error e => t = of (.error e)
  | .ok b => ∃ a, t = of (.ok a) ∧ R a b

variable {P : α → Prop} {t : Trial α}

theorem Gives.pure {a : α} (h : P a) : Gives P (Pure.pure a) :=
  ⟨_, rfl, fun _ ha => Except.ok.inj ha ▸ h⟩

theorem Gives.throw (e : SchemaError) : Gives P (MonadExcept.throw e) :=
  ⟨_, rfl, fun _ ha => nomatch ha⟩

theorem Gives.bind {Q : β → Prop} {f : α → Trial β} (h : Gives P t)
    (hnext : ∀ a, P a → Gives Q (f a)) : Gives Q (t >>= f) := by
  obtain ⟨outcome, hrun, hP⟩ := h
  have ht : t = of outcome := hrun
  rw [ht]
  cases outcome with
  | error e => exact .throw e
  | ok a => exact hnext a (hP a rfl)

theorem Gives.mono {Q : α → Prop} (h : Gives P t) (hQ : ∀ a, P a → Q a) : Gives Q t := by
  rw [← bind_pure t]
  exact h.bind fun a ha => .pure (hQ a ha)

theorem Gives.map {Q : β → Prop} {f : α → β} (h : Gives P t) (hQ : ∀ a, P a → Q (f a)) :
    Gives Q (f <$> t) := by
  rw [map_eq_pure_bind]
  exact h.bind fun a ha => .pure (hQ a ha)

theorem Gives.foldlM {f : α → σ → Trial α} (hstep : ∀ a s, P a → Gives P (f a s))
    (steps : List σ) {a : α} (h : P a) : Gives P (steps.foldlM f a) := by
  induction steps generalizing a with
  | nil => exact .pure h
  | cons s steps ih =>
      rw [List.foldlM_cons]
      exact (hstep a s h).bind fun _ => ih

variable {R : α → β → Prop} {S : γ → δ → Prop} {x : Except SchemaError β}

theorem of_ok_bind (a : α) (f : α → Trial γ) : of (.ok a) >>= f = f a := rfl

theorem Mirrors.pure {a : α} {b : β} (h : R a b) : Mirrors R (Pure.pure a) (.ok b) :=
  ⟨a, rfl, h⟩

theorem Mirrors.throw (e : SchemaError) : Mirrors R (MonadExcept.throw e) (.error e) := rfl

theorem Mirrors.of (x : Except SchemaError α) : Mirrors Eq (Trial.of x) x := by
  cases x with
  | error e => rfl
  | ok a => exact .pure rfl

theorem Mirrors.bind {f : α → Trial γ} {g : β → Except SchemaError δ} (h : Mirrors R t x)
    (hnext : ∀ a b, R a b → Mirrors S (f a) (g b)) : Mirrors S (t >>= f) (x >>= g) := by
  cases x with
  | error e =>
      cases h
      rfl
  | ok b =>
      obtain ⟨a, rfl, hab⟩ := h
      exact hnext a b hab

theorem Mirrors.mono {R' : α → β → Prop} (h : Mirrors R t x) (hR : ∀ a b, R a b → R' a b) :
    Mirrors R' t x := by
  have hbind := h.bind (f := Pure.pure) (g := Pure.pure) fun a b hab => .pure (hR a b hab)
  rwa [bind_pure, bind_pure] at hbind

theorem Mirrors.map_left {S : γ → β → Prop} {f : α → γ} (h : Mirrors R t x)
    (hnext : ∀ a b, R a b → S (f a) b) : Mirrors S (f <$> t) x := by
  rw [map_eq_pure_bind, ← bind_pure x]
  exact h.bind fun a b hab => .pure (hnext a b hab)

theorem Mirrors.map {f : α → γ} {g : β → δ} (h : Mirrors R t x)
    (hnext : ∀ a b, R a b → S (f a) (g b)) : Mirrors S (f <$> t) (x.map g) := by
  have hmap : x.map g = x >>= fun b => Pure.pure (g b) := by cases x <;> rfl
  rw [map_eq_pure_bind, hmap]
  exact h.bind fun a b hab => .pure (hnext a b hab)

theorem Mirrors.gives (h : Mirrors R t x) (hP : ∀ a b, R a b → P a) : Gives P t := by
  cases x with
  | error e =>
      cases h
      exact .throw e
  | ok b =>
      obtain ⟨a, rfl, hab⟩ := h
      exact .pure (hP a b hab)

/-- A loop that gathers what its steps find goes on up to the first step that is refused. -/
theorem foldlM_gather {fault? : σ → Option SchemaError} {find : σ → List τ}
    {f : List τ → σ → Trial (List τ)}
    (hstep : ∀ found s, f found s = match fault? s with
      | some e => MonadExcept.throw e
      | none => Pure.pure (found ++ find s))
    (steps : List σ) (found : List τ) :
    steps.foldlM f found = match steps.findSome? fault? with
      | some e => MonadExcept.throw e
      | none => Pure.pure (found ++ steps.flatMap find) := by
  induction steps generalizing found with
  | nil => simp
  | cons s steps ih =>
      rw [List.foldlM_cons, hstep, List.findSome?_cons]
      cases fault? s with
      | some e => rfl
      | none => simp only [pure_bind, ih, List.flatMap_cons, List.append_assoc]

end Trial

end SchemaGraph
