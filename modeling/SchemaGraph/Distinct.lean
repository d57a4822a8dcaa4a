/-!
# Lists without repetitions

Lists that grow by what is not in them yet keep their order and hold each entry
once. `firstDuplicate` finds where a list of named entries repeats a name; it
finds nothing exactly when the names are distinct.
-/

namespace SchemaGraph

variable {α : Type} [BEq α]

/-- Adds the entries that are not there yet, in order. -/
def addNew (xs : List α) : List α → List α
  | [] => xs
  | y :: ys => addNew (if xs.contains y then xs else xs ++ [y]) ys

/-- The entries of a list, each where it first stands. -/
def distinct (xs : List α) : List α := addNew [] xs

/-- The first entry whose name is among `seen` or that of an entry before it. -/
def firstDuplicate {β : Type} (seen : List α) : List (α × β) → Option (α × β)
  | [] => none
  | entry :: rest =>
    if seen.contains entry.1 then some entry else firstDuplicate (entry.1 :: seen) rest

variable [LawfulBEq α]

@[simp] theorem mem_addNew {xs ys : List α} {x : α} :
    x ∈ addNew xs ys ↔ x ∈ xs ∨ x ∈ ys := by
  induction ys generalizing xs with
  | nil => simp [addNew]
  | cons y ys ih =>
    rw [addNew, ih, List.mem_cons]
    by_cases hy : y ∈ xs
    · grind
    · grind

theorem nodup_addNew {xs : List α} (h : xs.Nodup) (ys : List α) : (addNew xs ys).Nodup := by
  induction ys generalizing xs with
  | nil => exact h
  | cons y ys ih =>
    rw [addNew]
    apply ih
    split
    · exact h
    · grind [List.nodup_append]

@[simp] theorem mem_distinct {xs : List α} {x : α} : x ∈ distinct xs ↔ x ∈ xs := by
  simp [distinct]

theorem nodup_distinct (xs : List α) : (distinct xs).Nodup :=
  nodup_addNew List.nodup_nil xs

theorem eraseDups_concat {xs : List α} {y : α} :
    (xs ++ [y]).eraseDups = if y ∈ xs then xs.eraseDups else xs.eraseDups ++ [y] := by
  rw [List.eraseDups_append]
  split <;> rename_i hy <;> simp [List.removeAll, hy, List.eraseDups_cons]

/-- Adding to a list without repetitions goes on as if it had been begun with the repetitions. -/
theorem addNew_eraseDups (xs ys : List α) : addNew xs.eraseDups ys = (xs ++ ys).eraseDups := by
  induction ys generalizing xs with
  | nil => rw [addNew, List.append_nil]
  | cons y ys ih =>
    have hstep : (if xs.eraseDups.contains y then xs.eraseDups else xs.eraseDups ++ [y])
        = (xs ++ [y]).eraseDups := by
      rw [eraseDups_concat]
      simp [List.mem_eraseDups]
    rw [addNew, hstep, ih, List.append_assoc, List.singleton_append]

theorem distinct_eq_eraseDups (xs : List α) : distinct xs = xs.eraseDups :=
  addNew_eraseDups [] xs

/-- Where repetitions do not count, adding what is new is the same as adding all. -/
theorem eraseDups_addNew (xs ys : List α) : (addNew xs ys).eraseDups = (xs ++ ys).eraseDups := by
  induction ys generalizing xs with
  | nil => rw [addNew, List.append_nil]
  | cons y ys ih =>
    rw [addNew, ih]
    split
    · rename_i hy
      rw [← addNew_eraseDups, ← addNew_eraseDups, addNew,
        if_pos (by simpa [List.mem_eraseDups] using hy)]
    · rw [List.append_assoc, List.singleton_append]

theorem addNew_of_nodup {xs ys : List α} (h : (xs ++ ys).Nodup) : addNew xs ys = xs ++ ys := by
  induction ys generalizing xs with
  | nil => rw [addNew, List.append_nil]
  | cons y ys ih =>
    have hy : y ∉ xs := fun hmem =>
      (List.nodup_append.1 h).2.2 y hmem y List.mem_cons_self rfl
    rw [addNew, if_neg (by simpa using hy), ih (by simpa using h), List.append_assoc,
      List.singleton_append]

theorem eraseDups_of_nodup {xs : List α} (h : xs.Nodup) : xs.eraseDups = xs := by
  rw [← distinct_eq_eraseDups]
  exact addNew_of_nodup h

theorem firstDuplicate_eq_none_iff {β : Type} {seen : List α} {entries : List (α × β)} :
    firstDuplicate seen entries = none ↔
      (entries.map Prod.fst).Nodup ∧ ∀ entry ∈ entries, entry.1 ∉ seen := by
  induction entries generalizing seen with
  | nil => simp [firstDuplicate]
  | cons entry rest ih =>
    rw [firstDuplicate]
    split
    · rename_i h
      simp only [reduceCtorEq, false_iff, not_and]
      intro _ all
      exact all entry List.mem_cons_self (by simpa using h)
    · rename_i h
      simp only [List.contains_eq_mem, decide_eq_true_eq] at h
      simp only [ih, List.map_cons, List.nodup_cons, List.mem_cons, not_or, List.mem_map,
        not_exists, not_and, forall_eq_or_imp]
      constructor
      · rintro ⟨hn, all⟩
        exact ⟨⟨fun e he => (all e he).1, hn⟩, h, fun e he => (all e he).2⟩
      · rintro ⟨⟨new, hn⟩, _, all⟩
        exact ⟨hn, fun e he => ⟨new e he, all e he⟩⟩

end SchemaGraph
