import Mathlib.Data.List.Induction
import Mathlib.Data.List.Perm.Subperm
import SchemaGraph.Distinct

/-!
# Lists

What is said here of lists says nothing of schemas. Most of it is about lists whose entries
have keys. As long as no key is repeated, a list is as good as a map: to look for a key, to
filter by it and to be told of an entry that has it are the same, whatever the order of the
entries is.

The rest is about leaving out repetitions, where the first of several equal entries is the
one that stays, and about entries by their places.
-/

namespace SchemaGraph

variable {α β κ : Type}

section

variable [BEq κ] [LawfulBEq κ] {k : α → κ} {as bs : List α} {a : α} {key : κ}

/-- Where keys are not repeated, nothing else has the key of what is there. -/
theorem filter_key (h : (as.map k).Nodup) (ha : a ∈ as) : as.filter (k · == k a) = [a] := by
  induction as with
  | nil => cases ha
  | cons b as ih =>
      rw [List.map_cons, List.nodup_cons] at h
      rcases List.mem_cons.1 ha with rfl | ha
      · have hnone : as.filter (k · == k a) = [] := by
          rw [List.filter_eq_nil_iff]
          intro b hb heq
          exact h.1 (beq_iff_eq.1 heq ▸ List.mem_map_of_mem hb)
        rw [List.filter_cons_of_pos (by simp), hnone]
      · have hne : k b ≠ k a := fun he => h.1 (he ▸ List.mem_map_of_mem ha)
        rw [List.filter_cons_of_neg (by simpa using hne)]
        exact ih h.2 ha

theorem find?_key (h : (as.map k).Nodup) (ha : a ∈ as) : as.find? (k · == k a) = some a := by
  rw [← List.head?_filter, filter_key h ha, List.head?_singleton]

theorem find?_key_iff (h : (as.map k).Nodup) :
    as.find? (k · == key) = some a ↔ a ∈ as ∧ k a = key := by
  constructor
  · intro ha
    exact ⟨List.mem_of_find?_eq_some ha, by simpa using List.find?_some ha⟩
  · rintro ⟨ha, rfl⟩
    exact find?_key h ha

theorem find?_key_perm (hperm : as.Perm bs) (h : (bs.map k).Nodup) (key : κ) :
    as.find? (k · == key) = bs.find? (k · == key) := by
  have has : (as.map k).Nodup := (hperm.map k).nodup_iff.2 h
  refine Option.ext fun a => ?_
  rw [find?_key_iff has, find?_key_iff h, hperm.mem_iff]

/-- Of a list whose keys are distinct, the entries of a part are told by their keys. -/
theorem filter_keys (h : as.Sublist bs) (hkeys : (bs.map k).Nodup) :
    bs.filter (fun b => (as.map k).contains (k b)) = as := by
  have hall : as.filter (fun b => (as.map k).contains (k b)) = as := by
    rw [List.filter_eq_self]
    exact fun a ha => List.contains_iff_mem.2 (List.mem_map_of_mem ha)
  have hpart := h.filter fun b => (as.map k).contains (k b)
  rw [hall] at hpart
  have hsubset : (bs.filter fun b => (as.map k).contains (k b)).map k ⊆ as.map k := by
    intro key hkey
    obtain ⟨b, hb, rfl⟩ := List.mem_map.1 hkey
    exact List.contains_iff_mem.1 (List.mem_filter.1 hb).2
  have hle := ((hkeys.sublist (List.filter_sublist.map k)).subperm hsubset).length_le
  rw [List.length_map, List.length_map] at hle
  exact (hpart.eq_of_length_le hle).symm

theorem mem_of_lookup {entries : List (κ × α)} (h : entries.lookup key = some a) :
    (key, a) ∈ entries := by
  obtain ⟨front, back, rfl, -⟩ := List.lookup_eq_some_iff.1 h
  simp

/-- Where keys are not repeated, what has a key is what is looked up under it. -/
theorem lookup_of_mem {entries : List (κ × α)} (h : (entries.map Prod.fst).Nodup)
    (ha : (key, a) ∈ entries) : entries.lookup key = some a := by
  obtain ⟨front, back, rfl⟩ := List.append_of_mem ha
  rw [List.map_append, List.map_cons, List.nodup_append] at h
  refine List.lookup_eq_some_iff.2 ⟨front, back, rfl, fun p hp => ?_⟩
  rw [bne_iff_ne]
  rintro rfl
  exact h.2.2 p.1 (List.mem_map_of_mem hp) p.1 List.mem_cons_self rfl

/-- Of keys that are repeated any number of times each, every one is kept that is there at all. -/
theorem eraseDups_flatMap_key (h : (as.map k).Nodup) (times : α → List β) :
    (as.flatMap fun a => (times a).map fun _ => k a).eraseDups
      = (as.filter fun a => !(times a).isEmpty).map k := by
  induction as with
  | nil => rfl
  | cons a as ih =>
      rw [List.map_cons, List.nodup_cons] at h
      rw [List.flatMap_cons]
      cases htimes : times a with
      | nil => simpa [htimes] using ih h.2
      | cons b bs =>
          have hrest : ∀ key ∈ as.flatMap (fun a => (times a).map fun _ => k a), key ≠ k a := by
            rintro _ hkey rfl
            obtain ⟨a', ha', hmem⟩ := List.mem_flatMap.1 hkey
            obtain ⟨-, -, heq⟩ := List.mem_map.1 hmem
            exact h.1 (heq ▸ List.mem_map_of_mem ha')
          have hfilter : ((bs.map fun _ => k a)
              ++ as.flatMap fun a => (times a).map fun _ => k a).filter (fun key => !key == k a)
              = as.flatMap fun a => (times a).map fun _ => k a := by
            rw [List.filter_append, List.filter_eq_nil_iff.2 (by simp), List.nil_append]
            exact List.filter_eq_self.2 fun key hkey => by simpa using hrest key hkey
          rw [List.filter_cons_of_pos (by simp [htimes]), List.map_cons, List.map_cons,
            List.cons_append, List.eraseDups_cons, hfilter, ih h.2]

end

theorem addNew_sublist [BEq α] (xs ys : List α) : (addNew xs ys).Sublist (xs ++ ys) := by
  induction ys generalizing xs with
  | nil => simp [addNew]
  | cons y ys ih =>
      rw [addNew]
      split
      · exact (ih xs).trans ((List.sublist_cons_self y ys).append_left xs)
      · simpa using ih (xs ++ [y])

section

variable [BEq α] [LawfulBEq α]

theorem nodup_eraseDups (xs : List α) : xs.eraseDups.Nodup := by
  rw [← distinct_eq_eraseDups]
  exact nodup_distinct xs

theorem eraseDups_sublist (xs : List α) : xs.eraseDups.Sublist xs := by
  rw [← distinct_eq_eraseDups]
  exact addNew_sublist [] xs

theorem eraseDups_perm {xs ys : List α} (h : ∀ x, x ∈ xs ↔ x ∈ ys) :
    xs.eraseDups.Perm ys.eraseDups := by
  rw [List.perm_ext_iff_of_nodup (nodup_eraseDups xs) (nodup_eraseDups ys)]
  simpa [List.mem_eraseDups] using h

theorem eraseDups_append_sublist (xs ys : List α) :
    xs.eraseDups.Sublist (xs ++ ys).eraseDups := by
  rw [List.eraseDups_append]
  exact List.sublist_append_left _ _

end

theorem mapM_eq_some {f : α → Option β} {h : α → β} {as : List α}
    (hf : ∀ a ∈ as, f a = some (h a)) : as.mapM f = some (as.map h) := by
  induction as with
  | nil => rfl
  | cons a as ih =>
      rw [List.mapM_cons, hf a List.mem_cons_self,
        ih fun b hb => hf b (List.mem_cons_of_mem _ hb)]
      rfl

/-- Lists that are related one by one to what a function gives are what it gives. -/
theorem forall₂_iff_map {R : α → β → Prop} {f : α → β} (h : ∀ a b, R a b ↔ b = f a)
    {xs : List α} {ys : List β} : List.Forall₂ R xs ys ↔ ys = xs.map f := by
  have hR : R = fun a b => f a = b := by
    funext a b
    exact propext ((h a b).trans eq_comm)
  rw [hR, ← List.forall₂_map_left_iff, List.forall₂_eq_eq_eq, eq_comm]

theorem head?_append_congr {pre us vs : List α} (h : us.head? = vs.head?) :
    (pre ++ us).head? = (pre ++ vs).head? := by
  rw [List.head?_append, List.head?_append, h]

theorem getLast?_ne_of_cons {a b : α} {as : List α} (h : (a :: as).getLast? ≠ some b) :
    as.getLast? ≠ some b :=
  fun has => h (by rw [List.getLast?_cons, has]; rfl)

theorem length_le_takeWhile {q : α → Bool} {p as : List α} (hp : ∀ a ∈ p, q a = true)
    (has : p <+: as) : p.length ≤ (as.takeWhile q).length := by
  obtain ⟨tail, rfl⟩ := has
  rw [List.takeWhile_append_of_pos hp, List.length_append]
  exact Nat.le_add_right _ _

theorem getElem?_concat_iff {as : List α} {a b : α} {i : Nat} :
    (as ++ [a])[i]? = some b ↔ as[i]? = some b ∨ i = as.length ∧ a = b := by
  rw [List.getElem?_append]
  split
  · next hi => simp only [Nat.ne_of_lt hi, false_and, or_false]
  · next hi =>
      rw [List.getElem?_eq_none (Nat.not_lt.1 hi), List.getElem?_singleton]
      simp only [reduceCtorEq, false_or]
      split
      · next hzero => simp [show i = as.length by omega]
      · next hzero => simp [show i ≠ as.length by omega]

/-- Entries keep their numbers when those in front of them are left out. -/
theorem zipIdx_drop (as : List α) (first n : Nat) :
    (as.drop n).zipIdx (first + n) = (as.zipIdx first).drop n := by
  induction n generalizing as first with
  | zero => rfl
  | succ n ih =>
      cases as with
      | nil => rfl
      | cons a as =>
          rw [List.drop_succ_cons, List.zipIdx_cons, List.drop_succ_cons, ← ih,
            Nat.add_right_comm, Nat.add_assoc]

end SchemaGraph
