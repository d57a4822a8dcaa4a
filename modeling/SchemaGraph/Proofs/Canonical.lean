import Mathlib.Data.List.Nodup
import SchemaGraph.Proofs.Linking

/-!
# What a catalog does not see

A catalog lists interfaces and members of unions without repetitions, whatever
the schema does. So a schema may be compared with another one after repetitions
have been taken out of both, and it makes no difference if this is done before
the schema is sorted or after.

Sorting is canonical: of lists with the same entries there is only one that is
in order, as long as no two entries have one key. Names alone are their own keys,
so for them even that is not needed.
-/

namespace SchemaGraph

open Sdl

variable {μ α : Type}

theorem sortOn_nil (key : α → String) : sortOn key [] = [] := List.mergeSort_nil

theorem sortOn_pairwise (key : α → String) (as : List α) :
    (sortOn key as).Pairwise fun a b => key a ≤ key b := by
  have h := @List.pairwise_mergeSort _ (fun a b => decide (key a ≤ key b))
    (fun a b c hab hbc =>
      decide_eq_true (String.le_trans (of_decide_eq_true hab) (of_decide_eq_true hbc)))
    (fun a b => by simpa using String.le_total (key a) (key b)) as
  exact h.imp of_decide_eq_true

/-- A list in order is what sorting makes of any list with the same entries. -/
theorem sortOn_eq {key : α → String} {as bs : List α} (hperm : as.Perm bs)
    (hsorted : bs.Pairwise fun a b => key a ≤ key b)
    (hkey : ∀ a ∈ bs, ∀ b ∈ bs, key a = key b → a = b) : sortOn key as = bs := by
  have hsort := (sortOn_perm key as).trans hperm
  refine hsort.eq_of_pairwise (fun a b ha hb hab hba => ?_) (sortOn_pairwise key as) hsorted
  exact hkey a (hsort.mem_iff.1 ha) b hb (String.le_antisymm hab hba)

theorem sortOn_congr {key : α → String} {as bs : List α} (hperm : as.Perm bs)
    (hnodup : (bs.map key).Nodup) : sortOn key as = sortOn key bs := by
  have hmem : ∀ {a}, a ∈ sortOn key bs → a ∈ bs := (sortOn_perm key bs).mem_iff.1
  refine sortOn_eq (hperm.trans (sortOn_perm key bs).symm) (sortOn_pairwise key bs) ?_
  exact fun a ha b hb => List.inj_on_of_nodup_map hnodup (hmem ha) (hmem hb)

theorem sortNames_congr {names names' : List String} (h : names.Perm names') :
    sortNames names = sortNames names' :=
  sortOn_eq (h.trans (sortOn_perm id names').symm) (sortOn_pairwise id names')
    fun _ _ _ _ h => h

theorem sortNames_eraseDups (names : List String) :
    sortNames names.eraseDups = (sortNames names).eraseDups := by
  refine sortOn_eq (eraseDups_perm fun name => (sortOn_perm id names).mem_iff.symm) ?_
    fun _ _ _ _ h => h
  exact (sortOn_pairwise id names).sublist (eraseDups_sublist _)

theorem mem_sortOn_map {key : α → String} {f : α → α} {as : List α} {b : α} :
    b ∈ sortOn key (as.map f) ↔ ∃ a ∈ as, f a = b := by
  rw [(sortOn_perm _ _).mem_iff, List.mem_map]

theorem sortOn_map {β : Type} (key : α → String) (key' : β → String) {f : α → β}
    (hkey : ∀ a, key' (f a) = key a) (as : List α) :
    sortOn key' (as.map f) = (sortOn key as).map f := by
  refine (List.map_mergeSort fun a _ b _ => ?_).symm
  rw [hkey, hkey]

/-- Entries are changed and sorted, in whichever order. -/
theorem map_sortOn_map {β γ δ : Type} (key : β → String) (key' : δ → String) {f : α → β}
    {g : β → δ} {g' : α → γ} {f' : γ → δ} (hkey : ∀ b, key' (g b) = key b)
    (h : ∀ a, g (f a) = f' (g' a)) (as : List α) :
    (sortOn key (as.map f)).map g = sortOn key' ((as.map g').map f') := by
  rw [← sortOn_map key key' hkey, List.map_map, List.map_map]
  exact congrArg _ (List.map_congr_left fun a _ => h a)

namespace Sdl

/-- A body is told by its kind and the parts that it has. -/
theorem TypeBody.ext_parts {b c : TypeBody μ} (kind : b.kind = c.kind)
    (fields : b.fields = c.fields) (interfaces : b.interfaces = c.interfaces)
    (members : b.unionMembers = c.unionMembers) (values : b.values = c.values)
    (inputFields : b.inputFields = c.inputFields) : b = c := by
  cases b with
  | scalar => cases c <;> first | rfl | cases kind
  | object => cases c <;> first | exact congrArg₂ object interfaces fields | cases kind
  | interface => cases c <;> first | exact congrArg₂ interface interfaces fields | cases kind
  | union => cases c <;> first | exact congrArg union members | cases kind
  | enum => cases c <;> first | exact congrArg enum values | cases kind
  | input => cases c <;> first | exact congrArg input inputFields | cases kind

/-- A body with each interface and each member of a union in it once. -/
def TypeBody.deduped : TypeBody μ → TypeBody μ
  | object interfaces fields => object interfaces.eraseDups fields
  | interface interfaces fields => interface interfaces.eraseDups fields
  | union members => union members.eraseDups
  | body => body

/-- A type with each interface and each member of a union in it once. -/
def TypeDef.deduped (d : TypeDef μ) : TypeDef μ := { d with body := d.body.deduped }

section

variable (b : TypeBody μ)

@[simp] theorem TypeBody.kind_deduped : b.deduped.kind = b.kind := by cases b <;> rfl

@[simp] theorem TypeBody.fields_deduped : b.deduped.fields = b.fields := by cases b <;> rfl

@[simp] theorem TypeBody.values_deduped : b.deduped.values = b.values := by cases b <;> rfl

@[simp] theorem TypeBody.inputFields_deduped : b.deduped.inputFields = b.inputFields := by
  cases b <;> rfl

@[simp] theorem TypeBody.interfaces_deduped :
    b.deduped.interfaces = b.interfaces.eraseDups := by
  cases b <;> rfl

@[simp] theorem TypeBody.unionMembers_deduped :
    b.deduped.unionMembers = b.unionMembers.eraseDups := by
  cases b <;> rfl

@[simp] theorem TypeBody.kind_sorted : b.sorted.kind = b.kind := by cases b <;> rfl

@[simp] theorem TypeBody.fields_sorted : b.sorted.fields = sortFields b.fields := by
  cases b <;> first | rfl | exact (sortOn_nil _).symm

@[simp] theorem TypeBody.values_sorted : b.sorted.values = sortOn (·.name) b.values := by
  cases b <;> first | rfl | exact (sortOn_nil _).symm

@[simp] theorem TypeBody.inputFields_sorted :
    b.sorted.inputFields = sortOn (·.name) b.inputFields := by
  cases b <;> first | rfl | exact (sortOn_nil _).symm

@[simp] theorem TypeBody.interfaces_sorted : b.sorted.interfaces = sortNames b.interfaces := by
  cases b <;> first | rfl | exact (sortOn_nil _).symm

@[simp] theorem TypeBody.unionMembers_sorted :
    b.sorted.unionMembers = sortNames b.unionMembers := by
  cases b <;> first | rfl | exact (sortOn_nil _).symm

theorem TypeBody.sorted_deduped : b.deduped.sorted = b.sorted.deduped := by
  apply TypeBody.ext_parts <;> simp [sortNames_eraseDups]

end

theorem TypeDef.sorted_deduped (d : TypeDef μ) : d.deduped.sorted = d.sorted.deduped :=
  congrArg (TypeDef.mk d.description d.name · d.mark) (TypeBody.sorted_deduped d.body)

end Sdl

/-- A schema with each interface and each member of a union once in each type. -/
def Schema.deduped (s : Schema) : Schema := { s with types := s.types.map TypeDef.deduped }

theorem Schema.sorted_deduped (s : Schema) : s.deduped.sorted = s.sorted.deduped := by
  have htypes := map_sortOn_map TypeDef.name TypeDef.name (f := TypeDef.sorted)
    (g := TypeDef.deduped) (fun _ => rfl) (fun t => (TypeDef.sorted_deduped t).symm) s.types
  exact congrArg (Schema.mk · s.query s.mutation s.subscription) htypes.symm

theorem Schema.implementors_deduped (s : Schema) (interface : String) :
    s.deduped.implementors interface = s.implementors interface := by
  have hcontains : ∀ t : SchemaType, t.deduped.body.interfaces.contains interface
      = t.body.interfaces.contains interface := by
    intro t
    rw [Bool.eq_iff_iff, List.contains_iff_mem, List.contains_iff_mem, TypeDef.deduped,
      TypeBody.interfaces_deduped, List.mem_eraseDups]
  rw [implementors, implementors, deduped, List.filter_map, List.map_map]
  congr 1
  exact List.filter_congr fun t _ => hcontains t

namespace Catalog

theorem Entry.ofType_deduped (s : Schema) (t : SchemaType) :
    Entry.ofType s.deduped t.deduped = Entry.ofType s t := by
  by_cases hbuiltin : t.name ∈ builtinScalars
  · rw [ofType_builtin hbuiltin, ofType_builtin (t := t.deduped) hbuiltin]
    rfl
  · rw [ofType_eq hbuiltin, ofType_eq (t := t.deduped) hbuiltin]
    simp [TypeDef.deduped, Schema.implementors_deduped, eraseDups_of_nodup (nodup_eraseDups _)]

/-- Repetitions in a schema do not show in its catalog. -/
theorem ofSchema_deduped (s : Schema) : ofSchema s.deduped = ofSchema s := by
  have hentries : ((s.types.map TypeDef.deduped).filter (!isIntrospective ·.name)).map
        (Entry.ofType s.deduped)
      = (s.types.filter (!isIntrospective ·.name)).map (Entry.ofType s) := by
    rw [List.filter_map, List.map_map]
    exact List.map_congr_left fun t _ => Entry.ofType_deduped s t
  exact congrArg (Catalog.mk · s.query s.mutation s.subscription) hentries

/-- Schemas that differ in repetitions have the same catalog, and so they do when sorted. -/
theorem ofSchema_congr {s s' : Schema} (h : s.deduped = s'.deduped) (sort : Bool) :
    ofSchema (if sort then s.sorted else s) = ofSchema (if sort then s'.sorted else s') := by
  cases sort with
  | false => exact (ofSchema_deduped s).symm.trans (h ▸ ofSchema_deduped s')
  | true =>
      have hsorted : s.sorted.deduped = s'.sorted.deduped := by
        rw [← Schema.sorted_deduped, ← Schema.sorted_deduped, h]
      exact (ofSchema_deduped s.sorted).symm.trans (hsorted ▸ ofSchema_deduped s'.sorted)

end Catalog

end SchemaGraph
