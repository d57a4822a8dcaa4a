import SchemaGraph.Proofs.Resolution

/-!
# What normalisation makes of types

A step of normalisation goes through all types and changes each of them in one of
four ways: it flags it, takes interfaces from it, takes fields from it, or makes
fields refer to other types. It adds no type and takes none away. So what none of
these four changes can do to a type is not done by any number of steps.
-/

namespace SchemaGraph.Graph

open Sdl

/-- What can become of a field. -/
inductive Field.Becomes (f : Field) : Field → Prop
  | same : f.Becomes f
  | collapse (c : Connection) : f.Becomes (f.collapse c)
  | throughEdge (node : TypeId) : f.Becomes (f.throughEdge node)

/-- What can become of a type, change by change. -/
inductive Node.Becomes (n : Node) : Node → Prop
  | same : n.Becomes n
  | flag {n'} (before : n.Becomes n') : n.Becomes { n' with isRelay := true }
  | interfaces {n'} (before : n.Becomes n') (p : TypeId → Bool) :
      n.Becomes { n' with interfaces := n'.interfaces.filter p }
  | filter {n'} (before : n.Becomes n') (p : Field → Bool) :
      n.Becomes { n' with fields := n'.fields.filter p }
  | map {n'} (before : n.Becomes n') {u : Field → Field} (each : ∀ f : Field, f.Becomes (u f)) :
      n.Becomes { n' with fields := n'.fields.map u }

/-- Whether all types of a graph have become of types of another one. -/
def ComesFrom (g' g : Graph) : Prop := ∀ n' ∈ g'.nodes, ∃ n ∈ g.nodes, n.Becomes n'

theorem ComesFrom.refl (g : Graph) : g.ComesFrom g := fun n hn => ⟨n, hn, .same⟩

section

variable {g g' : Graph} (h : g'.ComesFrom g)

include h

theorem ComesFrom.mapNodes {u : Node → Node}
    (hu : ∀ n n' : Node, n.Becomes n' → n.Becomes (u n')) : (g'.mapNodes u).ComesFrom g := by
  intro n'' hn''
  obtain ⟨n', hn', rfl⟩ := List.mem_map.1 hn''
  obtain ⟨n, hn, hbecomes⟩ := h n' hn'
  exact ⟨n, hn, hu n n' hbecomes⟩

theorem ComesFrom.flagRelay (ids : List TypeId) : (g'.flagRelay ids).ComesFrom g := by
  refine h.mapNodes fun n n' hn => ?_
  split
  · exact hn.flag
  · exact hn

theorem ComesFrom.dropNodeInterface : g'.dropNodeInterface.ComesFrom g :=
  h.mapNodes fun _ _ hn => hn.interfaces _

theorem ComesFrom.collapseConnections : g'.collapseConnections.ComesFrom g := by
  refine h.mapNodes fun n n' hn => hn.map fun f => ?_
  split
  · next c _ => exact .collapse c
  · exact .same

theorem ComesFrom.unwrapEdges (cs : List Connection) : (g'.unwrapEdges cs).ComesFrom g := by
  refine h.mapNodes fun n n' hn => hn.map fun f => ?_
  split
  · next node _ => exact .throughEdge node
  · exact .same

theorem ComesFrom.removePlumbing (options : RelayOptions) :
    (g'.removePlumbing options).ComesFrom g := by
  refine h.mapNodes fun n n' hn => ?_
  split
  · exact hn.filter _
  · exact hn

theorem ComesFrom.apply (step : Rewrite) : (step.apply g').ComesFrom g := by
  cases step with
  | normalizeRelay options =>
      have hmarked := (h.flagRelay [nodeInterface, pageInfo]).dropNodeInterface
      exact ((hmarked.collapseConnections.flagRelay _).unwrapEdges _).removePlumbing options
  | dropDeprecated => exact h.mapNodes fun _ _ hn => hn.filter _

end

/-- However a graph is normalised, its types are what has become of types that it had. -/
theorem rewrite_comesFrom (g : Graph) (steps : List Rewrite) : (g.rewrite steps).ComesFrom g := by
  have hall : ∀ {g' : Graph}, g'.ComesFrom g → (g'.rewrite steps).ComesFrom g := by
    induction steps with
    | nil => exact fun h => h
    | cons step steps ih => exact fun h => ih (h.apply step)
  exact hall (.refl g)

end SchemaGraph.Graph
