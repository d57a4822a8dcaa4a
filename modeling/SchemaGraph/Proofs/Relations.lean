import SchemaGraph.Proofs.Acceptance
import SchemaGraph.Proofs.Growth

/-!
# Interfaces and the types that implement them

A type lists its interfaces because its definition or an extension names them. An
interface lists the types that implement it because all types were gone through,
after they had been extended, in search of its name. The two lists are made
separately and are put in order separately, but they say the same.

What makes them agree is that the definitions are well formed: a name that is
implemented and known is that of an interface, so there is a list on the other
side. Without order this is read off the image of the definitions; putting a graph
in order moves entries of lists about and takes none away.
-/

namespace SchemaGraph

open Sdl

namespace Graph

/-- Interfaces and implementing types agree with each other and with the definitions. -/
structure Relates (ds : List (Definition Location)) (g : Graph) : Prop where
  inverse : ∀ n ∈ g.nodes, ∀ m ∈ g.nodes, n.kind ≠ .scalar → m.kind ≠ .scalar →
    (m.id ∈ n.interfaces ↔ n.id ∈ m.derivedTypes)
  declared : ∀ n ∈ g.nodes, ∀ m ∈ g.nodes, n.kind ≠ .scalar → m.kind ≠ .scalar →
    (m.id ∈ n.interfaces ↔
      ∃ t ∈ typeDefinitions ds, t.name = n.name ∧ m.name ∈ t.body.interfaces)
  interfaces : ∀ n ∈ g.nodes, n.interfaces.Nodup
  derivedTypes : ∀ n ∈ g.nodes, n.derivedTypes.Nodup
  order : ∀ n ∈ g.nodes, n.derivedTypes.Sublist (g.nodes.map Node.id)

end Graph

section

variable {ds : List (Definition Location)}

theorem mem_map_typeId {names : List String} {name : String} :
    TypeId.mk name ∈ names.map TypeId.mk ↔ name ∈ names :=
  List.mem_map_of_injective fun _ _ h => congrArg TypeId.name h

/-- What the parts of a type say is said by some definition or extension with its name. -/
theorem WellFormed.exists_parts_iff (h : WellFormed ds) {d : TypeDef Location}
    (hd : d ∈ declared ds) {P : TypeDef Location → Prop} :
    (∃ t ∈ parts ds d, P t) ↔ ∃ t ∈ typeDefinitions ds, t.name = d.name ∧ P t := by
  simp only [mem_parts, typeDefinitions, List.mem_append]
  refine exists_congr fun t => ⟨?_, ?_⟩
  · rintro ⟨rfl | ⟨ht, hname⟩, hP⟩
    · exact ⟨.inl hd, rfl, hP⟩
    · exact ⟨.inr ht, hname, hP⟩
  · rintro ⟨ht | ht, hname, hP⟩
    · exact ⟨.inl (List.inj_on_of_nodup_map h.types ht hd hname), hP⟩
    · exact ⟨.inr ⟨ht, hname⟩, hP⟩

theorem mem_implementing {interface name : String} :
    name ∈ implementing ds interface ↔
      ∃ d ∈ declared ds, d.name = name ∧ ∃ t ∈ parts ds d, interface ∈ t.body.interfaces := by
  simp only [implementing, List.mem_map, List.mem_filter, List.any_eq_true, List.contains_iff_mem]
  exact exists_congr fun d => by rw [and_assoc, and_comm (a := d.name = name)]

theorem Graph.mem_interfaces_image {d : TypeDef Location} {name : String} :
    ⟨name⟩ ∈ (Node.image ds d).interfaces ↔ ∃ t ∈ parts ds d, name ∈ t.body.interfaces := by
  rw [Node.image, mem_map_typeId, List.mem_eraseDups, List.mem_flatMap]

theorem Graph.mem_derivedTypes_image {d : TypeDef Location} {name : String} :
    ⟨name⟩ ∈ (Node.image ds d).derivedTypes ↔ d.body.kind = .interface
      ∧ ∃ e ∈ declared ds, e.name = name ∧ ∃ t ∈ parts ds e, d.name ∈ t.body.interfaces := by
  rw [← mem_implementing]
  unfold Node.image
  dsimp only
  split
  · next hkind => rw [mem_map_typeId, and_iff_right hkind]
  · next hkind => exact iff_of_false (List.not_mem_nil) fun hname => hkind hname.1

/-- The types of a graph that are no scalars are the images of what is declared. -/
theorem Graph.exists_image {n : Node} (hn : n ∈ declaredNodes ds) (hkind : n.kind ≠ .scalar) :
    ∃ d ∈ declared ds, Node.image ds d = n := by
  rcases (mem_declaredNodes ds).1 hn with ⟨d, hd, -, rfl⟩ | ⟨name, -, rfl⟩
  · unfold declaredNode at hkind ⊢
    split at hkind
    · exact absurd rfl hkind
    · next hbuiltin => exact ⟨d, hd, (if_neg hbuiltin).symm⟩
  · exact absurd rfl hkind

theorem Graph.declaredNodes_ids (ds : List (Definition Location)) :
    (declaredNodes ds).map Node.id
      = (((declared ds).map (·.name)).filter (!isIntrospective ·)
        ++ undeclaredScalars ds).map TypeId.mk := by
  have hname : ∀ d, (declaredNode ds d).id = ⟨d.name⟩ := by
    intro d
    unfold declaredNode
    split <;> rfl
  rw [declaredNodes, List.filter_map, List.map_append, List.map_append, List.map_map, List.map_map,
    List.map_map]
  exact congrArg (· ++ _) (List.map_congr_left fun d _ => hname d)

/-- A type implements what its definitions say, and interfaces know about it. -/
theorem WellFormed.implements_iff (h : WellFormed ds) {d e : TypeDef Location}
    (hd : d ∈ declared ds) (he : e ∈ declared ds) :
    (⟨e.name⟩ ∈ (Graph.Node.image ds d).interfaces ↔
        ∃ t ∈ typeDefinitions ds, t.name = d.name ∧ e.name ∈ t.body.interfaces)
      ∧ (⟨d.name⟩ ∈ (Graph.Node.image ds e).derivedTypes ↔
        ∃ t ∈ typeDefinitions ds, t.name = d.name ∧ e.name ∈ t.body.interfaces) := by
  have hparts := h.exists_parts_iff hd (P := fun t => e.name ∈ t.body.interfaces)
  refine ⟨Graph.mem_interfaces_image.trans hparts, ?_⟩
  rw [Graph.mem_derivedTypes_image, ← hparts]
  refine ⟨?_, fun himplements => ⟨?_, d, hd, rfl, himplements⟩⟩
  · rintro ⟨-, d', hd', hname, himplements⟩
    rwa [List.inj_on_of_nodup_map h.types hd' hd hname] at himplements
  · -- The name is known, so it is that of an interface, and only `e` has it.
    obtain ⟨t, ht, -, hname⟩ := hparts.1 himplements
    have hknown : e.name ∈ knownNames ds :=
      List.mem_append_left _ (List.mem_map_of_mem he)
    obtain ⟨e', he', hsame, hkind⟩ := h.interfaces t ht e.name hname hknown
    rwa [List.inj_on_of_nodup_map h.types he' he hsame] at hkind

theorem Graph.derivedTypes_eq_nil {n : Node} (hn : n ∈ declaredNodes ds)
    (hkind : n.kind ≠ .interface) : n.derivedTypes = [] := by
  rcases (mem_declaredNodes ds).1 hn with ⟨d, -, -, rfl⟩ | ⟨name, -, rfl⟩
  · unfold declaredNode at hkind ⊢
    split
    · rfl
    · next hbuiltin =>
        rw [if_neg hbuiltin] at hkind
        exact if_neg hkind
  · rfl

/-- Implementing types are listed as the types are, if they are all there. -/
theorem Graph.derivedTypes_sublist {n : Node} (hn : n ∈ declaredNodes ds)
    (hthere : ∀ id ∈ n.derivedTypes, id ∈ (declaredNodes ds).map Node.id) :
    n.derivedTypes.Sublist ((declaredNodes ds).map Node.id) := by
  by_cases hkind : n.kind = .interface
  · obtain ⟨d, hd, rfl⟩ := exists_image hn (by simp [hkind])
    have hkind : d.body.kind = .interface := hkind
    simp only [Node.image, hkind, if_true] at hthere ⊢
    rw [declaredNodes_ids] at hthere ⊢
    refine List.Sublist.map _ (.trans ?_ (List.sublist_append_left _ _))
    -- None of them is one that the graph leaves out.
    have hshown : (implementing ds d.name).filter (!isIntrospective ·)
        = implementing ds d.name := by
      refine List.filter_eq_self.2 fun name hname => ?_
      have hmem := mem_map_typeId.1 (hthere _ (mem_map_typeId.2 hname))
      rcases List.mem_append.1 hmem with hmem | hmem
      · exact (List.mem_filter.1 hmem).2
      · rw [isIntrospective_builtin (List.mem_filter.1 hmem).1]
        rfl
    rw [← hshown]
    exact (List.filter_sublist.map _).filter _
  · rw [derivedTypes_eq_nil hn hkind]
    exact List.nil_sublist _

end

namespace Graph

variable {d : Document} {g : Graph}

/-- Without order, what is read off the definitions holds of the graph. -/
theorem ofDocument_relates_plain (h : ofDocument false d = .ok g) : g.Relates d.definitions := by
  obtain ⟨s, hs, -⟩ := ofDocument_ok h
  have hwell := Schema.exists_ofDocument_iff.1 ⟨s, hs⟩
  have hresolved := ofDocument_resolved h
  have honce := ofDocument_namesOnce h
  have hnodes := ofDocument_nodes h
  rw [hnodes] at honce
  have hboth : ∀ n ∈ g.nodes, ∀ m ∈ g.nodes, n.kind ≠ .scalar → m.kind ≠ .scalar →
      (m.id ∈ n.interfaces ↔
          ∃ t ∈ typeDefinitions d.definitions, t.name = n.name ∧ m.name ∈ t.body.interfaces)
        ∧ (n.id ∈ m.derivedTypes ↔
          ∃ t ∈ typeDefinitions d.definitions, t.name = n.name ∧ m.name ∈ t.body.interfaces) := by
    intro n hn m hm hnkind hmkind
    rw [hnodes] at hn hm
    obtain ⟨b, hb, rfl⟩ := exists_image hn hnkind
    obtain ⟨c, hc, rfl⟩ := exists_image hm hmkind
    exact hwell.implements_iff hb hc
  refine ⟨fun n hn m hm hnkind hmkind => ?_, fun n hn m hm hnkind hmkind => ?_, ?_, ?_, ?_⟩
  · obtain ⟨hinterfaces, hderived⟩ := hboth n hn m hm hnkind hmkind
    exact hinterfaces.trans hderived.symm
  · exact (hboth n hn m hm hnkind hmkind).1
  · exact fun n hn => (honce n (hnodes ▸ hn)).interfaces
  · exact fun n hn => (honce n (hnodes ▸ hn)).derivedTypes
  · intro n hn
    have hthere : ∀ id ∈ n.derivedTypes, id ∈ g.nodes.map Node.id := fun id hid =>
      List.mem_map.2 (hresolved.resolves id
        (mem_typeIds_of_node hn (Node.mem_typeIds.2 (.inr (.inr (.inr (.inl hid)))))))
    rw [hnodes] at hn hthere ⊢
    exact derivedTypes_sublist hn hthere

theorem Relates.sorted {ds : List (Definition Location)} (h : g.Relates ds)
    (hnames : (g.nodes.map (·.name)).Nodup) : g.sorted.Relates ds := by
  have hmem : ∀ n ∈ g.sorted.nodes, ∃ n₀ ∈ g.nodes, n₀.sorted = n := fun n hn =>
    List.mem_map.1 ((sortOn_perm _ _).mem_iff.1 hn)
  have hlist : ∀ {id : TypeId} {ids : List TypeId}, id ∈ sortOn (·.name) ids ↔ id ∈ ids :=
    (sortOn_perm _ _).mem_iff
  have hids : g.sorted.nodes.map Node.id = sortOn (·.name) (g.nodes.map Node.id) := by
    have hsort := sortOn_map Node.name TypeId.name (f := Node.id) (fun _ => rfl)
      (g.nodes.map Node.sorted)
    rw [Graph.sorted, ← hsort, List.map_map]
    rfl
  refine ⟨fun n hn m hm hnkind hmkind => ?_, fun n hn m hm hnkind hmkind => ?_, fun n hn => ?_,
    fun n hn => ?_, fun n hn => ?_⟩
  all_goals obtain ⟨n₀, hn₀, rfl⟩ := hmem n hn
  · obtain ⟨m₀, hm₀, rfl⟩ := hmem m hm
    exact (hlist.trans (h.inverse n₀ hn₀ m₀ hm₀ hnkind hmkind)).trans hlist.symm
  · obtain ⟨m₀, hm₀, rfl⟩ := hmem m hm
    exact hlist.trans (h.declared n₀ hn₀ m₀ hm₀ hnkind hmkind)
  · exact (sortOn_perm _ _).nodup_iff.2 (h.interfaces n₀ hn₀)
  · exact (sortOn_perm _ _).nodup_iff.2 (h.derivedTypes n₀ hn₀)
  · rw [hids]
    refine sortOn_sublist (h.order n₀ hn₀) ?_
    rwa [List.map_map]

/--
In a graph as it is linked, sorted or not, a type is among those that implement an interface
exactly if it lists the interface, and exactly if its definition or an extension names it.
-/
theorem ofDocument_relates {sort : Bool} (h : ofDocument sort d = .ok g) :
    g.Relates d.definitions := by
  cases sort with
  | false => exact ofDocument_relates_plain h
  | true =>
      obtain ⟨g₀, hplain, rfl⟩ := ofDefinitions_sorted.1 h
      exact (ofDocument_relates_plain hplain).sorted (ofDocument_resolved hplain).names

/-- An interface that implements itself, clauses that repeat it, and a type extended elsewhere. -/
def relatedSources : List Source :=
  [⟨"more", "extend type Z implements N&N extend type Query implements N"⟩,
    ⟨"base", "interface N implements N\x7ba:Int\x7d type Z implements N\x7ba:Int\x7d
type Query\x7ba:Int\x7d"⟩]

theorem ofDocument_relates_extended :
    ∃ d g, Document.load relatedSources = .ok (some d) ∧ ofDocument true d = .ok g
      ∧ g.Relates d.definitions := by
  have hmade : (Document.load relatedSources).toOption.join.any (fun d =>
      (ofDocument false d).toOption.isSome) = true := by
    decide +kernel
  obtain ⟨d, hload, hmade⟩ := Except.exists_some_of_any hmade
  obtain ⟨g₀, hplain⟩ := Except.exists_ok hmade
  have hsorted : ofDocument true d = .ok g₀.sorted := ofDefinitions_sorted.2 ⟨g₀, hplain, rfl⟩
  exact ⟨d, g₀.sorted, hload, hsorted, ofDocument_relates hsorted⟩

end Graph

end SchemaGraph
