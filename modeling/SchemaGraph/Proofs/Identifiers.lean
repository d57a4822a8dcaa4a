import Mathlib.Data.List.Perm.Subperm
import SchemaGraph.Proofs.Names
import SchemaGraph.Proofs.Normalising

/-!
# No two entities have one identifier

An identifier is a tag and a path of names, written with double colons in
between. Since neither tags nor names have a colon in them, nothing is lost in
the writing, and it remains to see that no tag and path are used twice: a path
starts with the name of a type, which is that of one type only, and inside of a
type the names with one tag differ.

Fields and input fields share a tag, which is safe because no type has both.
Arguments share one too, wherever they are kept: normalisation splits the
arguments of a field in two, and the two together are still some of those that
there were.
-/

namespace SchemaGraph

open Sdl

namespace Id

/-- Names in a row, each with a double colon in front. -/
def trail (names : List String) : List Char := names.flatMap fun name => ':' :: ':' :: name.toList

theorem join_toList (tag : String) (names : List String) :
    (join tag names).toList = tag.toList ++ trail names := by
  induction names generalizing tag with
  | nil => exact (List.append_nil _).symm
  | cons name names ih =>
      rw [join, ih]
      simp [trail, String.toList_append]

theorem takeWhile_trail {front : List Char} (h : ':' ∉ front) (names : List String) :
    (front ++ trail names).takeWhile (· != ':') = front := by
  have hall : ∀ c ∈ front, (c != ':') = true := by
    intro c hc
    rw [bne_iff_ne]
    rintro rfl
    exact h hc
  rw [List.takeWhile_append_of_pos hall]
  cases names <;> simp [trail]

theorem append_trail_inj {front front' : List Char} {names names' : List String}
    (hfront : ':' ∉ front) (hfront' : ':' ∉ front')
    (h : front ++ trail names = front' ++ trail names') :
    front = front' ∧ trail names = trail names' := by
  have heq := congrArg (List.takeWhile (· != ':')) h
  rw [takeWhile_trail hfront, takeWhile_trail hfront'] at heq
  subst heq
  exact ⟨rfl, List.append_cancel_left h⟩

theorem trail_inj {names names' : List String} (hnames : ∀ name ∈ names, Plain name)
    (hnames' : ∀ name ∈ names', Plain name) (h : trail names = trail names') : names = names' := by
  induction names generalizing names' with
  | nil =>
      cases names' with
      | nil => rfl
      | cons name' names' => simp [trail] at h
  | cons name names ih =>
      cases names' with
      | nil => simp [trail] at h
      | cons name' names' =>
          simp only [trail, List.flatMap_cons, List.cons_append, List.cons.injEq, true_and] at h
          obtain ⟨hhead, htail⟩ := append_trail_inj (hnames name List.mem_cons_self)
            (hnames' name' List.mem_cons_self) h
          rw [String.toList_inj.1 hhead, ih (fun n hn => hnames n (List.mem_cons_of_mem _ hn))
            (fun n hn => hnames' n (List.mem_cons_of_mem _ hn)) htail]

/-- If nothing in it has a colon, an identifier tells its tag and its path. -/
theorem join_inj {tag tag' : String} {names names' : List String}
    (htag : Plain tag) (htag' : Plain tag') (hnames : ∀ name ∈ names, Plain name)
    (hnames' : ∀ name ∈ names', Plain name) (h : join tag names = join tag' names') :
    tag = tag' ∧ names = names' := by
  have hlist := congrArg String.toList h
  rw [join_toList, join_toList] at hlist
  obtain ⟨hfront, htrail⟩ := append_trail_inj htag htag' hlist
  exact ⟨String.toList_inj.1 hfront, trail_inj hnames hnames' htrail⟩

end Id

namespace Graph

/-- The identifiers of a type and of all that belongs to it. -/
def Node.identifiers (n : Node) : List String :=
  n.id.text :: ((n.fieldsById.map Prod.fst ++ n.inputsById.map Prod.fst)
    ++ n.relationsById.map Prod.fst)

/-- The identifiers of all types, fields, arguments, input fields and relations of a graph. -/
def identifiers (g : Graph) : List String := g.nodes.flatMap Node.identifiers

/-- Names inside of a type, with a tag for what they are and the name of the type. -/
def Node.tagged (n : Node) (tag : String) (names : List String) : List (String × List String) :=
  names.map fun name => (tag, [n.name, name])

/-- The arguments of a field, likewise. -/
def Node.argumentPaths (n : Node) (f : Field) : List (String × List String) :=
  (f.arguments ++ f.relayArguments).map fun a => ("ARGUMENT", [n.name, f.name, a.name])

/-- What the identifiers of a type are written from: a tag and a path each. -/
def Node.paths (n : Node) : List (String × List String) :=
  ("TYPE", [n.name]) :: ((n.tagged "FIELD" (n.fields.map (·.name))
    ++ (n.fields.flatMap n.argumentPaths ++ n.tagged "FIELD" (n.inputFields.map (·.name))))
    ++ (n.tagged "INTERFACE" (n.interfaces.map (·.name))
      ++ n.tagged "DERIVED_TYPE" (n.derivedTypes.map (·.name))
      ++ n.tagged "POSSIBLE_TYPE" (n.possibleTypes.map (·.name))))

theorem Node.identifiers_eq (n : Node) :
    n.identifiers = n.paths.map fun p => Id.join p.1 p.2 := by
  simp only [identifiers, paths, fieldsById, inputsById, relationsById, tagged, argumentPaths,
    argumentsById, List.map_cons, List.map_append, List.map_map, List.map_flatMap]
  rfl

theorem identifiers_eq (g : Graph) :
    g.identifiers = (g.nodes.flatMap Node.paths).map fun p => Id.join p.1 p.2 := by
  rw [identifiers, List.map_flatMap]
  exact List.flatMap_congr fun n _ => n.identifiers_eq

theorem Node.head_of_mem_paths {n : Node} {p : String × List String} (h : p ∈ n.paths) :
    p.2.head? = some n.name := by
  simp only [paths, tagged, argumentPaths, List.mem_cons, List.mem_append, List.mem_map,
    List.mem_flatMap] at h
  rcases h with rfl | (⟨_, _, rfl⟩ | ⟨_, _, _, _, rfl⟩ | ⟨_, _, rfl⟩)
    | ((⟨_, _, rfl⟩ | ⟨_, _, rfl⟩) | ⟨_, _, rfl⟩) <;> rfl

/-- Every tag, and every name of a path, is plain if the names of the type are. -/
theorem Node.paths_plain {n : Node} (h : n.NamesHold Plain)
    (hrelations : ∀ t ∈ n.interfaces ++ n.derivedTypes ++ n.possibleTypes, Plain t.name) :
    ∀ p ∈ n.paths, Plain p.1 ∧ ∀ name ∈ p.2, Plain name := by
  have htagged : ∀ {tag : String} {names : List String}, Plain tag → (∀ name ∈ names, Plain name) →
      ∀ p ∈ n.tagged tag names, Plain p.1 ∧ ∀ name ∈ p.2, Plain name := by
    intro tag names htag hnames p hp
    obtain ⟨name, hname, rfl⟩ := List.mem_map.1 hp
    refine ⟨htag, ?_⟩
    simpa using ⟨h.name, hnames name hname⟩
  have htargets : ∀ {ids : List TypeId}, ids ⊆ n.interfaces ++ n.derivedTypes ++ n.possibleTypes →
      ∀ name ∈ ids.map (·.name), Plain name := by
    intro ids hids name hname
    obtain ⟨t, ht, rfl⟩ := List.mem_map.1 hname
    exact hrelations t (hids ht)
  intro p hp
  rw [paths] at hp
  simp only [List.mem_cons, List.mem_append] at hp
  rcases hp with rfl | (hp | hp | hp) | ((hp | hp) | hp)
  · exact ⟨(by decide : Plain "TYPE"), by simpa using h.name⟩
  · refine htagged (by decide) (fun name hname => ?_) p hp
    obtain ⟨f, hf, rfl⟩ := List.mem_map.1 hname
    exact (h.fields f hf).1
  · obtain ⟨f, hf, hp⟩ := List.mem_flatMap.1 hp
    obtain ⟨a, ha, rfl⟩ := List.mem_map.1 hp
    refine ⟨(by decide : Plain "ARGUMENT"), ?_⟩
    simpa using ⟨h.name, (h.fields f hf).1, (h.fields f hf).2 a ha⟩
  · refine htagged (by decide) (fun name hname => ?_) p hp
    obtain ⟨i, hi, rfl⟩ := List.mem_map.1 hname
    exact h.inputFields i hi
  · refine htagged (by decide) (htargets fun t ht => ?_) p hp
    exact List.mem_append_left _ (List.mem_append_left _ ht)
  · refine htagged (by decide) (htargets fun t ht => ?_) p hp
    exact List.mem_append_left _ (List.mem_append_right _ ht)
  · exact htagged (by decide) (htargets fun t ht => List.mem_append_right _ ht) p hp

/-- No path is there twice, and none has another tag than these. -/
def OnceTagged (tags : List String) (ps : List (String × List String)) : Prop :=
  ps.Nodup ∧ ∀ p ∈ ps, p.1 ∈ tags

theorem OnceTagged.mono {tags tags' : List String} {ps : List (String × List String)}
    (h : OnceTagged tags ps) (hsub : tags ⊆ tags') : OnceTagged tags' ps :=
  ⟨h.1, fun p hp => hsub (h.2 p hp)⟩

/-- Two lists are kept apart by the tags in them. -/
theorem OnceTagged.append {tags tags' : List String} {ps qs : List (String × List String)}
    (hps : OnceTagged tags ps) (hqs : OnceTagged tags' qs) (h : ∀ tag ∈ tags, tag ∉ tags') :
    OnceTagged (tags ++ tags') (ps ++ qs) := by
  refine ⟨?_, ?_⟩
  · refine List.nodup_append.2 ⟨hps.1, hqs.1, ?_⟩
    rintro p hp _ hq rfl
    exact h p.1 (hps.2 p hp) (hqs.2 p hq)
  · intro p hp
    rcases List.mem_append.1 hp with hp | hp
    · exact List.mem_append_left _ (hps.2 p hp)
    · exact List.mem_append_right _ (hqs.2 p hp)

theorem Node.onceTagged {n : Node} (tag : String) {names : List String} (h : names.Nodup) :
    OnceTagged [tag] (n.tagged tag names) := by
  refine ⟨?_, ?_⟩
  · exact h.map fun a b hab => by simpa using hab
  · intro p hp
    obtain ⟨_, _, rfl⟩ := List.mem_map.1 hp
    exact List.mem_singleton_self _

theorem Node.onceTagged_arguments {n : Node} (h : n.NamesOnce) :
    OnceTagged ["ARGUMENT"] (n.fields.flatMap n.argumentPaths) := by
  refine ⟨?_, ?_⟩
  · rw [List.nodup_flatMap]
    refine ⟨?_, ?_⟩
    · intro f hf
      have hmap : n.argumentPaths f = ((f.arguments ++ f.relayArguments).map (·.name)).map
          fun name => ("ARGUMENT", [n.name, f.name, name]) := by
        rw [List.map_map]
        rfl
      rw [hmap]
      exact (h.arguments f hf).map fun a b hab => by simpa using hab
    · refine (List.pairwise_map.1 h.fields).imp fun {f f'} hne p hp hp' => ?_
      obtain ⟨a, -, rfl⟩ := List.mem_map.1 hp
      obtain ⟨a', -, heq⟩ := List.mem_map.1 hp'
      simp only [Prod.mk.injEq, List.cons.injEq, true_and] at heq
      exact hne heq.1.symm
  · intro p hp
    obtain ⟨_, _, hp⟩ := List.mem_flatMap.1 hp
    obtain ⟨_, _, rfl⟩ := List.mem_map.1 hp
    exact List.mem_singleton_self _

/-- Fields and input fields have one tag, but a type does not have both. -/
theorem Node.onceTagged_members {n : Node} (h : n.NamesOnce) :
    OnceTagged ["FIELD", "ARGUMENT"] (n.tagged "FIELD" (n.fields.map (·.name))
      ++ (n.fields.flatMap n.argumentPaths ++ n.tagged "FIELD" (n.inputFields.map (·.name)))) := by
  rcases h.exclusive with hnone | hnone
  · rw [hnone]
    exact (onceTagged "FIELD" h.inputFields).mono (by simp)
  · rw [hnone]
    simp only [tagged, List.map_nil, List.append_nil]
    exact (onceTagged "FIELD" h.fields).append (onceTagged_arguments h) (by decide)

theorem nodup_targets {ids : List TypeId} (h : ids.Nodup) : (ids.map (·.name)).Nodup :=
  h.map fun _ _ hab => congrArg TypeId.mk hab

theorem Node.nodup_paths {n : Node} (h : n.NamesOnce) : n.paths.Nodup := by
  have htype : OnceTagged ["TYPE"] [("TYPE", [n.name])] := ⟨by simp, by simp⟩
  have hrelations := ((n.onceTagged "INTERFACE" (nodup_targets h.interfaces)).append
    (n.onceTagged "DERIVED_TYPE" (nodup_targets h.derivedTypes)) (by decide)).append
    (n.onceTagged "POSSIBLE_TYPE" (nodup_targets h.possibleTypes)) (by decide)
  exact (htype.append ((onceTagged_members h).append hrelations (by decide)) (by decide)).1

/-- In a graph whose names are plain and declared once, all identifiers differ. -/
theorem identifiers_nodup_of {g : Graph} (hg : g.Resolved) (honce : ∀ n ∈ g.nodes, n.NamesOnce)
    (hplain : ∀ n ∈ g.nodes, n.NamesHold Plain) : g.identifiers.Nodup := by
  rw [identifiers_eq]
  refine List.Nodup.map_on ?_ ?_
  · have hpaths : ∀ p ∈ g.nodes.flatMap Node.paths, Plain p.1 ∧ ∀ name ∈ p.2, Plain name := by
      intro p hp
      obtain ⟨n, hn, hp⟩ := List.mem_flatMap.1 hp
      refine Node.paths_plain (hplain n hn) (fun t ht => ?_) p hp
      have hid : t ∈ g.typeIds := mem_typeIds_of_node hn (Node.mem_typeIds.2 (.inr (.inr ?_)))
      · obtain ⟨m, hm, rfl⟩ := hg.resolves t hid
        exact (hplain m hm).name
      · simpa [or_assoc] using ht
    -- Nothing here has a colon in it, so what is written alike is alike.
    intro p hp q hq hpq
    obtain ⟨htag, hnames⟩ := Id.join_inj (hpaths p hp).1 (hpaths q hq).1 (hpaths p hp).2
      (hpaths q hq).2 hpq
    exact Prod.ext htag hnames
  · rw [List.nodup_flatMap]
    refine ⟨fun n hn => Node.nodup_paths (honce n hn), ?_⟩
    -- Paths of two types differ in their first name already.
    refine (List.pairwise_map.1 hg.names).imp fun {n m} hne p hp hq => ?_
    have hhead := (Node.head_of_mem_paths hp).symm.trans (Node.head_of_mem_paths hq)
    exact hne (Option.some.inj hhead)

/-- Whether what belongs to a type has plain names, and no name twice. -/
structure Node.WellNamed (n : Node) : Prop where
  once : n.NamesOnce
  plain : n.NamesHold Plain

/-- Whether a field has kept its name and has no arguments but some that it had. -/
structure Field.Trims (f f' : Field) : Prop where
  name : f'.name = f.name
  arguments : (f'.arguments ++ f'.relayArguments).Subperm (f.arguments ++ f.relayArguments)

theorem Field.trims_collapse (c : Connection) (f : Field) : f.Trims (f.collapse c) := by
  refine ⟨rfl, ?_⟩
  have hperm := List.filter_append_perm (fun a => pagingArguments.contains a.name) f.arguments
  have hargs := (List.perm_append_comm.trans hperm).subperm
  exact hargs.trans (List.sublist_append_left _ _).subperm

theorem Field.trims_throughEdge (node : TypeId) (f : Field) : f.Trims (f.throughEdge node) :=
  ⟨rfl, .refl _⟩

theorem Field.Trims.nodup {f f' : Field} (h : f.Trims f')
    (hf : ((f.arguments ++ f.relayArguments).map (·.name)).Nodup) :
    ((f'.arguments ++ f'.relayArguments).map (·.name)).Nodup := by
  obtain ⟨as, hperm, hsub⟩ := h.arguments
  exact (hperm.map (·.name)).nodup_iff.1 (hf.sublist (hsub.map _))

theorem Node.WellNamed.mapFields {n : Node} (h : n.WellNamed) {f : Field → Field}
    (hf : ∀ a : Field, a.Trims (f a)) : ({ n with fields := n.fields.map f } : Node).WellNamed := by
  have hnames : (n.fields.map f).map (·.name) = n.fields.map (·.name) := by
    rw [List.map_map]
    exact List.map_congr_left fun a _ => (hf a).name
  refine ⟨{ h.once with fields := hnames ▸ h.once.fields, arguments := ?_, exclusive := ?_ },
    { h.plain with fields := ?_ }⟩
  · intro b hb
    obtain ⟨a, ha, rfl⟩ := List.mem_map.1 hb
    exact (hf a).nodup (h.once.arguments a ha)
  · exact h.once.exclusive.imp_left fun hnone => by simp [hnone]
  · intro b hb
    obtain ⟨a, ha, rfl⟩ := List.mem_map.1 hb
    obtain ⟨hname, hargs⟩ := h.plain.fields a ha
    exact ⟨(hf a).name ▸ hname, fun x hx => hargs x ((hf a).arguments.subset hx)⟩

theorem Node.WellNamed.filterFields {n : Node} (h : n.WellNamed) (p : Field → Bool) :
    ({ n with fields := n.fields.filter p } : Node).WellNamed := by
  have hmem : ∀ f ∈ n.fields.filter p, f ∈ n.fields := fun f hf => (List.mem_filter.1 hf).1
  refine ⟨{ h.once with fields := ?_, arguments := ?_, exclusive := ?_ },
    { h.plain with fields := ?_ }⟩
  · exact h.once.fields.sublist (List.filter_sublist.map _)
  · exact fun f hf => h.once.arguments f (hmem f hf)
  · exact h.once.exclusive.imp_left fun hnone => by simp [hnone]
  · exact fun f hf => h.plain.fields f (hmem f hf)

/-- Whether this is so for all types of a graph. -/
def WellNamed (g : Graph) : Prop := ∀ n ∈ g.nodes, n.WellNamed

theorem Field.Becomes.trims {f f' : Field} (h : f.Becomes f') : f.Trims f' := by
  cases h with
  | same => exact ⟨rfl, .refl _⟩
  | collapse c => exact f.trims_collapse c
  | throughEdge node => exact f.trims_throughEdge node

theorem Node.Becomes.wellNamed {n n' : Node} (h : n.Becomes n') (hn : n.WellNamed) :
    n'.WellNamed := by
  induction h with
  | same => exact hn
  | flag _ ih => exact ⟨{ ih.once with }, { ih.plain with }⟩
  | interfaces _ p ih =>
      exact ⟨{ ih.once with interfaces := ih.once.interfaces.filter p }, { ih.plain with }⟩
  | filter _ p ih => exact ih.filterFields p
  | map _ each ih => exact ih.mapFields fun f => (each f).trims

theorem WellNamed.comesFrom {g g' : Graph} (h : g.WellNamed) (h' : g'.ComesFrom g) :
    g'.WellNamed := by
  intro n' hn'
  obtain ⟨n, hn, hbecomes⟩ := h' n' hn'
  exact hbecomes.wellNamed (h n hn)

theorem WellNamed.rewrite {g : Graph} (h : g.WellNamed) (steps : List Rewrite) :
    (g.rewrite steps).WellNamed := h.comesFrom (rewrite_comesFrom g steps)

/--
In every graph that is built, and in all that come of it by further
normalisation, no two entities have the same identifier.
-/
theorem identifiers_nodup {options : Options} {sources : List Source} {g : Graph}
    (hbuild : build options sources = .ok (some g)) (steps : List Rewrite) :
    (g.rewrite steps).identifiers.Nodup := by
  obtain ⟨d, g₀, hload, hlink, rfl⟩ := build_ok hbuild
  have hnamed : g₀.WellNamed := fun n hn =>
    ⟨ofDocument_namesOnce hlink n hn, (ofDocument_isName hload hlink n hn).plain⟩
  rw [normalize_eq_rewrite, ← rewrite_append]
  have hall := hnamed.rewrite (rewrites options ++ steps)
  exact identifiers_nodup_of (rewrite_resolved hlink _) (fun n hn => (hall n hn).once)
    fun n hn => (hall n hn).plain

/-- A field of the same name in three types, with arguments of which some page. -/
def crowdedSource : Source :=
  ⟨"crowded", "type Query{a(first:Int,b:I):AConnection@deprecated,b(b:I):A}
type AConnection{edges:[E]} type E{node:A} interface A{a(b:I):A} input I{a:Int,b:I}"⟩

theorem identifiers_nodup_crowded :
    ∃ g, build .standard [crowdedSource] = .ok (some g)
      ∧ (g.rewrite [.normalizeRelay .standard, .dropDeprecated]).identifiers.Nodup := by
  have hbuilt : (build .standard [crowdedSource]).toOption.join.isSome = true := by
    decide +kernel
  obtain ⟨g, hg⟩ := exists_build hbuilt
  exact ⟨g, hg, identifiers_nodup hg _⟩

end Graph

end SchemaGraph
