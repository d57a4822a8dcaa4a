import SchemaGraph.Proofs.Addresses
import SchemaGraph.Proofs.Writing

/-!
# The text of a graph tells the graph

Much of a graph is left out of its text: what would be false, what would be empty, and
what there is none of. Nothing is lost by that. The names in a record are known, and they
differ; so a name that is missing can only mean that there was no value for it, whatever
the value would have been and whatever else is missing. `record_inj` says that once, and
the rest goes through the parts of a graph from the inside out.

That the names in all other objects differ, too, is not needed to tell graphs apart, but
it is for readers that keep the members of an object without their order.
-/

namespace SchemaGraph

open Sdl

namespace JsonValue

theorem text_injective : Function.Injective text := fun _ _ h => text.inj h

theorem text_map_inj {o o' : Option String} (h : o.map text = o'.map text) : o = o' :=
  Option.map_injective text_injective h

/-- The members of a record for which there is a value. -/
def present (ms : List (String × Option JsonValue)) : List (String × JsonValue) :=
  ms.filterMap fun (name, value?) => value?.map fun value => (name, value)

theorem present_names (ms : List (String × Option JsonValue)) :
    ((present ms).map Prod.fst).Sublist (ms.map Prod.fst) := by
  induction ms with
  | nil => exact .slnil
  | cons m ms ih =>
      obtain ⟨name, value?⟩ := m
      cases value? with
      | none => exact ih.cons name
      | some value => exact ih.cons_cons name

theorem present_inj {ms ms' : List (String × Option JsonValue)}
    (hnames : ms'.map Prod.fst = ms.map Prod.fst) (hnodup : (ms.map Prod.fst).Nodup)
    (h : present ms = present ms') : ms = ms' := by
  induction ms generalizing ms' with
  | nil => simpa using hnames.symm
  | cons m ms ih =>
      obtain ⟨name, value?⟩ := m
      cases ms' with
      | nil => cases hnames
      | cons m' ms' =>
          obtain ⟨name', value?'⟩ := m'
          obtain ⟨rfl, htail⟩ := List.cons.inj hnames
          obtain ⟨hnew, honce⟩ := List.nodup_cons.1 hnodup
          -- A value on one side only would be that of a later member on the other.
          have hlater : ∀ {value ns} (ks : List (String × Option JsonValue)),
              ks.map Prod.fst = ms.map Prod.fst → (name', value) :: ns ≠ present ks := by
            intro value ns ks hks heq
            refine hnew (hks ▸ (present_names ks).mem ?_)
            rw [← heq]
            exact List.mem_cons_self
          cases value? with
          | none =>
              cases value?' with
              | none => exact congrArg _ (ih htail honce h)
              | some value => exact absurd h.symm (hlater ms rfl)
          | some value =>
              cases value?' with
              | none => exact absurd h (hlater ms' htail)
              | some value' =>
                  obtain ⟨hhead, hrest⟩ := List.cons.inj h
                  rw [ih htail honce hrest, (Prod.mk.inj hhead).2]

/-- A record without repeated names tells which of its members are left out. -/
theorem record_inj {ms ms' : List (String × Option JsonValue)} (h : record ms = record ms')
    (hnames : ms'.map Prod.fst = ms.map Prod.fst) (hnodup : (ms.map Prod.fst).Nodup) : ms = ms' :=
  present_inj hnames hnodup (object.inj h)

theorem arrayOf_injective {α : Type} {f : α → JsonValue} (hf : Function.Injective f) :
    Function.Injective (arrayOf f) :=
  fun _ _ h => (List.map_inj_right fun _ _ => hf.eq_iff.1).1 (array.inj h)

theorem named_injective {α : Type} (name : α → String) {f : α → JsonValue}
    (hf : Function.Injective f) : Function.Injective (named name f) :=
  fun _ _ h => (List.map_inj_right fun _ _ hab => hf (Prod.mk.inj hab).2).1 (object.inj h)

theorem flag?_inj {b b' : Bool} (h : flag? b = flag? b') : b = b' := by
  cases b <;> cases b' <;> first | rfl | cases h

theorem list?_inj {α : Type} {f : List α → JsonValue} (hf : Function.Injective f)
    {as bs : List α} (h : list? f as = list? f bs) : as = bs := by
  cases as <;> cases bs <;> first | rfl | cases h | exact hf (Option.some.inj h)

theorem wrappers_injective : Function.Injective wrappers := by
  refine arrayOf_injective fun w w' h => ?_
  have hcode := text.inj h
  cases w <;> cases w' <;> first | rfl | exact absurd hcode (by decide)

theorem location_injective : Function.Injective location := by
  intro l l' h
  have hmembers := record_inj h rfl (by simp)
  simp only [List.cons.injEq, Prod.mk.injEq, Option.some.injEq, text.injEq, number.injEq, true_and,
    and_true] at hmembers
  obtain ⟨hpath, hline, hcolumn⟩ := hmembers
  cases l
  cases l'
  simp_all

theorem enumRecord_injective : Function.Injective enumRecord := by
  intro v v' h
  have hmembers := record_inj h rfl (by simp)
  simp only [List.cons.injEq, Prod.mk.injEq, Option.some.injEq, text.injEq, true_and,
    and_true] at hmembers
  obtain ⟨hname, hdescription, -, hdeprecation⟩ := hmembers
  have hdescription := text_map_inj hdescription
  have hdeprecation := text_map_inj hdeprecation
  cases v
  cases v'
  simp_all

/-- Whether in every object that is part of a value the members have different names. -/
inductive NamesOnce : JsonValue → Prop
  | null : NamesOnce null
  | bool (value) : NamesOnce (bool value)
  | number (n) : NamesOnce (number n)
  | text (s) : NamesOnce (text s)
  | array {items} (each : ∀ v ∈ items, NamesOnce v) : NamesOnce (array items)
  | object {members} (names : (members.map Prod.fst).Nodup)
      (each : ∀ m ∈ members, NamesOnce m.2) : NamesOnce (object members)

attribute [simp] NamesOnce.text NamesOnce.bool NamesOnce.number

/-- The same of a value that may be left out. -/
def OptionalOnce (value? : Option JsonValue) : Prop := ∀ v, value? = some v → v.NamesOnce

@[simp] theorem optionalOnce_some {v : JsonValue} : OptionalOnce (some v) ↔ v.NamesOnce := by
  simp [OptionalOnce]

@[simp] theorem optionalOnce_map {α : Type} {f : α → JsonValue} {o : Option α}
    (h : ∀ a, (f a).NamesOnce) : OptionalOnce (o.map f) := by
  cases o <;> simp [OptionalOnce, h]

@[simp] theorem optionalOnce_flag? (b : Bool) : OptionalOnce (flag? b) := by
  cases b <;> simp [OptionalOnce, flag?]

@[simp] theorem optionalOnce_list? {α : Type} {f : List α → JsonValue} {entries : List α}
    (h : (f entries).NamesOnce) : OptionalOnce (list? f entries) := by
  cases entries <;> simp [OptionalOnce, list?, h]

theorem NamesOnce.record {ms : List (String × Option JsonValue)}
    (hnames : (ms.map Prod.fst).Nodup) (heach : ∀ m ∈ ms, OptionalOnce m.2) :
    (record ms).NamesOnce := by
  refine .object ((present_names ms).nodup hnames) fun m hm => ?_
  obtain ⟨⟨name, value?⟩, hmem, heq⟩ := List.mem_filterMap.1 hm
  obtain ⟨value, rfl, rfl⟩ := Option.map_eq_some_iff.1 heq
  exact heach _ hmem value rfl

theorem NamesOnce.arrayOf {α : Type} {f : α → JsonValue} {items : List α}
    (h : ∀ a, (f a).NamesOnce) : (arrayOf f items).NamesOnce :=
  .array fun _ hv => by
    obtain ⟨a, -, rfl⟩ := List.mem_map.1 hv
    exact h a

theorem NamesOnce.named {α : Type} {name : α → String} {f : α → JsonValue} {entries : List α}
    (hnames : (entries.map name).Nodup) (h : ∀ a ∈ entries, (f a).NamesOnce) :
    (named name f entries).NamesOnce := by
  refine .object (by rwa [List.map_map]) fun m hm => ?_
  obtain ⟨a, ha, rfl⟩ := List.mem_map.1 hm
  exact h a ha

@[simp] theorem NamesOnce.wrappers (ws : List Wrapper) : (wrappers ws).NamesOnce :=
  .arrayOf fun _ => .text _

@[simp] theorem NamesOnce.location (l : Location) : (location l).NamesOnce :=
  .record (by simp) (by simp)

@[simp] theorem NamesOnce.enumRecord (v : EnumRecord) : (enumRecord v).NamesOnce :=
  .record (by simp) (by simp)

end JsonValue

namespace Graph

open JsonValue

theorem idContent_injective : Function.Injective idContent :=
  fun _ _ h => TypeId.text_inj.1 (text.inj h)

theorem Input.content_inj {id id' : String} {i i' : Input}
    (h : Input.content id i = Input.content id' i') : i = i' := by
  have hmembers := record_inj h rfl (by simp)
  simp only [List.cons.injEq, Prod.mk.injEq, Option.some.injEq, text.injEq, true_and,
    and_true] at hmembers
  obtain ⟨-, hname, hdescription, hdefault, htype, hwrappers, -, hdeprecation, hlocation⟩ :=
    hmembers
  have hdescription := text_map_inj hdescription
  have hdefault := text_map_inj hdefault
  have htype := idContent_injective htype
  have hwrappers := wrappers_injective hwrappers
  have hdeprecation := text_map_inj hdeprecation
  have hlocation := Option.map_injective location_injective hlocation
  cases i
  cases i'
  simp_all

theorem TypeUse.content_injective : Function.Injective TypeUse.content := by
  intro u u' h
  have hmembers := record_inj h rfl (by simp)
  simp only [List.cons.injEq, Prod.mk.injEq, Option.some.injEq, true_and, and_true] at hmembers
  obtain ⟨htype, hwrappers⟩ := hmembers
  have htype := idContent_injective htype
  have hwrappers := wrappers_injective hwrappers
  cases u
  cases u'
  simp_all

theorem argumentsContent_injective (type field : String) :
    Function.Injective (argumentsContent type field) :=
  named_injective _ fun _ _ h => Input.content_inj h

theorem Field.content_injective (type : String) : Function.Injective (Field.content type) := by
  intro f f' h
  have hmembers := record_inj h rfl (by simp)
  simp only [List.cons.injEq, Prod.mk.injEq, Option.some.injEq, text.injEq, true_and,
    and_true] at hmembers
  obtain ⟨-, hname, hdescription, htype, hwrappers, -, hdeprecation, harguments, hrelayType,
    hrelayArguments, hlocation⟩ := hmembers
  rw [hname] at harguments hrelayArguments
  have hdescription := text_map_inj hdescription
  have htype := idContent_injective htype
  have hwrappers := wrappers_injective hwrappers
  have hdeprecation := text_map_inj hdeprecation
  have harguments := argumentsContent_injective _ _ harguments
  have hrelayType := Option.map_injective TypeUse.content_injective hrelayType
  have hrelayArguments := list?_inj (argumentsContent_injective _ _) hrelayArguments
  have hlocation := Option.map_injective location_injective hlocation
  cases f
  cases f'
  simp_all

theorem relationsContent_injective (relation : String → String) :
    Function.Injective (relationsContent relation) := by
  refine arrayOf_injective fun t t' h => ?_
  have hmembers := record_inj h rfl (by simp)
  simp only [List.cons.injEq, Prod.mk.injEq, Option.some.injEq, true_and, and_true] at hmembers
  exact idContent_injective hmembers.2

theorem kind_inj {kind kind' : TypeKind} (h : kind.code = kind'.code) : kind = kind' := by
  cases kind <;> cases kind' <;> first | rfl | exact absurd h (by decide)

theorem Node.content_injective : Function.Injective Node.content := by
  intro n n' h
  have hmembers := record_inj h rfl (by simp)
  simp only [List.cons.injEq, Prod.mk.injEq, Option.some.injEq, text.injEq, true_and,
    and_true] at hmembers
  obtain ⟨-, hname, hkind, hdescription, hlocation, hrelay, hfields, hinterfaces, hderived,
    hpossible, hvalues, hinputs⟩ := hmembers
  rw [hname] at hfields hinterfaces hderived hpossible hinputs
  have hkind := kind_inj hkind
  have hdescription := text_map_inj hdescription
  have hlocation := Option.map_injective location_injective hlocation
  have hrelay := flag?_inj hrelay
  have hfields := list?_inj (named_injective _ (Field.content_injective _)) hfields
  have hinterfaces := list?_inj (relationsContent_injective _) hinterfaces
  have hderived := list?_inj (relationsContent_injective _) hderived
  have hpossible := list?_inj (relationsContent_injective _) hpossible
  have hvalues := list?_inj (arrayOf_injective enumRecord_injective) hvalues
  have hinputs := list?_inj (named_injective _ fun _ _ h => Input.content_inj h) hinputs
  cases n
  cases n'
  simp_all

/-- What a graph is as JSON tells the graph. -/
theorem content_injective : Function.Injective content := by
  intro g g' h
  have hmembers := record_inj h rfl (by simp)
  simp only [List.cons.injEq, Prod.mk.injEq, Option.some.injEq, true_and, and_true] at hmembers
  obtain ⟨hnodes, hquery, hmutation, hsubscription⟩ := hmembers
  have hnodes := named_injective _ Node.content_injective hnodes
  have hquery := idContent_injective hquery
  have hmutation := Option.map_injective idContent_injective hmutation
  have hsubscription := Option.map_injective idContent_injective hsubscription
  cases g
  cases g'
  simp_all

@[simp] theorem idContent_namesOnce (id : TypeId) : (idContent id).NamesOnce := .text _

@[simp] theorem Input.content_namesOnce (id : String) (i : Input) :
    (Input.content id i).NamesOnce :=
  .record (by simp) (by simp)

@[simp] theorem TypeUse.content_namesOnce (u : TypeUse) : u.content.NamesOnce :=
  .record (by simp) (by simp)

theorem argumentsContent_namesOnce (type field : String) {inputs : List Input}
    (h : (inputs.map (·.name)).Nodup) : (argumentsContent type field inputs).NamesOnce :=
  .named h fun i _ => Input.content_namesOnce _ i

theorem Field.content_namesOnce (type : String) {f : Field}
    (h : ((f.arguments ++ f.relayArguments).map (·.name)).Nodup) : (f.content type).NamesOnce := by
  rw [List.map_append] at h
  have harguments := argumentsContent_namesOnce type f.name
    (h.sublist (List.sublist_append_left _ _))
  have hrelay := argumentsContent_namesOnce type f.name
    (h.sublist (List.sublist_append_right _ _))
  exact .record (by simp) (by simp [harguments, hrelay])

@[simp] theorem relationsContent_namesOnce (relation : String → String) (targets : List TypeId) :
    (relationsContent relation targets).NamesOnce :=
  .arrayOf fun _ => .record (by simp) (by simp)

theorem Node.content_namesOnce {n : Node} (h : n.NamesOnce) : n.content.NamesOnce := by
  have hfields : (named (·.name) (Field.content n.name) n.fields).NamesOnce :=
    .named h.fields fun f hf => Field.content_namesOnce n.name (h.arguments f hf)
  have hvalues : (arrayOf enumRecord n.enumValues).NamesOnce := .arrayOf NamesOnce.enumRecord
  have hinputs : (named (·.name) (fun i => Input.content (Id.field n.name i.name) i)
      n.inputFields).NamesOnce := .named h.inputFields fun i _ => Input.content_namesOnce _ i
  exact .record (by simp) (by simp [hfields, hvalues, hinputs])

theorem content_namesOnce {g : Graph} (h : g.Addressed) : g.content.NamesOnce := by
  have hkeys : (g.nodes.map (·.id.text)).Nodup := by
    have hids := h.resolved.names.map (f := TypeId.text ∘ TypeId.mk) fun a b hab =>
      TypeId.mk.inj (TypeId.text_inj.1 hab)
    rwa [List.map_map] at hids
  have htypes : (named (·.id.text) Node.content g.nodes).NamesOnce :=
    .named hkeys fun n hn => Node.content_namesOnce (h.named n hn).once
  exact .record (by simp) (by simp [htypes])

theorem jsonText_injective : Function.Injective jsonText := by
  intro g g' h
  have hread := content?_ofText?_written g.content
  rw [show g.content.written.render = g'.content.written.render from h,
    content?_ofText?_written g'.content] at hread
  exact content_injective (Option.some.inj hread).symm

/--
The text of a graph that was built is JSON that says what the graph is as JSON, and no
object in it has two members of one name. Only the one graph has this text.
-/
theorem build_jsonText {options : Options} {sources : List Source} {g : Graph}
    (h : build options sources = .ok (some g)) :
    (∀ g' : Graph, g'.jsonText = g.jsonText → g' = g)
      ∧ (Json.ofText? g.jsonText).bind Json.content? = some g.content
      ∧ g.content.NamesOnce := by
  obtain ⟨d, g₀, hload, hlink, rfl⟩ := build_ok h
  rw [normalize_eq_rewrite]
  have haddressed := rewrite_addressed hload hlink (rewrites options)
  exact ⟨fun g' hg' => jsonText_injective hg', content?_ofText?_written _,
    content_namesOnce haddressed⟩

/-- Descriptions with all kinds of characters and with none, and a paged field. -/
def quotedSource : Source :=
  ⟨"a\"\\\t\x1f", "\"\\u0000\\\"\uFEFF\"
type Query{a(first:Int=1):AConnection@deprecated}
type AConnection{edges:[E]} \"\" type E{node:A} type A{a:Int}"⟩

theorem build_jsonText_quoted :
    ∃ g, build .standard [quotedSource] = .ok (some g)
      ∧ (Json.ofText? g.jsonText).bind Json.content? = some g.content := by
  have hbuilt : (build .standard [quotedSource]).toOption.join.isSome = true := by
    decide +kernel
  obtain ⟨g, hg⟩ := exists_build hbuilt
  exact ⟨g, hg, (build_jsonText hg).2.1⟩

end Graph

end SchemaGraph
