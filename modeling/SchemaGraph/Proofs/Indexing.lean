import Mathlib.Data.List.Induction
import SchemaGraph.Proofs.Merging

/-!
# Types by an index of names

A register keeps types in a list of rows and, beside it, an index that leads from each name
to the number of a row. The two are changed in different places: a row is added together
with its name, a row is changed where it stands and the index is left alone, and when rows
have changed places the index is made anew. Looking up a name never looks at the list but
at the one row that the index leads to, and it can fail if there is no such row.

`Indexed` says in which way list and index agree, and `indexed_iff` says it in one line:
the index is the list of names read backwards, which leaves no room for two rows of one
name. That line mentions nothing of a row but its name and its place, so changes which keep
the names of the rows keep it too, and changes of their order do not.
-/

namespace SchemaGraph

/-- A type in a register, and the types that have been recorded as implementing it. -/
structure Row where
  type : SchemaType
  implementors : List String

/-- The name of the type. -/
def Row.name (row : Row) : String := row.type.name

/-- Types, each in a row, and the numbers of their rows by their names. -/
structure Register where
  rows : List Row
  index : Std.HashMap String Nat

namespace Register

/-- The register without types. -/
def empty : Register := ⟨[], ∅⟩

/-- The names of the types, in order. -/
def names (r : Register) : List String := r.rows.map Row.name

/-- The types, in order. -/
def types (r : Register) : List SchemaType := r.rows.map Row.type

/--
The row that the index has for a name, if it has one. There is no result if the index
leads behind the last row.
-/
def get? (r : Register) (name : String) : Option (Option Row) :=
  match r.index[name]? with
  | none => some none
  | some i => r.rows[i]?.map some

/-- The place of the row that the index has for a name, unless it is behind the last row. -/
def slot? (r : Register) (name : String) : Option (Fin r.rows.length) :=
  r.index[name]?.bind fun i => if h : i < r.rows.length then some ⟨i, h⟩ else none

/-- Changes the row of a name where it stands. -/
def modify? (r : Register) (name : String) (f : Row → Row) : Option Register :=
  (r.slot? name).map fun i => { r with rows := r.rows.modify i.1 f }

/-- Adds a row at the end, under the name of its type. -/
def push (r : Register) (row : Row) : Register :=
  ⟨r.rows ++ [row], r.index.insert row.name r.rows.length⟩

/-- The numbers of rows by names, row after row. -/
def indexOf (rows : List Row) : Std.HashMap String Nat :=
  rows.zipIdx.foldl (fun index (row, i) => index.insert row.name i) ∅

/-- Makes the index anew. -/
def reindex (r : Register) : Register := ⟨r.rows, indexOf r.rows⟩

/-- In which way the index of a register agrees with its rows. -/
structure Indexed (r : Register) : Prop where
  distinct : r.names.Nodup
  leads : ∀ name i, r.index[name]? = some i → ∃ row : Row, r.rows[i]? = some row ∧ row.name = name
  lists : ∀ row ∈ r.rows, ∃ i, r.index[row.name]? = some i

/--
A lookup finds the row of a name, be it to read it or to change it, and finds none only for
the name of no row.
-/
structure Finds (r : Register) : Prop where
  row : ∀ (name : String) (row : Row),
    r.get? name = some (some row) ↔ row ∈ r.rows ∧ row.name = name
  noRow : ∀ name, r.get? name = some none ↔ ∀ row ∈ r.rows, row.name ≠ name
  slot : ∀ name i, r.slot? name = some i ↔ r.rows[i].name = name
  noSlot : ∀ name, r.slot? name = none ↔ ∀ row ∈ r.rows, row.name ≠ name

variable {r : Register}

theorem getElem?_names (r : Register) (i : Nat) : r.names[i]? = r.rows[i]?.map Row.name := by
  rw [names, List.getElem?_map]

theorem not_mem_names {name : String} : name ∉ r.names ↔ ∀ row ∈ r.rows, row.name ≠ name := by
  simp only [names, List.mem_map, not_exists, not_and, ne_eq]

theorem indexed_iff :
    r.Indexed ↔
      ∀ (name : String) (i : Nat), r.index[name]? = some i ↔ r.names[i]? = some name := by
  constructor
  · intro h name i
    simp only [getElem?_names, Option.map_eq_some_iff]
    constructor
    · exact h.leads name i
    · rintro ⟨row, hrow, rfl⟩
      obtain ⟨j, hj⟩ := h.lists row (List.mem_of_getElem? hrow)
      obtain ⟨row', hrow', hname⟩ := h.leads _ _ hj
      -- Rows `i` and `j` have one name, and no name is repeated.
      have hsame : r.names[i]? = r.names[j]? := by
        rw [getElem?_names, getElem?_names, hrow, hrow', Option.map_some, Option.map_some, hname]
      have hi : i < r.names.length := by
        rw [names, List.length_map]
        exact (List.getElem?_eq_some_iff.1 hrow).1
      rw [(List.getElem?_inj hi h.distinct).1 hsame]
      exact hj
  · intro h
    refine ⟨?_, ?_, ?_⟩
    · rw [List.nodup_iff_getElem?_ne_getElem?]
      intro i j hij hj hsame
      rw [List.getElem?_eq_getElem hj] at hsame
      have hi := (h _ _).2 hsame
      have hj := (h _ _).2 (List.getElem?_eq_getElem hj)
      rw [hi, Option.some.injEq] at hj
      omega
    · intro name i hi
      have hname := (h name i).1 hi
      rwa [getElem?_names, Option.map_eq_some_iff] at hname
    · intro row hrow
      obtain ⟨i, hi⟩ := List.mem_iff_getElem?.1 hrow
      exact ⟨i, (h row.name i).2 (by rw [getElem?_names, hi, Option.map_some])⟩

theorem Indexed.index_eq_none_iff (h : r.Indexed) {name : String} :
    r.index[name]? = none ↔ name ∉ r.names := by
  rw [Option.eq_none_iff_forall_ne_some, List.mem_iff_getElem?, not_exists]
  exact forall_congr' fun i => not_congr (indexed_iff.1 h name i)

theorem find?_row (h : r.Indexed) {name : String} {row : Row} :
    r.rows.find? (·.name == name) = some row ↔ row ∈ r.rows ∧ row.name = name :=
  find?_key_iff h.distinct

theorem find?_noRow {name : String} :
    r.rows.find? (·.name == name) = none ↔ ∀ row ∈ r.rows, row.name ≠ name := by
  simp only [List.find?_eq_none, beq_iff_eq, ne_eq]

theorem mem_names_of_find? {name : String} {row : Row}
    (hfound : r.rows.find? (·.name == name) = some row) : name ∈ r.names := by
  have hname : row.name = name := by simpa using List.find?_some hfound
  exact hname ▸ List.mem_map_of_mem (List.mem_of_find?_eq_some hfound)

theorem not_mem_names_of_find? {name : String}
    (hfound : r.rows.find? (·.name == name) = none) : name ∉ r.names :=
  not_mem_names.2 (find?_noRow.1 hfound)

/-- A look into the index does what a search through the rows does. -/
theorem Indexed.get?_eq (h : r.Indexed) (name : String) :
    r.get? name = some (r.rows.find? (·.name == name)) := by
  rw [get?]
  cases hi : r.index[name]? with
  | none =>
      have hnone := find?_noRow.2 (not_mem_names.1 (h.index_eq_none_iff.1 hi))
      simp only [hnone]
  | some i =>
      obtain ⟨row, hrow, hname⟩ := h.leads name i hi
      have hfound := (find?_row h).2 ⟨List.mem_of_getElem? hrow, hname⟩
      simp only [hrow, hfound, Option.map_some]

theorem Indexed.slot?_iff (h : r.Indexed) (name : String) (i : Fin r.rows.length) :
    r.slot? name = some i ↔ r.rows[i].name = name := by
  have hname : r.names[i.1]? = some r.rows[i].name := by
    rw [getElem?_names, List.getElem?_eq_getElem i.2, Option.map_some]
    rfl
  rw [slot?, Option.bind_eq_some_iff]
  constructor
  · rintro ⟨j, hj, hslot⟩
    split at hslot
    · cases hslot
      have := (indexed_iff.1 h name j).1 hj
      exact Option.some.inj (hname.symm.trans this)
    · cases hslot
  · rintro rfl
    exact ⟨i, (indexed_iff.1 h _ _).2 hname, dif_pos i.2⟩

theorem Indexed.slot?_none_iff (h : r.Indexed) (name : String) :
    r.slot? name = none ↔ ∀ row ∈ r.rows, row.name ≠ name := by
  rw [Option.eq_none_iff_forall_ne_some]
  simp only [ne_eq, h.slot?_iff name]
  rw [List.forall_mem_iff_getElem]
  exact ⟨fun hall i hi => hall ⟨i, hi⟩, fun hall i => hall i.1 i.2⟩

theorem Indexed.finds (h : r.Indexed) : r.Finds where
  row name row := by rw [h.get?_eq, Option.some.injEq, find?_row h]
  noRow name := by rw [h.get?_eq, Option.some.injEq, find?_noRow]
  slot := h.slot?_iff
  noSlot := h.slot?_none_iff

/--
The index fits other rows exactly if these have the same names in the same order. So a change
of rows can do without the index, and a change of their order cannot.
-/
theorem Indexed.rows_iff (h : r.Indexed) {rows : List Row} :
    Indexed { r with rows := rows } ↔ rows.map Row.name = r.names := by
  rw [indexed_iff] at h ⊢
  constructor
  · intro h'
    refine List.ext_getElem? fun i => Option.ext fun name => ?_
    exact (h' name i).symm.trans (h name i)
  · intro hnames name i
    rw [h name i, ← hnames]
    rfl

theorem Indexed.map (h : r.Indexed) {f : Row → Row} (hname : ∀ row, (f row).name = row.name) :
    Indexed { r with rows := r.rows.map f } := by
  rw [h.rows_iff, List.map_map]
  exact List.map_congr_left fun row _ => hname row

/-- Changing the row of a name where it stands is changing the rows of that name. -/
theorem Indexed.modify_eq (h : r.Indexed) (i : Fin r.rows.length) (f : Row → Row) :
    r.rows.modify i f
      = r.rows.map fun row => if row.name = r.rows[i].name then f row else row := by
  refine List.ext_getElem? fun j => ?_
  rw [List.getElem?_modify, List.getElem?_map]
  cases hj : r.rows[j]? with
  | none => rfl
  | some row =>
      obtain ⟨hlt, rfl⟩ := List.getElem?_eq_some_iff.1 hj
      have hname : r.rows[j].name = r.rows[i].name ↔ i.1 = j := by
        have hinj := List.getElem?_inj (j := i.1) (List.length_map Row.name ▸ hlt) h.distinct
        rw [getElem?_names, getElem?_names, hj, List.getElem?_eq_getElem i.2] at hinj
        simpa [eq_comm] using hinj
      simp only [hname, Option.map_eq_map, Option.map_some]

theorem Indexed.modify?_eq (h : r.Indexed) {name : String} (hname : name ∈ r.names)
    (f : Row → Row) :
    r.modify? name f
      = some { r with rows := r.rows.map fun row => if row.name = name then f row else row } := by
  cases hslot : r.slot? name with
  | none => exact absurd hname (not_mem_names.2 ((h.slot?_none_iff name).1 hslot))
  | some i => rw [modify?, hslot, Option.map_some, h.modify_eq, (h.slot?_iff name i).1 hslot]

theorem Indexed.modify?_eq_none (h : r.Indexed) {name : String} (hname : name ∉ r.names)
    (f : Row → Row) : r.modify? name f = none := by
  rw [modify?, (h.slot?_none_iff name).2 (not_mem_names.1 hname), Option.map_none]

theorem indexed_empty : empty.Indexed := by
  rw [indexed_iff]
  intro name i
  simp [empty, names]

theorem names_push (row : Row) : (r.push row).names = r.names ++ [row.name] := List.map_append

/-- The name of a new row leads to it, and all other names lead where they led before. -/
theorem Indexed.push (h : r.Indexed) {row : Row} (hnew : row.name ∉ r.names) :
    (r.push row).Indexed := by
  have hlength : r.names.length = r.rows.length := List.length_map _
  rw [indexed_iff]
  intro name i
  rw [names_push, getElem?_concat_iff, hlength, Register.push, Std.HashMap.getElem?_insert]
  simp only [beq_iff_eq]
  split
  · next hname =>
      have hnone : r.names[i]? ≠ some name := fun hi => hnew (hname ▸ List.mem_of_getElem? hi)
      simp only [hnone, hname, and_true, false_or, Option.some.injEq, eq_comm]
  · next hname => simp only [indexed_iff.1 h, hname, and_false, or_false]

/-- An index that is made row by row is that of a register to which the rows are added. -/
theorem indexOf_concat (rows : List Row) (row : Row) :
    Register.mk (rows ++ [row]) (indexOf (rows ++ [row]))
      = (Register.mk rows (indexOf rows)).push row := by
  simp only [Register.push, indexOf, List.zipIdx_append, List.foldl_append, Nat.zero_add,
    List.zipIdx_cons, List.zipIdx_nil, List.foldl_cons, List.foldl_nil]

theorem indexed_reindex (hnames : r.names.Nodup) : r.reindex.Indexed := by
  have hrows : ∀ rows : List Row, (rows.map Row.name).Nodup →
      (Register.mk rows (indexOf rows)).Indexed := by
    intro rows
    induction rows using List.reverseRecOn with
    | nil => exact fun _ => indexed_empty
    | append_singleton rows row ih =>
        intro hnodup
        rw [List.map_append, List.nodup_append] at hnodup
        obtain ⟨hrows, -, hnew⟩ := hnodup
        rw [indexOf_concat]
        exact (ih hrows).push fun hmem => hnew _ hmem _ (List.mem_singleton.2 rfl) rfl
  exact hrows r.rows hnames

end Register

end SchemaGraph
