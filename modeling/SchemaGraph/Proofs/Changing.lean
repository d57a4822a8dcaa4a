import SchemaGraph.Sdl.Definition

/-!
# Changing definitions

Marks and directives are what definitions have in many places. Where nothing but these is
to be changed, it is changed in all places at once, and the rest of a definition stays.
Other marks and fewer directives are both such changes.
-/

namespace SchemaGraph

open Sdl

/-- How definitions are to be changed: each mark, and each list of directives. -/
structure Change (μ ν : Type) where
  mark : μ → ν
  directives : List Directive → List Directive

namespace Sdl

variable {μ ν κ : Type}

/-- The same input value, changed. -/
def InputDef.alter (c : Change μ ν) (d : InputDef μ) : InputDef ν :=
  ⟨d.description, d.name, d.type, d.default, c.directives d.directives, c.mark d.mark⟩

/-- The same field, changed. -/
def FieldDef.alter (c : Change μ ν) (d : FieldDef μ) : FieldDef ν :=
  ⟨d.description, d.name, d.arguments.map (·.alter c), d.type, c.directives d.directives,
    c.mark d.mark⟩

/-- The same enum value, changed. -/
def EnumValueDef.alter (c : Change μ ν) (d : EnumValueDef μ) : EnumValueDef ν :=
  ⟨d.description, d.name, c.directives d.directives, c.mark d.mark⟩

/-- The same members, changed. -/
def TypeBody.alter (c : Change μ ν) : TypeBody μ → TypeBody ν
  | scalar => scalar
  | object interfaces fields => object interfaces (fields.map (·.alter c))
  | interface interfaces fields => interface interfaces (fields.map (·.alter c))
  | union members => union members
  | enum values => enum (values.map (·.alter c))
  | input fields => input (fields.map (·.alter c))

/-- The same type, changed. -/
def TypeDef.alter (c : Change μ ν) (d : TypeDef μ) : TypeDef ν :=
  ⟨d.description, d.name, d.body.alter c, c.mark d.mark⟩

/-- The same definition, changed. -/
def Definition.alter (c : Change μ ν) : Definition μ → Definition ν
  | schema roots => schema roots
  | extendSchema roots => extendSchema roots
  | type definition => type (definition.alter c)
  | extendType extension => extendType (extension.alter c)
  | directive name => directive name

theorem TypeBody.alter_mark (f : μ → ν) (b : TypeBody μ) : b.alter ⟨f, id⟩ = b.map f := by
  cases b <;> rfl

theorem TypeDef.alter_mark (f : μ → ν) (d : TypeDef μ) : d.alter ⟨f, id⟩ = d.map f :=
  congrArg (TypeDef.mk d.description d.name · (f d.mark)) (d.body.alter_mark f)

/-- A change of marks alone gives a definition other marks. -/
theorem Definition.alter_mark (f : μ → ν) (d : Definition μ) : d.alter ⟨f, id⟩ = d.map f := by
  cases d with
  | type d => exact congrArg type (d.alter_mark f)
  | extendType e => exact congrArg extendType (e.alter_mark f)
  | schema | extendSchema | directive => rfl

section

variable (c' : Change ν κ) (c : Change μ ν)

theorem FieldDef.alter_alter (d : FieldDef μ) :
    (d.alter c).alter c' = d.alter ⟨c'.mark ∘ c.mark, c'.directives ∘ c.directives⟩ := by
  simp [FieldDef.alter, InputDef.alter, Function.comp_def]

theorem TypeBody.alter_alter (b : TypeBody μ) :
    (b.alter c).alter c' = b.alter ⟨c'.mark ∘ c.mark, c'.directives ∘ c.directives⟩ := by
  cases b <;>
    simp [TypeBody.alter, FieldDef.alter_alter, InputDef.alter, EnumValueDef.alter,
      Function.comp_def]

theorem TypeDef.alter_alter (d : TypeDef μ) :
    (d.alter c).alter c' = d.alter ⟨c'.mark ∘ c.mark, c'.directives ∘ c.directives⟩ := by
  simp [TypeDef.alter, TypeBody.alter_alter]

/-- Two changes are one change. -/
theorem Definition.alter_alter (d : Definition μ) :
    (d.alter c).alter c' = d.alter ⟨c'.mark ∘ c.mark, c'.directives ∘ c.directives⟩ := by
  cases d <;> simp [Definition.alter, TypeDef.alter_alter]

end

section

variable (c : Change μ ν)

@[simp] theorem TypeDef.name_alter (d : TypeDef μ) : (d.alter c).name = d.name := rfl

@[simp] theorem TypeDef.mark_alter (d : TypeDef μ) : (d.alter c).mark = c.mark d.mark := rfl

@[simp] theorem TypeDef.body_alter (d : TypeDef μ) : (d.alter c).body = d.body.alter c := rfl

@[simp] theorem TypeBody.kind_alter (b : TypeBody μ) : (b.alter c).kind = b.kind := by
  cases b <;> rfl

@[simp] theorem TypeBody.interfaces_alter (b : TypeBody μ) :
    (b.alter c).interfaces = b.interfaces := by
  cases b <;> rfl

theorem TypeBody.fields_alter (b : TypeBody μ) :
    (b.alter c).fields = b.fields.map (·.alter c) := by
  cases b <;> rfl

theorem TypeBody.members_alter (b : TypeBody μ) :
    (b.alter c).members = b.members.map (Prod.map id c.mark) := by
  cases b <;>
    simp [TypeBody.alter, TypeBody.members, FieldDef.alter, InputDef.alter, EnumValueDef.alter]

end

theorem Definition.map_map (g : ν → κ) (h : μ → ν) (d : Definition μ) :
    (d.map h).map g = d.map (g ∘ h) := by
  rw [← alter_mark, ← alter_mark, ← alter_mark, alter_alter]
  rfl

end Sdl

end SchemaGraph
