/-!
# Type references

A reference names a type and wraps it in any number of list and non-null
modifiers. The same reference can be told by its wrappers, outermost first, and
the bare name inside them.
-/

namespace SchemaGraph.Sdl

/-- One modifier of a type reference. -/
inductive Wrapper where
  | list
  | nonNull
deriving DecidableEq, Inhabited

/-- A reference to a type. -/
inductive TypeExpr where
  | named (name : String)
  | list (item : TypeExpr)
  | nonNull (inner : TypeExpr)
deriving DecidableEq, Inhabited

namespace TypeExpr

/-- The name inside all wrappers. -/
def bareName : TypeExpr → String
  | named name => name
  | list item => item.bareName
  | nonNull inner => inner.bareName

/-- The wrappers around the name, outermost first. -/
def wrappers : TypeExpr → List Wrapper
  | named _ => []
  | list item => .list :: item.wrappers
  | nonNull inner => .nonNull :: inner.wrappers

/-- A reference as it is written: brackets around a list, a mark after a non-null type. -/
def print : TypeExpr → String
  | named name => name
  | list item => "[" ++ item.print ++ "]"
  | nonNull inner => inner.print ++ "!"

end TypeExpr

/-- A reference with one more wrapper around it. -/
def Wrapper.around : Wrapper → TypeExpr → TypeExpr
  | .list, w => .list w
  | .nonNull, w => .nonNull w

theorem TypeExpr.foldr_wrappers (w : TypeExpr) :
    w.wrappers.foldr Wrapper.around (.named w.bareName) = w := by
  induction w with
  | named => rfl
  | list item ih => exact congrArg TypeExpr.list ih
  | nonNull inner ih => exact congrArg TypeExpr.nonNull ih

/-- Name and wrappers tell a reference completely. -/
theorem TypeExpr.eq_iff {w w' : TypeExpr} :
    w = w' ↔ w.bareName = w'.bareName ∧ w.wrappers = w'.wrappers := by
  constructor
  · rintro rfl
    exact ⟨rfl, rfl⟩
  · rintro ⟨hname, hwrappers⟩
    rw [← w.foldr_wrappers, hname, hwrappers, w'.foldr_wrappers]

end SchemaGraph.Sdl
