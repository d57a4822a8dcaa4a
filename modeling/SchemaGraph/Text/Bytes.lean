/-!
# Byte offsets in a text

Offsets count the bytes of a text's UTF-8 form, while the text itself is a list
of characters. Cutting at an offset never splits a character: one that lies
across the offset goes to the second part.
-/

namespace SchemaGraph.Text

/-- The number of bytes that a text takes in UTF-8. -/
def byteLength : List Char → Nat
  | [] => 0
  | c :: cs => c.utf8Size + byteLength cs

/-- The characters that end at or before the offset, and those after them. -/
def splitAtByte : Nat → List Char → List Char × List Char
  | _, [] => ([], [])
  | n, c :: cs =>
    if c.utf8Size ≤ n then
      let (front, back) := splitAtByte (n - c.utf8Size) cs
      (c :: front, back)
    else
      ([], c :: cs)

@[simp] theorem byteLength_append (xs ys : List Char) :
    byteLength (xs ++ ys) = byteLength xs + byteLength ys := by
  induction xs with
  | nil => simp [byteLength]
  | cons c cs ih => simp [byteLength, ih, Nat.add_assoc]

/-- Cutting loses nothing. -/
theorem splitAtByte_append (n : Nat) (cs : List Char) :
    (splitAtByte n cs).1 ++ (splitAtByte n cs).2 = cs := by
  induction cs generalizing n with
  | nil => rfl
  | cons c cs ih =>
    rw [splitAtByte]
    split
    · exact congrArg (c :: ·) (ih _)
    · rfl

end SchemaGraph.Text
