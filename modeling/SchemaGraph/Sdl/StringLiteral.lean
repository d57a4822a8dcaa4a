import SchemaGraph.Text.Escape

/-!
# String literals

What stands between the quotes of a string: characters that stand for
themselves, and escapes. Two scans read it. `body` reads a whole literal, one
character or escape after the other. `literal` first takes the characters up to
the first quote, backslash or line end, which is all there is to most strings,
and leaves only the rest to `body`.

Both start after the opening quote and say what the literal stands for, what
they took, the closing quote included, and what follows.
-/

namespace SchemaGraph.Sdl

/-- What a scan found: the value of the text it took, that text, and what follows it. -/
structure Scanned where
  value : List Char
  text : List Char
  rest : List Char
deriving DecidableEq

namespace Scanned

/-- A scan that takes more text in front, standing for `value`. -/
def prepend (value text : List Char) (s : Scanned) : Scanned :=
  ⟨value ++ s.value, text ++ s.text, s.rest⟩

end Scanned

namespace StringLiteral

/-- The character whose code point four hexadecimal digits write; half a surrogate pair is none. -/
def codePoint? (a b c d : Char) : Option Char :=
  (Text.hexNumber? a b c d).bind Text.ofCodePoint?

/-- Whether a character stands for itself. -/
def isPlain (c : Char) : Bool :=
  c != '"' && c != '\\' && c != '\n' && c != '\r'

/-- Reads a literal up to its closing quote. -/
def body : List Char → Option Scanned
  | [] => none
  | '\\' :: 'u' :: a :: b :: c :: d :: cs =>
    match codePoint? a b c d with
    | some e => (body cs).map (.prepend [e] ['\\', 'u', a, b, c, d])
    | none => none
  | '\\' :: e :: cs =>
    match Text.escaped? e with
    | some c => (body cs).map (.prepend [c] ['\\', e])
    | none => none
  | c :: cs =>
    if isPlain c then (body cs).map (.prepend [c] [c])
    else if c = '"' then some ⟨[], [c], cs⟩
    else none

/-- Reads a literal, with no more than one look at what stands before its first escape. -/
def literal (cs : List Char) : Option Scanned :=
  let plain := cs.takeWhile isPlain
  match cs.dropWhile isPlain with
  | '"' :: rest => some ⟨plain, plain ++ ['"'], rest⟩
  | '\\' :: rest => (body ('\\' :: rest)).map (.prepend plain plain)
  | _ => none

/--
What a literal that cannot be read still takes after its opening quote, and what
follows: the text before its first escape, or nothing if it has none.
-/
def broken (cs : List Char) : List Char × List Char :=
  match cs.dropWhile isPlain with
  | '\\' :: rest => (cs.takeWhile isPlain, '\\' :: rest)
  | _ => ([], cs)

theorem body_append {cs : List Char} {s : Scanned} (h : body cs = some s) :
    s.text ++ s.rest = cs := by
  fun_induction body cs generalizing s with
  | case1 => cases h
  | case2 a b c d cs e he ih =>
    obtain ⟨t, ht, rfl⟩ := Option.map_eq_some_iff.1 h
    simp [Scanned.prepend, ih ht]
  | case3 => cases h
  | case4 e cs _ c he ih =>
    obtain ⟨t, ht, rfl⟩ := Option.map_eq_some_iff.1 h
    simp [Scanned.prepend, ih ht]
  | case5 => cases h
  | case6 c cs _ _ hc ih =>
    obtain ⟨t, ht, rfl⟩ := Option.map_eq_some_iff.1 h
    simp [Scanned.prepend, ih ht]
  | case7 cs => cases h; rfl
  | case8 => cases h

theorem literal_append {cs : List Char} {s : Scanned} (h : literal cs = some s) :
    s.text ++ s.rest = cs := by
  have hcut := List.takeWhile_append_dropWhile (p := isPlain) (l := cs)
  rw [literal] at h
  split at h
  · rename_i rest hd
    cases h
    simpa [hd] using hcut
  · rename_i rest hd
    obtain ⟨t, ht, rfl⟩ := Option.map_eq_some_iff.1 h
    simpa [Scanned.prepend, body_append ht, hd] using hcut
  · cases h

theorem broken_append (cs : List Char) : (broken cs).1 ++ (broken cs).2 = cs := by
  have hcut := List.takeWhile_append_dropWhile (p := isPlain) (l := cs)
  rw [broken]
  split
  · rename_i rest hd
    simpa [hd] using hcut
  · rfl

end StringLiteral

end SchemaGraph.Sdl
