import PrefixForth.NestedText
import PrefixForth.NestedText.Line

/-!
# Nested text on one line

A list can be written on one line as `[a, b]` and a dictionary as `{a: b, c: d}`, and both can be
nested. Texts are trimmed; they cannot hold brackets, braces and commas, nor colons inside a
dictionary. Between the brackets of a list there is one more text than there are commas, except that
`[]` is the empty list. In the same way `{}` is the empty dictionary.

The line has to end with the bracket or brace that fits its first sign. The value is complete as soon
as that first sign is closed, and what stands between there and the end of the line does not count.
-/

namespace PrefixForth

namespace NestedText

/-- The bytes that end a text on a line with brackets. -/
def isDelimiter (inDict : Bool) (b : UInt8) : Bool :=
  b ∈ utf8 "[],\x7b\x7d" || (inDict && b = keyMark)

/-- A text without blanks and tabs at its start. -/
def skipBlanks (s : Bytes) : Bytes :=
  s.dropWhile fun b => b = blank || b = 9

mutual

/-- Reads the value that a text starts with, and leaves the rest of the text. -/
def readInline (inDict : Bool) : Nat → Bytes → Option (NestedText × Bytes)
  | 0, _ => none
  | fuel + 1, s =>
    match skipBlanks s with
    | 91 :: 93 :: rest => some (.list [], rest)
    | 91 :: rest => readItems fuel [] rest
    | 123 :: 125 :: rest => some (.dict [], rest)
    | 123 :: rest => readEntries fuel [] rest
    | _ =>
      let (s, rest) := s.span (!isDelimiter inDict ·)
      some (.text (trimBlanks s), rest)

/-- Reads the values of a list up to its closing bracket; `done` are the values before. -/
def readItems : Nat → List NestedText → Bytes → Option (NestedText × Bytes)
  | 0, _, _ => none
  | fuel + 1, done, s =>
    match readInline false fuel s with
    | none => none
    | some (v, rest) =>
      match skipBlanks rest with
      | 44 :: rest => readItems fuel (done ++ [v]) rest
      | 93 :: rest => some (.list (done ++ [v]), rest)
      | _ => none

/-- Reads the entries of a dictionary up to its closing brace; `done` are the entries before. -/
def readEntries : Nat → List (Bytes × NestedText) → Bytes → Option (NestedText × Bytes)
  | 0, _, _ => none
  | fuel + 1, done, s =>
    match s.span (!isDelimiter true ·) with
    | (key, 58 :: rest) =>
      match readInline true fuel rest with
      | none => none
      | some (v, rest) =>
        let entries := done ++ [(trimBlanks key, v)]
        match skipBlanks rest with
        | 44 :: rest => readEntries fuel entries rest
        | 125 :: rest => some (ofEntries entries, rest)
        | _ => none
    | _ => none

end

/-- The line ends with the bracket or brace that fits its first sign. White space at the end does not
count. -/
def endsClosed (s : Bytes) : Bool :=
  match s.head?, (trimBlanks s).getLast? with
  | some 91, some 93 => true
  | some 123, some 125 => true
  | _, _ => false

/-- The value that a line with brackets stands for, if it stands for one. -/
def ofLine? (s : Bytes) : Option NestedText :=
  if endsClosed s then (readInline false (2 * s.length + 2) s).map (·.1) else none

end NestedText

end PrefixForth
