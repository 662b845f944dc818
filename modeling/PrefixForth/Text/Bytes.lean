/-!
# Byte text

Source texts, target texts and messages are byte strings. They are mostly UTF-8, but nothing here
relies on it: a string literal of a source text may hold any bytes, and they reach the target text
unchanged.

* `utf8` gives the bytes of a fixed text, `decimal` those of a number;
* `joinWords` puts one blank between the fragments of a list and leaves out the empty ones.
-/

namespace PrefixForth

/-- A text as it is read and written: bytes, not necessarily valid UTF-8. -/
abbrev Bytes := List UInt8

/-- The UTF-8 bytes of a fixed text. -/
def utf8 (s : String) : Bytes :=
  s.toUTF8.data.toList

/-- A whole number in decimal notation, with a sign only when it is negative. -/
def decimal (n : Int) : Bytes :=
  utf8 (toString n)

/-- Line feed. -/
def lineFeed : UInt8 := 10

/-- The blank. -/
def blank : UInt8 := 32

/-- The double quote. -/
def quoteMark : UInt8 := 34

/-- The backslash. -/
def backslash : UInt8 := 92

/-- The fragments in order, with one blank between any two and none around them. -/
def spaced (fragments : List Bytes) : Bytes :=
  [blank].intercalate fragments

/-- The non-empty fragments in order, with one blank between any two. -/
def joinWords (fragments : List Bytes) : Bytes :=
  spaced (fragments.filter (· ≠ []))

/-- The text without one leading `b`, if it starts with `b`. -/
def dropLeading (b : UInt8) : Bytes → Bytes
  | [] => []
  | c :: s => if c = b then s else c :: s

/-- The text without one trailing `b`, if it ends with `b`. -/
def dropTrailing (b : UInt8) (s : Bytes) : Bytes :=
  if s.getLast? = some b then s.dropLast else s

/-- The pieces of `s` between the separators `b`: one more piece than there are separators. -/
def splitAt (b : UInt8) : Bytes → List Bytes
  | [] => [[]]
  | c :: s =>
    if c = b then
      [] :: splitAt b s
    else
      match splitAt b s with
      | [] => [[c]]
      | piece :: pieces => (c :: piece) :: pieces

/-- Replaces occurrences of `old` in a text whose first `skip` bytes belong to an occurrence that has
been replaced already. -/
def replaceFrom (old new : Bytes) (skip : Nat) : Bytes → Bytes
  | [] => []
  | c :: s =>
    match skip with
    | k + 1 => replaceFrom old new k s
    | 0 =>
      if old ≠ [] ∧ old.isPrefixOf (c :: s) then
        new ++ replaceFrom old new (old.length - 1) s
      else
        c :: replaceFrom old new 0 s

/-- Every occurrence of `old` in `s`, from left to right and without overlap, becomes `new`. An
empty `old` occurs nowhere. -/
def replaceAll (old new s : Bytes) : Bytes :=
  replaceFrom old new 0 s

end PrefixForth
