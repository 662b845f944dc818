import PrefixForth.Text.Rune

/-!
# White space of Unicode

Lines that a user types are trimmed and cut into words at every character with the White_Space
property, not only at the four bytes that may stand between tokens.
-/

namespace PrefixForth

/-- The character has the White_Space property. -/
def isBlankChar (c : Char) : Bool :=
  let n := c.toNat
  (9 ≤ n && n ≤ 13) || n == 0x20 || n == 0x85 || n == 0xa0 || n == 0x1680 ||
    (0x2000 ≤ n && n ≤ 0x200a) || n == 0x2028 || n == 0x2029 || n == 0x202f || n == 0x205f ||
    n == 0x3000

/-- The rune is a character with the White_Space property. -/
def Rune.isBlank (r : Rune) : Bool :=
  r.char.any isBlankChar

/-- The text without white space at its ends. -/
def trimBlanks (s : Bytes) : Bytes :=
  let front := (runes s).dropWhile Rune.isBlank
  unrunes (front.reverse.dropWhile Rune.isBlank).reverse

/-- Cuts runes into words at white space; `word` holds the runes of the word before, the last one
first. -/
def wordsFrom (word : List Rune) : List Rune → List Bytes
  | [] => if word.isEmpty then [] else [unrunes word.reverse]
  | r :: rs =>
    if r.isBlank then
      if word.isEmpty then wordsFrom [] rs else unrunes word.reverse :: wordsFrom [] rs
    else
      wordsFrom (r :: word) rs

/-- The words of a text: its longest parts without white space. -/
def blankWords (s : Bytes) : List Bytes :=
  wordsFrom [] (runes s)

end PrefixForth
