import PrefixForth.Text.Bytes

/-!
# Positions in a text

Lines are counted from 1 and columns count bytes from 1; a line feed ends its line. A position whose
line is not positive is *unknown*: trees that were not read from a text carry such positions.
-/

namespace PrefixForth

/-- A place in a text. -/
structure Position where
  line : Int
  column : Int
  deriving DecidableEq, Repr, Inhabited

namespace Position

/-- The position of a token that no text holds. -/
def unknown : Position := ⟨0, 0⟩

/-- The position of the first byte of a text. -/
def start : Position := ⟨1, 1⟩

/-- A position is known when its line is positive. -/
def isKnown (p : Position) : Bool :=
  0 < p.line

/-- The position of the byte after the byte `b` that stands at `p`. -/
def after (p : Position) (b : UInt8) : Position :=
  if b = lineFeed then ⟨p.line + 1, 1⟩ else ⟨p.line, p.column + 1⟩

/-- The position of the byte after the text `s` that starts at `p`. -/
def afterAll (p : Position) (s : Bytes) : Position :=
  s.foldl after p

/-- Line and column with a colon between them, or a question mark if the position is unknown. -/
def text (p : Position) : Bytes :=
  if p.isKnown then
    decimal p.line ++ utf8 ":" ++ decimal p.column
  else
    utf8 "?"

@[simp]
theorem afterAll_nil (p : Position) : p.afterAll [] = p := rfl

@[simp]
theorem afterAll_cons (p : Position) (b : UInt8) (s : Bytes) :
    p.afterAll (b :: s) = (p.after b).afterAll s := rfl

theorem afterAll_append (p : Position) (s t : Bytes) :
    p.afterAll (s ++ t) = (p.afterAll s).afterAll t :=
  List.foldl_append

end Position

end PrefixForth
