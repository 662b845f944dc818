import PrefixForth.Text.Blank

/-!
# Lines of nested text

Lines end with a carriage return, a line feed, or both. A line that is blank, or whose first sign is
`#`, does not count. The blanks at the start of every other line are its indentation, and what
follows says what the line is for:

* `- value` and `-` are items of a list;
* `> text` and `>` are lines of a text;
* `: key` and `:` are lines of a key;
* a line that starts with `[` or `{` is a value of its own;
* `key: value` and `key:` are entries of a dictionary. The key ends at the first colon that a blank
  or the end of the line follows, and is trimmed.

Where a mark is followed by a blank and then by nothing, a line feed stands for what is missing.
-/

namespace PrefixForth

/-- What a line is for. -/
inductive LineContent where
  | item (value : Option Bytes)
  | text (s : Bytes)
  | key (s : Bytes)
  | value (s : Bytes)
  | entry (key : Bytes) (value : Option Bytes)
  deriving DecidableEq, Repr

/-- A line that counts. -/
structure Line where
  indentation : Nat
  content : LineContent
  deriving DecidableEq, Repr

/-- Carriage return. -/
def carriageReturn : UInt8 := 13

/-- The sign that a remark starts with. -/
def remarkMark : UInt8 := 35

/-- The mark of an item. -/
def itemMark : UInt8 := 45

/-- The mark after a key, and before a line of a key. -/
def keyMark : UInt8 := 58

/-- The mark of a line of text. -/
def textMark : UInt8 := 62

/-- The bracket that a list on one line starts with. -/
def openBracket : UInt8 := 91

/-- The brace that a dictionary on one line starts with. -/
def openBrace : UInt8 := 123

/-- The lines of a text: one more than there are line ends. -/
def splitLines : Bytes → List Bytes
  | [] => [[]]
  | b :: s =>
    if b = lineFeed ∨ (b = carriageReturn ∧ s.head? ≠ some lineFeed) then
      [] :: splitLines s
    else if b = carriageReturn then
      splitLines s
    else
      match splitLines s with
      | [] => [[b]]
      | line :: lines => (b :: line) :: lines

namespace Line

/-- The signs of a line from the first one on that is no white space. -/
def significant (s : Bytes) : Bytes :=
  s.dropWhile fun b => b = blank || (9 ≤ b && b ≤ 13 && b ≠ 11)

/-- The line counts. -/
def counts (s : Bytes) : Bool :=
  match significant s with
  | [] => false
  | b :: _ => b ≠ remarkMark

/-- What follows a mark: nothing, or a blank and a text. Anything else means that there was no
mark. -/
def afterMark? : Bytes → Option (Option Bytes)
  | [] => some none
  | b :: s => if b = blank then some (some (if s = [] then [lineFeed] else s)) else none

/-- Key and value of an entry, the key as it stands. -/
def splitKey? : Bytes → Option (Bytes × Option Bytes)
  | [] => none
  | b :: s =>
    match b == keyMark, afterMark? s with
    | true, some value => some ([], value)
    | _, _ => (splitKey? s).map fun (key, value) => (b :: key, value)

/-- What a line is for, by its text after the indentation. -/
def content? (s : Bytes) : Option LineContent :=
  match s with
  | [] => none
  | b :: rest =>
    if b = openBracket ∨ b = openBrace then
      some (.value s)
    else
      match b == itemMark, b == textMark, b == keyMark, afterMark? rest with
      | true, _, _, some value => some (.item value)
      | _, true, _, some value => some (.text (value.getD []))
      | _, _, true, some value => some (.key (value.getD []))
      | _, _, _, _ => (splitKey? s).map fun (key, value) => .entry (trimBlanks key) value

/-- A line that counts, by its text. -/
def ofBytes? (s : Bytes) : Option Line :=
  let indentation := s.takeWhile (· = blank)
  (content? (s.drop indentation.length)).map fun c => ⟨indentation.length, c⟩

/-- The lines of a text that count, if all of them are lines of the format. -/
def readAll? (s : Bytes) : Option (List Line) :=
  ((splitLines s).filter counts).mapM ofBytes?

end Line

end PrefixForth
