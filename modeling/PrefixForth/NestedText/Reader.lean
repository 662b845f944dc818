import PrefixForth.NestedText.Inline

/-!
# Reading nested text

The lines of a document are nested by their indentation. The lines of a block all have the same
indentation, and what is indented more belongs to the line before it. A block is a text, a list, a
dictionary or a single value on one line, and its lines are all of one kind:

* an item or an entry without a value of its own takes its value from the block that belongs to it;
  if there is none, its value is the empty text;
* the lines of a key that follow each other are one key, up to the first that has a block. The block
  holds the value; if none of them has one, the value is the empty text;
* no other line has a block.

A document that breaks these rules has no value at all.
-/

namespace PrefixForth

/-- A line of a block and the lines that belong to it. -/
structure Section where
  content : LineContent
  nested : List Line
  deriving DecidableEq, Repr

/-- Cuts lines into the sections of a block with a given indentation; the first component has the
lines that come before its first line. -/
def sections (indentation : Nat) : List Line → Option (List Line × List Section)
  | [] => some ([], [])
  | line :: lines =>
    match sections indentation lines with
    | none => none
    | some (nested, rest) =>
      if indentation < line.indentation then some (line :: nested, rest)
      else if line.indentation = indentation then some ([], ⟨line.content, nested⟩ :: rest)
      else none

namespace NestedText

/-- The line of a text that a section holds. -/
def textLine? (c : Section) : Option Bytes :=
  match c with
  | ⟨.text s, []⟩ => some s
  | _ => none

/-- The value of a line that may have a value of its own or a block, but not both. -/
def valueOf? (read : List Line → Option NestedText) (value : Option Bytes) (nested : List Line) :
    Option NestedText :=
  match value, nested with
  | some s, [] => some (.text s)
  | some _, _ :: _ => none
  | none, [] => some (.text [])
  | none, line :: lines => read (line :: lines)

/-- The item of a list that a section holds. -/
def itemOf? (read : List Line → Option NestedText) (c : Section) : Option NestedText :=
  match c.content with
  | .item value => valueOf? read value c.nested
  | _ => none

/-- The entry of a key without a block, given by its lines: none, if there are no lines. -/
def emptyEntry (key : List Bytes) : List (Bytes × NestedText) :=
  if key = [] then [] else [([lineFeed].intercalate key, .text [])]

/-- The entries of a dictionary that some sections hold; `key` has the lines of a key that come
before them and have no block. -/
def entriesOf? (read : List Line → Option NestedText) (key : List Bytes) :
    List Section → Option (List (Bytes × NestedText))
  | [] => some (emptyEntry key)
  | c :: cs =>
    match c.content, c.nested with
    | .key s, [] => entriesOf? read (key ++ [s]) cs
    | .key s, line :: lines => do
      let v ← read (line :: lines)
      let entries ← entriesOf? read [] cs
      pure (([lineFeed].intercalate (key ++ [s]), v) :: entries)
    | .entry name value, nested => do
      let v ← valueOf? read value nested
      let entries ← entriesOf? read [] cs
      pure (emptyEntry key ++ (name, v) :: entries)
    | _, _ => none

/-- The value of a block. No block is nested deeper than it has lines. -/
def ofBlock? : Nat → List Line → Option NestedText
  | 0, _ => none
  | _, [] => none
  | depth + 1, first :: rest => do
    let (_, cs) ← sections first.indentation (first :: rest)
    match first.content with
    | .text _ => pure (.text ([lineFeed].intercalate (← cs.mapM textLine?)))
    | .item _ => pure (.list (← cs.mapM (itemOf? (ofBlock? depth))))
    | .key _ | .entry _ _ => pure (ofEntries (← entriesOf? (ofBlock? depth) [] cs))
    | .value s => if rest = [] then ofLine? s else none

/-- The value of a document. Nothing may be indented at the top, and a document without lines is the
empty dictionary. -/
def ofText? (s : Bytes) : Option NestedText :=
  match Line.readAll? s with
  | none => none
  | some [] => some (.dict [])
  | some (first :: rest) =>
    if first.indentation = 0 then ofBlock? (rest.length + 1) (first :: rest) else none

end NestedText

end PrefixForth
