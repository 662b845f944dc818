import PrefixForth.BoxTable
import PrefixForth.Fault
import PrefixForth.SymbolTable
import PrefixForth.Text.Colour

/-!
# Showing results

What a user is shown: a text with a line feed, a message in red, or a table. Tokens and symbols are
shown as tables.
-/

namespace PrefixForth

/-- Something to be shown. -/
inductive Item where
  | nothing
  | text (s : Bytes)
  | message (s : Bytes)
  | table (t : BoxTable)
  /-- Something that has no form of its own, by the name of its type. -/
  | other (typeName : Bytes)
  deriving DecidableEq, Repr

/-- An item as it is shown; nothing is not shown at all. -/
def Item.shown? : Item → Option Bytes
  | nothing => none
  | text s => some (s ++ [lineFeed])
  | message s => some (Colour.red.paint (utf8 "▶ " ++ s ++ [lineFeed]))
  | table t => some (t.draw ++ [lineFeed])
  | other typeName => some (utf8 "▶ object of type " ++ typeName ++ [lineFeed])

/-- An item as it is shown. -/
def Item.shown (i : Item) : Bytes :=
  i.shown?.getD []

/-- The table of some tokens. -/
def tokenTable (ts : List Token) : BoxTable where
  title := decimal ts.length ++ utf8 " tokens"
  header := [utf8 "KIND", utf8 "LEXEME", utf8 "POSITION"]
  rows := ts.map fun t => [t.kind.name, t.text, t.position.text]

/-- The table of the entries of a symbol table. -/
def symbolBox (t : SymbolTable) : BoxTable where
  title := decimal t.size ++ utf8 " symbols"
  header := [utf8 "IDENTIFIER", utf8 "TYPE", utf8 "ASSIGNED"]
  rows := t.entries.map fun e => [e.name, e.type.name, utf8 (if e.assigned then "yes" else "–")]

/-- A fault as it is shown. -/
def Item.ofFault (f : Fault) : Item :=
  .message f.message

/-- The outcome of a compilation as it is shown. -/
def Item.ofResult : Except Fault Bytes → Item
  | .ok target => .text target
  | .error fault => .ofFault fault

end PrefixForth
