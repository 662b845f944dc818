import PrefixForth.Text.Bytes

/-!
# Coloured text

Text is coloured by a terminal sequence before it and a reset after it. Where the text itself resets
the terminal, the colour is started again; a text that starts with a sequence of its own keeps it,
and a colour that would be reset at once is not started.
-/

namespace PrefixForth

/-- The colours in use. -/
inductive Colour where
  | red
  | green
  deriving DecidableEq, Repr

/-- The bytes that a terminal sequence starts with. -/
def sequenceStart : Bytes := utf8 "\x1b["

/-- The sequence that resets the terminal. -/
def resetSequence : Bytes := utf8 "\x1b[0m"

/-- The sequence that starts a colour. -/
def Colour.sequence : Colour → Bytes
  | red => utf8 "\x1b[31m"
  | green => utf8 "\x1b[32m"

/-- The text in a colour. -/
def Colour.paint (c : Colour) (s : Bytes) : Bytes :=
  let front := if sequenceStart.isPrefixOf s then [] else c.sequence
  let body := front ++ replaceAll resetSequence (resetSequence ++ c.sequence) s
  let closed := if resetSequence.isSuffixOf body then body else body ++ resetSequence
  replaceAll (c.sequence ++ resetSequence) [] closed

end PrefixForth
