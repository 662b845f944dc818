import PrefixForth.NestedText.Reader

/-!
# The settings file

Settings are kept in a file of nested text: a dictionary, of which the command looks at a few keys. A
file that cannot be read, or that holds no dictionary, gives no settings.
-/

namespace PrefixForth

/-- The settings of a file. -/
structure Settings where
  values : NestedText := .dict []
  deriving Repr

namespace Settings

/-- The settings that a file with the given content holds. -/
def ofText (s : Bytes) : Settings :=
  ⟨(NestedText.ofText? s).getD (.dict [])⟩

/-- The value of a key as a text, if it is given. -/
def get? (s : Settings) (key : Bytes) : Option Bytes :=
  (s.values.get? key).map NestedText.shown

end Settings

end PrefixForth
