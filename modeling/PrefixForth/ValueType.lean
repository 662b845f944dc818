import PrefixForth.Text.Bytes

/-!
# Value types

Every expression has a type. `unbound` marks a name that has not been declared and `void` a form
that leaves no value. Types beyond these six are carried along by number: no text declares a name
with one, but a symbol table may be prepared by hand.
-/

namespace PrefixForth

/-- The type of a name or of the value of a form. -/
inductive ValueType where
  | unbound
  | int
  | real
  | bool
  | string
  | void
  /-- The type with code `index + 6`. -/
  | other (index : Nat)
  deriving DecidableEq, Repr, Inhabited

namespace ValueType

/-- The type with a given code. -/
def ofCode : Nat → ValueType
  | 0 => unbound
  | 1 => int
  | 2 => real
  | 3 => bool
  | 4 => string
  | 5 => void
  | n + 6 => other n

/-- The name of a type in messages and tables. -/
def name : ValueType → Bytes
  | unbound => utf8 "unbound"
  | int => utf8 "int"
  | real => utf8 "real"
  | bool => utf8 "bool"
  | string => utf8 "string"
  | void => utf8 "void"
  | other index => utf8 "ValueType(" ++ decimal (index + 6) ++ utf8 ")"

/-- The type with a given name, among those with a name of their own. -/
def ofName? (s : Bytes) : Option ValueType :=
  [unbound, int, real, bool, string, void].find? (·.name = s)

/-- The type that a keyword of the language stands for. -/
def ofKeyword? (s : Bytes) : Option ValueType :=
  [int, real, bool, string].find? (·.name = s)

/-- The types of numbers. -/
def isNumeric : ValueType → Bool
  | int | real => true
  | _ => false

/-- A form of this type leaves a value. -/
def hasValue : ValueType → Bool
  | unbound | void => false
  | _ => true

/-- Some text marked with its type. -/
def annotate (t : ValueType) (s : Bytes) : Bytes :=
  utf8 "⟨" ++ t.name ++ utf8 ": " ++ s ++ utf8 "⟩"

end ValueType

end PrefixForth
