import PrefixForth.ValueType

/-!
# The Forth vocabulary

The words of Forth that programs are made of, and the operators of the source language that they
stand for. Integers and truth values take one cell of the data stack, strings take two, and reals
live on a stack of their own, so most operations have a word for each kind of operand.
-/

namespace PrefixForth

/-! ### Operators -/

/-- Arithmetic on two numbers. -/
inductive Arithmetic where
  | add
  | sub
  | mul
  | div
  | mod
  | pow
  deriving DecidableEq, Repr

/-- Comparison of two numbers. -/
inductive Comparison where
  | eq
  | ne
  | lt
  | gt
  | le
  | ge
  deriving DecidableEq, Repr

/-- Connection of two truth values. -/
inductive Connective where
  | and
  | or
  deriving DecidableEq, Repr

/-- A trigonometric function. -/
inductive Trigonometric where
  | sin
  | cos
  | tan
  deriving DecidableEq, Repr

/-- An operator with two operands. -/
inductive BinaryOperator where
  | arithmetic (op : Arithmetic)
  | comparison (op : Comparison)
  | connective (op : Connective)
  deriving DecidableEq, Repr

/-- An operator with one operand. -/
inductive UnaryOperator where
  | not
  | negate
  | trigonometric (op : Trigonometric)
  deriving DecidableEq, Repr

/-- The spellings of the operators with two operands. Equality has two. -/
def binarySpellings : List (Bytes × BinaryOperator) := [
  (utf8 "+", .arithmetic .add),
  (utf8 "-", .arithmetic .sub),
  (utf8 "*", .arithmetic .mul),
  (utf8 "/", .arithmetic .div),
  (utf8 "%", .arithmetic .mod),
  (utf8 "^", .arithmetic .pow),
  (utf8 "==", .comparison .eq),
  (utf8 "=", .comparison .eq),
  (utf8 "!=", .comparison .ne),
  (utf8 "<", .comparison .lt),
  (utf8 ">", .comparison .gt),
  (utf8 "<=", .comparison .le),
  (utf8 ">=", .comparison .ge),
  (utf8 "and", .connective .and),
  (utf8 "or", .connective .or)]

/-- The spellings of the operators with one operand. -/
def unarySpellings : List (Bytes × UnaryOperator) := [
  (utf8 "not", .not),
  (utf8 "-", .negate),
  (utf8 "sin", .trigonometric .sin),
  (utf8 "cos", .trigonometric .cos),
  (utf8 "tan", .trigonometric .tan)]

/-- The operator with two operands that is spelled in a given way. -/
def BinaryOperator.ofSpelling? (s : Bytes) : Option BinaryOperator :=
  binarySpellings.lookup s

/-- The operator with one operand that is spelled in a given way. -/
def UnaryOperator.ofSpelling? (s : Bytes) : Option UnaryOperator :=
  unarySpellings.lookup s

/-! ### Words -/

/-- How a variable is kept: in one cell, as a float, or in a pair of cells. -/
inductive Storage where
  | cell
  | float
  | pair
  deriving DecidableEq, Repr

/-- How variables of a type are kept. -/
def ValueType.storage? : ValueType → Option Storage
  | int | bool => some .cell
  | real => some .float
  | string => some .pair
  | _ => none

/-- The word that defines a variable. -/
def Storage.definer : Storage → Bytes
  | cell => utf8 "variable"
  | float => utf8 "fvariable"
  | pair => utf8 "2variable"

/-- A word of Forth that does something by itself. -/
inductive Word where
  /-- Replaces the address on the stack by the contents of the variable. -/
  | fetch (s : Storage)
  /-- Takes an address and a value off the stacks and stores the value there. -/
  | store (s : Storage)
  /-- Doubles the topmost value. -/
  | dup (s : Storage)
  | swap
  /-- Puts a copy of the second value on top of the first. -/
  | dupSecond
  /-- Drops the second value. -/
  | nip
  | int (op : Arithmetic)
  | intCompare (op : Comparison)
  | negate
  | logic (op : Connective)
  | invert
  | float (op : Arithmetic)
  | floatCompare (op : Comparison)
  | floatNegate
  | trigonometric (op : Trigonometric)
  /-- Moves an integer to the stack of reals. -/
  | intToFloat
  | concat
  | printCell
  | printFloat
  | printString
  /-- Starts a new line of output. -/
  | newLine
  deriving DecidableEq, Repr

/-- The word for arithmetic on integers. The word for powers is defined at the start of a program. -/
def Arithmetic.intWord : Arithmetic → Bytes
  | add => utf8 "+"
  | sub => utf8 "-"
  | mul => utf8 "*"
  | div => utf8 "/"
  | mod => utf8 "mod"
  | pow => utf8 "^"

/-- The word for arithmetic on reals. -/
def Arithmetic.floatWord : Arithmetic → Bytes
  | add => utf8 "f+"
  | sub => utf8 "f-"
  | mul => utf8 "f*"
  | div => utf8 "f/"
  | mod => utf8 "fmod"
  | pow => utf8 "f**"

/-- The word that compares integers. -/
def Comparison.intWord : Comparison → Bytes
  | eq => utf8 "="
  | ne => utf8 "<>"
  | lt => utf8 "<"
  | gt => utf8 ">"
  | le => utf8 "<="
  | ge => utf8 ">="

/-- The word that compares reals. -/
def Comparison.floatWord (op : Comparison) : Bytes :=
  utf8 "f" ++ op.intWord

/-- The word that connects truth values. -/
def Connective.word : Connective → Bytes
  | and => utf8 "and"
  | or => utf8 "or"

/-- The word for a trigonometric function. -/
def Trigonometric.word : Trigonometric → Bytes
  | sin => utf8 "fsin"
  | cos => utf8 "fcos"
  | tan => utf8 "ftan"

/-- How a word is written. -/
def Word.text : Word → Bytes
  | fetch .cell => utf8 "@"
  | fetch .float => utf8 "f@"
  | fetch .pair => utf8 "2@"
  | store .cell => utf8 "!"
  | store .float => utf8 "f!"
  | store .pair => utf8 "2!"
  | dup .cell => utf8 "dup"
  | dup .float => utf8 "fdup"
  | dup .pair => utf8 "2dup"
  | swap => utf8 "swap"
  | dupSecond => utf8 "over"
  | nip => utf8 "nip"
  | int op => op.intWord
  | intCompare op => op.intWord
  | negate => utf8 "negate"
  | logic op => op.word
  | invert => utf8 "invert"
  | float op => op.floatWord
  | floatCompare op => op.floatWord
  | floatNegate => utf8 "fnegate"
  | trigonometric op => op.word
  | intToFloat => utf8 "s>f"
  | concat => utf8 "s+"
  | printCell => utf8 "."
  | printFloat => utf8 "f."
  | printString => utf8 "type"
  | newLine => utf8 "CR"

/-- The word that prints a value of a type. -/
def ValueType.printWord? : ValueType → Option Word
  | int | bool => some .printCell
  | real => some .printFloat
  | string => some .printString
  | _ => none

end PrefixForth
