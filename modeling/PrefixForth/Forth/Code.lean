import PrefixForth.Forth.Word

/-!
# Forth code

Code is a list of instructions: literals, names of variables, words, and the control structures with
the code inside them. It is a program for a machine first and a text second; `Code.text` writes it
with one blank between any two instructions.

Code whose text is empty is left out when code is joined (`Code.join`).
-/

namespace PrefixForth

/-- One instruction of Forth. -/
inductive Instruction where
  /-- An integer, by its numeral. -/
  | int (numeral : Bytes)
  /-- A real, by its numeral, which has an exponent mark. -/
  | real (numeral : Bytes)
  /-- A truth value, by its name. -/
  | flag (name : Bytes)
  /-- A string, by what stands between its quotes. -/
  | string (body : Bytes)
  /-- The address of a variable. -/
  | name (x : Bytes)
  /-- The definition of a variable. -/
  | define (s : Storage) (x : Bytes)
  | word (w : Word)
  /-- Runs the code if the topmost flag is true. -/
  | choose (onTrue : List Instruction)
  /-- Runs one of the codes, as the topmost flag says. -/
  | chooseElse (onTrue onFalse : List Instruction)
  /-- Runs the test and then the body, as long as the test leaves a true flag. -/
  | loop (test body : List Instruction)
  /-- Takes a start and a limit off the stack and runs the body once for each number from the start
  up to the limit, which is not reached. -/
  | count (body : List Instruction)
  deriving Repr

/-- Instructions in order. -/
abbrev Code := List Instruction

/-- The string instruction as it is written. A string with a backslash needs the word that knows
about escapes. -/
def stringText (body : Bytes) : Bytes :=
  utf8 (if backslash ∈ body then "s\\\" " else "s\" ") ++ body ++ [quoteMark]

mutual

/-- An instruction as it is written. -/
def Instruction.text : Instruction → Bytes
  | .int numeral => numeral
  | .real numeral => numeral
  | .flag name => name
  | .string body => stringText body
  | .name x => x
  | .define s x => joinWords [s.definer, x]
  | .word w => w.text
  | .choose onTrue => joinWords [utf8 "if", spaced (Code.texts onTrue), utf8 "endif"]
  | .chooseElse onTrue onFalse =>
    joinWords [utf8 "if", spaced (Code.texts onTrue), utf8 "else", spaced (Code.texts onFalse),
      utf8 "endif"]
  | .loop test body =>
    joinWords [utf8 "begin", spaced (Code.texts test), utf8 "while", spaced (Code.texts body),
      utf8 "repeat"]
  | .count body => joinWords [utf8 "u+do", spaced (Code.texts body), utf8 "loop"]

/-- The instructions as they are written, one by one. -/
def Code.texts : List Instruction → List Bytes
  | [] => []
  | i :: is => i.text :: Code.texts is

end

namespace Code

/-- Code as it is written. -/
def text (c : Code) : Bytes :=
  spaced (texts c)

/-- The text of the code is empty: there is no instruction, or a single one without text. -/
def isBlank : Code → Bool
  | [] => true
  | [.int s] | [.real s] | [.flag s] | [.name s] => s.isEmpty
  | _ => false

/-- The codes in order, without the blank ones. -/
def join (cs : List Code) : Code :=
  (cs.filter fun c => !isBlank c).flatten

end Code

/-- The definition of a new word. -/
structure Definition where
  name : Bytes
  body : Code
  deriving Repr

/-- A definition as it is written. -/
def Definition.text (d : Definition) : Bytes :=
  spaced [utf8 ":", d.name, d.body.text, utf8 ";"]

/-- Powers of integers: with a base and an exponent on the stack, multiplies 1 by the base as often
as the exponent says. -/
def powerDefinition : Definition :=
  ⟨utf8 "^",
    [.int (utf8 "1"), .word .swap, .int (utf8 "0"), .count [.word .dupSecond, .word (.int .mul)],
      .word .nip]⟩

/-- What stands before the first form of every program. -/
def preamble : Bytes :=
  powerDefinition.text ++ [lineFeed, lineFeed]

end PrefixForth
