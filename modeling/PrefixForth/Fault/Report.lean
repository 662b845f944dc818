import PrefixForth.Position

/-!
# Reports

What a user is told about a text that does not compile: the stage that found the fault, the reason
as one of twelve classes, a text, and for the first two stages a position.
-/

namespace PrefixForth

/-- The stages of a compilation, in order. -/
inductive Stage where
  | lexer
  | parser
  | semantic
  deriving DecidableEq, Repr

namespace Stage

/-- The name of a stage. -/
def name : Stage → Bytes
  | lexer => utf8 "lexer"
  | parser => utf8 "parser"
  | semantic => utf8 "semantic"

/-- The stage with a given number. -/
def ofCode? (code : Int) : Option Stage :=
  if code = 0 then some lexer
  else if code = 1 then some parser
  else if code = 2 then some semantic
  else none

/-- The name of the stage with a given number, if there is one. -/
def nameOfCode (code : Int) : Bytes :=
  ((ofCode? code).map name).getD (utf8 "unknown")

end Stage

/-- Why a text does not compile. -/
inductive Reason where
  | unrecognizedCharacter
  | malformedNumeral
  | unterminatedString
  | mismatchedParenthesis
  | badForm
  | operandCount
  | unboundName
  | readBeforeAssignment
  | alreadyDeclared
  | operandType
  | notBoolean
  | noValue
  deriving DecidableEq, Repr

namespace Reason

/-- All reasons. -/
def all : List Reason :=
  [unrecognizedCharacter, malformedNumeral, unterminatedString, mismatchedParenthesis, badForm,
    operandCount, unboundName, readBeforeAssignment, alreadyDeclared, operandType, notBoolean,
    noValue]

/-- The words for a reason. -/
def text : Reason → Bytes
  | unrecognizedCharacter => utf8 "unrecognized character"
  | malformedNumeral => utf8 "malformed numeral"
  | unterminatedString => utf8 "unterminated string"
  | mismatchedParenthesis => utf8 "mismatched parenthesis"
  | badForm => utf8 "syntax error"
  | operandCount => utf8 "wrong number of operands"
  | unboundName => utf8 "unbound identifier"
  | readBeforeAssignment => utf8 "identifier read before assignment"
  | alreadyDeclared => utf8 "identifier already declared"
  | operandType => utf8 "illegal operand type"
  | notBoolean => utf8 "predicate is not boolean"
  | noValue => utf8 "statement has no value"

/-- The reason with given words. -/
def ofText? (s : Bytes) : Option Reason :=
  all.find? (·.text = s)

end Reason

/-- What a user is told about a fault. -/
structure Report where
  stage : Stage
  reason : Reason
  text : Bytes
  /-- Where the fault is; reports of the semantic stage have no position. -/
  position : Position := .unknown
  deriving DecidableEq, Repr

/-- The full message of a report: the stage, where the fault is, and the text. -/
def Report.message (r : Report) : Bytes :=
  match r.stage with
  | .lexer => utf8 "lexer error on line " ++ decimal r.position.line ++ utf8 ": " ++ r.text
  | .parser =>
    if r.position.isKnown then
      utf8 "parser error at " ++ r.position.text ++ utf8 ": " ++ r.text
    else
      utf8 "parser error: " ++ r.text
  | .semantic => utf8 "semantic error: " ++ r.text

end PrefixForth
