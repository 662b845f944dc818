import PrefixForth.Fault.Lexical
import PrefixForth.Fault.Parsing
import PrefixForth.Fault.Semantic

/-!
# Faults

Why a text does not compile: the cause with its stage, and for the first two stages its position.
The wording is in `Fault.report` alone.
-/

namespace PrefixForth

/-- A lexical fault and where it is. -/
structure LexicalError where
  fault : LexicalFault
  position : Position
  deriving DecidableEq, Repr

/-- Why a text does not compile. -/
inductive Fault where
  | lexical (error : LexicalError)
  | parsing (fault : ParsingFault) (position : Position)
  | semantic (fault : SemanticFault)
  deriving DecidableEq, Repr

namespace Fault

/-- What a user is told about a fault. -/
def report : Fault → Report
  | lexical error => ⟨.lexer, error.fault.reason, error.fault.text, error.position⟩
  | parsing fault position => ⟨.parser, fault.reason, fault.text, position⟩
  | semantic fault => ⟨.semantic, fault.reason, fault.text, .unknown⟩

/-- The full message for a fault. -/
def message (f : Fault) : Bytes :=
  f.report.message

end Fault

end PrefixForth
