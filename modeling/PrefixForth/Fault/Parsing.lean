import PrefixForth.Fault.Report
import PrefixForth.Token

/-!
# Parsing faults

Why a sequence of tokens is not a sequence of forms. Most faults name the token that was found
instead of an expected one.
-/

namespace PrefixForth

/-- Why a sequence of tokens is not a sequence of forms. -/
inductive ParsingFault where
  /-- The form opened at a position is not closed where another token stands. -/
  | notClosed (opened : Position) (found : Token)
  /-- A token stands where no form is open. -/
  | notOpened (found : Token)
  | notTopLevel (found : Token)
  | notForm (found : Token)
  | emptyForm
  | badHead (found : Token)
  | unknownStatement (word : Bytes)
  | badTarget (found : Token)
  | missingOperand
  | badOperand (found : Token)
  | minusOperands (count : Nat)
  | badBinding (found : Token)
  | badBindingName (found : Token)
  | badBindingType (name : Bytes) (found : Token)
  | noBindings
  deriving DecidableEq, Repr

namespace ParsingFault

/-- The class of a parsing fault. -/
def reason : ParsingFault → Reason
  | notClosed _ _ | notOpened _ => .mismatchedParenthesis
  | missingOperand | minusOperands _ | noBindings => .operandCount
  | _ => .badForm

/-- A parsing fault in words. -/
def text : ParsingFault → Bytes
  | notClosed opened found =>
    utf8 "mismatched parenthesis: form opened at " ++ opened.text ++ utf8 " not closed, have " ++
      found.shown
  | notOpened found => utf8 "mismatched parenthesis at " ++ found.shown
  | notTopLevel found => utf8 "expected '(' to start a top-level form, have " ++ found.shown
  | notForm found => utf8 "expected '(', have " ++ found.shown
  | emptyForm => utf8 "empty form"
  | badHead found => found.shown ++ utf8 " cannot start a form"
  | unknownStatement word => utf8 "unrecognized statement " ++ quoted word
  | badTarget found => utf8 ":= must be followed by an identifier, have " ++ found.shown
  | missingOperand => utf8 "operand missing before ')'"
  | badOperand found => found.shown ++ utf8 " is not a valid operand"
  | minusOperands count => utf8 "'-' takes one or two operands, have " ++ decimal count
  | badBinding found => utf8 "let expects (identifier type) pairs, have " ++ found.shown
  | badBindingName found =>
    utf8 "let binding must start with an identifier, have " ++ found.shown
  | badBindingType name found =>
    utf8 "let binding for " ++ quoted name ++ utf8 " needs a type, have " ++ found.shown
  | noBindings => utf8 "let without bindings"

end ParsingFault

end PrefixForth
