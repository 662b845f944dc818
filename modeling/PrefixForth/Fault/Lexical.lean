import PrefixForth.Fault.Report
import PrefixForth.Text.Quoted

/-!
# Lexical faults

Why a text cannot be cut into tokens.
-/

namespace PrefixForth

/-- How a numeral can be malformed. -/
inductive NumeralFault where
  | secondPoint
  | noExponent
  | noLeadingDigit
  deriving DecidableEq, Repr

/-- Why no token starts at some place of a text. -/
inductive LexicalFault where
  /-- No token starts with this character. -/
  | unrecognized (c : Char)
  /-- The lexeme looks like a numeral and is none. -/
  | numeral (fault : NumeralFault) (lexeme : Bytes)
  /-- The lexeme is a string literal without its closing quote. -/
  | unterminated (lexeme : Bytes)
  /-- No token starts at a place with no character to show. -/
  | unrecognizedInput
  /-- The matching engine failed in a way of its own. -/
  | engine (message : Bytes)
  deriving DecidableEq, Repr

/-- What is wrong with a numeral, in words. -/
def NumeralFault.text : NumeralFault → Bytes
  | secondPoint => utf8 "numeral with more than one radix point"
  | noExponent => utf8 "exponent without digits"
  | noLeadingDigit => utf8 "numeral without leading digits"

namespace LexicalFault

/-- The class of a lexical fault. -/
def reason : LexicalFault → Reason
  | unrecognized _ => .unrecognizedCharacter
  | numeral _ _ => .malformedNumeral
  | unterminated _ => .unterminatedString
  | unrecognizedInput | engine _ => .unrecognizedCharacter

/-- A lexical fault in words. -/
def text : LexicalFault → Bytes
  | unrecognized c => utf8 "unrecognized character " ++ quotedChar c
  | numeral fault lexeme => fault.text ++ utf8 ": " ++ lexeme
  | unterminated lexeme => utf8 "string literal not terminated: " ++ lexeme
  | unrecognizedInput => utf8 "unrecognized input"
  | engine message => message

end LexicalFault

end PrefixForth
