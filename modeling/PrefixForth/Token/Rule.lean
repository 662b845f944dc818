import PrefixForth.Fault.Lexical
import PrefixForth.Token
import PrefixForth.Token.Pattern

/-!
# The lexical rules

The language's tokens are given by an ordered list of rules, each a pattern with what is to be done
with a text of it. Where several rules match, the longest match counts, and among those of equal
length the rule that stands first.

Malformed numerals and unterminated strings have rules of their own; each matches more than any
well-formed part of it does.
-/

namespace PrefixForth

/-- What is to be done with a matched text. -/
inductive LexicalAction where
  /-- It is dropped. -/
  | skip
  /-- It is a token of the kind. -/
  | token (kind : TokenKind)
  /-- It is a reserved word or an identifier. -/
  | word
  /-- It is a malformed numeral. -/
  | malformed (fault : NumeralFault)
  /-- It is a string literal without its end. -/
  | unterminated
  deriving DecidableEq, Repr

/-- A pattern and what is to be done with its texts. -/
structure LexicalRule where
  pattern : Pattern
  action : LexicalAction

/-! ### Classes of bytes -/

/-- The bytes that may stand between tokens: blank, tab, line feed, carriage return. -/
def isBlankByte (b : UInt8) : Bool :=
  b == 32 || b == 9 || b == 10 || b == 13

/-- The decimal digits. -/
def isDigitByte (b : UInt8) : Bool :=
  48 ≤ b && b ≤ 57

/-- The bytes that a word may start with: ASCII letters and the underscore. -/
def isLetterByte (b : UInt8) : Bool :=
  (97 ≤ b && b ≤ 122) || (65 ≤ b && b ≤ 90) || b == 95

/-! ### The patterns -/

namespace LexicalRule

open Pattern

/-- One digit. -/
def digit : Pattern := oneOf isDigitByte

/-- The radix point. -/
def point : Pattern := byte 46

/-- A radix point and the digits after it, or nothing. -/
def fraction : Pattern :=
  optional (seq point (many digit))

/-- The exponent mark and an optional sign. -/
def exponent : Pattern :=
  seq (byte 101) (optional (alt (byte 43) (byte 45)))

/-- A string literal up to its closing quote: any bytes but quotes and backslashes, and pairs of a
backslash and any byte. -/
def openString : Pattern :=
  seq (byte quoteMark)
    (many (alt (oneOf fun b => b != quoteMark && b != backslash)
      (seq (byte backslash) (oneOf fun _ => true))))

end LexicalRule

open Pattern LexicalRule in
/-- The rules of the language, in the order in which they count. -/
def lexicalRules : List LexicalRule := [
  ⟨some (oneOf isBlankByte), .skip⟩,
  ⟨literal (utf8 "("), .token .openParen⟩,
  ⟨literal (utf8 ")"), .token .closeParen⟩,
  ⟨literal (utf8 ":="), .token .assignment⟩,
  ⟨anyOf [literal (utf8 "+"), literal (utf8 "*"), literal (utf8 "/"), literal (utf8 "%"),
    literal (utf8 "^")], .token .binaryOperator⟩,
  ⟨literal (utf8 "-"), .token .minus⟩,
  ⟨anyOf [literal (utf8 ">"), literal (utf8 "<"), literal (utf8 "="), literal (utf8 ">="),
    literal (utf8 "<="), literal (utf8 "=="), literal (utf8 "!=")], .token .binaryOperator⟩,
  ⟨some digit, .token .intLiteral⟩,
  ⟨sequence [some digit, point, many digit], .token .realLiteral⟩,
  ⟨sequence [some digit, fraction, exponent, some digit], .token .realLiteral⟩,
  ⟨sequence [some digit, point, many digit, point, many (alt digit point)],
    .malformed .secondPoint⟩,
  ⟨sequence [some digit, fraction, exponent], .malformed .noExponent⟩,
  ⟨seq point (many digit), .malformed .noLeadingDigit⟩,
  ⟨seq openString (byte quoteMark), .token .stringLiteral⟩,
  ⟨openString, .unterminated⟩,
  ⟨seq (oneOf isLetterByte) (many (oneOf fun b => isLetterByte b || isDigitByte b)), .word⟩]

/-- The rule that counts for the start of a text, with the length of its match: the longest
non-empty match, and the first rule among several. -/
def bestMatch : List LexicalRule → Bytes → Option (LexicalRule × Nat)
  | [], _ => none
  | r :: rs, s =>
    match r.pattern.longest s, bestMatch rs s with
    | some (n + 1), some (r', m) => if m ≤ n + 1 then some (r, n + 1) else some (r', m)
    | some (n + 1), none => some (r, n + 1)
    | _, best => best

/-- A match that counts is not empty. -/
theorem pos_of_bestMatch {rs : List LexicalRule} {s : Bytes} {r : LexicalRule} {n : Nat}
    (h : bestMatch rs s = some (r, n)) : 0 < n := by
  induction rs generalizing r n with
  | nil => cases h
  | cons r' rs ih =>
    rw [bestMatch] at h
    split at h
    · rename_i hbest
      split at h
      · cases h
        exact Nat.succ_pos _
      · cases h
        exact ih hbest
    · cases h
      exact Nat.succ_pos _
    · exact ih h

/-- A match that counts does not reach beyond the end of the text. -/
theorem length_of_bestMatch {rs : List LexicalRule} {s : Bytes} {r : LexicalRule} {n : Nat}
    (h : bestMatch rs s = some (r, n)) : n ≤ s.length := by
  induction rs generalizing r n with
  | nil => cases h
  | cons r' rs ih =>
    rw [bestMatch] at h
    split at h
    · rename_i hlong hbest
      split at h
      · cases h
        exact Pattern.length_of_longest hlong
      · cases h
        exact ih hbest
    · rename_i hlong _
      cases h
      exact Pattern.length_of_longest hlong
    · exact ih h

end PrefixForth
