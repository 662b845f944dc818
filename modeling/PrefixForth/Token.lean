import PrefixForth.Position
import PrefixForth.Text.Quoted

/-!
# Tokens

A token is a piece of source text with its kind and position. The end of a text counts as a token of
its own kind, without text. Kinds beyond the fourteen of the language are carried along by number:
no text yields them, but trees may be put together by hand.
-/

namespace PrefixForth

/-- What a token is. -/
inductive TokenKind where
  | endOfInput
  | openParen
  | closeParen
  | assignment
  | binaryOperator
  | unaryOperator
  /-- A minus sign, before the number of its operands is known. -/
  | minus
  | intLiteral
  | realLiteral
  | stringLiteral
  | boolLiteral
  | statement
  | typeKeyword
  | identifier
  /-- A kind that the language does not have. -/
  | other (code : Int)
  deriving DecidableEq, Repr, Inhabited

namespace TokenKind

/-- The kinds of the language, in the order of their codes. -/
def known : List TokenKind :=
  [endOfInput, openParen, closeParen, assignment, binaryOperator, unaryOperator, minus, intLiteral,
    realLiteral, stringLiteral, boolLiteral, statement, typeKeyword, identifier]

/-- The kind with a given code. -/
def ofCode (code : Int) : TokenKind :=
  if code < 0 then
    other code
  else
    known.getD code.toNat (other code)

/-- The name of a kind in messages and tables. -/
def name : TokenKind → Bytes
  | endOfInput => utf8 "EOF"
  | openParen => utf8 "'('"
  | closeParen => utf8 "')'"
  | assignment => utf8 "assignment"
  | binaryOperator => utf8 "binary operator"
  | unaryOperator => utf8 "unary operator"
  | minus => utf8 "minus"
  | intLiteral => utf8 "int literal"
  | realLiteral => utf8 "real literal"
  | stringLiteral => utf8 "string literal"
  | boolLiteral => utf8 "bool literal"
  | statement => utf8 "statement"
  | typeKeyword => utf8 "type"
  | identifier => utf8 "identifier"
  | other code => utf8 "TokKind(" ++ decimal code ++ utf8 ")"

/-- The kind of the language with a given name. -/
def ofName? (s : Bytes) : Option TokenKind :=
  known.find? (·.name = s)

/-- The kinds of literals. -/
def isLiteral : TokenKind → Bool
  | intLiteral | realLiteral | stringLiteral | boolLiteral => true
  | _ => false

/-- The kinds of tokens that are an operand by themselves. -/
def isOperand (k : TokenKind) : Bool :=
  k.isLiteral || k = identifier

end TokenKind

/-- A piece of source text. -/
structure Token where
  kind : TokenKind
  text : Bytes
  position : Position := .unknown
  deriving DecidableEq, Repr, Inhabited

namespace Token

/-- The token that stands for the end of a text. -/
def atEnd (p : Position) : Token :=
  ⟨.endOfInput, [], p⟩

/-- How messages show a token: its kind and its quoted text, without its position. -/
def shown (t : Token) : Bytes :=
  if t.kind = .endOfInput then
    utf8 "<EOF>"
  else
    t.kind.name ++ utf8 " " ++ quoted t.text

end Token

/-- The reserved words with their kinds. -/
def reservedWords : List (Bytes × TokenKind) := [
  (utf8 "true", .boolLiteral),
  (utf8 "false", .boolLiteral),
  (utf8 "and", .binaryOperator),
  (utf8 "or", .binaryOperator),
  (utf8 "not", .unaryOperator),
  (utf8 "sin", .unaryOperator),
  (utf8 "cos", .unaryOperator),
  (utf8 "tan", .unaryOperator),
  (utf8 "int", .typeKeyword),
  (utf8 "real", .typeKeyword),
  (utf8 "bool", .typeKeyword),
  (utf8 "string", .typeKeyword),
  (utf8 "let", .statement),
  (utf8 "while", .statement),
  (utf8 "if", .statement),
  (utf8 "stdout", .statement)]

/-- The kind of a word: a reserved word has its own, every other word is an identifier. -/
def wordKind (s : Bytes) : TokenKind :=
  (reservedWords.lookup s).getD .identifier

/-- The statements of the language. -/
inductive Statement where
  | declare
  | loop
  | choose
  | print
  deriving DecidableEq, Repr

namespace Statement

/-- The word that a statement starts with. -/
def keyword : Statement → Bytes
  | declare => utf8 "let"
  | loop => utf8 "while"
  | choose => utf8 "if"
  | print => utf8 "stdout"

/-- The statement that starts with a given word. -/
def ofKeyword? (s : Bytes) : Option Statement :=
  [declare, loop, choose, print].find? (·.keyword = s)

end Statement

end PrefixForth
