import PrefixForth.Fault
import PrefixForth.Text.Rune
import PrefixForth.Token.Rule

/-!
# The matching engine

The lexemes of a text are found by an engine that is not part of this library. It is given rules and
a text, and it reports one match after the other and then the end of the text, or an error of its own;
it may also refuse the rules or the text. Where a match stands in the text is known from the engine
only.

What the library does with the reports is here. The rule of a match says whether it is dropped, is a
token or is an error (`Match.read`), and an error of the engine becomes a lexical error
(`EngineError.translate`). Nothing is asked of the engine: whatever it reports, something comes of it
(`Engine.deliver`).
-/

namespace PrefixForth

/-- A text that a rule matches. -/
structure Match where
  rule : LexicalRule
  lexeme : Bytes
  /-- The position of the first byte. -/
  first : Position
  /-- The position of the last byte. -/
  last : Position

/-- How an engine fails. -/
inductive EngineError where
  /-- From its byte number `start` on, which has the position, the text could not be matched. -/
  | unconsumed (text : Bytes) (start : Nat) (position : Position)
  /-- Any other error. -/
  | other (message : Bytes)
  deriving DecidableEq, Repr

/-- What an engine reports of a text: the matches in their order, and the error after them. Without an
error the text has ended. -/
structure Matching where
  found : List Match
  error : Option EngineError

/-- An engine, by what it reports of a text with some rules, or by its message if it refuses them. -/
structure Engine where
  scan : List LexicalRule → Bytes → Except Bytes Matching

namespace Match

/-- What is made of a match: nothing, a token, or an error. -/
def read (m : Match) : Option (Except LexicalError Token) :=
  match m.rule.action with
  | .skip => none
  | .token kind => some (.ok ⟨kind, m.lexeme, m.first⟩)
  | .word => some (.ok ⟨wordKind m.lexeme, m.lexeme, m.first⟩)
  | .malformed fault => some (.error ⟨.numeral fault m.lexeme, m.first⟩)
  | .unterminated => some (.error ⟨.unterminated m.lexeme, m.first⟩)

/-- The place just past a match. -/
def ending (m : Match) : Position :=
  ⟨m.last.line, m.last.column + 1⟩

end Match

/-- The lexical error for an error of an engine. Text that could not be matched is shown by its first
character. For all other errors the place is the one just past the last token, which is unknown before
the first token. -/
def EngineError.translate (ending : Position) : EngineError → LexicalError
  | unconsumed text start position =>
    if start < text.length then
      ⟨.unrecognized ((leadingChar? (text.drop start)).getD '�'), position⟩
    else
      ⟨.unrecognizedInput, position⟩
  | other message => ⟨.engine message, ending⟩

/-- What comes of the reports of an engine. -/
structure Delivery where
  tokens : List Token
  /-- The error that ended the tokens, if one did. -/
  error : Option LexicalError
  /-- The place just past the last token. -/
  ending : Position

/-- What comes of some matches and the error after them, where the last token ended at a place. -/
def deliverAll (error : Option EngineError) (ending : Position) : List Match → Delivery
  | [] => ⟨[], error.map (EngineError.translate ending), ending⟩
  | m :: ms =>
    match m.read with
    | none => deliverAll error ending ms
    | some (.ok t) =>
      let rest := deliverAll error m.ending ms
      { rest with tokens := t :: rest.tokens }
    | some (.error e) => ⟨[], some e, ending⟩

namespace Engine

/-- What comes of a text with an engine, or the message of the engine if it refuses the rules of the
language or the text. -/
def deliver (engine : Engine) (s : Bytes) : Except Bytes Delivery :=
  (engine.scan lexicalRules s).map fun m => deliverAll m.error .unknown m.found

/-- The tokens of a text with an engine, and the error that ended them, if one did. -/
def tokenize (engine : Engine) (s : Bytes) : Except Bytes (List Token × Option LexicalError) :=
  (engine.deliver s).map fun d => (d.tokens, d.error)

end Engine

end PrefixForth
