import PrefixForth.Token.Lexer
import PrefixForth.Tree.OpenForm

/-!
# Reading forms from a text

A `Parser` reads forms from a lexer, one token at a time, until the text ends. A fault leaves behind
the parentheses that were open, and `Parser.parse` may be called again after it: it goes on where the
lexer stands.
-/

namespace PrefixForth

/-- A reader of forms. -/
structure Parser where
  lexer : Lexer
  /-- The positions of the parentheses left open by earlier faults, the last one first. -/
  opened : List Position := []
  deriving Repr

namespace Parser

/-- A parser at the start of a text. -/
def ofText (s : Bytes) : Parser :=
  ⟨.ofText s, []⟩

/-- Reads tokens from the lexer until the forms are complete or a fault is met. -/
def run (l : Lexer) (s : FormState) : Except Fault Program × Parser :=
  match _h : l.peek with
  | (.token t, l') =>
    match s.step t with
    | .next s' => run l'.next.2 s'
    | .done p => (.ok p, ⟨l', s.opened⟩)
    | .fault fault position taken =>
      (.error (.parsing fault position), ⟨if taken then l'.next.2 else l', s.opened⟩)
  | (.ended, l') =>
    match s.step (.atEnd l'.ending) with
    | .next s' => (.ok s'.forms, ⟨l', s'.opened⟩)
    | .done p => (.ok p, ⟨l', s.opened⟩)
    | .fault fault position _ => (.error (.parsing fault position), ⟨l', s.opened⟩)
  | (.failed error, l') => (.error (.lexical error), ⟨l', s.opened⟩)
termination_by l.size
decreasing_by exact Lexer.size_next_of_peek _h

/-- Reads forms until the text ends. -/
def parse (p : Parser) : Except Fault Program × Parser :=
  run p.lexer { stale := p.opened }

end Parser

/-- The forms of a text. -/
def parse (s : Bytes) : Except Fault Program :=
  (Parser.ofText s).parse.1

end PrefixForth
