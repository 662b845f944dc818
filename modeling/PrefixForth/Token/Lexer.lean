import PrefixForth.Fault
import PrefixForth.Text.Rune
import PrefixForth.Token.Rule

/-!
# Reading tokens

A `Cursor` stands somewhere in a text; scanning from it skips blanks and yields the next token, the
end of the text, or a lexical error. A `Lexer` reads tokens on demand with a lookahead of one: `next`
takes a token, `peek` only looks at it. It also keeps the place just past the last token it has
scanned, where the end of the text is reported.

A lexer that has met an error stays before the offending bytes, so it meets the same error again.

The cursor finds lexemes and counts positions by itself. An engine that reports lexemes by the same rules,
with the same positions, leads to the same tokens (`Engine.Lawful.tokenize_eq`).
-/

namespace PrefixForth

/-- A place in a text: the bytes from there on and the position of the first of them. -/
structure Cursor where
  rest : Bytes
  position : Position
  deriving DecidableEq, Repr

/-- What reading from a text yields. -/
inductive Reading where
  | token (t : Token)
  | ended
  | failed (error : LexicalError)
  deriving DecidableEq, Repr

namespace Cursor

/-- The start of a text. -/
def ofText (s : Bytes) : Cursor :=
  ⟨s, .start⟩

/-- The place `n` bytes further on. -/
def advance (c : Cursor) (n : Nat) : Cursor :=
  ⟨c.rest.drop n, c.position.afterAll (c.rest.take n)⟩

/-- The next `n` bytes as a token. -/
def lexeme (c : Cursor) (kind : Bytes → TokenKind) (n : Nat) : Token :=
  ⟨kind (c.rest.take n), c.rest.take n, c.position⟩

/-- The error that no rule matches at a place: it shows the character that stands there. -/
def unrecognized (c : Cursor) : LexicalError :=
  ⟨.unrecognized ((leadingChar? c.rest).getD '�'), c.position⟩

/-- Moving on by a match that counts leaves fewer bytes. -/
theorem length_advance_lt {c : Cursor} {rs : List LexicalRule} {r : LexicalRule} {n : Nat}
    (h : bestMatch rs c.rest = some (r, n)) : (c.advance n).rest.length < c.rest.length := by
  have hpos := pos_of_bestMatch h
  have hlen := length_of_bestMatch h
  simp only [advance, List.length_drop]
  omega

/-- The next token with the place after it; the end of the text or an error with the place where
it was met. -/
def scan (c : Cursor) : Reading × Cursor :=
  match _h : bestMatch lexicalRules c.rest with
  | none => (if c.rest = [] then .ended else .failed c.unrecognized, c)
  | some (r, n) =>
    match r.action with
    | .skip => (c.advance n).scan
    | .token kind => (.token (c.lexeme (fun _ => kind) n), c.advance n)
    | .word => (.token (c.lexeme wordKind n), c.advance n)
    | .malformed fault => (.failed ⟨.numeral fault (c.rest.take n), c.position⟩, c)
    | .unterminated => (.failed ⟨.unterminated (c.rest.take n), c.position⟩, c)
termination_by c.rest.length
decreasing_by exact length_advance_lt _h

/-- Reading a token takes at least one byte. -/
theorem length_scan_lt {c c' : Cursor} {t : Token} (h : c.scan = (.token t, c')) :
    c'.rest.length < c.rest.length := by
  fun_induction scan c with
  | case1 c hnone =>
    split at h <;> cases h
  | case2 c r n hbest haction ih =>
    exact Nat.lt_trans (ih h) (length_advance_lt hbest)
  | case3 c r n hbest kind haction =>
    cases h
    exact length_advance_lt hbest
  | case4 c r n hbest haction =>
    cases h
    exact length_advance_lt hbest
  | case5 c r n hbest fault haction => cases h
  | case6 c r n hbest haction => cases h

/-- All tokens from a place on, and the error that ended them, if one did. -/
def tokens (c : Cursor) : List Token × Option LexicalError :=
  match _h : c.scan with
  | (.token t, c') =>
    let (ts, error) := c'.tokens
    (t :: ts, error)
  | (.ended, _) => ([], none)
  | (.failed error, _) => ([], some error)
termination_by c.rest.length
decreasing_by exact length_scan_lt _h

end Cursor

/-- The tokens of a text, and the error that ended them, if one did. -/
def tokenize (s : Bytes) : List Token × Option LexicalError :=
  (Cursor.ofText s).tokens

/-- A reader of tokens on demand. -/
structure Lexer where
  cursor : Cursor
  /-- A token that has been looked at and not been taken. -/
  lookahead : Option Token := none
  /-- The place just past the last token scanned; unknown before the first. -/
  ending : Position := .unknown
  deriving DecidableEq, Repr

namespace Lexer

/-- A lexer at the start of a text. -/
def ofText (s : Bytes) : Lexer :=
  ⟨.ofText s, none, .unknown⟩

/-- Scans the next token from the text, past the lookahead. -/
def read (l : Lexer) : Reading × Lexer :=
  match l.cursor.scan with
  | (.token t, c) => (.token t, ⟨c, none, c.position⟩)
  | (reading, c) => (reading, ⟨c, none, l.ending⟩)

/-- Takes the next token. -/
def next (l : Lexer) : Reading × Lexer :=
  match l.lookahead with
  | some t => (.token t, { l with lookahead := none })
  | none => l.read

/-- Looks at the next token without taking it. -/
def peek (l : Lexer) : Reading × Lexer :=
  match l.lookahead with
  | some t => (.token t, l)
  | none =>
    match l.read with
    | (.token t, l') => (.token t, { l' with lookahead := some t })
    | other => other

/-- The token that a reading of this lexer stands for: past the last token, the end of the text. -/
def tokenOf (l : Lexer) : Reading → Token
  | .token t => t
  | _ => .atEnd l.ending

/-- How much a lexer has still to read: the bytes it has not scanned, and the lookahead. -/
def size (l : Lexer) : Nat :=
  l.cursor.rest.length + if l.lookahead.isSome then 1 else 0

/-- Scanning a token leaves fewer bytes. -/
theorem length_read_lt {l l' : Lexer} {t : Token} (h : l.read = (.token t, l')) :
    l'.cursor.rest.length < l.cursor.rest.length ∧ l'.lookahead = none := by
  unfold read at h
  split at h
  · rename_i hscan
    cases h
    exact ⟨Cursor.length_scan_lt hscan, rfl⟩
  · rename_i reading c hne hscan
    cases h
    exact (hne t rfl).elim

/-- After a look at a token, taking it leaves less to read than before the look. -/
theorem size_next_of_peek {l l' : Lexer} {t : Token} (h : l.peek = (.token t, l')) :
    l'.next.2.size < l.size := by
  unfold peek at h
  split at h
  · rename_i t' hlook
    cases h
    simp [next, hlook, size]
  · rename_i hlook
    split at h
    · rename_i t' l'' hread
      cases h
      simpa [next, size, hlook] using (length_read_lt hread).1
    · rename_i hne
      exact absurd h (hne t l')

end Lexer

end PrefixForth
