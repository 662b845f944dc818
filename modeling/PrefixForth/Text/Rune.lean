import PrefixForth.Text.Bytes

/-!
# Characters of a byte text

A byte text is cut into *runes*: a rune is a character together with the bytes that spell it, or a
single stray byte where no character of UTF-8 starts. Cutting loses nothing: the bytes of the runes,
put together again, are the text (`runes_bytes`).
-/

namespace PrefixForth

/-- A character of a byte text, or one stray byte that spells none. -/
structure Rune where
  /-- The bytes as they stand in the text. -/
  bytes : Bytes
  /-- The character that they spell, if they spell one. -/
  char : Option Char
  deriving DecidableEq, Repr

/-- The character to show for a rune: a stray byte counts as U+FFFD. -/
def Rune.shown (r : Rune) : Char :=
  r.char.getD '�'

/-- The character that the text starts with, if its first bytes spell one. -/
def leadingChar? (s : Bytes) : Option Char :=
  (ByteArray.mk (s.take 4).toArray).utf8DecodeChar? 0

/-- Cuts a text into runes, leaving out its first `skip` bytes. -/
def runesFrom (skip : Nat) : Bytes → List Rune
  | [] => []
  | b :: s =>
    match skip with
    | k + 1 => runesFrom k s
    | 0 =>
      match leadingChar? (b :: s) with
      | some c => ⟨b :: s.take (c.utf8Size - 1), some c⟩ :: runesFrom (c.utf8Size - 1) s
      | none => ⟨[b], none⟩ :: runesFrom 0 s

/-- The runes of a text, in order. -/
def runes (s : Bytes) : List Rune :=
  runesFrom 0 s

/-- The text that a list of runes spells. -/
def unrunes (rs : List Rune) : Bytes :=
  rs.flatMap Rune.bytes

/-- Putting the runes from some place on together gives the text from there on. -/
theorem unrunes_runesFrom (skip : Nat) (s : Bytes) :
    unrunes (runesFrom skip s) = s.drop skip := by
  induction s generalizing skip with
  | nil => simp [runesFrom, unrunes]
  | cons b s ih =>
    cases skip with
    | succ k => simpa [runesFrom] using ih k
    | zero =>
      rw [runesFrom]
      split
      · rename_i c _
        have h := ih (c.utf8Size - 1)
        simp only [unrunes] at h ⊢
        simp [h]
      · have h := ih 0
        simp only [unrunes] at h ⊢
        simp [h]

/-- Cutting into runes loses nothing. -/
theorem runes_bytes (s : Bytes) : unrunes (runes s) = s := by
  simp [runes, unrunes_runesFrom]

end PrefixForth
