import PrefixForth.Text.Bytes

/-!
# Patterns over bytes

A pattern denotes a regular language over bytes. Matching goes by derivatives: the derivative of a
pattern by a byte denotes the texts that complete that byte to a text of the pattern. The smart
constructors `either` and `followedBy` keep derivatives small, so that a pattern that can match
nothing more is seen to be `never`.

`Pattern.longest` gives the length of the longest text of the pattern that a given text starts with.
-/

namespace PrefixForth

/-- A regular language over bytes. -/
inductive Pattern where
  /-- No text at all. -/
  | never
  /-- The empty text alone. -/
  | empty
  /-- One byte of a class. -/
  | oneOf (cls : UInt8 → Bool)
  /-- A text of the first pattern, then one of the second. -/
  | seq (first second : Pattern)
  /-- A text of either pattern. -/
  | alt (left right : Pattern)
  /-- Any number of texts of the pattern, one after the other. -/
  | many (p : Pattern)

namespace Pattern

/-! ### Further constructors -/

/-- One particular byte. -/
def byte (b : UInt8) : Pattern :=
  oneOf (· == b)

/-- One particular text. -/
def literal (s : Bytes) : Pattern :=
  s.foldr (fun b p => seq (byte b) p) empty

/-- At least one text of the pattern. -/
def some (p : Pattern) : Pattern :=
  seq p (many p)

/-- A text of the pattern or the empty text. -/
def optional (p : Pattern) : Pattern :=
  alt empty p

/-- A text of one of the patterns. -/
def anyOf (ps : List Pattern) : Pattern :=
  ps.foldr alt never

/-- The patterns one after the other. -/
def sequence (ps : List Pattern) : Pattern :=
  ps.foldr seq empty

/-! ### Derivatives -/

/-- The pattern is visibly empty: it matches no text. -/
def isNever : Pattern → Bool
  | never => true
  | _ => false

/-- The language of `alt p q`, without a visibly empty side. -/
def either : Pattern → Pattern → Pattern
  | never, q => q
  | p, never => p
  | p, q => alt p q

/-- The language of `seq p q`, visibly empty if `p` is, and `q` itself if `p` is `empty`. -/
def followedBy : Pattern → Pattern → Pattern
  | never, _ => never
  | empty, q => q
  | p, q => seq p q

/-- The pattern matches the empty text. -/
def nullable : Pattern → Bool
  | never => false
  | empty => true
  | oneOf _ => false
  | seq p q => p.nullable && q.nullable
  | alt p q => p.nullable || q.nullable
  | many _ => true

/-- The texts that complete the byte `b` to a text of the pattern. -/
def derivative (b : UInt8) : Pattern → Pattern
  | never => never
  | empty => never
  | oneOf cls => if cls b then empty else never
  | seq p q =>
    if p.nullable then
      either (followedBy (p.derivative b) q) (q.derivative b)
    else
      followedBy (p.derivative b) q
  | alt p q => either (p.derivative b) (q.derivative b)
  | many p => followedBy (p.derivative b) (many p)

/-- The length of the longest text of the pattern that `s` starts with, if there is one. -/
def longest (p : Pattern) : Bytes → Option Nat
  | [] => if p.nullable then Option.some 0 else none
  | b :: s =>
    if p.isNever then
      none
    else
      match longest (p.derivative b) s with
      | Option.some n => Option.some (n + 1)
      | none => if p.nullable then Option.some 0 else none

/-- A match does not reach beyond the end of the text. -/
theorem length_of_longest {p : Pattern} {s : Bytes} {n : Nat} (h : p.longest s = Option.some n) :
    n ≤ s.length := by
  induction s generalizing p n with
  | nil =>
    rw [longest] at h
    split at h
    · cases h
      exact Nat.le_refl _
    · cases h
  | cons b s ih =>
    rw [longest] at h
    split at h
    · cases h
    · split at h
      · rename_i m hm
        cases h
        simpa using ih hm
      · split at h
        · cases h
          exact Nat.zero_le _
        · cases h

end Pattern

end PrefixForth
