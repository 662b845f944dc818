import Mathlib.Data.List.TakeWhile
import PrefixForth.Forth.Generator

/-!
# Numbers and texts

What literals stand for and what operators do, for the evaluation of trees and for the machine alike.
Integers are cells of `w` bits. Arithmetic is left open: an `Operations` gives it, on integers and on
a type of reals of which nothing else is known, and so the meaning of programs does not depend on how
a machine rounds or overflows. Operations that a machine may refuse, as it refuses to divide by zero,
are partial.

Powers of integers are not left open: they are repeated products.
-/

namespace PrefixForth

/-- Arithmetic and escapes, as a machine knows them. -/
structure Operations (w : Nat) (R : Type) where
  /-- A cell has bits, by which it can tell truth from falsehood. -/
  width_pos : 0 < w
  /-- Arithmetic on integers, other than powers. -/
  int : Arithmetic → BitVec w → BitVec w → Option (BitVec w)
  negate : BitVec w → BitVec w
  /-- Arithmetic on reals. -/
  real : Arithmetic → R → R → Option R
  realNegate : R → R
  realCompare : Comparison → R → R → Bool
  trigonometric : Trigonometric → R → R
  /-- The real for an integer. -/
  ofInt : BitVec w → R
  /-- The real for a number of units at a power of ten. -/
  scientific : Nat → Int → R
  /-- The text that a text with escapes stands for. -/
  unescape : Bytes → Bytes

/-- Comparison of integers, with their signs. -/
def Comparison.ofInts {w : Nat} (a b : BitVec w) : Comparison → Bool
  | eq => a = b
  | ne => a ≠ b
  | lt => a.slt b
  | gt => b.slt a
  | le => a.sle b
  | ge => b.sle a

/-- The connective on truth values. -/
def Connective.apply (a b : Bool) : Connective → Bool
  | and => a && b
  | or => a || b

/-! ### Numerals -/

/-- The number that digits stand for. -/
def decimalValue (s : Bytes) : Nat :=
  s.foldl (fun n b => 10 * n + (b.toNat - 48)) 0

/-- The number that digits with a sign stand for. -/
def signedValue : Bytes → Int
  | 43 :: s => decimalValue s
  | 45 :: s => -decimalValue s
  | s => decimalValue s

/-- The byte is no exponent mark. -/
def isNoMark (b : UInt8) : Bool :=
  b ≠ 101 && b ≠ 69

/-- What stands before the exponent mark, and what stands after it. -/
def splitExponent (s : Bytes) : Bytes × Bytes :=
  (s.takeWhile isNoMark, (s.dropWhile isNoMark).drop 1)

/-- What stands before the point, and what stands after it. -/
def splitPoint (s : Bytes) : Bytes × Bytes :=
  (s.takeWhile (· ≠ 46), (s.dropWhile (· ≠ 46)).drop 1)

namespace Operations

variable {w : Nat} {R : Type} (M : Operations w R)

/-- The real that a numeral stands for: its digits as units, at the power of ten that the exponent and
the number of digits after the point give. -/
def ofNumeral (s : Bytes) : R :=
  let (mantissa, exponent) := splitExponent s
  let (whole, fraction) := splitPoint mantissa
  M.scientific (decimalValue (whole ++ fraction)) (signedValue exponent - fraction.length)

/-- The text that stands between quotes, without its escapes. -/
def ofQuoted (body : Bytes) : Bytes :=
  if backslash ∈ body then M.unescape body else body

/-! ### Powers -/

/-- The product of as many copies of the base. -/
def power (base : BitVec w) : Nat → Option (BitVec w)
  | 0 => some 1
  | n + 1 => (power base n).bind fun p => M.int .mul p base

/-- Arithmetic on integers, powers among it. -/
def intArithmetic : Arithmetic → BitVec w → BitVec w → Option (BitVec w)
  | .pow, a, b => M.power a b.toNat
  | op, a, b => M.int op a b

/-- A numeral that is given an exponent mark stands for the same real. -/
theorem ofNumeral_realNumeral (s : Bytes) : M.ofNumeral (realNumeral s) = M.ofNumeral s := by
  rw [realNumeral]
  split
  · rfl
  · rename_i hmark
    have hnone : ∀ b ∈ s, isNoMark b = true := by
      intro b hb
      rw [not_or] at hmark
      simp only [isNoMark, Bool.and_eq_true, ne_eq, decide_eq_true_eq]
      exact ⟨fun h => hmark.1 (h ▸ hb), fun h => hmark.2 (h ▸ hb)⟩
    have hsplit : splitExponent (s ++ utf8 "e") = splitExponent s := by
      have htake : (utf8 "e").takeWhile isNoMark = [] := rfl
      have hdrop : ((utf8 "e").dropWhile isNoMark).drop 1 = [] := rfl
      rw [splitExponent, splitExponent, List.takeWhile_append_of_pos hnone,
        List.dropWhile_append_of_pos hnone, htake, hdrop, List.append_nil,
        List.takeWhile_eq_self_iff.mpr hnone, List.dropWhile_eq_nil_iff.mpr hnone]
      rfl
    rw [ofNumeral, ofNumeral, hsplit]

end Operations

/-- Cells of 64 bits, and rationals for reals, without powers and remainders of them. -/
def exactOperations : Operations 64 Rat where
  width_pos := by decide
  int
    | .add, a, b => some (a + b)
    | .sub, a, b => some (a - b)
    | .mul, a, b => some (a * b)
    | .div, a, b => if b = 0 then none else some (a.sdiv b)
    | .mod, a, b => if b = 0 then none else some (a.smod b)
    | .pow, _, _ => none
  negate a := -a
  real
    | .add, x, y => some (x + y)
    | .sub, x, y => some (x - y)
    | .mul, x, y => some (x * y)
    | .div, x, y => if y = 0 then none else some (x / y)
    | .mod, _, _ | .pow, _, _ => none
  realNegate x := -x
  realCompare
    | .eq, x, y => x = y
    | .ne, x, y => x ≠ y
    | .lt, x, y => x < y
    | .gt, x, y => y < x
    | .le, x, y => x ≤ y
    | .ge, x, y => y ≤ x
  trigonometric _ x := x
  ofInt n := n.toInt
  scientific n e := Rat.ofScientific n (e < 0) e.natAbs
  unescape s := s

end PrefixForth
