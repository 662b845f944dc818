import PrefixForth.Text.Printable
import PrefixForth.Text.Rune

/-!
# Quoted texts

Messages show texts between double quotes and characters between single quotes. Inside, the
surrounding quote and the backslash take a backslash; the control characters with a name are written
by name (`\n`), other controls below U+0080 with two hexadecimal digits (`\x1b`), other characters
that are not printable with four (`\u00a0`) or eight (`\U0010ffff`), and a stray byte with two.
-/

namespace PrefixForth

/-- The hexadecimal digits of `n`, lower case, exactly `width` of them. -/
def hexDigits (width n : Nat) : Bytes :=
  let digits := (Nat.toDigits 16 n).map fun c => c.toNat.toUInt8
  List.replicate (width - digits.length) 48 ++ digits

/-- The letter that names a control character after a backslash. -/
def controlName? (c : Char) : Option String :=
  match c.toNat with
  | 7 => some "a"
  | 8 => some "b"
  | 12 => some "f"
  | 10 => some "n"
  | 13 => some "r"
  | 9 => some "t"
  | 11 => some "v"
  | _ => none

/-- A character as it is written between two `mark`s. -/
def escapeChar (mark c : Char) : Bytes :=
  if c = mark ∨ c = '\\' then
    backslash :: utf8 c.toString
  else if isPrintable c then
    utf8 c.toString
  else
    match controlName? c with
    | some name => backslash :: utf8 name
    | none =>
      if c.toNat < 0x20 ∨ c.toNat = 0x7f then
        utf8 "\\x" ++ hexDigits 2 c.toNat
      else if c.toNat < 0x10000 then
        utf8 "\\u" ++ hexDigits 4 c.toNat
      else
        utf8 "\\U" ++ hexDigits 8 c.toNat

/-- A rune as it is written between double quotes. -/
def Rune.escape (r : Rune) : Bytes :=
  match r.char with
  | some c => escapeChar '"' c
  | none => utf8 "\\x" ++ r.bytes.flatMap fun b => hexDigits 2 b.toNat

/-- A text between double quotes. -/
def quoted (s : Bytes) : Bytes :=
  quoteMark :: (runes s).flatMap Rune.escape ++ [quoteMark]

/-- A character between single quotes. -/
def quotedChar (c : Char) : Bytes :=
  utf8 "'" ++ escapeChar '\'' c ++ utf8 "'"

end PrefixForth
