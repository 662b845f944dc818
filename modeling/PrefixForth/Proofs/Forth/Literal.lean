import Mathlib.Algebra.Ring.Parity
import PrefixForth.Proofs.Forth.Legibility
import PrefixForth.Proofs.Forth.Typing

/-!
# Literals in the target

A literal of the source is written as one literal of the machine. For strings this depends on where
the machine finds the closing quote. `ClosedAt` says it without a scan: what stands between the quotes
has no quote that closes, and the quote after it is one. Without escapes every quote closes; with
escapes, one that no unpaired backslash stands before (`EndsUnpaired`).

What the lexer takes for the inside of a string is closed where it ends in either way that it may be
written (`closedAt_iff_of_isStringBody`). Main statement: `literals_survive_translation`.
-/

namespace PrefixForth

open Generation

namespace Forth

/-! ### Where a string is closed -/

/-- Of the backslashes at the end of the text, one is not paired with another: the byte after the text
belongs to it. -/
def EndsUnpaired (s : Bytes) : Prop :=
  Odd (s.reverse.takeWhile (· = backslash)).length

private theorem not_endsUnpaired_nil : ¬EndsUnpaired [] := by simp [EndsUnpaired]

private theorem endsUnpaired_concat_backslash {s : Bytes} :
    EndsUnpaired (s ++ [backslash]) ↔ ¬EndsUnpaired s := by
  simp [EndsUnpaired, Nat.odd_add_one]

private theorem not_endsUnpaired_concat {s : Bytes} {b : UInt8} (hb : b ≠ backslash) :
    ¬EndsUnpaired (s ++ [b]) := by
  simp [EndsUnpaired, hb]

/-- The text, from behind the blank after the opening word on, is the inside of a string, the quote
that closes it and a rest. -/
structure ClosedAt (escapes : Prop) (text body rest : Bytes) : Prop where
  cut : text = body ++ quoteMark :: rest
  closes : escapes → ¬EndsUnpaired body
  first : ∀ front back, body = front ++ quoteMark :: back → escapes ∧ EndsUnpaired front

namespace ClosedAt

variable {escapes : Prop} {text body body' rest rest' : Bytes}

/-- A string does not go on behind the quote that closes it. -/
theorem body_eq_of_append {middle : Bytes} (h : ClosedAt escapes text body rest)
    (h' : ClosedAt escapes text (body ++ middle) rest') : middle = [] := by
  cases middle with
  | nil => rfl
  | cons b middle =>
    have hcut : quoteMark :: rest = b :: (middle ++ quoteMark :: rest') := by
      simpa using h.cut.symm.trans h'.cut
    obtain ⟨rfl, -⟩ := List.cons.inj hcut
    obtain ⟨hescapes, hunpaired⟩ := h'.first body middle rfl
    exact absurd hunpaired (h.closes hescapes)

/-- A string is closed at one place only. -/
theorem unique (h : ClosedAt escapes text body rest) (h' : ClosedAt escapes text body' rest') :
    body = body' ∧ rest = rest' := by
  have hbody : body = body' := by
    rcases List.append_eq_append_iff.mp (h.cut.symm.trans h'.cut) with
      ⟨middle, rfl, -⟩ | ⟨middle, rfl, -⟩
    · simp [body_eq_of_append h h']
    · simp [body_eq_of_append h' h]
  subst hbody
  exact ⟨rfl, by simpa using h.cut.symm.trans h'.cut⟩

end ClosedAt

/-- A backslash inside a string always has its byte, so none is left at the end. -/
theorem not_endsUnpaired_append {front body : Bytes} (hfront : ¬EndsUnpaired front)
    (h : IsStringBody body) : ¬EndsUnpaired (front ++ body) := by
  induction h generalizing front with
  | nil => simpa using hfront
  | @plain b s _ hb _ ih =>
    rw [← List.singleton_append, ← List.append_assoc]
    exact ih (not_endsUnpaired_concat hb)
  | @escape b s _ ih =>
    have hpair : ¬EndsUnpaired (front ++ [backslash] ++ [b]) := by
      by_cases hb : b = backslash
      · rw [hb, endsUnpaired_concat_backslash, endsUnpaired_concat_backslash]
        simpa using hfront
      · exact not_endsUnpaired_concat hb
    simpa using ih hpair

/-- A quote inside a string always has its backslash before it. -/
theorem endsUnpaired_before_quote {front body before after : Bytes} (hfront : ¬EndsUnpaired front)
    (h : IsStringBody body) (hbody : body = before ++ quoteMark :: after) :
    EndsUnpaired (front ++ before) := by
  induction h generalizing front before with
  | nil => simp at hbody
  | @plain b s hq hb _ ih =>
    obtain ⟨rfl, -⟩ | ⟨before, rfl, rfl⟩ := List.cons_eq_append_iff.mp hbody
    · simp_all
    · simpa using ih (not_endsUnpaired_concat hb) rfl
  | @escape b s _ ih =>
    obtain ⟨-, hquote⟩ | ⟨before, rfl, htail⟩ := List.cons_eq_append_iff.mp hbody
    · exact absurd (List.cons.inj hquote).1 (by decide)
    obtain ⟨rfl, -⟩ | ⟨before, rfl, rfl⟩ := List.cons_eq_append_iff.mp htail
    · -- the quote is the byte of this backslash
      exact endsUnpaired_concat_backslash.mpr hfront
    · simpa using ih (not_endsUnpaired_append hfront (.escape .nil)) rfl

/-- Without a backslash there is no quote inside a string either. -/
theorem quoteMark_notMem {body : Bytes} (h : IsStringBody body) (hb : backslash ∉ body) :
    quoteMark ∉ body := by
  induction h with
  | nil => simp
  | @plain b s hq _ _ ih =>
    have hs : quoteMark ∉ s := ih fun hs => hb (List.mem_cons_of_mem b hs)
    simpa using ⟨Ne.symm hq, hs⟩
  | escape => simp at hb

/-- The inside of a string is closed where it ends. -/
theorem closedAt_iff_of_isStringBody {c : Bytes} (h : IsStringBody c) (rest body rest' : Bytes) :
    ClosedAt (backslash ∈ c) (c ++ quoteMark :: rest) body rest' ↔ body = c ∧ rest' = rest := by
  have hclosed : ClosedAt (backslash ∈ c) (c ++ quoteMark :: rest) c rest := by
    refine ⟨rfl, fun _ => not_endsUnpaired_append not_endsUnpaired_nil h, fun front back hc => ?_⟩
    refine ⟨?_, endsUnpaired_before_quote not_endsUnpaired_nil h hc⟩
    by_contra hb
    exact quoteMark_notMem h hb (hc ▸ List.mem_append_right front List.mem_cons_self)
  refine ⟨fun h' => h'.unique hclosed, ?_⟩
  rintro ⟨rfl, rfl⟩
  exact hclosed

/-! ### Reading one literal -/

/-- The text is read as one instruction wherever it stands: it is one piece of the texts that it is
part of, and the instruction comes next in the code, unless a variable has the text as its name. -/
def ReadsAs (text : Bytes) (i : Instruction) : Prop :=
  ∃ p, Scans text [p] ∧ ∀ r : Reader, r.announced = none → text ∉ r.names →
    r.piece p = some { r with code := r.code ++ [i] }

/-- By itself, the text is a program of the one instruction. -/
theorem ReadsAs.read_eq {text : Bytes} {i : Instruction} (h : ReadsAs text i) :
    read text = some ([], [i]) := by
  obtain ⟨p, hscans, hpiece⟩ := h
  have hscan : scan .between text = some [p] := by simpa [scan] using hscans [] ends_nil
  have hread : Reader.empty.piece p = some ⟨[], [], none, [], [i]⟩ :=
    hpiece .empty rfl (by simp [Reader.empty])
  simp [read, hscan, hread]

/-- A word that is neither declared nor a marker. -/
theorem readsAs_word {x : Bytes} {i : Instruction} (hx : Scans x [.word x])
    (hmarker : markers.find? (·.text = x) = none) (hi : instruction? x = some i) : ReadsAs x i :=
  ⟨.word x, hx, fun _ hr hnames => word_eq_some hr hnames hmarker hi⟩

private theorem readsAs_numeral {x : Bytes} {i : Instruction} (hlike : isNumeralLike x = true)
    (hi : instruction? x = some i) : ReadsAs x i :=
  readsAs_word (separate_of_isNumeralLike hlike).scans
    (find?_markers_of_not_mem (not_mem_vocabulary_of_isNumeralLike hlike)) hi

end Forth

open Forth

/-- The type of the value that a literal pushes. -/
def Instruction.literalType? : Instruction → Option ValueType
  | .int _ => some .int
  | .real _ => some .real
  | .flag _ => some .bool
  | .string _ => some .string
  | _ => none

/-- How a literal of the kind, with the text `s`, is written as a fragment `f` and what the fragment
stands for. -/
def TokenKind.Renders : TokenKind → Bytes → Bytes → Instruction → Prop
  | intLiteral, s, f, i =>
    IsNumeral s ∧ i = .int s ∧ f = s ∧ (101 : UInt8) ∉ f ∧ (46 : UInt8) ∉ f
  | realLiteral, s, f, i =>
    ∃ mantissa exponent, IsMantissa mantissa ∧
      (s = mantissa ∧ exponent = [] ∨ s = mantissa ++ 101 :: exponent ∧ IsExponent exponent) ∧
      i = .real f ∧ f = mantissa ++ 101 :: exponent ∧ f.count 101 = 1
  | stringLiteral, s, f, i =>
    ∃ c, s = quoteMark :: (c ++ [quoteMark]) ∧ i = .string c ∧
      f = (if backslash ∈ c then escapedOpening else plainOpening) ++ blank :: (c ++ [quoteMark]) ∧
      ∀ rest body rest', ClosedAt (backslash ∈ c) (c ++ quoteMark :: rest) body rest' ↔
        body = c ∧ rest' = rest
  | boolLiteral, s, f, i => (s = utf8 "true" ∨ s = utf8 "false") ∧ i = .flag s ∧ f = s
  | _, _, _, _ => False

private theorem stringText_eq (c : Bytes) : stringText c =
    (if backslash ∈ c then escapedOpening else plainOpening) ++ blank :: (c ++ [quoteMark]) := by
  have hescaped : utf8 "s\\\" " = escapedOpening ++ [blank] := by decide
  have hplain : utf8 "s\" " = plainOpening ++ [blank] := by decide
  rw [stringText]
  split <;> simp [hescaped, hplain]

/-- There is one exponent mark. -/
theorem count_mark {m e : Bytes} (hm : IsMantissa m) (he : e = [] ∨ IsExponent e) :
    (m ++ 101 :: e).count 101 = 1 := by
  have hmantissa : (101 : UInt8) ∉ m := fun h =>
    absurd (isNoMark_of_isMantissa hm 101 h) (by decide)
  have hexponent : (101 : UInt8) ∉ e := by
    rcases he with rfl | he
    · simp
    · intro h
      rcases bytes_of_isExponent he 101 h with h | h | h <;> revert h <;> decide
  simp [List.count_eq_zero_of_not_mem hmantissa, List.count_eq_zero_of_not_mem hexponent]

namespace LiteralCode

variable {t : Token} {v : Value}

/-- The code of a literal is one literal, of the type of its kind. -/
theorem exists_instruction (h : LiteralCode t v) : ∃ i, v.code = [i] ∧
    t.kind.literalType? = some v.type ∧ i.literalType? = some v.type ∧ ReadsAs i.text i := by
  cases h with
  | int kind numeral =>
    have hreads := readsAs_numeral (isNumeralLike_int numeral) (instruction?_int numeral)
    exact ⟨_, rfl, by rw [kind]; rfl, rfl, hreads⟩
  | real kind numeral =>
    have hreads := readsAs_numeral (isNumeralLike_real numeral) (instruction?_real numeral)
    exact ⟨_, rfl, by rw [kind]; rfl, rfl, hreads⟩
  | @string body kind text inside =>
    refine ⟨_, rfl, by rw [kind]; rfl, rfl, .string body, scans_stringText inside, fun r hr _ => ?_⟩
    simp [Reader.piece, hr]
  | bool kind name =>
    obtain ⟨hmem, hmarker, hi⟩ := instruction?_flag name
    have hreads := readsAs_word (scans_of_mem_vocabulary hmem) hmarker hi
    exact ⟨_, rfl, by rw [kind]; rfl, rfl, hreads⟩

/-- It is written as its kind asks. -/
theorem renders (h : LiteralCode t v) {i : Instruction} (hi : v.code = [i]) :
    t.kind.Renders t.text i.text i := by
  cases h with
  | int kind numeral =>
    obtain ⟨rfl, -⟩ := List.cons.inj hi
    have hbyte : ∀ b ∈ t.text, isDigitByte b = true := numeral.2
    rw [kind]
    exact ⟨numeral, rfl, rfl, fun h => absurd (hbyte 101 h) (by decide),
      fun h => absurd (hbyte 46 h) (by decide)⟩
  | real kind numeral =>
    obtain ⟨rfl, -⟩ := List.cons.inj hi
    rw [kind]
    rcases numeral with ⟨hm, -⟩ | ⟨m, e, htext, hm, he⟩
    · have htext : realNumeral t.text = t.text ++ [101] := realNumeral_of_isMantissa hm
      exact ⟨t.text, [], hm, .inl ⟨rfl, rfl⟩, rfl, htext, htext ▸ count_mark hm (.inl rfl)⟩
    · have hreal : realNumeral t.text = m ++ 101 :: e := htext ▸ realNumeral_of_mark m e
      exact ⟨m, e, hm, .inr ⟨htext, he⟩, rfl, hreal, hreal ▸ count_mark hm (.inr he)⟩
  | @string body kind text inside =>
    obtain ⟨rfl, -⟩ := List.cons.inj hi
    rw [kind]
    exact ⟨body, text, rfl, stringText_eq body, closedAt_iff_of_isStringBody inside⟩
  | bool kind name =>
    obtain ⟨rfl, -⟩ := List.cons.inj hi
    rw [kind]
    exact ⟨name, rfl, rfl⟩

end LiteralCode

/-- **Literals survive translation.** Every literal that is read from a text gets a value, whatever has
been declared. Its code is one literal of the type of the token, its fragment is read back as that
literal, by itself and wherever it stands, and it is written from the text of the token: the digits of
an integer as they are; a real number with one exponent mark; and a string with the opening word that
fits its contents, so that the machine finds the closing quote at the end of the fragment and not
before. -/
theorem literals_survive_translation {s : Bytes} {t : Token} (ht : t ∈ (tokenize s).1)
    (hliteral : t.kind.isLiteral = true) (consumed : Bool) (table : SymbolTable) :
    ∃ v i fragment, (Node.leaf t).value consumed table = (.ok v, table) ∧
      v.code = [i] ∧ v.code.text = fragment ∧
      t.kind.literalType? = some v.type ∧ i.literalType? = some v.type ∧
      Forth.read fragment = some ([], [i]) ∧ ReadsAs fragment i ∧
      t.kind.Renders t.text fragment i := by
  have hspelled : t.WellSpelled := spells_of_mem_tokenize ht
  obtain ⟨v, hv⟩ : ∃ v, literalValue? t = some v := by
    cases hk : t.kind <;> simp_all [TokenKind.isLiteral, literalValue?]
  have hcode : LiteralCode t v := hspelled.literalCode hv
  obtain ⟨i, hi, htype, hitype, hreads⟩ := hcode.exists_instruction
  have htext : v.code.text = i.text := hi ▸ text_singleton i
  exact ⟨v, i, i.text, (value_literal_iff hliteral).mpr ⟨hv, rfl⟩, hi, htext, htype, hitype,
    hreads.read_eq, hreads, hcode.renders hi⟩

/-- A string with an escaped quote in it, and an escaped backslash before its closing quote. -/
theorem literals_survive_translation_escapes :
    (⟨.stringLiteral, utf8 "\"a \\\" (\\\\\"", ⟨1, 1⟩⟩ : Token) ∈
        (tokenize (utf8 "\"a \\\" (\\\\\"")).1 ∧
      TokenKind.stringLiteral.isLiteral = true ∧
      ∃ v i fragment,
        (Node.leaf ⟨.stringLiteral, utf8 "\"a \\\" (\\\\\"", ⟨1, 1⟩⟩).value false .empty =
          (.ok v, .empty) ∧ v.code = [i] ∧ v.code.text = fragment ∧
        TokenKind.stringLiteral.literalType? = some v.type ∧ i.literalType? = some v.type ∧
        Forth.read fragment = some ([], [i]) ∧ ReadsAs fragment i ∧
        TokenKind.stringLiteral.Renders (utf8 "\"a \\\" (\\\\\"") fragment i := by
  have htoken : (⟨.stringLiteral, utf8 "\"a \\\" (\\\\\"", ⟨1, 1⟩⟩ : Token) ∈
      (tokenize (utf8 "\"a \\\" (\\\\\"")).1 := by
    decide +kernel
  exact ⟨htoken, rfl, literals_survive_translation htoken rfl false .empty⟩

end PrefixForth
