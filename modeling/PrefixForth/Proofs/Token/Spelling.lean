import PrefixForth.Proofs.Token.Language
import PrefixForth.Forth.Word
import PrefixForth.Token.Lexer

/-!
# How tokens are spelled

Every kind of token has its own spellings: `TokenKind.Spells k s` says that `s` is one of those of
the kind `k`. The end of a text and the kinds beyond the language have none.

Main statement: every token that is read from a text is spelled as its kind asks
(`spells_of_mem_tokenize`), so what stands in a tree is known to the byte.
-/

namespace PrefixForth

/-! ### Numerals, strings and words -/

/-- Digits only, possibly none. -/
def IsDigits (s : Bytes) : Prop :=
  ∀ b ∈ s, isDigitByte b = true

/-- One digit or more. -/
def IsNumeral (s : Bytes) : Prop :=
  s ≠ [] ∧ IsDigits s

/-- A numeral, possibly with a point and digits after it. -/
def IsMantissa (s : Bytes) : Prop :=
  ∃ whole fraction, s = whole ++ fraction ∧ IsNumeral whole ∧
    (fraction = [] ∨ ∃ digits, fraction = 46 :: digits ∧ IsDigits digits)

/-- A numeral, possibly with a sign. -/
def IsExponent (s : Bytes) : Prop :=
  ∃ sign digits, s = sign ++ digits ∧ (sign = [] ∨ sign = [43] ∨ sign = [45]) ∧ IsNumeral digits

/-- A mantissa with a point, or a mantissa, the exponent mark and an exponent. -/
def IsRealNumeral (s : Bytes) : Prop :=
  (IsMantissa s ∧ (46 : UInt8) ∈ s) ∨
    ∃ mantissa exponent, s = mantissa ++ 101 :: exponent ∧ IsMantissa mantissa ∧
      IsExponent exponent

/-- What may stand between the quotes of a string literal: a backslash always has a byte after it,
and a quote always a backslash before it. -/
inductive IsStringBody : Bytes → Prop where
  | nil : IsStringBody []
  | plain {b : UInt8} {s : Bytes} (hq : b ≠ quoteMark) (hb : b ≠ backslash) (h : IsStringBody s) :
      IsStringBody (b :: s)
  | escape {b : UInt8} {s : Bytes} (h : IsStringBody s) : IsStringBody (backslash :: b :: s)

/-- A letter, then letters and digits. -/
def IsWord (s : Bytes) : Prop :=
  ∃ b rest, s = b :: rest ∧ isLetterByte b = true ∧
    ∀ c ∈ rest, (isLetterByte c || isDigitByte c) = true

/-- The text is a spelling of the kind. -/
def TokenKind.Spells : TokenKind → Bytes → Prop
  | openParen, s => s = utf8 "("
  | closeParen, s => s = utf8 ")"
  | assignment, s => s = utf8 ":="
  | binaryOperator, s => ∃ op, BinaryOperator.ofSpelling? s = some op
  | unaryOperator, s => ∃ op, UnaryOperator.ofSpelling? s = some op
  | minus, s => s = utf8 "-"
  | intLiteral, s => IsNumeral s
  | realLiteral, s => IsRealNumeral s
  | stringLiteral, s => ∃ body, s = quoteMark :: (body ++ [quoteMark]) ∧ IsStringBody body
  | boolLiteral, s => s = utf8 "true" ∨ s = utf8 "false"
  | statement, s => ∃ head, Statement.ofKeyword? s = some head
  | typeKeyword, s => ∃ type, ValueType.ofKeyword? s = some type
  | identifier, s => IsWord s ∧ reservedWords.lookup s = none
  | endOfInput, _ => False
  | other _, _ => False

/-- The token is spelled as its kind asks. -/
def Token.WellSpelled (t : Token) : Prop :=
  t.kind.Spells t.text

/-! ### Keywords -/

namespace Statement

/-- Statements have different keywords. -/
@[simp]
theorem keyword_inj {a b : Statement} : a.keyword = b.keyword ↔ a = b := by
  cases a <;> cases b <;> decide

@[simp]
theorem ofKeyword?_keyword (a : Statement) : ofKeyword? a.keyword = some a := by
  cases a <;> rfl

/-- A keyword stands for the statement that has it. -/
theorem ofKeyword?_eq_some_iff {s : Bytes} {a : Statement} :
    ofKeyword? s = some a ↔ s = a.keyword := by
  refine ⟨fun h => ?_, fun h => h ▸ ofKeyword?_keyword a⟩
  have hfound := List.find?_some h
  exact (of_decide_eq_true hfound).symm

end Statement

/-! ### Texts of the patterns -/

namespace Pattern

variable {p q : Pattern} {s : Bytes}

/-- The pattern for a byte matches that byte. -/
@[simp]
theorem matches_byte_iff {b : UInt8} : Matches (byte b) s ↔ s = [b] := by
  simp [byte, matches_oneOf_iff]

/-- The pattern for a text matches that text. -/
@[simp]
theorem matches_literal_iff {t : Bytes} : Matches (literal t) s ↔ s = t := by
  induction t generalizing s with
  | nil => simp [literal]
  | cons b t ih =>
    have hfold : literal (b :: t) = seq (byte b) (literal t) := rfl
    simp [hfold, matches_seq_iff, ih]

private theorem matches_anyOf_iff {ps : List Pattern} :
    Matches (anyOf ps) s ↔ ∃ p ∈ ps, Matches p s := by
  induction ps with
  | nil => simp [anyOf]
  | cons p ps ih =>
    have hfold : anyOf (p :: ps) = alt p (anyOf ps) := rfl
    simp [hfold, ih]

private theorem sequence_cons (p : Pattern) (ps : List Pattern) :
    sequence (p :: ps) = seq p (sequence ps) := rfl

@[simp]
theorem matches_sequence_nil_iff : Matches (sequence []) s ↔ s = [] :=
  matches_empty_iff

/-- An optional pattern may match nothing. -/
@[simp]
theorem matches_optional_iff : Matches (optional p) s ↔ s = [] ∨ Matches p s := by
  simp [optional]

/-- Bytes of a class, as many as there are, are a text of bytes of that class. -/
private theorem matches_many_oneOf_iff {cls : UInt8 → Bool} :
    Matches (many (oneOf cls)) s ↔ ∀ b ∈ s, cls b = true := by
  induction s with
  | nil => exact iff_of_true .done fun b hb => by cases hb
  | cons b s ih =>
    rw [matches_many_cons_iff]
    simp only [matches_oneOf_iff, List.cons.injEq, List.mem_cons, forall_eq_or_imp]
    constructor
    · rintro ⟨u, v, rfl, ⟨c, hc, rfl, rfl⟩, hv⟩
      exact ⟨hc, ih.mp (by simpa using hv)⟩
    · rintro ⟨hb, hs⟩
      exact ⟨[], s, rfl, ⟨b, hb, rfl, rfl⟩, ih.mpr hs⟩

/-- One or more bytes of a class are a text, not empty, of bytes of that class. -/
theorem matches_some_oneOf_iff {cls : UInt8 → Bool} :
    Matches (some (oneOf cls)) s ↔ s ≠ [] ∧ ∀ b ∈ s, cls b = true := by
  rw [some, matches_seq_iff]
  constructor
  · rintro ⟨u, v, rfl, hu, hv⟩
    obtain ⟨b, hb, rfl⟩ := matches_oneOf_iff.mp hu
    rw [matches_many_oneOf_iff] at hv
    refine ⟨by simp, fun c hc => ?_⟩
    rcases List.mem_cons.mp hc with rfl | hc
    · exact hb
    · exact hv c hc
  · rintro ⟨hne, hall⟩
    obtain ⟨b, s, rfl⟩ := List.exists_cons_of_ne_nil hne
    exact ⟨[b], s, rfl, .oneOf (hall b List.mem_cons_self),
      matches_many_oneOf_iff.mpr fun c hc => hall c (List.mem_cons_of_mem _ hc)⟩

end Pattern

namespace LexicalRule

open Pattern

variable {s : Bytes}

private theorem matches_digits_iff : Matches (many digit) s ↔ IsDigits s :=
  matches_many_oneOf_iff

private theorem matches_numeral_iff : Matches (some digit) s ↔ IsNumeral s :=
  matches_some_oneOf_iff

@[simp]
theorem matches_point_iff : Matches point s ↔ s = [46] :=
  matches_byte_iff

/-- A numeral and an optional fraction are a mantissa. -/
theorem isMantissa_append {whole fraction : Bytes} (hw : Matches (some digit) whole)
    (hf : Matches LexicalRule.fraction fraction) : IsMantissa (whole ++ fraction) := by
  refine ⟨whole, fraction, rfl, matches_numeral_iff.mp hw, ?_⟩
  rw [LexicalRule.fraction, matches_optional_iff, matches_seq_iff] at hf
  rcases hf with h | ⟨u, v, rfl, hu, hv⟩
  · exact .inl h
  · rw [matches_point_iff.mp hu]
    exact .inr ⟨v, rfl, matches_digits_iff.mp hv⟩

/-- A string up to its closing quote is an opening quote and a string body. -/
theorem matches_openString (h : Matches openString s) :
    ∃ body, s = quoteMark :: body ∧ IsStringBody body := by
  rw [openString, matches_seq_iff] at h
  obtain ⟨u, body, rfl, hu, hbody⟩ := h
  rw [matches_byte_iff.mp hu]
  refine ⟨body, rfl, ?_⟩
  clear hu
  -- by induction on the repetition: each round is a plain byte or an escaped one
  generalize hp : many _ = p at hbody
  induction hbody with
  | empty | oneOf _ | seq _ _ | left _ | right _ => cases hp
  | done => exact .nil
  | more hround _ _ ih =>
    cases hp
    rcases matches_alt_iff.mp hround with hplain | hescape
    · obtain ⟨b, hb, rfl⟩ := matches_oneOf_iff.mp hplain
      simp only [Bool.and_eq_true, bne_iff_ne] at hb
      exact .plain hb.1 hb.2 (ih rfl)
    · obtain ⟨v, w, rfl, hv, hw⟩ := matches_seq_iff.mp hescape
      obtain ⟨b, -, rfl⟩ := matches_oneOf_iff.mp hw
      rw [matches_byte_iff.mp hv]
      exact .escape (ih rfl)

end LexicalRule

/-! ### The kinds that the rules give -/

/-- What is looked up in a list is in it. -/
theorem mem_of_lookup {β : Type} {entries : List (Bytes × β)} {s : Bytes} {b : β}
    (h : entries.lookup s = some b) : (s, b) ∈ entries := by
  obtain ⟨l₁, l₂, rfl, -⟩ := List.lookup_eq_some_iff.mp h
  simp

/-- A word is a reserved one with the kind of its entry, or an identifier. -/
theorem wordKind_cases (s : Bytes) :
    (∃ entry ∈ reservedWords, entry.1 = s ∧ wordKind s = entry.2) ∨
      (wordKind s = .identifier ∧ reservedWords.lookup s = none) := by
  rw [wordKind]
  rcases hlook : reservedWords.lookup s with _ | kind
  · exact .inr ⟨rfl, rfl⟩
  · exact .inl ⟨(s, kind), mem_of_lookup hlook, rfl, rfl⟩

/-- Every reserved word is a spelling of its kind. -/
theorem spells_of_mem_reservedWords :
    ∀ entry ∈ reservedWords, entry.2.Spells entry.1 := by
  simp only [reservedWords, List.forall_mem_cons, TokenKind.Spells]
  refine ⟨.inl trivial, .inr trivial, ⟨_, rfl⟩, ⟨_, rfl⟩, ⟨_, rfl⟩, ⟨_, rfl⟩, ⟨_, rfl⟩, ⟨_, rfl⟩,
    ⟨_, rfl⟩, ⟨_, rfl⟩, ⟨_, rfl⟩, ⟨_, rfl⟩, ⟨_, rfl⟩, ⟨_, rfl⟩, ⟨_, rfl⟩, ⟨_, rfl⟩, fun _ h => by cases h⟩

/-- A word is a spelling of its kind. -/
theorem spells_wordKind {s : Bytes} (h : IsWord s) : (wordKind s).Spells s := by
  rcases wordKind_cases s with ⟨entry, hmem, rfl, hkind⟩ | ⟨hkind, hnone⟩
  · rw [hkind]
    exact spells_of_mem_reservedWords entry hmem
  · rw [hkind]
    exact ⟨h, hnone⟩

/-- The action makes a text a token of the kind. -/
def LexicalAction.Yields : LexicalAction → Bytes → TokenKind → Prop
  | token kind, _, k => k = kind
  | word, s, k => k = wordKind s
  | _, _, _ => False

open Pattern LexicalRule in
/-- A text that a rule makes a token of is a spelling of the token's kind. -/
theorem spells_of_mem_lexicalRules {r : LexicalRule} {s : Bytes} {k : TokenKind}
    (hr : r ∈ lexicalRules) (hm : r.pattern.Matches s) (hk : r.action.Yields s k) : k.Spells s := by
  simp only [lexicalRules, List.mem_cons, List.not_mem_nil, or_false] at hr
  rcases hr with rfl | rfl | rfl | rfl | rfl | rfl | rfl | rfl | rfl | rfl | rfl | rfl | rfl | rfl |
    rfl | rfl
  -- the rules of blanks, malformed numerals and open strings give no token
  · cases hk
  · cases hk
    exact matches_literal_iff.mp hm
  · cases hk
    exact matches_literal_iff.mp hm
  · cases hk
    exact matches_literal_iff.mp hm
  · cases hk
    simp only [matches_anyOf_iff, List.mem_cons, List.not_mem_nil, or_false, exists_eq_or_imp,
      exists_eq_left, matches_literal_iff] at hm
    rcases hm with rfl | rfl | rfl | rfl | rfl <;> exact ⟨_, rfl⟩
  · cases hk
    exact matches_literal_iff.mp hm
  · cases hk
    simp only [matches_anyOf_iff, List.mem_cons, List.not_mem_nil, or_false, exists_eq_or_imp,
      exists_eq_left, matches_literal_iff] at hm
    rcases hm with rfl | rfl | rfl | rfl | rfl | rfl | rfl <;> exact ⟨_, rfl⟩
  · cases hk
    exact matches_numeral_iff.mp hm
  · cases hk
    simp only [sequence_cons, matches_seq_iff, matches_sequence_nil_iff] at hm
    obtain ⟨whole, _, rfl, hwhole, _, _, rfl, hpoint, digits, _, rfl, hdigits, rfl⟩ := hm
    rw [matches_point_iff.mp hpoint, List.append_nil]
    exact .inl ⟨⟨whole, _, rfl, matches_numeral_iff.mp hwhole, .inr ⟨digits, rfl,
      matches_digits_iff.mp hdigits⟩⟩, by simp⟩
  · cases hk
    simp only [sequence_cons, matches_seq_iff, matches_sequence_nil_iff] at hm
    obtain ⟨whole, _, rfl, hwhole, part, _, rfl, hpart, mark, _, rfl, hmark, digits, _, rfl,
      hdigits, rfl⟩ := hm
    simp only [LexicalRule.exponent, matches_seq_iff, matches_byte_iff, matches_optional_iff,
      matches_alt_iff] at hmark
    obtain ⟨_, sign, rfl, rfl, hsign⟩ := hmark
    refine .inr ⟨whole ++ part, sign ++ digits, by simp, isMantissa_append hwhole hpart,
      sign, digits, rfl, hsign, matches_numeral_iff.mp hdigits⟩
  · cases hk
  · cases hk
  · cases hk
  · cases hk
    obtain ⟨u, v, rfl, hu, hv⟩ := matches_seq_iff.mp hm
    obtain ⟨body, rfl, hbody⟩ := matches_openString hu
    rw [matches_byte_iff.mp hv]
    exact ⟨body, rfl, hbody⟩
  · cases hk
  · cases hk
    obtain ⟨u, rest, rfl, hu, hrest⟩ := matches_seq_iff.mp hm
    obtain ⟨b, hb, rfl⟩ := matches_oneOf_iff.mp hu
    exact spells_wordKind ⟨b, rest, rfl, hb, matches_many_oneOf_iff.mp hrest⟩

/-! ### The tokens of a text -/

namespace Cursor

variable {c c' : Cursor} {t : Token}

/-- The tokens of a text are the first one and those behind it. -/
theorem tokens_of_token (h : c.scan = (.token t, c')) :
    c.tokens = (t :: c'.tokens.1, c'.tokens.2) := by
  rw [tokens]
  split <;> simp_all

/-- At the end of the text there are no tokens and no error. -/
theorem tokens_of_ended (h : c.scan = (.ended, c')) : c.tokens = ([], none) := by
  rw [tokens]
  split <;> simp_all

/-- At an error there are no tokens, and the error is reported. -/
theorem tokens_of_failed {e : LexicalError} (h : c.scan = (.failed e, c')) :
    c.tokens = ([], some e) := by
  rw [tokens]
  split <;> simp_all

/-- Every token that is scanned has a spelling that its kind allows. -/
theorem wellSpelled_of_scan (h : c.scan = (.token t, c')) :
    t.WellSpelled := by
  fun_induction scan c with
  | case1 c hnone => split at h <;> cases h
  | case2 c r n hbest haction ih => exact ih h
  | case3 c r n hbest kind haction =>
    cases h
    exact spells_of_mem_lexicalRules (mem_of_bestMatch hbest) (matches_of_bestMatch hbest)
      (by rw [haction]; rfl)
  | case4 c r n hbest haction =>
    cases h
    exact spells_of_mem_lexicalRules (mem_of_bestMatch hbest) (matches_of_bestMatch hbest)
      (by rw [haction]; rfl)
  | case5 c r n hbest fault haction => cases h
  | case6 c r n hbest haction => cases h

/-- All tokens of a text are well-spelled. -/
private theorem wellSpelled_of_mem_tokens (h : t ∈ c.tokens.1) :
    t.WellSpelled := by
  fun_induction tokens c with
  | case1 c t' c' hscan ts error hrest ih =>
    rw [hrest] at ih
    rcases List.mem_cons.mp h with rfl | h
    · exact wellSpelled_of_scan hscan
    · exact ih h
  | case2 | case3 => cases h

end Cursor

/-- Every token of a text is spelled as its kind asks. -/
theorem spells_of_mem_tokenize {s : Bytes} {t : Token} (h : t ∈ (tokenize s).1) :
    t.WellSpelled :=
  Cursor.wellSpelled_of_mem_tokens h

end PrefixForth
