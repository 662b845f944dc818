import PrefixForth.Text.Blank
import PrefixForth.Token.Rule

/-!
# Trimming and cutting into words

A text is trimmed and cut into words by the white space of Unicode, and for that it is read as runes.
What the runes of a text are depends on all its bytes, which need not be UTF-8. But a byte that spells
a character by itself is a rune wherever it stands, since no longer spelling holds such a byte behind
its first one. So a text falls apart at such a byte (`exists_runes_append`).

Main statements: blanks around a text that starts and ends with characters of one byte other than
white space are all that trimming takes away (`trimBlanks_append`), and the first word of such a text
starts with its first byte (`exists_blankWords_cons`).
-/

namespace PrefixForth

/-! ### Characters of one byte -/

/-- The byte spells the character by itself. -/
def SpellsAlone (b : UInt8) (c : Char) : Prop :=
  String.utf8EncodeChar c = [b]

/-- The byte spells a character that is no white space. -/
def IsSolid (b : UInt8) : Prop :=
  ∃ c, SpellsAlone b c ∧ isBlankChar c = false

private theorem exists_spellsAlone_of_isBlankByte {b : UInt8} (h : isBlankByte b = true) :
    ∃ c, SpellsAlone b c ∧ isBlankChar c = true := by
  simp only [isBlankByte, Bool.or_eq_true, beq_iff_eq, or_assoc] at h
  rcases h with rfl | rfl | rfl | rfl
  · exact ⟨' ', rfl, rfl⟩
  · exact ⟨'\t', rfl, rfl⟩
  · exact ⟨'\n', rfl, rfl⟩
  · exact ⟨'\r', rfl, rfl⟩

/-- A text that starts with the spelling of a character starts with the character. -/
theorem leadingChar?_append (c : Char) (s : Bytes) :
    leadingChar? (String.utf8EncodeChar c ++ s) = some c := by
  have hlength : (String.utf8EncodeChar c).length ≤ 4 := by
    rw [String.length_utf8EncodeChar]
    exact c.utf8Size_le_four
  have htake : (ByteArray.mk ((String.utf8EncodeChar c ++ s).take 4).toArray) =
      (String.utf8EncodeChar c).toByteArray ++
        (s.take (4 - (String.utf8EncodeChar c).length)).toByteArray := by
    rw [List.take_append, List.take_of_length_le hlength]
    ext1
    simp
  rw [leadingChar?, htake, ByteArray.utf8DecodeChar?_utf8EncodeChar_append]

/-- A text that starts with a character starts with its spelling. -/
theorem prefix_of_leadingChar? {s : Bytes} {c : Char} (h : leadingChar? s = some c) :
    String.utf8EncodeChar c <+: s := by
  obtain ⟨rest, hrest⟩ := ByteArray.exists_of_utf8DecodeChar?_eq_some h
  have hlist : s.take 4 = String.utf8EncodeChar c ++ rest.data.toList := by
    simpa using congrArg (fun bytes => bytes.data.toList) hrest
  exact (hlist ▸ List.prefix_append _ _).trans (List.take_prefix 4 s)

/-- Behind the first byte of a character there is no byte that spells one by itself. -/
theorem utf8Size_le_of_leadingChar? {s u : Bytes} {b x : UInt8} {c d : Char} (hb : SpellsAlone b c)
    (h : leadingChar? (x :: (s ++ b :: u)) = some d) : d.utf8Size - 1 ≤ s.length := by
  refine Nat.le_of_not_lt fun hlong => ?_
  have hindex : s.length + 1 < (String.utf8EncodeChar d).length := by
    rw [String.length_utf8EncodeChar]
    omega
  have hget : (String.utf8EncodeChar d)[s.length + 1] = b := by
    simp [(prefix_of_leadingChar? h).getElem hindex]
  have hfirst : b.IsUTF8FirstByte := by
    have hzero : (String.utf8EncodeChar c)[0]? = some b := by rw [hb]; rfl
    obtain ⟨hlt, heq⟩ := List.getElem?_eq_some_iff.mp hzero
    rw [← heq]
    exact UInt8.isUTF8FirstByte_getElem_utf8EncodeChar.mpr rfl
  rw [← hget, UInt8.isUTF8FirstByte_getElem_utf8EncodeChar] at hfirst
  cases hfirst

/-! ### Runes of a text with such a byte in it -/

section Runes

variable {b : UInt8} {c : Char}

private theorem runes_cons (hb : SpellsAlone b c) (s : Bytes) :
    runes (b :: s) = ⟨[b], some c⟩ :: runes s := by
  have hsize : c.utf8Size = 1 := by rw [← String.length_utf8EncodeChar, hb]; rfl
  have hlead : leadingChar? (b :: s) = some c := by
    have happend := leadingChar?_append c s
    rwa [hb] at happend
  rw [runes, runesFrom, hlead]
  simp [hsize, runes]

/-- A text falls apart at a byte that spells a character by itself; `skip` bytes of the first part
belong to a rune before. -/
theorem exists_runesFrom_append (hb : SpellsAlone b c) (s u : Bytes) (skip : Nat)
    (hskip : skip ≤ s.length) :
    ∃ rs, runesFrom skip (s ++ b :: u) = rs ++ runes (b :: u) ∧ unrunes rs = s.drop skip := by
  induction s generalizing skip with
  | nil =>
    obtain rfl : skip = 0 := Nat.le_zero.mp hskip
    exact ⟨[], rfl, rfl⟩
  | cons x s ih =>
    cases skip with
    | succ k => exact ih k (Nat.le_of_succ_le_succ hskip)
    | zero =>
      rw [List.cons_append, runesFrom]
      split
      · rename_i d hlead
        have hfits := utf8Size_le_of_leadingChar? hb hlead
        obtain ⟨rs, hruns, hbytes⟩ := ih (d.utf8Size - 1) hfits
        refine ⟨_ :: rs, by rw [hruns, List.cons_append], ?_⟩
        rw [unrunes, List.flatMap_cons, ← unrunes, hbytes, List.take_append_of_le_length hfits]
        simp
      · obtain ⟨rs, hruns, hbytes⟩ := ih 0 (Nat.zero_le _)
        refine ⟨_ :: rs, by rw [hruns, List.cons_append], ?_⟩
        rw [unrunes, List.flatMap_cons, ← unrunes, hbytes]
        simp

theorem exists_runes_append (hb : SpellsAlone b c) (s u : Bytes) :
    ∃ rs, runes (s ++ b :: u) = rs ++ ⟨[b], some c⟩ :: runes u ∧ unrunes rs = s := by
  obtain ⟨rs, hruns, hbytes⟩ := exists_runesFrom_append hb s u 0 (Nat.zero_le _)
  exact ⟨rs, by rw [runes, hruns, runes_cons hb], by rw [hbytes, List.drop_zero]⟩

/-- Blanks in front of a text are runes of their own. -/
theorem exists_runes_blanks {w : Bytes} (hw : ∀ b ∈ w, isBlankByte b = true) (s : Bytes) :
    ∃ rs, runes (w ++ s) = rs ++ runes s ∧ ∀ r ∈ rs, r.isBlank = true := by
  induction w with
  | nil => exact ⟨[], rfl, nofun⟩
  | cons b w ih =>
    rw [List.forall_mem_cons] at hw
    obtain ⟨c, hb, hc⟩ := exists_spellsAlone_of_isBlankByte hw.1
    obtain ⟨rs, hruns, hblank⟩ := ih hw.2
    refine ⟨⟨[b], some c⟩ :: rs, by rw [List.cons_append, runes_cons hb, hruns, List.cons_append], ?_⟩
    exact List.forall_mem_cons.mpr ⟨hc, hblank⟩

end Runes

/-! ### Trimming -/

section Trimming

variable {a b : UInt8} {s : Bytes}

/-- Of a text that starts and ends with characters of one byte, trimming takes away the blanks
around it and nothing else. -/
theorem trimBlanks_append (ha : IsSolid a) (hb : IsSolid b) {lead trail : Bytes}
    (hlead : ∀ x ∈ lead, isBlankByte x = true) (htrail : ∀ x ∈ trail, isBlankByte x = true) :
    trimBlanks (lead ++ (a :: (s ++ [b]) ++ trail)) = a :: (s ++ [b]) := by
  obtain ⟨c, hac, hc⟩ := ha
  obtain ⟨d, hbd, hd⟩ := hb
  obtain ⟨front, hfront, hfrontBlank⟩ := exists_runes_blanks hlead (a :: (s ++ [b]) ++ trail)
  obtain ⟨inner, hinner, hbytes⟩ := exists_runes_append hbd s trail
  obtain ⟨back, hback, hbackBlank⟩ := exists_runes_blanks htrail []
  rw [List.append_nil, show runes [] = [] from rfl, List.append_nil] at hback
  have hruns : runes (lead ++ (a :: (s ++ [b]) ++ trail)) =
      front ++ ⟨[a], some c⟩ :: (inner ++ ⟨[b], some d⟩ :: back) := by
    rw [hfront, List.cons_append, runes_cons hac, List.append_assoc, List.singleton_append, hinner,
      hback]
  have hfirst : (runes (lead ++ (a :: (s ++ [b]) ++ trail))).dropWhile Rune.isBlank =
      ⟨[a], some c⟩ :: (inner ++ ⟨[b], some d⟩ :: back) := by
    rw [hruns, List.dropWhile_append_of_pos hfrontBlank]
    exact List.dropWhile_cons_of_neg (by simp [Rune.isBlank, hc])
  have hlast : (⟨[a], some c⟩ :: (inner ++ ⟨[b], some d⟩ :: back)).reverse =
      back.reverse ++ ⟨[b], some d⟩ :: (inner.reverse ++ [⟨[a], some c⟩]) := by
    simp
  rw [trimBlanks, hfirst, hlast,
    List.dropWhile_append_of_pos fun r hr => hbackBlank r (List.mem_reverse.mp hr),
    List.dropWhile_cons_of_neg (by simp [Rune.isBlank, hd])]
  simp [unrunes, ← hbytes]

end Trimming

/-! ### The first word -/

/-- A word that has been started is the first one. -/
theorem exists_wordsFrom_cons {word : List Rune} (hword : word ≠ []) (rs : List Rune) :
    ∃ rest words, wordsFrom word rs = (unrunes word.reverse ++ rest) :: words := by
  induction rs generalizing word with
  | nil => exact ⟨[], [], by simp [wordsFrom, hword]⟩
  | cons r rs ih =>
    rw [wordsFrom]
    split
    · exact ⟨[], wordsFrom [] rs, by simp [hword]⟩
    · obtain ⟨rest, words, heq⟩ := ih (List.cons_ne_nil r word)
      exact ⟨r.bytes ++ rest, words, by simp [heq, unrunes]⟩

/-- The first word of a text starts with its first byte, if that is no white space. -/
theorem exists_blankWords_cons {b : UInt8} (hb : IsSolid b) (s : Bytes) :
    ∃ rest words, blankWords (b :: s) = (b :: rest) :: words := by
  obtain ⟨c, hbc, hc⟩ := hb
  obtain ⟨rest, words, heq⟩ := exists_wordsFrom_cons (List.cons_ne_nil ⟨[b], some c⟩ []) (runes s)
  refine ⟨rest, words, ?_⟩
  rw [blankWords, runes_cons hbc, wordsFrom, if_neg (by simp [Rune.isBlank, hc]), heq]
  rfl

end PrefixForth
