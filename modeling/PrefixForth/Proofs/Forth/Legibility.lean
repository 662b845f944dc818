import PrefixForth.Proofs.Forth.Emission
import PrefixForth.Proofs.Forth.Reader

/-!
# Generated code can be read

The text of generated code is read as that code: every literal, name and word is told apart from what
stands around it and found again, and every control structure is closed where it should be. This takes
one thing that the generator does not see to: no variable may have the name of a word of the machine,
since the name would take the place of the word.

`Legible` says it for a piece of code, between the tables that hold what is declared before and after
it. Main statements: the code of a well-formed tree is legible (`Node.WellFormed.legible`), and the
target text of a program is read as its preamble and the code of its lines (`read_targetText`).
-/

namespace PrefixForth

namespace Forth

/-! ### Looking words up -/

private theorem mem_words (v : Word) : v ∈ words := by
  cases v with
  | fetch s | store s | dup s => cases s <;> simp [words, storages]
  | int op | float op => cases op <;> simp [words]
  | intCompare op | floatCompare op => cases op <;> simp [words]
  | logic op => cases op <;> simp [words]
  | trigonometric op => cases op <;> simp [words]
  | _ => simp [words]

private theorem mem_markers (k : Marker) : k ∈ markers := by
  cases k with
  | declaration s => cases s <;> simp [markers, storages]
  | _ => simp [markers]

theorem text_mem_vocabulary_word (v : Word) : v.text ∈ vocabulary := by
  simp only [vocabulary, List.mem_append, List.mem_map]
  exact .inl (.inr ⟨v, mem_words v, rfl⟩)

theorem text_mem_vocabulary_marker (k : Marker) : k.text ∈ vocabulary := by
  simp only [vocabulary, List.mem_append, List.mem_map]
  exact .inl (.inl ⟨k, mem_markers k, rfl⟩)

private theorem find?_markers (k : Marker) : markers.find? (·.text = k.text) = some k := by
  have h : ∀ k ∈ markers, markers.find? (·.text = k.text) = some k := by decide +kernel
  exact h k (mem_markers k)

/-- No word is a marker. -/
theorem find?_markers_word (v : Word) : markers.find? (·.text = v.text) = none := by
  have h : ∀ v ∈ words, markers.find? (·.text = v.text) = none := by decide +kernel
  exact h v (mem_words v)

private theorem instruction?_word (v : Word) : instruction? v.text = some (.word v) := by
  have h : ∀ v ∈ words, words.find? (·.text = v.text) = some v := by decide +kernel
  rw [instruction?, h v (mem_words v)]

/-- The text is made like a numeral: it starts with a digit, and has only bytes that numerals have. -/
def isNumeralLike (x : Bytes) : Bool :=
  (x.head?.any isDigitByte) &&
    x.all fun b => isDigitByte b || b = 46 || b = 101 || b = 69 || b = 43 || b = 45

/-- Nothing in the vocabulary is made like a numeral. -/
theorem not_isNumeralLike_of_mem_vocabulary : ∀ x ∈ vocabulary, isNumeralLike x = false := by
  decide +kernel

/-- Words that mean something can be told apart from what stands around them. -/
theorem separate_of_mem_vocabulary : ∀ x ∈ vocabulary, x ≠ [] ∧ (∀ b ∈ x, isSeparator b = false) ∧
    x ≠ plainOpening ∧ x ≠ escapedOpening := by
  decide +kernel

/-! ### Reading numerals -/

/-- The byte of a numeral: a digit, a point, an exponent mark or a sign. -/
theorem not_isSeparator_of_numeral {b : UInt8}
    (h : (isDigitByte b || b = 46 || b = 101 || b = 69 || b = 43 || b = 45) = true) :
    isSeparator b = false := by
  simp only [isDigitByte, Bool.or_eq_true, Bool.and_eq_true, decide_eq_true_eq] at h
  simp only [isSeparator, decide_eq_false_iff_not, UInt8.not_le]
  rcases h with ((((⟨h, -⟩ | rfl) | rfl) | rfl) | rfl) | rfl
  · exact UInt8.lt_of_lt_of_le (by decide) h
  all_goals decide

/-- Numerals can be told apart from what stands around them. -/
theorem separate_of_isNumeralLike {x : Bytes} (h : isNumeralLike x = true) : Separate x := by
  rw [isNumeralLike, Bool.and_eq_true, List.all_eq_true] at h
  obtain ⟨hfirst, hbytes⟩ := h
  refine ⟨?_, fun b hb => not_isSeparator_of_numeral (hbytes b hb), ?_, ?_⟩
  · rintro rfl
    simp at hfirst
  · rintro rfl
    revert hfirst
    decide
  · rintro rfl
    revert hfirst
    decide

/-- A mantissa by its parts. -/
theorem splitPoint_of_isMantissa {s : Bytes} (h : IsMantissa s) :
    IsNumeral (splitPoint s).1 ∧ IsDigits (splitPoint s).2 := by
  obtain ⟨whole, fraction, rfl, hwhole, hfraction⟩ := h
  have hpoint : ∀ b ∈ whole, decide (b ≠ 46) = true := by
    intro b hb
    have hdigit := hwhole.2 b hb
    simp only [decide_eq_true_eq]
    rintro rfl
    revert hdigit
    decide
  rw [splitPoint, List.takeWhile_append_of_pos hpoint, List.dropWhile_append_of_pos hpoint]
  rcases hfraction with rfl | ⟨digits, rfl, hdigits⟩
  · simpa [IsDigits] using hwhole
  · simpa using ⟨hwhole, hdigits⟩

/-- The bytes of a mantissa. -/
theorem bytes_of_isMantissa {s : Bytes} (h : IsMantissa s) :
    ∀ b ∈ s, isDigitByte b = true ∨ b = 46 := by
  obtain ⟨whole, fraction, rfl, hwhole, hfraction⟩ := h
  intro b hb
  rcases List.mem_append.mp hb with hb | hb
  · exact .inl (hwhole.2 b hb)
  · rcases hfraction with rfl | ⟨digits, rfl, hdigits⟩
    · cases hb
    · rcases List.mem_cons.mp hb with rfl | hb
      · exact .inr rfl
      · exact .inl (hdigits b hb)

theorem isNoMark_of_isMantissa {s : Bytes} (h : IsMantissa s) : ∀ b ∈ s, isNoMark b = true := by
  intro b hb
  rcases bytes_of_isMantissa h b hb with hb | rfl
  · simp only [isDigitByte, Bool.and_eq_true, decide_eq_true_eq] at hb
    simp only [isNoMark, ne_eq, Bool.and_eq_true, decide_eq_true_eq]
    constructor <;> rintro rfl <;> revert hb <;> decide
  · decide

private theorem splitExponent_append {s e : Bytes} (h : ∀ b ∈ s, isNoMark b = true) :
    splitExponent (s ++ 101 :: e) = (s, e) := by
  rw [splitExponent, List.takeWhile_append_of_pos h, List.dropWhile_append_of_pos h]
  simp [isNoMark]

/-- The bytes of an exponent. -/
theorem bytes_of_isExponent {e : Bytes} (h : IsExponent e) :
    ∀ b ∈ e, isDigitByte b = true ∨ b = 43 ∨ b = 45 := by
  obtain ⟨sign, digits, rfl, hsign, hdigits⟩ := h
  intro b hb
  rcases List.mem_append.mp hb with hb | hb
  · rcases hsign with rfl | rfl | rfl <;> simp_all
  · exact .inl (hdigits.2 b hb)

/-- A mantissa gets the exponent mark. -/
theorem realNumeral_of_isMantissa {m : Bytes} (h : IsMantissa m) : realNumeral m = m ++ [101] := by
  have hmark : ¬((101 : UInt8) ∈ m ∨ (69 : UInt8) ∈ m) := by
    rintro (hb | hb) <;> exact absurd (isNoMark_of_isMantissa h _ hb) (by decide)
  rw [realNumeral, if_neg hmark]
  rfl

/-- What has the exponent mark stays as it is. -/
theorem realNumeral_of_mark (m e : Bytes) : realNumeral (m ++ 101 :: e) = m ++ 101 :: e := by
  simp [realNumeral]

/-- A real literal as it is written: a mantissa, the exponent mark, and possibly an exponent. -/
theorem exists_realNumeral {s : Bytes} (h : IsRealNumeral s) :
    ∃ m e, realNumeral s = m ++ 101 :: e ∧ IsMantissa m ∧ (e = [] ∨ IsExponent e) := by
  rcases h with ⟨h, -⟩ | ⟨m, e, rfl, hm, he⟩
  · exact ⟨s, [], realNumeral_of_isMantissa h, h, .inl rfl⟩
  · exact ⟨m, e, realNumeral_of_mark m e, hm, .inr he⟩

/-- An exponent has only digits after its sign. -/
theorem isDigits_dropSign {e : Bytes} (h : e = [] ∨ IsExponent e) : IsDigits (dropSign e) := by
  rcases h with rfl | ⟨sign, digits, rfl, hsign, hne, hdigits⟩
  · simp [dropSign, IsDigits]
  · rcases hsign with rfl | rfl | rfl
    · obtain ⟨b, y, rfl⟩ := List.exists_cons_of_ne_nil hne
      have hb : ¬(b = 43 ∨ b = 45) := by
        have hdigit := hdigits b List.mem_cons_self
        rintro (rfl | rfl) <;> revert hdigit <;> decide
      rw [List.nil_append, dropSign, if_neg hb]
      exact hdigits
    · exact hdigits
    · exact hdigits

/-- The reader takes those texts for integers that are numerals. -/
theorem isIntNumeral_eq_true_iff {x : Bytes} : isIntNumeral x = true ↔ IsNumeral x := by
  simp [isIntNumeral, IsNumeral, IsDigits]

theorem isNumeralLike_int {x : Bytes} (h : IsNumeral x) : isNumeralLike x = true := by
  obtain ⟨hne, hdigits⟩ := h
  obtain ⟨b, y, rfl⟩ := List.exists_cons_of_ne_nil hne
  rw [isNumeralLike, Bool.and_eq_true, List.all_eq_true]
  exact ⟨by simpa using hdigits b List.mem_cons_self, fun c hc => by simp [hdigits c hc]⟩

/-- What is written for a real number looks like a number. -/
theorem isNumeralLike_real {s : Bytes} (h : IsRealNumeral s) :
    isNumeralLike (realNumeral s) = true := by
  obtain ⟨m, e, hs, hm, he⟩ := exists_realNumeral h
  have hfirst : (m ++ 101 :: e).head?.any isDigitByte = true := by
    obtain ⟨whole, fraction, rfl, ⟨hne, hdigits⟩, -⟩ := hm
    obtain ⟨b, y, rfl⟩ := List.exists_cons_of_ne_nil hne
    simpa using hdigits b List.mem_cons_self
  have hexponent : ∀ b ∈ e, isDigitByte b = true ∨ b = 43 ∨ b = 45 := by
    rcases he with rfl | he
    · simp
    · exact bytes_of_isExponent he
  rw [hs, isNumeralLike, Bool.and_eq_true, List.all_eq_true]
  refine ⟨hfirst, fun b hb => ?_⟩
  rcases List.mem_append.mp hb with hb | hb
  · rcases bytes_of_isMantissa hm b hb with h | rfl
    · simp [h]
    · decide
  · rcases List.mem_cons.mp hb with rfl | hb
    · decide
    · rcases hexponent b hb with h | rfl | rfl
      · simp [h]
      · decide
      · decide

private theorem isRealNumeral_realNumeral {s : Bytes} (h : IsRealNumeral s) :
    isRealNumeral (realNumeral s) = true := by
  obtain ⟨m, e, hs, hm, he⟩ := exists_realNumeral h
  obtain ⟨hwhole, hfraction⟩ := splitPoint_of_isMantissa hm
  have hmark : (m ++ 101 :: e).any (fun b => !isNoMark b) = true := by simp [isNoMark]
  have hexponent := isDigits_dropSign he
  simp only [hs, isRealNumeral, splitExponent_append (isNoMark_of_isMantissa hm), hmark,
    isIntNumeral_eq_true_iff.mpr hwhole, Bool.true_and, Bool.and_eq_true, List.all_eq_true]
  exact ⟨hfraction, hexponent⟩

private theorem not_isIntNumeral_realNumeral {s : Bytes} (h : IsRealNumeral s) :
    isIntNumeral (realNumeral s) = false := by
  obtain ⟨m, e, hs, -, -⟩ := exists_realNumeral h
  rw [hs, Bool.eq_false_iff]
  intro hint
  have hdigit := (isIntNumeral_eq_true_iff.mp hint).2 101 (by simp)
  revert hdigit
  decide

/-- No numeral is a word that means something. -/
theorem not_mem_vocabulary_of_isNumeralLike {x : Bytes} (h : isNumeralLike x = true) :
    x ∉ vocabulary := fun hx =>
  Bool.false_ne_true ((not_isNumeralLike_of_mem_vocabulary x hx).symm.trans h)

/-- A text without a meaning of its own is no marker. -/
theorem find?_markers_of_not_mem {x : Bytes} (h : x ∉ vocabulary) :
    markers.find? (·.text = x) = none := by
  rw [List.find?_eq_none]
  intro k _
  simp only [decide_eq_true_eq]
  rintro rfl
  exact h (text_mem_vocabulary_marker k)

/-- Outside the vocabulary only numerals are instructions. -/
theorem instruction?_of_not_mem {x : Bytes} (h : x ∉ vocabulary) :
    instruction? x = if isIntNumeral x then some (.int x) else
      if isRealNumeral x then some (.real x) else none := by
  have hword : words.find? (·.text = x) = none := by
    rw [List.find?_eq_none]
    intro v _
    simp only [decide_eq_true_eq]
    rintro rfl
    exact h (text_mem_vocabulary_word v)
  have hflag : ¬flagNames.contains x = true := fun hx =>
    h (List.mem_append_right _ (List.contains_iff_mem.mp hx))
  rw [instruction?, hword]
  simp only [if_neg hflag]

/-- The reader takes an integer numeral for an integer, -/
theorem instruction?_int {x : Bytes} (hx : IsNumeral x) : instruction? x = some (.int x) := by
  have hclear := not_mem_vocabulary_of_isNumeralLike (isNumeralLike_int hx)
  rw [instruction?_of_not_mem hclear, if_pos (isIntNumeral_eq_true_iff.mpr hx)]

/-- and what is written for a real number for that number. -/
theorem instruction?_real {s : Bytes} (hs : IsRealNumeral s) :
    instruction? (realNumeral s) = some (.real (realNumeral s)) := by
  have hclear := not_mem_vocabulary_of_isNumeralLike (isNumeralLike_real hs)
  rw [instruction?_of_not_mem hclear, not_isIntNumeral_realNumeral hs, if_neg Bool.false_ne_true,
    if_pos (isRealNumeral_realNumeral hs)]

/-! ### Legible code -/

/-- The names are those that the table declares; they are words of the source language and mean
nothing else. -/
structure Knows (names : List Bytes) (t : SymbolTable) : Prop where
  declared : ∀ x, x ∈ names ↔ t.scope x ≠ none
  isWord : ∀ x ∈ names, IsWord x
  clear : ∀ x ∈ names, x ∉ vocabulary

/-- The pieces lead one reader to another. -/
def Reads (pieces : List Piece) (r r' : Reader) : Prop :=
  pieces.foldlM Reader.piece r = some r'

private theorem reads_nil (r : Reader) : Reads [] r r := rfl

/-- Pieces are read in two parts, the second by the reader that the first leaves. -/
theorem Reads.append {ps qs : List Piece} {r r' r'' : Reader} (h : Reads ps r r')
    (h' : Reads qs r' r'') : Reads (ps ++ qs) r r'' := by
  rw [Reads, List.foldlM_append, h]
  exact h'

private theorem reads_piece {p : Piece} {r r' : Reader} (h : r.piece p = some r') :
    Reads [p] r r' := by
  simp [Reads, h]

/-- A reader that knows what the first table declares reads the text of the code as the code, and
knows what the second table declares then. -/
def Legible (t : SymbolTable) (c : Code) (t' : SymbolTable) : Prop :=
  ∃ pieces, Scans c.text pieces ∧ ∀ r : Reader, r.announced = none → Knows r.names t → ∃ names,
    Reads pieces r { r with names := names, code := r.code ++ c } ∧ Knows names t'

section Legible

variable {t t₁ t₂ t' : SymbolTable} {c d : Code} {r : Reader}

/-- What a reader knows of a table is which names are in scope. -/
theorem Knows.congr {names : List Bytes} (h : Knows names t)
    (ht : ∀ x, t.scope x ≠ none ↔ t'.scope x ≠ none) : Knows names t' :=
  ⟨fun x => (h.declared x).trans (ht x), h.isWord, h.clear⟩

/-- Of the second table it matters only which names are in scope. -/
theorem Legible.congr (h : Legible t c t₁) (ht : ∀ x, t₁.scope x ≠ none ↔ t'.scope x ≠ none) :
    Legible t c t' := by
  obtain ⟨ps, hscans, hread⟩ := h
  refine ⟨ps, hscans, fun r hr hknows => ?_⟩
  obtain ⟨names, hfold, hnames⟩ := hread r hr hknows
  exact ⟨names, hfold, hnames.congr ht⟩

/-- The texts of code are those of its instructions. -/
theorem texts_append (c d : Code) : Code.texts (c ++ d) = Code.texts c ++ Code.texts d := by
  induction c with
  | nil => rfl
  | cons i c ih => rw [List.cons_append, Code.texts, Code.texts, ih, List.cons_append]

private theorem legible_nil (t : SymbolTable) : Legible t [] t :=
  ⟨[], scans_nil, fun r _ hknows => ⟨r.names, by rw [List.append_nil]; exact reads_nil r, hknows⟩⟩

/-- A code after another, with a blank between their texts. -/
theorem Legible.append (hc : Legible t c t₁) (hd : Legible t₁ d t') : Legible t (c ++ d) t' := by
  obtain ⟨ps, hps, hreadc⟩ := hc
  obtain ⟨qs, hqs, hreadd⟩ := hd
  refine ⟨ps ++ qs, ?_, fun r hr hknows => ?_⟩
  · rw [Code.text, texts_append]
    exact hps.spaced_append hqs
  · obtain ⟨names, hr₁, hnames⟩ := hreadc r hr hknows
    obtain ⟨names', hr₂, hnames'⟩ := hreadd { r with names := names, code := r.code ++ c } hr hnames
    rw [List.append_assoc] at hr₂
    exact ⟨names', hr₁.append hr₂, hnames'⟩

/-- An instruction that is one piece of a text. -/
theorem legible_piece {i : Instruction} {p : Piece} (hscans : Scans i.text [p])
    (h : ∀ r : Reader, r.announced = none → Knows r.names t →
      r.piece p = some { r with code := r.code ++ [i] }) : Legible t [i] t := by
  refine ⟨[p], by simpa [Code.text, Code.texts, spaced, List.intercalate] using hscans,
    fun r hr hknows => ⟨r.names, reads_piece (h r hr hknows), hknows⟩⟩

/-! ### Single instructions -/

/-- A word that means something is one piece of the text. -/
theorem scans_of_mem_vocabulary {x : Bytes} (h : x ∈ vocabulary) : Scans x [.word x] := by
  obtain ⟨hne, hbytes, hopening⟩ := separate_of_mem_vocabulary x h
  exact Separate.scans ⟨hne, hbytes, hopening⟩

/-- A word that is neither declared nor a marker is an instruction. -/
theorem word_eq_some {x : Bytes} {i : Instruction} (hr : r.announced = none) (hx : x ∉ r.names)
    (hmarker : markers.find? (·.text = x) = none) (hi : instruction? x = some i) :
    r.word x = some { r with code := r.code ++ [i] } := by
  simp [Reader.word, hr, hx, hmarker, hi]

/-- A word is read as itself. -/
theorem legible_word (v : Word) : Legible t [.word v] t := by
  have hmem := text_mem_vocabulary_word v
  refine legible_piece (scans_of_mem_vocabulary hmem) fun r hr hknows => ?_
  exact word_eq_some hr (fun hx => hknows.clear _ hx hmem) (find?_markers_word v) (instruction?_word v)

/-- A truth value is an instruction. -/
theorem instruction?_flag {x : Bytes} (hx : x = utf8 "true" ∨ x = utf8 "false") :
    x ∈ vocabulary ∧ markers.find? (·.text = x) = none ∧ instruction? x = some (.flag x) := by
  have hflag : x ∈ flagNames := by simpa [flagNames] using hx
  refine ⟨List.mem_append_right _ hflag, ?_, ?_⟩
  · rcases hx with rfl | rfl <;> decide +kernel
  · rcases hx with rfl | rfl <;> rfl

private theorem legible_flag {x : Bytes} (hx : x = utf8 "true" ∨ x = utf8 "false") :
    Legible t [.flag x] t := by
  obtain ⟨hmem, hmarker, hi⟩ := instruction?_flag hx
  refine legible_piece (scans_of_mem_vocabulary hmem) fun r hr hknows => ?_
  exact word_eq_some hr (fun hx => hknows.clear _ hx hmem) hmarker hi

/-- A numeral is no declared name, as names start with letters. -/
theorem Knows.not_mem_of_isNumeralLike {names : List Bytes} {x : Bytes} (h : Knows names t)
    (hx : isNumeralLike x = true) : x ∉ names := by
  intro hmem
  obtain ⟨b, y, rfl, hletter, -⟩ := h.isWord x hmem
  rw [isNumeralLike, Bool.and_eq_true] at hx
  have hdigit : isDigitByte b = true := by simpa using hx.1
  simp only [isDigitByte, isLetterByte, Bool.and_eq_true, Bool.or_eq_true, decide_eq_true_eq,
    beq_iff_eq, UInt8.le_iff_toNat_le] at hdigit hletter
  obtain ⟨-, hdigit⟩ := hdigit
  rcases hletter with (⟨h, -⟩ | ⟨h, -⟩) | rfl
  · exact absurd (h.trans hdigit) (by decide)
  · exact absurd (h.trans hdigit) (by decide)
  · exact absurd hdigit (by decide)

/-- An instruction for a numeral. -/
theorem legible_numeral {i : Instruction} (hlike : isNumeralLike i.text = true)
    (hi : instruction? i.text = some i) : Legible t [i] t := by
  have hmarker := find?_markers_of_not_mem (not_mem_vocabulary_of_isNumeralLike hlike)
  refine legible_piece (separate_of_isNumeralLike hlike).scans fun r hr hknows => ?_
  exact word_eq_some hr (hknows.not_mem_of_isNumeralLike hlike) hmarker hi

private theorem legible_int {x : Bytes} (hx : IsNumeral x) : Legible t [.int x] t :=
  legible_numeral (isNumeralLike_int hx) (instruction?_int hx)

private theorem legible_real {s : Bytes} (hs : IsRealNumeral s) :
    Legible t [.real (realNumeral s)] t :=
  legible_numeral (isNumeralLike_real hs) (instruction?_real hs)

private theorem legible_string {body : Bytes} (h : IsStringBody body) :
    Legible t [.string body] t := by
  refine legible_piece (scans_stringText h) fun r hr _ => ?_
  simp [Reader.piece, hr]

/-- A name is a word by itself. -/
theorem separate_of_isWord {x : Bytes} (h : IsWord x) : Separate x := by
  obtain ⟨b, y, rfl, hletter, hrest⟩ := h
  have hbytes : ∀ c ∈ b :: y, (isLetterByte c || isDigitByte c) = true := by
    intro c hc
    rcases List.mem_cons.mp hc with rfl | hc
    · simp [hletter]
    · exact hrest c hc
  refine ⟨List.cons_ne_nil b y, fun c hc => ?_, ?_, ?_⟩
  · have hc := hbytes c hc
    simp only [isLetterByte, isDigitByte, Bool.or_eq_true, Bool.and_eq_true, decide_eq_true_eq,
      beq_iff_eq, UInt8.le_iff_toNat_le] at hc
    simp only [isSeparator, decide_eq_false_iff_not, UInt8.le_iff_toNat_le, UInt8.reduceToNat] at hc ⊢
    rcases hc with ((hc | hc) | rfl) | hc
    · omega
    · omega
    · decide
    · omega
  · intro h
    exact absurd (hbytes quoteMark (h ▸ by decide)) (by decide)
  · intro h
    exact absurd (hbytes quoteMark (h ▸ by decide)) (by decide)

/-- A declared name. -/
theorem legible_name {x : Bytes} (hx : IsWord x) (ht : t.scope x ≠ none) : Legible t [.name x] t := by
  refine legible_piece (separate_of_isWord hx).scans fun r hr hknows => ?_
  simp [Reader.piece, Reader.word, hr, (hknows.declared x).mpr ht]

/-! ### Structures -/

/-- A marker is read as what it is. -/
theorem reads_marker {r' : Reader} (hr : r.announced = none) (hknows : Knows r.names t) {k : Marker}
    (h : r.mark k = some r') : Reads [.word k.text] r r' := by
  have hx : k.text ∉ r.names := fun hx => hknows.clear _ hx (text_mem_vocabulary_marker k)
  refine reads_piece ?_
  simp [Reader.piece, Reader.word, hr, hx, find?_markers k, h]

private theorem scans_marker (k : Marker) : Scans k.text [.word k.text] :=
  scans_of_mem_vocabulary (text_mem_vocabulary_marker k)

/-- The text of one instruction. -/
theorem text_singleton (i : Instruction) : Code.text [i] = i.text := by
  simp [Code.text, Code.texts, spaced, List.intercalate]

/-- A structure with one part, by what its markers do. -/
theorem legible_bracket {i : Instruction} (opening closing : Marker) (inside : Code → Frame)
    (htext : i.text = joinWords [opening.text, c.text, closing.text])
    (hopening : ∀ r : Reader, r.mark opening = some (r.enter (inside r.code)))
    (hclosing : ∀ r : Reader, { r.enter (inside r.code) with code := c }.mark closing =
      some { r with code := r.code ++ [i] })
    (hc : Legible t c t') : Legible t [i] t' := by
  obtain ⟨ps, hps, hread⟩ := hc
  refine ⟨[[.word opening.text], ps, [.word closing.text]].flatten, ?_, fun r hr hknows => ?_⟩
  · rw [text_singleton, htext]
    exact scans_joinWords
      (.cons (scans_marker opening) (.cons hps (.cons (scans_marker closing) .nil)))
  · obtain ⟨names, hbody, hnames⟩ := hread (r.enter (inside r.code)) hr hknows
    have hend := reads_marker (by exact hr) hnames (hclosing { r with names := names })
    refine ⟨names, ?_, hnames⟩
    exact (reads_marker hr hknows (hopening r)).append (hbody.append (hend.append (reads_nil _)))

/-- A structure with two parts. -/
theorem legible_division {i : Instruction} (opening middle closing : Marker)
    (inFirst inSecond : Code → Frame)
    (htext : i.text = joinWords [opening.text, c.text, middle.text, d.text, closing.text])
    (hopening : ∀ r : Reader, r.mark opening = some (r.enter (inFirst r.code)))
    (hmiddle : ∀ r : Reader, { r.enter (inFirst r.code) with code := c }.mark middle =
      some (r.enter (inSecond r.code)))
    (hclosing : ∀ r : Reader, { r.enter (inSecond r.code) with code := d }.mark closing =
      some { r with code := r.code ++ [i] })
    (hc : Legible t c t₁) (hd : Legible t₁ d t') : Legible t [i] t' := by
  obtain ⟨ps, hps, hreadc⟩ := hc
  obtain ⟨qs, hqs, hreadd⟩ := hd
  refine ⟨[[.word opening.text], ps, [.word middle.text], qs, [.word closing.text]].flatten, ?_,
    fun r hr hknows => ?_⟩
  · rw [text_singleton, htext]
    exact scans_joinWords (.cons (scans_marker opening) (.cons hps
      (.cons (scans_marker middle) (.cons hqs (.cons (scans_marker closing) .nil)))))
  · obtain ⟨names, hc, hnames⟩ := hreadc (r.enter (inFirst r.code)) hr hknows
    obtain ⟨names', hd, hnames'⟩ :=
      hreadd ({ r with names := names }.enter (inSecond r.code)) hr hnames
    have hturn := reads_marker (by exact hr) hnames (hmiddle { r with names := names })
    have hend := reads_marker (by exact hr) hnames' (hclosing { r with names := names' })
    refine ⟨names', ?_, hnames'⟩
    exact (reads_marker hr hknows (hopening r)).append
      (hc.append (hturn.append (hd.append (hend.append (reads_nil _)))))

private theorem legible_choose (hc : Legible t c t') : Legible t [.choose c] t' :=
  legible_bracket .choose .endChoose .choose rfl (fun _ => rfl) (fun _ => rfl) hc

private theorem legible_count (hc : Legible t c t') : Legible t [.count c] t' :=
  legible_bracket .count .endCount .count rfl (fun _ => rfl) (fun _ => rfl) hc

private theorem legible_chooseElse (hc : Legible t c t₁) (hd : Legible t₁ d t') :
    Legible t [.chooseElse c d] t' :=
  legible_division .choose .otherwise .endChoose .choose (.otherwise · c) rfl (fun _ => rfl) (fun _ => rfl)
    (fun _ => rfl) hc hd

private theorem legible_loop (hc : Legible t c t₁) (hd : Legible t₁ d t') :
    Legible t [.loop c d] t' :=
  legible_division .begin .test .again .loop (.body · c) rfl (fun _ => rfl) (fun _ => rfl)
    (fun _ => rfl) hc hd

/-- A new name. -/
theorem legible_define {s : Storage} {x : Bytes} {τ : ValueType} (hx : IsWord x)
    (hclear : x ∉ vocabulary) (hs : τ.storage? = some s) :
    Legible t [.define s x] (t.put ⟨x, τ, false⟩) := by
  refine ⟨[[.word (Marker.declaration s).text], [.word x]].flatten, ?_, fun r hr hknows => ?_⟩
  · rw [text_singleton, Instruction.text]
    exact scans_joinWords
      (.cons (scans_marker (.declaration s)) (.cons (separate_of_isWord hx).scans .nil))
  · have hname : Reads [.word x] { r with announced := some (.declaration s) }
        { r with names := x :: r.names, code := r.code ++ [.define s x] } := by
      refine reads_piece ?_
      simp [Reader.piece, Reader.word, hr]
    refine ⟨x :: r.names, (reads_marker hr hknows rfl).append (hname.append (reads_nil _)), ?_, ?_, ?_⟩
    · intro y
      rw [List.mem_cons, hknows.declared y, SymbolTable.scope_put_of_storage? hs]
      by_cases hyx : y = x
      · subst hyx
        simp
      · simp [hyx]
    · exact List.forall_mem_cons.mpr ⟨hx, hknows.isWord⟩
    · exact List.forall_mem_cons.mpr ⟨hclear, hknows.clear⟩

end Legible

end Forth

open Forth

/-! ### The code of trees -/

section Trees

variable {t t₁ t' T : SymbolTable}

private theorem Value.legible_realCode {u : Value} (h : Legible t u.code t')
    (hcode : u.code.isBlank = false) : Legible t u.realCode t' := by
  by_cases hint : u.type = .int
  · rw [realCode_of_int hint hcode]
    exact h.append (legible_word _)
  · rwa [realCode_of_ne_int hint]

/-- The code of a binary operator is legible if that of its operands is. -/
theorem BinaryCode.legible {op : BinaryOperator} {l r v : Value} (h : BinaryCode op l r v)
    (hl : Legible t l.code t₁) (hr : Legible t₁ r.code t') (hl' : l.code.isBlank = false)
    (hr' : r.code.isBlank = false) : Legible t v.code t' := by
  have hreal := (Value.legible_realCode hl hl').append (Value.legible_realCode hr hr')
  cases h with
  | realArithmetic | realComparison => exact hreal.append (legible_word _)
  | _ => exact (hl.append hr).append (legible_word _)

/-- The code of a unary operator is legible if that of its operand is. -/
theorem UnaryCode.legible {op : UnaryOperator} {u v : Value} (h : UnaryCode op u v)
    (hu : Legible t u.code t') (hu' : u.code.isBlank = false) : Legible t v.code t' := by
  cases h with
  | trigonometric => exact (Value.legible_realCode hu hu').append (legible_word _)
  | _ => exact hu.append (legible_word _)

/-- A literal is read as it was meant. -/
theorem LiteralCode.legible {tok : Token} {u : Value} (h : LiteralCode tok u) :
    Legible t u.code t := by
  cases h with
  | int _ numeral => exact legible_int numeral
  | real _ numeral => exact legible_real numeral
  | string _ _ inside => exact legible_string inside
  | bool _ name => exact legible_flag name

/-- A declared name that is read or assigned stays declared. -/
theorem Forth.Legible.put {c : Code} {x : Bytes} {τ : ValueType} {a : Bool} (h : Legible t c t₁)
    (hx : t₁.scope x = some ⟨τ, a⟩) : Legible t c (t₁.put ⟨x, τ, true⟩) := by
  refine h.congr fun y => ?_
  obtain ⟨hτ, -⟩ := SymbolTable.scope_eq_some_iff.mp hx
  rw [SymbolTable.scope_put hτ]
  by_cases hyx : y = x
  · subst hyx
    simp [hx]
  · rw [Function.update_of_ne hyx]

/-- No declared name is a word of the machine. -/
def SymbolTable.IsClear (T : SymbolTable) : Prop :=
  ∀ x ∈ vocabulary, T.scope x = none

private theorem SymbolTable.IsClear.not_mem {x : Bytes} {τ : ValueType} {a : Bool} (hT : T.IsClear)
    (ht : t.Extends T) (hx : t.scope x = some ⟨τ, a⟩) : x ∉ vocabulary := by
  intro hmem
  obtain ⟨b, hb⟩ := ht x τ a hx
  rw [hT x hmem] at hb
  cases hb

/-- After a declaration the reader knows its names. -/
theorem Declares.legible {bs : List Node} {c : Code} (h : Declares t bs c t')
    (hbs : ∀ b ∈ bs, b.IsBinding) (hT : T.IsClear) (ht : t'.Extends T) : Legible t c t' := by
  induction h with
  | nil t => exact legible_nil t
  | @cons t t' paren x type bs code τ s keyword fresh storage rest ih =>
    obtain ⟨_, y, _, heq, -, hkind, hspelled, -⟩ := hbs _ List.mem_cons_self
    simp only [Node.mk.injEq, List.cons.injEq, Node.leaf] at heq
    obtain ⟨-, ⟨rfl, -⟩, -⟩ := heq
    rw [Token.WellSpelled, hkind] at hspelled
    have hclear : x.text ∉ vocabulary :=
      hT.not_mem (rest.extends.trans ht) (SymbolTable.scope_put_self storage)
    exact (legible_define hspelled.1 hclear storage).append
      (ih (fun b hb => hbs b (List.mem_cons_of_mem _ hb)) ht)

/-- Codes that are legible one after the other. -/
inductive LegibleAll : SymbolTable → List Code → SymbolTable → Prop
  | nil (t : SymbolTable) : LegibleAll t [] t
  | cons {t t₁ t' : SymbolTable} {c : Code} {cs : List Code} (first : Legible t c t₁)
      (rest : LegibleAll t₁ cs t') : LegibleAll t (c :: cs) t'

/-- Codes on one line. -/
theorem LegibleAll.flatten {cs : List Code} (h : LegibleAll t cs t') : Legible t cs.flatten t' := by
  induction h with
  | nil t => exact legible_nil t
  | cons first _ ih => exact first.append ih

/-- A sequence of trees is legible, line by line, if each of them is. -/
theorem EmitsAll.legibleAll {ns : List Node} {vs : List Value} (h : EmitsAll t ns vs t')
    (ht : t.Sound) (hT : t'.Extends T)
    (hns : ∀ n ∈ ns, ∀ {t t' : SymbolTable} {v : Value}, t.Sound → t'.Extends T →
      n.value false t = (.ok v, t') → Legible t v.code t')
    {tail : Code} (htail : ∀ t, Legible t tail t) :
    LegibleAll t (vs.map fun v => v.code ++ tail) t' := by
  induction h with
  | nil t => exact .nil t
  | cons first rest ih =>
    have hfirst := hns _ List.mem_cons_self ht (rest.extends.trans hT) first
    exact .cons (hfirst.append (htail _))
      (ih (ht.value first) hT fun n hn => hns n (List.mem_cons_of_mem _ hn))

/-- The code of a tree is legible. -/
theorem Node.WellFormed.legible (hT : T.IsClear) {n : Node} (hn : n.WellFormed) {consumed : Bool}
    {t t' : SymbolTable} {v : Value} (ht : t.Sound) (ht' : t'.Extends T)
    (hv : n.value consumed t = (.ok v, t')) : Legible t v.code t' := by
  induction hn generalizing consumed t t' v with
  | @operand tok kind spelled =>
    by_cases hk : tok.kind = .identifier
    · obtain ⟨τ, s, hx, hs, rfl, rfl⟩ := (value_identifier_iff hk (spelled.text_ne_nil hk) ht).mp hv
      rw [Token.WellSpelled, hk] at spelled
      have hname : Legible t [.name tok.text] t := legible_name spelled.1 (by simp [hx])
      exact (hname.append (legible_word (.fetch s))).put hx
    · have hliteral : tok.kind.isLiteral = true := by simpa [TokenKind.isOperand, hk] using kind
      obtain ⟨hvalue, rfl⟩ := (value_literal_iff hliteral).mp hv
      exact (spelled.literalCode hvalue).legible
  | @assignment head x e kind target spelled value ih =>
    obtain ⟨u, t₁, τ, a, s, hu, hx, hs, -, rfl, rfl⟩ :=
      (value_assignment_iff kind (spelled.text_ne_nil target) value.emitsProper ht).mp hv
    have hu' := ih ht ((SymbolTable.extends_put hx).trans ht') hu
    have hcode : Legible t (if τ = .real then u.realCode else u.code) t₁ := by
      split
      · exact Value.legible_realCode hu' (value.emitsProper ht hu).code
      · exact hu'
    -- Doubling and storing are words around a name that was declared before.
    have hdouble : Legible t₁ (if consumed then [.word (.dup s)] else []) t₁ := by
      split
      · exact legible_word (.dup s)
      · exact legible_nil t₁
    rw [Token.WellSpelled, target] at spelled
    have hname : Legible t₁ [.name x.text] t₁ := legible_name spelled.1 (by simp [hx])
    exact ((hcode.append hdouble).append (hname.append (legible_word (.store s)))).put hx
  | @binary head op l r kind spelling left right ihl ihr =>
    obtain ⟨u₁, t₁, u₂, hu₁, hu₂, hcode⟩ :=
      (value_binary_iff kind spelling left.emitsProper right.emitsProper ht).mp hv
    exact hcode.legible (ihl ht ((SymbolTable.extends_value hu₂).trans ht') hu₁)
      (ihr (ht.value hu₁) ht' hu₂) (left.emitsProper ht hu₁).code
      (right.emitsProper (ht.value hu₁) hu₂).code
  | @unary head op e kind spelling operand ih =>
    obtain ⟨u, hu, hcode⟩ := (value_unary_iff kind spelling operand.emitsProper ht).mp hv
    exact hcode.legible (ih ht ht' hu) (operand.emitsProper ht hu).code
  | @declaration head bs kind text nonempty each =>
    obtain ⟨code, hcode, rfl⟩ := (value_declaration_iff kind text nonempty each ht).mp hv
    exact hcode.legible each hT ht'
  | @loop head test body kind text nonempty condition each ih ihs =>
    obtain ⟨u, t₁, vs, hu, hvs, -, rfl⟩ :=
      (value_loop_iff kind text (fun m hm => (each m hm).emitsProper) ht).mp hv
    have hbody : Legible t₁ (vs.map Value.code).flatten t' := by
      simpa only [List.append_nil] using (hvs.legibleAll (ht.value hu) ht'
        (fun n hn _ _ _ ht ht' hv => ihs n hn ht ht' hv) legible_nil).flatten
    exact legible_loop (ih ht (hvs.extends.trans ht') hu) hbody
  | @choose head test onTrue kind text condition branch ih ih₁ =>
    obtain ⟨u, t₁, v₁, hu, hv₁, -, rfl⟩ := (value_choose_iff kind text condition.emitsProper ht).mp hv
    exact (ih ht ((SymbolTable.extends_value hv₁).trans ht') hu).append
      (legible_choose (ih₁ (ht.value hu) ht' hv₁))
  | @chooseElse head test onTrue onFalse kind text condition branch otherwise ih ih₁ ih₂ =>
    obtain ⟨u, t₁, v₁, t₂, v₂, hu, hv₁, hv₂, -, rfl⟩ :=
      (value_chooseElse_iff kind text condition.emitsProper ht).mp hv
    have ht₂ := (SymbolTable.extends_value hv₂).trans ht'
    exact (ih ht ((SymbolTable.extends_value hv₁).trans ht₂) hu).append
      (legible_chooseElse (ih₁ (ht.value hu) ht₂ hv₁) (ih₂ ((ht.value hu).value hv₁) ht' hv₂))
  | @print head e kind text operand ih =>
    obtain ⟨u, pw, hu, -, rfl⟩ := (value_print_iff kind text operand.emitsProper ht).mp hv
    exact (ih ht ht' hu).append (legible_word pw)

end Trees

/-! ### Target texts -/

/-- Codes on lines of their own. -/
theorem LegibleAll.lines {t t' : SymbolTable} {cs : List Code} (h : LegibleAll t cs t') :
    ∃ pieces, Scans ([lineFeed].intercalate (cs.map Code.text)) pieces ∧
      ∀ r : Reader, r.announced = none → Knows r.names t → ∃ names,
        Reads pieces r { r with names := names, code := r.code ++ cs.flatten } ∧ Knows names t' := by
  suffices hlines : ∃ pss, List.Forall₂ Scans (cs.map Code.text) pss ∧
      ∀ r : Reader, r.announced = none → Knows r.names t → ∃ names,
        Reads pss.flatten r { r with names := names, code := r.code ++ cs.flatten } ∧
          Knows names t' by
    obtain ⟨pss, hscans, hreads⟩ := hlines
    exact ⟨pss.flatten, scans_intercalate (by decide) hscans, hreads⟩
  induction h with
  | nil t => exact ⟨[], .nil, fun r _ hknows => ⟨r.names, by simpa using reads_nil r, hknows⟩⟩
  | @cons t t₁ t' c cs first rest ih =>
    obtain ⟨ps, hscans, hfirst⟩ := first
    obtain ⟨pss, hpss, hrest⟩ := ih
    refine ⟨ps :: pss, .cons hscans hpss, fun r hr hknows => ?_⟩
    obtain ⟨names, hr₁, hnames⟩ := hfirst r hr hknows
    obtain ⟨names', hr₂, hnames'⟩ := hrest { r with names := names, code := r.code ++ c } hr hnames
    rw [List.append_assoc] at hr₂
    exact ⟨names', hr₁.append hr₂, hnames'⟩

/-- The definition of powers is read as what it is. -/
theorem legible_power (t : SymbolTable) : Legible t powerDefinition.body t := by
  have hone : IsNumeral (utf8 "1") := isIntNumeral_eq_true_iff.mp (by decide)
  have hzero : IsNumeral (utf8 "0") := isIntNumeral_eq_true_iff.mp (by decide)
  exact (legible_int hone).append ((legible_word .swap).append ((legible_int hzero).append
    ((legible_count ((legible_word .dupSecond).append (legible_word (.int .mul)))).append
      (legible_word .nip))))

/-- After the preamble a reader knows the word for powers and no name. -/
theorem reads_preamble : ∃ pieces,
    (∀ text ps, Scans text ps → Scans (preamble ++ text) (pieces ++ ps)) ∧ ∃ names,
      Reads pieces .empty { Reader.empty with definitions := [powerDefinition], names := names } ∧
      Knows names .empty := by
  obtain ⟨qs, hbody, hpower⟩ := legible_power .empty
  have hempty : Knows [] .empty := ⟨by simp, by simp, by simp⟩
  refine ⟨[[.word Marker.definition.text], [.word powerDefinition.name], qs,
    [.word Marker.endDefinition.text]].flatten, fun text ps hps => ?_, ?_⟩
  · -- The definition stands on a line of its own, and an empty line follows.
    have hscans : Scans powerDefinition.text _ := scans_spaced (.cons (scans_marker .definition)
      (.cons (scans_of_mem_vocabulary (text_mem_vocabulary_word (.int .pow)))
        (.cons hbody (.cons (scans_marker .endDefinition) .nil))))
    exact hscans.append (b := lineFeed) (by decide) (scans_nil.append (b := lineFeed) (by decide) hps)
  · obtain ⟨names, hbody, hnames⟩ :=
      hpower (Reader.empty.enter (.definition [] powerDefinition.name)) rfl hempty
    have hname : Reads [.word powerDefinition.name]
        { Reader.empty with announced := some .definition }
        (Reader.empty.enter (.definition [] powerDefinition.name)) := reads_piece rfl
    have hend : Reads [.word Marker.endDefinition.text]
        { Reader.empty.enter (.definition [] powerDefinition.name) with
          names := names, code := powerDefinition.body }
        { Reader.empty with definitions := [powerDefinition], names := names } :=
      reads_marker rfl hnames rfl
    refine ⟨names, ?_, hnames⟩
    exact (reads_marker rfl hempty rfl).append (hname.append (hbody.append
      (hend.append (reads_nil _))))

/-- What the target text of some lines stands for. -/
def targetProgram (lines : List Code) : List Definition × Code :=
  if lines.isEmpty then ([], []) else ([powerDefinition], lines.flatten)

/-- The pieces of the target text of legible lines lead to a reader that has the definitions and the
code of the lines, and knows the names that are declared in them. -/
theorem exists_reads_targetText {t' : SymbolTable} {lines : List Code}
    (h : LegibleAll .empty lines t') :
    ∃ pieces names, scan .between (targetText lines) = some pieces ∧
      Reads pieces .empty
        ⟨(targetProgram lines).1, names, none, [], (targetProgram lines).2⟩ ∧
      Knows names t' := by
  rcases lines with _ | ⟨c, cs⟩
  · cases h
    exact ⟨[], [], rfl, rfl, ⟨by simp, by simp, by simp⟩⟩
  obtain ⟨qs, hpreamble, names, hstart, hnames⟩ := reads_preamble
  obtain ⟨ps, hscans, hreads⟩ := h.lines
  obtain ⟨names', hlines, hnames'⟩ :=
    hreads { Reader.empty with definitions := [powerDefinition], names := names } rfl hnames
  have hpieces : scan .between (targetText (c :: cs)) = some (qs ++ ps) := by
    have htext : Scans (targetText (c :: cs)) (qs ++ ps) := hpreamble _ _ hscans
    simpa [scan] using htext [] ends_nil
  exact ⟨qs ++ ps, names', hpieces, hstart.append hlines, hnames'⟩

/-- The target text of legible lines is read as the preamble and the code of the lines. -/
theorem read_targetText {t' : SymbolTable} {lines : List Code} (h : LegibleAll .empty lines t') :
    Forth.read (targetText lines) = some (targetProgram lines) := by
  obtain ⟨pieces, names, hscan, hreads, -⟩ := exists_reads_targetText h
  rw [Forth.read, hscan, Option.bind_eq_bind, Option.bind_some, hreads]
  rfl

end PrefixForth
