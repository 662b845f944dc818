import PrefixForth.Proofs.Forth.Fragment

/-!
# Names in the dictionary

The reader of `Reader` tells names and words apart byte by byte. The dictionary of a machine may not:
here it does not know upper from lower case, and it finds the newest entry first. So the definition of a
variable takes the place of a word with the same letters, and of a variable whose name differs in case
only. `readBy fold` reads a text in this way; `readBy id` is the other reader (`readBy_id`).

Compiling does not look for such clashes, and they do happen (`declared_names_clash`). But the
declared names are known to be identifiers of the source language, and code defines each of them once
(`Fragment.declaresNames`). So the words of emitted code with which they can clash are those that are
made of letters only (`mem_letterWords_of_fold_eq`), and where nothing clashes both readers make of the
text the code that was generated (`SymbolTable.ClashFree.readBy_fold`). The main statement is
`names_clash_with_letter_words_only`.
-/

namespace PrefixForth

namespace Forth

/-! ### Letters without case -/

/-- A byte, or the small letter for a capital one. -/
def foldByte (b : UInt8) : UInt8 :=
  if 65 ≤ b ∧ b ≤ 90 then b + 32 else b

/-- A text without the case of its letters. -/
def fold (x : Bytes) : Bytes :=
  x.map foldByte

/-! ### Reading by a key -/

/-- The instruction that a word is by itself, where words with the same key are the same. -/
def instructionBy? (key : Bytes → Bytes) (x : Bytes) : Option Instruction :=
  match words.find? (key ·.text = key x) with
  | some v => some (.word v)
  | none =>
    match flagNames.find? (key · = key x) with
    | some y => some (.flag y)
    | none =>
      if isIntNumeral x then
        some (.int x)
      else if isRealNumeral x then
        some (.real x)
      else
        none

/-- Reads a word, where names and words with the same key are the same, and the newest name counts. -/
def Reader.wordBy (key : Bytes → Bytes) (r : Reader) (x : Bytes) : Option Reader :=
  match r.announced with
  | some .definition => some ({ r with announced := none }.enter (.definition r.code x))
  | some (.declaration s) =>
    some { r with announced := none, names := x :: r.names, code := r.code ++ [.define s x] }
  | none =>
    match r.names.find? (key · = key x) with
    | some y => some { r with code := r.code ++ [.name y] }
    | none =>
      match markers.find? (key ·.text = key x) with
      | some k => r.mark k
      | none => (instructionBy? key x).map fun i => { r with code := r.code ++ [i] }

/-- Reads a piece. -/
def Reader.pieceBy (key : Bytes → Bytes) (r : Reader) : Piece → Option Reader
  | .word x => r.wordBy key x
  | .string body => r.piece (.string body)

/-- The definitions and the code of a text, where names and words with the same key are the same. -/
def readBy (key : Bytes → Bytes) (text : Bytes) : Option (List Definition × Code) := do
  let pieces ← scan .between text
  let r ← pieces.foldlM (Reader.pieceBy key) .empty
  if r.frames.isEmpty ∧ r.announced.isNone then
    some (r.definitions, r.code)
  else
    none

private theorem find?_eq_self (xs : List Bytes) (x : Bytes) :
    xs.find? (· = x) = if xs.contains x then some x else none := by
  split
  · rename_i hx
    obtain ⟨y, hy⟩ : ∃ y, xs.find? (· = x) = some y := by
      rw [← Option.isSome_iff_exists, List.find?_isSome]
      exact ⟨x, List.contains_iff_mem.mp hx, by simp⟩
    obtain rfl : y = x := by simpa using List.find?_some hy
    exact hy
  · rename_i hx
    rw [List.find?_eq_none]
    intro y hy heq
    obtain rfl : y = x := by simpa using heq
    exact hx (List.contains_iff_mem.mpr hy)

private theorem instructionBy?_id : instructionBy? id = instruction? := by
  funext x
  have hwords : words.find? (id ·.text = id x) = words.find? (·.text = x) := rfl
  have hflags : flagNames.find? (id · = id x) = if flagNames.contains x then some x else none :=
    find?_eq_self flagNames x
  rw [instructionBy?, instruction?, hwords, hflags]
  cases hword : words.find? (·.text = x) with
  | some v => rfl
  | none =>
    by_cases hflag : flagNames.contains x = true
    · simp only [hflag, if_true]
    · simp only [hflag, Bool.false_eq_true, if_false]

private theorem Reader.wordBy_id : Reader.wordBy id = Reader.word := by
  funext r x
  have hmarkers : markers.find? (id ·.text = id x) = markers.find? (·.text = x) := rfl
  have hnames : r.names.find? (id · = id x) = if r.names.contains x then some x else none :=
    find?_eq_self r.names x
  rw [wordBy, word, instructionBy?_id, hmarkers, hnames]
  cases r.announced with
  | some a => cases a <;> rfl
  | none =>
    cases hmarker : markers.find? (·.text = x) <;> by_cases hname : r.names.contains x = true <;>
      simp only [hname, if_true, Bool.false_eq_true, if_false]

/-- To tell all names and words apart is to read as the reader does. -/
theorem readBy_id : readBy id = read := by
  have hpiece : Reader.pieceBy id = Reader.piece := by
    funext r p
    cases p with
    | word x => rw [Reader.pieceBy, Reader.wordBy_id, Reader.piece]
    | string body => rw [Reader.pieceBy]
  funext text
  rw [readBy, read, hpiece]

/-! ### Case and the making of words -/

/-- The text is made like a word of the source language. -/
def isWordLike (x : Bytes) : Bool :=
  x.head?.any isLetterByte && x.all fun b => isLetterByte b || isDigitByte b

section Fold

variable {b : UInt8} {x : Bytes}

private theorem isLetterByte_foldByte (h : isLetterByte b = true) :
    isLetterByte (foldByte b) = true := by
  simp only [isLetterByte, foldByte, Bool.or_eq_true, Bool.and_eq_true, decide_eq_true_eq] at *
  split <;> grind

private theorem foldByte_of_isDigitByte (h : isDigitByte b = true) : foldByte b = b := by
  simp only [isDigitByte, Bool.and_eq_true, decide_eq_true_eq] at h
  refine if_neg ?_
  grind

/-- A word of the source language is made like one in any case. -/
theorem isWordLike_fold (h : IsWord x) : isWordLike (fold x) = true := by
  obtain ⟨b, rest, rfl, hb, hrest⟩ := h
  have hfirst := isLetterByte_foldByte hb
  have hbytes : ∀ c ∈ rest, (isLetterByte (foldByte c) || isDigitByte (foldByte c)) = true := by
    intro c hc
    rcases Bool.or_eq_true_iff.mp (hrest c hc) with hletter | hdigit
    · rw [isLetterByte_foldByte hletter, Bool.true_or]
    · rw [foldByte_of_isDigitByte hdigit, hdigit, Bool.or_true]
  simp only [isWordLike, fold, List.map_cons, List.head?_cons, Option.any_some, List.all_cons,
    List.all_map, hfirst, Bool.true_or, Bool.true_and, List.all_eq_true]
  exact hbytes

/-- What is made like a numeral is so in any case. -/
theorem isNumeralLike_fold (h : isNumeralLike x = true) : isNumeralLike (fold x) = true := by
  rw [isNumeralLike, Bool.and_eq_true, List.all_eq_true] at h
  obtain ⟨hfirst, hbytes⟩ := h
  rw [isNumeralLike, Bool.and_eq_true, List.all_eq_true]
  constructor
  · cases x with
    | nil => cases hfirst
    | cons b rest =>
      have hb : isDigitByte b = true := hfirst
      simpa [fold, foldByte_of_isDigitByte hb] using hb
  · intro c hc
    obtain ⟨b, hb, rfl⟩ := List.mem_map.mp hc
    have hb' := hbytes b hb
    simp only [Bool.or_eq_true, decide_eq_true_eq] at hb'
    rcases hb' with ((((hdigit | rfl) | rfl) | rfl) | rfl) | rfl
    · rw [foldByte_of_isDigitByte hdigit, hdigit]
      rfl
    all_goals decide

private theorem not_isWordLike_of_isNumeralLike (h : isNumeralLike x = true) :
    isWordLike x = false := by
  cases x with
  | nil => rfl
  | cons b rest =>
    have hb : isDigitByte b = true := (Bool.and_eq_true_iff.mp h).1
    have hletter : isLetterByte b = false := by
      simp only [isDigitByte, Bool.and_eq_true, decide_eq_true_eq] at hb
      simp only [isLetterByte]
      grind
    simp [isWordLike, hletter]

end Fold

/-- A member of a list that is cut at the first member without a property. -/
theorem mem_of_cut {p : UInt8 → Bool} {c : UInt8} {x : Bytes} (h : c ∈ x) :
    c ∈ x.takeWhile p ∨ p c = false ∨ c ∈ (x.dropWhile p).drop 1 := by
  rw [← List.takeWhile_append_dropWhile (p := p) (l := x), List.mem_append] at h
  refine h.imp_right fun hc => ?_
  cases hx : x.dropWhile p with
  | nil => simp [hx] at hc
  | cons b rest =>
    rw [hx, List.mem_cons] at hc
    refine hc.imp (fun hcb => ?_) fun hc => by simpa using hc
    have hb := List.head?_dropWhile_not p x
    simpa [hx, hcb] using hb

private theorem digit_or_sign_of_dropSign {e : Bytes} (h : (dropSign e).all isDigitByte = true) :
    ∀ c ∈ e, isDigitByte c = true ∨ c = 43 ∨ c = 45 := by
  cases e with
  | nil => simp
  | cons b rest =>
    rw [dropSign] at h
    intro c hc
    split at h
    · rename_i hb
      rcases List.mem_cons.mp hc with rfl | hc
      · exact .inr hb
      · exact .inl (List.all_eq_true.mp h c hc)
    · exact .inl (List.all_eq_true.mp h c hc)

/-- A real numeral is made like a numeral. -/
theorem isNumeralLike_of_isRealNumeral {x : Bytes} (h : isRealNumeral x = true) :
    isNumeralLike x = true := by
  simp only [isRealNumeral, splitExponent, splitPoint, Bool.and_eq_true] at h
  obtain ⟨⟨⟨-, hwhole⟩, hfraction⟩, hexponent⟩ := h
  obtain ⟨hne, hdigits⟩ := isIntNumeral_eq_true_iff.mp hwhole
  rw [isNumeralLike, Bool.and_eq_true, List.all_eq_true]
  constructor
  · cases x with
    | nil => exact absurd rfl hne
    | cons b rest =>
      -- the whole part is not empty, so the first byte is one of its digits
      have hb : b ∈ ((b :: rest).takeWhile isNoMark).takeWhile (· ≠ 46) := by
        by_cases hmark : isNoMark b = true
        · by_cases hpoint : b = 46
          · rw [List.takeWhile_cons_of_pos hmark, hpoint] at hne
            simp at hne
          · simp [hmark, hpoint]
        · simp [hmark] at hne
      simpa using hdigits b hb
  · intro c hc
    rcases mem_of_cut (p := isNoMark) hc with hc | hmark | hc
    · rcases mem_of_cut (p := (· ≠ 46)) hc with hc | hpoint | hc
      · simp [hdigits c hc]
      · obtain rfl : c = 46 := by simpa using hpoint
        decide
      · simp [List.all_eq_true.mp hfraction c hc]
    · obtain rfl | rfl : c = 101 ∨ c = 69 := by
        simp only [isNoMark] at hmark
        grind
      · decide
      · decide
    · rcases digit_or_sign_of_dropSign hexponent c hc with hdigit | rfl | rfl
      · simp [hdigit]
      · decide
      · decide

/-! ### Names that are apart -/

/-- No name takes the place of another one, or of a word that means something. -/
structure Apart (names : List Bytes) : Prop where
  isWord : ∀ x ∈ names, IsWord x
  name : ∀ x ∈ names, ∀ y ∈ names, fold x = fold y → x = y
  word : ∀ x ∈ names, ∀ v ∈ vocabulary, fold x ≠ fold v

section Apart

variable {names : List Bytes} {r r' : Reader} {x : Bytes}

/-- Fewer names stay apart. -/
theorem Apart.mono {names' : List Bytes} (h : Apart names') (hsub : names ⊆ names') : Apart names :=
  ⟨fun x hx => h.isWord x (hsub hx), fun x hx y hy => h.name x (hsub hx) y (hsub hy),
    fun x hx => h.word x (hsub hx)⟩

/-- A name is found as itself. -/
theorem Apart.find?_eq_self (h : Apart names) (hx : x ∈ names) :
    names.find? (fold · = fold x) = some x := by
  obtain ⟨y, hy⟩ : ∃ y, names.find? (fold · = fold x) = some y := by
    rw [← Option.isSome_iff_exists, List.find?_isSome]
    exact ⟨x, hx, by simp⟩
  have hkey : fold y = fold x := by simpa using List.find?_some hy
  rw [hy, h.name y (List.mem_of_find?_eq_some hy) x hx hkey]

/-- No name is found for a word that means something, or for a numeral. -/
theorem Apart.find?_eq_none (h : Apart names) (hx : x ∈ vocabulary ∨ isNumeralLike x = true) :
    names.find? (fold · = fold x) = none := by
  rw [List.find?_eq_none]
  intro y hy hkey
  simp only [decide_eq_true_eq] at hkey
  rcases hx with hx | hx
  · exact h.word y hy x hx hkey
  · have hword := isWordLike_fold (h.isWord y hy)
    have hnumeral := not_isWordLike_of_isNumeralLike (isNumeralLike_fold hx)
    rw [hkey, hnumeral] at hword
    cases hword

/-- Words that mean something are told apart in any case, -/
theorem find?_fold_of_mem_vocabulary : ∀ x ∈ vocabulary,
    markers.find? (fold ·.text = fold x) = markers.find? (·.text = x) ∧
    words.find? (fold ·.text = fold x) = words.find? (·.text = x) ∧
    flagNames.find? (fold · = fold x) = flagNames.find? (· = x) := by
  decide +kernel

/-- and none of them is made like a numeral in any case. -/
theorem not_isNumeralLike_fold_of_mem_vocabulary :
    ∀ v ∈ vocabulary, isNumeralLike (fold v) = false := by
  decide +kernel

private theorem fold_ne_of_isNumeralLike (hx : isNumeralLike x = true) {v : Bytes}
    (hv : v ∈ vocabulary) :
    fold v ≠ fold x := by
  intro hkey
  have hnumeral := isNumeralLike_fold hx
  rw [← hkey, not_isNumeralLike_fold_of_mem_vocabulary v hv] at hnumeral
  cases hnumeral

/-- A word with another key than all that mean something can only be a numeral. -/
theorem instructionBy?_of_ne (key : Bytes → Bytes) (h : ∀ v ∈ vocabulary, key v ≠ key x) :
    markers.find? (key ·.text = key x) = none ∧
      instructionBy? key x = if isIntNumeral x then some (.int x) else
        if isRealNumeral x then some (.real x) else none := by
  have hmarkers : markers.find? (key ·.text = key x) = none := by
    rw [List.find?_eq_none]
    intro k _
    simpa using h k.text (text_mem_vocabulary_marker k)
  have hwords : words.find? (key ·.text = key x) = none := by
    rw [List.find?_eq_none]
    intro v _
    simpa using h v.text (text_mem_vocabulary_word v)
  have hflags : flagNames.find? (key · = key x) = none := by
    rw [List.find?_eq_none]
    intro y hy
    simpa using h y (List.mem_append_right _ hy)
  rw [instructionBy?, hwords, hflags]
  exact ⟨hmarkers, rfl⟩

/-- Markers and instructions are found in any case as they are written. -/
theorem instructionBy?_fold (hx : x ∈ vocabulary ∨ isNumeralLike x = true) :
    markers.find? (fold ·.text = fold x) = markers.find? (·.text = x) ∧
      instructionBy? fold x = instruction? x := by
  rcases hx with hx | hx
  · obtain ⟨hmarkers, hwords, hflags⟩ := find?_fold_of_mem_vocabulary x hx
    rw [← instructionBy?_id, instructionBy?, instructionBy?, hwords, hflags]
    exact ⟨hmarkers, rfl⟩
  · have hmem := not_mem_vocabulary_of_isNumeralLike hx
    obtain ⟨hmarkers, hinstruction⟩ :=
      instructionBy?_of_ne fold fun _ hv => fold_ne_of_isNumeralLike hx hv
    rw [hmarkers, hinstruction, find?_markers_of_not_mem hmem, instruction?_of_not_mem hmem]
    exact ⟨rfl, rfl⟩

/-- What is neither a marker nor an instruction is not read. -/
theorem mem_vocabulary_or_isNumeralLike {i : Instruction} (h : instruction? x = some i) :
    x ∈ vocabulary ∨ isNumeralLike x = true := by
  by_cases hx : x ∈ vocabulary
  · exact .inl hx
  · rw [instruction?_of_not_mem hx] at h
    split at h
    · rename_i hint
      exact .inr (isNumeralLike_int (isIntNumeral_eq_true_iff.mp hint))
    · split at h
      · rename_i hreal
        exact .inr (isNumeralLike_of_isRealNumeral hreal)
      · cases h

/-- What a word can be to a reader. -/
theorem Reader.word_cases (h : r.word x = some r') :
    (r.announced = some .definition ∧
      r' = { r with announced := none }.enter (.definition r.code x)) ∨
    (∃ s, r.announced = some (.declaration s) ∧
      r' = { r with announced := none, names := x :: r.names, code := r.code ++ [.define s x] }) ∨
    (r.announced = none ∧ x ∈ r.names ∧ r' = { r with code := r.code ++ [.name x] }) ∨
    (∃ k, r.announced = none ∧ markers.find? (·.text = x) = some k ∧ r.mark k = some r') ∨
    (∃ i, r.announced = none ∧ markers.find? (·.text = x) = none ∧ instruction? x = some i ∧
      r' = { r with code := r.code ++ [i] }) := by
  cases hannounced : r.announced with
  | some a =>
    cases a with
    | definition => exact .inl ⟨rfl, by simpa [word, hannounced, eq_comm] using h⟩
    | declaration s => exact .inr (.inl ⟨s, rfl, by simpa [word, hannounced, eq_comm] using h⟩)
  | none =>
    simp only [word, hannounced] at h
    split at h
    · rename_i hx
      exact .inr (.inr (.inl ⟨rfl, List.contains_iff_mem.mp hx, (Option.some.inj h).symm⟩))
    · cases hk : markers.find? (·.text = x) with
      | some k =>
        rw [hk] at h
        exact .inr (.inr (.inr (.inl ⟨k, rfl, rfl, h⟩)))
      | none =>
        rw [hk] at h
        obtain ⟨i, hi, rfl⟩ := Option.map_eq_some_iff.mp h
        exact .inr (.inr (.inr (.inr ⟨i, rfl, rfl, hi, rfl⟩)))

/-- If the names are apart, a word is read without its case as with it. -/
theorem Reader.wordBy_fold (hnames : Apart r.names) (h : r.word x = some r') :
    r.wordBy fold x = some r' := by
  rcases word_cases h with ⟨ha, rfl⟩ | ⟨s, ha, rfl⟩ | ⟨ha, hx, rfl⟩ | ⟨k, ha, hk, hr⟩ |
    ⟨i, ha, hk, hi, rfl⟩
  · simp only [wordBy, ha]
  · simp only [wordBy, ha]
  · simp only [wordBy, ha, hnames.find?_eq_self hx]
  · have hx : x ∈ vocabulary := by
      obtain rfl : k.text = x := by simpa using List.find?_some hk
      exact text_mem_vocabulary_marker k
    simp only [wordBy, ha, hnames.find?_eq_none (.inl hx), (instructionBy?_fold (.inl hx)).1, hk, hr]
  · have hx := mem_vocabulary_or_isNumeralLike hi
    obtain ⟨hmarkers, hinstruction⟩ := instructionBy?_fold hx
    simp only [wordBy, ha, hnames.find?_eq_none hx, hmarkers, hk, hinstruction, hi, Option.map_some]

private theorem Reader.names_mark {k : Marker} (h : r.mark k = some r') : r'.names = r.names := by
  unfold mark at h
  split at h
  all_goals first
    | (obtain rfl := Option.some.inj h; rfl)
    | cases h

/-- Names are not forgotten. -/
theorem Reader.names_piece {p : Piece} (h : r.piece p = some r') : r.names ⊆ r'.names := by
  cases p with
  | word x =>
    rcases word_cases h with ⟨-, rfl⟩ | ⟨s, -, rfl⟩ | ⟨-, -, rfl⟩ | ⟨k, -, -, hr⟩ | ⟨i, -, -, -, rfl⟩
    · exact List.Subset.refl _
    · exact List.subset_cons_self x r.names
    · exact List.Subset.refl _
    · rw [names_mark hr]
      exact List.Subset.refl _
    · exact List.Subset.refl _
  | string body =>
    rw [piece] at h
    split at h
    · obtain rfl := Option.some.inj h
      exact List.Subset.refl _
    · cases h

/-- If the names are apart in the end, a text is read without its case as with it. -/
theorem Reads.by_fold {pieces : List Piece} (h : Reads pieces r r') (hnames : Apart r'.names) :
    pieces.foldlM (Reader.pieceBy fold) r = some r' ∧ r.names ⊆ r'.names := by
  induction pieces generalizing r with
  | nil =>
    obtain rfl : r = r' := by simpa [Reads] using h
    exact ⟨rfl, List.Subset.refl _⟩
  | cons p ps ih =>
    rw [Reads, List.foldlM_cons] at h
    obtain ⟨r₁, hp, hps⟩ := Option.bind_eq_some_iff.mp h
    obtain ⟨hrest, hsub⟩ := ih hps
    have hgrows := Reader.names_piece hp
    have hpiece : r.pieceBy fold p = some r₁ := by
      cases p with
      | word x => exact Reader.wordBy_fold (hnames.mono (List.Subset.trans hgrows hsub)) hp
      | string body => exact hp
    rw [List.foldlM_cons, hpiece]
    exact ⟨hrest, List.Subset.trans hgrows hsub⟩

end Apart

/-! ### The words of emitted code -/

/-- All words that the text of code can have, names and numerals apart. -/
def emittedWords : List Bytes :=
  vocabulary ++ [plainOpening, escapedOpening]

/-- Those of them that are made of letters only. -/
def letterWords : List Bytes :=
  ["if", "else", "endif", "begin", "while", "repeat", "loop", "variable", "fvariable", "dup", "fdup",
    "mod", "fmod", "swap", "over", "nip", "negate", "and", "or", "invert", "fnegate", "fsin", "fcos",
    "ftan", "type", "CR", "true", "false"].map utf8

/-- All other words have something else in them. -/
theorem mem_letterWords_of_isWordLike :
    ∀ v ∈ emittedWords, isWordLike (fold v) = true → v ∈ letterWords := by
  decide +kernel

/-- Names can take the place of words of letters only. -/
theorem mem_letterWords_of_fold_eq {x v : Bytes} (hx : IsWord x) (hv : v ∈ emittedWords)
    (h : fold x = fold v) : v ∈ letterWords :=
  mem_letterWords_of_isWordLike v hv (h ▸ isWordLike_fold hx)

end Forth

/-! ### Definitions in code -/

mutual

/-- The names that an instruction defines, those inside it included, in the order of the text. -/
def Instruction.definedNames : Instruction → List Bytes
  | .define _ x => [x]
  | .choose onTrue => Code.definedNames onTrue
  | .chooseElse onTrue onFalse => Code.definedNames onTrue ++ Code.definedNames onFalse
  | .loop test body => Code.definedNames test ++ Code.definedNames body
  | .count body => Code.definedNames body
  | _ => []

/-- The names that code defines, in the order of the text. -/
def Code.definedNames : List Instruction → List Bytes
  | [] => []
  | i :: is => i.definedNames ++ Code.definedNames is

end

/-- From one table to the other, exactly the names are declared, each of them for the first time. -/
structure DeclaresNames (t : SymbolTable) (names : List Bytes) (t' : SymbolTable) : Prop where
  nodup : names.Nodup
  fresh : ∀ x ∈ names, t.scope x = none
  spelled : ∀ x ∈ names, TokenKind.identifier.Spells x
  declared : ∀ x, t'.scope x ≠ none ↔ t.scope x ≠ none ∨ x ∈ names

section DeclaresNames

variable {t t₁ t' : SymbolTable} {c d : Code} {x : Bytes} {τ : ValueType}

private theorem Code.definedNames_append (c d : Code) :
    Code.definedNames (c ++ d) = Code.definedNames c ++ Code.definedNames d := by
  induction c with
  | nil => rfl
  | cons i c ih =>
    rw [List.cons_append, Code.definedNames, Code.definedNames, ih, List.append_assoc]

private theorem Code.definedNames_singleton (i : Instruction) :
    Code.definedNames [i] = i.definedNames := by
  rw [Code.definedNames, Code.definedNames, List.append_nil]

private theorem Instruction.definedNames_of_isPlain {i : Instruction} (h : i.isPlain = true) :
    i.definedNames = [] := by
  cases i with
  | int | real | flag | string | word => rfl
  | _ => cases h

private theorem declaresNames_nil (t : SymbolTable) : DeclaresNames t [] t :=
  ⟨List.nodup_nil, by simp, by simp, by simp⟩

/-- Names after others. They differ from those because they are new where they are declared. -/
theorem DeclaresNames.append {xs ys : List Bytes} (hx : DeclaresNames t xs t₁)
    (hy : DeclaresNames t₁ ys t') : DeclaresNames t (xs ++ ys) t' := by
  have hundeclared : ∀ y ∈ ys, ¬(t.scope y ≠ none ∨ y ∈ xs) := fun y hys h =>
    (hx.declared y).mpr h (hy.fresh y hys)
  refine ⟨?_, ?_, ?_, fun x => ?_⟩
  · refine List.nodup_append.mpr ⟨hx.nodup, hy.nodup, fun x hxs y hys => ?_⟩
    rintro rfl
    exact hundeclared x hys (.inr hxs)
  · intro x h
    rcases List.mem_append.mp h with hxs | hys
    · exact hx.fresh x hxs
    · exact not_not.mp fun hne => hundeclared x hys (.inl hne)
  · intro x h
    rcases List.mem_append.mp h with hxs | hys
    · exact hx.spelled x hxs
    · exact hy.spelled x hys
  · rw [hy.declared, hx.declared, List.mem_append, or_assoc]

/-- A table whose entry of a declared name is replaced declares nothing new. -/
theorem declaresNames_put {s : Storage} {v : Variable} (hx : t.scope x = some v)
    (hs : τ.storage? = some s) : DeclaresNames t [] (t.put ⟨x, τ, true⟩) := by
  refine ⟨List.nodup_nil, by simp, by simp, fun y => ?_⟩
  rw [SymbolTable.scope_put_of_storage? hs]
  by_cases hy : y = x
  · subst hy
    simp [hx]
  · simp [Function.update_of_ne hy]

private theorem declaresNames_define {s : Storage} (hspelled : TokenKind.identifier.Spells x)
    (hx : t.scope x = none) (hs : τ.storage? = some s) :
    DeclaresNames t [x] (t.put ⟨x, τ, false⟩) := by
  refine ⟨by simp, by simpa using hx, by simpa using hspelled, fun y => ?_⟩
  rw [SymbolTable.scope_put_of_storage? hs]
  by_cases hy : y = x
  · subst hy
    simp
  · simp [hy]

/-- Code declares the names that it defines. -/
theorem Fragment.declaresNames (h : Fragment t c t') :
    DeclaresNames t (Code.definedNames c) t' := by
  induction h with
  | nil t => exact declaresNames_nil t
  | append _ _ ih₁ ih₂ =>
    rw [Code.definedNames_append]
    exact ih₁.append ih₂
  | plain t hplain =>
    rw [Code.definedNames_singleton, Instruction.definedNames_of_isPlain hplain]
    exact declaresNames_nil t
  | read assigned storage => exact declaresNames_put assigned storage
  | assign declared storage => exact declaresNames_put declared storage
  | define spelled fresh storage => exact declaresNames_define spelled fresh storage
  | choose _ ih =>
    rw [Code.definedNames_singleton, Instruction.definedNames]
    exact ih
  | chooseElse _ _ ih₁ ih₂ | loop _ _ ih₁ ih₂ =>
    rw [Code.definedNames_singleton, Instruction.definedNames]
    exact ih₁.append ih₂

end DeclaresNames

/-! ### Compiled texts -/

/-- Without its case, no declared name is another one or a word of emitted code. -/
structure SymbolTable.ClashFree (t : SymbolTable) : Prop where
  name : ∀ x y, t.scope x ≠ none → t.scope y ≠ none → Forth.fold x = Forth.fold y → x = y
  word : ∀ x, t.scope x ≠ none → ∀ v ∈ Forth.letterWords, Forth.fold x ≠ Forth.fold v

/-- The pairs of a name in the table and a name or word that it clashes with. -/
def SymbolTable.clashes (t : SymbolTable) : List (Bytes × Bytes) :=
  t.entries.flatMap fun e =>
    ((t.entries.map Entry.name).filter fun y => decide (Forth.fold e.name = Forth.fold y ∧ e.name ≠ y)).map
        (e.name, ·) ++
      (Forth.letterWords.filter fun v => decide (Forth.fold e.name = Forth.fold v)).map (e.name, ·)

/-- It is enough to look at the entries of a table. -/
theorem SymbolTable.clashFree_of_clashes {t : SymbolTable} (h : t.clashes = []) : t.ClashFree := by
  simp only [clashes, List.flatMap_eq_nil_iff, List.append_eq_nil_iff, List.map_eq_nil_iff,
    List.filter_eq_nil_iff, List.forall_mem_map, decide_eq_true_eq, not_and, not_not] at h
  have hentry : ∀ x, t.scope x ≠ none → ∃ e ∈ t.entries, e.name = x := by
    intro x hx
    by_contra hnone
    have hlookup : t.lookup x = none := by
      rw [SymbolTable.lookup, List.find?_eq_none]
      exact fun e he hex => hnone ⟨e, he, by simpa using hex⟩
    exact hx (SymbolTable.scope_eq_none_iff.mpr (by rw [SymbolTable.entry, hlookup]; rfl))
  refine ⟨fun x y hx hy => ?_, fun x hx => ?_⟩
  · obtain ⟨e, he, rfl⟩ := hentry x hx
    obtain ⟨f, hf, rfl⟩ := hentry y hy
    exact (h e he).1 f hf
  · obtain ⟨e, he, rfl⟩ := hentry x hx
    exact (h e he).2

/-- The names of a table without clashes are apart. -/
theorem Forth.Knows.apart {names : List Bytes} {t : SymbolTable} (h : Forth.Knows names t)
    (ht : t.ClashFree) : Forth.Apart names := by
  refine ⟨h.isWord, fun x hx y hy => ?_, fun x hx v hv heq => ?_⟩
  · exact ht.name x y ((h.declared x).mp hx) ((h.declared y).mp hy)
  · have hletters := Forth.mem_letterWords_of_fold_eq (h.isWord x hx) (List.mem_append_left _ hv) heq
    exact ht.word x ((h.declared x).mp hx) v hletters heq

/-- Without clashes, the target text is read without its case as the code of the lines. -/
theorem readBy_fold_targetText {t' : SymbolTable} {lines : List Code}
    (h : LegibleAll .empty lines t') (ht : t'.ClashFree) :
    Forth.readBy Forth.fold (targetText lines) = some (targetProgram lines) := by
  obtain ⟨pieces, names, hscan, hreads, hknows⟩ := exists_reads_targetText h
  obtain ⟨hfold, -⟩ := hreads.by_fold (hknows.apart ht)
  rw [Forth.readBy, hscan, Option.bind_eq_bind, Option.bind_some, hfold]
  rfl

/-- Names of emitted code that clash with nothing are no words. -/
theorem SymbolTable.ClashFree.isClear {t : SymbolTable} {c : Code} (h : t.ClashFree)
    (hc : Fragment .empty c t) : t.IsClear := by
  intro v hv
  by_contra hx
  have hdeclared : v ∈ Code.definedNames c := by simpa using (hc.declaresNames.declared v).mp hx
  have hspelled := hc.declaresNames.spelled v hdeclared
  have hletters := Forth.mem_letterWords_of_fold_eq hspelled.1 (List.mem_append_left _ hv) rfl
  exact h.word v hx v hletters rfl

/-- If no name clashes, the lines of emitted code are read without their case as what they are. -/
theorem SymbolTable.ClashFree.readBy_fold {t : SymbolTable} {lines : List Code} (h : t.ClashFree)
    (hcode : Fragment .empty lines.flatten t) (hlegible : t.IsClear → LegibleAll .empty lines t) :
    Forth.readBy Forth.fold (targetText lines) = some (targetProgram lines) :=
  readBy_fold_targetText (hlegible (h.isClear hcode)) h

end PrefixForth
