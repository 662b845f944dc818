import Mathlib.Data.List.Forall2
import PrefixForth.Forth.Code
import PrefixForth.Proofs.Operations
import PrefixForth.Proofs.Token.Spelling

/-!
# Reading Forth

How the machine comes to its code: a text is cut into words and strings, and these are read one after
the other.

* Words are separated by blanks and other control bytes. A string extends from the blank after its
  opening word to its closing quote; with escapes, a quote after a backslash does not close it (`scan`).
* A word that has been declared names a variable, even if it meant something else before. Markers open
  and close control structures and definitions, or announce a name; all other words are instructions
  by themselves (`Reader.word`).

Words and names are told apart byte by byte. How a text is read by a dictionary that does not know case
is the subject of `Dictionary`.

Only what has a counterpart among the instructions is read. `Scans` says what a part of a text is cut
into, whatever stands after it, and a text that is put together from parts is cut into the pieces of
its parts (`scans_spaced`, `scans_joinWords`).
-/

namespace PrefixForth

namespace Forth

/-! ### Pieces of a text -/

/-- The byte separates words. -/
def isSeparator (b : UInt8) : Bool :=
  b ≤ 32

/-- What a text is cut into. -/
inductive Piece where
  | word (x : Bytes)
  /-- A string, by what stands between its quotes. -/
  | string (body : Bytes)
  deriving DecidableEq, Repr

/-- Where in a text a scan is. -/
inductive Place where
  /-- Between two pieces. -/
  | between
  /-- In a word, after some of its bytes. -/
  | word (x : Bytes)
  /-- In a string without escapes. -/
  | plain (body : Bytes)
  /-- In a string with escapes. -/
  | escaped (body : Bytes)
  /-- In a string with escapes, after a backslash. -/
  | escape (body : Bytes)

/-- The word that opens a string without escapes. -/
def plainOpening : Bytes := utf8 "s\""

/-- The word that opens a string with escapes. -/
def escapedOpening : Bytes := utf8 "s\\\""

/-- Where a scan goes on after a word, and the piece that the word is, if it is one. -/
def afterWord (x : Bytes) : Place × List Piece :=
  if x = plainOpening then
    (.plain [], [])
  else if x = escapedOpening then
    (.escaped [], [])
  else
    (.between, [.word x])

/-- The pieces of a text from a place on. Strings have to be closed; a string without escapes that has
a backslash is not read, as no instruction stands for it. -/
def scan : Place → Bytes → Option (List Piece)
  | .between, [] => some []
  | .between, b :: s => if isSeparator b then scan .between s else scan (.word [b]) s
  | .word x, [] => if (afterWord x).2 = [] then none else some (afterWord x).2
  | .word x, b :: s =>
    if isSeparator b then
      (scan (afterWord x).1 s).map ((afterWord x).2 ++ ·)
    else
      scan (.word (x ++ [b])) s
  | .plain body, b :: s =>
    if b = quoteMark then
      (scan .between s).map (.string body :: ·)
    else if b = backslash then
      none
    else
      scan (.plain (body ++ [b])) s
  | .escaped body, b :: s =>
    if b = quoteMark then
      (scan .between s).map (.string body :: ·)
    else if b = backslash then
      scan (.escape body) s
    else
      scan (.escaped (body ++ [b])) s
  | .escape body, b :: s => scan (.escaped (body ++ [backslash, b])) s
  | .plain _, [] | .escaped _, [] | .escape _, [] => none

-- This makes the equations of `scan` once, before the proofs below all ask for them.
attribute [local simp] scan

/-! ### Numerals -/

/-- Digits only, and at least one. -/
def isIntNumeral (x : Bytes) : Bool :=
  x ≠ [] && x.all isDigitByte

/-- The digits after a sign, if there is one. -/
def dropSign : Bytes → Bytes
  | b :: s => if b = 43 ∨ b = 45 then s else b :: s
  | [] => []

/-- Digits, possibly a point and digits, an exponent mark, and possibly an exponent. -/
def isRealNumeral (x : Bytes) : Bool :=
  let (mantissa, exponent) := splitExponent x
  let (whole, fraction) := splitPoint mantissa
  (x.any fun b => !isNoMark b) && isIntNumeral whole && fraction.all isDigitByte &&
    (dropSign exponent).all isDigitByte

/-! ### Words -/

/-- A word that shapes the code around it, or announces a name. -/
inductive Marker where
  | choose
  | otherwise
  | endChoose
  | begin
  | test
  | again
  | count
  | endCount
  | definition
  | endDefinition
  | declaration (s : Storage)
  deriving DecidableEq, Repr

/-- How a marker is written. -/
def Marker.text : Marker → Bytes
  | choose => utf8 "if"
  | otherwise => utf8 "else"
  | endChoose => utf8 "endif"
  | begin => utf8 "begin"
  | test => utf8 "while"
  | again => utf8 "repeat"
  | count => utf8 "u+do"
  | endCount => utf8 "loop"
  | definition => utf8 ":"
  | endDefinition => utf8 ";"
  | declaration s => s.definer

/-- The kinds of storage. -/
def storages : List Storage := [.cell, .float, .pair]

/-- The markers. -/
def markers : List Marker :=
  [.choose, .otherwise, .endChoose, .begin, .test, .again, .count, .endCount, .definition,
    .endDefinition] ++ storages.map .declaration

/-- The words that the machine knows, and the word for powers. -/
def words : List Word :=
  let arithmetic : List Arithmetic := [.add, .sub, .mul, .div, .mod, .pow]
  let comparisons : List Comparison := [.eq, .ne, .lt, .gt, .le, .ge]
  let others : List Word := [.swap, .dupSecond, .nip, .negate, .logic .and, .logic .or, .invert,
    .floatNegate, .trigonometric .sin, .trigonometric .cos, .trigonometric .tan, .intToFloat, .concat,
    .printCell, .printFloat, .printString, .newLine]
  List.flatten [storages.map Word.fetch, storages.map Word.store, storages.map Word.dup,
    arithmetic.map Word.int, comparisons.map Word.intCompare, arithmetic.map Word.float,
    comparisons.map Word.floatCompare, others]

/-- The names of the truth values. -/
def flagNames : List Bytes := [utf8 "true", utf8 "false"]

/-- All that is written with letters and means something before anything is declared. -/
def vocabulary : List Bytes :=
  markers.map Marker.text ++ words.map Word.text ++ flagNames

/-- The instruction that a word is by itself. -/
def instruction? (x : Bytes) : Option Instruction :=
  match words.find? (·.text = x) with
  | some v => some (.word v)
  | none =>
    if flagNames.contains x then
      some (.flag x)
    else if isIntNumeral x then
      some (.int x)
    else if isRealNumeral x then
      some (.real x)
    else
      none

/-! ### Readers -/

/-- A control structure or definition that is not closed yet, with the code before it. -/
inductive Frame where
  | choose (before : Code)
  | otherwise (before onTrue : Code)
  | loop (before : Code)
  | body (before test : Code)
  | count (before : Code)
  | definition (before : Code) (name : Bytes)

/-- What the next word is the name of. -/
inductive Announced where
  | definition
  | declaration (s : Storage)

/-- What has been read so far: the definitions, the declared names, the structures that are open and
the code in the innermost of them. -/
structure Reader where
  definitions : List Definition
  names : List Bytes
  announced : Option Announced
  frames : List Frame
  code : Code

namespace Reader

/-- Nothing has been read. -/
def empty : Reader := ⟨[], [], none, [], []⟩

/-- The reader in a new structure. -/
def enter (r : Reader) (f : Frame) : Reader :=
  { r with frames := f :: r.frames, code := [] }

/-- Reads a marker. -/
def mark (r : Reader) (k : Marker) : Option Reader :=
  match k, r.frames with
  | .choose, _ => some (r.enter (.choose r.code))
  | .otherwise, .choose before :: fs => some ({ r with frames := fs }.enter (.otherwise before r.code))
  | .endChoose, .choose before :: fs =>
    some { r with frames := fs, code := before ++ [.choose r.code] }
  | .endChoose, .otherwise before onTrue :: fs =>
    some { r with frames := fs, code := before ++ [.chooseElse onTrue r.code] }
  | .begin, _ => some (r.enter (.loop r.code))
  | .test, .loop before :: fs => some ({ r with frames := fs }.enter (.body before r.code))
  | .again, .body before test :: fs =>
    some { r with frames := fs, code := before ++ [.loop test r.code] }
  | .count, _ => some (r.enter (.count r.code))
  | .endCount, .count before :: fs =>
    some { r with frames := fs, code := before ++ [.count r.code] }
  | .definition, _ => some { r with announced := some .definition }
  | .endDefinition, .definition before name :: fs =>
    some { r with definitions := ⟨name, r.code⟩ :: r.definitions, frames := fs, code := before }
  | .declaration s, _ => some { r with announced := some (.declaration s) }
  | _, _ => none

/-- Reads a word. -/
def word (r : Reader) (x : Bytes) : Option Reader :=
  match r.announced with
  | some .definition => some ({ r with announced := none }.enter (.definition r.code x))
  | some (.declaration s) =>
    some { r with announced := none, names := x :: r.names, code := r.code ++ [.define s x] }
  | none =>
    if r.names.contains x then
      some { r with code := r.code ++ [.name x] }
    else
      match markers.find? (·.text = x) with
      | some k => r.mark k
      | none => (instruction? x).map fun i => { r with code := r.code ++ [i] }

/-- Reads a piece. A string cannot be a name. -/
def piece (r : Reader) : Piece → Option Reader
  | .word x => r.word x
  | .string body =>
    if r.announced.isNone then some { r with code := r.code ++ [.string body] } else none

end Reader

/-- The definitions and the code of a text. All structures have to be closed. -/
def read (text : Bytes) : Option (List Definition × Code) := do
  let pieces ← scan .between text
  let r ← pieces.foldlM Reader.piece .empty
  if r.frames.isEmpty ∧ r.announced.isNone then
    some (r.definitions, r.code)
  else
    none

/-! ### Cutting a text -/

/-- A piece may end before the text: the text is at its end, or a separator follows. -/
def Ends (rest : Bytes) : Prop :=
  ∀ b ∈ rest.head?, isSeparator b = true

/-- The text is cut into the pieces, whatever comes after it. -/
def Scans (text : Bytes) (pieces : List Piece) : Prop :=
  ∀ rest, Ends rest → scan .between (text ++ rest) = (scan .between rest).map (pieces ++ ·)

/-- The text is a word that can be told apart from what stands around it, and opens no string. -/
structure Separate (x : Bytes) : Prop where
  nonempty : x ≠ []
  bytes : ∀ b ∈ x, isSeparator b = false
  opening : x ≠ plainOpening ∧ x ≠ escapedOpening

theorem ends_nil : Ends [] := by simp [Ends]

private theorem ends_cons {b : UInt8} (h : isSeparator b = true) (rest : Bytes) :
    Ends (b :: rest) := by
  simpa [Ends] using h

private theorem scan_separator {b : UInt8} (h : isSeparator b = true) (rest : Bytes) :
    scan .between (b :: rest) = scan .between rest := by
  rw [scan, if_pos h]

/-- The bytes of a word are gathered. -/
theorem scan_word_append {x y : Bytes} (hy : ∀ b ∈ y, isSeparator b = false) (rest : Bytes) :
    scan (.word x) (y ++ rest) = scan (.word (x ++ y)) rest := by
  induction y generalizing x with
  | nil => rw [List.nil_append, List.append_nil]
  | cons b y ih =>
    have hb : isSeparator b = false := hy b List.mem_cons_self
    rw [List.cons_append, scan, hb, if_neg Bool.false_ne_true,
      ih fun c hc => hy c (List.mem_cons_of_mem b hc), List.append_assoc, List.singleton_append]

/-- A word that is not empty is gathered from between two pieces. -/
theorem scan_gathered {x : Bytes} (hne : x ≠ []) (hx : ∀ b ∈ x, isSeparator b = false)
    (rest : Bytes) : scan .between (x ++ rest) = scan (.word x) rest := by
  obtain ⟨b, y, rfl⟩ := List.exists_cons_of_ne_nil hne
  have hb : isSeparator b = false := hx b List.mem_cons_self
  rw [List.cons_append, scan, hb, if_neg Bool.false_ne_true,
    scan_word_append fun c hc => hx c (List.mem_cons_of_mem b hc), List.singleton_append]

/-- A word that can be told apart is one piece. -/
theorem Separate.scans {x : Bytes} (hx : Separate x) : Scans x [.word x] := by
  intro rest hrest
  have hafter : afterWord x = (.between, [.word x]) := by
    rw [afterWord, if_neg hx.opening.1, if_neg hx.opening.2]
  rw [scan_gathered hx.nonempty hx.bytes]
  cases rest with
  | nil => simp [scan, hafter]
  | cons b rest =>
    have hb : isSeparator b = true := hrest b rfl
    rw [scan_separator hb, scan, if_pos hb, hafter]

theorem scans_nil : Scans [] [] := by
  intro rest _
  simp

/-- An empty text has no pieces. -/
theorem Scans.eq_nil {pieces : List Piece} (h : Scans [] pieces) : pieces = [] := by
  simpa [scan, eq_comm] using h [] ends_nil

/-- Two texts with a separator between them. -/
theorem Scans.append {s t : Bytes} {ps qs : List Piece} {b : UInt8} (hs : Scans s ps)
    (hb : isSeparator b = true) (ht : Scans t qs) : Scans (s ++ b :: t) (ps ++ qs) := by
  intro rest hrest
  rw [List.append_assoc, List.cons_append, hs _ (ends_cons hb _), scan_separator hb, ht rest hrest,
    Option.map_map]
  simp [Function.comp_def]

/-- Texts with a separator between any two of them. -/
theorem scans_intercalate {b : UInt8} (hb : isSeparator b = true) {ss : List Bytes}
    {pss : List (List Piece)} (h : List.Forall₂ Scans ss pss) :
    Scans ([b].intercalate ss) pss.flatten := by
  induction h with
  | nil => exact scans_nil
  | @cons s ps ss pss hs hss ih =>
    cases hss with
    | nil => simpa [List.intercalate] using hs
    | cons ht hts => simpa [List.intercalate] using hs.append hb ih

/-- Texts with blanks between them are cut into their pieces, one text after the other. -/
theorem scans_spaced {ss : List Bytes} {pss : List (List Piece)} (h : List.Forall₂ Scans ss pss) :
    Scans (spaced ss) pss.flatten :=
  scans_intercalate (by decide) h

/-- Fragments with something between any two, and others after them. -/
theorem intercalate_append {b : UInt8} {xs ys : List Bytes} (hx : xs ≠ []) (hy : ys ≠ []) :
    [b].intercalate (xs ++ ys) = [b].intercalate xs ++ b :: [b].intercalate ys := by
  induction xs with
  | nil => exact absurd rfl hx
  | cons x xs ih =>
    cases xs with
    | nil =>
      obtain ⟨y, ys, rfl⟩ := List.exists_cons_of_ne_nil hy
      simp
    | cons x' xs =>
      have htail := ih (List.cons_ne_nil x' xs)
      simp only [List.cons_append, List.intercalate_cons_cons, List.append_assoc] at htail ⊢
      rw [htail]

/-- A blank stands between two sequences as it does inside of them. -/
theorem spaced_append {xs ys : List Bytes} (hx : xs ≠ []) (hy : ys ≠ []) :
    spaced (xs ++ ys) = spaced xs ++ blank :: spaced ys :=
  intercalate_append hx hy

/-- Fragments after others, whether there are any or not. -/
theorem Scans.spaced_append {xs ys : List Bytes} {ps qs : List Piece} (hx : Scans (spaced xs) ps)
    (hy : Scans (spaced ys) qs) : Scans (spaced (xs ++ ys)) (ps ++ qs) := by
  by_cases hxs : xs = []
  · subst hxs
    obtain rfl := Scans.eq_nil hx
    exact hy
  by_cases hys : ys = []
  · subst hys
    obtain rfl := Scans.eq_nil hy
    simpa using hx
  · rw [Forth.spaced_append hxs hys]
    exact hx.append (by decide) hy

/-- Empty fragments are left out, and have no pieces. -/
theorem scans_joinWords {ss : List Bytes} {pss : List (List Piece)} (h : List.Forall₂ Scans ss pss) :
    Scans (joinWords ss) pss.flatten := by
  suffices hfilter : ∃ qss, List.Forall₂ Scans (ss.filter (· ≠ [])) qss ∧ qss.flatten = pss.flatten by
    obtain ⟨qss, hqss, hflatten⟩ := hfilter
    exact hflatten ▸ scans_spaced hqss
  induction h with
  | nil => exact ⟨[], .nil, rfl⟩
  | @cons s ps ss pss hs hss ih =>
    obtain ⟨qss, hqss, hflatten⟩ := ih
    by_cases hnil : s = []
    · subst hnil
      obtain rfl := hs.eq_nil
      exact ⟨qss, by simpa using hqss, by simpa using hflatten⟩
    · refine ⟨ps :: qss, ?_, by simp [hflatten]⟩
      rw [List.filter_cons_of_pos (by simpa using hnil)]
      exact .cons hs hqss

/-! ### Strings -/

private theorem scan_plain {body : Bytes} (acc : Bytes) (h : IsStringBody body)
    (hb : backslash ∉ body)
    (rest : Bytes) : scan (.plain acc) (body ++ quoteMark :: rest) =
      (scan .between rest).map (.string (acc ++ body) :: ·) := by
  induction h generalizing acc with
  | nil => simp [scan]
  | @plain b s hq hb' h ih =>
    rw [List.cons_append, scan, if_neg hq, if_neg hb', ih _ (by simp_all), List.append_assoc,
      List.singleton_append]
  | escape h ih => simp at hb

private theorem scan_escaped {body : Bytes} (acc : Bytes) (h : IsStringBody body) (rest : Bytes) :
    scan (.escaped acc) (body ++ quoteMark :: rest) =
      (scan .between rest).map (.string (acc ++ body) :: ·) := by
  induction h generalizing acc with
  | nil => simp [scan]
  | @plain b s hq hb h ih =>
    rw [List.cons_append, scan, if_neg hq, if_neg hb, ih, List.append_assoc, List.singleton_append]
  | @escape b s h ih =>
    have hne : backslash ≠ quoteMark := by decide
    rw [List.cons_append, List.cons_append, scan, if_neg hne, if_pos rfl, scan, ih, List.append_assoc]
    rfl

private theorem scan_opening {x : Bytes} {p : Place} (hx : afterWord x = (p, [])) (hne : x ≠ [])
    (hbytes : ∀ b ∈ x, isSeparator b = false) (rest : Bytes) :
    scan .between (x ++ blank :: rest) = scan p rest := by
  have hblank : isSeparator blank = true := by decide
  rw [scan_gathered hne hbytes, scan, if_pos hblank, hx]
  simp

/-- A string extends to its closing quote. -/
theorem scans_stringText {body : Bytes} (h : IsStringBody body) :
    Scans (stringText body) [.string body] := by
  intro rest _
  have hplain : utf8 "s\" " = plainOpening ++ [blank] := by decide
  have hescaped : utf8 "s\\\" " = escapedOpening ++ [blank] := by decide
  rw [stringText, List.append_assoc, List.append_assoc, List.singleton_append]
  split
  · rw [hescaped, List.append_assoc, List.singleton_append,
      scan_opening (p := .escaped []) rfl (by decide) (by decide +kernel)]
    exact scan_escaped [] h rest
  · rename_i hb
    rw [hplain, List.append_assoc, List.singleton_append,
      scan_opening (p := .plain []) rfl (by decide) (by decide +kernel)]
    exact scan_plain [] h hb rest

end Forth

end PrefixForth
