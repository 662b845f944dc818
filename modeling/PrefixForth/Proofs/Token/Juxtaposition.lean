import PrefixForth.Proofs.Token.LongestMatch

/-!
# Tokens of texts put together

The longest match may reach from one text into the next: `1` and `2` put together are one numeral. A
closing parenthesis keeps them apart. No lexeme holds one but the parenthesis itself and string
literals, and a string literal has no longer one that starts with it (`not_prefix_of_isStringBody`).
So a lexeme that wins where a parenthesis still follows wins in front of any further text
(`Wins.append`).

Blanks at the end of the first text do no harm either: scanning from the middle of blanks gives what
scanning from their start gives (`Cursor.tokens_blanks`).

Lexemes do not depend on where a text starts. A map of positions that carries the byte after another
one to the byte after it carries the tokens of a text to those of the same text elsewhere
(`Lexes.relocate`).

Main statement: the tokens of a text whose last token is a closing parenthesis, followed by those of
another text moved there, are the tokens of the two texts put together (`tokenize_append`).
-/

namespace PrefixForth

open Pattern hiding some
open LexicalRule

/-! ### Moving tokens to other places -/

namespace Position

/-- The map carries the position after a byte to the position after it. -/
def Carries (f : Position → Position) : Prop :=
  ∀ p b, p.isKnown = true → f (p.after b) = (f p).after b

/-- Where a byte stands in a text that goes on at `q`, if it stands at `p` in a text of its own. -/
def beyond (q p : Position) : Position :=
  if p.line = 1 then
    ⟨q.line, q.column + (p.column - 1)⟩
  else
    ⟨q.line + (p.line - 1), p.column⟩

variable {p q : Position} {f : Position → Position}

private theorem isKnown_after (h : p.isKnown = true) (b : UInt8) : (p.after b).isKnown = true := by
  simp only [isKnown, decide_eq_true_eq] at h ⊢
  rw [after]
  split
  · exact Int.lt_add_one_of_le h.le
  · exact h

/-- From a known position, all positions behind it are known. -/
theorem isKnown_afterAll (h : p.isKnown = true) (s : Bytes) : (p.afterAll s).isKnown = true := by
  induction s generalizing p with
  | nil => exact h
  | cons b s ih => exact ih (isKnown_after h b)

/-- What carries over one byte carries over a text. -/
theorem Carries.afterAll (hf : Carries f) (h : p.isKnown = true) (s : Bytes) :
    f (p.afterAll s) = (f p).afterAll s := by
  induction s generalizing p with
  | nil => rfl
  | cons b s ih => rw [afterAll_cons, afterAll_cons, ih (isKnown_after h b), hf p b h]

theorem beyond_start (q : Position) : beyond q start = q := by
  simp [beyond, start]

/-- Positions are counted on from where the text goes on. -/
theorem carries_beyond (q : Position) : Carries (beyond q) := by
  intro p b hp
  rw [isKnown, decide_eq_true_eq] at hp
  by_cases hb : b = lineFeed
  · have hline : p.line + 1 ≠ 1 := by omega
    simp only [beyond, after, if_pos hb, if_neg hline]
    split
    · simp [*]
    · simp only [mk.injEq, and_true]
      omega
  · simp only [beyond, after, if_neg hb]
    split
    · simp only [mk.injEq, true_and]
      omega
    · rfl

end Position

/-- The token at another place. -/
def Token.relocate (f : Position → Position) (t : Token) : Token :=
  { t with position := f t.position }

/-- The error at another place. -/
def LexicalError.relocate (f : Position → Position) (e : LexicalError) : LexicalError :=
  { e with position := f e.position }

/-- The same bytes at another place. -/
def Cursor.relocate (f : Position → Position) (c : Cursor) : Cursor :=
  ⟨c.rest, f c.position⟩

section Relocation

variable {f : Position → Position} {c : Cursor}

private theorem Cursor.past_relocate (hf : Position.Carries f) (hc : c.position.isKnown = true)
    (w : Bytes) : (c.relocate f).past w = (c.past w).relocate f := by
  simp only [past, advance, relocate, hf.afterAll hc]

/-- Where a cursor gets stuck does not depend on how positions are counted. -/
theorem Cursor.Stuck.relocate {e : LexicalError} (h : c.Stuck e) (f : Position → Position) :
    (c.relocate f).Stuck (e.relocate f) := by
  cases h with
  | unrecognized more unmatched => exact .unrecognized more unmatched
  | malformed wins action => exact .malformed wins action
  | unterminated wins action => exact .unterminated wins action

/-- The same text elsewhere has the same tokens and the same error, moved there. -/
theorem Lexes.relocate {ts : List Token} {error : Option LexicalError} (h : Lexes c ts error)
    (hf : Position.Carries f) (hc : c.position.isKnown = true) :
    Lexes (c.relocate f) (ts.map (Token.relocate f)) (error.map (LexicalError.relocate f)) := by
  induction h with
  | ended p => exact .ended (f p)
  | stuck here => exact .stuck (here.relocate f)
  | skip wins action _ ih =>
    refine .skip wins action ?_
    rw [Cursor.past_relocate hf hc]
    exact ih (Position.isKnown_afterAll hc _)
  | token wins action _ ih =>
    refine .token wins action ?_
    rw [Cursor.past_relocate hf hc]
    exact ih (Position.isKnown_afterAll hc _)

end Relocation

/-! ### Bytes that a pattern cannot take -/

namespace Pattern

variable {p : Pattern} {b : UInt8} {s : Bytes}

/-- No text of the pattern holds the byte. -/
def avoids (b : UInt8) : Pattern → Bool
  | never | empty => true
  | oneOf cls => !cls b
  | seq p q | alt p q => p.avoids b && q.avoids b
  | many p => p.avoids b

/-- A byte that a pattern avoids is in none of its matches. -/
theorem not_mem_of_avoids (h : p.avoids b = true) (hs : Matches p s) : b ∉ s := by
  induction hs with
  | empty | done => simp
  | oneOf hcls =>
    intro hb
    obtain rfl := List.mem_singleton.mp hb
    simp [avoids, hcls] at h
  | seq _ _ ih ih' =>
    rw [avoids, Bool.and_eq_true] at h
    simp [ih h.1, ih' h.2]
  | left _ ih =>
    rw [avoids, Bool.and_eq_true] at h
    exact ih h.1
  | right _ ih =>
    rw [avoids, Bool.and_eq_true] at h
    exact ih h.2
  | more _ _ ih ih' =>
    have hround := h
    rw [avoids] at hround
    simp [ih hround, ih' h]

/-- A byte after which nothing can complete a text of the pattern does not start one. -/
theorem not_matches_cons (h : (p.derivative b).isNever = true) : ¬Matches p (b :: s) := fun hs =>
  not_matches_of_isNever h (matches_derivative_iff.mpr hs)

end Pattern

/-- The byte of an opening parenthesis. -/
def openingByte : UInt8 := 40

/-- The byte of a closing parenthesis. -/
def closingByte : UInt8 := 41

theorem utf8_parens : utf8 "(" = [openingByte] ∧ utf8 ")" = [closingByte] := by
  decide

private theorem avoids_closingByte : ∀ r ∈ lexicalRules, r.action ≠ .token .closeParen →
    r.action ≠ .token .stringLiteral → r.action ≠ .unterminated →
    r.pattern.avoids closingByte = true := by
  decide +kernel

private theorem isNever_derivative_quoteMark :
    ∀ r ∈ lexicalRules, r.action ≠ .token .stringLiteral →
    r.action ≠ .unterminated → (r.pattern.derivative quoteMark).isNever = true := by
  decide +kernel

private theorem pattern_of_unterminated : ∀ r ∈ lexicalRules, r.action = .unterminated →
    r.pattern = openString := by
  simp [lexicalRules]

/-- The only rule that skips is the one for blanks. -/
theorem pattern_of_skip : ∀ r ∈ lexicalRules, r.action = .skip →
    r.pattern = Pattern.some (oneOf isBlankByte) := by
  simp [lexicalRules]

/-! ### Strings -/

/-- A string body does not go on behind a quote that ends another. -/
theorem not_prefix_of_isStringBody {body body' : Bytes} (h : IsStringBody body)
    (h' : IsStringBody body') : ¬body ++ [quoteMark] <+: body' := by
  induction h generalizing body' with
  | nil =>
    intro hstart
    cases h' with
    | nil => simp at hstart
    | plain hq => exact hq (List.cons_prefix_cons.mp hstart).1.symm
    | escape => exact absurd (List.cons_prefix_cons.mp hstart).1 (by decide)
  | plain hq hb _ ih =>
    intro hstart
    cases h' with
    | nil => simp at hstart
    | plain _ _ h' => exact ih h' (List.cons_prefix_cons.mp hstart).2
    | escape => exact hb (List.cons_prefix_cons.mp hstart).1
  | escape _ ih =>
    intro hstart
    cases h' with
    | nil => simp at hstart
    | plain _ hb => exact hb (List.cons_prefix_cons.mp hstart).1.symm
    | escape h' =>
      exact ih h' (List.cons_prefix_cons.mp (List.cons_prefix_cons.mp hstart).2).2

/-- The texts that start with a quote, closed or not. -/
theorem string_of_matches {r : LexicalRule} {w : Bytes} (hr : r ∈ lexicalRules)
    (haction : r.action = .token .stringLiteral ∨ r.action = .unterminated)
    (hm : r.pattern.Matches w) :
    ∃ body, IsStringBody body ∧
      (w = quoteMark :: (body ++ [quoteMark]) ∨ w = quoteMark :: body) := by
  rcases haction with haction | haction
  · obtain ⟨body, rfl, hbody⟩ := spells_of_mem_lexicalRules hr hm (k := .stringLiteral)
      (by rw [haction]; rfl)
    exact ⟨body, hbody, .inl rfl⟩
  · rw [pattern_of_unterminated r hr haction] at hm
    obtain ⟨body, rfl, hbody⟩ := matches_openString hm
    exact ⟨body, hbody, .inr rfl⟩

/-! ### The end of a text -/

section Boundary

variable {s u w w' : Bytes} {r r' : LexicalRule}

/-- A lexeme that holds a closing parenthesis is the parenthesis or a string. -/
theorem action_of_mem_closingByte (hr : r ∈ lexicalRules) (hm : r.pattern.Matches w)
    (hw : closingByte ∈ w) :
    w = [closingByte] ∨ r.action = .token .stringLiteral ∨ r.action = .unterminated := by
  by_cases hclose : r.action = .token .closeParen
  · exact .inl (spells_of_mem_lexicalRules hr hm (k := .closeParen) (by rw [hclose]; rfl))
  · refine .inr (Decidable.byContradiction fun hnot => ?_)
    rw [not_or] at hnot
    exact not_mem_of_avoids (avoids_closingByte r hr hclose hnot.1 hnot.2) hm hw

/-- What starts with a quote is a string. -/
theorem action_of_quoteMark (hr : r ∈ lexicalRules) (hm : r.pattern.Matches (quoteMark :: w)) :
    r.action = .token .stringLiteral ∨ r.action = .unterminated := by
  refine Decidable.byContradiction fun hnot => ?_
  rw [not_or] at hnot
  exact not_matches_cons (isNever_derivative_quoteMark r hr hnot.1 hnot.2) hm

/-- No string is longer than a closed string that it starts with. -/
theorem length_le_of_starts_closed {body : Bytes} (hbody : IsStringBody body)
    (hstart : quoteMark :: (body ++ [quoteMark]) <+: w') (hr' : r' ∈ lexicalRules)
    (hm' : r'.pattern.Matches w') : w'.length ≤ (quoteMark :: (body ++ [quoteMark])).length := by
  obtain ⟨v, rfl⟩ := hstart
  rw [List.cons_append] at hm'
  obtain ⟨body', hbody', heq | heq⟩ := string_of_matches hr' (action_of_quoteMark hr' hm') hm'
  · -- either both strings end with the same quote, or the first one ends within the second
    have hbodies : body ++ [quoteMark] ++ v = body' ++ [quoteMark] := (List.cons.inj heq).2
    rcases List.eq_nil_or_concat v with rfl | ⟨v', b, rfl⟩
    · simp
    · rw [List.concat_eq_append, ← List.append_assoc] at hbodies
      have hstart : body ++ [quoteMark] <+: body' :=
        ⟨v', (List.append_inj_left' hbodies rfl)⟩
      exact absurd hstart (not_prefix_of_isStringBody hbody hbody')
  · exact absurd ⟨v, (List.cons.inj heq).2⟩ (not_prefix_of_isStringBody hbody hbody')

/-- A lexeme that reaches beyond a text with a closing parenthesis is a string. -/
theorem exists_string_of_length_lt (hr' : r' ∈ lexicalRules) (hm' : r'.pattern.Matches w')
    (hstart : s <+: w') (hlt : s.length < w'.length) (hs : closingByte ∈ s) :
    ∃ w'', w' = quoteMark :: w'' := by
  rcases action_of_mem_closingByte hr' hm' (hstart.mem hs) with rfl | haction
  · exact absurd (List.length_pos_of_mem hs) (by simpa using hlt)
  · obtain ⟨body, -, rfl | rfl⟩ := string_of_matches hr' haction hm'
    · exact ⟨_, rfl⟩
    · exact ⟨_, rfl⟩

/-- Where a closing parenthesis is still to come, a lexeme that wins does so whatever follows the
text, unless it is a string without end. -/
theorem Wins.append (h : Wins lexicalRules s r w) (hs : closingByte ∈ s)
    (hr : r.action ≠ .unterminated) (u : Bytes) : Wins lexicalRules (s ++ u) r w := by
  refine ⟨h.nonempty, h.starts.trans (List.prefix_append s u), h.matched, ?_, h.first⟩
  intro r' hr' w' hw' hm'
  rcases Nat.lt_or_ge s.length w'.length with hlt | hle
  · -- the lexeme would be a string, and so the one that wins a closed string at its start
    rw [mem_language_iff] at hm'
    have hsw' : s <+: w' := List.prefix_of_prefix_length_le (List.prefix_append s u) hw' hlt.le
    obtain ⟨w'', rfl⟩ := exists_string_of_length_lt hr' hm' hsw' hlt hs
    obtain ⟨b, v, rfl⟩ := List.exists_cons_of_ne_nil h.nonempty
    obtain ⟨rfl, -⟩ := List.cons_prefix_cons.mp (h.starts.trans hsw')
    have hm := mem_language_iff.mp h.matched
    have haction := (action_of_quoteMark h.mem hm).resolve_right hr
    obtain ⟨body, heq, hbody⟩ := spells_of_mem_lexicalRules h.mem hm (k := .stringLiteral)
      (by rw [haction]; rfl)
    have hstart := h.starts.trans hsw'
    rw [heq] at hstart ⊢
    exact length_le_of_starts_closed hbody hstart hr' hm'
  · exact h.longest r' hr' w' (List.prefix_of_prefix_length_le hw' (List.prefix_append s u) hle) hm'

end Boundary

/-! ### Blanks -/

/-- No token begins with a blank. -/
theorem isNever_derivative_blank {b : UInt8} (hb : isBlankByte b = true) {r : LexicalRule}
    (hr : r ∈ lexicalRules) (haction : r.action ≠ .skip) :
    (r.pattern.derivative b).isNever = true := by
  have hall : ∀ b ∈ [(32 : UInt8), 9, 10, 13], ∀ r ∈ lexicalRules, r.action ≠ .skip →
      (r.pattern.derivative b).isNever = true := by decide +kernel
  refine hall b ?_ r hr haction
  simpa [isBlankByte, or_assoc] using hb

/-- All the blanks before something else are one lexeme. -/
theorem exists_wins_blanks {w s : Bytes} (hw : ∀ b ∈ w, isBlankByte b = true) (hne : w ≠ [])
    (hs : ∀ b ∈ s.head?, isBlankByte b = false) :
    ∃ r, r.action = .skip ∧ Wins lexicalRules (w ++ s) r w := by
  refine ⟨⟨Pattern.some (oneOf isBlankByte), .skip⟩, rfl, hne, List.prefix_append w s,
    mem_language_iff.mpr (matches_some_oneOf_iff.mpr ⟨hne, hw⟩), ?_, [], _, rfl, nofun⟩
  intro r' hr' w' hw' hm'
  rw [mem_language_iff] at hm'
  by_cases haction : r'.action = .skip
  · rw [pattern_of_skip r' hr' haction, matches_some_oneOf_iff] at hm'
    by_contra hlt
    -- a longer lexeme would hold the first byte that is no blank
    have hstart : w <+: w' :=
      List.prefix_of_prefix_length_le (List.prefix_append w s) hw' (Nat.le_of_not_le hlt)
    obtain ⟨v, rfl⟩ := hstart
    obtain ⟨b, v, rfl⟩ : ∃ b v', v = b :: v' :=
      List.exists_cons_of_ne_nil fun hnil => hlt (by simp [hnil])
    obtain ⟨x, hx⟩ := (List.prefix_append_right_inj w).mp hw'
    have hblank := hm'.2 b (by simp)
    rw [hs b (by simp [← hx])] at hblank
    cases hblank
  · rcases w' with _ | ⟨b, v⟩
    · exact Nat.zero_le _
    · obtain ⟨c, w, rfl⟩ := List.exists_cons_of_ne_nil hne
      obtain ⟨rfl, -⟩ := List.cons_prefix_cons.mp hw'
      have hnever := isNever_derivative_blank (hw b List.mem_cons_self) hr' haction
      exact absurd hm' (not_matches_cons hnever)

namespace Cursor

/-- The place after a lexeme at the start of a text. -/
theorem past_append (w s : Bytes) (p : Position) : past ⟨w ++ s, p⟩ w = ⟨s, p.afterAll w⟩ := by
  simp [past, advance]

private theorem tokens_blank_run {w s : Bytes} (hw : ∀ b ∈ w, isBlankByte b = true)
    (hs : ∀ b ∈ s.head?, isBlankByte b = false) (p : Position) :
    tokens ⟨w ++ s, p⟩ = tokens ⟨s, p.afterAll w⟩ := by
  by_cases hne : w = []
  · rw [hne]
    rfl
  · obtain ⟨r, haction, hwins⟩ := exists_wins_blanks hw hne hs
    refine tokens_congr ?_
    have hscan : scan ⟨w ++ s, p⟩ = handle ⟨w ++ s, p⟩ w r.action := scan_of_wins hwins
    rw [hscan, haction, handle, past_append]

/-- Blanks before a text are passed over, whether or not the text itself starts with more of them.
-/
theorem tokens_blanks {w : Bytes} (hw : ∀ b ∈ w, isBlankByte b = true) (s : Bytes) (p : Position) :
    tokens ⟨w ++ s, p⟩ = tokens ⟨s, p.afterAll w⟩ := by
  have hblanks : ∀ b ∈ s.takeWhile isBlankByte, isBlankByte b = true := fun b hb => by
    simpa using List.all_eq_true.mp List.all_takeWhile b hb
  have hrest : ∀ b ∈ (s.dropWhile isBlankByte).head?, isBlankByte b = false := fun b hb => by
    have := List.head?_dropWhile_not isBlankByte s
    rw [Option.mem_def.mp hb] at this
    simpa using this
  rw [← List.takeWhile_append_dropWhile (p := isBlankByte) (l := s), ← List.append_assoc,
    tokens_blank_run (by simpa [or_imp, forall_and] using ⟨hw, hblanks⟩) hrest,
    tokens_blank_run hblanks hrest, Position.afterAll_append]

end Cursor

/-! ### Two texts -/

namespace Lexes

variable {c : Cursor} {ts us : List Token} {error : Option LexicalError} {u : Bytes}

/-- The relation has the tokens of the cursor as its only result. -/
theorem iff_tokens_eq : Lexes c ts error ↔ c.tokens = (ts, error) := by
  refine ⟨tokens_eq, fun h => ?_⟩
  have hrun := of_tokens c
  rwa [h] at hrun

/-- A text without tokens is blank. -/
theorem isBlankByte_of_nil (h : Lexes c [] none) : ∀ b ∈ c.rest, isBlankByte b = true := by
  generalize hts : ([] : List Token) = ts at h
  generalize herror : (none : Option LexicalError) = error at h
  induction h with
  | ended => simp
  | stuck => cases herror
  | token => cases hts
  | @skip c r w ts error wins action _ ih =>
    obtain ⟨v, hv⟩ := wins.starts
    have hm := mem_language_iff.mp wins.matched
    rw [pattern_of_skip r wins.mem action, matches_some_oneOf_iff] at hm
    have hpast : (c.past w).rest = v := by simp [Cursor.past, Cursor.advance, ← hv]
    have hrest := ih hts herror
    rw [hpast] at hrest
    rw [← hv]
    simpa [or_imp, forall_and] using ⟨hm.2, hrest⟩

/-- A text with a closing parenthesis among its tokens holds one. -/
theorem mem_closingByte (h : Lexes c ts error) {t : Token} (ht : t ∈ ts)
    (hk : t.kind = .closeParen) : closingByte ∈ c.rest := by
  have hdrop : ∀ {c : Cursor} {w : Bytes}, closingByte ∈ (c.past w).rest → closingByte ∈ c.rest :=
    fun h => List.mem_of_mem_drop h
  induction h with
  | ended | stuck => cases ht
  | skip _ _ _ ih => exact hdrop (ih ht)
  | @token c r w kind ts error wins action _ ih =>
    rcases List.mem_cons.mp ht with rfl | ht
    · have hspells := spells_of_mem_lexicalRules wins.mem (mem_language_iff.mp wins.matched) action
      obtain rfl : kind = .closeParen := hk
      obtain rfl : w = [closingByte] := hspells
      exact wins.starts.mem List.mem_cons_self
    · exact hdrop (ih ht)

end Lexes

/-- The tokens are none, or the last of them is a closing parenthesis. -/
def EndsClosed (ts : List Token) : Prop :=
  ∀ t ∈ ts.getLast?, t.kind = .closeParen

/-- Without the first token, the last one is the same. -/
theorem EndsClosed.tail {t : Token} {ts : List Token} (h : EndsClosed (t :: ts)) (hne : ts ≠ []) :
    EndsClosed ts := by
  intro t' ht'
  obtain ⟨t₀, ts, rfl⟩ := List.exists_cons_of_ne_nil hne
  exact h t' (by rwa [List.getLast?_cons_cons])

private theorem EndsClosed.exists_closeParen {ts : List Token} (h : EndsClosed ts) (hne : ts ≠ []) :
    ∃ t ∈ ts, t.kind = .closeParen :=
  ⟨ts.getLast hne, List.getLast_mem hne, h _ (List.getLast?_eq_some_getLast hne)⟩

/-- The cursor in front of another text. -/
def Cursor.before (c : Cursor) (u : Bytes) : Cursor :=
  ⟨c.rest ++ u, c.position⟩

/-- The place after the rest of the text. -/
def Cursor.ending (c : Cursor) : Position :=
  c.position.afterAll c.rest

section Append

variable {c : Cursor} {r : LexicalRule} {w u : Bytes}

private theorem Cursor.past_before (h : w <+: c.rest) (u : Bytes) :
    (c.before u).past w = (c.past w).before u := by
  obtain ⟨v, hv⟩ := h
  simp [past, advance, before, ← hv]

private theorem Cursor.ending_past (c : Cursor) (w : Bytes) : (c.past w).ending = c.ending := by
  simp only [ending, past, advance]
  rw [← Position.afterAll_append, List.take_append_drop]

/-- The tokens of a text that ends with a closing parenthesis, and then those of what follows. -/
theorem Lexes.append {ts us : List Token} {error : Option LexicalError} (h : Lexes c ts none)
    (hts : EndsClosed ts) (hu : Lexes ⟨u, c.ending⟩ us error) :
    Lexes (c.before u) (ts ++ us) error := by
  generalize hnone : (none : Option LexicalError) = e at h
  induction h with
  | ended p => exact hu
  | stuck => cases hnone
  | @skip c r w ts e wins action rest ih =>
    subst hnone
    by_cases hne : ts = []
    · subst hne
      -- no token is left: all that is left are blanks, and more blanks may follow
      have hblank := (Lexes.skip wins action rest).isBlankByte_of_nil
      rw [iff_tokens_eq] at hu ⊢
      rw [Cursor.before, Cursor.tokens_blanks hblank, List.nil_append]
      exact hu
    · obtain ⟨t, ht, hk⟩ := hts.exists_closeParen hne
      have hclose := (Lexes.skip wins action rest).mem_closingByte ht hk
      refine .skip (wins.append hclose (by simp [action]) u) action ?_
      rw [Cursor.past_before wins.starts]
      exact ih hts (by rwa [Cursor.ending_past]) rfl
  | @token c r w kind ts e wins action rest ih =>
    subst hnone
    obtain ⟨t, ht, hk⟩ := hts.exists_closeParen (List.cons_ne_nil _ _)
    -- a closing parenthesis is still to come, so no lexeme reaches the end of the text
    have hclose := (Lexes.token wins action rest).mem_closingByte ht hk
    have haction : r.action ≠ .unterminated := fun h => by
      rw [h] at action
      exact action
    refine .token (wins.append hclose haction u) action ?_
    rw [Cursor.past_before wins.starts]
    by_cases hne : ts = []
    · subst hne
      exact ih (by simp [EndsClosed]) (by rwa [Cursor.ending_past]) rfl
    · exact ih (hts.tail hne) (by rwa [Cursor.ending_past]) rfl

end Append

/-- Where the byte at a position of the second text stands when the text `s` comes before it. -/
def shiftPast (s : Bytes) : Position → Position :=
  .beyond (Position.start.afterAll s)

/-- Positions in the second text are counted on from the first. -/
theorem carries_shiftPast (s : Bytes) : Position.Carries (shiftPast s) :=
  Position.carries_beyond _

/-- If the last token of a text is a closing parenthesis, or there is none, the tokens and the error
of another text behind it are as they are by themselves, but for their places. -/
theorem tokenize_append {s u : Bytes} {ts us : List Token} {error : Option LexicalError}
    (hs : tokenize s = (ts, none)) (hts : EndsClosed ts) (hu : tokenize u = (us, error)) :
    tokenize (s ++ u) = (ts ++ us.map (Token.relocate (shiftPast s)),
      error.map (LexicalError.relocate (shiftPast s))) := by
  have hfirst : Lexes (.ofText s) ts none := Lexes.iff_tokens_eq.mpr hs
  have hsecond : Lexes (.ofText u) us error := Lexes.iff_tokens_eq.mpr hu
  have hmoved := hsecond.relocate (carries_shiftPast s) rfl
  have hplace : (Cursor.ofText u).relocate (shiftPast s) = ⟨u, (Cursor.ofText s).ending⟩ := by
    simp only [Cursor.relocate, Cursor.ofText, Cursor.ending, shiftPast, Position.beyond_start]
  rw [hplace] at hmoved
  exact Lexes.iff_tokens_eq.mp (hfirst.append hts hmoved)

end PrefixForth
